import OwnScript.Machine.Matching
import OwnScript.Proofs.Machine.Storage

/-!
Records as maps that remember the order of insertion. The fields of a record are described by all that was stored in
them, name by name and in the order of time: they list the names in the order in which these came first, and under
each name stands what was stored under it last. A literal and an assignment to a field keep to that.
-/

namespace OwnScript

namespace Fields

variable {fields : Fields} {name other : String} {value : Value} {writes earlier : List (String × Value)}

/-- The value that was stored last under a name. -/
def lastStored? (writes : List (String × Value)) (name : String) : Option Value :=
  (writes.reverse.find? fun write => write.1 == name).map (·.2)

/-- The fields are what comes of storing values one after the other. -/
structure Tells (fields : Fields) (writes : List (String × Value)) : Prop where
  names : fields.entries.map (·.1) = (writes.map (·.1)).eraseDups
  values : ∀ name, fields.find? name = lastStored? writes name

@[simp] theorem lastStored?_append (writes : List (String × Value)) (name other : String) (value : Value) :
    lastStored? (writes ++ [(name, value)]) other = if name = other then some value else lastStored? writes other := by
  simp only [lastStored?, List.reverse_append, List.reverse_singleton, List.singleton_append, List.find?_cons]
  by_cases hname : name = other
  · simp [hname]
  · have hfalse : (name == other) = false := by simpa using hname
    simp [hfalse, hname]

/-- A value was stored under a name if and only if the name occurs among the writes. -/
theorem lastStored?_eq_none : lastStored? writes name = none ↔ name ∉ writes.map (·.1) := by
  simp only [lastStored?, Option.map_eq_none_iff, List.find?_eq_none, List.mem_reverse, beq_iff_eq, List.mem_map,
    not_exists, not_and]

theorem contains_iff : fields.contains name = true ↔ name ∈ fields.entries.map (·.1) := by
  simp only [contains, List.any_eq_true, beq_iff_eq, List.mem_map]

theorem find?_replaceFirst {entries : List (String × Value)} (hthere : name ∈ entries.map (·.1)) :
    ((replaceFirst name value entries).find? fun entry => entry.1 == other).map (·.2) =
      if name = other then some value else (entries.find? fun entry => entry.1 == other).map (·.2) := by
  induction entries with
  | nil => cases hthere
  | cons entry rest ih =>
    rw [replaceFirst]
    by_cases hentry : entry.1 = name
    · subst hentry
      by_cases hother : entry.1 = other
      · simp [hother]
      · simp [hother]
    · rw [if_neg (by simpa using hentry), List.find?_cons, List.find?_cons]
      have hrest : name ∈ rest.map (·.1) := by
        simpa [Ne.symm hentry] using hthere
      by_cases hother : entry.1 = other
      · have hne : name ≠ other := fun h => hentry (hother.trans h.symm)
        simp [hother, hne]
      · have hfalse : (entry.1 == other) = false := by simpa using hother
        rw [hfalse]
        exact ih hrest

/-- A value is found under the name that it was stored under, and the others are found as before. -/
theorem find?_put : (fields.put name value).find? other = if name = other then some value else fields.find? other := by
  unfold put
  split
  · rename_i hthere
    exact find?_replaceFirst (contains_iff.mp hthere)
  · rename_i hnew
    simp only [find?, append, List.find?_append]
    by_cases hname : name = other
    · have hnone : fields.entries.find? (fun entry => entry.1 == other) = none := by
        rw [List.find?_eq_none]
        intro entry hentry hsame
        refine hnew (contains_iff.mpr (List.mem_map.mpr ⟨entry, hentry, ?_⟩))
        rw [hname]
        exact beq_iff_eq.mp hsame
      simp [hname, hnone]
    · simp [hname]

/-- A name keeps its place, and a new one comes last. -/
theorem names_put : (fields.put name value).entries.map (·.1) =
    if name ∈ fields.entries.map (·.1) then fields.entries.map (·.1) else fields.entries.map (·.1) ++ [name] := by
  unfold put
  split
  · rename_i hthere
    rw [if_pos (contains_iff.mp hthere)]
    exact Exec.replaceFirst_names _ _ _
  · rename_i hnew
    rw [if_neg fun h => hnew (contains_iff.mpr h)]
    simp [append]

end Fields

/-- One more text comes last among those without repetitions, unless it is there. -/
theorem eraseDups_append_singleton (names : List String) (name : String) :
    (names ++ [name]).eraseDups = if name ∈ names then names.eraseDups else names.eraseDups ++ [name] := by
  rw [List.eraseDups_append]
  split
  · rename_i hthere
    simp [List.removeAll, hthere]
  · rename_i hnew
    simp [List.removeAll, hnew, List.eraseDups_cons]

theorem nodup_eraseDups (names : List String) : names.eraseDups.Nodup := by
  induction names using List.reverseRecOn with
  | nil => exact List.nodup_nil
  | append_singleton names name ih =>
    rw [eraseDups_append_singleton]
    split
    · exact ih
    · rename_i hnew
      refine List.nodup_append.mpr ⟨ih, List.nodup_singleton _, ?_⟩
      rintro _ hthere _ hsame rfl
      rw [List.mem_singleton.mp hsame, List.mem_eraseDups] at hthere
      exact hnew hthere

namespace Fields

variable {fields : Fields} {name other : String} {value : Value} {writes earlier : List (String × Value)}

theorem Tells.nodup (htells : fields.Tells writes) : (fields.entries.map (·.1)).Nodup :=
  htells.names ▸ nodup_eraseDups _

theorem tells_empty : Tells {} [] :=
  ⟨rfl, fun _ => rfl⟩

/-- One more value is stored. -/
theorem Tells.put (htells : fields.Tells writes) (name : String) (value : Value) :
    (fields.put name value).Tells (writes ++ [(name, value)]) where
  names := by
    rw [names_put, htells.names, List.map_append, List.map_singleton, eraseDups_append_singleton]
    simp only [List.mem_eraseDups]
  values other := by rw [find?_put, lastStored?_append, htells.values]

/-- More values are stored. -/
theorem Tells.foldl (htells : fields.Tells earlier) (writes : List (String × Value)) :
    (writes.foldl (fun fields write => fields.put write.1 write.2) fields).Tells (earlier ++ writes) := by
  induction writes generalizing fields earlier with
  | nil =>
    rw [List.append_nil]
    exact htells
  | cons write rest ih =>
    rw [List.append_cons]
    exact ih (htells.put write.1 write.2)

/-- Fields are described by what they list. -/
theorem Tells.of_entries {same : Fields} (htells : fields.Tells writes) (hsame : same.entries = fields.entries) :
    same.Tells writes where
  names := by rw [hsame, htells.names]
  values name := by rw [find?, hsame, ← find?, htells.values]

/-- A literal lists what comes of storing its values from left to right. -/
theorem entries_ofLiteral (names : List String) (values : List Value) : (ofLiteral names values).entries =
    ((names.zip values).foldl (fun fields write => fields.put write.1 write.2) ({} : Fields)).entries := by
  have hfold (writes : List (String × Value)) (fields : Fields) :
      writes.foldl (fun entries entry => if entries.any (fun e => e.1 == entry.1) then
        replaceFirst entry.1 entry.2 entries else entries ++ [entry]) fields.entries =
      (writes.foldl (fun fields write => fields.put write.1 write.2) fields).entries := by
    induction writes generalizing fields with
    | nil => rfl
    | cons write rest ih =>
      rw [List.foldl_cons, List.foldl_cons, ← ih]
      congr 1
      unfold put contains
      split
      · rfl
      · rfl
  exact hfold _ {}

theorem tells_ofLiteral (names : List String) (values : List Value) :
    (ofLiteral names values).Tells (names.zip values) :=
  (tells_empty.foldl _).of_entries (entries_ofLiteral names values)

/-- Fields with distinct names are described by themselves. -/
theorem tells_self (hnodup : (fields.entries.map (·.1)).Nodup) : fields.Tells fields.entries := by
  obtain ⟨entries, capacity⟩ := fields
  dsimp only at hnodup ⊢
  induction entries using List.reverseRecOn with
  | nil => exact ⟨rfl, fun _ => rfl⟩
  | append_singleton entries entry ih =>
    rw [List.map_append, List.nodup_append] at hnodup
    have hnew : entry.1 ∉ entries.map (·.1) := fun hthere =>
      hnodup.2.2 _ hthere _ (List.mem_singleton_self _) rfl
    refine Tells.of_entries ((ih hnodup.1).put entry.1 entry.2) ?_
    unfold put
    rw [if_neg fun h => hnew (contains_iff.mp h)]
    rfl

/-- A destructure looks at what was stored last under each of its names. -/
theorem Tells.matchFields (htells : fields.Tells writes) (heap : Heap) (matchers : List (String × Matcher)) :
    heap.matchFields matchers fields =
      (matchers.mapM fun part => (lastStored? writes part.1).bind (heap.matchValue part.2)).map List.flatten := by
  induction matchers with
  | nil => rfl
  | cons part rest ih =>
    obtain ⟨name, matcher⟩ := part
    rw [Heap.matchFields, htells.values, List.mapM_cons, ih]
    cases lastStored? writes name with
    | none => rfl
    | some value =>
      cases hbound : heap.matchValue matcher value with
      | none => simp [hbound]
      | some bound =>
        simp only [hbound, Option.bind_some]
        cases rest.mapM fun part => (lastStored? writes part.1).bind (heap.matchValue part.2) with
        | none => rfl
        | some parts => rfl

end Fields

end OwnScript
