import OwnScript.Proofs.Machine.Patterns

/-!
Where the variables of a pattern stand. A position says which field to follow on each level of a pattern, and in
a value that the pattern accepts it leads to a component. The matcher of a pattern accepts the same values, and
what it binds are the components at the positions of the variables, from left to right.
-/

namespace OwnScript

/-- A pattern accepts a value. -/
inductive Pattern.Accepts (heap : Heap) : Pattern → Value → Prop where
  | wildcard (location : Location) (value : Value) : Accepts heap (.wildcard location) value
  | bind (location : Location) (name : String) (binding : Option BindingId) (value : Value) :
      Accepts heap (.bind location name binding) value
  | scalar (location : Location) {scalar : Scalar} {value : Value} : heap.equals value (.scalar scalar) = true →
      Accepts heap (.literal location (.scalar scalar)) value
  | text (location : Location) {text : String} {value : Value} : heap.objectOf? value = some (.string text) →
      Accepts heap (.literal location (.text text)) value
  | destructure (location : Location) {fields : List (String × Pattern)} {value : Value} {record : Fields} :
      heap.objectOf? value = some (.record record) →
      (∀ field ∈ fields, (record.find? field.1).isSome) →
      (∀ field ∈ fields, ∀ inner, record.find? field.1 = some inner → Accepts heap field.2 inner) →
      Accepts heap (.destructure location fields) value

/-- Which field to follow on each level of a pattern, from the outside in. -/
abbrev Position := List Nat

/-- The pattern at a position. -/
def Pattern.at? : Pattern → Position → Option Pattern
  | pattern, [] => some pattern
  | .destructure _ fields, field :: rest =>
    match fields[field]? with
    | some (_, inner) => inner.at? rest
    | none => none
  | _, _ :: _ => none

/-- The component of a value to which a position of a pattern leads. -/
def Pattern.component? (heap : Heap) : Pattern → Position → Value → Option Value
  | _, [], value => some value
  | .destructure _ fields, field :: rest, value =>
    match fields[field]?, heap.objectOf? value with
    | some (name, inner), some (.record record) => (record.find? name).bind (inner.component? heap rest)
    | _, _ => none
  | _, _ :: _, _ => none

/-- What a matcher binds in a value that a pattern accepts: one value for each variable, from left to right, and
it is the component at the position of the variable. -/
structure Pattern.Binds (heap : Heap) (pattern : Pattern) (value : Value) (bound : List Value) : Prop where
  accepts : pattern.Accepts heap value
  count : bound.length = pattern.toMatcher.bindingCount
  placed : ∃ positions : List Position,
    positions.Pairwise (· < ·) ∧
    (∀ position, position ∈ positions ↔
      ∃ location name binding, pattern.at? position = some (.bind location name binding)) ∧
    List.Forall₂ (fun position var => ∃ name, pattern.at? position = some (.bind var.location name var.binding))
      positions pattern.vars ∧
    List.Forall₂ (fun position component => pattern.component? heap position value = some component) positions bound

variable {heap : Heap} {value : Value} {bound : List Value}

section Acceptance

theorem Pattern.accepts_destructure {location : Location} {fields : List (String × Pattern)} {record : Fields}
    (hrecord : heap.objectOf? value = some (.record record)) :
    (Pattern.destructure location fields).Accepts heap value ↔
      ∀ field ∈ fields, ∃ inner, record.find? field.1 = some inner ∧ field.2.Accepts heap inner := by
  constructor
  · intro haccepts
    cases haccepts with
    | destructure _ hfound hthere hinner =>
      cases hrecord.symm.trans hfound
      intro field hfield
      obtain ⟨inner, hvalue⟩ := Option.isSome_iff_exists.mp (hthere field hfield)
      exact ⟨inner, hvalue, hinner field hfield inner hvalue⟩
  · intro hfields
    refine .destructure location hrecord (fun field hfield => ?_) fun field hfield inner hvalue => ?_
    · obtain ⟨inner, hvalue, -⟩ := hfields field hfield
      exact Option.isSome_of_mem hvalue
    · obtain ⟨other, hother, haccepts⟩ := hfields field hfield
      cases hvalue.symm.trans hother
      exact haccepts

mutual

/-- The variables of a pattern stand for something exactly if the pattern accepts. -/
theorem Pattern.isSome_bindings? (pattern : Pattern) (value : Value) :
    (pattern.bindings? heap value).isSome ↔ pattern.Accepts heap value := by
  cases pattern with
  | wildcard location => exact ⟨fun _ => .wildcard location value, fun _ => rfl⟩
  | bind location name binding => exact ⟨fun _ => .bind location name binding value, fun _ => rfl⟩
  | literal location literal =>
    cases literal with
    | scalar scalar =>
      simp only [Pattern.bindings?]
      constructor
      · intro hsome
        split at hsome
        · exact .scalar location ‹_›
        · cases hsome
      · rintro ⟨⟩
        simp_all
    | text text =>
      simp only [Pattern.bindings?]
      constructor
      · intro hsome
        split at hsome
        · split at hsome
          · exact .text location (by simp_all)
          · cases hsome
        · cases hsome
      · rintro ⟨⟩
        simp_all
  | destructure location fields =>
    simp only [Pattern.bindings?]
    split
    · rw [Pattern.accepts_destructure ‹_›]
      exact Pattern.isSome_fieldBindings? fields _
    · rename_i hother
      refine ⟨nofun, fun haccepts => ?_⟩
      cases haccepts with
      | destructure _ hrecord => exact absurd hrecord (hother _)
termination_by structural pattern

theorem Pattern.isSome_fieldBindings? (fields : List (String × Pattern)) (record : Fields) :
    (Pattern.fieldBindings? heap fields record).isSome ↔
      ∀ field ∈ fields, ∃ inner, record.find? field.1 = some inner ∧ field.2.Accepts heap inner := by
  cases fields with
  | nil => simp [Pattern.fieldBindings?]
  | cons field rest =>
    obtain ⟨name, pattern⟩ := field
    have hrest := Pattern.isSome_fieldBindings? rest record
    rw [List.forall_mem_cons, ← hrest]
    simp only [Pattern.fieldBindings?]
    cases record.find? name with
    | none => simp
    | some inner =>
      have hfirst := Pattern.isSome_bindings? pattern inner
      cases hbound : pattern.bindings? heap inner <;> rw [hbound] at hfirst <;>
        cases Pattern.fieldBindings? heap rest record <;> simp [hbound, ← hfirst]
termination_by structural fields

end

end Acceptance

section Counting

theorem Pattern.length_bindings? {pattern : Pattern} {bindings : List Binding}
    (hbound : pattern.bindings? heap value = some bindings) : bindings.length = pattern.vars.length := by
  have hsame := congrArg List.length (pattern.declarations_bindings hbound)
  simpa using hsame

end Counting

section Positions

mutual

/-- The positions of the variables of a pattern, from left to right. -/
def Pattern.positions : Pattern → List Position
  | .bind _ _ _ => [[]]
  | .destructure _ fields => Pattern.fieldPositions 0 fields
  | .wildcard _ | .literal _ _ => []

/-- The positions of the variables in the patterns of fields, of which the first has the number that is given. -/
def Pattern.fieldPositions (first : Nat) : List (String × Pattern) → List Position
  | [] => []
  | (_, pattern) :: rest => pattern.positions.map (first :: ·) ++ Pattern.fieldPositions (first + 1) rest

end

variable {first : Nat} {position : Position}

theorem Pattern.mem_fieldPositions {fields : List (String × Pattern)} :
    position ∈ Pattern.fieldPositions first fields ↔
      ∃ place field rest, fields[place]? = some field ∧ rest ∈ field.2.positions ∧
        position = (first + place) :: rest := by
  induction fields generalizing first with
  | nil => simp [Pattern.fieldPositions]
  | cons field others ih =>
    rw [Pattern.fieldPositions, List.mem_append, List.mem_map, ih]
    constructor
    · rintro (⟨rest, hrest, rfl⟩ | ⟨place, inner, rest, hinner, hrest, rfl⟩)
      · exact ⟨0, field, rest, rfl, hrest, rfl⟩
      · exact ⟨place + 1, inner, rest, hinner, hrest, by rw [Nat.add_right_comm]; rfl⟩
    · rintro ⟨place, inner, rest, hinner, hrest, rfl⟩
      cases place with
      | zero =>
        cases hinner
        exact .inl ⟨rest, hrest, rfl⟩
      | succ place => exact .inr ⟨place, inner, rest, hinner, hrest, by rw [Nat.add_right_comm]; rfl⟩

mutual

/-- The listed positions are those of variables. -/
theorem Pattern.mem_positions (pattern : Pattern) (position : Position) :
    position ∈ pattern.positions ↔
      ∃ location name binding, pattern.at? position = some (.bind location name binding) := by
  cases pattern with
  | wildcard location => cases position <;> simp [Pattern.positions, Pattern.at?]
  | literal location literal => cases position <;> simp [Pattern.positions, Pattern.at?]
  | bind location name binding => cases position <;> simp [Pattern.positions, Pattern.at?]
  | destructure location fields =>
    rw [Pattern.positions, Pattern.mem_fieldPositions]
    cases position with
    | nil => simp [Pattern.at?]
    | cons place rest =>
      have hinner := Pattern.mem_innerPositions fields place rest
      simp only [Nat.zero_add, List.cons.injEq, Pattern.at?]
      constructor
      · rintro ⟨_, field, _, hfield, hrest, rfl, rfl⟩
        rw [hfield]
        exact (hinner field hfield).mp hrest
      · rintro ⟨at', name, binding, hat⟩
        split at hat
        · rename_i hfield
          exact ⟨place, _, rest, hfield, (hinner _ hfield).mpr ⟨at', name, binding, hat⟩, rfl, rfl⟩
        · cases hat
termination_by structural pattern

theorem Pattern.mem_innerPositions (fields : List (String × Pattern)) (place : Nat) (position : Position)
    (field : String × Pattern) (hfield : fields[place]? = some field) :
    position ∈ field.2.positions ↔
      ∃ location name binding, field.2.at? position = some (.bind location name binding) := by
  cases fields with
  | nil => cases hfield
  | cons first rest =>
    cases place with
    | zero =>
      obtain ⟨name, pattern⟩ := first
      cases hfield
      exact Pattern.mem_positions pattern position
    | succ place => exact Pattern.mem_innerPositions rest place position field hfield
termination_by structural fields

end

mutual

/-- The positions are listed from left to right. -/
theorem Pattern.pairwise_positions (pattern : Pattern) : pattern.positions.Pairwise (· < ·) := by
  cases pattern with
  | wildcard | literal => exact .nil
  | bind => exact List.pairwise_singleton _ _
  | destructure location fields => exact Pattern.pairwise_fieldPositions 0 fields
termination_by structural pattern

theorem Pattern.pairwise_fieldPositions (first : Nat) (fields : List (String × Pattern)) :
    (Pattern.fieldPositions first fields).Pairwise (· < ·) := by
  cases fields with
  | nil => exact .nil
  | cons field rest =>
    obtain ⟨name, pattern⟩ := field
    rw [Pattern.fieldPositions, List.pairwise_append]
    refine ⟨?_, Pattern.pairwise_fieldPositions (first + 1) rest, ?_⟩
    · exact (Pattern.pairwise_positions pattern).map _ fun _ _ hlt => List.cons_lt_cons_iff.mpr (.inr ⟨rfl, hlt⟩)
    · intro left hleft right hright
      obtain ⟨_, -, rfl⟩ := List.mem_map.mp hleft
      obtain ⟨place, _, _, -, -, rfl⟩ := Pattern.mem_fieldPositions.mp hright
      exact List.cons_lt_cons_iff.mpr (.inl (by omega))
termination_by structural fields

end

/-- A relation that holds between the positions and the variables of each field, taken one level down, holds for
all fields together. -/
theorem Pattern.forall₂_fieldPositions {α : Type} {related : Position → α → Prop} {parts : String × Pattern → List α}
    {fields : List (String × Pattern)}
    (hparts : ∀ place field, fields[place]? = some field →
      List.Forall₂ (fun position part => related ((first + place) :: position) part) field.2.positions (parts field)) :
    List.Forall₂ related (Pattern.fieldPositions first fields) (fields.flatMap parts) := by
  induction fields generalizing first with
  | nil => exact .nil
  | cons field rest ih =>
    rw [Pattern.fieldPositions, List.flatMap_cons]
    refine List.rel_append ?_ (ih fun place inner hinner => ?_)
    · rw [List.forall₂_map_left_iff]
      exact hparts 0 field rfl
    · have hlater := hparts (place + 1) inner hinner
      rwa [Nat.add_comm place, ← Nat.add_assoc] at hlater

theorem Pattern.fieldVariables_eq (fields : List (String × Pattern)) :
    Pattern.fieldVariables fields = fields.flatMap (·.2.vars) := by
  induction fields with
  | nil => rfl
  | cons field rest ih => rw [Pattern.fieldVariables, ih, List.flatMap_cons]

mutual

/-- The positions are those of the variables in the order in which these are listed. -/
theorem Pattern.forall₂_vars (pattern : Pattern) :
    List.Forall₂ (fun position var => ∃ name, pattern.at? position = some (.bind var.location name var.binding))
      pattern.positions pattern.vars := by
  cases pattern with
  | wildcard | literal => exact .nil
  | bind location name binding => exact .cons ⟨name, rfl⟩ .nil
  | destructure location fields =>
    rw [Pattern.vars, Pattern.fieldVariables_eq]
    refine Pattern.forall₂_fieldPositions fun place field hfield => ?_
    refine (Pattern.forall₂_innerVars fields place field hfield).imp fun position var hvar => ?_
    simpa [Pattern.at?, hfield] using hvar
termination_by structural pattern

theorem Pattern.forall₂_innerVars (fields : List (String × Pattern)) (place : Nat) (field : String × Pattern)
    (hfield : fields[place]? = some field) :
    List.Forall₂ (fun position var => ∃ name, field.2.at? position = some (.bind var.location name var.binding))
      field.2.positions field.2.vars := by
  cases fields with
  | nil => cases hfield
  | cons first rest =>
    cases place with
    | zero =>
      obtain ⟨name, pattern⟩ := first
      cases hfield
      exact Pattern.forall₂_vars pattern
    | succ place => exact Pattern.forall₂_innerVars rest place field hfield
termination_by structural fields

end

mutual

/-- The variables of a pattern stand for the components at their positions. -/
theorem Pattern.forall₂_component (pattern : Pattern) {value : Value} {bindings : List Binding}
    (hbound : pattern.bindings? heap value = some bindings) :
    List.Forall₂ (fun position component => pattern.component? heap position value = some component)
      pattern.positions (bindings.map (·.2)) := by
  cases pattern with
  | wildcard location =>
    cases hbound
    exact .nil
  | bind location name binding =>
    cases hbound
    exact .cons rfl .nil
  | literal location literal =>
    have hnone := List.eq_nil_of_length_eq_zero (Pattern.length_bindings? hbound)
    rw [hnone]
    exact .nil
  | destructure location fields =>
    simp only [Pattern.bindings?] at hbound
    split at hbound
    · rename_i record hrecord
      refine Pattern.forall₂_fieldComponents fields hbound fun place rest component field hfield hinner => ?_
      rw [Nat.zero_add, Pattern.component?, hfield, hrecord]
      exact hinner
    · cases hbound
termination_by structural pattern

theorem Pattern.forall₂_fieldComponents (fields : List (String × Pattern)) {record : Fields} {bindings : List Binding}
    (hbound : Pattern.fieldBindings? heap fields record = some bindings) {related : Position → Value → Prop}
    {first : Nat} (hrelated : ∀ place rest component field, fields[place]? = some field →
      (record.find? field.1).bind (field.2.component? heap rest) = some component →
      related ((first + place) :: rest) component) :
    List.Forall₂ related (Pattern.fieldPositions first fields) (bindings.map (·.2)) := by
  cases fields with
  | nil =>
    cases hbound
    exact .nil
  | cons field others =>
    obtain ⟨name, pattern⟩ := field
    simp only [Pattern.fieldBindings?, Option.bind_eq_bind, Option.bind_eq_some_iff, Option.pure_def,
      Option.some.injEq] at hbound
    obtain ⟨inner, hinner, own, hown, later, hlater, rfl⟩ := hbound
    rw [Pattern.fieldPositions, List.map_append]
    refine List.rel_append ?_
      (Pattern.forall₂_fieldComponents others hlater fun place rest component field hfield h => ?_)
    · rw [List.forall₂_map_left_iff]
      refine (Pattern.forall₂_component pattern hown).imp fun position component hcomponent => ?_
      refine hrelated 0 position component _ rfl ?_
      rw [hinner]
      exact hcomponent
    · rw [Nat.add_assoc, Nat.add_comm 1]
      exact hrelated (place + 1) rest component field hfield h
termination_by structural fields

end

end Positions

/-- The matcher of a pattern accepts exactly what the pattern accepts, and binds what stands at the positions of the
variables. -/
theorem Pattern.matchValue_binds (heap : Heap) (pattern : Pattern) (value : Value) :
    match heap.matchValue pattern.toMatcher value with
    | some bound => pattern.Binds heap value bound
    | none => ¬ pattern.Accepts heap value := by
  have haccepts : (pattern.bindings? heap value).isSome ↔ pattern.Accepts heap value := pattern.isSome_bindings? value
  rw [pattern.matchValue_toMatcher value]
  cases hbound : pattern.bindings? heap value with
  | none => simpa [hbound] using haccepts
  | some bindings =>
    refine ⟨haccepts.mp (by rw [hbound]; rfl), ?_, pattern.positions, pattern.pairwise_positions, pattern.mem_positions,
      pattern.forall₂_vars, pattern.forall₂_component hbound⟩
    rw [List.length_map, Pattern.length_bindings? hbound, pattern.bindingCount_toMatcher]

end OwnScript
