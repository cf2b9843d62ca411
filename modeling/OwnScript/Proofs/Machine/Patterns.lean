import OwnScript.Proofs.Heap.Reachability
import OwnScript.Proofs.Lowering.Layout
import OwnScript.Machine.Matching
import OwnScript.Proofs.Stateful

/-!
What patterns mean. A pattern accepts a value or not, and if it does, each of its variables stands for a value
inside. Matchers decide the same, and a frame that holds the arguments of a clause and then the values inside
them has every variable of the clause in the slot that its code looks in.
-/

namespace OwnScript

/-- A declaration and the value that it stands for. -/
abbrev Binding := Option BindingId × Value

mutual

/-- What the variables of a pattern stand for in a value that the pattern accepts, from left to right. -/
def Pattern.bindings? (heap : Heap) : Pattern → Value → Option (List Binding)
  | .wildcard _, _ => some []
  | .bind _ _ binding, value => some [(binding, value)]
  | .literal _ (.scalar scalar), value => if heap.equals value (.scalar scalar) then some [] else none
  | .literal _ (.text text), value =>
    match heap.objectOf? value with
    | some (.string found) => if found = text then some [] else none
    | _ => none
  | .destructure _ fields, value =>
    match heap.objectOf? value with
    | some (.record record) => Pattern.fieldBindings? heap fields record
    | _ => none

/-- What the variables in the patterns of fields stand for in a record that has the fields. -/
def Pattern.fieldBindings? (heap : Heap) : List (String × Pattern) → Fields → Option (List Binding)
  | [], _ => some []
  | (name, pattern) :: rest, record => do
    let value ← record.find? name
    let bound ← pattern.bindings? heap value
    return bound ++ (← Pattern.fieldBindings? heap rest record)

end

/-- What the variables of parameters stand for if there are as many arguments and every parameter accepts its
own. -/
def parameterBindings? (heap : Heap) : List Pattern → List Value → Option (List Binding)
  | [], [] => some []
  | pattern :: patterns, value :: values => do
    let bound ← pattern.bindings? heap value
    return bound ++ (← parameterBindings? heap patterns values)
  | _, _ => none

/-- What the variables inside parameters stand for. A parameter that is just a name has no others inside. -/
def innerBindings (heap : Heap) : List Pattern → List Value → List Binding
  | .bind _ _ _ :: patterns, _ :: values => innerBindings heap patterns values
  | pattern :: patterns, value :: values =>
    (pattern.bindings? heap value).getD [] ++ innerBindings heap patterns values
  | _, _ => []

/-- The declaration of a parameter that is just a name. -/
def Pattern.ownBinding : Pattern → Option BindingId
  | .bind _ _ binding => binding
  | _ => none

variable {heap after : Heap} {value : Value} {values : List Value} {bound : List Binding}

mutual

/-- A matcher accepts what its pattern accepts, and binds the values of the variables. -/
theorem Pattern.matchValue_toMatcher (pattern : Pattern) (value : Value) :
    heap.matchValue pattern.toMatcher value = (pattern.bindings? heap value).map (·.map (·.2)) := by
  cases pattern with
  | wildcard | bind => rfl
  | literal location literal =>
    cases literal with
    | scalar scalar =>
      simp only [Pattern.toMatcher, Heap.matchValue, Pattern.bindings?]
      split <;> rfl
    | text text =>
      simp only [Pattern.toMatcher, Heap.matchValue, Pattern.bindings?, beq_iff_eq]
      cases heap.objectOf? value with
      | none => rfl
      | some object =>
        cases object with
        | string found =>
          dsimp only
          split <;> rfl
        | _ => rfl
  | destructure location fields =>
    simp only [Pattern.toMatcher, Heap.matchValue, Pattern.bindings?]
    cases heap.objectOf? value with
    | none => rfl
    | some object =>
      cases object with
      | record record => exact Pattern.matchFields_toMatchers fields record
      | _ => rfl
termination_by structural pattern

theorem Pattern.matchFields_toMatchers (fields : List (String × Pattern)) (record : Fields) :
    heap.matchFields (Pattern.toMatchers fields) record =
      (Pattern.fieldBindings? heap fields record).map (·.map (·.2)) := by
  cases fields with
  | nil => rfl
  | cons field rest =>
    obtain ⟨name, pattern⟩ := field
    simp only [Pattern.toMatchers, Heap.matchFields, Pattern.fieldBindings?]
    cases record.find? name with
    | none => rfl
    | some value =>
      dsimp only [Option.bind_eq_bind, Option.bind_some]
      rw [Pattern.matchValue_toMatcher pattern value, Pattern.matchFields_toMatchers rest record]
      cases pattern.bindings? heap value with
      | none => rfl
      | some bound =>
        cases Pattern.fieldBindings? heap rest record with
        | none => rfl
        | some others => simp
termination_by structural fields

end

mutual

/-- The variables of a pattern are bound in order. -/
theorem Pattern.declarations_bindings (pattern : Pattern) {value : Value} {bound : List Binding}
    (hbound : pattern.bindings? heap value = some bound) : bound.map (·.1) = pattern.vars.map (·.binding) := by
  cases pattern with
  | wildcard | bind =>
    cases hbound
    rfl
  | literal location literal =>
    obtain rfl : bound = [] := by
      cases literal <;> simp only [Pattern.bindings?] at hbound <;> grind
    rfl
  | destructure location fields =>
    simp only [Pattern.bindings?] at hbound
    split at hbound
    · exact Pattern.declarations_fieldBindings fields hbound
    · cases hbound
termination_by structural pattern

theorem Pattern.declarations_fieldBindings (fields : List (String × Pattern)) {record : Fields} {bound : List Binding}
    (hbound : Pattern.fieldBindings? heap fields record = some bound) :
    bound.map (·.1) = (Pattern.fieldVariables fields).map (·.binding) := by
  cases fields with
  | nil =>
    cases hbound
    rfl
  | cons field rest =>
    obtain ⟨name, pattern⟩ := field
    simp only [Pattern.fieldBindings?, Option.bind_eq_bind, Option.bind_eq_some_iff, Option.pure_def,
      Option.some.injEq] at hbound
    obtain ⟨value, -, first, hfirst, others, hothers, rfl⟩ := hbound
    rw [List.map_append, pattern.declarations_bindings hfirst, Pattern.declarations_fieldBindings rest hothers,
      Pattern.fieldVariables, List.map_append]
termination_by structural fields

end

/-- The references that roots lead to stand for the same objects in another heap. -/
def Heap.Keeps (heap after : Heap) (roots : List Value) : Prop :=
  ∀ ref, heap.Reachable roots ref → after.get? ref = heap.get? ref

/-- Roots lead to a value. -/
def Heap.Reaches (heap : Heap) (roots : List Value) (value : Value) : Prop :=
  ∀ ref, value.ref? = some ref → heap.Reachable roots ref

section Kept

variable {roots : List Value}

theorem Heap.reaches_of_mem (hvalue : value ∈ roots) : heap.Reaches roots value :=
  fun _ href => .root hvalue href

theorem Heap.Keeps.objectOf? (hkeeps : heap.Keeps after roots) (hvalue : heap.Reaches roots value) :
    after.objectOf? value = heap.objectOf? value := by
  unfold Heap.objectOf?
  cases href : value.ref? with
  | none => rfl
  | some ref => exact hkeeps ref (hvalue ref href)

theorem Heap.Reaches.field (hvalue : heap.Reaches roots value) {record : Fields}
    (hrecord : heap.objectOf? value = some (.record record)) {name : String} {inner : Value}
    (hinner : record.find? name = some inner) : heap.Reaches roots inner := by
  intro target htarget
  obtain ⟨ref, href, hobject⟩ := Option.bind_eq_some_iff.mp hrecord
  obtain ⟨entry, hentry, rfl⟩ := Option.map_eq_some_iff.mp hinner
  exact .step (hvalue ref href) hobject (List.mem_filterMap.mpr ⟨entry, List.mem_of_find?_eq_some hentry, htarget⟩)

theorem Heap.equals_scalar (heap after : Heap) (value : Value) (scalar : Scalar) :
    after.equals value (.scalar scalar) = heap.equals value (.scalar scalar) := by
  cases value <;> rfl

mutual

/-- What a pattern accepts depends on the objects alone that the value leads to. -/
theorem Pattern.bindings?_kept (hkeeps : heap.Keeps after roots) (pattern : Pattern) {value : Value}
    (hvalue : heap.Reaches roots value) : pattern.bindings? after value = pattern.bindings? heap value := by
  cases pattern with
  | wildcard | bind => rfl
  | literal location literal =>
    cases literal with
    | scalar scalar => rw [Pattern.bindings?, Pattern.bindings?, heap.equals_scalar after]
    | text text => rw [Pattern.bindings?, Pattern.bindings?, hkeeps.objectOf? hvalue]
  | destructure location fields =>
    rw [Pattern.bindings?, Pattern.bindings?, hkeeps.objectOf? hvalue]
    cases hobject : heap.objectOf? value with
    | none => rfl
    | some object =>
      cases object with
      | record record =>
        exact Pattern.fieldBindings?_kept hkeeps fields fun name inner hinner => hvalue.field hobject hinner
      | _ => rfl
termination_by structural pattern

theorem Pattern.fieldBindings?_kept (hkeeps : heap.Keeps after roots) (fields : List (String × Pattern))
    {record : Fields} (hinner : ∀ name inner, record.find? name = some inner → heap.Reaches roots inner) :
    Pattern.fieldBindings? after fields record = Pattern.fieldBindings? heap fields record := by
  cases fields with
  | nil => rfl
  | cons field rest =>
    obtain ⟨name, pattern⟩ := field
    simp only [Pattern.fieldBindings?]
    cases hfound : record.find? name with
    | none => rfl
    | some value =>
      simp only [Option.bind_eq_bind, Option.bind_some,
        Pattern.bindings?_kept hkeeps pattern (hinner name value hfound),
        Pattern.fieldBindings?_kept hkeeps rest hinner]
termination_by structural fields

end

theorem parameterBindings?_kept (hkeeps : heap.Keeps after roots) (patterns : List Pattern)
    (hvalues : ∀ value ∈ values, heap.Reaches roots value) :
    parameterBindings? after patterns values = parameterBindings? heap patterns values := by
  induction patterns generalizing values with
  | nil => cases values <;> rfl
  | cons pattern rest ih =>
    cases values with
    | nil => rfl
    | cons value others =>
      simp only [parameterBindings?, Option.bind_eq_bind, ih (List.forall_mem_cons.mp hvalues).2,
        Pattern.bindings?_kept hkeeps pattern (List.forall_mem_cons.mp hvalues).1]

theorem innerBindings_kept (hkeeps : heap.Keeps after roots) (patterns : List Pattern)
    (hvalues : ∀ value ∈ values, heap.Reaches roots value) :
    innerBindings after patterns values = innerBindings heap patterns values := by
  induction patterns generalizing values with
  | nil => cases values <;> rfl
  | cons pattern rest ih =>
    cases values with
    | nil => cases pattern <;> rfl
    | cons value others =>
      have hothers := ih (List.forall_mem_cons.mp hvalues).2
      have hfirst := Pattern.bindings?_kept hkeeps pattern (List.forall_mem_cons.mp hvalues).1
      cases pattern <;> simp only [innerBindings, hothers, hfirst]

end Kept

section Parameters

variable {pattern : Pattern} {patterns : List Pattern} {others : List Value}

theorem parameterBindings?_cons (pattern : Pattern) (patterns : List Pattern) (value : Value) (values : List Value) :
    parameterBindings? heap (pattern :: patterns) (value :: values) =
      (pattern.bindings? heap value).bind fun bound => (parameterBindings? heap patterns values).map (bound ++ ·) := by
  simp only [parameterBindings?, Option.bind_eq_bind]
  cases pattern.bindings? heap value with
  | none => rfl
  | some bound => cases parameterBindings? heap patterns values <;> rfl

/-- Parameters that accept arguments are as many. -/
theorem length_of_parameterBindings? (hbound : parameterBindings? heap patterns values = some bound) :
    values.length = patterns.length := by
  induction patterns generalizing values bound with
  | nil =>
    cases values with
    | nil => rfl
    | cons => cases hbound
  | cons pattern rest ih =>
    cases values with
    | nil => cases hbound
    | cons value others =>
      rw [parameterBindings?_cons] at hbound
      obtain ⟨first, -, hrest⟩ := Option.bind_eq_some_iff.mp hbound
      obtain ⟨last, hlast, -⟩ := Option.map_eq_some_iff.mp hrest
      exact congrArg (· + 1) (ih hlast)

/-- The values inside the arguments belong to the variables of the parameters in order. -/
theorem declarations_innerBindings (hbound : parameterBindings? heap patterns values = some bound) :
    (innerBindings heap patterns values).map (·.1) = (parameterVariables patterns).map (·.binding) := by
  induction patterns generalizing values bound with
  | nil =>
    cases values with
    | nil => rfl
    | cons => cases hbound
  | cons pattern rest ih =>
    cases values with
    | nil => cases hbound
    | cons value others =>
      rw [parameterBindings?_cons] at hbound
      obtain ⟨first, hfirst, hrest⟩ := Option.bind_eq_some_iff.mp hbound
      obtain ⟨last, hlast, -⟩ := Option.map_eq_some_iff.mp hrest
      have hothers := ih hlast
      have hvars := pattern.declarations_bindings hfirst
      cases pattern <;>
        simp only [innerBindings, parameterVariables, List.flatMap_cons, List.nil_append, List.map_append, hfirst,
          Option.getD_some] at hothers hvars ⊢ <;>
        simp only [hothers, hvars]

/-- The frame of a clause: the arguments, each under the name of its parameter if that is one, and then the
values inside them. -/
def frameBindings (heap : Heap) (patterns : List Pattern) (values : List Value) : List Binding :=
  (patterns.map Pattern.ownBinding).zip values ++ innerBindings heap patterns values

/-- Every variable of the parameters is in the frame. -/
theorem parameterBindings?_subset (hbound : parameterBindings? heap patterns values = some bound) :
    bound ⊆ frameBindings heap patterns values := by
  induction patterns generalizing values bound with
  | nil =>
    cases values with
    | nil =>
      cases hbound
      exact List.nil_subset _
    | cons => cases hbound
  | cons pattern rest ih =>
    cases values with
    | nil => cases hbound
    | cons value others =>
      rw [parameterBindings?_cons] at hbound
      obtain ⟨first, hfirst, hrest⟩ := Option.bind_eq_some_iff.mp hbound
      obtain ⟨last, hlast, rfl⟩ := Option.map_eq_some_iff.mp hrest
      have hothers := ih hlast
      intro entry hentry
      have hlater (hmem : entry ∈ last) := List.mem_append.mp (hothers hmem)
      rw [frameBindings, List.map_cons, List.zip_cons_cons]
      rcases List.mem_append.mp hentry with hmem | hmem
      · cases pattern with
        | bind location name binding =>
          cases hfirst
          obtain rfl := List.mem_singleton.mp hmem
          exact List.mem_cons_self
        | _ =>
          refine List.mem_append_right _ (List.mem_append_left _ ?_)
          rw [hfirst]
          exact hmem
      · rcases hlater hmem with hzip | hinner
        · exact List.mem_append_left _ (List.mem_cons_of_mem _ hzip)
        · refine List.mem_append_right _ ?_
          cases pattern <;> first | exact hinner | exact List.mem_append_right _ hinner

theorem values_frameBindings (hbound : parameterBindings? heap patterns values = some bound) :
    (frameBindings heap patterns values).map (·.2) = values ++ (innerBindings heap patterns values).map (·.2) := by
  have hlength := length_of_parameterBindings? hbound
  rw [frameBindings, List.map_append, List.map_snd_zip (by simp [hlength])]

/-- The variables of a clause when its body starts, innermost first. -/
def clauseScope (patterns : List Pattern) : FrameScope :=
  boundScope (parameterVariables patterns) ++ parameterScope patterns

theorem clauseScope_eq (patterns : List Pattern) :
    ((clauseScope patterns).map (·.binding)).reverse =
      patterns.map Pattern.ownBinding ++ (parameterVariables patterns).map (·.binding) := by
  have hown : (fun pattern : Pattern =>
      FrameVar.binding (match pattern with
        | .bind _ _ binding => ⟨binding, false⟩
        | _ => ⟨none, false⟩)) = Pattern.ownBinding := by
    funext pattern
    cases pattern <;> rfl
  simp only [clauseScope, boundScope, parameterScope, List.map_append, List.map_reverse, List.map_map,
    List.reverse_append, List.reverse_reverse]
  exact congrArg₂ _ (congrArg (List.map · patterns) hown) rfl

/-- The frame holds the variables of the clause in the order of their slots. -/
theorem declarations_frameBindings (hbound : parameterBindings? heap patterns values = some bound) :
    (frameBindings heap patterns values).map (·.1) = ((clauseScope patterns).map (·.binding)).reverse := by
  have hlength := length_of_parameterBindings? hbound
  rw [frameBindings, List.map_append, List.map_fst_zip (by simp [hlength]), declarations_innerBindings hbound,
    clauseScope_eq]

/-- The slots of a clause belong to the variables of its parameters, each to one. -/
theorem perm_clauseScope (patterns : List Pattern) :
    ((patterns.map Pattern.ownBinding ++ (parameterVariables patterns).map (·.binding)).filterMap id).Perm
      (((patterns.flatMap Pattern.vars).map (·.binding)).filterMap id) := by
  induction patterns with
  | nil => exact .nil
  | cons pattern rest ih =>
    rw [List.flatMap_cons, List.map_append, @List.filterMap_append _ _ (pattern.vars.map _)]
    refine .trans ?_ (ih.append_left _)
    cases pattern with
    | bind location name binding => exact .of_eq (by cases binding <;> rfl)
    | wildcard | literal => exact .refl _
    | destructure location fields =>
      simp only [parameterVariables, List.map_cons, List.flatMap_cons, List.map_append, List.filterMap_append]
      exact List.perm_append_comm_assoc ..

/-- A variable declared once has the slot that says how many variables are further out. -/
theorem FrameScope.slotOf?_of_distinct {scope : FrameScope} (hdistinct : ((scope.map (·.binding)).filterMap id).Nodup)
    {binding : BindingId} {slot : Nat} (hslot : (scope.map (·.binding)).reverse[slot]? = some (some binding)) :
    scope.slotOf? binding = some slot := by
  induction scope generalizing slot with
  | nil => cases hslot
  | cons var rest ih =>
    rw [List.map_cons, List.reverse_cons, List.getElem?_append] at hslot
    rw [List.map_cons, List.filterMap_cons] at hdistinct
    rw [FrameScope.slotOf?]
    split at hslot
    · have hmem : some binding ∈ rest.map (·.binding) := List.mem_reverse.mp (List.mem_of_getElem? hslot)
      have hother : var.binding ≠ some binding := by
        intro heq
        rw [heq] at hdistinct
        exact (List.nodup_cons.mp hdistinct).1 (List.mem_filterMap.mpr ⟨_, hmem, rfl⟩)
      rw [if_neg (by simpa using hother)]
      refine ih ?_ hslot
      split at hdistinct
      · exact hdistinct
      · exact (List.nodup_cons.mp hdistinct).2
    · rename_i hlow
      obtain ⟨hzero, hvar⟩ := List.getElem?_eq_some_iff.mp hslot
      simp only [List.length_reverse, List.length_map, List.length_singleton, not_lt] at hlow hzero
      rw [List.getElem_singleton] at hvar
      rw [if_pos (by simpa using hvar), Option.some.injEq]
      omega

/-- Where the variables of a clause have numbers of their own, each of them is in the slot in which the code of
the body looks for it. -/
theorem slot_of_parameter {ids : List BindingId}
    (hvars : (patterns.flatMap Pattern.vars).map (·.binding) = ids.map some)
    (hdistinct : ids.Nodup) (hbound : parameterBindings? heap patterns values = some bound) {binding : BindingId}
    (hmem : (some binding, value) ∈ bound) :
    ∃ slot, (clauseScope patterns).slotOf? binding = some slot ∧
      (values ++ (innerBindings heap patterns values).map (·.2))[slot]? = some value := by
  obtain ⟨slot, hslot⟩ := List.mem_iff_getElem?.mp (parameterBindings?_subset hbound hmem)
  refine ⟨slot, FrameScope.slotOf?_of_distinct ?_ ?_, ?_⟩
  · have hperm := perm_clauseScope patterns
    rw [← clauseScope_eq, hvars, List.filterMap_map, List.filterMap_reverse] at hperm
    refine (((List.reverse_perm _).symm.trans hperm).nodup_iff).mpr ?_
    rwa [Function.id_comp, List.filterMap_some]
  · rw [← declarations_frameBindings hbound, List.getElem?_map, hslot]
    rfl
  · rw [← values_frameBindings hbound, List.getElem?_map, hslot]
    rfl

end Parameters

end OwnScript
