import Mathlib
import OwnScript.Proofs.Lowering.Scopes
import OwnScript.Proofs.Program.Evaluation
import OwnScript.Proofs.Program.Scoping

/-!
Names and slots. Where the evaluation of a program looks for a variable by its name, from the inside out, the code
of the program looks in a slot of the frame or of the globals. What the frame holds is described once, slot by slot;
the values on the stack, the local variables of the evaluation, the declarations that are visible and the scope of
the code are all read off it. So a name leads to the same variable for both.
-/

namespace OwnScript

namespace Scopes

/-- The declarations in the scopes inside of the outermost one, from the inside out. -/
def localsIn : List (String × Resolution) → List (List (String × Resolution)) → List (String × Resolution)
  | _, [] => []
  | innermost, next :: rest => innermost ++ localsIn next rest

/-- The declarations in the outermost scope. -/
def globalsIn : List (String × Resolution) → List (List (String × Resolution)) → List (String × Resolution)
  | innermost, [] => innermost
  | _, next :: rest => globalsIn next rest

/-- The declarations inside of the outermost scope that are visible unless hidden, the innermost first. -/
def locals (scopes : Scopes) : List (String × Resolution) :=
  localsIn scopes.innermost scopes.outer

/-- The declarations of the outermost scope so far. -/
def globals (scopes : Scopes) : List (String × Resolution) :=
  globalsIn scopes.innermost scopes.outer

variable {scopes : Scopes} {name : String} {resolution : Resolution}

/-- A name leads to a local declaration, or else to a global one. -/
theorem visible_eq (scopes : Scopes) (name : String) :
    scopes.visible name = (scopes.locals.lookup name).or (scopes.globals.lookup name) := by
  obtain ⟨innermost, outer⟩ := scopes
  simp only [visible, locals, globals]
  induction outer generalizing innermost with
  | nil => cases List.lookup name innermost <;> simp_all [localsIn, globalsIn]
  | cons next rest ih =>
    rw [List.findSome?_cons, ih, localsIn, globalsIn, List.lookup_append]
    cases List.lookup name innermost <;> rfl

@[simp] theorem locals_enter : scopes.enter.locals = scopes.locals := rfl

@[simp] theorem globals_enter : scopes.enter.globals = scopes.globals := rfl

theorem locals_of_outermost (houter : scopes.outer = []) : scopes.locals = [] := by
  rw [locals, houter, localsIn]

theorem locals_declares (houter : scopes.outer ≠ []) :
    (scopes.after (.declares name resolution)).locals = (name, resolution) :: scopes.locals := by
  obtain ⟨innermost, outer⟩ := scopes
  cases outer with
  | nil => exact absurd rfl houter
  | cons => rfl

theorem globals_declares (houter : scopes.outer ≠ []) :
    (scopes.after (.declares name resolution)).globals = scopes.globals := by
  obtain ⟨innermost, outer⟩ := scopes
  cases outer with
  | nil => exact absurd rfl houter
  | cons => rfl

theorem globals_declares_outermost (houter : scopes.outer = []) :
    (scopes.after (.declares name resolution)).globals = (name, resolution) :: scopes.globals := by
  obtain ⟨innermost, outer⟩ := scopes
  cases houter
  rfl

/-- What a name carries where it stands in a program that code was generated for: a declaration a number that no
local variable around it has, and a use what the declaration carries that it leads to. The names of global variables
are known by their numbers. -/
def Fits (nameOf : BindingId → String) (scopes : Scopes) : Naming → Prop
  | .declares name resolution => ∃ id, resolution.binding = some id ∧
      (resolution.isGlobal = true ↔ scopes.outer = []) ∧ (scopes.outer = [] → nameOf id = name) ∧
      ∀ entry ∈ scopes.locals, entry.2.binding ≠ some id
  | .refers name resolution => scopes.visible name = some resolution
  | .scope _ => True

end Scopes

/-- What a slot of the frame is for: a variable of the program, or something that the code keeps for itself. -/
inductive FrameSlot where
  | named (name : String) (id : BindingId) (value : Value)
  | hidden (value : Value)

namespace FrameSlot

def value : FrameSlot → Value
  | .named _ _ value | .hidden value => value

def binding : FrameSlot → Option BindingId
  | .named _ id _ => some id
  | .hidden _ => none

def local? : FrameSlot → Option (String × Value)
  | .named name _ value => some (name, value)
  | .hidden _ => none

def entry? : FrameSlot → Option (String × Resolution)
  | .named name id _ => some (name, { binding := some id })
  | .hidden _ => none

/-- A slot later on: a variable may have changed. -/
inductive Later : FrameSlot → FrameSlot → Prop where
  | named (name : String) (id : BindingId) (old new : Value) : Later (.named name id old) (.named name id new)
  | hidden (value : Value) : Later (.hidden value) (.hidden value)

end FrameSlot

/-- The slots of a frame, from the top of the stack down. -/
abbrev FrameSlots := List FrameSlot

namespace FrameSlots

/-- What is on the stack. -/
def values (slots : FrameSlots) : List Value :=
  slots.map FrameSlot.value

/-- Which declaration the code knows each slot by. -/
def bindings (slots : FrameSlots) : List (Option BindingId) :=
  slots.map FrameSlot.binding

/-- The local variables of the evaluation. -/
def locals (slots : FrameSlots) : List (String × Value) :=
  slots.filterMap FrameSlot.local?

/-- The local declarations that are visible unless hidden. -/
def entries (slots : FrameSlots) : List (String × Resolution) :=
  slots.filterMap FrameSlot.entry?

/-- The same slots later on. -/
abbrev Later (before after : FrameSlots) : Prop :=
  List.Forall₂ FrameSlot.Later before after

variable {slots after more inner outer : FrameSlots} {name : String} {value new : Value}
  {resolution : Resolution} {target : BindingId}

@[simp] theorem values_append : values (slots ++ more) = values slots ++ values more := List.map_append
@[simp] theorem bindings_append : bindings (slots ++ more) = bindings slots ++ bindings more := List.map_append
@[simp] theorem locals_append : locals (slots ++ more) = locals slots ++ locals more := List.filterMap_append
@[simp] theorem entries_append : entries (slots ++ more) = entries slots ++ entries more := List.filterMap_append
@[simp] theorem length_values : (values slots).length = slots.length := List.length_map _
@[simp] theorem length_bindings : (bindings slots).length = slots.length := List.length_map _

@[simp] theorem values_cons (slot : FrameSlot) : values (slot :: slots) = slot.value :: values slots := rfl
@[simp] theorem bindings_cons (slot : FrameSlot) : bindings (slot :: slots) = slot.binding :: bindings slots := rfl
@[simp] theorem locals_hidden : locals (.hidden value :: slots) = locals slots := rfl
@[simp] theorem entries_hidden : entries (.hidden value :: slots) = entries slots := rfl
@[simp] theorem locals_named : locals (.named name target value :: slots) = (name, value) :: locals slots := rfl
@[simp] theorem entries_named :
    entries (.named name target value :: slots) = (name, { binding := some target }) :: entries slots := rfl

namespace Later

theorem refl (slots : FrameSlots) : slots.Later slots :=
  List.forall₂_same.mpr fun slot _ => by cases slot <;> constructor

theorem trans {last : FrameSlots} (hfirst : slots.Later after) (hsecond : after.Later last) : slots.Later last := by
  induction hfirst generalizing last with
  | nil => exact hsecond
  | cons hslot _ ih =>
    cases hsecond with
    | cons hnext hrest =>
      refine .cons ?_ (ih hrest)
      cases hslot <;> cases hnext <;> constructor

theorem bindings_eq (hlater : slots.Later after) : bindings after = bindings slots := by
  induction hlater with
  | nil => rfl
  | cons hslot _ ih => cases hslot <;> simp [ih, FrameSlot.binding]

theorem entries_eq (hlater : slots.Later after) : entries after = entries slots := by
  induction hlater with
  | nil => rfl
  | cons hslot _ ih => cases hslot <;> simp [ih]

theorem length_eq (hlater : slots.Later after) : after.length = slots.length :=
  (List.Forall₂.length_eq hlater).symm

/-- There are as many local variables. -/
theorem length_locals (hlater : slots.Later after) : (locals after).length = (locals slots).length := by
  induction hlater with
  | nil => rfl
  | cons hslot _ ih => cases hslot <;> simp [ih]

theorem named (hlater : List.Forall₂ FrameSlot.Later inner more) (houter : outer.Later after) :
    FrameSlots.Later (inner ++ .named name target value :: outer) (more ++ .named name target new :: after) :=
  List.rel_append hlater (.cons (.named name target value new) houter)

theorem hidden (hlater : FrameSlots.Later (.hidden value :: outer) after) :
    ∃ kept : FrameSlots, after = .hidden value :: kept ∧ outer.Later kept := by
  cases hlater with
  | cons hslot hrest =>
    cases hslot
    exact ⟨_, rfl, hrest⟩

/-- The slots of a part of the frame. -/
theorem split (hlater : FrameSlots.Later (inner ++ outer) after) :
    ∃ first second : FrameSlots, after = first ++ second ∧ inner.Later first ∧ outer.Later second := by
  refine ⟨after.take inner.length, after.drop inner.length, (List.take_append_drop ..).symm, ?_, ?_⟩
  · simpa using List.forall₂_take inner.length hlater
  · simpa using List.forall₂_drop inner.length hlater

end Later

section Lookup

/-- A declaration that is visible has a slot. -/
theorem exists_named (hlookup : slots.entries.lookup name = some resolution) :
    ∃ (inner : FrameSlots) (target : BindingId) (value : Value) (outer : FrameSlots),
      slots = inner ++ .named name target value :: outer ∧
      resolution = { binding := some target } ∧ inner.locals.lookup name = none := by
  induction slots with
  | nil => cases hlookup
  | cons slot rest ih =>
    cases slot with
    | hidden held =>
      obtain ⟨inner, target, value, outer, rfl, hresolution, hnone⟩ := ih hlookup
      exact ⟨.hidden held :: inner, target, value, outer, rfl, hresolution, hnone⟩
    | named other id value =>
      rw [entries_named, List.lookup_cons] at hlookup
      by_cases hname : name = other
      · subst hname
        rw [beq_self_eq_true] at hlookup
        exact ⟨[], id, value, rest, rfl, (Option.some.inj hlookup).symm, rfl⟩
      · rw [beq_false_of_ne hname] at hlookup
        obtain ⟨inner, target, held, outer, rfl, hresolution, hnone⟩ := ih hlookup
        refine ⟨.named other id value :: inner, target, held, outer, rfl, hresolution, ?_⟩
        rw [locals_named, List.lookup_cons, beq_false_of_ne hname]
        exact hnone

theorem lookup_locals_eq_none (hlookup : slots.entries.lookup name = none) : slots.locals.lookup name = none := by
  induction slots with
  | nil => rfl
  | cons slot rest ih =>
    cases slot with
    | hidden held => exact ih hlookup
    | named other id value =>
      rw [entries_named, List.lookup_cons] at hlookup
      rw [locals_named, List.lookup_cons]
      split at hlookup
      · cases hlookup
      · exact ih hlookup

theorem lookup_named (hinner : inner.locals.lookup name = none) :
    (locals (inner ++ .named name target value :: outer)).lookup name = some value := by
  rw [locals_append, List.lookup_append, hinner, locals_named, List.lookup_cons, beq_self_eq_true]
  rfl

/-- A variable changes under its name as its slot does. -/
theorem replaceFirst_named (hinner : inner.locals.lookup name = none) :
    Fields.replaceFirst name new (locals (inner ++ .named name target value :: outer)) =
      locals (inner ++ .named name target new :: outer) := by
  simp only [locals_append, locals_named]
  generalize inner.locals = before at hinner
  induction before with
  | nil => simp [Fields.replaceFirst]
  | cons entry rest ih =>
    obtain ⟨other, held⟩ := entry
    rw [List.lookup_cons] at hinner
    split at hinner
    · cases hinner
    · rename_i hname
      rw [beq_eq_false_iff_ne] at hname
      rw [List.cons_append, Fields.replaceFirst, if_neg (by simpa using Ne.symm hname), ih hinner]
      rfl

/-- The code finds a variable by its number. -/
theorem slotOf?_named {scope : FrameScope}
    (hscope : scope.map (·.binding) = bindings (inner ++ .named name target value :: outer))
    (hdistinct : ((bindings (inner ++ .named name target value :: outer)).filterMap id).Nodup) :
    scope.slotOf? target = some outer.length := by
  refine FrameScope.slotOf?_of_distinct (hscope ▸ hdistinct) ?_
  rw [hscope, bindings_append, bindings_cons, List.reverse_append, List.reverse_cons, List.append_assoc,
    List.getElem?_append_right (by simp)]
  simp [FrameSlot.binding]

theorem mem_entries_of_binding (hmem : some target ∈ slots.bindings) :
    ∃ name, (name, { binding := some target }) ∈ slots.entries := by
  obtain ⟨slot, hslot, hbinding⟩ := List.mem_map.mp hmem
  cases slot with
  | hidden held => cases hbinding
  | named name other value =>
    cases hbinding
    exact ⟨name, List.mem_filterMap.mpr ⟨_, hslot, rfl⟩⟩

end Lookup

end FrameSlots

/-- The scopes around a point of a program, the slots of the frame there and the scope of the code agree. -/
structure Situated (nameOf : BindingId → String) (scopes : Scopes) (slots : FrameSlots) (scope : FrameScope) :
    Prop where
  bindings : scope.map (·.binding) = slots.bindings
  locals : scopes.locals = slots.entries
  distinct : (slots.bindings.filterMap id).Nodup
  globals : ∀ entry ∈ scopes.globals, entry.2.isGlobal = true ∧ ∃ id, entry.2.binding = some id ∧ nameOf id = entry.1

namespace Situated

variable {nameOf : BindingId → String} {scopes : Scopes} {slots after : FrameSlots} {scope other : FrameScope}
  {name : String} {resolution : Resolution} {op : Opcode} {a : Nat}

theorem length_eq (hsituated : Situated nameOf scopes slots scope) : scope.length = slots.length := by
  simpa using congrArg List.length hsituated.bindings

/-- What functions capture makes no difference. -/
theorem later (hsituated : Situated nameOf scopes slots scope) (hlater : scope.Later other) :
    Situated nameOf scopes slots other := by
  refine { hsituated with bindings := Eq.trans ?_ hsituated.bindings }
  clear hsituated
  induction hlater with
  | nil => rfl
  | cons hvar _ ih => rw [List.map_cons, List.map_cons, hvar.binding, ih]

theorem change (hsituated : Situated nameOf scopes slots scope) (hlater : slots.Later after) :
    Situated nameOf scopes after scope where
  bindings := hsituated.bindings.trans hlater.bindings_eq.symm
  locals := hsituated.locals.trans hlater.entries_eq.symm
  distinct := hlater.bindings_eq ▸ hsituated.distinct
  globals := hsituated.globals

theorem enter (hsituated : Situated nameOf scopes slots scope) : Situated nameOf scopes.enter slots scope :=
  ⟨hsituated.bindings, hsituated.locals, hsituated.distinct, hsituated.globals⟩

theorem hide (hsituated : Situated nameOf scopes slots scope) (value : Value) (captured : Bool) :
    Situated nameOf scopes (.hidden value :: slots) (⟨none, captured⟩ :: scope) where
  bindings := congrArg (none :: ·) hsituated.bindings
  locals := hsituated.locals
  distinct := hsituated.distinct
  globals := hsituated.globals

/-- A local declaration. -/
theorem declare (hsituated : Situated nameOf scopes slots scope)
    (hfits : scopes.Fits nameOf (.declares name resolution)) (hinner : scopes.outer ≠ []) (value : Value)
    (captured : Bool) :
    ∃ id, resolution.binding = some id ∧ resolution.isGlobal = false ∧
      Situated nameOf (scopes.after (.declares name resolution)) (.named name id value :: slots)
        (⟨resolution.binding, captured⟩ :: scope) := by
  obtain ⟨id, hbinding, hglobal, -, hnew⟩ := hfits
  have hlocal : resolution.isGlobal = false := by
    rw [Bool.eq_false_iff]
    exact fun h => hinner (hglobal.mp h)
  have hresolution : resolution = { binding := some id } := by
    obtain ⟨binding, isGlobal⟩ := resolution
    cases hbinding
    cases hlocal
    rfl
  refine ⟨id, hbinding, hlocal, ?_, ?_, ?_, ?_⟩
  · rw [List.map_cons, hsituated.bindings, hbinding]
    rfl
  · rw [Scopes.locals_declares hinner, hsituated.locals, hresolution]
    rfl
  · refine List.nodup_cons.mpr ⟨fun hmem => ?_, hsituated.distinct⟩
    obtain ⟨_, hmem, rfl⟩ := List.mem_filterMap.mp hmem
    obtain ⟨other, hentry⟩ := FrameSlots.mem_entries_of_binding hmem
    rw [← hsituated.locals] at hentry
    exact hnew _ hentry rfl
  · rw [Scopes.globals_declares hinner]
    exact hsituated.globals

/-- A global declaration. -/
theorem declareGlobal (hsituated : Situated nameOf scopes slots scope)
    (hfits : scopes.Fits nameOf (.declares name resolution)) (houtermost : scopes.outer = []) :
    resolution.isGlobal = true ∧ (∀ id, resolution.binding = some id → nameOf id = name) ∧
      Situated nameOf (scopes.after (.declares name resolution)) slots scope := by
  obtain ⟨id, hbinding, hglobal, hname, -⟩ := hfits
  have houter : (scopes.after (.declares name resolution)).outer = [] := houtermost
  refine ⟨hglobal.mpr houtermost, fun other hother => ?_, hsituated.bindings, ?_, hsituated.distinct, ?_⟩
  · cases hbinding.symm.trans hother
    exact hname houtermost
  · rw [Scopes.locals_of_outermost houter, ← hsituated.locals, Scopes.locals_of_outermost houtermost]
  · rw [Scopes.globals_declares_outermost houtermost]
    exact List.forall_mem_cons.mpr ⟨⟨hglobal.mpr houtermost, id, hbinding, hname houtermost⟩, hsituated.globals⟩

/-- Where a name leads and what the code accesses are the same variable, in the frame or among the globals. -/
theorem reach (hsituated : Situated nameOf scopes slots scope) (hvisible : scopes.visible name = some resolution)
    {table : GlobalTable} {how : Emit.Access} (haccesses : Accesses table scope resolution how op a) :
    (∃ (inner : FrameSlots) (id : BindingId) (value : Value) (outer : FrameSlots),
      slots = inner ++ .named name id value :: outer ∧ inner.locals.lookup name = none ∧
      op = how.frame ∧ a = outer.length) ∨
    ∃ id, slots.locals.lookup name = none ∧ nameOf id = name ∧ table.slots[id]? = some a ∧ op = how.global := by
  rw [Scopes.visible_eq, hsituated.locals] at hvisible
  cases hlocal : slots.entries.lookup name with
  | some found =>
    rw [hlocal] at hvisible
    obtain rfl : found = resolution := Option.some.inj hvisible
    obtain ⟨inner, id, value, outer, rfl, rfl, hnone⟩ := FrameSlots.exists_named hlocal
    have hslot := FrameSlots.slotOf?_named hsituated.bindings hsituated.distinct
    refine .inl ⟨inner, id, value, outer, rfl, hnone, ?_⟩
    cases haccesses with
    | global _ hglobal => cases hglobal
    | frame hbinding _ hfound =>
      cases hbinding
      exact ⟨rfl, Option.some.inj (hfound.symm.trans hslot)⟩
    | captured hbinding _ hfound =>
      cases hbinding
      exact absurd (hslot.symm.trans hfound) (Option.some_ne_none _)
  | none =>
    rw [hlocal, Option.none_or] at hvisible
    have hmem : (name, resolution) ∈ scopes.globals := by
      obtain ⟨first, second, heq, -⟩ := List.lookup_eq_some_iff.mp hvisible
      simp [heq]
    obtain ⟨hglobal, id, hbinding, hname⟩ := hsituated.globals _ hmem
    refine .inr ⟨id, FrameSlots.lookup_locals_eq_none hlocal, hname, ?_⟩
    dsimp only at hglobal hbinding
    cases haccesses with
    | global hfound _ hslot =>
      cases hbinding.symm.trans hfound
      exact ⟨hslot, rfl⟩
    | frame _ hframe => exact absurd (hglobal.symm.trans hframe) (by decide)
    | captured _ hframe => exact absurd (hglobal.symm.trans hframe) (by decide)

end Situated

section Patterns

variable {nameOf : BindingId → String} {scopes : Scopes} {slots : FrameSlots} {scope : FrameScope} {heap : Heap}

/-- The variables of a pattern are declared, with the values that it binds. Those declared last are on top. -/
def DeclaresBound (nameOf : BindingId → String) (scopes : Scopes) (slots : FrameSlots) (scope : FrameScope)
    (names : List String) (values : List Value) : Prop :=
  names.length = values.length ∧ ∃ declared : FrameSlots, declared.values = values.reverse ∧
    declared.locals = (names.zip values).reverse ∧ Situated nameOf scopes (declared ++ slots) scope

theorem DeclaresBound.nil (hsituated : Situated nameOf scopes slots scope) :
    DeclaresBound nameOf scopes slots scope [] [] :=
  ⟨rfl, [], rfl, rfl, hsituated⟩

theorem boundScope_append (vars more : List Pattern.Variable) :
    boundScope (vars ++ more) = boundScope more ++ boundScope vars := by
  simp [boundScope]

mutual

theorem Pattern.declaresBound (pattern : Pattern) {value : Value} {bound : List Binding} {scopes : Scopes}
    {slots : FrameSlots} {scope : FrameScope} (hbound : pattern.bindings? heap value = some bound)
    (hfits : Throughout (Scopes.Fits nameOf) scopes pattern.outline) (hinner : scopes.outer ≠ [])
    (hsituated : Situated nameOf scopes slots scope) :
    DeclaresBound nameOf (scopes.afterAll pattern.outline) slots
      (boundScope pattern.vars ++ scope) pattern.variableNames
      (bound.map (·.2)) := by
  cases pattern with
  | wildcard =>
    cases hbound
    exact .nil hsituated
  | literal location literal =>
    obtain rfl : bound = [] := by
      cases literal <;> simp only [Pattern.bindings?] at hbound <;> grind
    exact .nil hsituated
  | bind location name binding =>
    cases hbound
    obtain ⟨id, -, -, hdeclared⟩ := hsituated.declare hfits.1 hinner value false
    exact ⟨rfl, [.named name id value], rfl, rfl, hdeclared⟩
  | destructure location fields =>
    simp only [Pattern.bindings?] at hbound
    split at hbound
    · exact Pattern.fieldsDeclareBound fields hbound hfits hinner hsituated
    · cases hbound
termination_by structural pattern

theorem Pattern.fieldsDeclareBound (fields : List (String × Pattern)) {record : Fields} {bound : List Binding}
    {scopes : Scopes} {slots : FrameSlots} {scope : FrameScope}
    (hbound : Pattern.fieldBindings? heap fields record = some bound)
    (hfits : Throughout (Scopes.Fits nameOf) scopes (Pattern.fieldOutlines fields)) (hinner : scopes.outer ≠ [])
    (hsituated : Situated nameOf scopes slots scope) :
    DeclaresBound nameOf (scopes.afterAll (Pattern.fieldOutlines fields)) slots
      (boundScope (Pattern.fieldVariables fields) ++ scope) (Pattern.fieldVariableNames fields) (bound.map (·.2)) := by
  cases fields with
  | nil =>
    cases hbound
    exact .nil hsituated
  | cons field rest =>
    obtain ⟨name, pattern⟩ := field
    simp only [Pattern.fieldBindings?, Option.bind_eq_bind, Option.bind_eq_some_iff, Option.pure_def,
      Option.some.injEq] at hbound
    obtain ⟨value, -, first, hfirst, others, hothers, rfl⟩ := hbound
    obtain ⟨hpattern, hrest⟩ := throughout_append.mp hfits
    obtain ⟨hcount, declared, hvalues, hlocals, hsituated⟩ := pattern.declaresBound hfirst hpattern hinner hsituated
    have hinner : (scopes.afterAll pattern.outline).outer ≠ [] := by rwa [Scopes.outer_afterAll]
    obtain ⟨hmore, later, hlater, hnamed, hsituated⟩ := Pattern.fieldsDeclareBound rest hothers hrest hinner hsituated
    rw [Pattern.fieldOutlines, Scopes.afterAll_append, Pattern.fieldVariables, boundScope_append,
      Pattern.fieldVariableNames, List.map_append, List.append_assoc]
    refine ⟨by simp [hcount, hmore], later ++ declared, ?_, ?_, ?_⟩
    · rw [FrameSlots.values_append, hlater, hvalues, List.reverse_append]
    · rw [FrameSlots.locals_append, hnamed, hlocals, List.zip_append hcount, List.reverse_append]
    · rwa [List.append_assoc]
termination_by structural fields

end

/-- A value that an arm is tried on: the evaluation and the matcher accept it or not, and bind the same. -/
theorem arm_cases (pattern : Option Pattern) (heap : Heap) (value : Value)
    (hfits : Throughout (Scopes.Fits nameOf) scopes ((pattern.map Pattern.outline).getD []))
    (hinner : scopes.outer ≠ []) (hsituated : Situated nameOf scopes slots scope) :
    (pattern.elim (some []) (·.variables? heap value) = none ∧
      heap.matchValue (pattern.elim .any Pattern.toMatcher) value = none) ∨
    ∃ names values, pattern.elim (some []) (·.variables? heap value) = some (names.zip values) ∧
      heap.matchValue (pattern.elim .any Pattern.toMatcher) value = some values ∧
      DeclaresBound nameOf (scopes.afterAll ((pattern.map Pattern.outline).getD [])) slots
        (boundScope (pattern.elim [] Pattern.vars) ++ scope) names values := by
  cases pattern with
  | none => exact .inr ⟨[], [], rfl, rfl, .nil hsituated⟩
  | some pattern =>
    simp only [Option.elim_some, Pattern.variables?, pattern.matchValue_toMatcher]
    cases hbound : pattern.bindings? heap value with
    | none => exact .inl ⟨rfl, rfl⟩
    | some bound => exact .inr ⟨_, _, rfl, rfl, pattern.declaresBound hbound hfits hinner hsituated⟩

/-- The limits of a heap make no difference to what it holds. -/
theorem matchValue_withConfig (pattern : Option Pattern) (heap : Heap) (config : HeapConfig) (value : Value) :
    Heap.matchValue { heap with config } (pattern.elim .any Pattern.toMatcher) value =
      heap.matchValue (pattern.elim .any Pattern.toMatcher) value := by
  cases pattern with
  | none => rfl
  | some pattern =>
    have hkeeps : heap.Keeps { heap with config } [value] := fun ref _ => rfl
    simp only [Option.elim_some, pattern.matchValue_toMatcher]
    rw [Pattern.bindings?_kept hkeeps pattern (Heap.reaches_of_mem List.mem_cons_self)]

end Patterns

end OwnScript
