import OwnScript.Proofs.Machine.Control
import OwnScript.Proofs.Stack.Profiles
import OwnScript.Proofs.Stack.Values

/-!
The operations that take values from the top of the stack, give others and go on behind. On a frame that
holds enough values they do just that, or they fail for a reason that lies in the program: they never miss a
value, and they make no value that leads to a closure of a function that is not allowed.
-/

namespace OwnScript

open Stateful

variable {allowed : Option Prototype → Prop}

/-- The result of an operator on numbers: a scalar, or a complaint that is not about the code. -/
def Sensible : Except Diagnostic Value → Prop
  | .ok value => ∃ scalar, value = .scalar scalar
  | .error diagnostic => diagnostic.kind ≠ .malformedBytecode

theorem sensible_typeError (message : String) : Sensible (.error (typeError message)) := by
  simp [Sensible, typeError, Diagnostic.plain]

/-- A computation on integers that complains about types alone. -/
theorem sensible_map {result : Except Diagnostic Int64}
    (herror : ∀ diagnostic, result = .error diagnostic → ∃ message, diagnostic = typeError message) :
    Sensible (result.map fun value => .scalar (.int value)) := by
  cases result with
  | ok value => exact ⟨_, rfl⟩
  | error diagnostic =>
    obtain ⟨message, rfl⟩ := herror diagnostic rfl
    exact sensible_typeError message

theorem integerResult_error {op : Opcode} {a b : Int64} {diagnostic : Diagnostic}
    (herror : op.integerResult a b = .error diagnostic) : ∃ message, diagnostic = typeError message := by
  unfold Opcode.integerResult at herror
  split at herror
  any_goals cases herror
  all_goals
    split at herror
    · cases herror
      exact ⟨_, rfl⟩
    · cases herror

theorem bitResult_error {op : Opcode} {a b : Int64} {diagnostic : Diagnostic}
    (herror : op.bitResult a b = .error diagnostic) : ∃ message, diagnostic = typeError message := by
  have hshift (shift : Int64 → Int64) (h : (shiftCount b).map shift = .error diagnostic) :
      ∃ message, diagnostic = typeError message := by
    unfold shiftCount at h
    split at h
    · cases h
      exact ⟨_, rfl⟩
    · cases h
  unfold Opcode.bitResult at herror
  split at herror
  any_goals cases herror
  · exact hshift _ herror
  · exact hshift _ herror

namespace Heap

variable (heap : Heap)

theorem sensible_arithmetic (op : Opcode) (a b : Value) : Sensible (heap.arithmetic op a b) := by
  unfold arithmetic
  split
  · exact sensible_map fun _ => integerResult_error
  · exact ⟨_, rfl⟩
  · exact sensible_typeError _

theorem sensible_bitwise (op : Opcode) (a b : Value) : Sensible (heap.bitwise op a b) := by
  unfold bitwise
  split
  · exact sensible_map fun _ => bitResult_error
  · exact sensible_typeError _

theorem sensible_comparison (op : Opcode) (a b : Value) : Sensible (heap.comparison op a b) := by
  unfold comparison
  split
  · exact ⟨_, rfl⟩
  · exact ⟨_, rfl⟩
  · exact sensible_typeError _

theorem sensible_negate (value : Value) : Sensible (heap.negate value) := by
  unfold negate
  split
  · exact ⟨_, rfl⟩
  · exact ⟨_, rfl⟩
  · exact sensible_typeError _

theorem sensible_complement (value : Value) : Sensible (heap.complement value) := by
  unfold complement
  split
  · exact ⟨_, rfl⟩
  · exact sensible_typeError _

end Heap

theorem Fields.mem_replaceFirst {name : String} {value : Value} {entries : List (String × Value)}
    {entry : String × Value} (hentry : entry ∈ Fields.replaceFirst name value entries) :
    entry.2 = value ∨ entry ∈ entries := by
  induction entries with
  | nil => exact .inr hentry
  | cons first rest ih =>
    unfold Fields.replaceFirst at hentry
    split at hentry
    · rcases List.mem_cons.mp hentry with rfl | hentry
      · exact .inl rfl
      · exact .inr (List.mem_cons_of_mem _ hentry)
    · rcases List.mem_cons.mp hentry with rfl | hentry
      · exact .inr (List.mem_cons_self ..)
      · exact (ih hentry).imp_right (List.mem_cons_of_mem _)

theorem Fields.mem_ofLiteral {names : List String} {values : List Value} {entry : String × Value}
    (hentry : entry ∈ (Fields.ofLiteral names values).entries) : entry.2 ∈ values := by
  have hfold (pairs entries : List (String × Value)) (hpairs : ∀ pair ∈ pairs, pair.2 ∈ values)
      (hentries : ∀ entry ∈ entries, entry.2 ∈ values) :
      ∀ entry ∈ pairs.foldl (fun entries entry =>
        if entries.any (fun e => e.1 == entry.1) then Fields.replaceFirst entry.1 entry.2 entries
        else entries ++ [entry]) entries, entry.2 ∈ values := by
    induction pairs generalizing entries with
    | nil => exact hentries
    | cons pair rest ih =>
      refine ih _ (fun other hother => hpairs other (List.mem_cons_of_mem _ hother)) fun entry hentry => ?_
      beta_reduce at hentry
      split at hentry
      · rcases Fields.mem_replaceFirst hentry with h | h
        · exact h ▸ hpairs pair (List.mem_cons_self ..)
        · exact hentries entry h
      · rcases List.mem_append.mp hentry with h | h
        · exact hentries entry h
        · exact List.mem_singleton.mp h ▸ hpairs pair (List.mem_cons_self ..)
  refine hfold _ [] (fun pair hpair => ?_) (fun _ h => by cases h) entry hentry
  exact (List.of_mem_zip hpair).2

namespace Exec

open Machine

variable {start m : Machine} {size : Nat}

/-- The height after an operation. -/
abbrev Leaves (allowed : Option Prototype → Prop) (start : Machine) (size : Nat) :
    EStateM.Result Fault Machine Unit → Prop :=
  EndsWell (Upholds allowed start) (fun _ after => after.stack.size = size)

theorem leaves_push (hupholds : Upholds allowed start m) {value : Value} (hvalue : m.heap.Admits allowed value) :
    Leaves allowed start (m.stack.size + 1) (push value m) :=
  (ends_push hupholds hvalue).mono fun _ after _ h => by rw [h, Array.size_push]

theorem leaves_replaceTop (hupholds : Upholds allowed start m) {count : Nat} (hcount : count ≤ m.stack.size)
    {value : Value} (hvalue : m.heap.Admits allowed value) :
    Leaves allowed start (m.stack.size - count + 1) (replaceTop count value m) :=
  (ends_replaceTop hupholds hcount hvalue).mono fun _ _ _ h => h.2

/-- The result of an operator takes the place of its operands. -/
theorem leaves_result (hupholds : Upholds allowed start m) {count : Nat} (hcount : count ≤ m.stack.size)
    {result : Except Diagnostic Value} (hsensible : Sensible result) :
    Leaves allowed start (m.stack.size - count + 1) ((ofExcept result >>= replaceTop count) m) := by
  refine (ends_ofExcept hupholds fun diagnostic h => ?_).look fun value h => ?_
  · rw [h] at hsensible
    exact hsensible
  · rw [h] at hsensible
    obtain ⟨scalar, rfl⟩ := hsensible
    exact leaves_replaceTop hupholds hcount (Heap.admits_scalar scalar)

theorem leaves_binary (hupholds : Upholds allowed start m) (hsize : 2 < m.stack.size)
    {operator : Heap → Value → Value → Except Diagnostic Value}
    (hsensible : ∀ a b, Sensible (operator m.heap a b)) :
    Leaves allowed start (m.stack.size - 2 + 1) (binary operator m) := by
  refine (ends_peek hupholds (by omega)).look fun b _ => ?_
  refine (ends_peek hupholds (by omega)).look fun a _ => ?_
  rw [get_bind_apply]
  exact leaves_result hupholds (by omega) (hsensible a b)

theorem leaves_unary (hupholds : Upholds allowed start m) (hsize : 1 < m.stack.size)
    {operator : Heap → Value → Except Diagnostic Value} (hsensible : ∀ a, Sensible (operator m.heap a)) :
    Leaves allowed start (m.stack.size - 1 + 1) (unary operator m) := by
  refine (ends_peek hupholds (by omega)).look fun a _ => ?_
  rw [get_bind_apply]
  exact leaves_result hupholds (by omega) (hsensible a)

theorem leaves_equality (hupholds : Upholds allowed start m) (hsize : 2 < m.stack.size) (negated : Bool) :
    Leaves allowed start (m.stack.size - 2 + 1) (equality negated m) := by
  refine (ends_pop hupholds (by omega)).bind fun b popped hpopped h => ?_
  obtain ⟨rfl, -⟩ := h
  refine (ends_pop hpopped (by rw [stack_cut, shrink_pred, Array.size_pop]; omega)).bind fun a popped hagain h => ?_
  obtain ⟨rfl, -⟩ := h
  rw [get_bind_apply]
  refine (leaves_push hagain (Heap.admits_ofBool _)).mono fun _ after _ h => ?_
  rw [h]
  simp only [stack_cut, Array.size_shrink]
  omega

theorem ends_definedGlobal (hupholds : Upholds allowed start m) {slot : Nat} (hslot : slot < m.globals.size)
    (hname : slot < m.unit.globalNames.size) (verb : String) :
    EndsWell (Upholds allowed start) (fun value after => after = m ∧ m.globals[slot]? = some (some value))
      (definedGlobal slot verb m) := by
  simp only [definedGlobal]
  rw [get_bind_apply]
  refine (ends_expect hupholds (Array.getElem?_eq_getElem hslot)).look fun found hfound => ?_
  cases found with
  | some value => exact ⟨hupholds, rfl, by rw [Array.getElem?_eq_getElem hslot, hfound]⟩
  | none =>
    refine (ends_expect hupholds (Array.getElem?_eq_getElem hname)).look fun name _ => ?_
    exact ends_fail hupholds (by simp [Diagnostic.about])

theorem ends_setGlobal (hupholds : Upholds allowed start m) (slot : Nat) {value : Value}
    (hvalue : m.heap.Admits allowed value) :
    EndsWell (Upholds allowed start) (fun _ after => after.stack = m.stack) (setGlobal slot value m) := by
  refine ⟨{ hupholds with offers := ⟨hupholds.offers.heap, hupholds.offers.stack⟩
                          globals := fun other found hfound => ?_ }, rfl⟩
  change (m.globals.setIfInBounds slot (some value))[other]? = _ at hfound
  rw [Array.getElem?_setIfInBounds] at hfound
  split at hfound
  · split at hfound
    · cases hfound
      exact .inr hvalue
    · cases hfound
  · exact hupholds.globals other found hfound

/-- The variables that the running closure has captured: while a cell is open, its slot is on the stack. -/
structure Captured (m : Machine) (frame : Frame) (cells : Array (Option Ref)) : Prop where
  innermost : m.frames.back? = some frame
  closure : ∃ prototype, m.heap.get? frame.closure = some (.closure prototype cells)
  inside : ∀ (index : Nat) cell slot, cells[index]? = some (some cell) →
    m.heap.get? cell = some (.upvalue (.opened slot)) → 0 < slot ∧ slot < m.stack.size

theorem ends_upvalueCell (hupholds : Upholds allowed start m) {frame : Frame} {cells : Array (Option Ref)}
    (hcaptured : Captured m frame cells) {index : Nat} (hcell : m.HasCell cells index) :
    EndsWell (Upholds allowed start)
      (fun found after => after = m ∧ cells[index]? = some (some found.1) ∧
        m.heap.get? found.1 = some (.upvalue found.2))
      (upvalueCell index m) := by
  obtain ⟨cell, state, hfound, hstate⟩ := hcell
  obtain ⟨prototype, hclosure⟩ := hcaptured.closure
  have hupvalues : EndsWell (Upholds allowed start) (fun got after => after = m ∧ got = cells) (upvalues m) := by
    simp only [upvalues]
    rw [get_bind_apply]
    refine (ends_frame hupholds hcaptured.innermost).look fun got hgot => ?_
    subst hgot
    rw [hclosure]
    exact ⟨hupholds, rfl, rfl⟩
  refine hupvalues.look fun got hgot => ?_
  subst hgot
  refine (ends_expect hupholds hfound).look fun entry hentry => ?_
  subst hentry
  refine (ends_expect hupholds rfl).look fun got hgot => ?_
  subst hgot
  rw [get_bind_apply, hstate]
  exact ⟨hupholds, rfl, hfound, hstate⟩

theorem ends_readUpvalue (hupholds : Upholds allowed start m) {frame : Frame} {cells : Array (Option Ref)}
    (hcaptured : Captured m frame cells) {index : Nat} (hcell : m.HasCell cells index) :
    EndsWell (Upholds allowed start) (fun value after => after = m ∧ m.heap.Admits allowed value)
      (readUpvalue index m) := by
  refine (ends_upvalueCell hupholds hcaptured hcell).look fun found h => ?_
  obtain ⟨hfound, hstate⟩ := h
  obtain ⟨cell, state⟩ := found
  cases state with
  | opened slot =>
    obtain ⟨hpos, hslot⟩ := hcaptured.inside index cell slot hfound hstate
    exact ends_readSlot hupholds hpos hslot
  | closed value =>
    exact ⟨hupholds, rfl, hupholds.offers.heap cell _ hstate value (List.mem_singleton_self _)⟩

theorem leaves_writeUpvalue (hupholds : Upholds allowed start m) {frame : Frame} {cells : Array (Option Ref)}
    (hcaptured : Captured m frame cells) {index : Nat} (hcell : m.HasCell cells index) {value : Value}
    (hvalue : m.heap.Admits allowed value) :
    Leaves allowed start m.stack.size (writeUpvalue index value m) := by
  refine (ends_upvalueCell hupholds hcaptured hcell).look fun found h => ?_
  obtain ⟨hfound, hstate⟩ := h
  obtain ⟨cell, state⟩ := found
  cases state with
  | opened slot => exact ends_writeSlot hupholds (hcaptured.inside index cell slot hfound hstate).2 hvalue
  | closed old =>
    have hget := Heap.get?_update m.heap cell (.upvalue (.closed value))
    refine ⟨hupholds.withHeap (Heap.follows_replace rfl hget fun _ _ h => by cases h)
      (hupholds.offers.heap.replace rfl hget (fun _ _ h => by cases h) fun found hfound => ?_), rfl⟩
    obtain rfl := List.mem_singleton.mp hfound
    exact hvalue

/-- The record or array under a value, or a complaint about its type. -/
theorem ends_expectRecord (hupholds : Upholds allowed start m) (value : Value) (what : String) :
    EndsWell (Upholds allowed start)
      (fun found after => after = m ∧ m.heap.get? found.1 = some (.record found.2)) (expectRecord value what m) := by
  rcases expectRecord_cases value what m with ⟨ref, fields, hget, hresult⟩ | ⟨message, hresult⟩
  · rw [hresult]
    exact ⟨hupholds, rfl, hget⟩
  · rw [hresult]
    exact ⟨hupholds, sensible_typeError message⟩

theorem ends_expectArray (hupholds : Upholds allowed start m) (value : Value) (what : String) :
    EndsWell (Upholds allowed start)
      (fun found after => after = m ∧ m.heap.get? found.1 = some (.array found.2)) (expectArray value what m) := by
  rcases expectArray_cases value what m with ⟨ref, elements, hget, hresult⟩ | ⟨message, hresult⟩
  · rw [hresult]
    exact ⟨hupholds, rfl, hget⟩
  · rw [hresult]
    exact ⟨hupholds, sensible_typeError message⟩

theorem leaves_getField (hupholds : Upholds allowed start m) (hsize : 1 < m.stack.size) (name : String) :
    Leaves allowed start (m.stack.size - 1 + 1) (getField name m) := by
  refine (ends_peek hupholds (by omega)).look fun value _ => ?_
  refine (ends_expectRecord hupholds value _).look fun found hget => ?_
  obtain ⟨ref, fields⟩ := found
  dsimp only
  cases hfield : fields.find? name with
  | none => exact ends_fail hupholds (by simp [Diagnostic.about])
  | some value =>
    obtain ⟨entry, hentry, rfl⟩ := Option.map_eq_some_iff.mp hfield
    refine leaves_replaceTop hupholds (by omega) (hupholds.offers.heap ref _ hget _ ?_)
    exact List.mem_map_of_mem (List.mem_of_find?_eq_some hentry)

theorem leaves_setField (hupholds : Upholds allowed start m) (hsize : 2 < m.stack.size) (name : String) :
    Leaves allowed start (m.stack.size - 2 + 1) (setField name m) := by
  refine (ends_peek hupholds (by omega)).look fun value hvalue => ?_
  refine (ends_peek hupholds (by omega)).look fun record _ => ?_
  refine (ends_expectRecord hupholds record _).look fun found hget => ?_
  obtain ⟨ref, fields⟩ := found
  have hold (entry : String × Value) (hentry : entry ∈ fields.entries) : m.heap.Admits allowed entry.2 :=
    hupholds.offers.heap ref _ hget _ (List.mem_map_of_mem hentry)
  -- The value goes into the record, whichever way its fields are stored, and replaces both operands.
  have hstored (heap : Heap) (changed : Fields) (hnext : heap.nextRef = m.heap.nextRef)
      (hchanged : ∀ other, heap.get? other =
        if other = ref then (m.heap.get? other).map (fun _ => .record changed) else m.heap.get? other)
      (hentries : ∀ entry ∈ changed.entries, m.heap.Admits allowed entry.2) :
      Leaves allowed start (m.stack.size - 2 + 1) (replaceTop 2 value { m with heap }) := by
    have hfollows : m.heap.Follows allowed heap :=
      Heap.follows_replace hnext hchanged fun _ _ h => by cases h
    refine leaves_replaceTop (hupholds.withHeap hfollows
      (hupholds.offers.heap.replace hnext hchanged (fun _ _ h => by cases h) fun found hfound => ?_))
      (by change 2 ≤ m.stack.size; omega) (hvalue.follows hfollows)
    obtain ⟨entry, hentry, rfl⟩ := List.mem_map.mp hfound
    exact hentries entry hentry
  dsimp only
  split
  · refine hstored _ (fields.replace name value) rfl (fun _ => Heap.get?_update ..) fun entry hentry => ?_
    rcases Fields.mem_replaceFirst hentry with h | h
    · exact h ▸ hvalue
    · exact hold entry h
  · refine (ends_ensureHeadroom hupholds _).bind fun _ after _ h => ?_
    subst h
    refine hstored _ (fields.append name value) (Heap.nextRef_store ..)
      (fun _ => Heap.get?_store ..) fun entry hentry => ?_
    rcases List.mem_append.mp hentry with h | h
    · exact hold entry h
    · obtain rfl := List.mem_singleton.mp h
      exact hvalue

theorem ends_checkedIndex (hupholds : Upholds allowed start m) (elements : Elements) (index : Value) :
    EndsWell (Upholds allowed start) (fun position after => after = m ∧ position < elements.values.size)
      (checkedIndex elements index m) := by
  cases index with
  | object target => exact ends_fail hupholds (by simp [typeError, Diagnostic.plain])
  | scalar scalar =>
    cases scalar with
    | int i =>
      simp only [checkedIndex]
      split
      · exact ends_fail hupholds (by simp [Diagnostic.plain])
      · rename_i hrange
        refine ⟨hupholds, rfl, ?_⟩
        simp only [Bool.or_eq_true, decide_eq_true_eq, not_or, not_le, Int64.lt_iff_toInt_lt,
          Int64.toInt_zero] at hrange
        omega
    | _ => exact ends_fail hupholds (by simp [typeError, Diagnostic.plain])

theorem leaves_getIndex (hupholds : Upholds allowed start m) (hsize : 2 < m.stack.size) :
    Leaves allowed start (m.stack.size - 2 + 1) (getIndex m) := by
  refine (ends_peek hupholds (by omega)).look fun index _ => ?_
  refine (ends_peek hupholds (by omega)).look fun array _ => ?_
  refine (ends_expectArray hupholds array _).look fun found hget => ?_
  obtain ⟨ref, elements⟩ := found
  refine (ends_checkedIndex hupholds elements index).look fun position hposition => ?_
  refine (ends_expect hupholds (Array.getElem?_eq_getElem hposition)).look fun value hvalue => ?_
  subst hvalue
  refine leaves_replaceTop hupholds (by omega) (hupholds.offers.heap ref _ hget _ ?_)
  exact Array.mem_toList_iff.mpr (Array.getElem_mem hposition)

theorem leaves_setIndex (hupholds : Upholds allowed start m) (hsize : 3 < m.stack.size) :
    Leaves allowed start (m.stack.size - 3 + 1) (setIndex m) := by
  refine (ends_peek hupholds (by omega)).look fun value hvalue => ?_
  refine (ends_peek hupholds (by omega)).look fun index _ => ?_
  refine (ends_peek hupholds (by omega)).look fun array _ => ?_
  refine (ends_expectArray hupholds array _).look fun found hget => ?_
  obtain ⟨ref, elements⟩ := found
  refine (ends_checkedIndex hupholds elements index).look fun position hposition => ?_
  have hchanged := Heap.get?_update m.heap ref
    (.array { elements with values := elements.values.setIfInBounds position value })
  have hfollows : m.heap.Follows allowed (m.heap.update ref
      (.array { elements with values := elements.values.setIfInBounds position value })) :=
    Heap.follows_replace rfl hchanged fun _ _ h => by cases h
  refine leaves_replaceTop (hupholds.withHeap hfollows
    (hupholds.offers.heap.replace rfl hchanged (fun _ _ h => by cases h) fun found hfound => ?_))
    (by change 3 ≤ m.stack.size; omega) (hvalue.follows hfollows)
  have hmem : found ∈ elements.values.setIfInBounds position value := Array.mem_toList_iff.mp hfound
  rcases Array.mem_or_eq_of_mem_setIfInBounds hmem with h | rfl
  · exact hupholds.offers.heap ref _ hget _ (Array.mem_toList_iff.mpr h)
  · exact hvalue

/-- A container is built from the values on top. -/
theorem leaves_build (hupholds : Upholds allowed start m) (hsound : m.heap.Sound) (bytes : UInt64)
    {empty object : Object} {count : Nat} (hcount : count ≤ m.stack.size)
    (hempty : empty.contents = [] ∧ ∀ prototype cells, empty ≠ .closure prototype cells)
    (hobject : ∀ prototype cells, object ≠ .closure prototype cells)
    (hcontents : ∀ value ∈ object.contents, m.heap.Admits allowed value) :
    Leaves allowed start (m.stack.size - count + 1) (build bytes empty object count m) := by
  refine (ends_ensureHeadroom hupholds bytes).bind fun _ after _ h => ?_
  subst h
  refine (ends_allocate hupholds hsound (fun _ _ h => absurd h (hempty.2 _ _))
    (fun value h => by rw [hempty.1] at h; cases h)).bind fun ref linked hlinked h => ?_
  obtain ⟨hrest, hfollows, hfresh, hget⟩ := h
  have hchanged := Heap.get?_store linked.heap ref object
  have hstored : linked.heap.Follows allowed (linked.heap.store ref object) :=
    Heap.follows_replace (Heap.nextRef_store ..) hchanged fun _ _ h => absurd h (hobject _ _)
  have hstack : linked.stack = after.stack := by rw [hrest]
  have hroom : count ≤ linked.stack.size := by rw [hstack]; exact hcount
  refine (leaves_replaceTop (hlinked.withHeap hstored (hlinked.offers.heap.replace (Heap.nextRef_store ..) hchanged
    (fun _ _ h => absurd h (hobject _ _)) fun value hvalue => (hcontents value hvalue).follows hfollows))
    hroom ?_).mono fun _ _ _ h => ?_
  · intro other hother
    cases hother
    refine ⟨by rw [Heap.nextRef_store]; exact hfresh, fun prototype cells h => ?_⟩
    change (linked.heap.store ref object).get? ref = _ at h
    rw [hchanged, if_pos rfl, hget] at h
    exact absurd (Option.some.inj h) (hobject _ _)
  · rw [h, hstack]

/-- A machine whose innermost frame holds what a plain operation needs. -/
structure Supplied (m : Machine) (frame : Frame) (chunk : Chunk) (cells : Array (Option Ref)) (op : Opcode)
    (a : Nat) : Prop where
  captured : Captured m frame cells
  running : m.chunk = some chunk
  resolves : m.Resolves chunk cells op a
  base : 0 < frame.base
  taken : frame.base + op.taken chunk a ≤ m.stack.size
  seen : frame.base + op.seen ≤ m.stack.size
  slot : ∀ slot, op.slot? a = some slot → frame.base + slot < m.stack.size

theorem leaves_constant (hupholds : Upholds allowed start m) {chunk : Chunk} (hchunk : m.chunk = some chunk)
    {a : Nat} {value : Scalar} (hfound : chunk.constants[a]? = some (.scalar value)) (b : Nat) :
    Leaves allowed start (m.stack.size + 1) (execute .constant a b m) := by
  refine (ends_chunk hupholds hchunk).look fun got hgot => ?_
  subst hgot
  refine (ends_expect hupholds hfound).look fun got hgot => ?_
  subst hgot
  exact leaves_push hupholds (Heap.admits_scalar value)

theorem leaves_string (hupholds : Upholds allowed start m) (hsound : m.heap.Sound) {chunk : Chunk}
    (hchunk : m.chunk = some chunk) {a : Nat} (ha : a < chunk.strings.size) (b : Nat) :
    Leaves allowed start (m.stack.size + 1) (execute .string a b m) := by
  refine (ends_chunk hupholds hchunk).look fun got hgot => ?_
  subst hgot
  refine (ends_expect hupholds (Array.getElem?_eq_getElem ha)).look fun text _ => ?_
  refine (ends_allocate hupholds hsound (fun _ _ h => by cases h) (fun _ h => by cases h)).bind
    fun ref linked hlinked h => ?_
  obtain ⟨hrest, -, hfresh, hget⟩ := h
  refine (leaves_push hlinked fun other hother => ?_).mono fun _ after _ h => ?_
  · cases hother
    refine ⟨hfresh, fun prototype cells h => ?_⟩
    rw [hget] at h
    cases h
  · rw [h, hrest]

theorem leaves_buildRecord (hupholds : Upholds allowed start m) (hsound : m.heap.Sound) (names : List String)
    (hcount : names.length < m.stack.size) :
    Leaves allowed start (m.stack.size - names.length + 1) (buildRecord names m) := by
  refine (ends_topValues hupholds hcount).look fun values hvalues => ?_
  refine leaves_build hupholds hsound _ hcount.le ⟨rfl, fun _ _ h => by cases h⟩ (fun _ _ h => by cases h) ?_
  intro value hvalue
  obtain ⟨entry, hentry, rfl⟩ := List.mem_map.mp hvalue
  exact hvalues _ (Array.mem_toList_iff.mp (Fields.mem_ofLiteral hentry))

theorem leaves_buildArray (hupholds : Upholds allowed start m) (hsound : m.heap.Sound) {count : Nat}
    (hcount : count < m.stack.size) :
    Leaves allowed start (m.stack.size - count + 1) (buildArray count m) := by
  refine (ends_topValues hupholds hcount).look fun values hvalues => ?_
  refine leaves_build hupholds hsound _ hcount.le ⟨rfl, fun _ _ h => by cases h⟩ (fun _ _ h => by cases h) ?_
  intro value hvalue
  exact hvalues value (Array.mem_toList_iff.mp hvalue)

/-- An operation that takes values from the top of the stack and gives others does so, if its frame holds
enough and the globals that it reads are admitted. -/
theorem leaves_plain (hoffers : m.Offers allowed) (hsound : m.heap.Sound) {frame : Frame} {chunk : Chunk}
    {cells : Array (Option Ref)} {op : Opcode} {a : Nat} (hplain : op.isPlain = true)
    (hsupplied : Supplied m frame chunk cells op a)
    (hglobal : op = .getGlobal ∨ op = .moveGlobal → ∀ value, m.globals[a]? = some (some value) →
      m.heap.Admits allowed value) (b : Nat) :
    Leaves allowed m (m.stack.size - op.taken chunk a + op.given) (execute op a b m) := by
  have hupholds := hoffers.upholds
  obtain ⟨hcaptured, hchunk, hresolves, hbase, htaken, hseen, hslot⟩ := hsupplied
  have hframe := hcaptured.innermost
  cases op with
  | constant =>
    obtain ⟨value, hvalue⟩ := hresolves
    exact leaves_constant hupholds hchunk hvalue b
  | string => exact leaves_string hupholds hsound hchunk hresolves b
  | pushNil => exact leaves_push hupholds Heap.admits_nil
  | pushTrue => exact leaves_push hupholds (Heap.admits_ofBool true)
  | pushFalse => exact leaves_push hupholds (Heap.admits_ofBool false)
  | pop =>
    simp only [Opcode.taken] at htaken
    refine (ends_pop hupholds (by omega)).bind fun _ after hafter h => ?_
    obtain ⟨rfl, -⟩ := h
    exact ⟨hafter, by simp [Opcode.taken, Opcode.given]⟩
  | popMany =>
    simp only [Opcode.taken] at htaken
    simp only [execute]
    rw [get_bind_apply, if_neg (by omega)]
    have hcut : m.stack.size - a - m.stack.size = 0 := by omega
    refine ⟨hupholds.withStack fun i value hi hvalue => ?_, ?_⟩
    · rw [hcut, Array.replicate_zero, Array.append_empty] at hvalue
      exact hoffers.shrink _ i value hi hvalue
    · simp [resizeStack, hcut, Opcode.taken, Opcode.given]
  | dup =>
    simp only [Opcode.seen] at hseen
    refine (ends_peek hupholds (by omega)).look fun value hvalue => ?_
    exact leaves_push hupholds hvalue
  | add | subtract | multiply | divide | modulo =>
    simp only [Opcode.taken] at htaken
    simp only [execute]
    exact leaves_binary hupholds (by omega) fun x y => Heap.sensible_arithmetic ..
  | bitwiseAnd | bitwiseOr | bitwiseXor | leftShift | rightShift =>
    simp only [Opcode.taken] at htaken
    simp only [execute]
    exact leaves_binary hupholds (by omega) fun x y => Heap.sensible_bitwise ..
  | less | greater | lessEqual | greaterEqual =>
    simp only [Opcode.taken] at htaken
    simp only [execute]
    exact leaves_binary hupholds (by omega) fun x y => Heap.sensible_comparison ..
  | negate =>
    simp only [Opcode.taken] at htaken
    exact leaves_unary hupholds (by omega) (Heap.sensible_negate m.heap)
  | bitwiseNot =>
    simp only [Opcode.taken] at htaken
    exact leaves_unary hupholds (by omega) (Heap.sensible_complement m.heap)
  | equal =>
    simp only [Opcode.taken] at htaken
    exact leaves_equality hupholds (by omega) false
  | notEqual =>
    simp only [Opcode.taken] at htaken
    exact leaves_equality hupholds (by omega) true
  | logicalNot =>
    simp only [Opcode.taken] at htaken
    refine (ends_pop hupholds (by omega)).bind fun value popped hpopped h => ?_
    obtain ⟨rfl, -⟩ := h
    refine (leaves_push hpopped (Heap.admits_ofBool _)).mono fun _ after _ h => ?_
    rw [h]
    simp [Opcode.taken, Opcode.given]
  | getGlobal =>
    refine (ends_definedGlobal hupholds hresolves.1 hresolves.2 _).look fun value hvalue => ?_
    exact leaves_push hupholds (hglobal (.inl rfl) value hvalue)
  | setGlobal =>
    simp only [Opcode.seen] at hseen
    refine (ends_peek hupholds (by omega)).look fun value hvalue => ?_
    refine (ends_setGlobal hupholds a hvalue).mono fun _ after _ h => ?_
    rw [h]
    rfl
  | moveGlobal =>
    refine (ends_definedGlobal hupholds hresolves.1 hresolves.2 _).look fun value hvalue => ?_
    refine (leaves_push hupholds (hglobal (.inr rfl) value hvalue)).bind fun _ pushed hpushed h => ?_
    refine (ends_setGlobal hpushed a Heap.admits_nil).mono fun _ after _ hsame => ?_
    rw [hsame, h]
    rfl
  | getLocal =>
    have hin := hslot a rfl
    refine (ends_localIndex hupholds hframe hin).look fun index hindex => ?_
    subst hindex
    refine (ends_readSlot hupholds (by omega) hin).look fun value hvalue => ?_
    exact leaves_push hupholds hvalue
  | setLocal =>
    simp only [Opcode.seen] at hseen
    refine (ends_peek hupholds (by omega)).look fun value hvalue => ?_
    refine (ends_localIndex hupholds hframe (hslot a rfl)).look fun index hindex => ?_
    subst hindex
    exact ends_writeSlot hupholds (hslot a rfl) hvalue
  | moveLocal =>
    have hin := hslot a rfl
    refine (ends_localIndex hupholds hframe hin).look fun index hindex => ?_
    subst hindex
    refine (ends_readSlot hupholds (by omega) hin).look fun value hvalue => ?_
    refine (leaves_push hupholds hvalue).bind fun _ pushed hpushed h => ?_
    refine (ends_writeSlot hpushed (by rw [h]; omega) Heap.admits_nil).mono fun _ after _ hsame => ?_
    rw [hsame, h]
    rfl
  | getUpvalue =>
    refine (ends_readUpvalue hupholds hcaptured hresolves).look fun value hvalue => ?_
    exact leaves_push hupholds hvalue
  | setUpvalue =>
    simp only [Opcode.seen] at hseen
    refine (ends_peek hupholds (by omega)).look fun value hvalue => ?_
    exact leaves_writeUpvalue hupholds hcaptured hresolves hvalue
  | moveUpvalue =>
    refine (ends_readUpvalue hupholds hcaptured hresolves).look fun value hvalue => ?_
    refine (ends_push hupholds hvalue).bind fun _ pushed hpushed h => ?_
    subst h
    have hstill : Captured { m with stack := m.stack.push value } frame cells := by
      refine ⟨hframe, hcaptured.closure, fun index cell slot hcell hopened => ?_⟩
      have := hcaptured.inside index cell slot hcell hopened
      simp only [Array.size_push]
      omega
    refine (leaves_writeUpvalue hpushed hstill hresolves Heap.admits_nil).mono fun _ after _ h => ?_
    rw [h, Array.size_push]
    rfl
  | record =>
    have hresolves : a < chunk.shapes.size := hresolves
    simp only [Opcode.taken, Array.getElem?_eq_getElem hresolves, Option.elim_some] at htaken ⊢
    refine (ends_chunk hupholds hchunk).look fun got hgot => ?_
    subst hgot
    refine (ends_expect hupholds (Array.getElem?_eq_getElem hresolves)).look fun names hnames => ?_
    subst hnames
    exact leaves_buildRecord hupholds hsound _ (by omega)
  | getField =>
    simp only [Opcode.taken] at htaken
    refine (ends_chunk hupholds hchunk).look fun got hgot => ?_
    subst hgot
    refine (ends_expect hupholds (Array.getElem?_eq_getElem hresolves)).look fun name _ => ?_
    exact leaves_getField hupholds (by omega) name
  | setField =>
    simp only [Opcode.taken] at htaken
    refine (ends_chunk hupholds hchunk).look fun got hgot => ?_
    subst hgot
    refine (ends_expect hupholds (Array.getElem?_eq_getElem hresolves)).look fun name _ => ?_
    exact leaves_setField hupholds (by omega) name
  | array =>
    simp only [Opcode.taken] at htaken
    have hcount : a < m.stack.size := by omega
    exact leaves_buildArray hupholds hsound hcount
  | getIndex =>
    simp only [Opcode.taken] at htaken
    exact leaves_getIndex hupholds (by omega)
  | setIndex =>
    simp only [Opcode.taken] at htaken
    exact leaves_setIndex hupholds (by omega)
  | printTop =>
    simp only [Opcode.taken] at htaken
    refine (ends_pop hupholds (by omega)).bind fun _ after hafter h => ?_
    obtain ⟨rfl, -⟩ := h
    refine ⟨{ hafter with offers := ⟨hafter.offers.heap, hafter.offers.stack⟩ }, ?_⟩
    simp [Opcode.taken, Opcode.given]
  | closeUpvalue | jump | jumpIfFalse | jumpIfTrue | loopBack | call | ret | closure | matchValue | matchArgs
  | noMatchingArm | noMatchingOverload | halt => cases hplain

end Exec

end OwnScript
