import OwnScript.Proofs.Machine.Changes
import OwnScript.Proofs.Stack.Profiles

/-!
What an instruction leaves alone. A slot below the values that an instruction takes keeps its value and gets no
cell, unless the instruction writes to this very slot, captures it or ends the call that it belongs to. This is
so whether the instruction is completed, gives up or fails.
-/

namespace OwnScript

open Stateful

namespace Machine

variable {slot : Nat} {m middle after : Machine}

/-- A slot keeps its value, and no cell is made for it. -/
structure Untouched (slot : Nat) (m after : Machine) : Prop where
  value : after.stack[slot]? = m.stack[slot]?
  cell : slot ∈ after.openSlots → slot ∈ m.openSlots

theorem Untouched.refl (slot : Nat) (m : Machine) : Untouched slot m m :=
  ⟨rfl, id⟩

theorem Untouched.trans (hfirst : Untouched slot m middle) (hsecond : Untouched slot middle after) :
    Untouched slot m after :=
  ⟨hsecond.value.trans hfirst.value, fun h => hfirst.cell (hsecond.cell h)⟩

/-- Nothing but the stack and the open cells matters. -/
theorem Untouched.of_eq (hstack : after.stack = m.stack) (hcells : after.openCells = m.openCells) :
    Untouched slot m after :=
  ⟨by rw [hstack], fun h => by rwa [openSlots, hcells] at h⟩

theorem untouched_heap (m : Machine) (heap : Heap) : Untouched slot m { m with heap } :=
  .of_eq rfl rfl

theorem Untouched.withStack {stack : Array Value} {leftovers : Leftovers} (hvalue : stack[slot]? = m.stack[slot]?) :
    Untouched slot m { m with stack, leftovers } :=
  ⟨hvalue, id⟩

/-- The slot stays on the stack. -/
theorem Untouched.lt (huntouched : Untouched slot m after) (hslot : slot < m.stack.size) : slot < after.stack.size := by
  have hvalue := huntouched.value
  rw [Array.getElem?_eq_getElem hslot] at hvalue
  exact (Array.getElem?_eq_some_iff.mp hvalue).1

theorem untouched_closeCells (m : Machine) (target : Nat) : Untouched slot m (m.closeCells target) := by
  refine ⟨by rw [closeCells_eq], fun h => ?_⟩
  obtain ⟨entry, hentry, hslot⟩ := mem_openSlots.mp h
  exact mem_openSlots.mpr ⟨entry, mem_closeCells hentry, hslot⟩

theorem untouched_cut (m : Machine) {height : Nat} (hslot : slot < height) : Untouched slot m (m.cut height) := by
  refine .withStack ?_
  rw [← Array.getElem?_toList, ← Array.getElem?_toList, Array.toList_shrink, List.getElem?_take_of_lt hslot]

theorem untouched_resizeStack (m : Machine) {height : Nat} (hslot : slot < height) (hinside : slot < m.stack.size) :
    Untouched slot m (m.resizeStack height) := by
  refine .withStack ?_
  have hkept : slot < (m.stack.shrink height).size := by
    rw [Array.size_shrink]
    omega
  rw [stack_cut, Array.getElem?_append_left hkept]
  exact (untouched_cut m hslot).value

/-- No cell that the running closure has captured stands for a slot. -/
def Unreached (slot : Nat) (m : Machine) : Prop :=
  ∀ (frame : Frame) (prototype : Option Prototype) (cells : Array (Option Ref)) (index : Nat) (cell : Ref),
    m.frames.back? = some frame → m.heap.get? frame.closure = some (.closure prototype cells) →
    cells[index]? = some (some cell) → m.heap.get? cell ≠ some (.upvalue (.opened slot))

/-- A slot that an instruction has no business with: it is below all that the instruction takes, and the
instruction does not write to it, capture it or end its call. -/
structure Aside (slot : Nat) (m : Machine) (chunk : Chunk) (op : Opcode) (a : Nat) : Prop where
  running : m.chunk = some chunk
  low : slot + op.taken chunk a < m.stack.size
  unwritten : op = .setLocal ∨ op = .moveLocal → ∀ frame, m.frames.back? = some frame → frame.base + a ≠ slot
  unreached : Unreached slot m
  uncaptured : op = .closure → ∀ frame prototype, m.frames.back? = some frame →
    chunk.functions[a]? = some (some prototype) →
    ∀ capture ∈ prototype.captures, capture.isLocal = true → frame.base + capture.index ≠ slot
  lasting : op = .ret ∨ op = .halt → ∀ frame, m.frames.back? = some frame → slot + 1 < frame.base

end Machine

namespace Exec

open Machine

variable {slot : Nat} {α β : Type} {m : Machine} {x : Exec α} {f : α → Exec β}

theorem untouched_bind (hfirst : Untouched slot m (stateAfter (x m)))
    (hnext : ∀ a middle, x m = .ok a middle → Untouched slot m middle →
      Untouched slot middle (stateAfter (f a middle))) :
    Untouched slot m (stateAfter ((x >>= f) m)) := by
  rw [stateAfter_bind]
  cases hresult : x m with
  | ok a middle =>
    rw [hresult] at hfirst
    exact hfirst.trans (hnext a middle hresult hfirst)
  | error fault after =>
    rw [hresult] at hfirst
    exact hfirst

theorem Looks.bind_untouched (hlooks : Looks x) (hnext : ∀ a, x m = .ok a m → Untouched slot m (stateAfter (f a m))) :
    Untouched slot m (stateAfter ((x >>= f) m)) := by
  have hsame := hlooks m
  refine untouched_bind (by rw [hsame]; exact .refl slot m) fun a middle hresult _ => ?_
  rw [hresult] at hsame
  obtain rfl : middle = m := hsame
  exact hnext a hresult

theorem untouched_push (value : Value) (hslot : slot < m.stack.size) :
    Untouched slot m (stateAfter (push value m)) := by
  simp only [push]
  rw [get_bind_apply]
  split
  · exact .refl slot m
  · exact .withStack (by rw [Array.getElem?_push_lt hslot, Array.getElem?_eq_getElem hslot])

theorem untouched_pushAll (values : List Value) (hslot : slot < m.stack.size) :
    Untouched slot m (stateAfter (pushAll values m)) := by
  induction values generalizing m with
  | nil => exact .refl slot m
  | cons value rest ih => exact untouched_bind (untouched_push value hslot) fun _ _ _ h => ih (h.lt hslot)

theorem pop_ok {value : Value} {after : Machine} (hresult : pop m = .ok value after) :
    after = m.cut (m.stack.size - 1) := by
  rw [pop_eq] at hresult
  split at hresult
  · cases hresult
    rfl
  · cases hresult

theorem untouched_pop (hslot : slot + 1 < m.stack.size) : Untouched slot m (stateAfter (pop m)) := by
  rw [pop_eq]
  cases m.stack.back? with
  | some value => exact untouched_cut m (by omega)
  | none => exact .refl slot m

theorem untouched_replaceTop {count : Nat} (value : Value) (hslot : slot + count < m.stack.size) :
    Untouched slot m (stateAfter (replaceTop count value m)) := by
  have hcut : Untouched slot m (m.cut (m.stack.size - count)) := untouched_cut m (by omega)
  exact hcut.trans (untouched_push value (hcut.lt (by omega)))

theorem untouched_writeSlot {target : Nat} (value : Value) (hother : target ≠ slot) :
    Untouched slot m (stateAfter (writeSlot target value m)) := by
  simp only [writeSlot]
  rw [get_bind_apply]
  split
  · exact .withStack (Array.getElem?_setIfInBounds_ne hother)
  · split
    · exact .withStack rfl
    · exact .refl slot m

theorem upvalues_ok {cells : Array (Option Ref)} {after : Machine} (hresult : upvalues m = .ok cells after) :
    ∃ frame prototype, m.frames.back? = some frame ∧ m.heap.get? frame.closure = some (.closure prototype cells) := by
  simp only [upvalues] at hresult
  rw [get_bind_apply] at hresult
  obtain ⟨frame, middle, hframe, hcells⟩ := bind_eq_ok.mp hresult
  have hsame := looks_frame m
  rw [hframe] at hsame
  obtain rfl : middle = m := hsame
  have hfound : middle.frames.back? = some frame := expect_eq_some hframe
  cases hclosure : middle.heap.get? frame.closure with
  | none =>
    rw [hclosure] at hcells
    cases hcells
  | some object =>
    rw [hclosure] at hcells
    cases object with
    | closure prototype others =>
      cases hcells
      exact ⟨frame, prototype, hfound, hclosure⟩
    | _ => cases hcells

/-- An operation on a captured variable does not get at a slot that the running closure has not captured. -/
theorem upvalueCell_unreached (hunreached : Unreached slot m) {index : Nat} {cell : Ref} {state : Upvalue}
    {after : Machine} (hresult : upvalueCell index m = .ok (cell, state) after) : state ≠ .opened slot := by
  have hget := upvalueCell_get? hresult
  obtain ⟨cells, middle, hcells, hrest⟩ := bind_eq_ok.mp hresult
  obtain ⟨frame, prototype, hframe, hclosure⟩ := upvalues_ok hcells
  obtain ⟨entry, middle', hentry, hrest⟩ := bind_eq_ok.mp hrest
  obtain ⟨found, last, hfound, hrest⟩ := bind_eq_ok.mp hrest
  rintro rfl
  refine hunreached frame prototype cells index cell hframe hclosure ?_ hget
  rw [expect_eq_some hentry, expect_eq_some hfound]
  rw [get_bind_apply] at hrest
  cases hobject : last.heap.get? found with
  | none =>
    rw [hobject] at hrest
    cases hrest
  | some object =>
    rw [hobject] at hrest
    cases object with
    | upvalue state =>
      cases hrest
      rfl
    | _ => cases hrest

theorem untouched_writeUpvalue (index : Nat) (value : Value) (hunreached : Unreached slot m) :
    Untouched slot m (stateAfter (writeUpvalue index value m)) := by
  refine (looks_upvalueCell index).bind_untouched fun entry hentry => ?_
  obtain ⟨cell, state⟩ := entry
  have hother := upvalueCell_unreached hunreached hentry
  cases state with
  | opened target => exact untouched_writeSlot value fun h => hother (h ▸ rfl)
  | closed held => exact .of_eq rfl rfl

/-- A step of the heap leaves the stack alone. -/
theorem untouched_onHeap (step : EStateM HeapExhausted Heap α) : Untouched slot m (stateAfter (onHeap step m)) := by
  unfold onHeap
  cases step m.heap with
  | ok value heap => exact .of_eq rfl rfl
  | error request heap => exact .of_eq rfl rfl

theorem untouched_captureCell {target : Nat} (hother : target ≠ slot) :
    Untouched slot m (stateAfter (captureCell target m)) := by
  simp only [captureCell]
  rw [get_bind_apply]
  cases m.openCells.find? (fun entry => entry.slot == target) with
  | some entry => exact .refl slot m
  | none =>
    refine untouched_bind (untouched_onHeap _) fun cell linked _ _ => ⟨rfl, fun h => ?_⟩
    obtain ⟨entry, hentry, hslot⟩ := mem_openSlots.mp h
    rcases mem_insertCell.mp hentry with rfl | hold
    · exact absurd hslot hother
    · exact mem_openSlots.mpr ⟨entry, hold, hslot⟩

theorem untouched_captureAll {base : Nat} (outer : Array (Option Ref)) (captures : List Capture)
    (cells : List (Option Ref))
    (hothers : ∀ capture ∈ captures, capture.isLocal = true → base + capture.index ≠ slot) :
    Untouched slot m (stateAfter (captureAll base outer captures cells m)) := by
  induction captures generalizing m cells with
  | nil => exact .refl slot m
  | cons capture rest ih =>
    have hrest (m : Machine) (cells : List (Option Ref)) :
        Untouched slot m (stateAfter (captureAll base outer rest cells m)) :=
      ih cells fun capture h => hothers capture (List.mem_cons_of_mem _ h)
    simp only [captureAll]
    split
    · rename_i hlocal
      have hcell : Untouched slot m (stateAfter (captureCell (base + capture.index) m)) :=
        untouched_captureCell (hothers capture (List.mem_cons_self ..) hlocal)
      rw [stateAfter_bind, map_apply]
      generalize captureCell (base + capture.index) m = result at hcell ⊢
      cases result with
      | ok cell middle => exact hcell.trans (hrest _ _)
      | error => exact hcell
    · exact (looks_expect _).bind_untouched fun _ _ => hrest _ _

theorem untouched_pushClosure (prototype : Prototype) (hslot : slot < m.stack.size)
    (hothers : ∀ frame, m.frames.back? = some frame →
      ∀ capture ∈ prototype.captures, capture.isLocal = true → frame.base + capture.index ≠ slot) :
    Untouched slot m (stateAfter (pushClosure prototype m)) := by
  refine untouched_bind (untouched_onHeap _) fun closure linked hlinked hfirst => ?_
  have hframes : linked.frames = m.frames := by
    unfold onHeap at hlinked
    split at hlinked
    · cases hlinked
      rfl
    · cases hlinked
  refine looks_frame.bind_untouched fun frame hframe => looks_upvalues.bind_untouched fun outer _ => ?_
  have hframe : linked.frames.back? = some frame := expect_eq_some hframe
  refine untouched_bind (untouched_captureAll outer _ [] fun capture h => ?_) fun cells middle _ hsecond => ?_
  · exact hothers frame (hframes ▸ hframe) capture (Array.mem_toList_iff.mp h)
  · exact untouched_bind (.of_eq rfl rfl) fun _ _ h hthird =>
      untouched_push _ (hthird.lt (hsecond.lt (hfirst.lt hslot)))

theorem untouched_binary (operator : Heap → Value → Value → Except Diagnostic Value) (hslot : slot + 2 < m.stack.size) :
    Untouched slot m (stateAfter (binary operator m)) :=
  (looks_peek 0).bind_untouched fun _ _ => (looks_peek 1).bind_untouched fun _ _ =>
    looks_get.bind_untouched fun _ _ => (looks_ofExcept _).bind_untouched fun _ _ => untouched_replaceTop _ hslot

theorem untouched_unary (operator : Heap → Value → Except Diagnostic Value) (hslot : slot + 1 < m.stack.size) :
    Untouched slot m (stateAfter (unary operator m)) :=
  (looks_peek 0).bind_untouched fun _ _ => looks_get.bind_untouched fun _ _ =>
    (looks_ofExcept _).bind_untouched fun _ _ => untouched_replaceTop _ hslot

theorem untouched_equality (negated : Bool) (hslot : slot + 2 < m.stack.size) :
    Untouched slot m (stateAfter (equality negated m)) := by
  refine untouched_bind (untouched_pop (by omega)) fun _ first hfirst _ => ?_
  have hsize : slot + 1 < first.stack.size := by
    rw [pop_ok hfirst, stack_cut, Array.size_shrink]
    omega
  exact untouched_bind (untouched_pop hsize) fun _ _ _ hsecond =>
    looks_get.bind_untouched fun _ _ => untouched_push _ (hsecond.lt (by omega))

/-- A container takes the place of its parts. -/
theorem untouched_build (bytes : UInt64) (empty object : Object) {count : Nat} (hslot : slot + count < m.stack.size) :
    Untouched slot m (stateAfter (build bytes empty object count m)) := by
  refine (looks_ensureHeadroom _).bind_untouched fun _ _ => ?_
  refine untouched_bind (untouched_onHeap _) fun ref linked hlinked _ => ?_
  have hstack : linked.stack = m.stack := by
    unfold onHeap at hlinked
    split at hlinked
    · cases hlinked
      rfl
    · cases hlinked
  refine untouched_bind (.of_eq rfl rfl) fun _ stored hstored _ => untouched_replaceTop _ ?_
  cases hstored
  exact hstack.symm ▸ hslot

theorem untouched_record {value : Value} {what : String} {f : Ref × Fields → Exec β}
    (hnext : ∀ entry, Untouched slot m (stateAfter (f entry m))) :
    Untouched slot m (stateAfter ((expectRecord value what >>= f) m)) := by
  rw [stateAfter_bind]
  rcases expectRecord_cases value what m with ⟨ref, fields, -, hresult⟩ | ⟨message, hresult⟩
  · rw [hresult]
    exact hnext (ref, fields)
  · rw [hresult]
    exact .refl slot m

theorem untouched_array {value : Value} {what : String} {f : Ref × Elements → Exec β}
    (hnext : ∀ entry, Untouched slot m (stateAfter (f entry m))) :
    Untouched slot m (stateAfter ((expectArray value what >>= f) m)) := by
  rw [stateAfter_bind]
  rcases expectArray_cases value what m with ⟨ref, elements, -, hresult⟩ | ⟨message, hresult⟩
  · rw [hresult]
    exact hnext (ref, elements)
  · rw [hresult]
    exact .refl slot m

theorem untouched_getField (name : String) (hslot : slot + 1 < m.stack.size) :
    Untouched slot m (stateAfter (getField name m)) := by
  refine (looks_peek 0).bind_untouched fun value _ => untouched_record fun entry => ?_
  dsimp only
  cases entry.2.find? name with
  | some value => exact untouched_replaceTop value hslot
  | none => exact .refl slot m

theorem untouched_setField (name : String) (hslot : slot + 2 < m.stack.size) :
    Untouched slot m (stateAfter (setField name m)) := by
  refine (looks_peek 0).bind_untouched fun value _ => (looks_peek 1).bind_untouched fun record _ =>
    untouched_record fun entry => ?_
  have hstored (heap : Heap) : Untouched slot m (stateAfter (replaceTop 2 value { m with heap })) :=
    (untouched_heap m heap).trans (untouched_replaceTop value hslot)
  dsimp only
  split
  · exact hstored _
  · exact (looks_ensureHeadroom _).bind_untouched fun _ _ => hstored _

theorem untouched_getIndex (hslot : slot + 2 < m.stack.size) : Untouched slot m (stateAfter (getIndex m)) :=
  (looks_peek 0).bind_untouched fun _ _ => (looks_peek 1).bind_untouched fun _ _ =>
    untouched_array fun _ => (looks_checkedIndex _ _).bind_untouched fun _ _ =>
      (looks_expect _).bind_untouched fun _ _ => untouched_replaceTop _ hslot

theorem untouched_setIndex (hslot : slot + 3 < m.stack.size) : Untouched slot m (stateAfter (setIndex m)) := by
  refine (looks_peek 0).bind_untouched fun value _ => (looks_peek 1).bind_untouched fun _ _ =>
    (looks_peek 2).bind_untouched fun _ _ => untouched_array fun _ =>
      (looks_checkedIndex _ _).bind_untouched fun _ _ => ?_
  exact (untouched_heap m _).trans (untouched_replaceTop value hslot)

theorem untouched_pushMatch (bound : Option (List Value)) (hslot : slot < m.stack.size) :
    Untouched slot m (stateAfter (pushMatch bound m)) := by
  cases bound with
  | none => exact untouched_push _ hslot
  | some values =>
    exact untouched_bind (untouched_pushAll values hslot) fun _ _ _ h => untouched_push _ (h.lt hslot)

theorem untouched_matchArguments (parameters : List Matcher) (hslot : slot < m.stack.size) :
    Untouched slot m (stateAfter (matchArguments parameters m)) := by
  refine looks_frame.bind_untouched fun frame _ => ?_
  split
  · exact (looks_matchSlots _ _ _).bind_untouched fun bound _ => untouched_pushMatch bound hslot
  · exact untouched_pushMatch none hslot

/-- A call that is entered or refused leaves the stack alone. -/
theorem untouched_callValue (callee : Value) (argumentCount : Nat) :
    Untouched slot m (stateAfter (callValue callee argumentCount m)) := by
  rcases callValue_cases callee argumentCount m with ⟨_, _, _, -, -, hresult⟩ | ⟨_, -, hresult⟩
  · rw [hresult]
    exact .of_eq rfl rfl
  · rw [hresult]
    exact .refl slot m

/-- A call that ends leaves the slots below its function alone. -/
theorem untouched_returnFromFrame (result : Value) (hinside : slot < m.stack.size)
    (hlasting : ∀ frame, m.frames.back? = some frame → slot + 1 < frame.base) :
    Untouched slot m (stateAfter (returnFromFrame result m)) := by
  rw [returnFromFrame_eq]
  cases hframe : m.frames.back? with
  | none => exact .refl slot m
  | some frame =>
    have hbase := hlasting frame hframe
    have hpopped : Untouched slot m { m with frames := m.frames.pop } := .of_eq rfl rfl
    have hclosed := hpopped.trans (untouched_closeCells _ frame.base)
    have hleft : Untouched slot m (left m frame) :=
      hclosed.trans (untouched_resizeStack _ (by omega) (hclosed.lt hinside))
    dsimp only
    cases frame.caller with
    | none => exact hleft.trans (.of_eq rfl rfl)
    | some chunk =>
      have hback : Untouched slot m { left m frame with chunk := some chunk, ip := frame.returnTo } :=
        hleft.trans (.of_eq rfl rfl)
      exact hback.trans (untouched_push result (hback.lt hinside))

theorem localIndex_ok {target index : Nat} {after : Machine} (hresult : localIndex target m = .ok index after) :
    ∃ frame, m.frames.back? = some frame ∧ frame.base + target = index := by
  obtain ⟨frame, middle, hframe, hrest⟩ := bind_eq_ok.mp hresult
  refine ⟨frame, expect_eq_some hframe, ?_⟩
  rw [get_bind_apply] at hrest
  split at hrest
  · cases hrest
    rfl
  · cases hrest

/-- An operation leaves a slot alone that it has no business with. -/
theorem untouched_execute {chunk : Chunk} {op : Opcode} {a : Nat} (haside : Aside slot m chunk op a) (b : Nat) :
    Untouched slot m (stateAfter (execute op a b m)) := by
  have hlow := haside.low
  have hinside : slot < m.stack.size := Nat.lt_of_le_of_lt (Nat.le_add_right ..) hlow
  cases op with
  | constant =>
    refine looks_chunk.bind_untouched fun chunk _ => (looks_expect _).bind_untouched fun value _ => ?_
    cases value with
    | scalar value => exact untouched_push _ hinside
    | _ => exact .refl slot m
  | string =>
    refine looks_chunk.bind_untouched fun chunk _ => (looks_expect _).bind_untouched fun text _ => ?_
    exact untouched_bind (untouched_onHeap _) fun _ _ _ h => untouched_push _ (h.lt hinside)
  | pushNil => exact untouched_push _ hinside
  | pushTrue => exact untouched_push _ hinside
  | pushFalse => exact untouched_push _ hinside
  | pop => exact untouched_bind (untouched_pop hlow) fun _ _ _ _ => .refl slot _
  | popMany =>
    have hlow : slot + a < m.stack.size := hlow
    refine looks_get.bind_untouched fun _ hsame => ?_
    cases hsame
    split
    · exact .refl slot m
    · exact untouched_resizeStack m (by omega) hinside
  | dup => exact (looks_peek 0).bind_untouched fun _ _ => untouched_push _ hinside
  | add | subtract | multiply | divide | modulo => exact untouched_binary (·.arithmetic _) hlow
  | negate => exact untouched_unary _ hlow
  | bitwiseAnd | bitwiseOr | bitwiseXor | leftShift | rightShift => exact untouched_binary (·.bitwise _) hlow
  | bitwiseNot => exact untouched_unary _ hlow
  | equal => exact untouched_equality false hlow
  | notEqual => exact untouched_equality true hlow
  | less | greater | lessEqual | greaterEqual => exact untouched_binary (·.comparison _) hlow
  | logicalNot =>
    have hlow : slot + 1 < m.stack.size := hlow
    refine untouched_bind (untouched_pop hlow) fun _ _ _ h => untouched_push _ (h.lt hinside)
  | getGlobal => exact (looks_definedGlobal a _).bind_untouched fun _ _ => untouched_push _ hinside
  | setGlobal => exact (looks_peek 0).bind_untouched fun _ _ => .of_eq rfl rfl
  | moveGlobal =>
    exact (looks_definedGlobal a _).bind_untouched fun _ _ =>
      untouched_bind (untouched_push _ hinside) fun _ _ _ _ => .of_eq rfl rfl
  | getLocal =>
    exact (looks_localIndex a).bind_untouched fun _ _ => (looks_readSlot _).bind_untouched fun _ _ =>
      untouched_push _ hinside
  | setLocal =>
    refine (looks_peek 0).bind_untouched fun _ _ => (looks_localIndex a).bind_untouched fun index hindex => ?_
    obtain ⟨frame, hframe, rfl⟩ := localIndex_ok hindex
    exact untouched_writeSlot _ (haside.unwritten (.inl rfl) frame hframe)
  | moveLocal =>
    refine (looks_localIndex a).bind_untouched fun index hindex => (looks_readSlot _).bind_untouched fun _ _ => ?_
    obtain ⟨frame, hframe, rfl⟩ := localIndex_ok hindex
    exact untouched_bind (untouched_push _ hinside) fun _ _ _ _ =>
      untouched_writeSlot _ (haside.unwritten (.inr rfl) frame hframe)
  | getUpvalue => exact (looks_readUpvalue a).bind_untouched fun _ _ => untouched_push _ hinside
  | setUpvalue => exact (looks_peek 0).bind_untouched fun _ _ => untouched_writeUpvalue a _ haside.unreached
  | moveUpvalue =>
    refine (looks_readUpvalue a).bind_untouched fun _ _ =>
      untouched_bind (untouched_push _ hinside) fun _ pushed h _ => ?_
    rw [push_ok h]
    exact untouched_writeUpvalue a _ haside.unreached
  | closeUpvalue =>
    have hlow : slot + 1 < m.stack.size := hlow
    refine untouched_bind ?_ fun _ closed hclosed _ => untouched_bind (untouched_pop ?_) fun _ _ _ _ => .refl slot _
    · rw [modify_apply]
      dsimp only [stateAfter]
      split
      · exact .refl slot m
      · exact untouched_closeCells m _
    · rw [modify_apply] at hclosed
      cases hclosed
      split
      · exact hlow
      · rw [closeCells_eq]
        exact hlow
  | jump => exact .of_eq rfl rfl
  | jumpIfFalse =>
    rcases execute_jumpIf b m (.inl rfl) with ⟨_, taken, -, hresult⟩ | ⟨fault, -, hresult⟩
    · rw [hresult]
      exact .of_eq rfl rfl
    · rw [hresult]
      exact .refl slot m
  | jumpIfTrue =>
    rcases execute_jumpIf b m (.inr rfl) with ⟨_, taken, -, hresult⟩ | ⟨fault, -, hresult⟩
    · rw [hresult]
      exact .of_eq rfl rfl
    · rw [hresult]
      exact .refl slot m
  | loopBack => exact .of_eq rfl rfl
  | call =>
    rw [execute_call]
    split
    · exact .refl slot m
    · exact (looks_peek a).bind_untouched fun callee _ => untouched_callValue callee a
  | ret =>
    refine untouched_bind (untouched_pop hlow) fun result popped hpopped h => ?_
    refine untouched_returnFromFrame result (h.lt hinside) fun frame hframe => ?_
    rw [pop_ok hpopped] at hframe
    exact haside.lasting (.inl rfl) frame hframe
  | closure =>
    refine looks_chunk.bind_untouched fun own hown => (looks_expect _).bind_untouched fun found hfound =>
      (looks_expect _).bind_untouched fun prototype hprototype => ?_
    obtain rfl := Option.some.inj ((chunk_eq_some hown).symm.trans haside.running)
    obtain rfl := expect_eq_some hprototype
    exact untouched_pushClosure prototype hinside fun frame hframe =>
      haside.uncaptured rfl frame prototype hframe (expect_eq_some hfound)
  | record =>
    refine looks_chunk.bind_untouched fun own hown => (looks_expect _).bind_untouched fun names hnames =>
      (looks_topValues _).bind_untouched fun values _ => untouched_build _ _ _ ?_
    obtain rfl := Option.some.inj ((chunk_eq_some hown).symm.trans haside.running)
    simpa [Opcode.taken, expect_eq_some hnames] using hlow
  | getField =>
    exact looks_chunk.bind_untouched fun _ _ => (looks_expect _).bind_untouched fun _ _ => untouched_getField _ hlow
  | setField =>
    exact looks_chunk.bind_untouched fun _ _ => (looks_expect _).bind_untouched fun _ _ => untouched_setField _ hlow
  | array => exact (looks_topValues a).bind_untouched fun values _ => untouched_build _ _ _ hlow
  | getIndex => exact untouched_getIndex hlow
  | setIndex => exact untouched_setIndex hlow
  | matchValue =>
    exact looks_chunk.bind_untouched fun _ _ => (looks_expect _).bind_untouched fun _ _ =>
      (looks_localIndex b).bind_untouched fun _ _ => (looks_readSlot _).bind_untouched fun _ _ =>
        looks_get.bind_untouched fun _ _ => untouched_pushMatch _ hinside
  | matchArgs =>
    exact looks_chunk.bind_untouched fun _ _ => (looks_expect _).bind_untouched fun _ _ =>
      untouched_matchArguments _ hinside
  | noMatchingArm => exact .refl slot m
  | noMatchingOverload =>
    exact looks_frame.bind_untouched fun _ _ => looks_get.bind_untouched fun _ _ => .refl slot m
  | printTop =>
    exact untouched_bind (untouched_pop hlow) fun _ _ _ _ => .of_eq rfl rfl
  | halt => exact untouched_returnFromFrame .nil hinside (haside.lasting (.inr rfl))

end Exec

end OwnScript
