import OwnScript.Proofs.Machine.Moves

/-!
What was printed makes no difference to what comes next. Output is only ever added to, so that a machine that
has printed before does the same as one that has not, and its output is the old one and then the other's.
-/

namespace OwnScript

open Stateful

/-- The machine with something printed before everything else. -/
def Machine.preceded (log : String) (m : Machine) : Machine :=
  { m with output := log ++ m.output }

namespace Exec

open Machine

variable {α β : Type}

/-- A result on the machine with something printed before. -/
def preceding (log : String) : EStateM.Result Fault Machine α → EStateM.Result Fault Machine α
  | .ok value after => .ok value (after.preceded log)
  | .error fault after => .error fault (after.preceded log)

/-- A step that does not depend on what was printed. -/
def Blind (x : Exec α) : Prop :=
  ∀ log m, x (m.preceded log) = preceding log (x m)

theorem Blind.bind {x : Exec α} {f : α → Exec β} (hfirst : Blind x) (hnext : ∀ value, Blind (f value)) :
    Blind (x >>= f) := by
  intro log m
  rw [bind_apply, bind_apply, hfirst log m]
  cases x m with
  | ok value after => exact hnext value log after
  | error fault after => rfl

/-- A step that looks at the machine, but not at what was printed. -/
theorem Blind.of_get {f : Machine → Exec α} (hsame : ∀ log m, f (m.preceded log) = f m) (hnext : ∀ m, Blind (f m)) :
    Blind (get >>= f) := by
  intro log m
  rw [get_bind_apply, get_bind_apply, hsame]
  exact hnext m log m

theorem blind_pure (value : α) : Blind (pure value : Exec α) := fun _ _ => rfl

theorem blind_throw (fault : Fault) : Blind (throw fault : Exec α) := fun _ _ => rfl

theorem blind_fail (diagnostic : Diagnostic) : Blind (fail diagnostic : Exec α) := fun _ _ => rfl

theorem blind_modify {f : Machine → Machine} (hsame : ∀ log m, f (m.preceded log) = (f m).preceded log) :
    Blind (modify f : Exec PUnit) := by
  intro log m
  rw [modify_apply, modify_apply, hsame]
  rfl

theorem blind_expect (found : Option α) : Blind (expect found) := by
  cases found
  · exact blind_throw _
  · exact blind_pure _

theorem blind_ofExcept (result : Except Diagnostic α) : Blind (ofExcept result) := by
  cases result
  · exact blind_fail _
  · exact blind_pure _

theorem blind_onHeap (step : EStateM HeapExhausted Heap α) : Blind (onHeap step) := by
  intro log m
  have hheap : (m.preceded log).heap = m.heap := rfl
  unfold onHeap
  rw [hheap]
  cases step m.heap <;> rfl

section Stack

theorem blind_push (value : Value) : Blind (push value) := by
  intro log m
  have hsame : m.config.maxStackSize.toNat ≤ m.stack.size ↔
      (m.preceded log).config.maxStackSize.toNat ≤ (m.preceded log).stack.size := Iff.rfl
  simp only [push]
  rw [get_bind_apply, get_bind_apply]
  by_cases hfull : m.config.maxStackSize.toNat ≤ m.stack.size
  · rw [if_pos hfull, if_pos (hsame.mp hfull)]
    rfl
  · rw [if_neg hfull, if_neg (hsame.not.mp hfull)]
    rfl

theorem blind_pushAll (values : List Value) : Blind (pushAll values) := by
  induction values with
  | nil => exact blind_pure _
  | cons value rest ih => exact (blind_push value).bind fun _ => ih

theorem blind_pop : Blind pop := by
  intro log m
  have hstack : (m.preceded log).stack = m.stack := rfl
  rw [pop_eq, pop_eq, hstack]
  cases m.stack.back? <;> rfl

theorem blind_peek (distance : Nat) : Blind (peek distance) := by
  refine .of_get (fun _ _ => rfl) fun m => ?_
  split
  · exact blind_expect _
  · exact blind_fail _

theorem blind_replaceTop (count : Nat) (value : Value) : Blind (replaceTop count value) :=
  (blind_modify fun _ _ => rfl).bind fun _ => blind_push value

theorem blind_frame : Blind frame :=
  .of_get (fun _ _ => rfl) fun _ => blind_expect _

theorem blind_chunk : Blind chunk :=
  .of_get (fun _ _ => rfl) fun _ => blind_expect _

theorem blind_localIndex (slot : Nat) : Blind (localIndex slot) := by
  refine blind_frame.bind fun frame => .of_get (fun _ _ => rfl) fun m => ?_
  split
  · exact blind_pure _
  · exact blind_fail _

theorem blind_readSlot (slot : Nat) : Blind (readSlot slot) :=
  .of_get (fun _ _ => rfl) fun _ => blind_expect _

theorem blind_writeSlot (slot : Nat) (value : Value) : Blind (writeSlot slot value) := by
  refine .of_get (fun _ _ => rfl) fun m => ?_
  dsimp only
  split
  · exact blind_modify fun _ _ => rfl
  · split
    · exact blind_modify fun _ _ => rfl
    · exact blind_throw _

theorem blind_topValues (count : Nat) : Blind (topValues count) := by
  refine .of_get (fun _ _ => rfl) fun m => ?_
  split
  · exact (blind_fail _).bind fun _ => blind_pure _
  · exact blind_pure _

end Stack

section Variables

theorem blind_upvalues : Blind upvalues := by
  refine .of_get (fun _ _ => rfl) fun m => blind_frame.bind fun frame => ?_
  split
  · exact blind_pure _
  · exact blind_throw _

theorem blind_upvalueCell (index : Nat) : Blind (upvalueCell index) := by
  refine blind_upvalues.bind fun cells => (blind_expect _).bind fun found => ?_
  refine (blind_expect _).bind fun cell => .of_get (fun _ _ => rfl) fun m => ?_
  split
  · exact blind_pure _
  · exact blind_throw _

theorem blind_readUpvalue (index : Nat) : Blind (readUpvalue index) := by
  refine (blind_upvalueCell index).bind fun found => ?_
  split
  · exact blind_readSlot _
  · exact blind_pure _

theorem blind_writeUpvalue (index : Nat) (value : Value) : Blind (writeUpvalue index value) := by
  refine (blind_upvalueCell index).bind fun found => ?_
  split
  · exact blind_writeSlot _ _
  · exact blind_modify fun _ _ => rfl

theorem blind_setGlobal (slot : Nat) (value : Value) : Blind (setGlobal slot value) :=
  blind_modify fun _ _ => rfl

theorem blind_definedGlobal (slot : Nat) (verb : String) : Blind (definedGlobal slot verb) := by
  refine .of_get (fun _ _ => rfl) fun m => (blind_expect _).bind fun found => ?_
  split
  · exact blind_pure _
  · exact (blind_expect _).bind fun _ => blind_fail _

end Variables

section Operators

theorem blind_binary (operator : Heap → Value → Value → Except Diagnostic Value) : Blind (binary operator) := by
  refine (blind_peek 0).bind fun b => (blind_peek 1).bind fun a => .of_get (fun _ _ => rfl) fun m => ?_
  exact (blind_ofExcept _).bind fun _ => blind_replaceTop 2 _

theorem blind_unary (operator : Heap → Value → Except Diagnostic Value) : Blind (unary operator) := by
  refine (blind_peek 0).bind fun value => .of_get (fun _ _ => rfl) fun m => ?_
  exact (blind_ofExcept _).bind fun _ => blind_replaceTop 1 _

theorem blind_equality (negated : Bool) : Blind (equality negated) :=
  blind_pop.bind fun _ => blind_pop.bind fun _ => .of_get (fun _ _ => rfl) fun _ => blind_push _

end Operators

section Objects

theorem blind_captureCell (slot : Nat) : Blind (captureCell slot) := by
  refine .of_get (fun _ _ => rfl) fun m => ?_
  split
  · exact blind_pure _
  · exact (blind_onHeap _).bind fun _ => (blind_modify fun _ _ => rfl).bind fun _ => blind_pure _

theorem blind_captureAll (base : Nat) (outer : Array (Option Ref)) (captures : List Capture)
    (cells : List (Option Ref)) : Blind (captureAll base outer captures cells) := by
  induction captures generalizing cells with
  | nil => exact blind_pure _
  | cons capture rest ih =>
    simp only [captureAll]
    split
    · exact ((blind_captureCell _).bind fun _ => blind_pure _).bind fun _ => ih _
    · exact (blind_expect _).bind fun _ => ih _

theorem blind_pushClosure (prototype : Prototype) : Blind (pushClosure prototype) := by
  refine (blind_onHeap _).bind fun closure => blind_frame.bind fun frame => ?_
  refine blind_upvalues.bind fun outer => (blind_captureAll _ _ _ _).bind fun cells => ?_
  exact (blind_modify fun _ _ => rfl).bind fun _ => blind_push _

theorem blind_expectRecord (value : Value) (what : String) : Blind (expectRecord value what) := by
  refine .of_get (fun _ _ => rfl) fun m => ?_
  dsimp only
  split
  · exact blind_pure _
  · exact blind_fail _

theorem blind_expectArray (value : Value) (what : String) : Blind (expectArray value what) := by
  refine .of_get (fun _ _ => rfl) fun m => ?_
  dsimp only
  split
  · exact blind_pure _
  · exact blind_fail _

theorem blind_build (bytes : UInt64) (empty object : Object) (count : Nat) :
    Blind (build bytes empty object count) := by
  refine (blind_onHeap _).bind fun _ => (blind_onHeap _).bind fun ref => ?_
  exact (blind_modify fun _ _ => rfl).bind fun _ => blind_replaceTop count _

theorem blind_getField (name : String) : Blind (getField name) := by
  refine (blind_peek 0).bind fun value => (blind_expectRecord _ _).bind fun found => ?_
  dsimp only
  split
  · exact blind_replaceTop 1 _
  · exact blind_fail _

theorem blind_setField (name : String) : Blind (setField name) := by
  refine (blind_peek 0).bind fun value => (blind_peek 1).bind fun record => ?_
  refine (blind_expectRecord _ _).bind fun found => ?_
  dsimp only
  split
  · exact (blind_modify fun _ _ => rfl).bind fun _ => blind_replaceTop 2 _
  · exact (blind_onHeap _).bind fun _ => (blind_modify fun _ _ => rfl).bind fun _ => blind_replaceTop 2 _

theorem blind_checkedIndex (elements : Elements) (index : Value) : Blind (checkedIndex elements index) := by
  unfold checkedIndex
  split
  · split
    · exact (blind_fail _).bind fun _ => blind_pure _
    · exact blind_pure _
  · exact .of_get (fun _ _ => rfl) fun _ => blind_fail _

theorem blind_getIndex : Blind getIndex := by
  refine (blind_peek 0).bind fun index => (blind_peek 1).bind fun array => ?_
  refine (blind_expectArray _ _).bind fun found => (blind_checkedIndex _ _).bind fun position => ?_
  exact (blind_expect _).bind fun _ => blind_replaceTop 2 _

theorem blind_setIndex : Blind setIndex := by
  refine (blind_peek 0).bind fun value => (blind_peek 1).bind fun index => (blind_peek 2).bind fun array => ?_
  refine (blind_expectArray _ _).bind fun found => (blind_checkedIndex _ _).bind fun position => ?_
  exact (blind_modify fun _ _ => rfl).bind fun _ => blind_replaceTop 3 _

end Objects

section Matching

theorem blind_pushMatch (bound : Option (List Value)) : Blind (pushMatch bound) := by
  cases bound with
  | none => exact blind_push _
  | some values => exact (blind_pushAll values).bind fun _ => blind_push _

theorem blind_matchSlots (matchers : List Matcher) (slot : Nat) (bound : List Value) :
    Blind (matchSlots matchers slot bound) := by
  induction matchers generalizing slot bound with
  | nil => exact blind_pure _
  | cons matcher rest ih =>
    unfold matchSlots
    split
    · exact ih _ _
    · refine (blind_readSlot slot).bind fun value => .of_get (fun _ _ => rfl) fun m => ?_
      split
      · exact blind_pure _
      · exact ih _ _

theorem blind_matchArguments (parameters : List Matcher) : Blind (matchArguments parameters) := by
  refine blind_frame.bind fun frame => ?_
  split
  · exact (blind_matchSlots _ _ _).bind fun _ => blind_pushMatch _
  · exact blind_pushMatch none

end Matching

section Calls

theorem blind_callValue (callee : Value) (argumentCount : Nat) : Blind (callValue callee argumentCount) := by
  intro log m
  by_cases hclosure : ∃ closure prototype cells, callee = .ofRef closure ∧
      m.heap.get? closure = some (.closure prototype cells)
  · obtain ⟨closure, prototype, cells, rfl, hget⟩ := hclosure
    have hother : (m.preceded log).heap.get? closure = some (.closure prototype cells) := hget
    have hsameDepth : m.config.maxCallDepth.toNat ≤ m.frames.size ↔
        (m.preceded log).config.maxCallDepth.toNat ≤ (m.preceded log).frames.size := Iff.rfl
    have hsameHeight (slots : Nat) :
        m.config.maxStackSize.toNat < (m.stack.size - argumentCount + slots) % UInt64.size ↔
          (m.preceded log).config.maxStackSize.toNat <
            ((m.preceded log).stack.size - argumentCount + slots) % UInt64.size := Iff.rfl
    rw [Value.ofRef, callValue_closure hget, callValue_closure hother]
    by_cases hdepth : m.config.maxCallDepth.toNat ≤ m.frames.size
    · rw [if_pos hdepth, if_pos (hsameDepth.mp hdepth)]
      rfl
    · rw [if_neg hdepth, if_neg (hsameDepth.not.mp hdepth)]
      by_cases hheight : m.config.maxStackSize.toNat <
          (m.stack.size - argumentCount + max argumentCount ((prototype.map (·.maxSlots)).getD 0)) % UInt64.size
      · rw [if_pos hheight, if_pos ((hsameHeight _).mp hheight)]
        rfl
      · rw [if_neg hheight, if_neg ((hsameHeight _).not.mp hheight)]
        rfl
  · have hnone (prototype : Option Prototype) (cells : Array (Option Ref)) :
        m.heap.objectOf? callee ≠ some (.closure prototype cells) := by
      intro hobject
      obtain ⟨closure, href, hget⟩ := Option.bind_eq_some_iff.mp hobject
      cases callee with
      | scalar value => cases href
      | object target =>
        cases href
        exact hclosure ⟨closure, prototype, cells, rfl, hget⟩
    have hother (prototype : Option Prototype) (cells : Array (Option Ref)) :
        (m.preceded log).heap.objectOf? callee ≠ some (.closure prototype cells) := hnone prototype cells
    rw [callValue_other hnone, callValue_other hother]
    rfl

theorem preceded_closeCells (log : String) (m : Machine) (slot : Nat) :
    (m.preceded log).closeCells slot = (m.closeCells slot).preceded log := rfl

theorem blind_returnFromFrame (result : Value) : Blind (returnFromFrame result) := by
  refine blind_frame.bind fun frame => (blind_modify fun _ _ => rfl).bind fun _ => ?_
  split
  · exact blind_modify fun _ _ => rfl
  · exact (blind_modify fun _ _ => rfl).bind fun _ => blind_push result

end Calls

/-- What is printed comes after what was printed before. -/
theorem blind_printTop : Blind (execute .printTop 0 0) := by
  refine blind_pop.bind fun value => blind_modify fun log m => ?_
  simp only [preceded, String.append_assoc]

theorem blind_execute (op : Opcode) (a b : Nat) : Blind (execute op a b) := by
  cases op with
  | constant =>
    refine blind_chunk.bind fun chunk => (blind_expect _).bind fun value => ?_
    split
    · exact blind_push _
    · exact blind_throw _
  | string =>
    refine blind_chunk.bind fun chunk => (blind_expect _).bind fun text => ?_
    exact (blind_onHeap _).bind fun _ => blind_push _
  | pushNil | pushTrue | pushFalse => exact blind_push _
  | pop => exact blind_pop.bind fun _ => blind_pure _
  | popMany =>
    refine .of_get (fun _ _ => rfl) fun m => ?_
    split
    · exact (blind_fail _).bind fun _ => blind_modify fun _ _ => rfl
    · exact blind_modify fun _ _ => rfl
  | dup => exact (blind_peek 0).bind fun _ => blind_push _
  | add | subtract | multiply | divide | modulo => exact blind_binary (·.arithmetic _)
  | negate => exact blind_unary _
  | bitwiseAnd | bitwiseOr | bitwiseXor | leftShift | rightShift => exact blind_binary (·.bitwise _)
  | bitwiseNot => exact blind_unary _
  | equal | notEqual => exact blind_equality _
  | less | greater | lessEqual | greaterEqual => exact blind_binary (·.comparison _)
  | logicalNot => exact blind_pop.bind fun _ => blind_push _
  | getGlobal => exact (blind_definedGlobal _ _).bind fun _ => blind_push _
  | setGlobal => exact (blind_peek 0).bind fun _ => blind_setGlobal _ _
  | moveGlobal =>
    exact (blind_definedGlobal _ _).bind fun _ => (blind_push _).bind fun _ => blind_setGlobal _ _
  | getLocal => exact (blind_localIndex _).bind fun _ => (blind_readSlot _).bind fun _ => blind_push _
  | setLocal => exact (blind_peek 0).bind fun _ => (blind_localIndex _).bind fun _ => blind_writeSlot _ _
  | moveLocal =>
    refine (blind_localIndex _).bind fun index => (blind_readSlot _).bind fun value => ?_
    exact (blind_push _).bind fun _ => blind_writeSlot _ _
  | getUpvalue => exact (blind_readUpvalue _).bind fun _ => blind_push _
  | setUpvalue => exact (blind_peek 0).bind fun _ => blind_writeUpvalue _ _
  | moveUpvalue =>
    exact (blind_readUpvalue _).bind fun _ => (blind_push _).bind fun _ => blind_writeUpvalue _ _
  | closeUpvalue =>
    refine (blind_modify fun log m => ?_).bind fun _ => blind_pop.bind fun _ => blind_pure _
    have hstack : (m.preceded log).stack = m.stack := rfl
    rw [hstack, preceded_closeCells]
    split <;> rfl
  | jump | loopBack => exact blind_modify fun _ _ => rfl
  | jumpIfFalse =>
    refine (blind_peek 0).bind fun value => ?_
    split
    · exact blind_pure _
    · exact blind_modify fun _ _ => rfl
  | jumpIfTrue =>
    refine (blind_peek 0).bind fun value => ?_
    split
    · exact blind_modify fun _ _ => rfl
    · exact blind_pure _
  | call =>
    refine .of_get (fun _ _ => rfl) fun m => ?_
    split
    · exact (blind_fail _).bind fun _ => (blind_peek _).bind fun _ => blind_callValue _ _
    · exact (blind_peek _).bind fun _ => blind_callValue _ _
  | ret => exact blind_pop.bind fun _ => blind_returnFromFrame _
  | closure =>
    refine blind_chunk.bind fun chunk => (blind_expect _).bind fun found => ?_
    exact (blind_expect _).bind fun _ => blind_pushClosure _
  | record =>
    refine blind_chunk.bind fun chunk => (blind_expect _).bind fun names => ?_
    exact (blind_topValues _).bind fun values => blind_build _ _ _ _
  | getField => exact blind_chunk.bind fun chunk => (blind_expect _).bind fun _ => blind_getField _
  | setField => exact blind_chunk.bind fun chunk => (blind_expect _).bind fun _ => blind_setField _
  | array => exact (blind_topValues _).bind fun values => blind_build _ _ _ _
  | getIndex => exact blind_getIndex
  | setIndex => exact blind_setIndex
  | matchValue =>
    refine blind_chunk.bind fun chunk => (blind_expect _).bind fun matcher => ?_
    refine (blind_localIndex _).bind fun index => (blind_readSlot _).bind fun value => ?_
    exact .of_get (fun _ _ => rfl) fun _ => blind_pushMatch _
  | matchArgs => exact blind_chunk.bind fun chunk => (blind_expect _).bind fun _ => blind_matchArguments _
  | noMatchingArm => exact blind_fail _
  | noMatchingOverload =>
    exact blind_frame.bind fun frame => .of_get (fun _ _ => rfl) fun _ => blind_fail _
  | printTop => exact blind_printTop
  | halt => exact blind_returnFromFrame _

theorem blind_dispatch : Blind dispatch := by
  intro log m
  have hinstruction : (m.preceded log).instruction? = m.instruction? := rfl
  rw [dispatch_eq, dispatch_eq, hinstruction]
  cases m.instruction? with
  | none => rfl
  | some instruction =>
    obtain ⟨op, a, b⟩ := instruction
    exact blind_execute op a b log { m with ip := m.ip + op.size }

theorem preceded_safepoint (log : String) (m : Machine) : (m.preceded log).safepoint = m.safepoint.preceded log := by
  have hcollect : (if (m.preceded log).heap.shouldCollect then (m.preceded log).collectGarbage else m.preceded log) =
      (if m.heap.shouldCollect then m.collectGarbage else m).preceded log := by
    by_cases hdue : m.heap.shouldCollect = true
    · rw [if_pos hdue]
      exact if_pos hdue
    · rw [if_neg hdue]
      exact if_neg hdue
  simp only [safepoint]
  rw [hcollect]
  generalize (if m.heap.shouldCollect then m.collectGarbage else m) = ready
  by_cases htrace : ready.config.traceExecution = true
  · rw [if_pos htrace]
    refine (if_pos htrace).trans ?_
    cases hchunk : ready.chunk <;> simp only [preceded, hchunk]
  · rw [if_neg htrace]
    exact if_neg htrace

theorem preceded_locate (log : String) (m : Machine) (diagnostic : Diagnostic) :
    (m.preceded log).locate diagnostic = m.locate diagnostic := by
  have hcalls (frames : List Frame) (chunk : Option Chunk) (offset : Nat) :
      (m.preceded log).activeCalls frames chunk offset = m.activeCalls frames chunk offset := by
    induction frames generalizing chunk offset with
    | nil => rfl
    | cons frame rest ih =>
      simp only [activeCalls, ih]
      rfl
  simp only [locate, hcalls]
  rfl

theorem blind_raise (diagnostic : Diagnostic) : Blind (raise diagnostic : Exec α) := by
  intro log m
  change EStateM.Result.error (Fault.failure ((m.preceded log).locate diagnostic)) (m.preceded log).reset = _
  rw [preceded_locate]
  rfl

theorem blind_turn (retried : Bool) : Blind (turn retried) := by
  intro log m
  unfold turn
  rw [preceded_safepoint, blind_dispatch]
  cases dispatch m.safepoint with
  | ok value after => rfl
  | error fault after =>
    cases fault with
    | exhausted request =>
      cases retried with
      | true => exact blind_raise _ log after
      | false => rfl
    | failure diagnostic => exact blind_raise diagnostic log after
    | stray => rfl
    | outOfFuel => rfl

theorem blind_runLoop (fuel : Nat) (retried : Bool) : Blind (runLoop fuel retried) := by
  induction fuel generalizing retried with
  | zero => exact blind_throw _
  | succ fuel ih =>
    refine .of_get (fun _ _ => rfl) fun m => ?_
    split
    · exact (blind_modify fun _ _ => rfl).bind fun _ => .of_get (fun _ _ => rfl) fun _ => blind_pure _
    · exact (blind_turn retried).bind fun again => ih again

end Exec

end OwnScript
