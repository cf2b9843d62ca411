import OwnScript.Proofs.Machine.Steadiness

/-!
The instructions after which a machine goes on elsewhere: jumps, calls and returns, each with the
machine that it leaves. No instruction at all changes what belongs to the host.
-/

namespace OwnScript

open Stateful

/-- The instructions that end a call. -/
def Opcode.leaves (op : Opcode) : Prop :=
  op = .ret ∨ op = .halt

namespace Exec

open Machine

variable {allowed : Option Prototype → Array (Option Ref) → Prop}

/-- A call is entered, or it is refused and changes nothing. -/
theorem callValue_cases (callee : Value) (argumentCount : Nat) (m : Machine) :
    (∃ closure prototype cells, callee = .ofRef closure ∧
      m.heap.get? closure = some (.closure prototype cells) ∧
      callValue callee argumentCount m = .ok () (entered m closure prototype argumentCount)) ∨
    ∃ diagnostic, diagnostic.kind ≠ .malformedBytecode ∧
      callValue callee argumentCount m = .error (.failure diagnostic) m := by
  by_cases hclosure : ∃ prototype cells, m.heap.objectOf? callee = some (.closure prototype cells)
  · obtain ⟨prototype, cells, hobject⟩ := hclosure
    obtain ⟨closure, href, hget⟩ := Option.bind_eq_some_iff.mp hobject
    obtain rfl : callee = .ofRef closure := by
      cases callee with
      | scalar value => cases href
      | object target =>
        cases href
        rfl
    have hcall := callValue_closure hget argumentCount
    change callValue (.ofRef closure) argumentCount m = _ at hcall
    split at hcall
    · exact .inr ⟨_, by simp [Diagnostic.about], hcall⟩
    · split at hcall
      · exact .inr ⟨_, by simp [Diagnostic.about], hcall⟩
      · exact .inl ⟨closure, prototype, cells, rfl, hget, hcall⟩
  · have hother (prototype : Option Prototype) (cells : Array (Option Ref)) :
        m.heap.objectOf? callee ≠ some (.closure prototype cells) :=
      fun h => hclosure ⟨prototype, cells, h⟩
    exact .inr ⟨_, by simp [Diagnostic.about], callValue_other hother argumentCount⟩

/-- The machine after a call was left, before its result is handed over. -/
def left (m : Machine) (frame : Frame) : Machine :=
  ({ m with frames := m.frames.pop }.closeCells frame.base).resizeStack (frame.base - 1)

theorem returnFromFrame_eq (result : Value) (m : Machine) :
    returnFromFrame result m =
      match m.frames.back? with
      | none => .error .stray m
      | some frame =>
        match frame.caller with
        | none => .ok () { left m frame with result, halted := true, chunk := none }
        | some chunk => push result { left m frame with chunk := some chunk, ip := frame.returnTo } := by
  simp only [returnFromFrame, Exec.frame]
  rw [bind_apply, get_bind_apply]
  cases m.frames.back? with
  | none => rfl
  | some frame =>
    simp only [expect, pure_apply]
    cases frame.caller with
    | none => rfl
    | some chunk => rfl

theorem preserved_left (m : Machine) (frame : Frame) : Preserved allowed m (left m frame) := by
  have hpopped : Preserved allowed m { m with frames := m.frames.pop } := .of_eq rfl rfl
  have hclosed : Preserved allowed { m with frames := m.frames.pop }
      ({ m with frames := m.frames.pop }.closeCells frame.base) := preserved_closeCells _ _
  have hcut : Preserved allowed ({ m with frames := m.frames.pop }.closeCells frame.base) (left m frame) :=
    .of_eq rfl rfl
  exact (hpopped.trans hclosed).trans hcut

theorem attached_push (value : Value) (m : Machine) : Attached m (stateAfter (push value m)) := by
  have hsteady : Steady (fun _ _ => True) m (stateAfter (push value m)) := steady_push value
  exact hsteady.toAttached

theorem attached_bind {α β : Type} {x : Exec α} {f : α → Exec β} {m : Machine}
    (hfirst : Attached m (stateAfter (x m)))
    (hnext : ∀ a middle, Attached middle (stateAfter (f a middle))) :
    Attached m (stateAfter ((x >>= f) m)) := by
  rw [stateAfter_bind]
  generalize x m = result at hfirst ⊢
  cases result with
  | ok a middle => exact hfirst.trans (hnext a middle)
  | error fault after => exact hfirst

theorem stateAfter_callValue (callee : Value) (argumentCount : Nat) (m : Machine) :
    (∃ closure prototype cells, m.heap.get? closure = some (.closure prototype cells) ∧
      stateAfter (callValue callee argumentCount m) = entered m closure prototype argumentCount) ∨
    stateAfter (callValue callee argumentCount m) = m := by
  rcases callValue_cases callee argumentCount m with
    ⟨closure, prototype, cells, -, hget, hresult⟩ | ⟨diagnostic, -, hresult⟩
  · exact .inl ⟨closure, prototype, cells, hget, by rw [hresult]; rfl⟩
  · exact .inr (by rw [hresult]; rfl)

/-- What a machine says that finds too few values on the stack. -/
def underflowFault : Fault :=
  .failure (.plain .malformedBytecode "stack underflow")

theorem peek_eq (distance : Nat) (m : Machine) :
    peek distance m =
      match m.stack[m.stack.size - 1 - distance]? with
      | some value => if distance < m.stack.size then .ok value m else .error underflowFault m
      | none => .error underflowFault m := by
  simp only [peek]
  rw [get_bind_apply]
  split
  · rename_i hdistance
    rw [Array.getElem?_eq_getElem (by omega)]
    rfl
  · cases m.stack[m.stack.size - 1 - distance]? <;> rfl

theorem pop_eq (m : Machine) :
    pop m =
      match m.stack.back? with
      | some value => .ok value (m.cut (m.stack.size - 1))
      | none => .error underflowFault m := by
  simp only [pop]
  rw [get_bind_apply]
  cases m.stack.back? <;> rfl

/-- A conditional jump looks at the top of the stack and goes on here or there. -/
theorem execute_jumpIf (b : Nat) {a : Nat} (m : Machine) {op : Opcode}
    (hop : op = .jumpIfFalse ∨ op = .jumpIfTrue) :
    (∃ (value : Value) (taken : Bool), peek 0 m = .ok value m ∧
      execute op a b m = .ok () { m with ip := if taken then m.ip + a else m.ip }) ∨
    (∃ fault, peek 0 m = .error fault m ∧ execute op a b m = .error fault m) := by
  have hlooks := looks_peek 0 m
  cases hpeek : peek 0 m with
  | error fault after =>
    rw [hpeek] at hlooks
    obtain rfl : after = m := hlooks
    refine .inr ⟨fault, rfl, ?_⟩
    rcases hop with rfl | rfl
    · simp only [execute, bind_apply, hpeek]
    · simp only [execute, bind_apply, hpeek]
  | ok value after =>
    rw [hpeek] at hlooks
    obtain rfl : after = m := hlooks
    rcases hop with rfl | rfl
    · refine .inl ⟨value, !value.truthy, rfl, ?_⟩
      simp only [execute, bind_apply, hpeek]
      cases value.truthy <;> rfl
    · refine .inl ⟨value, value.truthy, rfl, ?_⟩
      simp only [execute, bind_apply, hpeek]
      cases value.truthy <;> rfl

/-- A call takes the function from below its arguments. -/
theorem execute_call (a b : Nat) (m : Machine) :
    execute .call a b m =
      if m.stack.size < a + 1 then
        .error (.failure (.plain .malformedBytecode "not enough values for function call")) m
      else (peek a >>= fun callee => callValue callee a) m := by
  simp only [execute]
  rw [get_bind_apply]
  split <;> rfl

/-- Where control goes on after a jump over a distance, if it was behind the instruction. -/
def Lands (op : Opcode) (distance behind target : Nat) : Prop :=
  match op with
  | .jump => target = behind + distance
  | .jumpIfFalse | .jumpIfTrue => target = behind + distance ∨ target = behind
  | .loopBack => target = behind - distance
  | _ => False

/-- How an instruction ends that may go on elsewhere in the code. -/
inductive Moved (op : Opcode) (a : Nat) (m : Machine) : EStateM.Result Fault Machine Unit → Prop where
  | jumped {ip : Nat} : Lands op a m.ip ip → Moved op a m (.ok () { m with ip })
  | entered {closure : Ref} {prototype : Option Prototype} {cells : Array (Option Ref)} :
      op = .call → m.stack[m.stack.size - 1 - a]? = some (.ofRef closure) →
      m.heap.get? closure = some (.closure prototype cells) →
      Moved op a m (.ok () (entered m closure prototype a))
  | finished {frame : Frame} (stack : Array Value) (leftovers : Leftovers) (result : Value) : op.leaves →
      m.frames.back? = some frame → frame.caller = none →
      Moved op a m
        (.ok () { left { m with stack, leftovers } frame with result, halted := true, chunk := none })
  | returned {frame : Frame} {chunk : Chunk} {stack : Array Value} {leftovers : Leftovers} (result : Value) :
      op.leaves → m.frames.back? = some frame → frame.caller = some chunk →
      Moved op a m
        (push result
          { left { m with stack, leftovers } frame with chunk := some chunk, ip := frame.returnTo })
  | lost (stack : Array Value) (leftovers : Leftovers) : m.frames.back? = none →
      Moved op a m (.error .stray { m with stack, leftovers })
  | refused (fault : Fault) : Moved op a m (.error fault m)

theorem moved_returnFromFrame {op : Opcode} (hop : op.leaves) {a : Nat} (m : Machine)
    (stack : Array Value) (leftovers : Leftovers) (result : Value) :
    Moved op a m (returnFromFrame result { m with stack, leftovers }) := by
  rw [returnFromFrame_eq]
  change Moved op a m
    (match m.frames.back? with
    | none => _
    | some frame => _)
  cases hframe : m.frames.back? with
  | none => exact .lost stack leftovers hframe
  | some frame =>
    dsimp only
    cases hcaller : frame.caller with
    | none => exact .finished stack leftovers result hop hframe hcaller
    | some chunk => exact .returned result hop hframe hcaller

theorem moved_execute {op : Opcode} (hmoves : op.moves = true) (a b : Nat) (m : Machine) :
    Moved op a m (execute op a b m) := by
  have hjump (hop : op = .jumpIfFalse ∨ op = .jumpIfTrue) : Moved op a m (execute op a b m) := by
    rcases execute_jumpIf b m hop with ⟨_, taken, -, hresult⟩ | ⟨fault, -, hresult⟩
    · rw [hresult]
      refine .jumped ?_
      rcases hop with rfl | rfl
      · cases taken <;> simp [Lands]
      · cases taken <;> simp [Lands]
    · rw [hresult]
      exact .refused fault
  cases op with
  | jump => exact .jumped rfl
  | loopBack => exact .jumped rfl
  | jumpIfFalse => exact hjump (.inl rfl)
  | jumpIfTrue => exact hjump (.inr rfl)
  | call =>
    rw [execute_call]
    split
    · exact .refused _
    · rename_i henough
      rw [bind_apply, peek_eq]
      cases hcallee : m.stack[m.stack.size - 1 - a]? with
      | none => exact .refused _
      | some callee =>
        dsimp only
        rw [if_pos (by omega)]
        dsimp only
        rcases callValue_cases callee a m with
          ⟨closure, prototype, cells, rfl, hget, hresult⟩ | ⟨diagnostic, -, hresult⟩
        · rw [hresult]
          exact .entered rfl hcallee hget
        · rw [hresult]
          exact .refused _
  | ret =>
    change Moved .ret a m ((pop >>= returnFromFrame) m)
    rw [bind_apply, pop_eq]
    cases m.stack.back? with
    | none => exact .refused _
    | some value =>
      let cut := m.cut (m.stack.size - 1)
      exact moved_returnFromFrame (.inl rfl) m cut.stack cut.leftovers value
  | halt => exact moved_returnFromFrame (.inr rfl) m m.stack m.leftovers .nil
  | _ => cases hmoves

theorem Moved.preserved {op : Opcode} {a : Nat} {m : Machine} {result : EStateM.Result Fault Machine Unit}
    (hmoved : Moved op a m result) : Preserved allowed m (stateAfter result) := by
  have hleft (stack : Array Value) (leftovers : Leftovers) (frame : Frame) :
      Preserved allowed m (left { m with stack, leftovers } frame) := by
    have hcut : Preserved allowed m { m with stack, leftovers } := .of_eq rfl rfl
    exact hcut.trans (preserved_left _ frame)
  cases hmoved with
  | jumped => exact .of_eq rfl rfl
  | entered => exact .of_eq rfl rfl
  | @finished frame stack leftovers result =>
    have hlast : Preserved allowed (left { m with stack, leftovers } frame)
        { left { m with stack, leftovers } frame with result, halted := true, chunk := none } := .of_eq rfl rfl
    exact (hleft stack leftovers frame).trans hlast
  | @returned frame chunk stack leftovers result =>
    have hlast : Preserved allowed (left { m with stack, leftovers } frame)
        { left { m with stack, leftovers } frame with chunk := some chunk, ip := frame.returnTo } := .of_eq rfl rfl
    have hpushed : Steady allowed { left { m with stack, leftovers } frame with
        chunk := some chunk, ip := frame.returnTo } _ := steady_push result
    exact ((hleft stack leftovers frame).trans hlast).trans hpushed.toPreserved
  | lost => exact .of_eq rfl rfl
  | refused fault => exact .refl m

theorem Moved.attached {op : Opcode} {a : Nat} {m : Machine} {result : EStateM.Result Fault Machine Unit}
    (hmoved : Moved op a m result) : Attached m (stateAfter result) := by
  cases hmoved with
  | jumped => exact ⟨rfl, rfl, rfl, rfl, rfl⟩
  | entered => exact ⟨rfl, rfl, rfl, rfl, rfl⟩
  | finished => exact ⟨rfl, rfl, rfl, rfl, rfl⟩
  | @returned frame chunk stack leftovers result =>
    have hleft : Attached m
        { left { m with stack, leftovers } frame with chunk := some chunk, ip := frame.returnTo } :=
      ⟨rfl, rfl, rfl, rfl, rfl⟩
    exact hleft.trans (attached_push result _)
  | lost => exact ⟨rfl, rfl, rfl, rfl, rfl⟩
  | refused fault => exact ⟨rfl, rfl, rfl, rfl, rfl⟩

/-- No instruction changes the settings, the unit or what the host keeps alive. -/
theorem attached_execute (op : Opcode) (a b : Nat) (m : Machine) :
    Attached m (stateAfter (execute op a b m)) := by
  cases hmoves : op.moves with
  | false =>
    have hsteady : Steady (fun _ _ => True) m (stateAfter (execute op a b m)) :=
      steady_execute hmoves a b fun _ _ _ _ _ _ _ => trivial
    exact hsteady.toAttached
  | true => exact (moved_execute hmoves a b m).attached

/-- Instructions change no object's kind, and make closures only of the functions of their code. -/
theorem preserved_execute {op : Opcode} (a b : Nat) {m : Machine}
    (hclosure : op = .closure → ∀ chunk prototype, m.chunk = some chunk →
      chunk.functions[a]? = some (some prototype) → ∀ cells : Array (Option Ref),
        cells.size = prototype.captures.size → allowed (some prototype) cells) :
    Preserved allowed m (stateAfter (execute op a b m)) := by
  cases hmoves : op.moves with
  | false => exact (steady_execute hmoves a b hclosure).toPreserved
  | true => exact (moved_execute hmoves a b m).preserved

theorem attached_dispatch (m : Machine) : Attached m (stateAfter (dispatch m)) := by
  rw [dispatch_eq]
  cases m.instruction? with
  | none => exact ⟨rfl, rfl, rfl, rfl, rfl⟩
  | some instruction =>
    obtain ⟨op, a, b⟩ := instruction
    have hmoved : Attached m { m with ip := m.ip + op.size } := ⟨rfl, rfl, rfl, rfl, rfl⟩
    exact hmoved.trans (attached_execute op a b _)

end Exec

end OwnScript
