import OwnScript.Proofs.Code.Instructions
import OwnScript.Proofs.Machine.Closures

/-!
One instruction on both sides. An instruction is read without changing anything, then carried out.
Both sides may have captured some of the slots that the instruction wants before, as they have when
it runs again after it gave up.
-/

namespace OwnScript

open Stateful

/-- The next instruction of a machine. -/
def Machine.instruction? (m : Machine) : Option (Opcode × Nat × Nat) :=
  m.chunk.bind (·.instructionAt? m.ip)

namespace Exec

/-- What stops a machine that finds no instruction. -/
def fetchFault (chunk : Option Chunk) (offset : Nat) : Fault :=
  match chunk.bind (·.code[offset]?) with
  | none => .stray
  | some byte =>
    match Opcode.ofByte? byte with
    | none => .failure (.plain .malformedBytecode s!"unknown opcode {byte.toNat}")
    | some _ => .stray

theorem fetchFault_plain (chunk : Option Chunk) (offset : Nat) : Fault.Plain (fetchFault chunk offset) := by
  unfold fetchFault Fault.Plain
  split
  · simp
  · split <;> simp

theorem operand_apply (chunk : Chunk) (op : Opcode) (offset i : Nat) (m : Machine) :
    operand chunk op offset i m = expect (chunk.operandAt? op offset i) m := by
  unfold operand Chunk.operandAt?
  split <;> rfl

/-- An instruction is read, the next one is found behind it, and it is carried out. -/
theorem dispatch_eq (m : Machine) :
    dispatch m =
      match m.instruction? with
      | some (op, a, b) => execute op a b { m with ip := m.ip + op.size }
      | none => .error (fetchFault m.chunk m.ip) m := by
  unfold dispatch chunk
  simp only [Machine.instruction?, Chunk.instructionAt?, fetchFault]
  rw [bind_apply, get_bind_apply]
  cases hchunk : m.chunk with
  | none => rfl
  | some chunk =>
    simp only [expect, pure_apply, Option.bind_some]
    rw [get_bind_apply, bind_apply]
    cases hbyte : chunk.code[m.ip]? with
    | none => rfl
    | some byte =>
      simp only [pure_apply, Option.bind_eq_bind, Option.bind_some]
      cases hop : Opcode.ofByte? byte with
      | none => rfl
      | some op =>
        simp only [Option.bind_some]
        rw [bind_apply, operand_apply]
        cases ha : chunk.operandAt? op m.ip 0 with
        | none => rfl
        | some a =>
          simp only [expect, pure_apply, Option.bind_some]
          rw [bind_apply, operand_apply]
          cases hb : chunk.operandAt? op m.ip 1 with
          | none => rfl
          | some b =>
            rw [← hchunk]
            rfl

end Exec

namespace Machine

/-- The slots that the next instruction wants to capture. -/
def wanted (m : Machine) : List Nat :=
  match m.instruction? with
  | some (.closure, a, _) =>
    match m.chunk.bind (·.functions[a]?) with
    | some (some prototype) => m.closureSlots prototype
    | _ => []
  | _ => []

/-- The bytes that the next instruction needs for a closure. -/
def closureNeed (m : Machine) : Nat :=
  match m.instruction? with
  | some (.closure, a, _) =>
    match m.chunk.bind (·.functions[a]?) with
    | some (some prototype) => Exec.allocationNeed (.unboundClosure (some prototype))
    | _ => 0
  | _ => 0

/-- Machines about to carry out the same instruction: one may have captured slots that the other has
not, if the instruction wants them. -/
structure Ready (ρ : Renaming) (left right : Machine) : Prop where
  similar : Similar ρ left right
  slots : ∀ slot, slot ∉ left.wanted → (slot ∈ left.openSlots ↔ slot ∈ right.openSlots)

/-- Machines that find the slots alike that the next instruction names. -/
def NamesAlike (left right : Machine) : Prop :=
  ∀ op a b, left.instruction? = some (op, a, b) → ∀ slot ∈ left.namedSlots op a, SeenAlike left right slot

theorem namesAlike_self (m : Machine) : NamesAlike m m :=
  fun _ _ _ _ slot _ => seenAlike_self m slot

/-- The next instruction names slots below the top only. -/
def StaysBelow (m : Machine) : Prop :=
  ∀ op a b, m.instruction? = some (op, a, b) → ∀ slot ∈ m.namedSlots op a, slot < m.stack.size

/-- Whether the next instruction names slots below the top only. -/
def isBelow (m : Machine) : Bool :=
  match m.instruction? with
  | some (op, a, _) => (m.namedSlots op a).all (· < m.stack.size)
  | none => true

theorem staysBelow_of_isBelow {m : Machine} (hbelow : m.isBelow = true) : m.StaysBelow := by
  intro op a b hinstruction slot hslot
  rw [isBelow, hinstruction] at hbelow
  exact of_decide_eq_true (List.all_eq_true.mp hbelow slot hslot)

theorem StaysBelow.namesAlike {left : Machine} (hbelow : left.StaysBelow) (right : Machine) :
    NamesAlike left right :=
  fun op a b hinstruction slot hslot => .inl (hbelow op a b hinstruction slot hslot)

variable {ρ : Renaming} {left right : Machine}

theorem instruction?_eq (hsim : Similar ρ left right) : left.instruction? = right.instruction? := by
  rw [instruction?, instruction?, hsim.chunk, hsim.ip]

theorem wanted_eq (hsim : Similar ρ left right) : left.wanted = right.wanted := by
  simp only [wanted, instruction?_eq hsim, hsim.chunk, closureSlots_eq hsim]

theorem closureNeed_eq (hsim : Similar ρ left right) : left.closureNeed = right.closureNeed := by
  simp only [closureNeed, instruction?_eq hsim, hsim.chunk]

/-- Similar machines name the same slots. -/
theorem namedSlots_eq (hsim : Similar ρ left right) (op : Opcode) (a : Nat) :
    left.namedSlots op a = right.namedSlots op a := by
  have hframes := rel_back? hsim.frames
  simp only [namedSlots, upvalueSlot?_eq hsim, hsim.chunk]
  generalize left.frames.back? = first at hframes ⊢
  generalize right.frames.back? = second at hframes ⊢
  cases hframes with
  | none => rfl
  | some hframe =>
    cases right.chunk.bind (·.clauses[a]?) with
    | none => rfl
    | some parameters => simp only [hframe.argumentCount, hframe.base]

theorem StaysBelow.similar (hbelow : left.StaysBelow) (hsim : Similar ρ left right) : right.StaysBelow := by
  intro op a b hinstruction slot hslot
  rw [← instruction?_eq hsim] at hinstruction
  rw [← namedSlots_eq hsim] at hslot
  rw [← rel_size hsim.stack]
  exact hbelow op a b hinstruction slot hslot

theorem Corresponds.ready (hcorr : Corresponds ρ left right) : Ready ρ left right :=
  ⟨hcorr.toSimilar, fun slot _ => by rw [hcorr.slots]⟩

theorem Ready.corresponds (hready : Ready ρ left right) (hnone : left.wanted = []) :
    Corresponds ρ left right :=
  hready.similar.corresponds fun slot => hready.slots slot (by simp [hnone])

theorem Ready.swap (hready : Ready ρ left right) : Ready ρ.swap right left :=
  ⟨hready.similar.swap, fun slot hslot =>
    (hready.slots slot (by rw [wanted_eq hready.similar]; exact hslot)).symm⟩

end Machine

namespace Exec

open Machine Captures

/-- An instruction tried on both sides. -/
inductive Trial (left right : Machine) (first second : EStateM.Result Fault Machine Unit) : Prop where
  | calm {σ : Renaming} : Together σ first second → Trial left right first second
  | demands {need : Nat} {request : UInt64 → HeapExhausted} : Demands left.wanted need request left first →
      Demands right.wanted need request right second →
      (left.wanted ≠ [] → need = left.closureNeed) →
      (¬ Full first → ¬ Full second → ∃ σ, Together σ first second) → Trial left right first second

theorem Demands.of_ip {wanted : List Nat} {need ip : Nat} {request : UInt64 → HeapExhausted} {m : Machine}
    {result : EStateM.Result Fault Machine Unit}
    (hdemands : Demands wanted need request { m with ip } result) : Demands wanted need request m result where
  full asked after hresult := by
    obtain ⟨hover, hresidue, hasked⟩ := hdemands.full asked after hresult
    refine ⟨hover, ⟨?_, fun ρ other hsim => ?_, hresidue.grows, hresidue.within, hresidue.room⟩, hasked⟩
    · exact congrArg (fun state => { state with ip := m.ip }) hresidue.rest
    · have hmoved : Similar ρ { m with ip } { other with ip } := { hsim with ip := rfl }
      obtain ⟨σ, hafter⟩ := hresidue.similar ρ _ hmoved
      exact ⟨σ, { hafter with ip := hsim.ip }⟩
  fits := hdemands.fits

theorem Attempt.trial {op : Opcode} {first second : EStateM.Result Fault Machine Unit}
    (hattempt : Attempt { left with ip := left.ip + op.size } { right with ip := right.ip + op.size }
      first second) (hleft : left.wanted = []) (hright : right.wanted = []) :
    Trial left right first second := by
  cases hattempt with
  | calm hcalm => exact .calm hcalm
  | needs hfirst hsecond htogether =>
    exact .demands (hleft ▸ hfirst.demands.of_ip) (hright ▸ hsecond.demands.of_ip)
      (fun hnew => absurd hleft hnew) htogether

/-- What the making of a closure reads before it starts. -/
theorem execute_closure (a b : Nat) {m : Machine} {chunk : Chunk} (hchunk : m.chunk = some chunk) :
    execute .closure a b m =
      match chunk.functions[a]? with
      | some (some prototype) => pushClosure prototype m
      | _ => .error .stray m := by
  simp only [execute, Exec.chunk]
  rw [bind_apply, get_bind_apply, hchunk]
  simp only [expect, pure_apply]
  cases chunk.functions[a]? with
  | none => rfl
  | some function =>
    cases function with
    | none => rfl
    | some prototype => rfl

theorem trial_pushClosure (hready : Ready ρ left right) {prototype : Prototype} {ip : Nat}
    (hwanted : left.wanted = left.closureSlots prototype)
    (hneed : left.closureNeed = allocationNeed (.unboundClosure (some prototype))) :
    Trial left right (pushClosure prototype { left with ip }) (pushClosure prototype { right with ip }) := by
  have hsim := hready.similar
  have hmoved : Similar ρ { left with ip } { right with ip } := { hsim with ip := rfl }
  have hfirst := demands_pushClosure hmoved.heap.leftSound (closure_mem_refs hmoved) prototype
  have hsecond := demands_pushClosure hmoved.heap.rightSound (closure_mem_refs hmoved.swap) prototype
  have hright : right.wanted = right.closureSlots prototype := by
    rw [← wanted_eq hsim, hwanted, closureSlots_eq hsim]
  rw [show ({ left with ip } : Machine).heap.config.maxHeapBytes = right.heap.config.maxHeapBytes
    from hsim.heap.limit] at hfirst
  refine .demands (hwanted ▸ hfirst.of_ip) (hright ▸ hsecond.of_ip) (fun _ => hneed.symm)
    fun hplain hplain' => ?_
  exact calm_pushClosure hmoved (fun slot hslot => hready.slots slot (hwanted ▸ hslot)) hplain hplain'

/-- Carrying out an instruction keeps machines together unless one of them gives up, and whether it
does depends on a need that both share. -/
theorem trial_dispatch (hready : Ready ρ left right) (hnames : NamesAlike left right) :
    Trial left right (dispatch left) (dispatch right) := by
  have hsim := hready.similar
  have hright := wanted_eq hsim
  have hsame := instruction?_eq hsim
  rw [dispatch_eq, dispatch_eq, ← hsame]
  cases hinstruction : left.instruction? with
  | none =>
    have hnone : left.wanted = [] := by simp [wanted, hinstruction]
    simp only [hsim.chunk, hsim.ip]
    exact .calm (.fault (fetchFault_plain _ _) (hready.corresponds hnone))
  | some instruction =>
    obtain ⟨op, a, b⟩ := instruction
    by_cases hop : op = .closure
    · subst hop
      obtain ⟨chunk, hchunk, -⟩ := Option.bind_eq_some_iff.mp hinstruction
      simp only [execute_closure a b (m := { left with ip := left.ip + Opcode.closure.size }) hchunk,
        execute_closure a b (m := { right with ip := right.ip + Opcode.closure.size })
          (hsim.chunk ▸ hchunk)]
      have hnone (hother : ∀ prototype, chunk.functions[a]? ≠ some (some prototype)) :
          left.wanted = [] := by
        simp only [wanted, hinstruction, hchunk, Option.bind_some]
      cases hfunction : chunk.functions[a]? with
      | none =>
        have hcorr := hready.corresponds (hnone (by simp [hfunction]))
        exact .calm (.fault (by simp [Fault.Plain]) (hcorr.withIp (by rw [hcorr.ip])))
      | some function =>
        cases function with
        | none =>
          have hcorr := hready.corresponds (hnone (by simp [hfunction]))
          exact .calm (.fault (by simp [Fault.Plain]) (hcorr.withIp (by rw [hcorr.ip])))
        | some prototype =>
          simp only [← hsim.ip]
          refine trial_pushClosure hready ?_ ?_
          · simp [wanted, hinstruction, hchunk, hfunction]
          · simp [closureNeed, hinstruction, hchunk, hfunction]
    · have hnone : left.wanted = [] := by
        simp only [wanted, hinstruction]
        cases op with
        | closure => exact absurd rfl hop
        | _ => rfl
      have hmoved := (hready.corresponds hnone).withIp
        (show left.ip + op.size = right.ip + op.size by rw [hsim.ip])
      refine (attempt_execute hmoved hop a b fun slot hslot => ?_).trial hnone (hright ▸ hnone)
      exact (hnames op a b hinstruction slot hslot).imp_right fun h => ⟨h.room, h.set, h.refs⟩

end Exec

end OwnScript
