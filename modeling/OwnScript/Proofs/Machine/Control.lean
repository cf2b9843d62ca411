import OwnScript.Proofs.Host.References
import OwnScript.Proofs.Machine.Accounts

/-!
Where control can be. The code of a machine is that of its innermost call, the machine stands at the
start of an instruction of it, and every caller waits at the start of an instruction of its own code.
Closures are those of functions that were accepted, so that the operands of the instruction at hand
lead into their tables.
-/

namespace OwnScript

open Stateful

namespace Chunk

/-- The instruction that starts at an offset has the operands that verification has looked at. -/
theorem StartsAt.instruction {chunk : Chunk} {offset : Nat} {op : Opcode}
    (hstarts : chunk.StartsAt offset op) :
    ∃ a b, chunk.instructionAt? offset = some (op, a, b) ∧
      (0 < op.operandCount → a = (chunk.readShort? (offset + 1 + 2 * 0)).getD 0) := by
  obtain ⟨byte, hbyte, hop, hend⟩ := hstarts.code
  have hoperand (i : Nat) : ∃ value, chunk.operandAt? op offset i = some value ∧
      (i < op.operandCount → value = (chunk.readShort? (offset + 1 + 2 * i)).getD 0) := by
    unfold operandAt?
    split
    · rename_i hi
      have hsize : op.size = 1 + 2 * op.operandCount := rfl
      have hhigh : offset + 1 + 2 * i < chunk.code.size := by omega
      have hlow : offset + 1 + 2 * i + 1 < chunk.code.size := by omega
      refine ⟨chunk.code[offset + 1 + 2 * i].toNat * 256 + chunk.code[offset + 1 + 2 * i + 1].toNat, ?_,
        fun _ => ?_⟩
      · simp [readShort?, hhigh, hlow]
      · simp [readShort?, hhigh, hlow]
    · rename_i hi
      exact ⟨0, rfl, fun h => absurd h hi⟩
  obtain ⟨a, ha, hfirst⟩ := hoperand 0
  obtain ⟨b, hb, -⟩ := hoperand 1
  refine ⟨a, b, ?_, hfirst⟩
  simp [instructionAt?, hbyte, hop, ha, hb]

end Chunk

theorem requireOperand_ok {op : Opcode} {offset : Nat} {holds : Bool} {flaw : OperandFlaw}
    (hresult : requireOperand op offset holds flaw = .ok ()) : holds = true := by
  unfold requireOperand at hresult
  split at hresult
  · assumption
  · cases hresult

namespace Prototype.Checked

variable {globals : Nat} {enclosing : Option Prototype} {prototype : Prototype} {chunk : Chunk}
  {offset : Nat} {op : Opcode} {a b : Nat}

/-- A jump lands on an instruction. -/
theorem jump_target (hchecked : prototype.Checked globals enclosing chunk)
    (hstarts : chunk.StartsAt offset op) (hop : op = .jump ∨ op = .jumpIfFalse ∨ op = .jumpIfTrue)
    (hinstruction : chunk.instructionAt? offset = some (op, a, b)) :
    ∃ next, chunk.StartsAt (offset + op.size + a) next := by
  obtain ⟨instructions, hinstructions, hoperands⟩ := hchecked.operands
  obtain ⟨a', b', hread, hvalue⟩ := hstarts.instruction
  obtain ⟨-, rfl, rfl⟩ : op = op ∧ a = a' ∧ b = b' := by simpa [hinstruction] using hread
  have hresult := hoperands offset op hstarts
  have hsize : op.size = 3 := by rcases hop with rfl | rfl | rfl <;> rfl
  have hcount : 0 < op.operandCount := by rcases hop with rfl | rfl | rfl <;> decide
  have hmarked : (chunk.starts instructions)[offset + 3 + a]?.getD false = true := by
    rw [hvalue hcount]
    rcases hop with rfl | rfl | rfl
    all_goals
      have hholds := requireOperand_ok hresult
      rw [Bool.and_eq_true] at hholds
      exact hholds.2
  rw [hsize]
  exact Chunk.startsAt_of_marked hinstructions hmarked

/-- A loop goes back to an instruction. -/
theorem loop_target (hchecked : prototype.Checked globals enclosing chunk)
    (hstarts : chunk.StartsAt offset .loopBack)
    (hinstruction : chunk.instructionAt? offset = some (.loopBack, a, b)) :
    ∃ next, chunk.StartsAt (offset + Opcode.loopBack.size - a) next := by
  obtain ⟨instructions, hinstructions, hoperands⟩ := hchecked.operands
  obtain ⟨a', b', hread, hvalue⟩ := hstarts.instruction
  obtain ⟨rfl, rfl⟩ : a = a' ∧ b = b' := by simpa [hinstruction] using hread
  have hholds := requireOperand_ok (hoperands offset .loopBack hstarts)
  rw [Bool.and_eq_true] at hholds
  have hmarked : (chunk.starts instructions)[offset + 3 - a]?.getD false = true := by
    rw [hvalue (by decide)]
    exact hholds.2
  exact Chunk.startsAt_of_marked hinstructions hmarked

theorem lands (hchecked : prototype.Checked globals enclosing chunk) (hstarts : chunk.StartsAt offset op)
    (hinstruction : chunk.instructionAt? offset = some (op, a, b)) {target : Nat}
    (hlands : Exec.Lands op a (offset + op.size) target) : ∃ next, chunk.StartsAt target next := by
  cases op with
  | jump =>
    obtain rfl : target = _ := hlands
    exact hchecked.jump_target hstarts (.inl rfl) hinstruction
  | loopBack =>
    obtain rfl : target = _ := hlands
    exact hchecked.loop_target hstarts hinstruction
  | jumpIfFalse =>
    rcases hlands with rfl | rfl
    · exact hchecked.jump_target hstarts (.inr (.inl rfl)) hinstruction
    · exact hchecked.next offset _ hstarts rfl
  | jumpIfTrue =>
    rcases hlands with rfl | rfl
    · exact hchecked.jump_target hstarts (.inr (.inr rfl)) hinstruction
    · exact hchecked.next offset _ hstarts rfl
  | _ => exact hlands.elim

end Prototype.Checked

namespace Machine

/-- The cell of a captured variable is there. -/
def HasCell (m : Machine) (cells : Array (Option Ref)) (index : Nat) : Prop :=
  ∃ cell state, cells[index]? = some (some cell) ∧ m.heap.get? cell = some (.upvalue state)

/-- What an instruction looks up is there: the first operand leads into its table, and where captured
variables are read, to a cell. -/
def Resolves (m : Machine) (chunk : Chunk) (cells : Array (Option Ref)) (op : Opcode) (a : Nat) : Prop :=
  match op with
  | .constant => ∃ value, chunk.constants[a]? = some (.scalar value)
  | .string | .getField | .setField => a < chunk.strings.size
  | .getGlobal | .setGlobal | .moveGlobal => a < m.globals.size ∧ a < m.unit.globalNames.size
  | .getUpvalue | .setUpvalue | .moveUpvalue => m.HasCell cells a
  | .closure => ∃ function, chunk.functions[a]? = some (some function) ∧
      ∀ capture ∈ function.captures, capture.isLocal = false → m.HasCell cells capture.index
  | .record => a < chunk.shapes.size
  | .matchValue => a < chunk.matchers.size
  | .matchArgs => a < chunk.clauses.size
  | _ => True

/-- Closures as verified code makes them: of a function that was accepted, with a cell for each
variable that it captures. -/
def VerifiedClosure (globals : Nat) (prototype : Option Prototype) (cells : Array (Option Ref)) : Prop :=
  ∃ function enclosing, prototype = some function ∧ function.Verified globals enclosing ∧
    cells.size = function.captures.size

theorem resolves_of_verified {m : Machine} {function : Prototype} {enclosing : Option Prototype}
    {chunk : Chunk} {cells : Array (Option Ref)} {offset a b : Nat} {op : Opcode}
    (hverified : function.Verified m.unit.globalNames.size enclosing) (hchunk : function.chunk = some chunk)
    (hglobals : m.globals.size = m.unit.globalNames.size)
    (hcells : ∀ index < function.captures.size, m.HasCell cells index)
    (hstarts : chunk.StartsAt offset op)
    (hinstruction : chunk.instructionAt? offset = some (op, a, b)) : m.Resolves chunk cells op a := by
  cases hverified with
  | intro hown hchecked hpresent hinner =>
    obtain rfl := Option.some.inj (hchunk.symm.trans hown)
    obtain ⟨instructions, hinstructions, hoperands⟩ := hchecked.operands
    obtain ⟨a', b', hread, hvalue⟩ := hstarts.instruction
    obtain ⟨-, rfl, rfl⟩ : op = op ∧ a = a' ∧ b = b' := by simpa [hinstruction] using hread
    have hresult := hoperands offset op hstarts
    cases op with
    | constant =>
      obtain ⟨⟨⟩, hrange, hscalar⟩ := except_bind_eq_ok.mp hresult
      have hlt := of_decide_eq_true (requireOperand_ok hrange)
      have hplain := requireOperand_ok hscalar
      beta_reduce at hlt hplain
      rw [← hvalue (by decide)] at hlt hplain
      simp only [Resolves]
      rw [Array.getElem?_eq_getElem hlt] at hplain ⊢
      generalize chunk.constants[a] = constant at hplain ⊢
      cases constant with
      | scalar value => exact ⟨value, rfl⟩
      | text value => cases hplain
      | noObject => cases hplain
    | string | getField | setField | record | matchArgs =>
      have hlt := of_decide_eq_true (requireOperand_ok hresult)
      beta_reduce at hlt
      rw [← hvalue (by decide)] at hlt
      exact hlt
    | getGlobal | setGlobal | moveGlobal =>
      have hlt := of_decide_eq_true (requireOperand_ok hresult)
      beta_reduce at hlt
      rw [← hvalue (by decide)] at hlt
      exact ⟨hglobals ▸ hlt, hlt⟩
    | getUpvalue | setUpvalue | moveUpvalue =>
      have hlt := of_decide_eq_true (requireOperand_ok hresult)
      beta_reduce at hlt
      rw [← hvalue (by decide)] at hlt
      exact hcells a hlt
    | closure =>
      have hlt := of_decide_eq_true (requireOperand_ok hresult)
      beta_reduce at hlt
      rw [← hvalue (by decide)] at hlt
      obtain ⟨inner, hfound⟩ := Option.isSome_iff_exists.mp (hpresent _ (Array.getElem_mem hlt))
      refine ⟨inner, by rw [Array.getElem?_eq_getElem hlt, hfound], fun capture hcapture hlocal => ?_⟩
      have hmem : some inner ∈ chunk.functions := hfound ▸ Array.getElem_mem hlt
      cases hinner inner hmem with
      | intro _ hcheckedInner _ _ =>
        obtain ⟨outer, houter, hindex⟩ := hcheckedInner.captures capture hcapture
        cases houter
        rw [if_neg (by simp [hlocal])] at hindex
        exact hcells _ hindex
    | matchValue =>
      obtain ⟨⟨⟩, hrange, -⟩ := except_bind_eq_ok.mp hresult
      have hlt := of_decide_eq_true (requireOperand_ok hrange)
      beta_reduce at hlt
      rw [← hvalue (by decide)] at hlt
      exact hlt
    | _ => trivial

/-- Active calls, innermost first. Each runs the code of its closure and stands at the start of an
instruction of it; a caller waits where it goes on after the call. -/
inductive CallsInPlace (heap : Heap) : List Frame → Option Chunk → Nat → Prop where
  | host {ip : Nat} : CallsInPlace heap [] none ip
  | call {frame : Frame} {rest : List Frame} {function : Prototype} {cells : Array (Option Ref)}
      {chunk : Chunk} {ip : Nat} {op : Opcode} :
      heap.get? frame.closure = some (.closure (some function) cells) → function.chunk = some chunk →
      chunk.StartsAt ip op → CallsInPlace heap rest frame.caller frame.returnTo →
      CallsInPlace heap (frame :: rest) (some chunk) ip

theorem CallsInPlace.of_closures {heap after : Heap} {frames : List Frame} {chunk : Option Chunk}
    {ip : Nat} (hcalls : CallsInPlace heap frames chunk ip)
    (hkept : ∀ frame ∈ frames, ∀ prototype cells,
      heap.get? frame.closure = some (.closure prototype cells) →
      after.get? frame.closure = some (.closure prototype cells)) :
    CallsInPlace after frames chunk ip := by
  induction hcalls with
  | host => exact .host
  | call hclosure hchunk hstarts _ ih =>
    refine .call (hkept _ (List.mem_cons_self ..) _ _ hclosure) hchunk hstarts (ih ?_)
    intro frame hframe
    exact hkept frame (List.mem_cons_of_mem _ hframe)

/-- Closures that were verified, each for one of the numbers of globals that units may have. -/
def VerifiedFor (sizes : Nat → Prop) (prototype : Option Prototype) (cells : Array (Option Ref)) : Prop :=
  ∃ globals, sizes globals ∧ VerifiedClosure globals prototype cells

/-- A machine that makes no closures but verified ones. -/
def Stocked (sizes : Nat → Prop) (m : Machine) : Prop :=
  ∀ ref prototype cells, m.heap.get? ref = some (.closure prototype cells) → VerifiedFor sizes prototype cells

/-- A machine whose calls are in place, whatever units its closures come from. -/
structure InPlace (sizes : Nat → Prop) (m : Machine) : Prop where
  stocked : m.Stocked sizes
  calls : CallsInPlace m.heap m.frames.toList.reverse m.chunk m.ip

/-- A machine whose closures are verified and whose calls are in place. -/
structure OnCourse (m : Machine) : Prop where
  globals : m.globals.size = m.unit.globalNames.size
  closures : ∀ ref prototype cells, m.heap.get? ref = some (.closure prototype cells) →
    VerifiedClosure m.unit.globalNames.size prototype cells
  calls : CallsInPlace m.heap m.frames.toList.reverse m.chunk m.ip

theorem verifiedFor_only {globals : Nat} {prototype : Option Prototype} {cells : Array (Option Ref)} :
    VerifiedFor (· = globals) prototype cells ↔ VerifiedClosure globals prototype cells := by
  simp only [VerifiedFor, exists_eq_left]

theorem OnCourse.inPlace {m : Machine} (hcourse : m.OnCourse) :
    m.InPlace (· = m.unit.globalNames.size) :=
  ⟨fun ref prototype cells h => verifiedFor_only.mpr (hcourse.closures ref prototype cells h), hcourse.calls⟩

theorem Stocked.verified {sizes : Nat → Prop} {m : Machine} (hstocked : m.Stocked sizes) {ref : Ref}
    {function : Prototype} {cells : Array (Option Ref)}
    (hclosure : m.heap.get? ref = some (.closure (some function) cells)) :
    ∃ globals enclosing, sizes globals ∧ function.Verified globals enclosing ∧
      cells.size = function.captures.size := by
  obtain ⟨globals, hsize, _, enclosing, hsame, hverified, hcaptures⟩ := hstocked _ _ _ hclosure
  cases hsame
  exact ⟨globals, enclosing, hsize, hverified, hcaptures⟩

theorem OnCourse.verified {m : Machine} (hcourse : m.OnCourse) {ref : Ref} {function : Prototype}
    {cells : Array (Option Ref)} (hclosure : m.heap.get? ref = some (.closure (some function) cells)) :
    (∃ enclosing, function.Verified m.unit.globalNames.size enclosing) ∧
      cells.size = function.captures.size := by
  obtain ⟨_, enclosing, rfl, hverified, hcaptures⟩ := hcourse.inPlace.stocked.verified hclosure
  exact ⟨⟨enclosing, hverified⟩, hcaptures⟩

theorem frames_eq {m : Machine} {frame : Frame} (hframe : m.frames.back? = some frame) :
    m.frames.toList.reverse = frame :: m.frames.pop.toList.reverse := by
  obtain ⟨outer, houter⟩ := Array.back?_eq_some_iff.mp hframe
  simp [houter]

theorem Sound.orderly {m : Machine} (hsound : m.Sound) : m.Orderly := by
  obtain ⟨ρ, hcorr⟩ := hsound
  have hheap := hcorr.heap.leftSound
  exact ⟨⟨hheap.bounded, hheap.idle, hheap.accounted⟩,
    fun entry hentry => ⟨_, hcorr.leftOpen.opened entry hentry⟩⟩

theorem Sound.intact {m : Machine} (hsound : m.Sound) : m.Intact :=
  hsound.orderly.intact

theorem Preserved.closure {allowed : Option Prototype → Array (Option Ref) → Prop} {m after : Machine}
    (hpreserved : Preserved allowed m after) (hintact : m.Intact) {ref : Ref}
    {prototype : Option Prototype} {cells : Array (Option Ref)}
    (hclosure : m.heap.get? ref = some (.closure prototype cells)) :
    after.heap.get? ref = some (.closure prototype cells) := by
  obtain ⟨now, hnow, hkept⟩ := hpreserved.kept hintact ref _ hclosure
  cases hkept
  exact hnow

/-- The innermost call of a machine whose calls are in place, and the instruction that comes next. -/
structure Standing (m : Machine) (frame : Frame) (function : Prototype) (cells : Array (Option Ref))
    (chunk : Chunk) (op : Opcode) (a b : Nat) : Prop where
  closure : m.heap.get? frame.closure = some (.closure (some function) cells)
  own : function.chunk = some chunk
  running : m.chunk = some chunk
  starts : chunk.StartsAt m.ip op
  instruction : chunk.instructionAt? m.ip = some (op, a, b)
  callers : CallsInPlace m.heap m.frames.pop.toList.reverse frame.caller frame.returnTo

theorem Standing.dispatch_eq {m : Machine} {frame : Frame} {function : Prototype}
    {cells : Array (Option Ref)} {chunk : Chunk} {op : Opcode} {a b : Nat}
    (hstanding : m.Standing frame function cells chunk op a b) :
    Exec.dispatch m = Exec.execute op a b { m with ip := m.ip + op.size } := by
  have hnext : m.instruction? = some (op, a, b) := by
    rw [instruction?, hstanding.running]
    exact hstanding.instruction
  rw [Exec.dispatch_eq, hnext]

theorem InPlace.standing {sizes : Nat → Prop} {m : Machine} (hplace : m.InPlace sizes) {frame : Frame}
    (hframe : m.frames.back? = some frame) :
    ∃ function cells chunk op a b, m.Standing frame function cells chunk op a b := by
  have hcalls := hplace.calls
  rw [frames_eq hframe] at hcalls
  generalize hchunk : m.chunk = running at hcalls
  cases hcalls with
  | @call _ _ function cells chunk _ op hclosure hown hstarts hcallers =>
    obtain ⟨a, b, hinstruction, -⟩ := hstarts.instruction
    exact ⟨function, cells, chunk, op, a, b, hclosure, hown, hchunk, hstarts, hinstruction, hcallers⟩

theorem InPlace.chunk_eq_none {sizes : Nat → Prop} {m : Machine} (hplace : m.InPlace sizes)
    (hframes : m.frames.back? = none) : m.chunk = none := by
  have hcalls := hplace.calls
  rw [Array.back?_eq_none_iff.mp hframes] at hcalls
  generalize m.chunk = running at hcalls ⊢
  cases hcalls
  rfl

/-- A step that preserves objects makes no closures but verified ones. -/
theorem Stocked.of_preserved {sizes : Nat → Prop} {m after : Machine} (hstocked : m.Stocked sizes)
    (hpreserved : Preserved (VerifiedFor sizes) m after) : after.Stocked sizes := by
  intro ref prototype cells hclosure
  rcases hpreserved.closures ref prototype cells hclosure with hold | hnew
  · exact hstocked ref prototype cells hold
  · exact hnew

/-- A collection keeps the closures of the active calls. -/
theorem get?_collectGarbage {m : Machine} (hidle : m.heap.Idle) {frame : Frame} (hframe : frame ∈ m.frames.toList) :
    m.collectGarbage.heap.get? frame.closure = m.heap.get? frame.closure :=
  (Heap.collect_spec hidle m.roots).reached _ (.root (closure_mem_roots hframe) rfl)

theorem get?_safepoint {m : Machine} (hidle : m.heap.Idle) {frame : Frame} (hframe : frame ∈ m.frames.toList) :
    m.safepoint.heap.get? frame.closure = m.heap.get? frame.closure := by
  obtain ⟨trace, hcollected | hsame⟩ := m.safepoint_cases
  · rw [hcollected]
    exact get?_collectGarbage hidle hframe
  · rw [hsame]

theorem InPlace.collectGarbage {sizes : Nat → Prop} {m : Machine} (hplace : m.InPlace sizes)
    (hidle : m.heap.Idle) : m.collectGarbage.InPlace sizes := by
  have hspec := Heap.collect_spec hidle m.roots
  refine ⟨fun ref prototype cells hclosure => ?_, hplace.calls.of_closures fun frame hframe prototype cells h => ?_⟩
  · change (m.heap.collect m.roots).1.get? ref = _ at hclosure
    refine hplace.stocked ref prototype cells ?_
    by_cases hreach : m.heap.Reachable m.roots ref
    · rwa [hspec.reached ref hreach] at hclosure
    · rw [hspec.lost ref hreach] at hclosure
      cases hclosure
  · exact (get?_collectGarbage hidle (List.mem_reverse.mp hframe)).trans h

theorem InPlace.safepoint {sizes : Nat → Prop} {m : Machine} (hplace : m.InPlace sizes)
    (hidle : m.heap.Idle) : m.safepoint.InPlace sizes := by
  obtain ⟨trace, hcollected | hsame⟩ := m.safepoint_cases
  · have hafter := hplace.collectGarbage hidle
    rw [hcollected]
    exact ⟨hafter.stocked, hafter.calls⟩
  · rw [hsame]
    exact ⟨hplace.stocked, hplace.calls⟩

theorem OnCourse.of_inPlace {m : Machine} (hglobals : m.globals.size = m.unit.globalNames.size)
    (hplace : m.InPlace (· = m.unit.globalNames.size)) : m.OnCourse :=
  ⟨hglobals, fun ref prototype cells h => verifiedFor_only.mp (hplace.stocked ref prototype cells h), hplace.calls⟩

theorem OnCourse.safepoint {m : Machine} (hcourse : m.OnCourse) (hidle : m.heap.Idle) :
    m.safepoint.OnCourse := by
  have hafter := hcourse.inPlace.safepoint hidle
  obtain ⟨trace, hcollected | hsame⟩ := m.safepoint_cases
  · rw [hcollected] at hafter ⊢
    exact .of_inPlace hcourse.globals hafter
  · rw [hsame] at hafter ⊢
    exact .of_inPlace hcourse.globals hafter

end Machine

namespace Exec

open Machine

variable {sizes : Nat → Prop}

/-- A machine that is in no call finds no instruction. -/
theorem dispatch_no_call {m : Machine} (hplace : m.InPlace sizes) (hframes : m.frames.back? = none) :
    dispatch m = .error .stray m := by
  rw [dispatch_eq, instruction?, hplace.chunk_eq_none hframes]
  rfl

/-- An instruction makes closures of the functions in its own code, which were verified with it. -/
theorem InPlace.preserved_dispatch {m : Machine} (hplace : m.InPlace sizes) :
    Preserved (VerifiedFor sizes) m (stateAfter (dispatch m)) := by
  cases hframe : m.frames.back? with
  | none =>
    rw [dispatch_no_call hplace hframe]
    exact .refl m
  | some frame =>
    obtain ⟨function, cells, chunk, op, a, b, hstanding⟩ := hplace.standing hframe
    rw [hstanding.dispatch_eq]
    have hmoved : Preserved (VerifiedFor sizes) m { m with ip := m.ip + op.size } := .of_eq rfl rfl
    refine hmoved.trans (preserved_execute a b ?_)
    intro hop running inner hrunning hinner cells hcells
    obtain rfl := Option.some.inj (hstanding.running.symm.trans hrunning)
    obtain ⟨globals, enclosing, hsize, hverified, -⟩ := hplace.stocked.verified hstanding.closure
    cases hverified with
    | intro hown _ _ hverifiedInner =>
      obtain rfl := Option.some.inj (hstanding.own.symm.trans hown)
      exact ⟨globals, hsize, inner, some function, rfl, hverifiedInner inner (Array.mem_of_getElem? hinner), hcells⟩

theorem preserved_dispatch {m : Machine} (hcourse : m.OnCourse) :
    Preserved (VerifiedClosure m.unit.globalNames.size) m (stateAfter (dispatch m)) :=
  (InPlace.preserved_dispatch hcourse.inPlace).mono fun _ _ => verifiedFor_only.mp

theorem noMatchingOverload_fails (m after : Machine) : noMatchingOverload m ≠ .ok () after := by
  simp only [noMatchingOverload, Exec.frame]
  rw [bind_apply, get_bind_apply]
  cases m.frames.back? with
  | none => exact fun h => by cases h
  | some frame => exact fun h => by cases h

/-- How control goes on after an instruction that was carried out: in the function that runs, in the
one that is called, or where a caller waits; or the call by the host is over. -/
inductive Flows (m : Machine) (frame : Frame) (chunk : Chunk) (op : Opcode) (a : Nat) (after : Machine) :
    Prop where
  | stays {next : Opcode} : op ≠ .call → ¬ op.leaves → after.frames = m.frames → after.chunk = m.chunk →
      after.halted = m.halted → chunk.StartsAt after.ip next → Flows m frame chunk op a after
  | enters {closure : Ref} {prototype : Option Prototype} {cells : Array (Option Ref)} : op = .call →
      m.stack[m.stack.size - 1 - a]? = some (.ofRef closure) →
      m.heap.get? closure = some (.closure prototype cells) →
      after = entered { m with ip := m.ip + op.size } closure prototype a → Flows m frame chunk op a after
  | returns {running : Chunk} : op.leaves → frame.caller = some running → after.frames = m.frames.pop →
      after.chunk = some running → after.ip = frame.returnTo → after.halted = m.halted →
      Flows m frame chunk op a after
  | finishes (stack : Array Value) (leftovers : Leftovers) (result : Value) : op.leaves → frame.caller = none →
      after = { left { m with ip := m.ip + op.size, stack, leftovers } frame with
        result, halted := true, chunk := none } →
      Flows m frame chunk op a after

theorem Standing.flows {m after : Machine} {frame : Frame} {function : Prototype}
    {cells : Array (Option Ref)} {chunk : Chunk} {op : Opcode} {a b : Nat}
    (hplace : m.InPlace sizes) (hstanding : m.Standing frame function cells chunk op a b)
    (hframe : m.frames.back? = some frame) (hresult : dispatch m = .ok () after) :
    Flows m frame chunk op a after := by
  obtain ⟨globals, enclosing, -, hverified, -⟩ := hplace.stocked.verified hstanding.closure
  have hchecked : function.Checked globals enclosing chunk := by
    cases hverified with
    | intro hown hchecked _ _ => exact Option.some.inj (hstanding.own.symm.trans hown) ▸ hchecked
  rw [hstanding.dispatch_eq] at hresult
  cases hmoves : op.moves with
  | false =>
    have hsteady : Steady (fun _ _ => True) { m with ip := m.ip + op.size }
        (stateAfter (execute op a b { m with ip := m.ip + op.size })) :=
      steady_execute hmoves a b fun _ _ _ _ _ _ _ => trivial
    rw [hresult] at hsteady
    change Steady _ _ after at hsteady
    obtain ⟨next, hnext⟩ : ∃ next, chunk.StartsAt after.ip next := by
      rw [hsteady.ip]
      refine hchecked.next m.ip op hstanding.starts ?_
      cases op with
      | noMatchingArm => cases hresult
      | noMatchingOverload => exact absurd hresult (noMatchingOverload_fails _ _)
      | jump | loopBack | ret | halt => cases hmoves
      | _ => rfl
    refine .stays ?_ ?_ hsteady.frames hsteady.chunk hsteady.halted hnext
    · rintro rfl
      cases hmoves
    · rintro (rfl | rfl) <;> cases hmoves
  | true =>
    have hmoved := moved_execute hmoves a b { m with ip := m.ip + op.size }
    generalize execute op a b { m with ip := m.ip + op.size } = result at hresult hmoved
    cases hmoved with
    | jumped hlands =>
      cases hresult
      obtain ⟨next, hnext⟩ := hchecked.lands hstanding.starts hstanding.instruction hlands
      refine .stays ?_ ?_ rfl rfl rfl hnext
      · rintro rfl
        exact hlands
      · rintro (rfl | rfl) <;> exact hlands
    | entered hcall hcallee hget =>
      cases hresult
      exact .enters hcall hcallee hget rfl
    | @finished own stack leftovers value hleaves hown hcaller =>
      cases hresult
      obtain rfl := Option.some.inj (hframe.symm.trans hown)
      exact .finishes stack leftovers value hleaves hcaller rfl
    | @returned own running stack leftovers value hleaves hown hcaller =>
      obtain rfl := Option.some.inj (hframe.symm.trans hown)
      have hpushed : Steady (fun _ _ => True) _ (stateAfter (push value
          { left { m with ip := m.ip + op.size, stack, leftovers } frame with
            chunk := some running, ip := frame.returnTo })) := steady_push value
      rw [hresult] at hpushed
      change Steady _ _ after at hpushed
      exact .returns hleaves hcaller hpushed.frames hpushed.chunk hpushed.ip hpushed.halted
    | lost => cases hresult
    | refused fault => cases hresult

/-- After an instruction that was carried out, control is at an instruction again: the next one, the
target of a jump, the first one of the function that is called, or the one where a caller waits. -/
theorem calls_dispatch {m after : Machine} (hplace : m.InPlace sizes) (hintact : m.Intact)
    (hresult : dispatch m = .ok () after) :
    CallsInPlace after.heap after.frames.toList.reverse after.chunk after.ip := by
  have hpreserved := InPlace.preserved_dispatch hplace
  rw [hresult] at hpreserved
  have hkept (frames : List Frame) (chunk : Option Chunk) (ip : Nat)
      (hcalls : CallsInPlace m.heap frames chunk ip) : CallsInPlace after.heap frames chunk ip :=
    hcalls.of_closures fun _ _ _ _ h => hpreserved.closure hintact h
  cases hframe : m.frames.back? with
  | none =>
    rw [dispatch_no_call hplace hframe] at hresult
    cases hresult
  | some frame =>
    obtain ⟨function, cells, chunk, op, a, b, hstanding⟩ := hplace.standing hframe
    have hstays {ip : Nat} {next : Opcode} (hnext : chunk.StartsAt ip next) :
        CallsInPlace after.heap m.frames.toList.reverse m.chunk ip := by
      rw [frames_eq hframe, hstanding.running]
      exact hkept _ _ _ (.call hstanding.closure hstanding.own hnext hstanding.callers)
    cases Standing.flows hplace hstanding hframe hresult with
    | stays _ _ hframes hchunk _ hnext =>
      rw [hframes, hchunk]
      exact hstays hnext
    | @enters closure prototype inner hcall _ hget hafter =>
      subst hcall hafter
      obtain ⟨globals, -, callee, outer, rfl, hcallee, -⟩ := hplace.stocked closure prototype inner hget
      obtain ⟨_, enclosing, -, hverified, -⟩ := hplace.stocked.verified hstanding.closure
      cases hcallee with
      | intro hown hinner _ _ =>
        obtain ⟨first, hfirst⟩ := hinner.first
        cases hverified with
        | intro houter hchecked _ _ =>
          obtain rfl := Option.some.inj (hstanding.own.symm.trans houter)
          obtain ⟨next, hnext⟩ := hchecked.next m.ip .call hstanding.starts rfl
          have hwaiting := hstays hnext
          simp only [entered, Array.toList_push, List.reverse_append, List.reverse_singleton,
            List.singleton_append, Option.bind_some, hown]
          exact .call hget hown hfirst hwaiting
    | returns _ hcaller hframes hchunk hip =>
      rw [hframes, hchunk, hip, ← hcaller]
      exact hkept _ _ _ hstanding.callers
    | finishes stack leftovers value _ hcaller hafter =>
      subst hafter
      have hcallers := hkept _ _ _ hstanding.callers
      rw [hcaller] at hcallers
      generalize hrest : m.frames.pop.toList.reverse = rest at hcallers
      cases hcallers with
      | host =>
        change CallsInPlace _ m.frames.pop.toList.reverse none _
        rw [hrest]
        exact .host

end Exec

end OwnScript
