import OwnScript.Proofs.Host.Invariants
import OwnScript.Proofs.Machine.Control

/-!
Calls stay in place, whatever units a machine has served. Every closure on the heap is that of a function
that was accepted with its unit, and while a request is served each active call runs the code of its closure
and waits or stands at an instruction of it.
-/

namespace OwnScript

open Stateful

namespace Machine

/-- A collection loses closures and makes none. -/
theorem closures_collectGarbage {m : Machine} (hidle : m.heap.Idle) {ref : Ref}
    {prototype : Option Prototype} {cells : Array (Option Ref)}
    (hclosure : m.collectGarbage.heap.get? ref = some (.closure prototype cells)) :
    m.heap.get? ref = some (.closure prototype cells) := by
  have hspec := Heap.collect_spec hidle m.roots
  by_cases hreach : m.heap.Reachable m.roots ref
  · rwa [← hspec.reached ref hreach]
  · have hlost := hspec.lost ref hreach
    change (m.heap.collect m.roots).1.get? ref = _ at hclosure
    rw [hclosure] at hlost
    cases hlost

theorem orderly_ofConfig (config : Config) : (ofConfig config).Orderly :=
  ⟨⟨(Heap.sound_ofConfig _).bounded, (Heap.sound_ofConfig _).idle, (Heap.sound_ofConfig _).accounted⟩,
    fun _ hentry => absurd hentry (by simp [ofConfig])⟩

/-- Open cells are among the roots of a collection. -/
theorem Orderly.collectGarbage {m : Machine} (horderly : m.Orderly) : m.collectGarbage.Orderly := by
  refine ⟨horderly.heap.collect m.roots, fun entry hentry => ?_⟩
  obtain ⟨state, hstate⟩ := horderly.cells entry hentry
  have hroot : m.heap.Reachable m.roots entry.cell := .root (cell_mem_roots hentry) rfl
  exact ⟨state, ((Heap.collect_spec horderly.heap.idle m.roots).reached _ hroot).trans hstate⟩

theorem size_left (m : Machine) (frame : Frame) : (Exec.left m frame).stack.size = frame.base - 1 := by
  simp only [Exec.left, resizeStack, stack_cut, closeCells_eq, Array.size_append, Array.size_shrink,
    Array.size_replicate]
  omega

theorem Orderly.safepoint {m : Machine} (horderly : m.Orderly) : m.safepoint.Orderly := by
  obtain ⟨trace, hcollected | hsame⟩ := m.safepoint_cases
  · rw [hcollected]
    exact horderly.collectGarbage.of_eq rfl rfl
  · rw [hsame]
    exact horderly.of_eq rfl rfl

theorem Stocked.of_closures {sizes : Nat → Prop} {m after : Machine} (hstocked : m.Stocked sizes)
    (hclosures : ∀ ref prototype cells, after.heap.get? ref = some (.closure prototype cells) →
      m.heap.get? ref = some (.closure prototype cells) ∨ VerifiedFor sizes prototype cells) :
    after.Stocked sizes := by
  intro ref prototype cells hclosure
  rcases hclosures ref prototype cells hclosure with hold | hnew
  · exact hstocked ref prototype cells hold
  · exact hnew

theorem Stocked.reset {sizes : Nat → Prop} {m : Machine} (hstocked : m.Stocked sizes) :
    m.reset.Stocked sizes :=
  hstocked.of_closures (preserved_closeCells m 0).closures

end Machine

namespace Exec

open Machine

variable {sizes : Nat → Prop}

/-- An allocation for the host makes the object that it is asked for, and no other. -/
theorem made_allocateForHost (object : Object) {m : Machine} (horderly : m.Orderly) :
    (∀ ref prototype cells, (stateAfter (allocateForHost object m)).heap.get? ref =
        some (.closure prototype cells) →
      m.heap.get? ref = some (.closure prototype cells) ∨ object = .closure prototype cells) ∧
    ∀ ref after, allocateForHost object m = .ok ref after → after.heap.get? ref = some object := by
  have hlinked {heap parked : Heap} (halike : Heap.Alike heap parked) (ref : Ref)
      (prototype : Option Prototype) (cells : Array (Option Ref))
      (hclosure : (parked.link object).get? ref = some (.closure prototype cells)) :
      heap.get? ref = some (.closure prototype cells) ∨ object = .closure prototype cells := by
    rw [Heap.get?_link] at hclosure
    split at hclosure
    · exact .inr (Option.some.inj hclosure)
    · exact .inl ((halike.get? ref).symm.trans hclosure)
  have hnew (heap : Heap) : (heap.link object).get? heap.nextRef = some object := by
    rw [Heap.get?_link, if_pos rfl]
  simp only [allocateForHost]
  obtain ⟨parked, halike, ⟨fault, hresult⟩ | ⟨-, hresult⟩⟩ := onHeap_allocate_parks object m
  · rw [hresult]
    have hidle : Heap.Idle (Machine.heap { m with heap := parked }) := (horderly.heap.of_alike halike).idle
    have hcollected (ref : Ref) (prototype : Option Prototype) (cells : Array (Option Ref))
        (h : (Machine.collectGarbage { m with heap := parked }).heap.get? ref =
          some (.closure prototype cells)) : m.heap.get? ref = some (.closure prototype cells) :=
      (halike.get? ref).symm.trans (closures_collectGarbage hidle h)
    dsimp only
    obtain ⟨again, hagain, ⟨fault, hsecond⟩ | ⟨-, hsecond⟩⟩ :=
      onHeap_allocate_parks object (Machine.collectGarbage { m with heap := parked })
    · rw [hsecond]
      refine ⟨fun ref prototype cells h => ?_, fun ref after h => by cases h⟩
      exact .inl (hcollected ref prototype cells ((hagain.get? ref).symm.trans h))
    · rw [hsecond]
      refine ⟨fun ref prototype cells h => ?_, fun ref after h => ?_⟩
      · exact (hlinked hagain ref prototype cells h).imp_left (hcollected ref prototype cells)
      · cases h
        exact hnew again
  · rw [hresult]
    refine ⟨fun ref prototype cells h => hlinked halike ref prototype cells h, fun ref after h => ?_⟩
    cases h
    exact hnew parked

theorem stocked_makeString {m : Machine} (horderly : m.Orderly) (hstocked : m.Stocked sizes) (text : String) :
    (stateAfter (makeString text m)).Stocked sizes := by
  have hallocated : (stateAfter (allocateForHost (.string text) m)).Stocked sizes :=
    hstocked.of_closures fun ref prototype cells hclosure =>
      ((made_allocateForHost (.string text) horderly).1 ref prototype cells hclosure).imp_right fun h => by cases h
  simp only [makeString]
  rw [stateAfter_bind]
  generalize allocateForHost (.string text) m = result at hallocated ⊢
  cases result with
  | ok ref after => exact hallocated
  | error fault after => exact hallocated

/-- The machine after the closure of a script was put on the stack and entered. -/
def scriptStarted (unit : CodeUnit) (script : Ref) (m : Machine) : Machine :=
  { m with
    stack := m.stack.push (.ofRef script)
    frames := m.frames.push
      { base := 1, returnTo := 0, caller := none, closure := script, argumentCount := 0 }
    chunk := unit.script.bind (·.chunk)
    ip := 0 }

theorem startScript_cases (unit : CodeUnit) (script : Ref) (m : Machine) :
    startScript unit script m = .ok () (scriptStarted unit script m) ∨
      startScript unit script m = .error (.failure (.plain .stackOverflow "operand stack overflow")) m := by
  by_cases hfull : m.config.maxStackSize.toNat ≤ m.stack.size
  · refine .inr ?_
    simp only [startScript, push]
    rw [bind_apply, get_bind_apply, if_pos hfull]
    rfl
  · refine .inl ?_
    simp only [startScript, push]
    rw [bind_apply, get_bind_apply, if_neg hfull]
    rfl

/-- A run of a unit starts at the first instruction of its script. -/
theorem inPlace_enterScript {unit : CodeUnit} (hsizes : sizes unit.globalNames.size) {m : Machine}
    (horderly : m.Orderly) (hstocked : m.Stocked sizes) :
    (stateAfter (enterScript unit m)).Stocked sizes ∧
      ∀ start, enterScript unit m = .ok () start → start.InPlace sizes := by
  rw [enterScript_eq]
  cases hverified : unit.verify with
  | error diagnostic => exact ⟨hstocked, fun start h => by cases h⟩
  | ok value =>
    obtain ⟨script, hscript, hchecked⟩ := CodeUnit.verify_ok hverified
    obtain ⟨chunk, hchunk, hown⟩ : ∃ chunk, script.chunk = some chunk ∧
        script.Checked unit.globalNames.size none chunk := by
      cases hchecked with
      | intro hchunk hown _ _ => exact ⟨_, hchunk, hown⟩
    have hclosure : Object.unboundClosure unit.script = .closure (some script) #[] := by
      rw [hscript, Object.unboundClosure]
      simp [hchecked.captures_eq_empty]
    have hready : (m.prepared unit).Orderly := (tended_closeCells horderly 0).1.orderly.of_eq rfl rfl
    have hprepared : (m.prepared unit).Stocked sizes := hstocked.reset
    obtain ⟨hmade, hthere⟩ := made_allocateForHost (.unboundClosure unit.script) hready
    obtain ⟨heap, hrest⟩ := rest_allocateForHost (.unboundClosure unit.script) (m.prepared unit)
    have hallocated : (stateAfter (allocateForHost (.unboundClosure unit.script) (m.prepared unit))).Stocked
        sizes := by
      refine hprepared.of_closures fun ref prototype cells h => (hmade ref prototype cells h).imp_right ?_
      intro hobject
      rw [hclosure] at hobject
      cases hobject
      exact ⟨unit.globalNames.size, hsizes, script, none, rfl, hchecked, by simp [hchecked.captures_eq_empty]⟩
    dsimp only
    rw [stateAfter_bind, bind_apply]
    cases hresult : allocateForHost (.unboundClosure unit.script) (m.prepared unit) with
    | error fault after =>
      rw [hresult] at hallocated
      exact ⟨hallocated, fun start h => by cases h⟩
    | ok ref after =>
      rw [hresult] at hallocated hrest
      have hframes : after.frames = #[] := congrArg Machine.frames hrest
      have hget := (hthere ref after hresult).trans (congrArg some hclosure)
      obtain ⟨first, hfirst⟩ := hown.first
      rcases startScript_cases unit ref after with hstarted | hrefused
      · dsimp only
        rw [hstarted]
        refine ⟨hallocated, fun start h => ?_⟩
        cases h
        refine ⟨hallocated, ?_⟩
        have hcode : unit.script.bind (·.chunk) = some chunk := by rw [hscript, Option.bind_some, hchunk]
        simp only [scriptStarted, hframes, hcode]
        exact .call hget hchunk hfirst .host
      · dsimp only
        rw [hrefused]
        exact ⟨hallocated, fun start h => by cases h⟩

/-- A call by the host is entered with its arguments on the stack, or nothing stays active. -/
theorem beginCall_cases (function : String) (callee : Value) (arguments : List Value) (m : Machine) :
    ∃ pushed, Steady (fun _ _ => False) m pushed ∧
      ((∃ closure prototype cells, pushed.heap.get? closure = some (.closure prototype cells) ∧
        beginCall function callee arguments m =
          .ok () (entered pushed closure prototype arguments.length)) ∨
      ∃ fault, beginCall function callee arguments m = .error fault pushed ∨
        beginCall function callee arguments m = .error fault pushed.reset) := by
  have hpushes : Steady (fun _ _ => False) m
      (stateAfter ((push callee >>= fun _ => pushAll arguments) m)) :=
    steady_bind (steady_push callee) fun _ _ _ => steady_pushAll arguments
  have hsplit : (push callee >>= fun _ => pushAll arguments >>= fun _ =>
        callValue callee arguments.length) m =
      match (push callee >>= fun _ => pushAll arguments) m with
      | .ok _ pushed => callValue callee arguments.length pushed
      | .error fault pushed => .error fault pushed := by
    rw [← bind_assoc, bind_apply]
    cases (push callee >>= fun _ => pushAll arguments) m <;> rfl
  simp only [beginCall]
  rw [hsplit]
  generalize (push callee >>= fun _ => pushAll arguments) m = result at hpushes ⊢
  refine ⟨_, hpushes, ?_⟩
  cases result with
  | ok value pushed =>
    rcases callValue_cases callee arguments.length pushed with
      ⟨closure, prototype, cells, -, hget, hcall⟩ | ⟨diagnostic, -, hcall⟩
    · exact .inl ⟨closure, prototype, cells, hget, by dsimp only; rw [hcall]; rfl⟩
    · exact .inr ⟨_, .inr (by dsimp only; rw [hcall]; rfl)⟩
  | error fault pushed =>
    cases fault with
    | failure diagnostic => exact .inr ⟨_, .inr rfl⟩
    | exhausted request => exact .inr ⟨_, .inl rfl⟩
    | stray => exact .inr ⟨_, .inl rfl⟩
    | outOfFuel => exact .inr ⟨_, .inl rfl⟩

/-- A call by the host that is entered has its function at the bottom of the stack, below the arguments. -/
theorem beginCall_ok {function : String} {callee : Value} {arguments : List Value} {m start : Machine}
    (hstart : beginCall function callee arguments m = .ok () start) :
    ∃ closure prototype cells, callee = .ofRef closure ∧
      m.heap.get? closure = some (.closure prototype cells) ∧
      start =
        entered { m with stack := m.stack.push callee ++ arguments.toArray } closure prototype arguments.length := by
  simp only [beginCall] at hstart
  rw [bind_apply] at hstart
  cases hpush : push callee m with
  | error fault after =>
    rw [hpush] at hstart
    cases fault <;> cases hstart
  | ok _ first =>
    rw [hpush] at hstart
    obtain rfl := push_ok hpush
    dsimp only at hstart
    rw [bind_apply] at hstart
    cases hpushAll : pushAll arguments { m with stack := m.stack.push callee } with
    | error fault after =>
      rw [hpushAll] at hstart
      cases fault <;> cases hstart
    | ok _ pushed =>
      rw [hpushAll] at hstart
      obtain rfl := pushAll_ok hpushAll
      dsimp only at hstart
      rcases callValue_cases callee arguments.length { m with stack := m.stack.push callee ++ arguments.toArray } with
        ⟨closure, prototype, cells, rfl, hget, hcall⟩ | ⟨diagnostic, -, hcall⟩
      · rw [hcall] at hstart
        cases hstart
        exact ⟨closure, prototype, cells, rfl, hget, rfl⟩
      · rw [hcall] at hstart
        cases hstart

/-- How a run starts that a host has asked for: in one call, whose function is at the bottom of the stack. -/
structure Opening (start : Machine) (frame : Frame) : Prop where
  frames : start.frames = #[frame]
  caller : frame.caller = none
  base : frame.base = 1
  function : start.stack[0]? = some (.ofRef frame.closure)
  running : start.halted = false

theorem opening_enterScript {unit : CodeUnit} {m start : Machine} (hstart : enterScript unit m = .ok () start) :
    ∃ frame, Opening start frame := by
  rw [enterScript_eq] at hstart
  cases hverified : unit.verify with
  | error diagnostic =>
    rw [hverified] at hstart
    cases hstart
  | ok value =>
    obtain ⟨heap, hrest⟩ := rest_allocateForHost (.unboundClosure unit.script) (m.prepared unit)
    rw [hverified] at hstart
    dsimp only at hstart
    rw [bind_apply] at hstart
    cases hresult : allocateForHost (.unboundClosure unit.script) (m.prepared unit) with
    | error fault after =>
      rw [hresult] at hstart
      cases hstart
    | ok script after =>
      rw [hresult] at hstart hrest
      obtain rfl : after = { m.prepared unit with heap } := hrest
      dsimp only at hstart
      rcases startScript_cases unit script { m.prepared unit with heap } with hstarted | hrefused
      · rw [hstarted] at hstart
        cases hstart
        exact ⟨_, rfl, rfl, rfl, rfl, rfl⟩
      · rw [hrefused] at hstart
        cases hstart

theorem opening_beginCall {function : String} {callee : Value} {arguments : List Value} {m start : Machine}
    (hframes : m.frames = #[]) (hstack : m.stack = #[]) (hchunk : m.chunk = none) (hrunning : m.halted = false)
    (hstart : beginCall function callee arguments m = .ok () start) : ∃ frame, Opening start frame := by
  obtain ⟨closure, prototype, cells, rfl, -, rfl⟩ := beginCall_ok hstart
  refine ⟨_, by rw [entered, hframes]; rfl, hchunk, ?_, ?_, hrunning⟩
  · simp [hstack]
  · simp [entered, hstack]

theorem opening_enterFunction {function : String} {arguments : List Value} {m start : Machine}
    (hstart : enterFunction function arguments m = .ok () start) : ∃ frame, Opening start frame := by
  simp only [enterFunction] at hstart
  rw [get_bind_apply] at hstart
  cases hentry : m.unit.entryPoints[function]? with
  | none =>
    rw [hentry] at hstart
    cases hstart
  | some slot =>
    rw [hentry] at hstart
    dsimp only at hstart
    cases hglobal : (m.globals[slot]?).join with
    | none =>
      rw [hglobal] at hstart
      cases hstart
    | some callee =>
      rw [hglobal] at hstart
      dsimp only at hstart
      split at hstart
      · cases hstart
      · exact opening_beginCall (m := { m.reset with hostValues := [] }) rfl rfl rfl rfl hstart

/-- A call by the host starts at the first instruction of the function. -/
theorem inPlace_beginCall {m : Machine} (hstocked : m.Stocked sizes) (hframes : m.frames = #[])
    (hchunk : m.chunk = none) (function : String) (callee : Value) (arguments : List Value) :
    (stateAfter (beginCall function callee arguments m)).Stocked sizes ∧
      ∀ start, beginCall function callee arguments m = .ok () start → start.InPlace sizes := by
  obtain ⟨pushed, hsteady, ⟨closure, prototype, cells, hget, hresult⟩ | ⟨fault, hresult⟩⟩ :=
    beginCall_cases function callee arguments m
  · have hready : pushed.Stocked sizes := hstocked.of_closures fun ref prototype cells h =>
      (hsteady.closures ref prototype cells h).imp_right False.elim
    rw [hresult]
    refine ⟨hready, fun start h => ?_⟩
    cases h
    refine ⟨hready, ?_⟩
    obtain ⟨globals, -, callee, outer, rfl, hcallee, -⟩ := hready closure prototype cells hget
    cases hcallee with
    | intro hown hinner _ _ =>
      obtain ⟨first, hfirst⟩ := hinner.first
      simp only [entered, hsteady.frames, hsteady.chunk, hframes, hchunk, Option.bind_some, hown]
      exact .call hget hown hfirst .host
  · have hready : pushed.Stocked sizes := hstocked.of_closures fun ref prototype cells h =>
      (hsteady.closures ref prototype cells h).imp_right False.elim
    rcases hresult with hresult | hresult
    · rw [hresult]
      exact ⟨hready, fun start h => by cases h⟩
    · rw [hresult]
      exact ⟨hready.reset, fun start h => by cases h⟩

theorem inPlace_enterFunction {m : Machine} (hstocked : m.Stocked sizes) (function : String)
    (arguments : List Value) :
    (stateAfter (enterFunction function arguments m)).Stocked sizes ∧
      ∀ start, enterFunction function arguments m = .ok () start → start.InPlace sizes := by
  simp only [enterFunction]
  rw [get_bind_apply]
  cases m.unit.entryPoints[function]? with
  | none => exact ⟨hstocked, fun start h => by cases h⟩
  | some slot =>
    dsimp only
    cases (m.globals[slot]?).join with
    | none => exact ⟨hstocked, fun start h => by cases h⟩
    | some callee =>
      dsimp only
      split
      · exact ⟨hstocked, fun start h => by cases h⟩
      · have hidle : Machine.Stocked sizes { m.reset with hostValues := [] } := hstocked.reset
        exact inPlace_beginCall hidle rfl rfl function callee arguments

/-- What an instruction leaves that found the heap full. -/
theorem residue_of_full {m after : Machine} (hsound : m.Sound) {request : HeapExhausted}
    (hfull : dispatch m = .error (.exhausted request) after) :
    ∃ need, Residue m.wanted need m { after with ip := m.ip } := by
  obtain ⟨ρ, hcorr⟩ := hsound
  cases trial_dispatch hcorr.ready (namesAlike_self m) with
  | calm hcalm => exact absurd ⟨request, after, hfull⟩ hcalm.not_full.1
  | demands hdemands _ _ _ =>
    obtain ⟨-, hresidue, -⟩ := hdemands.full request after hfull
    exact ⟨_, hresidue⟩

/-- The machine at the instruction that a turn carries out. -/
theorem safepoint_same (m : Machine) :
    m.safepoint.config = m.config ∧ m.safepoint.frames = m.frames ∧ m.safepoint.chunk = m.chunk ∧
      m.safepoint.ip = m.ip ∧ m.safepoint.instructionStart = m.ip ∧ m.safepoint.halted = m.halted ∧
      m.safepoint.stack = m.stack := by
  obtain ⟨trace, hcollected | hsame⟩ := m.safepoint_cases
  · rw [hcollected]
    exact ⟨rfl, rfl, rfl, rfl, rfl, rfl, rfl⟩
  · rw [hsame]
    exact ⟨rfl, rfl, rfl, rfl, rfl, rfl, rfl⟩

/-- An instruction that cannot be carried out leaves the calls alone, unless a result finds no room on the
stack of the caller. -/
theorem failed_dispatch {m after : Machine} {fault : Fault} (hresult : dispatch m = .error fault after) :
    after.frames = m.frames ∧ after.chunk = m.chunk ∧ after.halted = m.halted ∨
      ∃ frame, m.frames.back? = some frame ∧ m.config.maxStackSize.toNat ≤ frame.base - 1 ∧
        ∃ diagnostic, fault = .failure diagnostic := by
  rw [dispatch_eq] at hresult
  cases hinstruction : m.instruction? with
  | none =>
    rw [hinstruction] at hresult
    cases hresult
    exact .inl ⟨rfl, rfl, rfl⟩
  | some instruction =>
    obtain ⟨op, a, b⟩ := instruction
    rw [hinstruction] at hresult
    dsimp only at hresult
    cases hmoves : op.moves with
    | false =>
      have hsteady : Steady (fun _ _ => True) { m with ip := m.ip + op.size }
          (stateAfter (execute op a b { m with ip := m.ip + op.size })) :=
        steady_execute hmoves a b fun _ _ _ _ _ _ _ => trivial
      rw [hresult] at hsteady
      exact .inl ⟨hsteady.frames, hsteady.chunk, hsteady.halted⟩
    | true =>
      have hmoved := moved_execute hmoves a b { m with ip := m.ip + op.size }
      generalize execute op a b { m with ip := m.ip + op.size } = result at hresult hmoved
      cases hmoved with
      | jumped => cases hresult
      | entered => cases hresult
      | finished => cases hresult
      | lost =>
        cases hresult
        exact .inl ⟨rfl, rfl, rfl⟩
      | refused =>
        cases hresult
        exact .inl ⟨rfl, rfl, rfl⟩
      | @returned frame chunk stack leftovers value _ hframe hcaller =>
        simp only [push] at hresult
        rw [get_bind_apply] at hresult
        split at hresult
        · rename_i hfull
          cases hresult
          have hsize := size_left { m with ip := m.ip + op.size, stack, leftovers } frame
          exact .inr ⟨frame, hframe, hfull.trans hsize.le, _, rfl⟩
        · cases hresult

/-- What is noted when an instruction starts stays noted. -/
theorem instructionStart_changes {asked : Nat → Prop} {m after : Machine} (hchanges : Changes asked m after) :
    after.instructionStart = m.instructionStart := by
  induction hchanges with
  | refl => rfl
  | tail _ hchange ih =>
    refine Eq.trans ?_ ih
    cases hchange <;> rfl

theorem dispatch_of_completed {m after : Machine} {retried : Bool} (hturn : turn retried m = .ok false after) :
    dispatch m.safepoint = .ok () after := by
  unfold turn at hturn
  generalize dispatch m.safepoint = result at hturn ⊢
  cases result with
  | ok value last =>
    cases hturn
    rfl
  | error fault last =>
    cases fault with
    | exhausted request =>
      dsimp only at hturn
      split at hturn
      · cases hturn
      · cases hturn
    | failure diagnostic => cases hturn
    | stray => cases hturn
    | outOfFuel => cases hturn

/-- An instruction that found the heap full stays where it is, and what it has made is collected. -/
theorem inPlace_of_full {m after : Machine} (horderly : m.Orderly) (hplace : m.InPlace sizes)
    (hstart : m.instructionStart = m.ip) {request : HeapExhausted}
    (hfull : dispatch m = .error (.exhausted request) after) :
    (Machine.collectGarbage { after with ip := after.instructionStart }).InPlace sizes := by
  have hpreserved := InPlace.preserved_dispatch hplace
  have hchanges : Changes (fun _ => True) m (stateAfter (dispatch m)) :=
    changes_dispatch horderly.intact fun _ _ => trivial
  rw [hfull] at hpreserved hchanges
  have hafter := hchanges.tended horderly
  have hsameStart := instructionStart_changes hchanges
  obtain ⟨hframes, hchunk, -⟩ | ⟨_, -, -, _, h⟩ := failed_dispatch hfull
  · have hstocked : after.Stocked sizes := hplace.stocked.of_preserved hpreserved
    have hback : Machine.InPlace sizes { after with ip := after.instructionStart } := by
      refine ⟨hstocked, ?_⟩
      change CallsInPlace after.heap after.frames.toList.reverse after.chunk after.instructionStart
      have hip : after.instructionStart = m.ip := hsameStart.trans hstart
      rw [hip, hframes, hchunk]
      exact hplace.calls.of_closures fun _ _ _ _ h => hpreserved.closure horderly.intact h
    exact hback.collectGarbage hafter.orderly.heap.idle
  · cases h

/-- One turn: an instruction is carried out, it gives up and will run again, or the run ends. -/
theorem inPlace_turn {m : Machine} (horderly : m.Orderly) (hplace : m.InPlace sizes) (retried : Bool) :
    (stateAfter (turn retried m)).Stocked sizes ∧
      ∀ again after, turn retried m = .ok again after → after.InPlace sizes := by
  have hready := horderly.safepoint
  have hstart := hplace.safepoint horderly.heap.idle
  have hpreserved := InPlace.preserved_dispatch hstart
  have hstocked := hstart.stocked.of_preserved hpreserved
  obtain ⟨-, -, -, hip, hbegun, -, -⟩ := safepoint_same m
  unfold turn
  cases hresult : dispatch m.safepoint with
  | ok value after =>
    rw [hresult] at hstocked
    refine ⟨hstocked, fun again last h => ?_⟩
    cases h
    exact ⟨hstocked, calls_dispatch hstart hready.intact hresult⟩
  | error fault after =>
    rw [hresult] at hstocked
    cases fault with
    | exhausted request =>
      dsimp only
      cases retried with
      | true => exact ⟨hstocked.reset, fun again last h => by cases h⟩
      | false =>
        have hback := inPlace_of_full hready hstart (hbegun.trans hip.symm) hresult
        refine ⟨hback.stocked, fun again last h => ?_⟩
        cases h
        exact hback
    | failure diagnostic => exact ⟨hstocked.reset, fun again last h => by cases h⟩
    | stray => exact ⟨hstocked, fun again last h => by cases h⟩
    | outOfFuel => exact ⟨hstocked, fun again last h => by cases h⟩

end Exec

end OwnScript
