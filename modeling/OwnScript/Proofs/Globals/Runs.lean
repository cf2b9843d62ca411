import OwnScript.Proofs.Globals.Instructions

/-!
Whole runs of machines whose calls stand at covered places. Every instruction leads to such a machine again, also
one that finds the heap full and is carried out later, so that a run never complains about an undefined global.
-/

namespace OwnScript

open Stateful

namespace Machine

variable {globals : GlobalTable} {statements : List Stmt} {originals : Originals} {loose : Set (Option Prototype)}
  {met : Bool} {m after : Machine} {known : Nat → Prop} {top : Option Bool} {frame : Frame} {function : Prototype}
  {asScript : Bool} {chunk : Chunk} {cells : Array (Option Ref)} {op : Opcode} {a b : Nat}

namespace Facing

variable (hfacing : m.Facing globals statements known top frame function asScript chunk cells op a b)

include hfacing

/-- Whoever reads a global may get hold of one of its first functions. -/
theorem assured_read (hassured : m.Assured originals loose met) (hreads : op.readsGlobal = true)
    (hloose : ∀ function ∈ loose, m.MayRun originals function) (hresult : Exec.dispatch m = .ok () after) :
    after.Assured originals ((m.place chunk loose met).looseAfter originals a op)
      ((m.place chunk loose met).metAfter a op) := by
  have hshape : (op ≠ .call ∧ ¬ op.leaves) ∧ (m.place chunk loose met).looseAfter originals a op = originals a ∧
      (m.place chunk loose met).metAfter a op = false := by
    cases op with
    | getGlobal => exact ⟨⟨by decide, by simp [Opcode.leaves]⟩, rfl, rfl⟩
    | moveGlobal => exact ⟨⟨by decide, by simp [Opcode.leaves]⟩, rfl, rfl⟩
    | _ => cases hreads
  obtain ⟨hother, hlooseAfter, hmet⟩ := hshape
  have hexecuted := hfacing.standing.dispatch_eq ▸ hresult
  obtain ⟨value, hvalue, hstack, hheap, hglobals⟩ := Exec.readGlobal_ok hreads hexecuted
  have hshelters : m.heap.Shelters (m.MayRun originals) after.heap := by
    rw [hheap]
    exact ⟨fun _ _ _ => id, hassured.guards.heap⟩
  refine hfacing.stays hassured hother hresult ?_ fun h => by rw [hmet] at h; cases h
  refine hassured.guards.pushed hloose hstack (Exec.definedSlots_dispatch hfacing.sound.intact hresult) hshelters ?_
    hglobals
  rw [hlooseAfter]
  exact hshelters.admits _ (fun _ => .inl) value (hassured.guards.globals a value hvalue)

/-- A new closure is loose at first. -/
theorem assured_closure (hassured : m.Assured originals loose met) (hop : op = .closure)
    (hloose : ∀ function ∈ loose, m.MayRun originals function) (hresult : Exec.dispatch m = .ok () after) :
    after.Assured originals ((m.place chunk loose met).looseAfter originals a op)
      ((m.place chunk loose met).metAfter a op) := by
  subst hop
  obtain ⟨prototype, hfound, hends⟩ := hfacing.gains_dispatch rfl
  rw [hresult] at hends
  obtain ⟨hgains, value, hstack, hvalue⟩ := hends
  refine hfacing.stays hassured ⟨by decide, by simp [Opcode.leaves]⟩ hresult ?_ fun h => by cases h
  refine hassured.guards.pushed hloose hstack (Exec.definedSlots_dispatch hfacing.sound.intact hresult)
    (hgains.heap.shelters hassured.guards.heap) (hvalue.mono fun other hsame => .inr ?_) fun slot found h =>
      .inl (hgains.globals ▸ h)
  obtain rfl : other = some prototype := hsame
  exact hfound

/-- A loose closure is dropped, or it becomes the value of a global that is known to start with it. -/
theorem assured_hidden (hassured : m.Assured originals loose met)
    (hhides : (m.place chunk loose met).Hides originals op a) (hresult : Exec.dispatch m = .ok () after) :
    after.Assured originals ((m.place chunk loose met).looseAfter originals a op)
      ((m.place chunk loose met).metAfter a op) := by
  have hexecuted := hfacing.standing.dispatch_eq ▸ hresult
  rcases hhides with rfl | ⟨rfl, hloose⟩
  · refine hfacing.stays hassured ⟨by decide, by simp [Opcode.leaves]⟩ hresult ?_ fun h => by cases h
    obtain ⟨_, popped, hpop, hdone⟩ := bind_eq_ok.mp hexecuted
    cases hdone
    rw [Exec.pop_eq] at hpop
    split at hpop
    · cases hpop
      exact hassured.guards.popped _ _
    · cases hpop
  · refine hfacing.stays hassured ⟨by decide, by simp [Opcode.leaves]⟩ hresult ?_ fun h => by cases h
    obtain ⟨value, hvalue, rfl⟩ := Exec.setGlobal_ok hexecuted
    have hsize : 1 < m.stack.size := by
      have hlow := hfacing.current.low
      have hbase := hfacing.current.base
      cases hfacing.fine with
      | plain _ _ hseen =>
        have hseen : 1 ≤ m.stack.size - frame.base := hseen
        omega
    exact hassured.guards.defined _ hvalue hsize fun other h => .inr (hloose h)

/-- An operation that does not touch loose closures, since all of them may run. -/
theorem assured_stays (hassured : m.Assured originals loose met) (hother : op ≠ .call ∧ ¬ op.leaves)
    (htends : Tends (m.MayRun originals) m after) (hresult : Exec.dispatch m = .ok () after) :
    after.Assured originals ((m.place chunk loose met).looseAfter originals a op)
      ((m.place chunk loose met).metAfter a op) := by
  refine hfacing.stays hassured hother hresult
    (hassured.guards.tends htends (Exec.definedSlots_dispatch hfacing.sound.intact hresult) _) fun hmet => ?_
  rw [hfacing.standing.dispatch_eq] at hresult
  cases op with
  | matchValue =>
    have hrunning : Machine.chunk { m with ip := m.ip + Opcode.matchValue.size } = some chunk :=
      hfacing.standing.running
    exact Exec.answer_matchValue hrunning hmet hresult
  | _ => cases hmet

/-- A function that may run starts at its first instruction. -/
theorem assured_call (hassured : m.Assured originals loose met) (hop : op = .call)
    (hloose : ∀ function ∈ loose, m.MayRun originals function) (htends : Tends (m.MayRun originals) m after)
    (hresult : Exec.dispatch m = .ok () after) : after.Assured originals ∅ false := by
  subst hop
  have hstill := Exec.definedSlots_dispatch hfacing.sound.intact hresult
  have hguards : after.Guards originals ∅ := hassured.guards.tends htends hstill ∅
  obtain ⟨-, -, hnext, hcallers⟩ := hfacing.covered hassured
  have hwaiting : CallsCovered originals m.heap m.definedSlots m.frames.toList.reverse
    (m.ip + Opcode.call.size) ∅ false := by
    rw [frames_eq hfacing.innermost]
    exact .call hfacing.standing.closure hfacing.standing.own
      (hnext (m.ip + Opcode.call.size) (List.mem_singleton_self _)) hcallers
  cases Exec.Standing.flows hfacing.course.inPlace hfacing.standing hfacing.innermost hresult with
  | stays hcall => exact absurd rfl hcall
  | @enters closure prototype others _ hcallee hget hafter =>
    subst hafter
    have hheight : a < m.stack.size - frame.base := by
      cases hfacing.fine with
      | plain hplain => cases hplain
      | call hheight => exact hheight
    have hbase := hfacing.current.base
    have hrun := ((hassured.guards.offers hloose).stack _ _ (by omega) hcallee closure rfl).2 prototype others hget
    obtain ⟨callee, code, rfl, hcode, hcovers⟩ := hrun
    refine ⟨hguards, ?_, fun h => by cases h⟩
    simp only [Exec.entered, Array.toList_push, List.reverse_append, List.reverse_singleton, List.singleton_append]
    exact .call hget hcode hcovers hwaiting
  | returns hleaves => rcases hleaves with h | h <;> cases h
  | finishes _ _ _ hleaves => rcases hleaves with h | h <;> cases h

/-- A caller goes on where it has been waiting. -/
theorem assured_return (hassured : m.Assured originals loose met) (hop : op.leaves)
    (htends : Tends (m.MayRun originals) m after) (hresult : Exec.dispatch m = .ok () after) :
    after.Assured originals ∅ false := by
  have hstill := Exec.definedSlots_dispatch hfacing.sound.intact hresult
  obtain ⟨-, -, -, hcallers⟩ := hfacing.covered hassured
  have hback :
    CallsCovered originals after.heap after.definedSlots m.frames.pop.toList.reverse frame.returnTo ∅ false :=
    hcallers.later (fun other _ _ _ h => hfacing.kept_closure hresult h) hstill
  refine ⟨hassured.guards.tends htends hstill ∅, ?_, fun h => by cases h⟩
  cases Exec.Standing.flows hfacing.course.inPlace hfacing.standing hfacing.innermost hresult with
  | stays _ hstays => exact absurd hop hstays
  | enters hcall =>
    subst hcall
    rcases hop with h | h <;> cases h
  | returns _ _ hframes _ hip =>
    rw [hframes, hip]
    exact hback
  | finishes stack leftovers result _ hcaller hafter =>
    have hplaced := hfacing.standing.callers
    rw [hcaller] at hplaced
    have hframes : after.frames = m.frames.pop := by rw [hafter]; rfl
    rw [hframes]
    generalize m.frames.pop.toList.reverse = rest at hplaced
    cases hplaced
    exact .host

/-- After every instruction the calls stand at covered places. -/
theorem assured (hassured : m.Assured originals loose met) (hresult : Exec.dispatch m = .ok () after) :
    ∃ loose met, after.Assured originals loose met := by
  obtain ⟨-, hhides, -, -⟩ := hfacing.covered hassured
  rcases hhides with hhides | hloose
  · exact ⟨_, _, hfacing.assured_hidden hassured hhides hresult⟩
  by_cases hreads : op.readsGlobal = true
  · exact ⟨_, _, hfacing.assured_read hassured hreads hloose hresult⟩
  by_cases hclosure : op = .closure
  · exact ⟨_, _, hfacing.assured_closure hassured hclosure hloose hresult⟩
  have hends := hfacing.tends (hassured.guards.offers hloose) hclosure (by simpa using hreads)
  rw [hresult] at hends
  by_cases hcall : op = .call
  · exact ⟨_, _, hfacing.assured_call hassured hcall hloose hends.1 hresult⟩
  by_cases hleaves : op.leaves
  · exact ⟨_, _, hfacing.assured_return hassured hleaves hends.1 hresult⟩
  · exact ⟨_, _, hfacing.assured_stays hassured ⟨hcall, hleaves⟩ hends.1 hresult⟩

/-- An instruction that fails does not complain about an undefined global. -/
theorem complains (hassured : m.Assured originals loose met) : Exec.Complains False (Exec.dispatch m) := by
  obtain ⟨hreads, -⟩ := hfacing.covered hassured
  rw [hfacing.standing.dispatch_eq]
  refine Exec.complains_execute b fun hop hundefined => ?_
  obtain ⟨value, hvalue⟩ := hreads (by rcases hop with rfl | rfl <;> rfl)
  cases hundefined.symm.trans hvalue

/-- If the heap is full, no value leads to more than before. -/
theorem shelters_full (hassured : m.Assured originals loose met) {request : HeapExhausted}
    (hfull : Exec.dispatch m = .error (.exhausted request) after) :
    m.heap.Shelters (m.MayRun originals) after.heap := by
  have hstorage : op.needsStorage = true := by
    by_contra hnone
    obtain ⟨ρ, hcorr⟩ := hfacing.sound
    have hbehind : m.ip + op.size = m.ip + op.size := rfl
    rw [hfacing.standing.dispatch_eq] at hfull
    have hcalm := Exec.calm_execute (hcorr.withIp hbehind) (Bool.eq_false_iff.mpr hnone) a b
      fun slot _ => seenAlike_self _ slot
    exact hcalm.not_full.1 ⟨_, _, hfull⟩
  obtain ⟨-, hhides, -, -⟩ := hfacing.covered hassured
  have hloose : ∀ function ∈ loose, m.MayRun originals function := by
    refine hhides.resolve_left ?_
    rintro (rfl | ⟨rfl, -⟩)
    · cases hstorage
    · cases hstorage
  by_cases hclosure : op = .closure
  · obtain ⟨prototype, -, hends⟩ := hfacing.gains_dispatch hclosure
    rw [hfull] at hends
    exact hends.1.heap.shelters hassured.guards.heap
  · have hreads : op.readsGlobal = false := by
      cases op with
      | getGlobal | moveGlobal => cases hstorage
      | _ => rfl
    have hends := hfacing.tends (hassured.guards.offers hloose) hclosure hreads
    rw [hfull] at hends
    exact hends.1.follows.shelters hends.1.offers.heap

end Facing

/-- The heap was full: the instruction will be carried out again. -/
theorem Assured.again (hassured : m.Assured originals loose met) (hunderway : m.Underway globals statements)
    (hframe : m.frames.back? = some frame) {request : HeapExhausted}
    (hfull : Exec.dispatch m = .error (.exhausted request) after) :
    Assured originals loose met { after with ip := m.ip } := by
  obtain ⟨known, top, function, asScript, chunk, cells, op, a, b, hfacing⟩ :=
    hunderway.aligned.facing hunderway.course hunderway.sound hframe
  obtain ⟨need, hresidue⟩ := Exec.residue_of_full hunderway.sound hfull
  have hpreserved := Exec.preserved_dispatch hunderway.course
  rw [hfull] at hpreserved
  have hstack := congrArg Machine.stack hresidue.rest
  have hframes := congrArg Machine.frames hresidue.rest
  have hglobals := congrArg Machine.globals hresidue.rest
  dsimp only at hstack hframes hglobals
  have hshelters : m.heap.Shelters (m.MayRun originals) after.heap := hfacing.shelters_full hassured hfull
  exact hassured.carry hstack hframes rfl hglobals hshelters
    fun frame _ _ _ h => hpreserved.closure hunderway.sound.intact h

end Machine

namespace Exec

open Machine

variable {globals : GlobalTable} {statements : List Stmt} {originals : Originals} {loose : Set (Option Prototype)}
  {met : Bool} {m after : Machine}

/-- One turn of a run: the calls stand at covered places again, or the run ends with a failure that is not about an
undefined global. -/
theorem assured_turn (hunderway : m.Underway globals statements) (hassured : m.Assured originals loose met)
    (hrunning : m.halted = false) (retried : Bool) :
    (∀ again after, turn retried m = .ok again after → ∃ loose met, after.Assured originals loose met) ∧
    ∀ diagnostic after, turn retried m = .error (.failure diagnostic) after → diagnostic.kind ≠ .undefinedGlobal := by
  have hready := hunderway.safepoint
  have hidle := hunderway.sound.idle
  have hcovered := hassured.safepoint hidle
  obtain ⟨-, -, -, hsame, hbegun, hstill, -⟩ := safepoint_same m
  have hip : m.safepoint.instructionStart = m.safepoint.ip := hbegun.trans hsame.symm
  obtain ⟨frame, hframe⟩ := hready.active (hstill.trans hrunning)
  obtain ⟨known, top, function, asScript, chunk, cells, op, a, b, hfacing⟩ :=
    hready.aligned.facing hready.course hready.sound hframe
  have hcomplains := hfacing.complains hcovered
  generalize hturn : turn retried m = outcome
  unfold turn at hturn
  cases hresult : dispatch m.safepoint with
  | ok value after =>
    rw [hresult] at hturn
    subst hturn
    refine ⟨fun again last h => ?_, fun diagnostic last h => by cases h⟩
    cases h
    exact hfacing.assured hcovered hresult
  | error fault after =>
    rw [hresult] at hturn hcomplains
    cases fault with
    | exhausted request =>
      cases retried with
      | true =>
        subst hturn
        refine ⟨(fun again last h => by cases h), fun diagnostic last h => ?_⟩
        cases h
        simp [Machine.locate, Diagnostic.plain]
      | false =>
        subst hturn
        refine ⟨fun again last h => ?_, fun diagnostic last h => by cases h⟩
        cases h
        obtain ⟨need, hresidue⟩ := residue_of_full hready.sound hresult
        have hstart := congrArg Machine.instructionStart hresidue.rest
        dsimp only at hstart
        have hback := hcovered.again hready hframe hresult
        rw [← hip, ← hstart] at hback
        have hidle : after.heap.Idle := by
          have hdispatched := sound_dispatch hready.sound
          rw [hresult] at hdispatched
          exact hdispatched.idle
        exact ⟨loose, met, hback.collectGarbage hidle⟩
    | failure diagnostic =>
      subst hturn
      refine ⟨(fun again last h => by cases h), fun found last h hkind => ?_⟩
      cases h
      exact hcomplains.global hkind
    | stray =>
      subst hturn
      exact ⟨(fun again last h => by cases h), fun diagnostic last h => by cases h⟩
    | outOfFuel =>
      subst hturn
      exact ⟨(fun again last h => by cases h), fun diagnostic last h => by cases h⟩

theorem Turns.assured {start : Machine} {retried : Bool} (hturns : Turns start retried m)
    (hunderway : start.Underway globals statements) (hassured : start.Assured originals loose met) :
    ∃ loose met, m.Assured originals loose met := by
  induction hturns with
  | start => exact ⟨loose, met, hassured⟩
  | next hbefore hrunning hturn ih =>
    obtain ⟨loose, met, hassured⟩ := ih
    exact (assured_turn (hbefore.underway hunderway) hassured hrunning _).1 _ _ hturn

/-- A run from an instruction boundary on. -/
theorem assured_runLoop (hunderway : m.Underway globals statements) (hassured : m.Assured originals loose met)
    (fuel : Nat) (retried : Bool) {diagnostic : Diagnostic}
    (hfails : runLoop fuel retried m = .error (.failure diagnostic) after) : diagnostic.kind ≠ .undefinedGlobal := by
  induction fuel generalizing m loose met retried with
  | zero => cases hfails
  | succ fuel ih =>
    simp only [runLoop] at hfails
    rw [get_bind_apply] at hfails
    split at hfails
    · cases hfails
    · rename_i hrunning
      have hrunning : m.halted = false := by simpa using hrunning
      have hturn := assured_turn hunderway hassured hrunning retried
      have hnext := underway_turn hunderway hrunning retried
      rw [bind_apply] at hfails
      generalize turn retried m = result at hturn hnext hfails
      cases result with
      | ok again middle =>
        obtain ⟨loose, met, hassured⟩ := hturn.1 again middle rfl
        exact ih (hnext.1 again middle rfl).1 hassured again hfails
      | error fault middle =>
        cases hfails
        exact hturn.2 _ _ rfl

/-- A script that may run at once starts at a covered place. -/
theorem assured_enterScript {unit : CodeUnit} {start : Machine} (hverified : unit.verify = .ok ()) (hsound : m.Sound)
    (hoffers : m.Offers (Runnable originals ∅)) (habove : m.CellsAbove)
    (hruns : Runnable originals ∅ unit.script) (hstart : enterScript unit m = .ok () start) :
    start.Assured originals ∅ false := by
  rcases enterScript_cases hverified hsound with
    ⟨base, parked, hsettled, halike, hframes, hstack, hcells, hglobals, hstarted⟩ | ⟨fault, after, -, hrefused⟩
  · cases hstarted.symm.trans hstart
    have hnone : (scriptStarted unit base.heap.nextRef
        { base with heap := parked.link (.unboundClosure unit.script) }).definedSlots = ∅ := by
      refine Set.eq_empty_of_forall_notMem ?_
      rintro slot ⟨value, hvalue⟩
      change base.globals[slot]? = _ at hvalue
      rw [hglobals, Array.getElem?_replicate] at hvalue
      split at hvalue <;> cases hvalue
    have hheap := offers_prepared hsound hoffers habove hsettled halike
    have hsize : (base.stack.push (.ofRef base.heap.nextRef)).size = 1 := by rw [hstack]; rfl
    obtain ⟨script, chunk, hscript, hchunk, hcovers⟩ := hruns
    refine ⟨⟨?_, fun i value hi hlow _ => ?_, fun value htop _ => ?_, fun slot value hvalue => ?_⟩, ?_,
      fun h => by cases h⟩
    · exact hheap.mono fun function h => by rwa [MayRun, hnone]
    · change i + 1 < (base.stack.push (.ofRef base.heap.nextRef)).size at hlow
      omega
    · change 1 < (base.stack.push (.ofRef base.heap.nextRef)).size at htop
      omega
    · have hdefined : slot ∈ (∅ : Set Nat) := hnone ▸ ⟨value, hvalue⟩
      exact hdefined.elim
    · rw [hnone]
      simp only [scriptStarted, hframes]
      have hclosure : (parked.link (.unboundClosure unit.script)).get? base.heap.nextRef =
          some (.closure (some script) (Array.replicate script.captures.size none)) := by
        rw [Heap.get?_link, if_pos halike.nextRef.symm, hscript, Object.unboundClosure]
        rfl
      exact .call hclosure hchunk hcovers .host
  · cases hrefused.symm.trans hstart

end Exec

end OwnScript
