import OwnScript.Proofs.Host.Traces

/-!
Between the requests of its host a machine is at rest: nothing of a run is left over, however the run has
ended. The call that the host has made is at the bottom of the calls, with its function in the lowest slot of
the stack, so that its end empties both; a failure empties them at once.
-/

namespace OwnScript

open Stateful

namespace Machine

/-- Nothing of a run is left over. -/
structure AtRest (m : Machine) : Prop where
  stack : m.stack = #[]
  frames : m.frames = #[]
  openCells : m.openCells = []
  chunk : m.chunk = none
  running : m.halted = false

theorem atRest_ofConfig (config : Config) : (ofConfig config).AtRest :=
  ⟨rfl, rfl, rfl, rfl, rfl⟩

theorem openCells_closeCells {m : Machine} {slot : Nat} (hslots : ∀ entry ∈ m.openCells, slot ≤ entry.slot) :
    (m.closeCells slot).openCells = [] := by
  rw [closeCells_eq]
  exact List.dropWhile_eq_nil_iff.mpr fun entry hentry => decide_eq_true (hslots entry hentry)

theorem atRest_reset (m : Machine) : m.reset.AtRest :=
  ⟨rfl, rfl, openCells_closeCells fun _ _ => Nat.zero_le _, rfl, rfl⟩

theorem AtRest.of_pinned {m : Machine} {pinned : List Value} (hidle : m.AtRest) : AtRest { m with pinned } :=
  ⟨hidle.stack, hidle.frames, hidle.openCells, hidle.chunk, hidle.running⟩

/-- The call by the host is at the bottom of the calls until it has ended, and then nothing is left. -/
structure Rooted (m : Machine) : Prop where
  bottom : m.halted = false → ∃ frame, m.frames[0]? = some frame ∧ frame.base = 1
  spent : m.halted = true → AtRest { m with halted := false }

variable {m after : Machine}

theorem Rooted.of_same (hrooted : m.Rooted) (hrunning : m.halted = false) (hframes : after.frames = m.frames)
    (hhalted : after.halted = m.halted) : after.Rooted := by
  refine ⟨fun _ => hframes ▸ hrooted.bottom hrunning, fun hover => ?_⟩
  rw [hhalted, hrunning] at hover
  cases hover

end Machine

namespace Exec

open Machine

variable {sizes : Nat → Prop} {m after start : Machine}

theorem Opening.rooted {frame : Frame} (hopening : Opening start frame) : start.Rooted := by
  refine ⟨fun _ => ⟨frame, by rw [hopening.frames]; rfl, hopening.base⟩, fun hover => ?_⟩
  rw [hopening.running] at hover
  cases hover

/-- The end of the last call leaves nothing. -/
theorem atRest_left (hslots : ∀ entry ∈ m.openCells, 0 < entry.slot) {frame : Frame}
    (hframes : m.frames = #[frame]) (hbase : frame.base = 1) (result : Value) :
    AtRest { left m frame with result, halted := false, chunk := none } := by
  refine ⟨Array.eq_empty_of_size_eq_zero ?_, ?_, openCells_closeCells fun entry hentry => ?_, rfl, rfl⟩
  · rw [size_left, hbase]
  · change m.frames.pop = #[]
    rw [hframes]
    rfl
  · rw [hbase]
    exact hslots entry hentry

theorem rooted_dispatch (hplace : m.InPlace sizes) (hshape : m.InShape) (hrooted : m.Rooted)
    (hrunning : m.halted = false) (hresult : dispatch m = .ok () after) : after.Rooted := by
  obtain ⟨bottom, hbottom, hbase⟩ := hrooted.bottom hrunning
  have hsize : 0 < m.frames.size := (Array.getElem?_eq_some_iff.mp hbottom).1
  obtain ⟨frame, hframe⟩ : ∃ frame, m.frames.back? = some frame :=
    ⟨_, Array.back?_eq_getElem?.trans (Array.getElem?_eq_getElem (by omega))⟩
  have hgoesOn (hhalted : after.halted = m.halted) (hthere : after.frames[0]? = some bottom) : after.Rooted := by
    refine ⟨fun _ => ⟨bottom, hthere, hbase⟩, fun hover => ?_⟩
    rw [hhalted, hrunning] at hover
    cases hover
  obtain ⟨function, cells, chunk, op, a, b, hstanding⟩ := hplace.standing hframe
  have hcallers := hstanding.callers
  generalize hrest : m.frames.pop.toList.reverse = rest at hcallers
  have hlength : m.frames.size - 1 = rest.length := by
    rw [← hrest]
    simp
  cases Standing.flows hplace hstanding hframe hresult with
  | stays _ _ hframes _ hhalted => exact hgoesOn hhalted (hframes ▸ hbottom)
  | enters _ _ _ hafter =>
    subst hafter
    refine hgoesOn rfl ?_
    change (m.frames.push _)[0]? = _
    rw [Array.getElem?_push, if_neg (Nat.ne_of_lt hsize)]
    exact hbottom
  | returns _ hcaller hframes _ _ hhalted =>
    rw [hcaller] at hcallers
    cases hcallers with
    | call =>
      refine hgoesOn hhalted ?_
      rw [List.length_cons] at hlength
      rw [hframes, Array.getElem?_pop, if_pos (by omega)]
      exact hbottom
  | finishes stack leftovers result _ hcaller hafter =>
    subst hafter
    rw [hcaller] at hcallers
    cases hcallers with
    | host =>
      obtain ⟨only, honly⟩ := Array.size_eq_one_iff.mp (show m.frames.size = 1 by simp at hlength; omega)
      obtain rfl : only = bottom := by simpa [honly] using hbottom
      obtain rfl : only = frame := by simpa [honly] using hframe
      have hlast := atRest_left (m := { m with ip := m.ip + op.size, stack, leftovers }) hshape.slots honly hbase
        result
      exact ⟨fun hrunning => (by cases hrunning), fun _ => hlast⟩

theorem atRest_failed_turn {retried : Bool} {diagnostic : Diagnostic}
    (hturn : turn retried m = .error (.failure diagnostic) after) : after.AtRest := by
  unfold turn at hturn
  cases hresult : dispatch m.safepoint with
  | ok value last =>
    rw [hresult] at hturn
    cases hturn
  | error fault last =>
    rw [hresult] at hturn
    cases fault with
    | exhausted request =>
      dsimp only at hturn
      split at hturn
      · cases hturn
        exact atRest_reset last
      · cases hturn
    | failure complaint =>
      cases hturn
      exact atRest_reset last
    | stray => cases hturn
    | outOfFuel => cases hturn

/-- An instruction that gave up has neither ended the call by the host nor begun another. -/
theorem same_gaveUp {retried : Bool} (hturn : turn retried m = .ok true after) :
    after.frames = m.frames ∧ after.halted = m.halted := by
  obtain ⟨-, hframesSame, -, -, -, hhaltedSame, -⟩ := safepoint_same m
  unfold turn at hturn
  cases hresult : dispatch m.safepoint with
  | ok value last =>
    rw [hresult] at hturn
    cases hturn
  | error fault last =>
    rw [hresult] at hturn
    cases fault with
    | exhausted request =>
      dsimp only at hturn
      split at hturn
      · cases hturn
      · cases hturn
        obtain ⟨hframes, -, hhalted⟩ | ⟨_, -, -, _, h⟩ := failed_dispatch hresult
        · exact ⟨hframes.trans hframesSame, hhalted.trans hhaltedSame⟩
        · cases h
    | failure diagnostic => cases hturn
    | stray => cases hturn
    | outOfFuel => cases hturn

theorem rooted_turn (htrim : Trim m) (hplace : m.InPlace sizes) (hrooted : m.Rooted) (hrunning : m.halted = false)
    {retried again : Bool} (hturn : turn retried m = .ok again after) : after.Rooted := by
  cases again with
  | true =>
    obtain ⟨hframes, hhalted⟩ := same_gaveUp hturn
    exact hrooted.of_same hrunning hframes hhalted
  | false =>
    obtain ⟨-, hframes, -, -, -, hhalted, -⟩ := safepoint_same m
    have hready := hrooted.of_same hrunning hframes hhalted
    have hshape := ((enduring_shape m).good_safepoint htrim.good).holds.1
    exact rooted_dispatch (hplace.safepoint htrim.orderly.heap.idle) hshape hready (hhalted.trans hrunning)
      (dispatch_of_completed hturn)

theorem atRest_runLoop (htrim : Trim m) (hplace : m.InPlace fun _ => True) (hrooted : m.Rooted) {fuel : Nat}
    {retried : Bool} (hanswered : Answered (runLoop fuel retried m)) :
    (stateAfter (runLoop fuel retried m)).AtRest := by
  induction fuel generalizing m retried with
  | zero => cases hanswered
  | succ fuel ih =>
    cases hhalted : m.halted with
    | true =>
      rw [runLoop_halted hhalted]
      exact hrooted.spent hhalted
    | false =>
      rw [runLoop_running hhalted, bind_apply] at hanswered ⊢
      cases hturn : turn retried m with
      | ok again after =>
        rw [hturn] at hanswered
        obtain ⟨htrimAfter, hplaceAfter⟩ := (kept_inPlace.turn ⟨htrim, hplace⟩ hhalted retried).2 _ _ hturn
        exact ih htrimAfter hplaceAfter (rooted_turn htrim hplace hrooted hhalted hturn) hanswered
      | error fault after =>
        rw [hturn] at hanswered
        cases hanswered
        exact atRest_failed_turn hturn

/-- A step that starts a run, and the run. -/
theorem atRest_bind_runLoop {x : Exec Unit} {fuel : Nat}
    (hfails : ∀ diagnostic after, x m = .error (.failure diagnostic) after → after.AtRest)
    (hstarts : ∀ start, x m = .ok () start →
      (Trim start ∧ start.InPlace fun _ => True) ∧ ∃ frame, Opening start frame)
    (hanswered : Answered ((x >>= fun _ => runLoop fuel false) m)) :
    (stateAfter ((x >>= fun _ => runLoop fuel false) m)).AtRest := by
  rw [bind_apply] at hanswered ⊢
  cases hresult : x m with
  | ok value start =>
    rw [hresult] at hanswered
    obtain ⟨⟨htrim, hplace⟩, frame, hopening⟩ := hstarts start hresult
    exact atRest_runLoop htrim hplace hopening.rooted hanswered
  | error fault after =>
    rw [hresult] at hanswered
    cases hanswered
    exact hfails _ _ hresult

theorem atRest_allocateForHost (hidle : m.AtRest) (object : Object) :
    (stateAfter (allocateForHost object m)).AtRest := by
  obtain ⟨heap, hrest⟩ := rest_allocateForHost object m
  rw [hrest]
  exact ⟨hidle.stack, hidle.frames, hidle.openCells, hidle.chunk, hidle.running⟩

theorem atRest_makeString (hidle : m.AtRest) (text : String) : (stateAfter (makeString text m)).AtRest := by
  have hallocated := atRest_allocateForHost hidle (.string text)
  simp only [makeString]
  rw [stateAfter_bind]
  generalize allocateForHost (.string text) m = result at hallocated ⊢
  cases result with
  | ok ref after => exact ⟨hallocated.stack, hallocated.frames, hallocated.openCells, hallocated.chunk,
      hallocated.running⟩
  | error fault after => exact hallocated

theorem atRest_failed_enterScript (hidle : m.AtRest) {unit : CodeUnit} {diagnostic : Diagnostic}
    (hfails : enterScript unit m = .error (.failure diagnostic) after) : after.AtRest := by
  rw [enterScript_eq] at hfails
  cases hverified : unit.verify with
  | error flaw =>
    rw [hverified] at hfails
    cases hfails
    exact hidle
  | ok value =>
    have hready := atRest_reset m
    have hprepared : (m.prepared unit).AtRest :=
      ⟨hready.stack, hready.frames, hready.openCells, hready.chunk, hready.running⟩
    have hallocated := atRest_allocateForHost hprepared (.unboundClosure unit.script)
    rw [hverified] at hfails
    dsimp only at hfails
    rw [bind_apply] at hfails
    generalize allocateForHost (.unboundClosure unit.script) (m.prepared unit) = result at hallocated hfails
    cases result with
    | error fault last =>
      cases hfails
      exact hallocated
    | ok script last =>
      dsimp only at hfails
      rcases startScript_cases unit script last with hstarted | hrefused
      · rw [hstarted] at hfails
        cases hfails
      · rw [hrefused] at hfails
        cases hfails
        exact hallocated

theorem atRest_failed_beginCall {function : String} {callee : Value} {arguments : List Value}
    {diagnostic : Diagnostic} (hfails : beginCall function callee arguments m = .error (.failure diagnostic) after) :
    after.AtRest := by
  simp only [beginCall] at hfails
  generalize (push callee >>= fun _ => pushAll arguments >>= fun _ => callValue callee arguments.length) m = result
    at hfails
  cases result with
  | ok value last => cases hfails
  | error fault last =>
    cases fault with
    | failure complaint =>
      cases hfails
      exact atRest_reset last
    | exhausted request => cases hfails
    | stray => cases hfails
    | outOfFuel => cases hfails

theorem atRest_failed_enterFunction (hidle : m.AtRest) {function : String} {arguments : List Value}
    {diagnostic : Diagnostic} (hfails : enterFunction function arguments m = .error (.failure diagnostic) after) :
    after.AtRest := by
  simp only [enterFunction] at hfails
  rw [get_bind_apply] at hfails
  cases hentry : m.unit.entryPoints[function]? with
  | none =>
    rw [hentry] at hfails
    cases hfails
    exact hidle
  | some slot =>
    rw [hentry] at hfails
    dsimp only at hfails
    cases hglobal : (m.globals[slot]?).join with
    | none =>
      rw [hglobal] at hfails
      cases hfails
      exact hidle
    | some callee =>
      rw [hglobal] at hfails
      dsimp only at hfails
      split at hfails
      · cases hfails
        exact hidle
      · exact atRest_failed_beginCall (m := { m.reset with hostValues := [] }) hfails

theorem atRest_load (hkept : Trim m ∧ m.Stocked fun _ => True) (hidle : m.AtRest) {fuel : Nat} {unit : CodeUnit}
    (hanswered : Answered (load fuel unit m)) : (stateAfter (load fuel unit m)).AtRest := by
  rw [load_eq] at hanswered ⊢
  refine atRest_bind_runLoop (fun _ _ => atRest_failed_enterScript hidle) (fun start hstart => ?_) hanswered
  exact ⟨(kept_inPlace.script trivial hkept).2 start hstart, opening_enterScript hstart⟩

theorem atRest_withPinned {α : Type} {values : List Value} {step : Exec α}
    (hstep : Answered (step { m with pinned := m.pinned ++ values }) →
      (stateAfter (step { m with pinned := m.pinned ++ values })).AtRest)
    (hanswered : Answered (withPinned values step m)) : (stateAfter (withPinned values step m)).AtRest := by
  simp only [withPinned] at hanswered ⊢
  generalize step { m with pinned := m.pinned ++ values } = result at hstep hanswered ⊢
  cases result with
  | ok value after =>
    have hidle := hstep (.value value after)
    exact hidle.of_pinned
  | error fault after =>
    cases hanswered
    have hidle := hstep (.failure _ after)
    exact hidle.of_pinned

theorem atRest_callGlobal (hkept : Trim m ∧ m.Stocked fun _ => True) (hidle : m.AtRest) {fuel : Nat}
    {function : String} {arguments : List Value} (hanswered : Answered (callGlobal fuel function arguments m)) :
    (stateAfter (callGlobal fuel function arguments m)).AtRest := by
  rw [callGlobal_eq] at hanswered ⊢
  refine atRest_withPinned (atRest_bind_runLoop (fun _ _ => atRest_failed_enterFunction hidle.of_pinned)
    fun start hstart => ?_) hanswered
  have hpinned : Trim { m with pinned := m.pinned ++ arguments } ∧ _ := kept_inPlace.pinned trivial hkept
  exact ⟨(kept_inPlace.function rfl hpinned function).2 start hstart, opening_enterFunction hstart⟩

theorem atRest_run (hkept : Trim m ∧ m.Stocked fun _ => True) (hidle : m.AtRest) {fuel : Nat} {unit : CodeUnit}
    {entry : String} {arguments : List Value} (hanswered : Answered (run fuel unit entry arguments m)) :
    (stateAfter (run fuel unit entry arguments m)).AtRest := by
  have hpinned : Trim { m with pinned := m.pinned ++ arguments } ∧ _ := kept_inPlace.pinned trivial hkept
  have hloaded := @Kept.load _ _ _ _ _ unit kept_inPlace trivial hpinned fuel
  refine atRest_withPinned (fun hstep => ?_) hanswered
  rw [bind_apply] at hstep ⊢
  cases hload : load fuel unit { m with pinned := m.pinned ++ arguments } with
  | error fault after =>
    rw [hload] at hstep
    cases hstep
    have hafter := atRest_load hpinned hidle.of_pinned (by rw [hload]; exact .failure _ after)
    rwa [hload] at hafter
  | ok value after =>
    have hafter := atRest_load hpinned hidle.of_pinned (by rw [hload]; exact .value value after)
    rw [hload] at hstep hloaded hafter
    dsimp only at hstep ⊢
    split at hstep
    · rename_i hentry
      rw [if_pos hentry]
      exact hafter
    · rename_i hentry
      rw [if_neg hentry]
      exact atRest_callGlobal hloaded hafter hstep

theorem answered_discard {α : Type} {x : Exec α} (hanswered : Answered ((discard x : Exec Unit) m)) :
    Answered (x m) := by
  change Answered (((fun _ => ()) <$> x : Exec Unit) m) at hanswered
  rw [map_apply] at hanswered
  generalize x m = result at hanswered ⊢
  cases result with
  | ok value after => exact .value value after
  | error fault after =>
    cases hanswered
    exact .failure _ after

/-- A request that is answered leaves nothing behind. -/
theorem atRest_serve (hkept : Trim m ∧ m.Stocked fun _ => True) (hidle : m.AtRest) {fuel : Nat}
    {request : HostRequest} (hanswered : Answered (serve fuel request m)) :
    (stateAfter (serve fuel request m)).AtRest := by
  cases request with
  | makeString text =>
    simp only [serve, stateAfter_discard]
    exact atRest_makeString hidle text
  | execute unit =>
    simp only [serve, stateAfter_discard]
    exact atRest_load hkept hidle (answered_discard hanswered)
  | call function arguments =>
    simp only [serve, stateAfter_discard]
    exact atRest_callGlobal hkept hidle (answered_discard hanswered)
  | run unit entry arguments =>
    simp only [serve, stateAfter_discard]
    exact atRest_run hkept hidle (answered_discard hanswered)
  | collect => exact ⟨hidle.stack, hidle.frames, hidle.openCells, hidle.chunk, hidle.running⟩

/-- What a host hands in is let go again. -/
theorem pinned_serve (fuel : Nat) (request : HostRequest) (m : Machine) :
    (stateAfter (serve fuel request m)).pinned = m.pinned := by
  cases request with
  | makeString text =>
    simp only [serve, stateAfter_discard, makeString]
    have hattached := (attached_allocateForHost (.string text) m).pinned
    rw [stateAfter_bind]
    generalize allocateForHost (.string text) m = result at hattached ⊢
    cases result with
    | ok ref after => exact hattached
    | error fault after => exact hattached
  | execute unit =>
    simp only [serve, stateAfter_discard]
    exact pinned_load fuel unit m
  | call function arguments =>
    simp only [serve, stateAfter_discard, callGlobal_eq]
    exact pinned_withPinned arguments _ m
  | run unit entry arguments =>
    simp only [serve, stateAfter_discard]
    exact pinned_withPinned arguments _ m
  | collect => rfl

/-- A host that hands in scalars. -/
def handsInScalars (request : HostRequest) : Prop :=
  ∃ arguments : List Scalar, request.arguments = arguments.map .scalar

/-- A machine that has served its host: any requests, all of them answered. -/
inductive History (config : Config) : Machine → Prop where
  | fresh : History config (.ofConfig config)
  | next {m : Machine} {request : HostRequest} (fuel : Nat) : History config m → handsInScalars request →
      Answered (serve fuel request m) → History config (stateAfter (serve fuel request m))

variable {config : Config}

theorem History.session {allowed : Machine → HostRequest → Prop}
    (hallowed : ∀ m request, handsInScalars request → allowed m request) (hhistory : History config m) :
    Session allowed config m := by
  induction hhistory with
  | fresh => exact .fresh
  | next fuel _ hscalars _ ih => exact .next fuel ih (hallowed _ _ hscalars)

theorem handsInGoodValues_of_scalars (m : Machine) {request : HostRequest} (hscalars : handsInScalars request) :
    handsInGoodValues m request := by
  obtain ⟨arguments, harguments⟩ := hscalars
  intro value hvalue
  exact accepts_scalars m arguments value (harguments ▸ hvalue)

theorem History.sound (hhistory : History config m) : m.Sound :=
  (hhistory.session fun _ _ hscalars => hscalars).sound fun before _ hscalars =>
    handsInGoodValues_of_scalars before hscalars

theorem History.kept (hhistory : History config m) : Trim m ∧ m.Stocked fun _ => True :=
  have hsession : Session doesAnything config m := hhistory.session fun _ _ _ => trivial
  kept_inPlace.session (fun _ _ _ => ⟨trivial, fun _ _ _ _ => trivial⟩) hsession

theorem History.atRest (hhistory : History config m) : m.AtRest ∧ m.pinned = [] := by
  induction hhistory with
  | fresh => exact ⟨atRest_ofConfig config, rfl⟩
  | next fuel hbefore _ hanswered ih =>
    exact ⟨atRest_serve hbefore.kept ih.1 hanswered, (pinned_serve fuel _ _).trans ih.2⟩

end Exec

end OwnScript
