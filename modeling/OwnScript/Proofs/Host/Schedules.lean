import OwnScript.Proofs.Machine.Schedules

/-!
Runs under two schedules of collections. A run of one machine takes at most twice as many turns as the
run of the other, since an instruction runs at most twice. Both runs print the same and end with the
same value up to the choice of references, or with the same failure, if one of them finds every slot that
its instructions name below the top of the stack. What an instruction finds above the top depends on the
collections, since they do not look there.
-/

namespace OwnScript

open Stateful

namespace Exec

open Machine

variable {ρ : Renaming} {left right m : Machine}

section Turns

/-- The result of a turn in which an instruction came to its end. -/
def done : EStateM.Result Fault Machine Unit → EStateM.Result Fault Machine Bool
  | .ok () after => .ok false after
  | .error fault after => .error fault after

/-- The rest of a run after an instruction. -/
def goOn (fuel : Nat) : EStateM.Result Fault Machine Unit → EStateM.Result Fault Machine Value
  | .ok () after => runLoop fuel false after
  | .error fault after => .error fault after

theorem turn_of_not_full (retried : Bool) (hplain : ¬ Full (dispatch m.safepoint)) :
    turn retried m = done (conclude (dispatch m.safepoint)) := by
  unfold turn
  generalize dispatch m.safepoint = result at hplain ⊢
  cases result with
  | ok value after => rfl
  | error fault after =>
    cases fault with
    | exhausted request => exact absurd ⟨_, _, rfl⟩ hplain
    | failure diagnostic => rfl
    | stray => rfl
    | outOfFuel => rfl

theorem turn_of_full {request : HeapExhausted} {after : Machine}
    (hfull : dispatch m.safepoint = .error (.exhausted request) after) :
    turn false m = .ok true (again after) := by
  unfold turn
  rw [hfull]
  rfl

theorem turn_of_full_again {request : HeapExhausted} {after : Machine}
    (hfull : dispatch m.safepoint = .error (.exhausted request) after) :
    turn true m = done (raise (outOfMemory request) after) := by
  unfold turn
  rw [hfull]
  rfl

theorem runLoop_running (hrunning : m.halted = false) (fuel : Nat) (retried : Bool) :
    runLoop (fuel + 1) retried m = (turn retried >>= runLoop fuel) m := by
  simp only [runLoop]
  rw [get_bind_apply, hrunning]
  rfl

theorem runLoop_halted (hhalted : m.halted = true) (fuel : Nat) (retried : Bool) :
    runLoop (fuel + 1) retried m = .ok m.result { m with halted := false } := by
  simp only [runLoop]
  rw [get_bind_apply, hhalted]
  rfl

/-- An instruction that gives up does not end the run. -/
theorem halted_again {request : HeapExhausted} {after : Machine} (hsound : m.Sound)
    (hfull : dispatch m.safepoint = .error (.exhausted request) after) :
    (again after).halted = m.halted := by
  obtain ⟨ρ, hcorr⟩ := hsound.safepoint
  have hkept : after.halted = m.safepoint.halted := by
    cases trial_dispatch hcorr.ready (namesAlike_self _) with
    | calm hcalm => exact absurd ⟨request, after, hfull⟩ hcalm.not_full.1
    | demands hdemands _ _ _ =>
      obtain ⟨-, hresidue, -⟩ := hdemands.full request after hfull
      have hsame := congrArg Machine.halted hresidue.rest
      exact hsame
  obtain ⟨trace, hcollected | hsame⟩ := m.safepoint_cases
  · rw [hcollected] at hkept
    exact hkept
  · rw [hsame] at hkept
    exact hkept

theorem runLoop_done {result : EStateM.Result Fault Machine Unit} {retried : Bool}
    (hrunning : m.halted = false) (hturn : turn retried m = done result) (fuel : Nat) :
    runLoop (fuel + 1) retried m = goOn fuel result := by
  rw [runLoop_running hrunning, bind_apply, hturn]
  cases result <;> rfl

/-- A whole instruction takes one or two turns. -/
structure Takes (turns : Nat) (m : Machine) : Prop where
  atLeast : 1 ≤ turns
  atMost : turns ≤ 2
  enough : ∀ fuel, runLoop (fuel + turns) false m = goOn fuel (complete m)
  tooFew : ∀ fuel < turns, ∃ after, runLoop fuel false m = .error .outOfFuel after
  passes : ∀ after, complete m = .ok () after → Turns m false after

theorem takes_of_not_full (hrunning : m.halted = false) (hplain : ¬ Full (dispatch m.safepoint)) :
    Takes 1 m := by
  have hturn := turn_of_not_full false hplain
  rw [← complete_of_not_full hplain] at hturn
  refine ⟨by omega, by omega, runLoop_done hrunning hturn, fun fuel hfuel => ?_, fun after hafter => ?_⟩
  · obtain rfl : fuel = 0 := by omega
    exact ⟨m, rfl⟩
  · rw [hafter] at hturn
    exact .next .start hrunning hturn

theorem takes_of_full {request : HeapExhausted} {after : Machine} (hsound : m.Sound)
    (hrunning : m.halted = false)
    (hfull : dispatch m.safepoint = .error (.exhausted request) after) : Takes 2 m := by
  have hfirst := turn_of_full hfull
  have hagain : (again after).halted = false := (halted_again hsound hfull).trans hrunning
  have hsecond : turn true (again after) = done (complete m) := by
    by_cases hplain : Full (dispatch (again after).safepoint)
    · obtain ⟨asked, last, hlast⟩ := hplain
      rw [complete_of_full hfull hlast]
      exact turn_of_full_again hlast
    · rw [complete_of_retry hfull hplain]
      exact turn_of_not_full true hplain
  refine ⟨by omega, by omega, fun fuel => ?_, fun fuel hfuel => ?_, fun last hlast => ?_⟩
  · rw [← runLoop_done hagain hsecond, runLoop_running hrunning, bind_apply, hfirst]
  · match fuel, hfuel with
    | 0, _ => exact ⟨m, rfl⟩
    | 1, _ =>
      refine ⟨again after, ?_⟩
      rw [runLoop_running hrunning, bind_apply, hfirst]
      rfl
  · rw [hlast] at hsecond
    exact .next (.next .start hrunning hfirst) hagain hsecond

theorem exists_takes (hsound : m.Sound) (hrunning : m.halted = false) : ∃ turns, Takes turns m := by
  by_cases hfull : Full (dispatch m.safepoint)
  · obtain ⟨request, after, hfull⟩ := hfull
    exact ⟨2, takes_of_full hsound hrunning hfull⟩
  · exact ⟨1, takes_of_not_full hrunning hfull⟩

theorem Turns.trans {start middle last : Machine} {retried : Bool} (hfirst : Turns start false middle)
    (hsecond : Turns middle retried last) : Turns start retried last := by
  induction hsecond with
  | start => exact hfirst
  | next _ hrunning hturn ih => exact .next ih hrunning hturn

end Turns

/-- The objects of a run fit into the address space at all times. -/
def FitsFrom (start : Machine) : Prop :=
  ∀ retried m, Turns start retried m → Roomy m

theorem FitsFrom.sturdy (hfits : FitsFrom m) (hsound : m.Sound) (hrunning : m.halted = false) :
    Sturdy m :=
  ⟨hsound, hfits false m .start, fun _ _ hfull =>
    hfits true _ (.next .start hrunning (turn_of_full hfull))⟩

theorem FitsFrom.of_turns {after : Machine} (hfits : FitsFrom m) (hturns : Turns m false after) :
    FitsFrom after :=
  fun retried last hlast => hfits retried last (hturns.trans hlast)

/-- From here on every instruction names slots below the top only. -/
def BelowFrom (start : Machine) : Prop :=
  ∀ retried m, Turns start retried m → m.halted = false → m.StaysBelow

theorem BelowFrom.of_turns {after : Machine} (hbelow : BelowFrom m) (hturns : Turns m false after) :
    BelowFrom after :=
  fun retried last hlast => hbelow retried last (hturns.trans hlast)

/-- Whoever has asked gets an answer: a value or a failure. -/
inductive Answered {α : Type} : EStateM.Result Fault Machine α → Prop where
  | value (value : α) (after : Machine) : Answered (.ok value after)
  | failure (diagnostic : Diagnostic) (after : Machine) : Answered (.error (.failure diagnostic) after)

/-- Whether a request was answered. -/
def isAnswered {α : Type} : EStateM.Result Fault Machine α → Bool
  | .ok _ _ => true
  | .error (.failure _) _ => true
  | .error _ _ => false

theorem answered_of_isAnswered {α : Type} {result : EStateM.Result Fault Machine α}
    (hanswered : isAnswered result = true) : Answered result := by
  cases result with
  | ok value after => exact .value value after
  | error fault after =>
    cases fault with
    | failure diagnostic => exact .failure diagnostic after
    | exhausted request => cases hanswered
    | stray => cases hanswered
    | outOfFuel => cases hanswered

/-- Runs that end alike: with values that agree up to a renaming of the objects, on machines that
agree under the same renaming, or with the same failure; what was printed is the same. -/
inductive SameEnd :
    EStateM.Result Fault Machine Value → EStateM.Result Fault Machine Value → Prop where
  | value {σ : Renaming} {a b : Value} {left right : Machine} : Corresponds σ left right →
      Value.Related σ a b → SameEnd (.ok a left) (.ok b right)
  | failure {diagnostic : Diagnostic} {left right : Machine} : left.output = right.output →
      SameEnd (.error (.failure diagnostic) left) (.error (.failure diagnostic) right)

/-- If a run ends with an answer, the run of a machine that corresponds ends alike. -/
theorem sameEnd_runLoop {fuel more : Nat} (hcorr : Corresponds ρ left right) (hleft : left.Sound)
    (hright : right.Sound) (hbelow : BelowFrom left ∨ BelowFrom right) (hleftFits : FitsFrom left)
    (hrightFits : FitsFrom right) (hanswered : Answered (runLoop fuel false left))
    (hmore : 2 * fuel ≤ more) : SameEnd (runLoop fuel false left) (runLoop more false right) := by
  induction fuel using Nat.strong_induction_on generalizing more left right ρ with
  | _ fuel ih =>
    cases hhalted : left.halted with
    | true =>
      match fuel, hanswered, hmore with
      | 0, hanswered, _ => cases hanswered
      | fuel + 1, _, hmore =>
        obtain ⟨more, rfl⟩ : ∃ rest, more = rest + 1 := ⟨more - 1, by omega⟩
        rw [runLoop_halted hhalted, runLoop_halted (hcorr.halted ▸ hhalted)]
        exact .value { hcorr with halted := rfl } hcorr.result
    | false =>
      obtain ⟨leftTurns, htakes⟩ := exists_takes hleft hhalted
      obtain ⟨rightTurns, htakes'⟩ := exists_takes hright (hcorr.halted ▸ hhalted)
      have hfew : leftTurns ≤ fuel := by
        by_contra hless
        obtain ⟨after, hcut⟩ := htakes.tooFew fuel (by omega)
        rw [hcut] at hanswered
        cases hanswered
      obtain ⟨rest, rfl⟩ : ∃ rest, fuel = rest + leftTurns := ⟨fuel - leftTurns, by omega⟩
      have hone := htakes.atLeast
      have htwo := htakes'.atMost
      obtain ⟨others, rfl⟩ : ∃ others, more = others + rightTurns := ⟨more - rightTurns, by omega⟩
      rw [htakes.enough] at hanswered ⊢
      rw [htakes'.enough]
      have hhere : left.StaysBelow := by
        rcases hbelow with hbelow | hbelow
        · exact hbelow false left .start hhalted
        · exact (hbelow false right .start (hcorr.halted ▸ hhalted)).similar hcorr.swap.toSimilar
      have hconcluded := concluded_complete hcorr (hhere.safepoint hleft) (hleftFits.sturdy hleft hhalted)
        (hrightFits.sturdy hright (hcorr.halted ▸ hhalted))
      have hpasses := htakes.passes
      have hpasses' := htakes'.passes
      generalize complete left = first at hconcluded hanswered hpasses ⊢
      generalize complete right = second at hconcluded hpasses' ⊢
      cases hconcluded with
      | fault houtput =>
        cases hanswered
        exact .failure houtput
      | @ok σ leftAfter rightAfter hafter =>
        have hleftTurns := hpasses leftAfter rfl
        have hrightTurns := hpasses' rightAfter rfl
        exact ih rest (by omega) hafter (hleftTurns.sound hleft) (hrightTurns.sound hright)
          (hbelow.imp (·.of_turns hleftTurns) (·.of_turns hrightTurns)) (hleftFits.of_turns hleftTurns)
          (hrightFits.of_turns hrightTurns) hanswered (by omega)

section Entering

theorem Settled.footprint_le {base : Machine} (hsettled : m.Settled base) (hsound : m.heap.Sound) :
    base.heap.footprint ≤ m.heap.footprint := by
  cases hsettled with
  | asIs => exact le_rfl
  | @collected gaveUp hgave =>
    have hparked := hsound.of_alike hgave.heap
    have hle := (Heap.collect_spec hparked.idle gaveUp.roots).footprint_le
    rw [Heap.footprint_congr hgave.heap.get?] at hle
    exact hle

/-- If an object for the host does not fit on one side, it does not on the other. -/
theorem hostRoom_agree {object : Object} {fault : Fault} {left' : Machine}
    (hcorr : Corresponds ρ left right) (hleft : left.heap.footprint < UInt64.size)
    (hright : right.heap.footprint + object.memorySize < UInt64.size)
    (hfault : allocateForHost object left = .error fault left') :
    ∃ right', allocateForHost object right = .error hostFault right' := by
  rcases allocateForHost_cases object hcorr.heap.leftSound with
    ⟨_, _, -, -, hresult, -⟩ | ⟨gaveUp, after, hgave, -, -, hfull⟩
  · rw [hfault] at hresult
    cases hresult
  · rcases allocateForHost_cases object hcorr.heap.rightSound with
      ⟨base, parked, hbase, halike, -, hfits⟩ | ⟨_, after', -, -, hresult, -⟩
    · exfalso
      obtain ⟨σ, hboth⟩ := (Settled.collected hgave).corresponds hbase hcorr
      have hsound := hcorr.heap.leftSound.of_alike hgave.heap
      have htidy := tidy_collectGarbage hsound.idle
      have hbound := hboth.toSimilar.footprint_le htidy
      rw [hboth.slots] at hbound
      have hleftBase := Settled.footprint_le (.collected hgave) hcorr.heap.leftSound
      have hrightBase := Settled.footprint_le hbase hcorr.heap.rightSound
      have hlinked : (parked.link object).footprint = base.heap.footprint + object.memorySize := by
        rw [Heap.footprint_link (hboth.heap.rightSound.of_alike halike).bounded,
          Heap.footprint_congr halike.get?]
      have hroom := hfits (show _ < _ by omega)
      rw [live_eq_footprint hboth.heap.leftSound (show _ < _ by omega), limit_eq hboth.toSimilar] at hfull
      rw [live_eq_footprint hboth.heap.rightSound (show _ < _ by omega)] at hroom
      rw [missing_self, Finset.card_empty] at hbound
      omega
    · exact ⟨after', hresult⟩

/-- Two machines load a unit in the same way if they correspond once they are ready for it. -/
theorem concluded_enterScript {unit : CodeUnit}
    (hprepared : Corresponds ρ (left.prepared unit) (right.prepared unit))
    (hleft : unit.verify = .ok () →
      (left.prepared unit).heap.footprint + (Object.unboundClosure unit.script).memorySize < UInt64.size)
    (hright : unit.verify = .ok () →
      (right.prepared unit).heap.footprint + (Object.unboundClosure unit.script).memorySize < UInt64.size) :
    Concluded (enterScript unit left) (enterScript unit right) := by
  rw [enterScript_eq, enterScript_eq]
  cases hverified : unit.verify with
  | error diagnostic => exact .fault hprepared.output
  | ok value =>
    have hleft := hleft hverified
    have hright := hright hverified
    dsimp only
    rw [bind_apply, bind_apply]
    cases hfirst : allocateForHost (.unboundClosure unit.script) (left.prepared unit) with
    | error fault left' =>
      obtain ⟨right', hsecond⟩ := hostRoom_agree hprepared (by omega) hright hfirst
      obtain ⟨hsame, σ, hafter⟩ := corresponds_allocateForHost_error hprepared hfirst hsecond
      rw [hsecond, hsame]
      exact .fault hafter.output
    | ok a left' =>
      cases hsecond : allocateForHost (.unboundClosure unit.script) (right.prepared unit) with
      | error fault right' =>
        obtain ⟨left'', hother⟩ := hostRoom_agree hprepared.swap (by omega) hleft hsecond
        rw [hfirst] at hother
        cases hother
      | ok b right' =>
        obtain ⟨σ, hafter, hpair⟩ :=
          together_allocateForHost hprepared (related_script hverified) hfirst hsecond
        exact (calm_startScript hafter unit hpair).concluded

/-- A run that starts after a step. -/
theorem sameEnd_bind_runLoop {x y : Exec Unit} {fuel more : Nat}
    (hentered : Concluded (x left) (y right)) (hleft : (stateAfter (x left)).Sound)
    (hright : (stateAfter (y right)).Sound)
    (hbelow : (∀ start, x left = .ok () start → BelowFrom start) ∨
      ∀ start, y right = .ok () start → BelowFrom start)
    (hleftFits : ∀ start, x left = .ok () start → FitsFrom start)
    (hrightFits : ∀ start, y right = .ok () start → FitsFrom start)
    (hanswered : Answered ((x >>= fun _ => runLoop fuel false) left)) (hmore : 2 * fuel ≤ more) :
    SameEnd ((x >>= fun _ => runLoop fuel false) left) ((y >>= fun _ => runLoop more false) right) := by
  rw [bind_apply] at hanswered ⊢
  rw [bind_apply]
  generalize x left = first at hentered hleft hbelow hleftFits hanswered ⊢
  generalize y right = second at hentered hright hbelow hrightFits ⊢
  cases hentered with
  | fault houtput =>
    cases hanswered
    exact .failure houtput
  | ok hcorr =>
    exact sameEnd_runLoop hcorr hleft hright (hbelow.imp (· _ rfl) (· _ rfl)) (hleftFits _ rfl)
      (hrightFits _ rfl) hanswered hmore

theorem SameEnd.restore {step step' : Exec Value} {values : List Value}
    (hsame : SameEnd (step { left with pinned := left.pinned ++ values })
      (step' { right with pinned := right.pinned ++ values }))
    (hpinned : ∀ σ, List.Forall₂ (Value.Related σ) left.pinned right.pinned) :
    SameEnd (withPinned values step left) (withPinned values step' right) := by
  simp only [withPinned]
  generalize step { left with pinned := left.pinned ++ values } = first at hsame ⊢
  generalize step' { right with pinned := right.pinned ++ values } = second at hsame ⊢
  cases hsame with
  | value hcorr hrel => exact .value { hcorr with pinned := hpinned _ } hrel
  | failure houtput => exact .failure houtput

theorem answered_of_withPinned {step : Exec Value} {values : List Value}
    (hanswered : Answered (withPinned values step m)) :
    Answered (step { m with pinned := m.pinned ++ values }) := by
  simp only [withPinned] at hanswered
  generalize step { m with pinned := m.pinned ++ values } = result at hanswered ⊢
  cases result with
  | ok value after => exact .value value after
  | error fault after =>
    cases hanswered
    exact .failure _ after

theorem answered_of_bind {α β : Type} {step : Exec α} {next : α → Exec β}
    (hanswered : Answered ((step >>= next) m)) : Answered (step m) := by
  rw [bind_apply] at hanswered
  generalize step m = result at hanswered ⊢
  cases result with
  | ok value after => exact .value value after
  | error fault after =>
    cases hanswered
    exact .failure _ after

theorem related_scalars (σ : Renaming) (arguments : List Scalar) :
    List.Forall₂ (Value.Related σ) (arguments.map .scalar) (arguments.map .scalar) := by
  refine List.forall₂_same.mpr fun value hvalue => ?_
  obtain ⟨scalar, -, rfl⟩ := List.mem_map.mp hvalue
  exact .scalar scalar

theorem accepts_scalars (m : Machine) (arguments : List Scalar) :
    ∀ value ∈ arguments.map Value.scalar, m.Accepts value := by
  intro value hvalue
  obtain ⟨scalar, -, rfl⟩ := List.mem_map.mp hvalue
  exact .scalar scalar

/-- A call of a global function by hosts of two machines that correspond. -/
theorem sameEnd_callGlobal {fuel more : Nat} (hcorr : Corresponds ρ left right) (hleft : left.Sound)
    (hright : right.Sound) (function : String) (arguments : List Scalar)
    (hpinned : ∀ σ, List.Forall₂ (Value.Related σ) left.pinned right.pinned)
    (hbelow : ServesBelow (.call function (arguments.map .scalar)) left ∨
      ServesBelow (.call function (arguments.map .scalar)) right)
    (hleftFits : ∀ m, Passes (.call function (arguments.map .scalar)) left m → Roomy m)
    (hrightFits : ∀ m, Passes (.call function (arguments.map .scalar)) right m → Roomy m)
    (hanswered : Answered (callGlobal fuel function (arguments.map .scalar) left)) (hmore : 2 * fuel ≤ more) :
    SameEnd (callGlobal fuel function (arguments.map .scalar) left)
      (callGlobal more function (arguments.map .scalar) right) := by
  have haccepts (m : Machine) := accepts_scalars m arguments
  have hpinnedCorr : Corresponds ρ { left with pinned := left.pinned ++ arguments.map .scalar }
      { right with pinned := right.pinned ++ arguments.map .scalar } :=
    { hcorr with pinned := List.rel_append hcorr.pinned (related_scalars ρ arguments) }
  have hentered := calm_enterFunction hpinnedCorr function (related_scalars ρ arguments)
  rw [callGlobal_eq] at hanswered ⊢
  rw [callGlobal_eq]
  refine SameEnd.restore (sameEnd_bind_runLoop hentered.concluded
    (sound_enterFunction (hleft.pin (haccepts left)) function)
    (sound_enterFunction (hright.pin (haccepts right)) function) ?_ ?_ ?_ (answered_of_withPinned hanswered)
    hmore) hpinned
  · exact hbelow.imp (fun hbelow start hstart retried m hturns => hbelow m (.function hstart hturns))
      fun hbelow start hstart retried m hturns => hbelow m (.function hstart hturns)
  · intro start hstart retried m hturns
    exact hleftFits m (.function hstart hturns)
  · intro start hstart retried m hturns
    exact hrightFits m (.function hstart hturns)

end Entering

/-- The objects of a whole run fit into the address space at all times. -/
def RunFits (unit : CodeUnit) (entry : String) (arguments : List Value) (m : Machine) : Prop :=
  ∀ after, Passes (.run unit entry arguments) m after → Roomy after

/-- A new machine has nothing on its heap, also when it is ready to load a unit. -/
theorem footprint_prepared (config : Config) (values : List Value) (unit : CodeUnit) :
    (Machine.prepared { Machine.ofConfig config with pinned := values } unit).heap.footprint = 0 :=
  Heap.footprint_ofConfig config.heap

theorem memorySize_script {unit : CodeUnit} (hverified : unit.verify = .ok ()) :
    (Object.unboundClosure unit.script).memorySize = 80 := by
  obtain ⟨script, hscript, hchecked⟩ := CodeUnit.verify_ok hverified
  rw [hscript, Object.unboundClosure]
  simp [hchecked.captures_eq_empty, Object.memorySize, Object.blockSize, Object.contentSize]

/-- New machines load a unit in the same way, whatever their schedules. -/
theorem concluded_enterScript_new {machine : MachineConfig} {first second : HeapConfig}
    (hlimit : first.maxHeapBytes = second.maxHeapBytes) (unit : CodeUnit) (arguments : List Scalar) :
    Concluded
      (enterScript unit { ofConfig ⟨machine, first⟩ with pinned := arguments.map .scalar })
      (enterScript unit { ofConfig ⟨machine, second⟩ with pinned := arguments.map .scalar }) := by
  have hcorr := corresponds_ofConfig machine hlimit
  have hpinned : Corresponds _ { ofConfig ⟨machine, first⟩ with pinned := arguments.map .scalar }
      { ofConfig ⟨machine, second⟩ with pinned := arguments.map .scalar } :=
    { hcorr with pinned := related_scalars _ arguments }
  have hroom (config : Config) (hverified : unit.verify = .ok ()) :
      (Machine.prepared { ofConfig config with pinned := arguments.map .scalar } unit).heap.footprint +
        (Object.unboundClosure unit.script).memorySize < UInt64.size := by
    rw [footprint_prepared, memorySize_script hverified]
    decide
  exact concluded_enterScript (hpinned.prepared unit) (hroom _) (hroom _)

/-- Two machines that load a unit in the same way run its script alike. -/
theorem sameEnd_load {unit : CodeUnit} (hentered : Concluded (enterScript unit left) (enterScript unit right))
    (hleft : left.Sound) (hright : right.Sound)
    (hbelow : ServesBelow (.execute unit) left ∨ ServesBelow (.execute unit) right)
    (hleftFits : ∀ m, Passes (.execute unit) left m → Roomy m)
    (hrightFits : ∀ m, Passes (.execute unit) right m → Roomy m) {fuel more : Nat}
    (hanswered : Answered (load fuel unit left)) (hmore : 2 * fuel ≤ more) :
    SameEnd (load fuel unit left) (load more unit right) := by
  rw [load_eq] at hanswered ⊢
  rw [load_eq]
  refine sameEnd_bind_runLoop hentered (sound_enterScript hleft unit) (sound_enterScript hright unit) ?_ ?_ ?_
    hanswered hmore
  · exact hbelow.imp (fun hbelow start hstart retried m hturns => hbelow m (.script hstart hturns))
      fun hbelow start hstart retried m hturns => hbelow m (.script hstart hturns)
  · intro start hstart retried m hturns
    exact hleftFits m (.script hstart hturns)
  · intro start hstart retried m hturns
    exact hrightFits m (.script hstart hturns)

/-- Two machines that load a unit in the same way run it alike: its script, and then the function that was
asked for. -/
theorem sameEnd_run {unit : CodeUnit} {entry : String} {arguments : List Scalar} (hleft : left.Sound)
    (hright : right.Sound) (hpinned : ∀ σ, List.Forall₂ (Value.Related σ) left.pinned right.pinned)
    (hentered : Concluded
      (enterScript unit { left with pinned := left.pinned ++ arguments.map .scalar })
      (enterScript unit { right with pinned := right.pinned ++ arguments.map .scalar }))
    (hbelow : ServesBelow (.run unit entry (arguments.map .scalar)) left ∨
      ServesBelow (.run unit entry (arguments.map .scalar)) right)
    (hleftFits : RunFits unit entry (arguments.map .scalar) left)
    (hrightFits : RunFits unit entry (arguments.map .scalar) right) {fuel more : Nat}
    (hanswered : Answered (run fuel unit entry (arguments.map .scalar) left)) (hmore : 2 * fuel ≤ more) :
    SameEnd (run fuel unit entry (arguments.map .scalar) left)
      (run more unit entry (arguments.map .scalar) right) := by
  have hleftPin := hleft.pin (accepts_scalars _ arguments)
  have hrightPin := hright.pin (accepts_scalars _ arguments)
  have hrest := answered_of_withPinned hanswered
  refine SameEnd.restore ?_ hpinned
  have hbelowCall {a b : Value} {leftLoaded rightLoaded : Machine}
      (hfirst : load fuel unit { left with pinned := left.pinned ++ arguments.map .scalar } = .ok a leftLoaded)
      (hsecond : load more unit { right with pinned := right.pinned ++ arguments.map .scalar } = .ok b rightLoaded)
      (hentry : entry.isEmpty = false) :
      ServesBelow (.call entry (arguments.map .scalar)) leftLoaded ∨
        ServesBelow (.call entry (arguments.map .scalar)) rightLoaded :=
    hbelow.imp (fun hbelow m hpasses => hbelow m (.runFunction hfirst hentry hpasses))
      fun hbelow m hpasses => hbelow m (.runFunction hsecond hentry hpasses)
  have hleftCall {value : Value} {loaded m : Machine}
      (hloaded : load fuel unit { left with pinned := left.pinned ++ arguments.map .scalar } = .ok value loaded)
      (hentry : entry.isEmpty = false)
      (hpasses : Passes (.call entry (arguments.map .scalar)) loaded m) : Roomy m :=
    hleftFits m (.runFunction hloaded hentry hpasses)
  have hrightCall {value : Value} {loaded m : Machine}
      (hloaded : load more unit { right with pinned := right.pinned ++ arguments.map .scalar } = .ok value loaded)
      (hentry : entry.isEmpty = false)
      (hpasses : Passes (.call entry (arguments.map .scalar)) loaded m) : Roomy m :=
    hrightFits m (.runFunction hloaded hentry hpasses)
  have hload : Answered (load fuel unit { left with pinned := left.pinned ++ arguments.map .scalar }) :=
    answered_of_bind hrest
  have hsame := sameEnd_load hentered hleftPin hrightPin
    (hbelow.imp (fun hbelow m hpasses => hbelow m (.runScript hpasses))
      fun hbelow m hpasses => hbelow m (.runScript hpasses))
    (fun m hpasses => hleftFits m (.runScript hpasses)) (fun m hpasses => hrightFits m (.runScript hpasses))
    hload hmore
  obtain ⟨hleftSound, hleftPinned⟩ := sound_load hleftPin fuel unit
  obtain ⟨hrightSound, hrightPinned⟩ := sound_load hrightPin more unit
  rw [bind_apply] at hrest ⊢
  rw [bind_apply]
  generalize load fuel unit { left with pinned := left.pinned ++ arguments.map .scalar } = one
    at hsame hrest hleftSound hleftPinned hbelowCall hleftCall ⊢
  generalize load more unit { right with pinned := right.pinned ++ arguments.map .scalar } = two
    at hsame hrightSound hrightPinned hbelowCall hrightCall ⊢
  cases hsame with
  | failure houtput => exact .failure houtput
  | @value σ a b leftLoaded rightLoaded hcorr hrel =>
    dsimp only at hrest ⊢
    cases hentry : entry.isEmpty with
    | true => exact .value hcorr hrel
    | false =>
      rw [hentry] at hrest
      refine sameEnd_callGlobal hcorr hleftSound hrightSound entry arguments (fun σ => ?_)
        (hbelowCall rfl rfl hentry) (fun m => hleftCall rfl hentry) (fun m => hrightCall rfl hentry) hrest
        hmore
      change leftLoaded.pinned = _ at hleftPinned
      change rightLoaded.pinned = _ at hrightPinned
      rw [hleftPinned, hrightPinned]
      exact List.rel_append (hpinned σ) (related_scalars σ arguments)

/-- When collections happen cannot be observed as long as one of the runs names slots below the top only.
Two machines that differ only in the schedule of their collections and in what they park for reuse run a
unit alike: if the run of one ends with an answer, with enough turns the run of the other ends, with the
same output and with the same value up to a renaming of objects or the same failure. -/
theorem run_independent_of_schedule {machine : MachineConfig} {first second : HeapConfig}
    (hlimit : first.maxHeapBytes = second.maxHeapBytes) (unit : CodeUnit) (entry : String)
    (arguments : List Scalar)
    (hbelow : ServesBelow (.run unit entry (arguments.map .scalar)) (.ofConfig ⟨machine, first⟩) ∨
      ServesBelow (.run unit entry (arguments.map .scalar)) (.ofConfig ⟨machine, second⟩))
    (hfirst : RunFits unit entry (arguments.map .scalar) (.ofConfig ⟨machine, first⟩))
    (hsecond : RunFits unit entry (arguments.map .scalar) (.ofConfig ⟨machine, second⟩)) {fuel : Nat}
    (hanswered : Answered (run fuel unit entry (arguments.map .scalar) (.ofConfig ⟨machine, first⟩))) :
    ∀ more, 2 * fuel ≤ more →
      SameEnd (run fuel unit entry (arguments.map .scalar) (.ofConfig ⟨machine, first⟩))
        (run more unit entry (arguments.map .scalar) (.ofConfig ⟨machine, second⟩)) := by
  intro more hmore
  exact sameEnd_run (sound_ofConfig _) (sound_ofConfig _) (fun _ => .nil)
    (concluded_enterScript_new hlimit unit arguments) hbelow hfirst hsecond hanswered hmore

/-- Whether the objects fit into the address space before an instruction and after it was tried. -/
def isRoomy (m : Machine) : Bool :=
  Heap.bytesOf m.heap.oldestFirst < UInt64.size &&
    Heap.bytesOf (stateAfter (dispatch m.safepoint)).heap.oldestFirst < UInt64.size

theorem roomy_of_isRoomy {m : Machine} (hroomy : isRoomy m = true) : Roomy m := by
  simp only [isRoomy, Bool.and_eq_true, decide_eq_true_eq, ← Heap.footprint_eq_bytesOf] at hroomy
  exact ⟨hroomy.1, hroomy.2⟩

/-- The objects of a run without an entry function fit if they do while the script runs. -/
theorem runFits_of_scriptHolds {unit : CodeUnit} {m : Machine} (turns : Nat)
    (hholds : scriptHolds isRoomy unit turns m = true) : RunFits unit "" [] m :=
  fun _ hpasses => roomy_of_isRoomy (hpasses.checked hholds)

theorem servesBelow_of_scriptHolds {unit : CodeUnit} {m : Machine} (turns : Nat)
    (hholds : scriptHolds Machine.isBelow unit turns m = true) : ServesBelow (.run unit "" []) m :=
  fun _ hpasses _ => Machine.staysBelow_of_isBelow (hpasses.checked hholds)

/-- A machine that collects before every instruction and one that never collects run a script with a
closure alike. -/
theorem run_independent_of_schedule_peek :
    SameEnd (run 20 peekUnit "" [] (.ofConfig { heap := { stress := true } }))
      (run 40 peekUnit "" [] (.ofConfig { heap := { initialThreshold := 0xffffffffffffffff } })) := by
  have hanswered : Answered (run 20 peekUnit "" [] (.ofConfig { heap := { stress := true } })) :=
    answered_of_isAnswered (by decide +kernel)
  have hbelow : ServesBelow (.run peekUnit "" []) (.ofConfig { heap := { stress := true } }) :=
    servesBelow_of_scriptHolds 20 (by decide +kernel)
  have hfirst : RunFits peekUnit "" [] (.ofConfig { heap := { stress := true } }) :=
    runFits_of_scriptHolds 20 (by decide +kernel)
  have hsecond : RunFits peekUnit "" []
      (.ofConfig { heap := { initialThreshold := 0xffffffffffffffff } }) :=
    runFits_of_scriptHolds 20 (by decide +kernel)
  have hlimit : ({ stress := true } : HeapConfig).maxHeapBytes =
      ({ initialThreshold := 0xffffffffffffffff } : HeapConfig).maxHeapBytes := rfl
  exact run_independent_of_schedule hlimit peekUnit "" [] (.inl hbelow) hfirst hsecond hanswered 40 (by omega)

/-- A function that matches the string `abc` after it has taken it off the stack and pushed another one. -/
def belatedMatch : CodeUnit :=
  hindsightUnit (fun chunk => (chunk.writeOp .string {}).writeShort 0 {}) (.node (.text "abc") [])

/-- Above the top an instruction sees whether a collection has taken place: the string is still there on a
machine that does not collect, and it is gone on one that collects before every instruction. -/
theorem run_depends_on_schedule_belatedMatch :
    belatedMatch.verify = .ok () ∧
      (Answered (run 20 belatedMatch "" [] (.ofConfig {})) ∧
        (stateAfter (run 20 belatedMatch "" [] (.ofConfig {}))).output = "true\n") ∧
      Answered (run 20 belatedMatch "" [] (.ofConfig { heap := { stress := true } })) ∧
        (stateAfter (run 20 belatedMatch "" [] (.ofConfig { heap := { stress := true } }))).output =
          "false\n" := by
  have hverified : belatedMatch.verify = .ok () := by decide +kernel
  refine ⟨hverified, ⟨answered_of_isAnswered ?_, ?_⟩, answered_of_isAnswered ?_, ?_⟩
  all_goals decide +kernel

end Exec

end OwnScript
