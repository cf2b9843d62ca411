import OwnScript.Proofs.Host.Confinement
import OwnScript.Proofs.Machine.Accounts

/-!
Properties that last through everything a host does, whatever units it loads and whatever values it
hands in. It is enough to look at single changes of a machine, at collections, and at the few things
that happen between runs. A property may suppose that objects fit into some room: then it lasts as
long as they do.
-/

namespace OwnScript

open Stateful

namespace Machine

/-- Machines with the same objects, the same stack and the same calls. -/
structure SameCore (m after : Machine) : Prop where
  config : after.config = m.config
  heap : after.heap = m.heap
  stack : after.stack = m.stack
  frames : after.frames = m.frames
  openCells : after.openCells = m.openCells

variable {m after : Machine}

theorem Orderly.apart (horderly : m.Orderly) (hsame : SameCore m after) : after.Orderly :=
  horderly.of_eq hsame.heap hsame.openCells

theorem footprint_collectGarbage_le (horderly : m.Orderly) :
    m.collectGarbage.heap.footprint ≤ m.heap.footprint :=
  (Heap.collect_spec horderly.heap.idle m.roots).footprint_le

theorem Orderly.emptied (horderly : m.Orderly) : Orderly { m with stack := #[], frames := #[] } :=
  horderly.of_eq rfl rfl

end Machine

namespace Exec

open Machine

/-- The call of a script. -/
def scriptFrame (script : Ref) : Frame :=
  { base := 1, returnTo := 0, caller := none, closure := script, argumentCount := 0 }

/-- A property of machines that lasts while a machine with given settings serves its host: containers
ask for as much as is supposed, and objects fit into the room that is supposed. -/
structure Enduring (config : Config) (asked : Nat → Prop) (space : Heap → Prop) (inv : Machine → Prop) :
    Prop where
  narrower : ∀ {heap other}, heap.footprint ≤ other.footprint → space other → space heap
  spaced : ∀ {m}, m.Orderly → inv m → space m.heap
  fresh : inv (.ofConfig config)
  apart : ∀ {m after}, SameCore m after → inv m → inv after
  emptied : ∀ {m}, inv m → inv { m with stack := #[], frames := #[] }
  started : ∀ {m}, m.frames = #[] → 0 < m.stack.size → inv m → ∀ script,
    inv { m with frames := #[scriptFrame script] }
  collected : ∀ {m}, m.Orderly → inv m → inv m.collectGarbage
  changed : ∀ {m after}, Change asked m after → m.Orderly → space after.heap → inv m → inv after

/-- The next instruction keeps to what is supposed. -/
structure Furnished (asked : Nat → Prop) (space : Heap → Prop) (m : Machine) : Prop where
  before : space m.heap
  tried : space (stateAfter (dispatch m.safepoint)).heap
  reserved : ∀ bytes, m.safepoint.reserved? = some bytes → asked bytes

/-- A request keeps to what is supposed while it is served, and in the end. -/
structure Provided (asked : Nat → Prop) (space : Heap → Prop) (m : Machine) (request : HostRequest) :
    Prop where
  passes : ∀ after, Passes request m after → Furnished asked space after
  ends : ∀ fuel, space (stateAfter (serve fuel request m)).heap

/-- An orderly machine with a property. -/
structure Good (inv : Machine → Prop) (m : Machine) : Prop where
  orderly : m.Orderly
  holds : inv m

theorem heap_startScript (unit : CodeUnit) (script : Ref) (m : Machine) :
    (stateAfter (startScript unit script m)).heap = m.heap := by
  rcases startScript_cases unit script m with hresult | hresult
  · rw [hresult]
    rfl
  · rw [hresult]
    rfl

theorem heap_bind {α β : Type} {x : Exec α} {f : α → Exec β} {m : Machine}
    (hfirst : (stateAfter (x m)).heap = m.heap)
    (hnext : ∀ a middle, (stateAfter (f a middle)).heap = middle.heap) :
    (stateAfter ((x >>= f) m)).heap = m.heap := by
  rw [stateAfter_bind]
  generalize x m = result at hfirst ⊢
  cases result with
  | ok a middle => exact (hnext a middle).trans hfirst
  | error fault after => exact hfirst

theorem heap_pushAll (values : List Value) (m : Machine) :
    (stateAfter (pushAll values m)).heap = m.heap := by
  induction values generalizing m with
  | nil => rfl
  | cons value rest ih => exact heap_bind (keepsHeap_push value m).heap fun _ middle => ih middle

theorem heap_callFromHost (callee : Value) (arguments : List Value) (m : Machine) :
    (stateAfter ((push callee >>= fun _ => pushAll arguments >>= fun _ =>
      callValue callee arguments.length) m)).heap = m.heap := by
  refine heap_bind (keepsHeap_push callee m).heap fun _ middle => ?_
  refine heap_bind (heap_pushAll arguments middle) fun _ ready => ?_
  rcases stateAfter_callValue callee arguments.length ready with ⟨_, _, _, -, hentered⟩ | hrefused
  · rw [hentered]
    rfl
  · rw [hrefused]

namespace Enduring

variable {config : Config} {asked : Nat → Prop} {space : Heap → Prop} {inv : Machine → Prop}
  {m after : Machine}

theorem good_apart (hlasts : Enduring config asked space inv) (hgood : Good inv m)
    (hsame : SameCore m after) : Good inv after :=
  ⟨hgood.orderly.apart hsame, hlasts.apart hsame hgood.holds⟩

theorem good_collectGarbage (hlasts : Enduring config asked space inv) (hgood : Good inv m) :
    Good inv m.collectGarbage :=
  ⟨hgood.orderly.collectGarbage, hlasts.collected hgood.orderly hgood.holds⟩

theorem good_changes (hlasts : Enduring config asked space inv) (hchanges : Changes asked m after)
    (hspace : space after.heap) (hgood : Good inv m) : Good inv after := by
  refine ⟨(hchanges.tended hgood.orderly).orderly, ?_⟩
  induction hchanges with
  | refl => exact hgood.holds
  | @tail middle after hbefore hchange ih =>
    have hmiddle := (Changes.tended hbefore hgood.orderly).orderly
    have hgrows := (hchange.tended hmiddle).grows
    exact hlasts.changed hchange hmiddle hspace (ih (hlasts.narrower hgrows hspace))

/-- Changes after which there are no more bytes in use than before need no room. -/
theorem good_steps (hlasts : Enduring config asked space inv) (hchanges : Changes asked m after)
    (hbytes : after.heap.footprint ≤ m.heap.footprint) (hgood : Good inv m) : Good inv after :=
  hlasts.good_changes hchanges (hlasts.narrower hbytes (hlasts.spaced hgood.orderly hgood.holds)) hgood

theorem good_reset (hlasts : Enduring config asked space inv) (hgood : Good inv m) :
    Good inv m.reset := by
  obtain ⟨-, hbytes⟩ := tended_closeCells hgood.orderly 0
  have hclosed := hlasts.good_steps (Change.closed 0).changes hbytes.le hgood
  have hemptied : Good inv { m.closeCells 0 with stack := #[], frames := #[] } :=
    ⟨hclosed.orderly.emptied, hlasts.emptied hclosed.holds⟩
  exact hlasts.good_apart hemptied ⟨rfl, rfl, rfl, rfl, rfl⟩

theorem good_safepoint (hlasts : Enduring config asked space inv) (hgood : Good inv m) :
    Good inv m.safepoint := by
  obtain ⟨trace, hcollected | hsame⟩ := m.safepoint_cases
  · rw [hcollected]
    exact hlasts.good_apart (hlasts.good_collectGarbage hgood) ⟨rfl, rfl, rfl, rfl, rfl⟩
  · rw [hsame]
    exact hlasts.good_apart hgood ⟨rfl, rfl, rfl, rfl, rfl⟩

theorem good_dispatch (hlasts : Enduring config asked space inv) (hgood : Good inv m)
    (hfurnished : Furnished asked space m) : Good inv (stateAfter (dispatch m.safepoint)) := by
  have hready := hlasts.good_safepoint hgood
  exact hlasts.good_changes (changes_dispatch hready.orderly.intact hfurnished.reserved)
    hfurnished.tried hready

theorem good_turn (hlasts : Enduring config asked space inv) (hgood : Good inv m)
    (hfurnished : Furnished asked space m) (retried : Bool) : Good inv (stateAfter (turn retried m)) := by
  have hdispatched := hlasts.good_dispatch hgood hfurnished
  unfold turn
  generalize dispatch m.safepoint = result at hdispatched ⊢
  cases result with
  | ok value after => exact hdispatched
  | error fault after =>
    cases fault with
    | exhausted request =>
      dsimp only
      split
      · exact hlasts.good_reset hdispatched
      · have hback : Good inv { after with ip := after.instructionStart } :=
          hlasts.good_apart hdispatched ⟨rfl, rfl, rfl, rfl, rfl⟩
        exact hlasts.good_collectGarbage hback
    | failure diagnostic => exact hlasts.good_reset hdispatched
    | stray => exact hdispatched
    | outOfFuel => exact hdispatched

theorem good_turns (hlasts : Enduring config asked space inv) {start : Machine} {retried : Bool}
    (hturns : Turns start retried m) (hgood : Good inv start)
    (hfurnished : ∀ retried m, Turns start retried m → Furnished asked space m) : Good inv m := by
  induction hturns with
  | start => exact hgood
  | @next retried again m after hturns hrunning hturn ih =>
    have hafter := hlasts.good_turn ih (hfurnished _ _ hturns) retried
    rwa [hturn] at hafter

theorem good_runLoop (hlasts : Enduring config asked space inv) {start : Machine} {retried : Bool}
    (hturns : Turns start retried m) (hgood : Good inv start)
    (hfurnished : ∀ retried m, Turns start retried m → Furnished asked space m) (fuel : Nat) :
    Good inv (stateAfter (runLoop fuel retried m)) := by
  have hready := hlasts.good_turns hturns hgood hfurnished
  induction fuel generalizing m retried with
  | zero => exact hready
  | succ fuel ih =>
    simp only [runLoop]
    rw [get_bind_apply]
    split
    · exact hlasts.good_apart hready ⟨rfl, rfl, rfl, rfl, rfl⟩
    · rename_i hrunning
      rw [stateAfter_bind]
      have hafter := hlasts.good_turn hready (hfurnished _ _ hturns) retried
      cases hturn : turn retried m with
      | ok again after =>
        rw [hturn] at hafter
        exact ih (.next hturns (by simpa using hrunning) hturn) hafter
      | error fault after =>
        rw [hturn] at hafter
        exact hafter

theorem good_parked (hlasts : Enduring config asked space inv) (hgood : Good inv m) {parked : Heap}
    (halike : Heap.Alike m.heap parked) : Good inv { m with heap := parked } :=
  hlasts.good_steps (Change.parked halike).changes (Heap.footprint_congr halike.get?).le hgood

theorem good_linked (hlasts : Enduring config asked space inv) (hgood : Good inv m) {parked : Heap}
    (halike : Heap.Alike m.heap parked) {object : Object} (hwhole : object.Whole)
    (hroom : parked.statistics.bytesLive + object.memorySize.toUInt64 ≤ parked.config.maxHeapBytes)
    (hspace : space (parked.link object)) : Good inv { m with heap := parked.link object } := by
  have hlinked : Change asked { m with heap := parked } { m with heap := parked.link object } :=
    .linked hwhole hroom
  exact hlasts.good_changes hlinked.changes hspace (hlasts.good_parked hgood halike)

/-- An object is allocated for the host, after a collection if that is needed. -/
theorem good_allocateForHost (hlasts : Enduring config asked space inv) {object : Object}
    (hwhole : object.Whole) (hgood : Good inv m)
    (hspace : space (stateAfter (allocateForHost object m)).heap) :
    Good inv (stateAfter (allocateForHost object m)) := by
  simp only [allocateForHost] at hspace ⊢
  obtain ⟨parked, halike, ⟨fault, hresult⟩ | ⟨hroom, hresult⟩⟩ := onHeap_allocate_parks object m
  · rw [hresult] at hspace ⊢
    have hcollected := hlasts.good_collectGarbage (hlasts.good_parked hgood halike)
    dsimp only at hspace ⊢
    obtain ⟨again, hagain, ⟨fault, hsecond⟩ | ⟨hroom, hsecond⟩⟩ :=
      onHeap_allocate_parks object (Machine.collectGarbage { m with heap := parked })
    · rw [hsecond]
      exact hlasts.good_parked hcollected hagain
    · rw [hsecond] at hspace ⊢
      exact hlasts.good_linked hcollected hagain hwhole hroom hspace
  · rw [hresult] at hspace ⊢
    exact hlasts.good_linked hgood halike hwhole hroom hspace

theorem good_makeString (hlasts : Enduring config asked space inv) (hgood : Good inv m) (text : String)
    (hspace : space (stateAfter (makeString text m)).heap) :
    Good inv (stateAfter (makeString text m)) := by
  simp only [makeString] at hspace ⊢
  rw [stateAfter_bind] at hspace ⊢
  have hallocated : space (stateAfter (allocateForHost (.string text) m)).heap →
      Good inv (stateAfter (allocateForHost (.string text) m)) :=
    hlasts.good_allocateForHost (.string text) hgood
  generalize allocateForHost (.string text) m = result at hspace hallocated ⊢
  cases result with
  | error fault after => exact hallocated hspace
  | ok ref after => exact hlasts.good_apart (hallocated hspace) ⟨rfl, rfl, rfl, rfl, rfl⟩

theorem good_prepared (hlasts : Enduring config asked space inv) (hgood : Good inv m) (unit : CodeUnit) :
    Good inv (m.prepared unit) :=
  hlasts.good_apart (hlasts.good_reset hgood) ⟨rfl, rfl, rfl, rfl, rfl⟩

/-- The script is entered on a machine with nothing active. -/
theorem good_startScript (hlasts : Enduring config asked space inv) (hgood : Good inv m)
    (hidle : m.frames = #[]) (unit : CodeUnit) (script : Ref) :
    Good inv (stateAfter (startScript unit script m)) := by
  simp only [startScript]
  rw [stateAfter_bind]
  have hsteady : Steady (fun _ _ => False) m (stateAfter (push (.ofRef script) m)) := steady_push _
  have hpushed : Good inv (stateAfter (push (.ofRef script) m)) :=
    hlasts.good_steps (changes_push _) (by rw [(keepsHeap_push _ _).heap]) hgood
  cases hresult : push (.ofRef script) m with
  | error fault after =>
    rw [hresult] at hpushed
    exact hpushed
  | ok value pushed =>
    rw [hresult] at hsteady hpushed
    have hnone : pushed.frames = #[] := hsteady.frames.trans hidle
    have hheight : 0 < pushed.stack.size := by
      rw [push_ok hresult]
      simp
    have hstarted : Good inv { pushed with frames := #[scriptFrame script] } :=
      ⟨hpushed.orderly.of_eq rfl rfl, hlasts.started hnone hheight hpushed.holds script⟩
    refine hlasts.good_apart hstarted ⟨rfl, rfl, rfl, ?_, rfl⟩
    change pushed.frames.push (scriptFrame script) = _
    rw [hnone]
    rfl

theorem good_enterScript (hlasts : Enduring config asked space inv) (hgood : Good inv m)
    (unit : CodeUnit) (hspace : space (stateAfter (enterScript unit m)).heap) :
    Good inv (stateAfter (enterScript unit m)) := by
  rw [enterScript_eq] at hspace ⊢
  cases hverified : unit.verify with
  | error diagnostic => exact hgood
  | ok value =>
    obtain ⟨script, hscript, -⟩ := CodeUnit.verify_ok hverified
    rw [hverified] at hspace
    dsimp only at hspace ⊢
    rw [stateAfter_bind] at hspace ⊢
    have hwhole : (Object.unboundClosure unit.script).Whole := by
      rw [hscript]
      exact .closure script
    have hallocated := hlasts.good_allocateForHost hwhole (hlasts.good_prepared hgood unit)
    have hframes : (stateAfter (allocateForHost (.unboundClosure unit.script) (m.prepared unit))).frames = #[] := by
      obtain ⟨heap, hrest⟩ := rest_allocateForHost (.unboundClosure unit.script) (m.prepared unit)
      rw [hrest]
      rfl
    generalize allocateForHost (.unboundClosure unit.script) (m.prepared unit) = result
      at hspace hallocated hframes ⊢
    cases result with
    | error fault after => exact hallocated hspace
    | ok ref after =>
      refine hlasts.good_startScript (hallocated ?_) hframes unit ref
      rwa [heap_startScript] at hspace

/-- A call by the host puts values on the stack and enters a closure, or it is given up. -/
theorem good_beginCall (hlasts : Enduring config asked space inv) (hgood : Good inv m)
    (function : String) (callee : Value) (arguments : List Value) :
    Good inv (stateAfter (beginCall function callee arguments m)) := by
  have hstep : Good inv (stateAfter ((push callee >>= fun _ => pushAll arguments >>= fun _ =>
      callValue callee arguments.length) m)) := by
    exact hlasts.good_steps (changes_callFromHost callee arguments) (by rw [heap_callFromHost]) hgood
  simp only [beginCall]
  generalize (push callee >>= fun _ => pushAll arguments >>= fun _ =>
    callValue callee arguments.length) m = result at hstep ⊢
  cases result with
  | ok value after => exact hstep
  | error fault after =>
    cases fault with
    | failure diagnostic => exact hlasts.good_reset hstep
    | exhausted request => exact hstep
    | stray => exact hstep
    | outOfFuel => exact hstep

theorem good_enterFunction (hlasts : Enduring config asked space inv) (hgood : Good inv m)
    (function : String) (arguments : List Value) :
    Good inv (stateAfter (enterFunction function arguments m)) := by
  simp only [enterFunction]
  rw [get_bind_apply]
  cases m.unit.entryPoints[function]? with
  | none => exact hgood
  | some slot =>
    dsimp only
    cases (m.globals[slot]?).join with
    | none => exact hgood
    | some callee =>
      dsimp only
      split
      · exact hgood
      · have hforgotten : Good inv { m.reset with hostValues := [] } :=
          hlasts.good_apart (hlasts.good_reset hgood) ⟨rfl, rfl, rfl, rfl, rfl⟩
        exact hlasts.good_beginCall hforgotten function callee arguments

/-- A unit is loaded and its script runs. What is left of a script that could not be entered has to
fit too. -/
theorem good_load (hlasts : Enduring config asked space inv) (hgood : Good inv m) {unit : CodeUnit}
    (hfurnished : ∀ after, Passes (.execute unit) m after → Furnished asked space after)
    (hrefused : ∀ fault after, enterScript unit m = .error fault after → space after.heap) (fuel : Nat) :
    Good inv (stateAfter (load fuel unit m)) := by
  rw [load_eq, stateAfter_bind]
  have hentered := hlasts.good_enterScript hgood unit
  cases hstart : enterScript unit m with
  | error fault after =>
    rw [hstart] at hentered
    exact hentered (hrefused fault after hstart)
  | ok value start =>
    have hready := (hfurnished start (.script hstart .start)).before
    rw [hstart] at hentered
    exact hlasts.good_runLoop .start (hentered hready)
      (fun retried after hturns => hfurnished after (.script hstart hturns)) fuel

theorem good_pinned (hlasts : Enduring config asked space inv) (hgood : Good inv m)
    (pinned : List Value) : Good inv { m with pinned } :=
  hlasts.good_apart hgood ⟨rfl, rfl, rfl, rfl, rfl⟩

theorem good_withPinned (hlasts : Enduring config asked space inv) {α : Type} {values : List Value}
    {step : Exec α} (hgood : Good inv (stateAfter (step { m with pinned := m.pinned ++ values }))) :
    Good inv (stateAfter (withPinned values step m)) := by
  simp only [withPinned]
  generalize step { m with pinned := m.pinned ++ values } = result at hgood ⊢
  cases result with
  | ok value after => exact hlasts.good_pinned hgood _
  | error fault after => exact hlasts.good_pinned hgood _

theorem good_callGlobal (hlasts : Enduring config asked space inv) (hgood : Good inv m)
    {function : String} {arguments : List Value}
    (hfurnished : ∀ after, Passes (.call function arguments) m after → Furnished asked space after)
    (fuel : Nat) : Good inv (stateAfter (callGlobal fuel function arguments m)) := by
  rw [callGlobal_eq]
  refine hlasts.good_withPinned ?_
  rw [stateAfter_bind]
  have hentered := hlasts.good_enterFunction (hlasts.good_pinned hgood (m.pinned ++ arguments))
    function arguments
  cases hstart : enterFunction function arguments { m with pinned := m.pinned ++ arguments } with
  | error fault after =>
    rw [hstart] at hentered
    exact hentered
  | ok value start =>
    rw [hstart] at hentered
    exact hlasts.good_runLoop .start hentered
      (fun retried after hturns => hfurnished after (.function hstart hturns)) fuel

theorem good_run (hlasts : Enduring config asked space inv) (hgood : Good inv m) {unit : CodeUnit}
    {entry : String} {arguments : List Value}
    (hfurnished : ∀ after, Passes (.run unit entry arguments) m after → Furnished asked space after)
    (fuel : Nat) (hspace : space (stateAfter (run fuel unit entry arguments m)).heap) :
    Good inv (stateAfter (run fuel unit entry arguments m)) := by
  have hloaded : Good inv (stateAfter (load fuel unit { m with pinned := m.pinned ++ arguments })) := by
    refine hlasts.good_load (hlasts.good_pinned hgood _)
      (fun after hpasses => hfurnished after (.runScript hpasses)) (fun fault after hstart => ?_) fuel
    have hload : load fuel unit { m with pinned := m.pinned ++ arguments } = .error fault after := by
      rw [load_eq, bind_apply, hstart]
    simp only [run, withPinned, bind_apply, hload] at hspace
    exact hspace
  refine hlasts.good_withPinned ?_
  rw [stateAfter_bind]
  cases hresult : load fuel unit { m with pinned := m.pinned ++ arguments } with
  | error fault after =>
    rw [hresult] at hloaded
    exact hloaded
  | ok value loaded =>
    rw [hresult] at hloaded
    dsimp only
    split
    · exact hloaded
    · rename_i hentry
      refine hlasts.good_callGlobal hloaded (fun after hpasses => ?_) fuel
      exact hfurnished after (.runFunction hresult (by simpa using hentry) hpasses)

theorem good_serve (hlasts : Enduring config asked space inv) (hgood : Good inv m)
    {request : HostRequest} (hprovided : Provided asked space m request) (fuel : Nat) :
    Good inv (stateAfter (serve fuel request m)) := by
  have hends := hprovided.ends fuel
  cases request with
  | makeString text =>
    simp only [serve, stateAfter_discard] at hends ⊢
    exact hlasts.good_makeString hgood text hends
  | execute unit =>
    simp only [serve, stateAfter_discard] at hends ⊢
    refine hlasts.good_load hgood hprovided.passes (fun fault after hstart => ?_) fuel
    rw [load_eq, stateAfter_bind, hstart] at hends
    exact hends
  | call function arguments =>
    simp only [serve, stateAfter_discard]
    exact hlasts.good_callGlobal hgood hprovided.passes fuel
  | run unit entry arguments =>
    simp only [serve, stateAfter_discard] at hends ⊢
    exact hlasts.good_run hgood hprovided.passes fuel hends
  | collect => exact hlasts.good_collectGarbage hgood

/-- The property lasts from one request of a host to the next. -/
theorem good_session (hlasts : Enduring config asked space inv)
    (hsession : Session (Provided asked space) config m) : Good inv m := by
  induction hsession with
  | fresh => exact ⟨orderly_ofConfig config, hlasts.fresh⟩
  | next fuel _ hallowed ih => exact hlasts.good_serve ih hallowed fuel

/-- The property holds at every instruction boundary. -/
theorem good_passes (hlasts : Enduring config asked space inv) {request : HostRequest}
    (hpasses : Passes request m after) (hgood : Good inv m)
    (hprovided : ∀ after, Passes request m after → Furnished asked space after) : Good inv after := by
  induction hpasses with
  | @script unit m start after retried hstart hturns =>
    have hentered := hlasts.good_enterScript hgood unit
    rw [hstart] at hentered
    exact hlasts.good_turns hturns (hentered (hprovided start (.script hstart .start)).before)
      fun retried after hturns => hprovided after (.script hstart hturns)
  | @function name arguments m start after retried hstart hturns =>
    have hentered := hlasts.good_enterFunction (hlasts.good_pinned hgood (m.pinned ++ arguments))
      name arguments
    rw [hstart] at hentered
    exact hlasts.good_turns hturns hentered
      fun retried after hturns => hprovided after (.function hstart hturns)
  | @runScript unit entry arguments m after hscript ih =>
    exact ih (hlasts.good_pinned hgood _) fun after hpasses => hprovided after (.runScript hpasses)
  | @runFunction unit entry arguments m loaded after fuel value hload hentry hcall ih =>
    refine ih ?_ fun after hpasses => hprovided after (.runFunction hload hentry hpasses)
    have hloaded := hlasts.good_load (hlasts.good_pinned hgood (m.pinned ++ arguments))
      (fun after hpasses => hprovided after (.runScript hpasses)) (fun fault after hstart => ?_) fuel
    · rwa [hload] at hloaded
    · rw [load_eq, bind_apply, hstart] at hload
      cases hload

end Enduring

end Exec

end OwnScript
