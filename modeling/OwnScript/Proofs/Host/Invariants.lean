import OwnScript.Proofs.Host.References

/-!
Properties that last while a machine serves units of some kind. One part of such a property holds whenever
the machine is left to itself, also after a run that failed or was cut off; the other part holds at every
instruction boundary. It is enough to look at single turns and at the two ways of starting a run.
-/

namespace OwnScript

open Stateful

namespace Exec

open Machine

/-- A host that loads one unit and no other, and hands in scalars and strings that are on the heap. -/
def servesOnly (unit : CodeUnit) (m : Machine) (request : HostRequest) : Prop :=
  handsInGoodValues m request ∧
    match request with
    | .execute other | .run other _ _ => other = unit
    | _ => True

/-- The unit that a request loads is of some kind. -/
def loadsOnly (served : CodeUnit → Prop) (request : HostRequest) : Prop :=
  ∀ unit entry arguments, request = .execute unit ∨ request = .run unit entry arguments → served unit

theorem loadsOnly_run {served : CodeUnit → Prop} {unit : CodeUnit} {entry : String} {arguments : List Value}
    (hserved : loadsOnly served (.run unit entry arguments)) : served unit :=
  hserved unit entry arguments (.inr rfl)

theorem servesOnly.loads {unit : CodeUnit} {m : Machine} {request : HostRequest}
    (hserves : servesOnly unit m request) : loadsOnly (· = unit) request := by
  rintro other entry arguments (rfl | rfl)
  · exact hserves.2
  · exact hserves.2

/-- A property of machines that is kept while units of some kind are served and the values that the host
hands in fit: `rest` holds at all times and `active` at instruction boundaries. -/
structure Kept (served : CodeUnit → Prop) (fits : Machine → List Value → Prop) (rest active : Machine → Prop) :
    Prop where
  rest_of_active : ∀ {m}, active m → rest m
  fresh : ∀ config, rest (.ofConfig config)
  pinned : ∀ {m values}, fits m values → rest m → rest { m with pinned := m.pinned ++ values }
  again : ∀ {m values arguments}, m.pinned = values ++ arguments → rest m →
    rest { m with pinned := m.pinned ++ arguments }
  unpinned : ∀ {m values arguments}, m.pinned = values ++ arguments → rest m → rest { m with pinned := values }
  resumed : ∀ {m}, rest m → rest { m with halted := false }
  collected : ∀ {m}, rest m → rest m.collectGarbage
  string : ∀ {m}, rest m → ∀ text, rest (stateAfter (makeString text m))
  script : ∀ {m unit}, served unit → rest m → rest (stateAfter (enterScript unit m)) ∧
    ∀ start, enterScript unit m = .ok () start → active start
  function : ∀ {m values arguments}, m.pinned = values ++ arguments → rest m → ∀ function,
    rest (stateAfter (enterFunction function arguments m)) ∧
    ∀ start, enterFunction function arguments m = .ok () start → active start
  turn : ∀ {m}, active m → m.halted = false → ∀ retried,
    rest (stateAfter (turn retried m)) ∧ ∀ again after, turn retried m = .ok again after → active after

namespace Kept

variable {served : CodeUnit → Prop} {fits : Machine → List Value → Prop} {rest active : Machine → Prop}
  {m : Machine} {unit : CodeUnit}

theorem turns (hkept : Kept served fits rest active) {start : Machine} {retried : Bool}
    (hturns : Turns start retried m) (hactive : active start) : active m := by
  induction hturns with
  | start => exact hactive
  | @next retried again m after _ hrunning hturn ih => exact (hkept.turn ih hrunning retried).2 again after hturn

theorem runLoop (hkept : Kept served fits rest active) (hactive : active m) (fuel : Nat) (retried : Bool) :
    rest (stateAfter (runLoop fuel retried m)) := by
  induction fuel generalizing m retried with
  | zero => exact hkept.rest_of_active hactive
  | succ fuel ih =>
    simp only [Exec.runLoop]
    rw [get_bind_apply]
    split
    · exact hkept.resumed (hkept.rest_of_active hactive)
    · rename_i hrunning
      rw [stateAfter_bind]
      have hturn := hkept.turn hactive (by simpa using hrunning) retried
      generalize Exec.turn retried m = result at hturn ⊢
      cases result with
      | ok again after => exact ih (hturn.2 again after rfl) again
      | error fault after => exact hturn.1

theorem bind_runLoop (hkept : Kept served fits rest active) {x : Exec Unit} (hrest : rest (stateAfter (x m)))
    (hactive : ∀ start, x m = .ok () start → active start) (fuel : Nat) :
    rest (stateAfter ((x >>= fun _ => Exec.runLoop fuel false) m)) := by
  rw [stateAfter_bind]
  generalize x m = result at hrest hactive ⊢
  cases result with
  | error fault after => exact hrest
  | ok value after => exact hkept.runLoop (hactive after rfl) fuel false

theorem load (hkept : Kept served fits rest active) (hserved : served unit) (hrest : rest m) (fuel : Nat) :
    rest (stateAfter (load fuel unit m)) := by
  rw [load_eq]
  obtain ⟨hentered, hactive⟩ := hkept.script hserved hrest
  exact hkept.bind_runLoop hentered hactive fuel

theorem withPinned (hkept : Kept served fits rest active) {α : Type} {values : List Value} {step : Exec α}
    (hrest : rest (stateAfter (step { m with pinned := m.pinned ++ values })))
    (hpinned : (stateAfter (step { m with pinned := m.pinned ++ values })).pinned = m.pinned ++ values) :
    rest (stateAfter (withPinned values step m)) := by
  simp only [Exec.withPinned]
  generalize step { m with pinned := m.pinned ++ values } = result at hrest hpinned ⊢
  cases result with
  | ok value after => exact hkept.unpinned hpinned hrest
  | error fault after => exact hkept.unpinned hpinned hrest

theorem callGlobal (hkept : Kept served fits rest active) {arguments : List Value}
    (hrest : rest { m with pinned := m.pinned ++ arguments }) (fuel : Nat) (function : String) :
    rest (stateAfter (callGlobal fuel function arguments m)) := by
  rw [callGlobal_eq]
  obtain ⟨hentered, hactive⟩ := hkept.function rfl hrest function
  refine hkept.withPinned (hkept.bind_runLoop hentered hactive fuel) ?_
  rw [pinned_bind_runLoop]
  exact pinned_enterFunction function arguments _

theorem run (hkept : Kept served fits rest active) (hserved : served unit) {arguments : List Value}
    (hrest : rest { m with pinned := m.pinned ++ arguments }) (fuel : Nat) (entry : String) :
    rest (stateAfter (run fuel unit entry arguments m)) := by
  have hloaded := hkept.load hserved hrest fuel
  have hpinned := pinned_load fuel unit { m with pinned := m.pinned ++ arguments }
  refine hkept.withPinned ?_ ?_
  · rw [stateAfter_bind]
    generalize Exec.load fuel unit { m with pinned := m.pinned ++ arguments } = result at hloaded hpinned ⊢
    cases result with
    | error fault after => exact hloaded
    | ok value after =>
      dsimp only
      split
      · exact hloaded
      · exact hkept.callGlobal (hkept.again hpinned hloaded) fuel entry
  · rw [stateAfter_bind]
    generalize Exec.load fuel unit { m with pinned := m.pinned ++ arguments } = result at hpinned ⊢
    cases result with
    | error fault after => exact hpinned
    | ok value after =>
      dsimp only
      split
      · exact hpinned
      · rw [callGlobal_eq, pinned_withPinned]
        exact hpinned

theorem serve (hkept : Kept served fits rest active) (hrest : rest m) {request : HostRequest}
    (hfits : fits m request.arguments) (hserved : loadsOnly served request) (fuel : Nat) :
    rest (stateAfter (serve fuel request m)) := by
  cases request with
  | makeString text =>
    simp only [Exec.serve, stateAfter_discard]
    exact hkept.string hrest text
  | execute unit =>
    simp only [Exec.serve, stateAfter_discard]
    exact hkept.load (hserved unit "" [] (.inl rfl)) hrest fuel
  | call function arguments =>
    simp only [Exec.serve, stateAfter_discard]
    exact hkept.callGlobal (hkept.pinned hfits hrest) fuel function
  | run unit entry arguments =>
    simp only [Exec.serve, stateAfter_discard]
    exact hkept.run (loadsOnly_run hserved) (hkept.pinned hfits hrest) fuel entry
  | collect => exact hkept.collected hrest

/-- Between the requests of a host. -/
theorem session (hkept : Kept served fits rest active) {allowed : Machine → HostRequest → Prop}
    (hallowed : ∀ m request, allowed m request → fits m request.arguments ∧ loadsOnly served request)
    {config : Config} (hsession : Session allowed config m) : rest m := by
  induction hsession with
  | fresh => exact hkept.fresh config
  | next fuel _ hrequest ih =>
    obtain ⟨hfits, hserved⟩ := hallowed _ _ hrequest
    exact hkept.serve ih hfits hserved fuel

/-- While a request is served. -/
theorem passes (hkept : Kept served fits rest active) {request : HostRequest} {after : Machine}
    (hpasses : Passes request m after) (hserved : loadsOnly served request)
    (hrest : rest { m with pinned := m.pinned ++ request.arguments }) : active after := by
  induction hpasses with
  | @script unit m start after retried hstart hturns =>
    have hclean : rest m := hkept.unpinned (m := { m with pinned := m.pinned ++ [] }) rfl hrest
    exact hkept.turns hturns ((hkept.script (hserved unit "" [] (.inl rfl)) hclean).2 start hstart)
  | @function name arguments m start after retried hstart hturns =>
    exact hkept.turns hturns ((hkept.function rfl hrest name).2 start hstart)
  | @runScript unit entry arguments m after _ ih =>
    refine ih ?_ ?_
    · rintro _ _ _ (⟨⟨⟩⟩ | ⟨⟨⟩⟩)
      exact loadsOnly_run hserved
    · simpa [HostRequest.arguments] using hrest
  | @runFunction unit entry arguments m loaded after fuel value hload _ _ ih =>
    have hloaded := hkept.load (loadsOnly_run hserved) hrest fuel
    have hpinned := pinned_load fuel unit { m with pinned := m.pinned ++ arguments }
    change rest (stateAfter (Exec.load fuel unit { m with pinned := m.pinned ++ arguments })) at hloaded
    rw [hload] at hloaded hpinned
    refine ih ?_ (hkept.again hpinned hloaded)
    rintro _ _ _ (⟨⟨⟩⟩ | ⟨⟨⟩⟩)

end Kept

/-- A property of sound machines that lasts while units of some kind are served: `rest` holds at all times
and `active` at instruction boundaries. -/
structure Lasting (served : CodeUnit → Prop) (rest active : Machine → Prop) : Prop where
  rest_of_active : ∀ {m}, active m → rest m
  fresh : ∀ config, rest (.ofConfig config)
  pinned : ∀ {m} pinned, rest m → rest { m with pinned }
  resumed : ∀ {m}, rest m → rest { m with halted := false }
  collected : ∀ {m}, m.Sound → rest m → rest m.collectGarbage
  string : ∀ {m}, m.Sound → rest m → ∀ text, rest (stateAfter (makeString text m))
  script : ∀ {m unit}, served unit → m.Sound → rest m → rest (stateAfter (enterScript unit m)) ∧
    ∀ start, enterScript unit m = .ok () start → active start
  function : ∀ {m}, m.Sound → rest m → ∀ function arguments,
    rest (stateAfter (enterFunction function arguments m)) ∧
    ∀ start, enterFunction function arguments m = .ok () start → active start
  turn : ∀ {m}, m.Sound → active m → m.halted = false → ∀ retried,
    rest (stateAfter (turn retried m)) ∧ ∀ again after, turn retried m = .ok again after → active after

namespace Lasting

variable {served : CodeUnit → Prop} {rest active : Machine → Prop} {m : Machine} {unit : CodeUnit}

/-- What lasts is kept together with soundness. -/
theorem kept (hlasting : Lasting served rest active) :
    Kept served (fun m values => ∀ value ∈ values, m.Accepts value) (fun m => m.Sound ∧ rest m)
      (fun m => m.Sound ∧ active m) where
  rest_of_active h := ⟨h.1, hlasting.rest_of_active h.2⟩
  fresh config := ⟨sound_ofConfig config, hlasting.fresh config⟩
  pinned hfits h := ⟨h.1.pin hfits, hlasting.pinned _ h.2⟩
  again hpinned h := ⟨h.1.repin hpinned, hlasting.pinned _ h.2⟩
  unpinned hpinned h :=
    ⟨h.1.takePinned fun value hvalue => hpinned ▸ List.mem_append_left _ hvalue, hlasting.pinned _ h.2⟩
  resumed {m} h := by
    obtain ⟨⟨ρ, hcorr⟩, hrest⟩ := h
    exact ⟨⟨ρ, { hcorr with halted := rfl }⟩, hlasting.resumed hrest⟩
  collected h := ⟨h.1.collectGarbage, hlasting.collected h.1 h.2⟩
  string h text := ⟨sound_makeString h.1 text, hlasting.string h.1 h.2 text⟩
  script {m unit} hserved h := by
    obtain ⟨hentered, hactive⟩ := hlasting.script hserved h.1 h.2
    have hsound := sound_enterScript h.1 unit
    refine ⟨⟨hsound, hentered⟩, fun start hstart => ⟨?_, hactive start hstart⟩⟩
    rwa [hstart] at hsound
  function {m values arguments} hpinned h function := by
    obtain ⟨hentered, hactive⟩ := hlasting.function h.1 h.2 function arguments
    have hsound : (stateAfter (enterFunction function arguments m)).Sound := by
      have hsame : ({ m with pinned := values } : Machine).pinned ++ arguments = m.pinned := hpinned.symm
      have hsound := @sound_enterFunction { m with pinned := values } arguments (by rw [hsame]; exact h.1) function
      rwa [hsame] at hsound
    refine ⟨⟨hsound, hentered⟩, fun start hstart => ⟨?_, hactive start hstart⟩⟩
    rwa [hstart] at hsound
  turn {m} h hrunning retried := by
    obtain ⟨hafter, hactive⟩ := hlasting.turn h.1 h.2 hrunning retried
    have hsound := sound_turn h.1 retried
    refine ⟨⟨hsound, hafter⟩, fun again after hturn => ⟨?_, hactive again after hturn⟩⟩
    rwa [hturn] at hsound

theorem load (hlasting : Lasting served rest active) (hserved : served unit) (hsound : m.Sound)
    (hrest : rest m) (fuel : Nat) : rest (stateAfter (load fuel unit m)) :=
  (hlasting.kept.load hserved ⟨hsound, hrest⟩ fuel).2

/-- Between the requests of a host. -/
theorem session (hlasting : Lasting (· = unit) rest active) {config : Config}
    (hsession : Session (servesOnly unit) config m) : m.Sound ∧ rest m :=
  hlasting.kept.session (fun _ _ hserves => ⟨hserves.1, hserves.loads⟩) hsession

/-- While a request is served. -/
theorem passes (hlasting : Lasting served rest active) {request : HostRequest} {after : Machine}
    (hpasses : Passes request m after) (hserved : loadsOnly served request)
    (hsound : Sound { m with pinned := m.pinned ++ request.arguments }) (hrest : rest m) : active after :=
  (hlasting.kept.passes hpasses hserved ⟨hsound, hlasting.pinned _ hrest⟩).2

end Lasting

end Exec

end OwnScript
