import OwnScript.Proofs.Host.Quiescence
import OwnScript.Proofs.Machine.Output

/-!
A used machine behaves like a new one. What is left from earlier runs is on the heap, where nothing refers to
it once the next unit is loaded, in the output, which no step looks at, and in the storage of the stack above
its top. There a run may come across it, if an instruction names a slot above the top.
-/

namespace OwnScript

open Stateful

namespace Exec

open Machine

variable {α : Type}

theorem blind_allocateForHost (object : Object) : Blind (allocateForHost object) := by
  intro log m
  simp only [allocateForHost]
  rw [blind_onHeap]
  cases onHeap (Heap.allocate object) m with
  | ok ref after => rfl
  | error fault after =>
    have hcollected : (after.preceded log).collectGarbage = after.collectGarbage.preceded log := rfl
    dsimp only [preceding]
    rw [hcollected, blind_onHeap]
    cases onHeap (Heap.allocate object) after.collectGarbage <;> rfl

theorem Blind.withPinned {step : Exec α} (hblind : Blind step) (values : List Value) :
    Blind (withPinned values step) := by
  intro log m
  have hstep := hblind log { m with pinned := m.pinned ++ values }
  change step { m.preceded log with pinned := (m.preceded log).pinned ++ values } = _ at hstep
  simp only [Exec.withPinned, hstep]
  cases step { m with pinned := m.pinned ++ values } <;> rfl

theorem blind_enterScript (unit : CodeUnit) : Blind (enterScript unit) := by
  refine (blind_ofExcept _).bind fun _ => (blind_modify fun _ _ => rfl).bind fun _ => ?_
  refine (blind_modify fun _ _ => rfl).bind fun _ => (blind_allocateForHost _).bind fun script => ?_
  exact (blind_push _).bind fun _ => blind_modify fun _ _ => rfl

theorem blind_beginCall (function : String) (callee : Value) (arguments : List Value) :
    Blind (beginCall function callee arguments) := by
  intro log m
  have hstep : Blind (push callee >>= fun _ => pushAll arguments >>= fun _ => callValue callee arguments.length) :=
    (blind_push callee).bind fun _ => (blind_pushAll arguments).bind fun _ => blind_callValue callee _
  simp only [beginCall]
  rw [hstep log m]
  cases (push callee >>= fun _ => pushAll arguments >>= fun _ => callValue callee arguments.length) m with
  | ok value after => rfl
  | error fault after => cases fault <;> rfl

theorem blind_enterFunction (function : String) (arguments : List Value) :
    Blind (enterFunction function arguments) := by
  refine .of_get (fun _ _ => rfl) fun m => ?_
  split
  · exact blind_fail _
  · split
    · exact blind_fail _
    · dsimp only
      split
      · exact (blind_fail _).bind fun _ => (blind_modify fun _ _ => rfl).bind fun _ => blind_beginCall _ _ _
      · exact (blind_modify fun _ _ => rfl).bind fun _ => blind_beginCall _ _ _

theorem blind_load (fuel : Nat) (unit : CodeUnit) : Blind (load fuel unit) := by
  rw [load_eq]
  exact (blind_enterScript unit).bind fun _ => blind_runLoop fuel false

theorem blind_callGlobal (fuel : Nat) (function : String) (arguments : List Value) :
    Blind (callGlobal fuel function arguments) := by
  rw [callGlobal_eq]
  exact ((blind_enterFunction function arguments).bind fun _ => blind_runLoop fuel false).withPinned arguments

/-- What was printed before a run makes no difference to the run. -/
theorem blind_run (fuel : Nat) (unit : CodeUnit) (entry : String) (arguments : List Value) :
    Blind (run fuel unit entry arguments) := by
  refine Blind.withPinned ((blind_load fuel unit).bind fun value => ?_) arguments
  split
  · exact blind_pure value
  · exact blind_callGlobal fuel entry arguments

theorem Turns.preceded {start m : Machine} {retried : Bool} (hturns : Turns start retried m) (log : String) :
    Turns (start.preceded log) retried (m.preceded log) := by
  induction hturns with
  | start => exact .start
  | @next retried again m after _ hrunning hturn ih =>
    refine .next ih hrunning ?_
    rw [blind_turn, hturn]
    rfl

/-- The boundaries that a machine passes do not depend on what was printed. -/
theorem Passes.preceded {request : HostRequest} {m after : Machine} (hpasses : Passes request m after)
    (log : String) : Passes request (m.preceded log) (after.preceded log) := by
  induction hpasses with
  | @script unit m start after retried hstart hturns =>
    refine .script ?_ (hturns.preceded log)
    rw [blind_enterScript, hstart]
    rfl
  | @function name arguments m start after retried hstart hturns =>
    refine .function ?_ (hturns.preceded log)
    have hsame := blind_enterFunction name arguments log { m with pinned := m.pinned ++ arguments }
    rw [hstart] at hsame
    exact hsame
  | runScript _ ih => exact .runScript ih
  | @runFunction unit entry arguments m loaded after fuel value hload hentry _ ih =>
    have hsame := blind_load fuel unit log { m with pinned := m.pinned ++ arguments }
    rw [hload] at hsame
    exact .runFunction hsame hentry ih

theorem sameEnd_preceding {first second : EStateM.Result Fault Machine Value} (hsame : SameEnd first second)
    (log : String) : SameEnd (preceding log first) (preceding log second) := by
  cases hsame with
  | value hcorr hrel => exact .value { hcorr with output := congrArg (log ++ ·) hcorr.output } hrel
  | failure houtput => exact .failure (congrArg (log ++ ·) houtput)

end Exec

namespace Machine

/-- The machine with nothing printed. -/
def silent (m : Machine) : Machine :=
  { m with output := "" }

theorem preceded_silent (m : Machine) : m.silent.preceded m.output = m := by
  simp [silent, preceded]

theorem Sound.silent {m : Machine} (hsound : m.Sound) : m.silent.Sound := by
  obtain ⟨ρ, hcorr⟩ := hsound
  exact ⟨ρ, { hcorr with output := rfl }⟩

/-- A new machine has left nothing above the top of its stack. -/
theorem leftovers_prepared_ofConfig (config : Config) (unit : CodeUnit) (slot : Nat) :
    ((ofConfig config).prepared unit).leftovers.values[slot]? = none := by
  change ((ofConfig config).leftovers.under 0).values[slot]? = none
  rw [Leftovers.under, if_pos (Nat.zero_le _)]
  exact Std.TreeMap.getElem?_emptyc

/-- Two machines with the same settings that are ready to load a unit: whatever is on their heaps, nothing
refers to it. No slot holds something above the top of both stacks. -/
theorem corresponds_prepared {left right : Machine} (hleft : left.Sound) (hright : right.Sound)
    (hconfig : left.config = right.config)
    (hlimit : left.heap.config.maxHeapBytes = right.heap.config.maxHeapBytes)
    (houtput : left.output = right.output)
    (hpinned : ∀ σ, List.Forall₂ (Value.Related σ) left.pinned right.pinned) (unit : CodeUnit)
    (hleftovers : ∀ slot : Nat, (left.prepared unit).leftovers.values[slot]? = none ∨
      (right.prepared unit).leftovers.values[slot]? = none) :
    Corresponds ⟨fun _ _ => False, fun _ _ => False⟩ (left.prepared unit) (right.prepared unit) := by
  have hheap {m : Machine} (hsound : m.Sound) : m.reset.heap.Sound := by
    obtain ⟨ρ, hcorr⟩ := hsound.reset
    exact hcorr.heap.leftSound
  have hkept {m : Machine} (hsound : m.Sound) : m.reset.heap.config = m.heap.config :=
    (tended_closeCells hsound.orderly 0).1.heapConfig
  have hnone (m : Machine) : (m.prepared unit).openCells = [] := (atRest_reset m).openCells
  have hglobals : (Array.replicate unit.globalNames.size (none : Option Value)).toList =
      List.replicate unit.globalNames.size none := Array.toList_replicate
  exact {
    config := hconfig
    unit := rfl
    chunk := rfl
    ip := rfl
    instructionStart := rfl
    halted := rfl
    output := houtput
    heap := Heap.corresponds_unpaired (hheap hleft) (hheap hright) <| by
      change left.reset.heap.config.maxHeapBytes = right.reset.heap.config.maxHeapBytes
      rw [hkept hleft, hkept hright, hlimit]
    globals := by
      change List.Forall₂ _ (Array.replicate unit.globalNames.size none).toList
        (Array.replicate unit.globalNames.size none).toList
      rw [hglobals]
      exact rel_replicate .none _
    stack := .nil
    leftovers := by
      intro slot first second hfirst hsecond
      rcases hleftovers slot with hnone | hnone
      · rw [hnone] at hfirst
        cases hfirst
      · rw [hnone] at hsecond
        cases hsecond
    frames := .nil
    result := Value.related_nil _
    pinned := hpinned _
    hostValues := .nil
    leftOpen := by
      rw [hnone]
      exact ⟨.nil, fun _ h => by cases h⟩
    rightOpen := by
      rw [hnone]
      exact ⟨.nil, fun _ h => by cases h⟩
    captured := fun first h => by
      rw [hnone] at h
      cases h
    listed := fun _ _ _ h => h.elim
    slots := by rw [openSlots, openSlots, hnone, hnone] }

end Machine

namespace Exec

open Machine

variable {config : Config} {m : Machine}

/-- A machine keeps its settings, whatever it serves. -/
theorem enduring_settings (config : Config) :
    Enduring config (fun _ => True) (fun _ => True)
      (fun m => m.config = config.machine ∧ m.heap.config.maxHeapBytes = config.heap.maxHeapBytes) where
  narrower _ _ := trivial
  spaced _ _ := trivial
  fresh := ⟨rfl, Heap.maxHeapBytes_ofConfig config.heap⟩
  apart hsame hsettings := by
    rw [hsame.config, hsame.heap]
    exact hsettings
  emptied hsettings := hsettings
  started _ _ hsettings _ := hsettings
  collected {m} horderly hsettings := by
    have hlimit : m.collectGarbage.heap.config = m.heap.config :=
      (Heap.collect_spec horderly.heap.idle m.roots).config
    rw [hlimit]
    exact hsettings
  changed hchange horderly _ hsettings := by
    have htended := hchange.tended horderly
    rw [htended.config, htended.heapConfig]
    exact hsettings

theorem History.settings (hhistory : History config m) :
    m.config = config.machine ∧ m.heap.config.maxHeapBytes = config.heap.maxHeapBytes :=
  have hsession : Session doesAnything config m := hhistory.session fun _ _ _ => trivial
  ((enduring_settings config).good_session hsession.provided).holds

/-- The objects fit into the address space when the script of a unit is loaded and during the whole run. -/
structure Fits (unit : CodeUnit) (entry : String) (arguments : List Value) (m : Machine) : Prop where
  loading : unit.verify = .ok () → m.heap.footprint + (Object.unboundClosure unit.script).memorySize < UInt64.size
  running : RunFits unit entry arguments m

theorem Fits.silent {unit : CodeUnit} {entry : String} {arguments : List Value} (hfits : Fits unit entry arguments m) :
    Fits unit entry arguments m.silent := by
  refine ⟨hfits.loading, fun after hpasses => ?_⟩
  have hbefore := hpasses.preceded m.output
  rw [preceded_silent] at hbefore
  obtain ⟨hspace, htried⟩ := hfits.running _ hbefore
  rw [preceded_safepoint, blind_dispatch] at htried
  refine ⟨hspace, ?_⟩
  generalize dispatch after.safepoint = result at htried ⊢
  cases result <;> exact htried

theorem ServesBelow.silent {unit : CodeUnit} {entry : String} {arguments : List Value}
    (hbelow : ServesBelow (.run unit entry arguments) m) : ServesBelow (.run unit entry arguments) m.silent := by
  intro after hpasses hrunning
  have hbefore := hpasses.preceded m.output
  rw [preceded_silent] at hbefore
  have hstays := hbelow _ hbefore hrunning
  exact hstays

theorem fits_ofConfig {unit : CodeUnit} {entry : String} {arguments : List Value}
    (hfits : RunFits unit entry arguments (.ofConfig config)) : Fits unit entry arguments (.ofConfig config) := by
  refine ⟨fun hverified => ?_, hfits⟩
  change (Heap.ofConfig config.heap).footprint + _ < _
  rw [Heap.footprint_ofConfig, memorySize_script hverified]
  decide

theorem SameEnd.symm {first second : EStateM.Result Fault Machine Value} (hsame : SameEnd first second) :
    SameEnd second first := by
  cases hsame with
  | value hcorr hrel => exact .value hcorr.swap hrel.swap
  | failure houtput => exact .failure houtput.symm

/-- Two machines with the same settings run a unit alike, whatever is on their heaps and above the top of one of
their stacks. -/
theorem sameEnd_run_of_settings {left right : Machine} (hleft : left.Sound) (hright : right.Sound)
    (hconfig : left.config = right.config)
    (hlimit : left.heap.config.maxHeapBytes = right.heap.config.maxHeapBytes)
    (houtput : left.output = right.output)
    (hpinned : ∀ σ, List.Forall₂ (Value.Related σ) left.pinned right.pinned) {unit : CodeUnit} {entry : String}
    {arguments : List Scalar}
    (hleftovers : ∀ slot : Nat, (left.prepared unit).leftovers.values[slot]? = none ∨
      (right.prepared unit).leftovers.values[slot]? = none)
    (hbelow : ServesBelow (.run unit entry (arguments.map .scalar)) left ∨
      ServesBelow (.run unit entry (arguments.map .scalar)) right)
    (hleftFits : Fits unit entry (arguments.map .scalar) left)
    (hrightFits : Fits unit entry (arguments.map .scalar) right) {fuel more : Nat}
    (hanswered : Answered (run fuel unit entry (arguments.map .scalar) left)) (hmore : 2 * fuel ≤ more) :
    SameEnd (run fuel unit entry (arguments.map .scalar) left)
      (run more unit entry (arguments.map .scalar) right) := by
  have hleftPin := hleft.pin (accepts_scalars _ arguments)
  have hrightPin := hright.pin (accepts_scalars _ arguments)
  have hprepared := corresponds_prepared hleftPin hrightPin hconfig hlimit houtput
    (fun σ => List.rel_append (hpinned σ) (related_scalars σ arguments)) unit hleftovers
  have hfootprint {m : Machine} (hsound : m.Sound) : (m.prepared unit).heap.footprint = m.heap.footprint :=
    (tended_closeCells hsound.orderly 0).2
  refine sameEnd_run hleft hright hpinned (concluded_enterScript hprepared (fun hverified => ?_)
    fun hverified => ?_) hbelow hleftFits.running hrightFits.running hanswered hmore
  · rw [hfootprint hleftPin]
    exact hleftFits.loading hverified
  · rw [hfootprint hrightPin]
    exact hrightFits.loading hverified

theorem answered_of_preceding {result : EStateM.Result Fault Machine Value} {log : String}
    (hanswered : Answered (preceding log result)) : Answered result := by
  cases result with
  | ok value after => exact .value value after
  | error fault after =>
    cases hanswered
    exact .failure _ after

/-- Whatever a machine has served, a run that names slots below the top only ends as on a new machine. -/
theorem History.sameEnd_run (hhistory : History config m) {unit : CodeUnit} {entry : String} {arguments : List Scalar}
    (hfits : Fits unit entry (arguments.map .scalar) m)
    (hnewFits : RunFits unit entry (arguments.map .scalar) (.ofConfig config))
    (hbelow : ServesBelow (.run unit entry (arguments.map .scalar)) m ∨
      ServesBelow (.run unit entry (arguments.map .scalar)) (.ofConfig config))
    {fuel more : Nat} (hmore : 2 * fuel ≤ more) :
    (Answered (run fuel unit entry (arguments.map .scalar) m) →
      SameEnd (run fuel unit entry (arguments.map .scalar) m)
        (preceding m.output (run more unit entry (arguments.map .scalar) (.ofConfig config)))) ∧
    (Answered (run fuel unit entry (arguments.map .scalar) (.ofConfig config)) →
      SameEnd (run more unit entry (arguments.map .scalar) m)
        (preceding m.output (run fuel unit entry (arguments.map .scalar) (.ofConfig config)))) := by
  obtain ⟨-, hpinned⟩ := hhistory.atRest
  obtain ⟨hconfig, hlimit⟩ := hhistory.settings
  have hsilent (turns : Nat) : run turns unit entry (arguments.map .scalar) m =
      preceding m.output (run turns unit entry (arguments.map .scalar) m.silent) := by
    rw [← blind_run, preceded_silent]
  have hsound := hhistory.sound.silent
  have hnew := sound_ofConfig config
  have hsameLimit : m.silent.heap.config.maxHeapBytes = (ofConfig config).heap.config.maxHeapBytes :=
    hlimit.trans (Heap.maxHeapBytes_ofConfig config.heap).symm
  have hnone (σ : Renaming) : List.Forall₂ (Value.Related σ) m.silent.pinned (ofConfig config).pinned := by
    change List.Forall₂ _ m.pinned []
    rw [hpinned]
    exact .nil
  have hnone' (σ : Renaming) : List.Forall₂ (Value.Related σ) (ofConfig config).pinned m.silent.pinned := by
    change List.Forall₂ _ [] m.pinned
    rw [hpinned]
    exact .nil
  have hbelow := hbelow.imp_left ServesBelow.silent
  refine ⟨fun hanswered => ?_, fun hanswered => ?_⟩
  · rw [hsilent fuel] at hanswered ⊢
    have hsame := sameEnd_run_of_settings hsound hnew hconfig hsameLimit rfl hnone
      (fun slot => .inr (leftovers_prepared_ofConfig config unit slot)) hbelow hfits.silent
      (fits_ofConfig hnewFits) (answered_of_preceding hanswered) hmore
    exact sameEnd_preceding hsame m.output
  · have hsame := sameEnd_run_of_settings hnew hsound hconfig.symm hsameLimit.symm rfl hnone'
      (fun slot => .inl (leftovers_prepared_ofConfig config unit slot)) hbelow.symm (fits_ofConfig hnewFits)
      hfits.silent hanswered hmore
    rw [hsilent more]
    exact sameEnd_preceding hsame.symm m.output

/-- A used machine behaves like a new one as long as the instructions name slots below the top only. Whatever a
host has asked a machine for, with units that were accepted or not, and whatever the answers were, nothing of it
is left over: no values on the stack, no calls, no open cells, nothing kept alive for the host and no code. A run
of any unit then goes as on a new machine with the same settings: if one of them ends with an answer, so does the
other, with the same output and with the same value up to a renaming of objects or the same failure. -/
theorem used_machine_like_new (hhistory : History config m) :
    m.AtRest ∧ m.pinned = [] ∧
      ∀ (unit : CodeUnit) (entry : String) (arguments : List Scalar),
        Fits unit entry (arguments.map .scalar) m →
        RunFits unit entry (arguments.map .scalar) (.ofConfig config) →
        ServesBelow (.run unit entry (arguments.map .scalar)) m ∨
          ServesBelow (.run unit entry (arguments.map .scalar)) (.ofConfig config) →
        ∀ fuel more, 2 * fuel ≤ more →
          (Answered (run fuel unit entry (arguments.map .scalar) m) →
            SameEnd (run fuel unit entry (arguments.map .scalar) m)
              (preceding m.output (run more unit entry (arguments.map .scalar) (.ofConfig config)))) ∧
          (Answered (run fuel unit entry (arguments.map .scalar) (.ofConfig config)) →
            SameEnd (run more unit entry (arguments.map .scalar) m)
              (preceding m.output (run fuel unit entry (arguments.map .scalar) (.ofConfig config)))) := by
  obtain ⟨hidle, hpinned⟩ := hhistory.atRest
  exact ⟨hidle, hpinned, fun _ _ _ hfits hnewFits hbelow _ _ => hhistory.sameEnd_run hfits hnewFits hbelow⟩

/-- Settings with a heap that has just enough room for a script with a closure. -/
def crowded : Config :=
  { heap := { maxHeapBytes := 248 } }

/-- A machine that has served a script which has printed something, and then one that has failed. -/
def servedMachine : Machine :=
  stateAfter (serve 20 (.execute negatingUnit) (stateAfter (serve 20 (.run peekUnit "" []) (.ofConfig crowded))))

theorem history_servedMachine : History crowded servedMachine := by
  have hfirst : Answered (serve 20 (.run peekUnit "" []) (.ofConfig crowded)) :=
    answered_of_isAnswered (by decide +kernel)
  have hsecond : Answered (serve 20 (.execute negatingUnit)
      (stateAfter (serve 20 (.run peekUnit "" []) (.ofConfig crowded)))) :=
    answered_of_isAnswered (by decide +kernel)
  exact .next 20 (.next 20 .fresh ⟨[], rfl⟩ hfirst) ⟨[], rfl⟩ hsecond

/-- On a heap full of garbage a script with a closure runs as on a new one, after what was printed before. -/
theorem used_machine_like_new_crowded :
    History crowded servedMachine ∧ servedMachine.output = "7\n" ∧ servedMachine.AtRest ∧
      SameEnd (run 20 peekUnit "" [] servedMachine)
        (preceding "7\n" (run 40 peekUnit "" [] (.ofConfig crowded))) := by
  have hprinted : servedMachine.output = "7\n" := by decide +kernel
  have hfits : Fits peekUnit "" [] servedMachine := by
    refine ⟨fun _ => ?_, runFits_of_scriptHolds 20 (by decide +kernel)⟩
    rw [Heap.footprint_eq_bytesOf]
    decide +kernel
  have hnewFits : RunFits peekUnit "" [] (.ofConfig crowded) := runFits_of_scriptHolds 20 (by decide +kernel)
  have hbelow : ServesBelow (.run peekUnit "" []) servedMachine := servesBelow_of_scriptHolds 20 (by decide +kernel)
  have hanswered : Answered (run 20 peekUnit "" [] servedMachine) := answered_of_isAnswered (by decide +kernel)
  obtain ⟨hidle, -, hruns⟩ := used_machine_like_new history_servedMachine
  have hsame := (hruns peekUnit "" [] hfits hnewFits (.inl hbelow) 20 40 (by omega)).1 hanswered
  rw [hprinted] at hsame
  exact ⟨history_servedMachine, hprinted, hidle, hsame⟩

/-- A unit whose script pushes a number three times and drops it again. -/
def litteringUnit (number : Int64) : CodeUnit :=
  let push (chunk : Chunk) : Chunk := (chunk.writeOp .constant {}).writeShort 0 {}
  let pushed := push (push (push { constants := #[.scalar (.int number)] }))
  let dropped := ((pushed.writeOp .pop {}).writeOp .pop {}).writeOp .pop {}
  { script := some { name := "<script>", chunk := some (dropped.writeOp .halt {}) } }

/-- A unit whose script calls a closure over a slot to which nothing was pushed, and prints what it gives back. -/
def unpushedUnit : CodeUnit :=
  let code := (({} : Chunk).writeOp .getUpvalue {}).writeShort 0 {}
  let function : Prototype := { name := "f", captures := #[⟨2, true⟩], chunk := some (code.writeOp .ret {}) }
  let closure := (({ functions := #[some function] } : Chunk).writeOp .closure {}).writeShort 0 {}
  let printed := ((closure.writeOp .call {}).writeShort 0 {}).writeOp .printTop {}
  { script := some { name := "<script>", chunk := some (printed.writeOp .halt {}), maxSlots := 3 } }

/-- A machine that has served a script which left a number above the top of the stack. -/
def litteredMachine (number : Int64) : Machine :=
  stateAfter (serve 20 (.execute (litteringUnit number)) (.ofConfig {}))

/-- Above the top an instruction comes across what an earlier run has left: two used machines with the same
settings run the same unit and print different numbers, so a new machine cannot do as both of them do. -/
theorem used_machine_shows_litter :
    unpushedUnit.verify = .ok () ∧ History {} (litteredMachine 7) ∧ History {} (litteredMachine 8) ∧
      (stateAfter (run 20 unpushedUnit "" [] (litteredMachine 7))).output = "7\n" ∧
      (stateAfter (run 20 unpushedUnit "" [] (litteredMachine 8))).output = "8\n" := by
  have hverified : unpushedUnit.verify = .ok () := by decide +kernel
  have hseven : Answered (serve 20 (.execute (litteringUnit 7)) (.ofConfig {})) :=
    answered_of_isAnswered (by decide +kernel)
  have height : Answered (serve 20 (.execute (litteringUnit 8)) (.ofConfig {})) :=
    answered_of_isAnswered (by decide +kernel)
  refine ⟨hverified, .next 20 .fresh ⟨[], rfl⟩ hseven, .next 20 .fresh ⟨[], rfl⟩ height, ?_, ?_⟩
  · decide +kernel
  · decide +kernel

end Exec

end OwnScript
