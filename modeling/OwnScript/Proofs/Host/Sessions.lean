import OwnScript.Proofs.Machine.Dispatch

/-!
What a host does with a machine: it makes strings, loads and runs units, calls functions and asks
for collections, one after the other and each for as long as it likes. A session is any sequence of
such requests; while a request is served the machine passes instruction boundaries.
-/

namespace OwnScript

open Stateful

/-- A request of a host. -/
inductive HostRequest where
  | makeString (text : String)
  | execute (unit : CodeUnit)
  | call (function : String) (arguments : List Value)
  | run (unit : CodeUnit) (entry : String) (arguments : List Value)
  | collect

/-- The values that a host hands in with a request. -/
def HostRequest.arguments : HostRequest → List Value
  | .call _ arguments => arguments
  | .run _ _ arguments => arguments
  | _ => []

namespace Exec

/-- Verifies and loads a unit and stops before the first instruction of its script. -/
def enterScript (unit : CodeUnit) : Exec Unit := do
  ofExcept unit.verify
  forgetRun
  modify fun m =>
    { m with
      unit
      globals := Array.replicate unit.globalNames.size none
      result := .nil }
  let script ← allocateForHost (.unboundClosure unit.script)
  push (.ofRef script)
  modify fun m =>
    { m with
      frames := m.frames.push
        { base := 1, returnTo := 0, caller := none, closure := script, argumentCount := 0 }
      chunk := unit.script.bind (·.chunk)
      ip := 0 }

/-- Starts a call of a global function and stops before its first instruction. -/
def enterFunction (function : String) (arguments : List Value) : Exec Unit := do
  let m ← get
  match m.unit.entryPoints[function]? with
  | none => fail (.about .undefinedGlobal function s!"no global function named '{function}'")
  | some slot =>
    match (m.globals[slot]?).join with
    | none =>
      fail (.about .undefinedGlobal function s!"global function '{function}' is not defined yet")
    | some callee =>
      if arguments.length > maxOperand then
        fail (.plain .stackOverflow "too many arguments")
      forgetRun
      beginCall function callee arguments

theorem load_eq (fuel : Nat) (unit : CodeUnit) :
    load fuel unit = (enterScript unit >>= fun _ => runLoop fuel false) := by
  simp only [load, enterScript, bind_assoc]

theorem callGlobal_eq (fuel : Nat) (function : String) (arguments : List Value) :
    callGlobal fuel function arguments =
      withPinned arguments (enterFunction function arguments >>= fun _ => runLoop fuel false) := by
  simp only [callGlobal, enterFunction, bind_assoc]
  congr 1
  funext m
  rw [get_bind_apply, get_bind_apply]
  cases m.unit.entryPoints[function]? with
  | none => rfl
  | some slot =>
    dsimp only
    cases (m.globals[slot]?).join with
    | none => rfl
    | some callee =>
      dsimp only
      split
      · rfl
      · simp only [bind_assoc]

/-- Serves a request, for so many turns at most. -/
def serve (fuel : Nat) : HostRequest → Exec Unit
  | .makeString text => discard (makeString text)
  | .execute unit => discard (load fuel unit)
  | .call function arguments => discard (callGlobal fuel function arguments)
  | .run unit entry arguments => discard (run fuel unit entry arguments)
  | .collect => modify Machine.collectGarbage

/-- The machine at the instruction boundaries of a run: it goes on turn by turn until it halts. -/
inductive Turns (start : Machine) : Bool → Machine → Prop where
  | start : Turns start false start
  | next {retried again : Bool} {m after : Machine} : Turns start retried m → m.halted = false →
      turn retried m = .ok again after → Turns start again after

/-- The machine at the instruction boundaries that it passes while it serves a request. -/
inductive Passes : HostRequest → Machine → Machine → Prop where
  | script {unit : CodeUnit} {m start after : Machine} {retried : Bool} :
      enterScript unit m = .ok () start → Turns start retried after → Passes (.execute unit) m after
  | function {function : String} {arguments : List Value} {m start after : Machine} {retried : Bool} :
      enterFunction function arguments { m with pinned := m.pinned ++ arguments } = .ok () start →
      Turns start retried after → Passes (.call function arguments) m after
  | runScript {unit : CodeUnit} {entry : String} {arguments : List Value} {m after : Machine} :
      Passes (.execute unit) { m with pinned := m.pinned ++ arguments } after →
      Passes (.run unit entry arguments) m after
  | runFunction {unit : CodeUnit} {entry : String} {arguments : List Value} {m loaded after : Machine}
      {fuel : Nat} {value : Value} :
      load fuel unit { m with pinned := m.pinned ++ arguments } = .ok value loaded →
      entry.isEmpty = false → Passes (.call entry arguments) loaded after → Passes (.run unit entry arguments) m after

/-- The machine with which a run starts that serves a request. -/
inductive Begins : HostRequest → Machine → Machine → Prop where
  | script {unit : CodeUnit} {m start : Machine} : enterScript unit m = .ok () start →
      Begins (.execute unit) m start
  | function {function : String} {arguments : List Value} {m start : Machine} :
      enterFunction function arguments { m with pinned := m.pinned ++ arguments } = .ok () start →
      Begins (.call function arguments) m start
  | runScript {unit : CodeUnit} {entry : String} {arguments : List Value} {m start : Machine} :
      Begins (.execute unit) { m with pinned := m.pinned ++ arguments } start →
      Begins (.run unit entry arguments) m start
  | runFunction {unit : CodeUnit} {entry : String} {arguments : List Value} {m loaded start : Machine}
      {fuel : Nat} {value : Value} :
      load fuel unit { m with pinned := m.pinned ++ arguments } = .ok value loaded →
      entry.isEmpty = false → Begins (.call entry arguments) loaded start →
      Begins (.run unit entry arguments) m start

theorem Begins.passes {request : HostRequest} {m start : Machine} (hbegins : Begins request m start) :
    Passes request m start := by
  induction hbegins with
  | script hstart => exact .script hstart .start
  | function hstart => exact .function hstart .start
  | runScript _ ih => exact .runScript ih
  | runFunction hload hentry _ ih => exact .runFunction hload hentry ih

/-- The machine after so many more turns, if the run goes on for as long. -/
def advance : Nat → Bool → Machine → Option Machine
  | 0, _, m => some m
  | turns + 1, retried, m =>
    if m.halted then none
    else
      match turn retried m with
      | .ok again after => advance turns again after
      | .error _ _ => none

theorem Turns.advance {start m after : Machine} {retried : Bool} (hturns : Turns start retried m)
    {turns : Nat} (hadvance : advance turns retried m = some after) :
    ∃ again, Turns start again after := by
  induction turns generalizing m retried with
  | zero =>
    cases hadvance
    exact ⟨retried, hturns⟩
  | succ turns ih =>
    simp only [Exec.advance] at hadvance
    split at hadvance
    · cases hadvance
    · rename_i hrunning
      split at hadvance
      · rename_i again next hturn
        exact ih (.next hturns (by simpa using hrunning) hturn) hadvance
      · cases hadvance

/-- The machine after a unit was entered and so many turns of its script, if the run goes on for as
long. -/
def boundary (unit : CodeUnit) (turns : Nat) (m : Machine) : Option Machine :=
  match enterScript unit m with
  | .ok () start => advance turns false start
  | .error _ _ => none

theorem passes_boundary {unit : CodeUnit} {turns : Nat} {m after : Machine}
    (hboundary : boundary unit turns m = some after) : Passes (.execute unit) m after := by
  unfold boundary at hboundary
  split at hboundary
  · rename_i start hstart
    obtain ⟨again, hturns⟩ := Turns.start.advance hboundary
    exact .script hstart hturns
  · cases hboundary

/-- Whether a check holds until the run ends, after so many turns at most. -/
def holdsThroughout (check : Machine → Bool) : Nat → Bool → Machine → Bool
  | 0, _, _ => false
  | turns + 1, retried, m =>
    check m && (m.halted ||
      match turn retried m with
      | .ok again after => holdsThroughout check turns again after
      | .error _ _ => true)

theorem Turns.checked {check : Machine → Bool} {start m : Machine} {retried : Bool}
    (hturns : Turns start retried m) {turns : Nat}
    (hholds : holdsThroughout check turns false start = true) : check m = true := by
  have hgoesOn : ∃ left, holdsThroughout check left retried m = true := by
    induction hturns with
    | start => exact ⟨turns, hholds⟩
    | @next retried again m after _ hrunning hturn ih =>
      obtain ⟨left, hleft⟩ := ih
      cases left with
      | zero => cases hleft
      | succ left =>
        simp only [holdsThroughout, hrunning, hturn, Bool.false_or, Bool.and_eq_true] at hleft
        exact ⟨left, hleft.2⟩
  obtain ⟨left, hleft⟩ := hgoesOn
  cases left with
  | zero => cases hleft
  | succ left =>
    simp only [holdsThroughout, Bool.and_eq_true] at hleft
    exact hleft.1

/-- Whether a check holds while a script runs, which it does for so many turns at most. -/
def scriptHolds (check : Machine → Bool) (unit : CodeUnit) (turns : Nat) (m : Machine) : Bool :=
  match enterScript unit m with
  | .ok () start => holdsThroughout check turns false start
  | .error _ _ => true

/-- A run without an entry function passes what its script passes. -/
theorem Passes.checked {check : Machine → Bool} {unit : CodeUnit} {m after : Machine}
    (hpasses : Passes (.run unit "" []) m after) {turns : Nat}
    (hholds : scriptHolds check unit turns m = true) : check after = true := by
  cases hpasses with
  | runScript hscript =>
    rw [List.append_nil] at hscript
    cases hscript with
    | script hstart hturns =>
      rw [scriptHolds, hstart] at hholds
      exact hturns.checked hholds
  | runFunction _ hentry => exact absurd hentry (by decide)

/-- While a machine serves a request, its instructions name slots below the top only. -/
def ServesBelow (request : HostRequest) (m : Machine) : Prop :=
  ∀ after, Passes request m after → after.halted = false → after.StaysBelow

/-- The machine between the requests of a host, all of them of an allowed kind. -/
inductive Session (allowed : Machine → HostRequest → Prop) (config : Config) : Machine → Prop where
  | fresh : Session allowed config (.ofConfig config)
  | next {m : Machine} {request : HostRequest} (fuel : Nat) : Session allowed config m →
      allowed m request → Session allowed config (stateAfter (serve fuel request m))

end Exec

/-- A function that gives back the variable that it captures. -/
def peekFunction : Prototype :=
  let code := (({} : Chunk).writeOp .getUpvalue {}).writeShort 0 {}
  { name := "peek", captures := #[⟨0, true⟩], chunk := some (code.writeOp .ret {}) }

/-- A unit whose script captures a variable, calls the closure and prints what it gives back. -/
def peekUnit : CodeUnit :=
  let empty : Chunk := { constants := #[.scalar (.int 7)], functions := #[some peekFunction] }
  let first := (empty.writeOp .constant {}).writeShort 0 {}
  let closure := (first.writeOp .closure {}).writeShort 0 {}
  let called := (closure.writeOp .call {}).writeShort 0 {}
  let closed := (called.writeOp .printTop {}).writeOp .closeUpvalue {}
  { script := some { name := "<script>", chunk := some (closed.writeOp .halt {}), maxSlots := 1 } }

/-- A function that takes its argument and itself off the stack, pushes something and only then matches its
argument, which it finds above the top. -/
def hindsightFunction (push : Chunk → Chunk) (matcher : Matcher) : Prototype :=
  let empty : Chunk := { strings := #["xyz"], clauses := #[[matcher]] }
  let pushed := push ((empty.writeOp .pop {}).writeOp .pop {})
  let matched := (pushed.writeOp .matchArgs {}).writeShort 0 {}
  { name := "f", chunk := some (matched.writeOp .ret {}), maxSlots := 1 }

/-- A unit whose script calls such a function with a string and prints what it gives back. -/
def hindsightUnit (push : Chunk → Chunk) (matcher : Matcher) : CodeUnit :=
  let empty : Chunk := { strings := #["abc"], functions := #[some (hindsightFunction push matcher)] }
  let closure := (empty.writeOp .closure {}).writeShort 0 {}
  let argument := (closure.writeOp .string {}).writeShort 0 {}
  let called := (argument.writeOp .call {}).writeShort 1 {}
  let printed := called.writeOp .printTop {}
  { script := some { name := "<script>", chunk := some (printed.writeOp .halt {}) } }

end OwnScript
