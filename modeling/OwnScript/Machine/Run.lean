import OwnScript.Code.Verification
import OwnScript.Machine.Step

/-!
Running code. Between instructions the machine collects garbage if that is due. An instruction
that finds the heap full runs once more after a collection; if it fails again, the program is out
of memory. A failure carries the place in the source and the active calls, and leaves the machine
ready for the next run.

A run takes fuel, one unit for each turn of the loop, so that runs without end are cut off.
-/

namespace OwnScript

namespace Machine

/-- The active calls, innermost first, each with the place where it stands. Callers wait just
after the instruction that made the call. -/
def activeCalls (m : Machine) : List Frame → Option Chunk → Nat → List Diagnostic.Frame
  | [], _, _ => []
  | frame :: rest, chunk, offset =>
    { function := m.functionName frame.closure
      offset
      location := (chunk.map (·.locationAt offset)).getD {} }
    :: m.activeCalls rest frame.caller (frame.returnTo - Opcode.call.size)

/-- A failure with the place and the active calls added. -/
def locate (m : Machine) (diagnostic : Diagnostic) : Diagnostic :=
  let location :=
    match m.chunk with
    | some chunk =>
      if diagnostic.location.known then diagnostic.location
      else chunk.locationAt m.instructionStart
    | none => diagnostic.location
  let frames := diagnostic.frames
    ++ m.activeCalls m.frames.toList.reverse m.chunk m.instructionStart
  let context :=
    if diagnostic.context.isEmpty then (frames.head?.map (·.function)).getD ""
    else diagnostic.context
  { diagnostic with location, frames, context }

/-- What is done before an instruction: a collection if one is due, and a line in the trace. -/
def safepoint (m : Machine) : Machine :=
  let m := if m.heap.shouldCollect then m.collectGarbage else m
  let m := { m with instructionStart := m.ip }
  if m.config.traceExecution then
    match m.chunk with
    | some chunk => { m with trace := m.trace ++ (chunk.listInstruction m.ip).1 }
    | none => m
  else m

end Machine

namespace Exec

/-- Ends a run with a failure. -/
def raise {α : Type} (diagnostic : Diagnostic) : Exec α := do
  let m ← get
  set m.reset
  fail (m.locate diagnostic)

/-- One turn of the loop. The argument says whether the instruction runs for the second time
after the heap was full, and the result whether the next turn is such a second time. -/
def turn (retried : Bool) : Exec Bool := fun m =>
  match dispatch m.safepoint with
  | .ok () m => .ok false m
  | .error (.exhausted request) m =>
    if retried then
      raise (.plain .outOfMemory
        s!"cannot allocate {request.requested.toNat} bytes after a full collection") m
    else
      .ok true { m with ip := m.instructionStart }.collectGarbage
  | .error (.failure diagnostic) m => raise diagnostic m
  | .error fault m => .error fault m

/-- Runs until the call by the host returns. -/
def runLoop : Nat → Bool → Exec Value
  | 0, _ => throw .outOfFuel
  | fuel + 1, retried => do
    if (← get).halted then
      modify fun m => { m with halted := false }
      return (← get).result
    else
      runLoop fuel (← turn retried)

/-- Allocates an object for the host, collecting garbage if that is needed. -/
def allocateForHost (object : Object) : Exec Ref := fun m =>
  match onHeap (Heap.allocate object) m with
  | .ok ref m => .ok ref m
  | .error _ m =>
    match onHeap (Heap.allocate object) m.collectGarbage with
    | .ok ref m => .ok ref m
    | .error _ m => fail (.plain .outOfMemory "heap exhausted after a full collection") m

/-- Keeps values of the host alive during a step. -/
def withPinned {α : Type} (values : List Value) (step : Exec α) : Exec α := fun m =>
  let restore (after : Machine) : Machine := { after with pinned := m.pinned }
  match step { m with pinned := m.pinned ++ values } with
  | .ok value after => .ok value (restore after)
  | .error fault after => .error fault (restore after)

/-- Makes a string for the host. It stays alive until the next run. -/
def makeString (text : String) : Exec Value := do
  let value := Value.ofRef (← allocateForHost (.string text))
  modify fun m => { m with hostValues := m.hostValues ++ [value] }
  return value

/-- Forgets the run before: nothing is active and no string is kept for the host. -/
def forgetRun : Exec Unit :=
  modify fun m => { m.reset with hostValues := [] }

/-- Verifies and loads a unit, then runs its script. -/
def load (fuel : Nat) (unit : CodeUnit) : Exec Value := do
  ofExcept unit.verify
  forgetRun
  modify fun m =>
    { m with
      unit
      globals := Array.replicate unit.globalNames.size none
      result := .nil }
  let script ← allocateForHost (.unboundClosure unit.script)
  push (.ofRef script)
  modify fun m =>
    { m with
      frames := m.frames.push
        { base := 1, returnTo := 0, caller := none, closure := script, argumentCount := 0 }
      chunk := unit.script.bind (·.chunk)
      ip := 0 }
  runLoop fuel false

/-- Starts a call by the host: the function and its arguments go on the stack. -/
def beginCall (function : String) (callee : Value) (arguments : List Value) : Exec Unit := fun m =>
  let step : Exec Unit := do
    push callee
    pushAll arguments
    callValue callee arguments.length
  match step m with
  | .error (.failure diagnostic) m => fail { diagnostic with context := function } m.reset
  | outcome => outcome

/-- Calls a global function of the loaded unit. -/
def callGlobal (fuel : Nat) (function : String) (arguments : List Value) : Exec Value :=
  withPinned arguments do
    let m ← get
    match m.unit.entryPoints[function]? with
    | none => fail (.about .undefinedGlobal function s!"no global function named '{function}'")
    | some slot =>
      match (m.globals[slot]?).join with
      | none =>
        fail (.about .undefinedGlobal function s!"global function '{function}' is not defined yet")
      | some callee =>
        if arguments.length > maxOperand then
          fail (.plain .stackOverflow "too many arguments")
        forgetRun
        beginCall function callee arguments
        runLoop fuel false

/-- Loads a unit and runs its script, then calls an entry function if one is named. -/
def run (fuel : Nat) (unit : CodeUnit) (entry : String) (arguments : List Value) : Exec Value :=
  withPinned arguments do
    let value ← load fuel unit
    if entry.isEmpty then return value else callGlobal fuel entry arguments

end Exec

end OwnScript
