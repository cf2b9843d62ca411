import OwnScript.Code.Unit
import OwnScript.Program.Basic

/-!
The emitter: the code of the function under construction, the variables that its frame holds at
this point, and the functions around it. Locals are kept innermost first; each knows its slot,
which is its distance from the bottom of the frame.
-/

namespace OwnScript

/-- A variable of a frame, or a hidden value that the generated code keeps there. -/
structure Local where
  /-- The declaration; hidden values have none. -/
  binding : Option BindingId
  slot : Nat
  /-- The scope that the variable lives in, counted from the outside. -/
  depth : Nat
  /-- Set when a function inside uses the variable. -/
  captured : Bool := false
  deriving Repr, DecidableEq

/-- The jumps out of the body of a loop whose distance is not known yet. -/
structure LoopJumps where
  leaving : List Nat := []
  skipping : List Nat := []
  /-- The scope around the body. -/
  depth : Nat
  deriving Repr, DecidableEq

/-- A function under construction. -/
structure FunctionCode where
  chunk : Chunk := {}
  /-- The variables of the frame, innermost first. -/
  locals : List Local := []
  captures : Array Capture := #[]
  /-- The loops around the current statement, from the inside out. -/
  loops : List LoopJumps := []
  /-- How many scopes are open. -/
  depth : Nat := 0
  /-- The largest number of variables so far. -/
  maxLocals : Nat := 0

/-- The slots of the global variables. -/
structure GlobalTable where
  slots : Std.TreeMap BindingId Nat := {}
  names : Array String := #[]
  entryPoints : Std.TreeMap String Nat := {}

/-- The state of code generation. -/
structure Emitter where
  globals : GlobalTable
  current : FunctionCode := {}
  /-- The functions around the current one, from the inside out. -/
  enclosing : List FunctionCode := []

/-- Why there is no code: the program breaks a rule or a limit, or it was never accepted by
analysis. -/
inductive LoweringFault where
  | rejected (diagnostic : Diagnostic)
  | notAnalyzed
  | unresolvedName (line : Nat)
  | noGlobalSlot (line : Nat)
  | notVisible (line : Nat)
  deriving DecidableEq

/-- The text of a fault. -/
def LoweringFault.message : LoweringFault → String
  | .rejected diagnostic => diagnostic.headline
  | .notAnalyzed => "Compiler::compile requires a program accepted by StaticAnalyzer"
  | .unresolvedName line => s!"unresolved name reached the compiler at line {line}"
  | .noGlobalSlot line => s!"no global slot for binding at line {line}"
  | .notVisible line => s!"binding is not visible from this function at line {line}"

/-- A step of code generation. -/
abbrev Emit := StateT Emitter (Except LoweringFault)

/-- The largest number of variables in one frame. -/
def maxLocals : Nat := maxOperand

/-- The largest number of variables that one function captures. -/
def maxCaptures : Nat := maxOperand

namespace FunctionCode

/-- The slot of the next variable. -/
def nextSlot (function : FunctionCode) : Nat :=
  match function.locals with
  | [] => 0
  | innermost :: _ => innermost.slot + 1

/-- The slot of the innermost variable of a declaration. -/
def slotOf? (function : FunctionCode) (id : BindingId) : Option Nat :=
  (function.locals.find? (fun var => var.binding == some id)).map (·.slot)

/-- Notes that a function inside uses the variable of a slot. -/
def capture (function : FunctionCode) (slot : Nat) : FunctionCode :=
  { function with
    locals := function.locals.map fun var =>
      if var.slot == slot then { var with captured := true } else var }

/-- The place of a captured variable among those of a function, which is found or added. -/
def addCapture (function : FunctionCode) (capture : Capture) :
    Except LoweringFault (Nat × FunctionCode) :=
  match function.captures.findIdx? (· == capture) with
  | some index => .ok (index, function)
  | none =>
    if function.captures.size ≥ maxCaptures then
      .error (.rejected (.plain .limitExceeded "too many captured variables in closure"))
    else
      .ok (function.captures.size, { function with captures := function.captures.push capture })

/-- The place of a declaration outside a function among the variables that the function
captures. Functions in between capture the variable too. -/
def resolveCapture (id : BindingId) : FunctionCode → List FunctionCode →
    Except LoweringFault (Option (Nat × FunctionCode × List FunctionCode))
  | _, [] => .ok none
  | inner, outer :: rest =>
    match outer.slotOf? id with
    | some slot => do
      let (index, inner) ← inner.addCapture ⟨slot, true⟩
      return some (index, inner, outer.capture slot :: rest)
    | none => do
      match ← resolveCapture id outer rest with
      | none => return none
      | some (place, outer, rest) =>
        let (index, inner) ← inner.addCapture ⟨place, false⟩
        return some (index, inner, outer :: rest)

end FunctionCode

namespace Emit

/-- Gives up because the program is wrong or too large. -/
def reject {α : Type} (diagnostic : Diagnostic) : Emit α :=
  throw (.rejected diagnostic)

/-- Gives up because the program is too large. -/
def limit {α : Type} (message : String) (location : Location) : Emit α :=
  reject { kind := .limitExceeded, location, message }

/-- Changes the function under construction. -/
def modifyCurrent (f : FunctionCode → FunctionCode) : Emit Unit :=
  modify fun e => { e with current := f e.current }

/-- Changes the code of the function under construction. -/
def modifyChunk (f : Chunk → Chunk) : Emit Unit :=
  modifyCurrent fun c => { c with chunk := f c.chunk }

/-- Changes the code of the function under construction, with a result. -/
def withChunk {α : Type} (f : Chunk → Chunk × α) : Emit α :=
  modifyGet fun e =>
    let (chunk, result) := f e.current.chunk
    (result, { e with current := { e.current with chunk } })

/-- The number of bytes written so far. -/
def position : Emit Nat :=
  return (← get).current.chunk.code.size

/-- Writes an operation without operands, or the first byte of one. -/
def op (op : Opcode) (location : Location) : Emit Unit :=
  modifyChunk (·.writeOp op location)

/-- Writes an operand. -/
def short (value : Nat) (location : Location) : Emit Unit :=
  modifyChunk (·.writeShort value location)

/-- Writes an operation with an operand that is known to fit. -/
def opShort (code : Opcode) (value : Nat) (location : Location) : Emit Unit := do
  op code location
  short value location

/-- Writes an operation with an operand that has to fit. -/
def opIndex (code : Opcode) (index : Nat) (location : Location) (what : String) : Emit Unit := do
  if index > maxOperand then
    limit s!"too many {what} in one function" location
  opShort code index location

/-- Loads a constant. -/
def constant (value : Scalar) (location : Location) : Emit Unit := do
  let index ← withChunk (·.addConstant (.scalar value))
  opIndex .constant index location "constants"

/-- Writes an operation on a text. -/
def onString (code : Opcode) (text : String) (location : Location) : Emit Unit := do
  let index ← withChunk (·.addString text)
  opIndex code index location "string constants"

/-- Writes a jump forward, to be completed by `land`. -/
def jump (code : Opcode) (location : Location) : Emit Nat :=
  withChunk (·.writeJump code location)

/-- Completes a jump: its target is here. -/
def land (place : Nat) (location : Location) : Emit Unit := do
  let distance := (← position) - place - 2
  if distance > maxOperand then
    limit "too much code to jump over" location
  modifyChunk (·.patchShort place distance)

/-- Completes several jumps. -/
def landAll (places : List Nat) (location : Location) : Emit Unit :=
  places.forM (land · location)

/-- Writes a jump back. -/
def back (target : Nat) (location : Location) : Emit Unit := do
  op .loopBack location
  let distance := (← position) - target + 2
  if distance > maxOperand then
    limit "loop body too large" location
  short distance location

/-- Opens a scope. -/
def enterScope : Emit Unit :=
  modifyCurrent fun c => { c with depth := c.depth + 1 }

/-- Drops a variable from the stack; one that a function captured moves into its cell. -/
def drop (var : Local) (location : Location) : Emit Unit :=
  op (if var.captured then .closeUpvalue else .pop) location

/-- Closes a scope and drops its variables. -/
def exitScope : Emit Unit := do
  let current := (← get).current
  let depth := current.depth - 1
  let (leaving, locals) := current.locals.span (fun var => depth < var.depth)
  leaving.forM (drop · {})
  modifyCurrent fun c => { c with depth, locals }

/-- Drops the variables of the scopes inside a depth without forgetting them, for a jump that
leaves the scopes early. -/
def unwind (depth : Nat) (location : Location) : Emit Unit := do
  ((← get).current.locals.takeWhile (fun var => depth < var.depth)).forM (drop · location)

/-- Gives a name to the value that is on top of the stack. -/
def declareLocal (binding : Option BindingId) (location : Location) : Emit Nat := do
  let current := (← get).current
  let slot := current.nextSlot
  if slot ≥ maxLocals then
    limit "too many local variables in function" location
  modifyCurrent fun c =>
    { c with
      locals := { binding, slot, depth := c.depth } :: c.locals
      maxLocals := max c.maxLocals (slot + 1) }
  return slot

/-- The variables of some slots in a row, innermost first. -/
@[noinline] def localsFrom (slot count : Nat) : Emit (List Local) :=
  return (← get).current.locals.filter fun var => slot ≤ var.slot && var.slot < slot + count

/-- How a variable is accessed. -/
inductive Access where
  | get
  | set
  | move
  deriving Repr, DecidableEq

/-- The operation for an access to a global variable. -/
def Access.global : Access → Opcode
  | .get => .getGlobal
  | .set => .setGlobal
  | .move => .moveGlobal

/-- The operation for an access to a variable of the frame. -/
def Access.frame : Access → Opcode
  | .get => .getLocal
  | .set => .setLocal
  | .move => .moveLocal

/-- The operation for an access to a captured variable. -/
def Access.captured : Access → Opcode
  | .get => .getUpvalue
  | .set => .setUpvalue
  | .move => .moveUpvalue

/-- The slot of a global variable. -/
def globalSlot (id : BindingId) (location : Location) : Emit Nat := do
  match (← get).globals.slots[id]? with
  | some slot => return slot
  | none => throw (.noGlobalSlot location.line)

/-- The place of a declaration among the variables that the current function captures. -/
def captureOf? (id : BindingId) : Emit (Option Nat) := do
  let e ← get
  match e.current.resolveCapture id e.enclosing with
  | .error fault => throw fault
  | .ok none => return none
  | .ok (some (index, current, enclosing)) =>
    set { e with current, enclosing }
    return some index

/-- Accesses a variable wherever it lives. -/
def access (resolution : Resolution) (how : Access) (location : Location) : Emit Unit := do
  match resolution.binding with
  | none => throw (.unresolvedName location.line)
  | some id =>
    if resolution.isGlobal then
      opShort how.global (← globalSlot id location) location
    else
      match (← get).current.slotOf? id with
      | some slot => opShort how.frame slot location
      | none =>
        match ← captureOf? id with
        | some index => opShort how.captured index location
        | none => throw (.notVisible location.line)

/-- Opens a loop. -/
def enterLoop : Emit Unit :=
  modifyCurrent fun c => { c with loops := { depth := c.depth } :: c.loops }

/-- Completes the jumps that go on with the next turn of the innermost loop. -/
def landSkipping (location : Location) : Emit Unit := do
  landAll ((← get).current.loops.head?.elim [] (·.skipping)) location

/-- Completes the jumps that leave the innermost loop, and closes it. -/
def exitLoop (location : Location) : Emit Unit := do
  landAll ((← get).current.loops.head?.elim [] (·.leaving)) location
  modifyCurrent fun c => { c with loops := c.loops.tail }

/-- Jumps out of the body of the innermost loop, dropping the variables of its scopes. -/
def jumpFromLoop (word : String) (add : LoopJumps → Nat → LoopJumps) (location : Location) :
    Emit Unit := do
  match (← get).current.loops with
  | [] =>
    reject { kind := .breakOutsideLoop, location, message := s!"'{word}' outside of loop"
             context := word }
  | loop :: _ =>
    unwind loop.depth location
    let place ← jump .jump location
    modifyCurrent fun c =>
      match c.loops with
      | [] => c
      | loop :: rest => { c with loops := add loop place :: rest }

/-- Leaves the innermost loop. -/
def leaveLoop (location : Location) : Emit Unit :=
  jumpFromLoop "break" (fun loop place => { loop with leaving := place :: loop.leaving }) location

/-- Goes on with the next turn of the innermost loop. -/
def skipLoop (location : Location) : Emit Unit :=
  jumpFromLoop "continue" (fun loop place => { loop with skipping := place :: loop.skipping })
    location

/-- Starts a function inside the current one. -/
def enterFunction : Emit Unit :=
  modify fun e => { e with current := {}, enclosing := e.current :: e.enclosing }

/-- Starts a clause: its frame holds nothing yet. -/
def enterClause : Emit Unit :=
  modifyCurrent fun c => { c with locals := [], loops := [], depth := 1 }

/-- Ends a function, goes back to the one around it and builds a closure there. -/
def exitFunction (name : String) (isProc : Bool) (location : Location) : Emit Unit := do
  let built := (← get).current
  let prototype : Prototype :=
    { name := if name.isEmpty then "<lambda>" else name
      isProc
      captures := built.captures
      chunk := some built.chunk
      maxSlots := built.maxLocals }
  modify fun e =>
    match e.enclosing with
    | [] => e
    | current :: enclosing => { e with current, enclosing }
  let index ← withChunk (·.addFunction (some prototype))
  opIndex .closure index location "functions"

end Emit

end OwnScript
