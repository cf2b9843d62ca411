import OwnScript.Code.Unit

/-!
Verification of units before they are loaded. A unit passes when every function has code that
splits into instructions, every operand leads into its table, every jump lands on the start of
an instruction and control cannot run past the end. The first flaw in a fixed order is reported.
-/

namespace OwnScript

/-- How many levels of functions, and of matchers, may lie below the outermost one. -/
def maxNesting : Nat := 256

/-- What is wrong with an operand. -/
inductive OperandFlaw where
  | constantRange
  | heapConstant
  | stringRange
  | globalRange
  | localRange
  | captureRange
  | jumpTarget
  | loopTarget
  | functionRange
  | shapeRange
  | matcherRange
  | scrutineeRange
  | clauseRange
  deriving Repr, DecidableEq

/-- The text of a flaw of an operand. -/
def OperandFlaw.message : OperandFlaw → String
  | .constantRange => "constant index out of range"
  | .heapConstant => "heap constant in constant pool"
  | .stringRange => "string index out of range"
  | .globalRange => "global slot out of range"
  | .localRange => "local slot out of range"
  | .captureRange => "upvalue index out of range"
  | .jumpTarget => "jump target is not an instruction"
  | .loopTarget => "loop target is not an instruction"
  | .functionRange => "function index out of range"
  | .shapeRange => "record shape out of range"
  | .matcherRange => "pattern index out of range"
  | .scrutineeRange => "scrutinee slot out of range"
  | .clauseRange => "clause index out of range"

/-- What is wrong with a function. -/
inductive FunctionFlaw where
  | nesting
  | noChunk
  | emptyChunk
  | locationTable
  | scriptCapture
  | captureRange
  | matcher
  | parameterMatcher
  | unknownOpcode (byte : UInt8)
  | truncated
  | openEnd
  | operand (op : Opcode) (flaw : OperandFlaw)
  | missingFunction
  deriving Repr, DecidableEq

/-- The text of a flaw of a function. -/
def FunctionFlaw.message : FunctionFlaw → String
  | .nesting => "function nesting too deep"
  | .noChunk => "function has no chunk"
  | .emptyChunk => "empty chunk"
  | .locationTable => "location table does not cover the code"
  | .scriptCapture => "script cannot capture upvalues"
  | .captureRange => "upvalue descriptor out of range"
  | .matcher => "malformed pattern"
  | .parameterMatcher => "malformed parameter pattern"
  | .unknownOpcode byte => s!"unknown opcode {byte.toNat}"
  | .truncated => "truncated instruction"
  | .openEnd => "execution can run past the end of the chunk"
  | .operand op flaw => s!"{op.name}: {flaw.message}"
  | .missingFunction => "null function prototype"

/-- The report of a flaw at an offset of a function. -/
def FunctionFlaw.report (flaw : FunctionFlaw) (prototype : Prototype) (offset : Nat) : Diagnostic :=
  { kind := .malformedBytecode
    location := (prototype.chunk.map (·.locationAt offset)).getD {}
    message := s!"{flaw.message} at offset {offset}"
    context := prototype.name }

/-- A flaw of a function at an offset. -/
abbrev Located := Except (FunctionFlaw × Nat)

namespace Chunk

/-- Splits the code from an offset on into instructions, each with its offset, after those found
so far. No instruction is empty, so there are at most as many as there are bytes. -/
def splitFrom (chunk : Chunk) : Nat → Nat → Array (Nat × Opcode) → Located (Array (Nat × Opcode))
  | 0, _, found => .ok found
  | bytes + 1, offset, found =>
    match chunk.code[offset]? with
    | none => .ok found
    | some byte =>
      match Opcode.ofByte? byte with
      | none => .error (.unknownOpcode byte, offset)
      | some op =>
        if offset + op.size > chunk.code.size then .error (.truncated, offset)
        else splitFrom chunk bytes (offset + op.size) (found.push (offset, op))

/-- The instructions of a chunk, each with its offset. -/
def instructions (chunk : Chunk) : Located (Array (Nat × Opcode)) :=
  chunk.splitFrom chunk.code.size 0 #[]

/-- For each offset, the end of the code included, whether an instruction starts there. -/
def starts (chunk : Chunk) (instructions : Array (Nat × Opcode)) : Array Bool :=
  instructions.foldl (fun marks (offset, _) => marks.setIfInBounds offset true)
    (Array.replicate (chunk.code.size + 1) false)

end Chunk

/-- The limits that the operands of a function must keep. -/
structure OperandLimits where
  /-- The global slots of the unit. -/
  globals : Nat
  /-- The slots of the function's frame. -/
  slots : Nat
  /-- The variables that the function captures. -/
  captures : Nat
  /-- Where instructions start. -/
  starts : Array Bool

/-- A condition on an operand. -/
def requireOperand (op : Opcode) (offset : Nat) (holds : Bool) (flaw : OperandFlaw) : Located Unit :=
  if holds then .ok () else .error (.operand op flaw, offset)

/-- Whether the operands of the instruction at an offset keep their limits. -/
def Chunk.checkOperands (chunk : Chunk) (limits : OperandLimits) (offset : Nat) (op : Opcode) :
    Located Unit :=
  let operand (i : Nat) : Nat := (chunk.readShort? (offset + 1 + 2 * i)).getD 0
  let require := requireOperand op offset
  match op with
  | .constant => do
    require (operand 0 < chunk.constants.size) .constantRange
    require (!(chunk.constants[operand 0]?.any Constant.isObject)) .heapConstant
  | .string | .getField | .setField => require (operand 0 < chunk.strings.size) .stringRange
  | .getGlobal | .setGlobal | .moveGlobal => require (operand 0 < limits.globals) .globalRange
  | .getLocal | .setLocal | .moveLocal => require (operand 0 < limits.slots) .localRange
  | .getUpvalue | .setUpvalue | .moveUpvalue => require (operand 0 < limits.captures) .captureRange
  | .jump | .jumpIfFalse | .jumpIfTrue =>
    let target := offset + 3 + operand 0
    require (target < chunk.code.size && limits.starts[target]?.getD false) .jumpTarget
  | .loopBack =>
    require (operand 0 ≤ offset + 3 && limits.starts[offset + 3 - operand 0]?.getD false) .loopTarget
  | .closure => require (operand 0 < chunk.functions.size) .functionRange
  | .record => require (operand 0 < chunk.shapes.size) .shapeRange
  | .matchValue => do
    require (operand 0 < chunk.matchers.size) .matcherRange
    require (operand 1 < limits.slots) .scrutineeRange
  | .matchArgs => require (operand 0 < chunk.clauses.size) .clauseRange
  | _ => .ok ()

/-- The captured variables of a function exist where it is built. The script is built by nobody. -/
def Prototype.checkCaptures (prototype : Prototype) (enclosing : Option Prototype) : Located Unit :=
  prototype.captures.forM fun capture =>
    match enclosing with
    | none => .error (.scriptCapture, 0)
    | some outer =>
      if capture.index < (if capture.isLocal then outer.maxSlots else outer.captures.size) then .ok ()
      else .error (.captureRange, 0)

/-- The code and the tables of a function, apart from the functions in it. -/
def Prototype.checkChunk (prototype : Prototype) (globals : Nat) (enclosing : Option Prototype)
    (chunk : Chunk) : Located Unit := do
  if chunk.code.isEmpty then .error (.emptyChunk, 0)
  if chunk.locations.size ≠ chunk.code.size then .error (.locationTable, 0)
  prototype.checkCaptures enclosing
  unless chunk.matchers.all (·.wellFormed maxNesting) do .error (.matcher, 0)
  unless chunk.clauses.all (·.all (·.wellFormed maxNesting)) do .error (.parameterMatcher, 0)
  let instructions ← chunk.instructions
  unless instructions.back?.any (·.2.endsControlFlow) do .error (.openEnd, chunk.code.size)
  let limits : OperandLimits :=
    { globals, slots := prototype.maxSlots, captures := prototype.captures.size
      starts := chunk.starts instructions }
  instructions.forM fun (offset, op) => chunk.checkOperands limits offset op

/-- A function and the functions in it, down to a number of levels. -/
def Prototype.verify (globals : Nat) :
    (levels : Nat) → (enclosing : Option Prototype) → Prototype → Except Diagnostic Unit
  | 0, _, prototype => .error (FunctionFlaw.nesting.report prototype 0)
  | levels + 1, enclosing, prototype =>
    match prototype.chunk with
    | none => .error (FunctionFlaw.noChunk.report prototype 0)
    | some chunk =>
      match prototype.checkChunk globals enclosing chunk with
      | .error (flaw, offset) => .error (flaw.report prototype offset)
      | .ok () =>
        chunk.functions.forM fun
          | none => .error (FunctionFlaw.missingFunction.report prototype 0)
          | some inner => inner.verify globals levels (some prototype)

namespace CodeUnit

/-- Accepts a unit that a machine can load, or reports its first flaw. -/
def verify (unit : CodeUnit) : Except Diagnostic Unit := do
  let refuse (message : String) : Except Diagnostic Unit :=
    .error (.plain .malformedBytecode message)
  if unit.version ≠ formatVersion then
    refuse s!"unsupported bytecode format version {unit.version}"
  match unit.script with
  | none => refuse "unit has no script function"
  | some script =>
    if unit.globalNames.size > maxOperand + 1 then refuse "too many globals"
    unit.entryPoints.toList.forM fun (name, slot) =>
      if slot < unit.globalNames.size then .ok ()
      else refuse s!"entry point '{name}' has no global slot"
    script.verify unit.globalNames.size (maxNesting + 1) none

end CodeUnit

end OwnScript
