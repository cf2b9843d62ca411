import OwnScript.Code.Matcher
import OwnScript.Code.Opcode
import OwnScript.Diagnostic

/-!
Chunks: the code of one function with the tables that its instructions index. Code is written at
the end only; the distance of a forward jump is filled in once its target is known.
-/

namespace OwnScript

/-- The largest number that an operand holds. -/
def maxOperand : Nat := 65535

/-- An entry of a constant table. Only scalars pass verification; text and the empty object
reference can be written into a table but not loaded. -/
inductive Constant where
  | scalar (value : Scalar)
  | text (value : String)
  | noObject
  deriving DecidableEq

namespace Constant

/-- Whether an entry needs the heap. -/
def isObject : Constant → Bool
  | .scalar _ => false
  | _ => true

/-- The text of an entry in listings. -/
def shown : Constant → String
  | .scalar value => value.text
  | .text value => value
  | .noObject => "nil"

end Constant

/-- Where a closure finds a captured variable when it is built: in a slot of the frame that
builds it, or among the captured variables of that frame's own closure. -/
structure Capture where
  index : Nat
  isLocal : Bool
  deriving Repr, DecidableEq

mutual

/-- The code of one function and its tables. -/
structure Chunk where
  code : Array UInt8 := #[]
  /-- The source of each byte of code. -/
  locations : Array Location := #[]
  constants : Array Constant := #[]
  strings : Array String := #[]
  matchers : Array Matcher := #[]
  /-- The parameters of each clause of the function. -/
  clauses : Array (List Matcher) := #[]
  /-- The field names of each record literal. -/
  shapes : Array (List String) := #[]
  functions : Array (Option Prototype) := #[]

/-- A function before its variables are captured. -/
structure Prototype where
  name : String
  isProc : Bool := true
  captures : Array Capture := #[]
  chunk : Option Chunk
  /-- The slots of the operand stack that its frame may use. -/
  maxSlots : Nat := 0

end

namespace Chunk

instance : Inhabited Chunk := ⟨{}⟩

/-- Appends a byte. -/
def write (chunk : Chunk) (byte : UInt8) (location : Location) : Chunk :=
  { chunk with code := chunk.code.push byte, locations := chunk.locations.push location }

/-- Appends an opcode byte. -/
def writeOp (chunk : Chunk) (op : Opcode) (location : Location) : Chunk :=
  chunk.write op.toByte location

/-- Appends an operand, high byte first. Only the low 16 bits are kept. -/
def writeShort (chunk : Chunk) (value : Nat) (location : Location) : Chunk :=
  (chunk.write (UInt8.ofNat (value / 256)) location).write (UInt8.ofNat value) location

/-- The operand at an offset, if the code reaches that far. -/
def readShort? (chunk : Chunk) (offset : Nat) : Option Nat :=
  match chunk.code[offset]?, chunk.code[offset + 1]? with
  | some high, some low => some (high.toNat * 256 + low.toNat)
  | _, _ => none

/-- Overwrites the operand at an offset. -/
def patchShort (chunk : Chunk) (offset value : Nat) : Chunk :=
  { chunk with
    code := (chunk.code.setIfInBounds offset (UInt8.ofNat (value / 256))).setIfInBounds
      (offset + 1) (UInt8.ofNat value) }

/-- Appends a jump whose distance is not known yet, and says where the distance goes. -/
def writeJump (chunk : Chunk) (op : Opcode) (location : Location) : Chunk × Nat :=
  let chunk := ((chunk.writeOp op location).write 0xff location).write 0xff location
  (chunk, chunk.code.size - 2)

/-- The source of the byte at an offset. -/
def locationAt (chunk : Chunk) (offset : Nat) : Location :=
  chunk.locations[offset]?.getD {}

/-- The sources of the bytes in order, each with the number of bytes in a row that share it. -/
def locationRuns (chunk : Chunk) : List (Location × Nat) :=
  chunk.locations.foldr
    (fun location runs =>
      match runs with
      | (next, count) :: rest =>
        if next = location then (next, count + 1) :: rest else (location, 1) :: runs
      | [] => [(location, 1)])
    []

/-- Adds a constant. Equal constants are kept apart. -/
def addConstant (chunk : Chunk) (value : Constant) : Chunk × Nat :=
  let index := chunk.constants.size
  ({ chunk with constants := chunk.constants.push value }, index)

/-- Adds a text, or finds it in the table. -/
def addString (chunk : Chunk) (text : String) : Chunk × Nat :=
  match chunk.strings.findIdx? (· == text) with
  | some index => (chunk, index)
  | none =>
    let index := chunk.strings.size
    ({ chunk with strings := chunk.strings.push text }, index)

/-- Adds a matcher. -/
def addMatcher (chunk : Chunk) (matcher : Matcher) : Chunk × Nat :=
  let index := chunk.matchers.size
  ({ chunk with matchers := chunk.matchers.push matcher }, index)

/-- Adds the parameters of a clause. -/
def addClause (chunk : Chunk) (parameters : List Matcher) : Chunk × Nat :=
  let index := chunk.clauses.size
  ({ chunk with clauses := chunk.clauses.push parameters }, index)

/-- Adds the field names of a record literal, or finds them in the table. -/
def addShape (chunk : Chunk) (names : List String) : Chunk × Nat :=
  match chunk.shapes.findIdx? (· == names) with
  | some index => (chunk, index)
  | none =>
    let index := chunk.shapes.size
    ({ chunk with shapes := chunk.shapes.push names }, index)

/-- Adds a function. -/
def addFunction (chunk : Chunk) (function : Option Prototype) : Chunk × Nat :=
  let index := chunk.functions.size
  ({ chunk with functions := chunk.functions.push function }, index)

end Chunk

end OwnScript
