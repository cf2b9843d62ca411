import Mathlib
import OwnScript.Code.Chunk

/-!
Instructions as they stand in code: the opcode byte, and behind it the operands, each of two bytes with
the high one first.
-/

namespace OwnScript.Chunk

/-- The operand of that number of an instruction; an operation without it has zero. -/
def operandAt? (chunk : Chunk) (op : Opcode) (offset i : Nat) : Option Nat :=
  if i < op.operandCount then chunk.readShort? (offset + 1 + 2 * i) else some 0

/-- The instruction at an offset: the operation and its operands. -/
def instructionAt? (chunk : Chunk) (offset : Nat) : Option (Opcode × Nat × Nat) := do
  let byte ← chunk.code[offset]?
  let op ← Opcode.ofByte? byte
  let a ← chunk.operandAt? op offset 0
  let b ← chunk.operandAt? op offset 1
  return (op, a, b)

variable {chunk : Chunk} {offset a b : Nat} {op : Opcode}

theorem instructionAt?_of_opcode (hcode : chunk.code[offset]? = some op.toByte)
    (ha : chunk.operandAt? op offset 0 = some a) (hb : chunk.operandAt? op offset 1 = some b) :
    chunk.instructionAt? offset = some (op, a, b) := by
  simp [instructionAt?, hcode, ha, hb]

/-- An operation without operands is its byte. -/
theorem instructionAt?_of_none (hcount : op.operandCount = 0)
    (hcode : chunk.code[offset]? = some op.toByte) :
    chunk.instructionAt? offset = some (op, 0, 0) :=
  instructionAt?_of_opcode hcode (by simp [operandAt?, hcount]) (by simp [operandAt?, hcount])

/-- An operation with one operand is its byte and the operand. -/
theorem instructionAt?_of_one (hcount : op.operandCount = 1)
    (hcode : chunk.code[offset]? = some op.toByte) (ha : chunk.readShort? (offset + 1) = some a) :
    chunk.instructionAt? offset = some (op, a, 0) :=
  instructionAt?_of_opcode hcode (by simp [operandAt?, hcount, ha]) (by simp [operandAt?, hcount])

/-- An operation with two operands is its byte and the operands. -/
theorem instructionAt?_of_two (hcount : op.operandCount = 2)
    (hcode : chunk.code[offset]? = some op.toByte) (ha : chunk.readShort? (offset + 1) = some a)
    (hb : chunk.readShort? (offset + 3) = some b) :
    chunk.instructionAt? offset = some (op, a, b) :=
  instructionAt?_of_opcode hcode (by simp [operandAt?, hcount, ha]) (by simp [operandAt?, hcount, hb])

/-- The two bytes of an operand read back as the operand. -/
theorem readShort?_of_bytes {value : Nat} (hfits : value ≤ maxOperand)
    (hhigh : chunk.code[offset]? = some (UInt8.ofNat (value / 256)))
    (hlow : chunk.code[offset + 1]? = some (UInt8.ofNat value)) :
    chunk.readShort? offset = some value := by
  have hsplit : value / 256 % 256 * 256 + value % 256 = value := by
    unfold maxOperand at hfits
    omega
  simp [readShort?, hhigh, hlow, hsplit]

end OwnScript.Chunk
