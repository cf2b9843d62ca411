/-!
The instruction set. An instruction is one opcode byte followed by its operands, each a 16-bit
number with the high byte first.
-/

namespace OwnScript

/-- The operations of the machine, in the order of their encoding. Operands are called `a`
and `b`. -/
inductive Opcode where
  /-- Push constant `a`. -/
  | constant
  /-- Push a new string with text `a`. -/
  | string
  | pushNil
  | pushTrue
  | pushFalse
  | pop
  /-- Drop `a` values. -/
  | popMany
  /-- Push the top once more. -/
  | dup
  | add
  | subtract
  | multiply
  | divide
  | modulo
  | negate
  | bitwiseAnd
  | bitwiseOr
  | bitwiseXor
  | bitwiseNot
  | leftShift
  | rightShift
  | equal
  | notEqual
  | less
  | greater
  | lessEqual
  | greaterEqual
  | logicalNot
  /-- Push global `a`. -/
  | getGlobal
  /-- Store the top in global `a`. -/
  | setGlobal
  /-- Push slot `a` of the frame. -/
  | getLocal
  /-- Store the top in slot `a` of the frame. -/
  | setLocal
  | getUpvalue
  | setUpvalue
  /-- Close the cell of the top slot, then drop it. -/
  | closeUpvalue
  /-- Push global `a` and leave nil behind. -/
  | moveGlobal
  | moveLocal
  | moveUpvalue
  /-- Skip `a` bytes. -/
  | jump
  /-- Skip `a` bytes if the top is false; the top stays. -/
  | jumpIfFalse
  /-- Skip `a` bytes if the top is true; the top stays. -/
  | jumpIfTrue
  /-- Go back `a` bytes. -/
  | loopBack
  /-- Call the value below `a` arguments. -/
  | call
  | ret
  /-- Push a closure of function `a`. -/
  | closure
  /-- Build a record of shape `a` from one value per field. -/
  | record
  /-- Replace a record by its field `a`. -/
  | getField
  /-- Store the top in field `a` of the record below it. -/
  | setField
  /-- Build an array from `a` values. -/
  | array
  | getIndex
  | setIndex
  /-- Match slot `b` against matcher `a`: push what it binds and true, or false. -/
  | matchValue
  /-- Match the arguments against clause `a`: push what it binds and true, or false. -/
  | matchArgs
  | noMatchingArm
  | noMatchingOverload
  | printTop
  | halt
  deriving Repr, DecidableEq

namespace Opcode

/-- Every operation, at the index that is its encoding. -/
def all : Array Opcode :=
  #[.constant, .string, .pushNil, .pushTrue, .pushFalse, .pop, .popMany, .dup, .add, .subtract,
    .multiply, .divide, .modulo, .negate, .bitwiseAnd, .bitwiseOr, .bitwiseXor, .bitwiseNot,
    .leftShift, .rightShift, .equal, .notEqual, .less, .greater, .lessEqual, .greaterEqual,
    .logicalNot, .getGlobal, .setGlobal, .getLocal, .setLocal, .getUpvalue, .setUpvalue,
    .closeUpvalue, .moveGlobal, .moveLocal, .moveUpvalue, .jump, .jumpIfFalse, .jumpIfTrue,
    .loopBack, .call, .ret, .closure, .record, .getField, .setField, .array, .getIndex,
    .setIndex, .matchValue, .matchArgs, .noMatchingArm, .noMatchingOverload, .printTop,
    .halt]

/-- The name of an operation in listings, without the mark that all of them share. -/
def mnemonic : Opcode → String
  | .constant => "CONSTANT"
  | .string => "STRING"
  | .pushNil => "NIL"
  | .pushTrue => "TRUE"
  | .pushFalse => "FALSE"
  | .pop => "POP"
  | .popMany => "POPN"
  | .dup => "DUP"
  | .add => "ADD"
  | .subtract => "SUBTRACT"
  | .multiply => "MULTIPLY"
  | .divide => "DIVIDE"
  | .modulo => "MODULO"
  | .negate => "NEGATE"
  | .bitwiseAnd => "BITWISE_AND"
  | .bitwiseOr => "BITWISE_OR"
  | .bitwiseXor => "BITWISE_XOR"
  | .bitwiseNot => "BITWISE_NOT"
  | .leftShift => "LEFT_SHIFT"
  | .rightShift => "RIGHT_SHIFT"
  | .equal => "EQUAL"
  | .notEqual => "NOT_EQUAL"
  | .less => "LESS"
  | .greater => "GREATER"
  | .lessEqual => "LESS_EQUAL"
  | .greaterEqual => "GREATER_EQUAL"
  | .logicalNot => "NOT"
  | .getGlobal => "GET_GLOBAL"
  | .setGlobal => "SET_GLOBAL"
  | .getLocal => "GET_LOCAL"
  | .setLocal => "SET_LOCAL"
  | .getUpvalue => "GET_UPVALUE"
  | .setUpvalue => "SET_UPVALUE"
  | .closeUpvalue => "CLOSE_UPVALUE"
  | .moveGlobal => "MOVE_GLOBAL"
  | .moveLocal => "MOVE_LOCAL"
  | .moveUpvalue => "MOVE_UPVALUE"
  | .jump => "JUMP"
  | .jumpIfFalse => "JUMP_IF_FALSE"
  | .jumpIfTrue => "JUMP_IF_TRUE"
  | .loopBack => "LOOP"
  | .call => "CALL"
  | .ret => "RETURN"
  | .closure => "CLOSURE"
  | .record => "RECORD"
  | .getField => "GET_FIELD"
  | .setField => "SET_FIELD"
  | .array => "ARRAY"
  | .getIndex => "GET_INDEX"
  | .setIndex => "SET_INDEX"
  | .matchValue => "MATCH"
  | .matchArgs => "MATCH_ARGS"
  | .noMatchingArm => "NO_MATCHING_ARM"
  | .noMatchingOverload => "NO_MATCHING_OVERLOAD"
  | .printTop => "PRINT"
  | .halt => "HALT"

/-- The name of an operation in listings. -/
def name (op : Opcode) : String :=
  "OP_" ++ op.mnemonic

/-- How many operands follow the opcode byte. -/
def operandCount : Opcode → Nat
  | .constant | .string | .popMany | .getGlobal | .setGlobal | .getLocal | .setLocal
  | .getUpvalue | .setUpvalue | .moveGlobal | .moveLocal | .moveUpvalue | .jump
  | .jumpIfFalse | .jumpIfTrue | .loopBack | .call | .closure | .record | .getField
  | .setField | .array | .matchArgs => 1
  | .matchValue => 2
  | _ => 0

/-- The size of an instruction in bytes, the opcode included. -/
def size (op : Opcode) : Nat :=
  1 + 2 * op.operandCount

/-- The opcode byte of an operation. -/
def toByte (op : Opcode) : UInt8 :=
  UInt8.ofNat op.ctorIdx

/-- The operation that a byte encodes. -/
def ofByte? (byte : UInt8) : Option Opcode :=
  all[byte.toNat]?

/-- The operation of a name without the common mark. -/
def ofMnemonic? (text : String) : Option Opcode :=
  all.find? (fun op => op.mnemonic == text)

/-- Reading an opcode byte gives back the operation that was written. -/
@[simp] theorem ofByte?_toByte (op : Opcode) : ofByte? op.toByte = some op := by
  cases op <;> rfl

/-- After these operations control never reaches the next instruction. -/
def endsControlFlow : Opcode → Bool
  | .ret | .halt | .jump | .loopBack | .noMatchingArm | .noMatchingOverload => true
  | _ => false

end Opcode

end OwnScript
