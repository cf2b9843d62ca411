import OwnScript.Heap.View
import OwnScript.Number.Remainder

/-!
The operators on values. Two integers give an integer that wraps around at 64 bits; any other pair
of numbers is computed in floats. Operands of other types, a zero integer divisor and a shift
count outside a word are type errors.
-/

namespace OwnScript

/-- A type error. -/
def typeError (message : String) : Diagnostic :=
  .plain .typeError message

/-- Integer arithmetic. Division rounds toward zero and the remainder has the sign of the
dividend. -/
def Opcode.integerResult (op : Opcode) (a b : Int64) : Except Diagnostic Int64 :=
  match op with
  | .add => .ok (a + b)
  | .subtract => .ok (a - b)
  | .multiply => .ok (a * b)
  | .divide => if b = 0 then .error (typeError "integer division by zero") else .ok (a / b)
  | .modulo => if b = 0 then .error (typeError "integer modulo by zero") else .ok (a % b)
  | _ => .ok a

/-- Float arithmetic. -/
def Opcode.floatResult (op : Opcode) (a b : Float) : Float :=
  match op with
  | .add => a + b
  | .subtract => a - b
  | .multiply => a * b
  | .divide => a / b
  | .modulo => Number.remainder a b
  | _ => a

/-- The count of a shift, which must stay within a word. -/
def shiftCount (count : Int64) : Except Diagnostic Int64 :=
  if count < 0 || 63 < count then
    .error (typeError s!"shift count {count.toInt} out of range 0..63")
  else .ok count

/-- Operations on the bits of integers. A shift to the right keeps the sign. -/
def Opcode.bitResult (op : Opcode) (a b : Int64) : Except Diagnostic Int64 :=
  match op with
  | .bitwiseAnd => .ok (a &&& b)
  | .bitwiseOr => .ok (a ||| b)
  | .bitwiseXor => .ok (a ^^^ b)
  | .leftShift => (shiftCount b).map (a <<< ·)
  | .rightShift => (shiftCount b).map (a >>> ·)
  | _ => .ok a

/-- Order of integers. -/
def Opcode.integerOrder (op : Opcode) (a b : Int64) : Bool :=
  match op with
  | .less => a < b
  | .greater => b < a
  | .lessEqual => a ≤ b
  | .greaterEqual => b ≤ a
  | _ => false

/-- Order of floats. A NaN is in no order with anything. -/
def Opcode.floatOrder (op : Opcode) (a b : Float) : Bool :=
  match op with
  | .less => a < b
  | .greater => b < a
  | .lessEqual => a ≤ b
  | .greaterEqual => b ≤ a
  | _ => false

/-- The sign of an operator in messages. -/
def Opcode.sign : Opcode → String
  | .add => "+"
  | .subtract => "-"
  | .multiply => "*"
  | .divide => "/"
  | .modulo => "%"
  | .bitwiseAnd => "&"
  | .bitwiseOr => "|"
  | .bitwiseXor => "^"
  | .leftShift => "<<"
  | .rightShift => ">>"
  | .less => "<"
  | .greater => ">"
  | .lessEqual => "<="
  | .greaterEqual => ">="
  | _ => ""

/-- A pair of numbers, both integers or both floats. -/
inductive NumberPair where
  | integers (a b : Int64)
  | floats (a b : Float)

/-- The numbers in two values; a float makes both floats. -/
def numberPair? (a b : Value) : Option NumberPair :=
  match a, b with
  | .scalar (.int a), .scalar (.int b) => some (.integers a b)
  | .scalar a, .scalar b =>
    match a.toFloat?, b.toFloat? with
    | some a, some b => some (.floats a b)
    | _, _ => none
  | _, _ => none

namespace Heap

/-- The complaint about the operands of an operator. -/
def operandError (heap : Heap) (op : Opcode) (wanted : String) (a b : Value) : Diagnostic :=
  typeError s!"operator {op.sign} expects {wanted}, got {heap.typeName a} and {heap.typeName b}"

/-- The result of an arithmetic operator. -/
def arithmetic (heap : Heap) (op : Opcode) (a b : Value) : Except Diagnostic Value :=
  match numberPair? a b with
  | some (.integers a b) => (op.integerResult a b).map (fun result => .scalar (.int result))
  | some (.floats a b) => .ok (.scalar (.float (op.floatResult a b)))
  | none => .error (heap.operandError op "numbers" a b)

/-- The result of an operator on bits. -/
def bitwise (heap : Heap) (op : Opcode) (a b : Value) : Except Diagnostic Value :=
  match a, b with
  | .scalar (.int a), .scalar (.int b) => (op.bitResult a b).map (fun result => .scalar (.int result))
  | _, _ => .error (heap.operandError op "integers" a b)

/-- The result of a comparison of order. -/
def comparison (heap : Heap) (op : Opcode) (a b : Value) : Except Diagnostic Value :=
  match numberPair? a b with
  | some (.integers a b) => .ok (.ofBool (op.integerOrder a b))
  | some (.floats a b) => .ok (.ofBool (op.floatOrder a b))
  | none => .error (heap.operandError op "numbers" a b)

/-- The number with the opposite sign. -/
def negate (heap : Heap) (value : Value) : Except Diagnostic Value :=
  match value with
  | .scalar (.int value) => .ok (.scalar (.int (0 - value)))
  | .scalar (.float value) => .ok (.scalar (.float (-value)))
  | _ => .error (typeError s!"unary - expects a number, got {heap.typeName value}")

/-- The integer with all bits flipped. -/
def complement (heap : Heap) (value : Value) : Except Diagnostic Value :=
  match value with
  | .scalar (.int value) => .ok (.scalar (.int (~~~value)))
  | _ => .error (typeError s!"operator ~ expects an integer, got {heap.typeName value}")

end Heap

end OwnScript
