import OwnScript.Number.General

/-!
Scalars: the values that need no storage beyond themselves. Integers are 64 bits wide and wrap,
floats are binary64, and the two compare as numbers.
-/

namespace OwnScript

/-- A value without heap storage. -/
inductive Scalar where
  | nil
  | bool (value : Bool)
  | int (value : Int64)
  | float (value : Float)
  deriving DecidableEq, Inhabited

namespace Scalar

/-- The name of a scalar's type. -/
def typeName : Scalar → String
  | .nil => "Nil"
  | .bool _ => "Bool"
  | .int _ => "Int"
  | .float _ => "Float"

/-- The text that printing a scalar writes. -/
def text : Scalar → String
  | .nil => "nil"
  | .bool true => "true"
  | .bool false => "false"
  | .int value => toString value.toInt
  | .float value => Number.floatText value

/-- Nil and false are false, everything else is true. -/
def truthy : Scalar → Bool
  | .nil => false
  | .bool value => value
  | _ => true

/-- Whether a scalar is an integer or a float. -/
def isNumber : Scalar → Bool
  | .int _ | .float _ => true
  | _ => false

/-- A number as a float, integers rounded to the nearest. -/
def toFloat? : Scalar → Option Float
  | .int value => some value.toFloat
  | .float value => some value
  | _ => none

/-- Equality of the language: numbers compare by value, two integers exactly and any other pair
as floats; other scalars are equal when they are the same. -/
def equals : Scalar → Scalar → Bool
  | .nil, .nil => true
  | .bool a, .bool b => a == b
  | .int a, .int b => a == b
  | .int a, .float b => a.toFloat == b
  | .float a, .int b => a == b.toFloat
  | .float a, .float b => a == b
  | _, _ => false

end Scalar

end OwnScript
