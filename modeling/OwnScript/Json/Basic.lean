/-!
JSON documents. A number remembers how it was written, because a reader of settings treats a
whole number without a sign, a negative whole number and a number with a fraction differently.
-/

namespace OwnScript

/-- A JSON number: a whole number that fits 64 unsigned bits, a whole number written with a minus
sign that fits 64 signed bits, or any other as a float. -/
inductive Json.Number where
  | unsigned (value : Nat)
  | signed (value : Int)
  | float (value : Float)

/-- A JSON document. Members of an object stand in the order in which they were written. -/
inductive Json where
  | null
  | bool (value : Bool)
  | number (value : Json.Number)
  | string (text : String)
  | array (items : List Json)
  | object (members : List (String × Json))

namespace Json

/-- The name of a document's kind. -/
def kindName : Json → String
  | .null => "null"
  | .bool _ => "boolean"
  | .number _ => "number"
  | .string _ => "string"
  | .array _ => "array"
  | .object _ => "object"

/-- The member of that name; of several, the last. -/
def lastMember? (members : List (String × Json)) (name : String) : Option Json :=
  (members.reverse.find? (fun member => member.1 == name)).map (·.2)

/-- What others need of a library for JSON. -/
structure Library where
  /-- The document that a text writes, if the library reads one there. -/
  read? : String → Option Json
  /-- The member that a name leads to. -/
  find? : List (String × Json) → String → Option Json

/-- The number nearest to a written one. -/
def Number.toFloat : Number → Float
  | .unsigned n => n.toUInt64.toFloat
  | .signed i => (Int64.ofInt i).toFloat
  | .float f => f

/-- The value of a whole number that is not negative. -/
def Number.toNat? : Number → Option Nat
  | .unsigned n => some n
  | .signed i => if 0 ≤ i then some i.toNat else none
  | .float _ => none

end Json

end OwnScript
