import OwnScript.Code.Chunk

/-!
Values and the objects of the heap. A value is a scalar or a reference; references are numbers
that the heap gives out in increasing order and never reuses. Objects are strings, records,
arrays, closures and the cells of captured variables. Sizes are those of the storage that an
object occupies, spare room in its containers included.
-/

namespace OwnScript

/-- The identity of an object. -/
abbrev Ref := Nat

/-- A value: a scalar, or a reference that may lead to no object at all. -/
inductive Value where
  | scalar (value : Scalar)
  | object (target : Option Ref)
  deriving DecidableEq

namespace Value

instance : Inhabited Value := ⟨.scalar .nil⟩

/-- The value that variables start with and functions return by default. -/
def nil : Value := .scalar .nil

/-- A truth value. -/
def ofBool (value : Bool) : Value := .scalar (.bool value)

/-- A reference to an object. -/
def ofRef (ref : Ref) : Value := .object (some ref)

/-- The object that a value refers to. -/
def ref? : Value → Option Ref
  | .scalar _ => none
  | .object target => target

/-- Nil and false are false, everything else is true. -/
def truthy : Value → Bool
  | .scalar value => value.truthy
  | .object _ => true

/-- The scalar in a value. -/
def scalar? : Value → Option Scalar
  | .scalar value => some value
  | .object _ => none

end Value

/-- The bytes that a text occupies: short texts share a smallest size. -/
def textCapacity (text : String) : Nat :=
  max 15 text.utf8ByteSize

/-- The bytes that several texts occupy. -/
def textsCapacity (texts : List String) : Nat :=
  texts.foldr (fun text bytes => textCapacity text + bytes) 0

/-- The bytes of one record field apart from its name. -/
def fieldBytes : Nat := 48

/-- The bytes of one array element. -/
def elementBytes : Nat := 16

/-- The room of a full container after it has grown by one entry. -/
def grownCapacity (capacity : Nat) : Nat :=
  capacity + max capacity 1

/-- The fields of a record, in the order of first insertion, and the room set aside for them. -/
structure Fields where
  entries : List (String × Value) := []
  capacity : Nat := 0
  deriving DecidableEq

namespace Fields

/-- The value of a field. -/
def find? (fields : Fields) (name : String) : Option Value :=
  (fields.entries.find? (fun entry => entry.1 == name)).map (·.2)

/-- Whether there is a field of that name. -/
def contains (fields : Fields) (name : String) : Bool :=
  fields.entries.any (fun entry => entry.1 == name)

/-- The entries with the first field of that name given a new value. -/
def replaceFirst (name : String) (value : Value) : List (String × Value) → List (String × Value)
  | [] => []
  | entry :: rest =>
    if entry.1 == name then (name, value) :: rest else entry :: replaceFirst name value rest

/-- The fields with a new value under a name that is there. -/
def replace (fields : Fields) (name : String) (value : Value) : Fields :=
  { fields with entries := replaceFirst name value fields.entries }

/-- The room after one more field. -/
def roomForOneMore (fields : Fields) : Nat :=
  if fields.entries.length < fields.capacity then fields.capacity else grownCapacity fields.capacity

/-- The fields with one more at the end; a full record doubles its room. -/
def append (fields : Fields) (name : String) (value : Value) : Fields :=
  { entries := fields.entries ++ [(name, value)], capacity := fields.roomForOneMore }

/-- The fields with a value stored under a name, which keeps its place if it is there. -/
def put (fields : Fields) (name : String) (value : Value) : Fields :=
  if fields.contains name then fields.replace name value else fields.append name value

/-- The fields of a literal: names and values in order, a repeated name keeping its first place
and its last value. Room is set aside for every name written. -/
def ofLiteral (names : List String) (values : List Value) : Fields :=
  let insert (entries : List (String × Value)) (entry : String × Value) :=
    if entries.any (fun e => e.1 == entry.1) then replaceFirst entry.1 entry.2 entries
    else entries ++ [entry]
  { entries := (names.zip values).foldl insert [], capacity := names.length }

end Fields

/-- The elements of an array and the room set aside for them. -/
structure Elements where
  values : Array Value := #[]
  capacity : Nat := 0
  deriving DecidableEq

namespace Elements

/-- The elements with one more at the end; a full array doubles its room. -/
def push (elements : Elements) (value : Value) : Elements :=
  { values := elements.values.push value
    capacity := if elements.values.size < elements.capacity then elements.capacity
      else grownCapacity elements.capacity }

/-- The elements cut or filled up with nil to a length. Room is never given back, and grows at
least to twice the old length. -/
def resize (elements : Elements) (length : Nat) : Elements :=
  { values := elements.values.take length
      ++ Array.replicate (length - elements.values.size) Value.nil
    capacity := if elements.capacity < length then max length (2 * elements.values.size)
      else elements.capacity }

/-- Elements that fill their room exactly. -/
def exactly (values : Array Value) : Elements :=
  { values, capacity := values.size }

end Elements

/-- The cell of a captured variable: while open it stands for a slot of the operand stack, once
closed it holds the value itself. -/
inductive Upvalue where
  | opened (slot : Nat)
  | closed (value : Value)
  deriving DecidableEq

/-- An object of the heap. -/
inductive Object where
  | string (text : String)
  | record (fields : Fields)
  | array (elements : Elements)
  | closure (prototype : Option Prototype) (upvalues : Array (Option Ref))
  | upvalue (state : Upvalue)

namespace Object

/-- The name of an object's type. -/
def typeName : Object → String
  | .string _ => "String"
  | .record _ => "Record"
  | .array _ => "Array"
  | .closure _ _ => "Closure"
  | .upvalue _ => "Upvalue"

/-- The bytes of the object's own block, which is what the heap reuses. -/
def blockSize : Object → Nat
  | .string _ => 72
  | .record _ => 64
  | .array _ => 64
  | .closure _ _ => 80
  | .upvalue _ => 80

/-- The bytes that an object occupies beyond its own block. -/
def contentSize : Object → Nat
  | .string text => textCapacity text
  | .record fields =>
    fields.capacity * fieldBytes + textsCapacity (fields.entries.map (·.1))
  | .array elements => elements.capacity * elementBytes
  | .closure _ upvalues => upvalues.size * 8
  | .upvalue _ => 0

/-- The bytes that an object occupies. -/
def memorySize (object : Object) : Nat :=
  object.blockSize + object.contentSize

/-- A closure of a prototype whose variables are not captured yet. -/
def unboundClosure (prototype : Option Prototype) : Object :=
  .closure prototype (Array.replicate ((prototype.map (·.captures.size)).getD 0) none)

/-- The objects that an object refers to. An open cell refers to none: the value of its slot is
on the operand stack. -/
def references : Object → List Ref
  | .string _ => []
  | .record fields => fields.entries.filterMap (fun entry => entry.2.ref?)
  | .array elements => elements.values.toList.filterMap Value.ref?
  | .closure _ upvalues => upvalues.toList.filterMap id
  | .upvalue (.opened _) => []
  | .upvalue (.closed value) => value.ref?.toList

end Object

/-- The name of the function of a closure. -/
def closureName (prototype : Option Prototype) : String :=
  (prototype.map (·.name)).getD "<closure>"

end OwnScript
