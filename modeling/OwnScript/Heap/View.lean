import OwnScript.Heap.Basic

/-!
What a program sees of values: their type, their text and whether two are equal. References are
looked through; a record or an array inside another is named instead of written out, so that the
text of a cyclic structure is finite.
-/

namespace OwnScript.Heap

/-- The name of a value's type. A reference to nothing counts as nil. -/
def typeName (heap : Heap) : Value → String
  | .scalar value => value.typeName
  | .object target => ((target.bind heap.get?).map Object.typeName).getD "Nil"

/-- The text of a value inside another. -/
def innerText (heap : Heap) (value : Value) : String :=
  match value with
  | .scalar scalar => scalar.text
  | .object _ =>
    match heap.objectOf? value with
    | none => "nil"
    | some (.string text) => text
    | some (.record _) => "<Record>"
    | some (.array _) => "<Array>"
    | some (.closure prototype _) =>
      let kind := if prototype.any (·.isProc) then "proc" else "func"
      s!"<{kind} {closureName prototype}>"
    | some (.upvalue _) => "<upvalue>"

/-- The text of a value. -/
def text (heap : Heap) (value : Value) : String :=
  match heap.objectOf? value with
  | some (.record fields) =>
    let entries := fields.entries.map fun (name, value) => s!"{name}: {heap.innerText value}"
    "\x7b" ++ String.intercalate ", " entries ++ "\x7d"
  | some (.array elements) =>
    "[" ++ String.intercalate ", " (elements.values.toList.map heap.innerText) ++ "]"
  | _ => heap.innerText value

/-- Equality of the language: scalars and strings compare by value, other objects by identity. -/
def equals (heap : Heap) : Value → Value → Bool
  | .scalar a, .scalar b => a.equals b
  | .object a, .object b =>
    a == b ||
      match a.bind heap.get?, b.bind heap.get? with
      | some (.string s), some (.string t) => s == t
      | _, _ => false
  | _, _ => false

end OwnScript.Heap
