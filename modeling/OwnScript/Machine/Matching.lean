import OwnScript.Heap.View

/-!
Matching values against matchers. The result is the list of bound values, in the order of the
walk through the matcher, or nothing if the value does not match.
-/

namespace OwnScript.Heap

mutual

/-- The values that a matcher binds in a value that it accepts. -/
def matchValue (heap : Heap) : Matcher → Value → Option (List Value)
  | .node .wildcard _, _ => some []
  | .node .binding _, value => some [value]
  | .node (.literal scalar) _, value =>
    if heap.equals value (.scalar scalar) then some [] else none
  | .node (.text text) _, value =>
    match heap.objectOf? value with
    | some (.string found) => if found == text then some [] else none
    | _ => none
  | .node .destructure fields, value =>
    match heap.objectOf? value with
    | some (.record record) => heap.matchFields fields record
    | _ => none

/-- The values that the matchers of fields bind in a record that has all the fields. -/
def matchFields (heap : Heap) : List (String × Matcher) → Fields → Option (List Value)
  | [], _ => some []
  | (name, matcher) :: rest, record =>
    match record.find? name with
    | none => none
    | some value =>
      match heap.matchValue matcher value with
      | none => none
      | some bound => (heap.matchFields rest record).map (bound ++ ·)

end

end OwnScript.Heap
