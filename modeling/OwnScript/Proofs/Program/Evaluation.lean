import OwnScript.Machine.Arithmetic
import OwnScript.Proofs.Machine.Patterns

/-!
Direct evaluation. A program without functions and calls is carried out on its tree, from left to right. Names lead
to variables by the scopes around them alone; what analysis writes on names is not looked at. The heap has no limit
and nothing in it is ever collected.
-/

namespace OwnScript

/-- Why a program fails and where in the source. -/
structure Failure where
  kind : ErrorKind
  location : Location
  deriving Repr, DecidableEq

/-- What a program has made so far, apart from the variables of open scopes. -/
structure World where
  heap : Heap
  /-- The global variables that have a value, what was stored last before what it replaces. -/
  globals : List (String × Value) := []
  /-- What was printed. -/
  output : String := ""

/-- What the parts of a program find when they are evaluated. -/
structure Scene extends World where
  /-- The variables of open scopes, what was declared last first. -/
  locals : List (String × Value) := []

/-- Why an evaluation does not end normally. -/
inductive Stop where
  | failure (failure : Failure)
  /-- It was cut off, or it got to a call, a function or a part that is missing. -/
  | unfinished

/-- A step of an evaluation. -/
abbrev Evaluate := EStateM Stop Scene

/-- How a statement ends. -/
inductive Ending where
  | next
  | leave
  | skip
  | giveBack (value : Value)

/-- What the end of its body means for a loop: how the loop ends, or that it goes on. -/
def Ending.ofBody : Ending → Option Ending
  | .next | .skip => none
  | .leave => some .next
  | .giveBack value => some (.giveBack value)

section Values

/-- The kind of the complaint of an operator. -/
def complaintKind (result : Except Diagnostic Value) : Except ErrorKind Value :=
  result.mapError (·.kind)

/-- The result of an operator with one operand. -/
def UnaryOp.result (op : UnaryOp) (heap : Heap) (value : Value) : Except ErrorKind Value :=
  match op with
  | .negate => complaintKind (heap.negate value)
  | .logicalNot => .ok (.ofBool (!value.truthy))
  | .bitwiseNot => complaintKind (heap.complement value)

/-- Whether an operator decides by its left operand alone, which is then the result. -/
def BinaryOp.decides (op : BinaryOp) (left : Value) : Bool :=
  match op with
  | .logicalAnd => !left.truthy
  | .logicalOr => left.truthy
  | _ => false

/-- The result of an operator with two operands. -/
def BinaryOp.result (op : BinaryOp) (heap : Heap) (left right : Value) : Except ErrorKind Value :=
  match op with
  | .add => complaintKind (heap.arithmetic .add left right)
  | .subtract => complaintKind (heap.arithmetic .subtract left right)
  | .multiply => complaintKind (heap.arithmetic .multiply left right)
  | .divide => complaintKind (heap.arithmetic .divide left right)
  | .modulo => complaintKind (heap.arithmetic .modulo left right)
  | .bitwiseAnd => complaintKind (heap.bitwise .bitwiseAnd left right)
  | .bitwiseOr => complaintKind (heap.bitwise .bitwiseOr left right)
  | .bitwiseXor => complaintKind (heap.bitwise .bitwiseXor left right)
  | .shiftLeft => complaintKind (heap.bitwise .leftShift left right)
  | .shiftRight => complaintKind (heap.bitwise .rightShift left right)
  | .equal => .ok (.ofBool (heap.equals left right))
  | .notEqual => .ok (.ofBool (!heap.equals left right))
  | .less => complaintKind (heap.comparison .less left right)
  | .lessEqual => complaintKind (heap.comparison .lessEqual left right)
  | .greater => complaintKind (heap.comparison .greater left right)
  | .greaterEqual => complaintKind (heap.comparison .greaterEqual left right)
  | .logicalAnd | .logicalOr => .ok right

/-- The position in an array that a value stands for. -/
def Elements.position (elements : Elements) : Value → Except ErrorKind Nat
  | .scalar (.int i) =>
    if 0 ≤ i.toInt ∧ i.toInt < elements.values.size then .ok i.toInt.toNat else .error .indexOutOfRange
  | _ => .error .typeError

namespace Heap

/-- The value of a field of a record. -/
def field (heap : Heap) (object : Value) (name : String) : Except ErrorKind Value :=
  match heap.objectOf? object with
  | some (.record fields) =>
    match fields.find? name with
    | some value => .ok value
    | none => .error .unknownField
  | _ => .error .typeError

/-- The heap after a value was stored in a field of a record. -/
def withField (heap : Heap) (object : Value) (name : String) (value : Value) : Except ErrorKind Heap :=
  match object.ref?, heap.objectOf? object with
  | some ref, some (.record fields) => .ok (heap.store ref (.record (fields.put name value)))
  | _, _ => .error .typeError

/-- The value of an element of an array. -/
def element (heap : Heap) (object index : Value) : Except ErrorKind Value :=
  match heap.objectOf? object with
  | some (.array elements) => (elements.position index).map fun position => elements.values[position]?.getD .nil
  | _ => .error .typeError

/-- The heap after a value was stored in an element of an array. -/
def withElement (heap : Heap) (object index value : Value) : Except ErrorKind Heap :=
  match object.ref?, heap.objectOf? object with
  | some ref, some (.array elements) =>
    (elements.position index).map fun position =>
      heap.store ref (.array { elements with values := elements.values.setIfInBounds position value })
  | _, _ => .error .typeError

end Heap

end Values

mutual

/-- The names of the variables of a pattern from left to right. -/
def Pattern.variableNames : Pattern → List String
  | .bind _ name _ => [name]
  | .destructure _ fields => Pattern.fieldVariableNames fields
  | .wildcard _ | .literal _ _ => []

/-- The names of the variables in the patterns of fields. -/
def Pattern.fieldVariableNames : List (String × Pattern) → List String
  | [] => []
  | (_, pattern) :: rest => pattern.variableNames ++ Pattern.fieldVariableNames rest

end

/-- The variables of a pattern with what they stand for in a value that the pattern accepts, from left to right. -/
def Pattern.variables? (heap : Heap) (pattern : Pattern) (value : Value) : Option (List (String × Value)) :=
  (pattern.bindings? heap value).map fun bound => pattern.variableNames.zip (bound.map (·.2))

namespace Evaluate

/-- The result of an operation, or its failure at a place of the source. -/
def orFail {α : Type} (location : Location) (result : Except ErrorKind α) : Evaluate α :=
  match result with
  | .ok value => return value
  | .error kind => throw (.failure ⟨kind, location⟩)

/-- A new object. -/
def create (object : Object) : Evaluate Value := do
  let scene ← get
  set { scene with heap := scene.heap.link object }
  return .ofRef scene.heap.nextRef

/-- The value of a variable: the innermost of that name, or the global one. -/
def read (name : String) (location : Location) : Evaluate Value := do
  let scene ← get
  match (scene.locals.lookup name).or (scene.globals.lookup name) with
  | some value => return value
  | none => throw (.failure ⟨.undefinedGlobal, location⟩)

/-- Changes the variable that a name leads to. -/
def assign (name : String) (value : Value) : Evaluate Unit :=
  modify fun scene =>
    if (scene.locals.lookup name).isSome then
      { scene with locals := Fields.replaceFirst name value scene.locals }
    else { scene with globals := (name, value) :: scene.globals }

/-- Declares a variable. Outside of all scopes it is global. -/
def declare (nested : Bool) (name : String) (value : Value) : Evaluate Unit :=
  modify fun scene =>
    if nested then { scene with locals := (name, value) :: scene.locals }
    else { scene with globals := (name, value) :: scene.globals }

/-- Takes a step in a scope of its own: what it declares is forgotten afterwards. -/
def withinScope {α : Type} (step : Evaluate α) : Evaluate α := do
  let outside := (← get).locals.length
  let result ← step
  modify fun scene => { scene with locals := scene.locals.drop (scene.locals.length - outside) }
  return result

/-- Takes the turns of a loop up to the one that ends it. Each is told what the one before it hands on. -/
def loop {α : Type} (turn : α → Evaluate (α ⊕ Ending)) : Nat → α → Evaluate Ending
  | 0, _ => throw .unfinished
  | turns + 1, given => do
    match ← turn given with
    | .inl next => loop turn turns next
    | .inr ending => return ending

end Evaluate

open Evaluate

mutual

/-- The value of an expression. -/
def Expr.evaluate : Expr → Evaluate Value
  | .absent | .call _ _ _ | .lambda _ _ | .move _ none => throw .unfinished
  | .literal _ (.scalar value) => return .scalar value
  | .literal _ (.text text) => create (.string text)
  | .name identifier => read identifier.name identifier.location
  | .unary location op operand => do
    let value ← operand.evaluate
    orFail location (op.result (← get).heap value)
  | .binary location op left right => do
    let first ← left.evaluate
    if op.decides first then
      return first
    let second ← right.evaluate
    orFail location (op.result (← get).heap first second)
  | .field location object key => do
    let target ← object.evaluate
    orFail location ((← get).heap.field target key)
  | .index location object place => do
    let target ← object.evaluate
    let position ← place.evaluate
    orFail location ((← get).heap.element target position)
  | .record _ fields => do
    let values ← Expr.evaluateFields fields
    create (.record (Fields.ofLiteral (fields.map (·.1)) values))
  | .array _ items => do
    let values ← Expr.evaluateAll items
    create (.array (.exactly values.toArray))
  | .borrow _ target _ => target.evaluate
  | .move location (some identifier) => do
    let value ← read identifier.name location
    assign identifier.name .nil
    return value
  | .deref _ operand => operand.evaluate

/-- The values of expressions in order. -/
def Expr.evaluateAll : List Expr → Evaluate (List Value)
  | [] => return []
  | expr :: rest => do
    let value ← expr.evaluate
    return value :: (← Expr.evaluateAll rest)

/-- The values of fields in order. -/
def Expr.evaluateFields : List (String × Expr) → Evaluate (List Value)
  | [] => return []
  | (_, expr) :: rest => do
    let value ← expr.evaluate
    return value :: (← Expr.evaluateFields rest)

end

mutual

/-- Carries out a statement. A loop is cut off after so many turns. -/
def Stmt.perform (turns : Nat) (nested : Bool) : Stmt → Evaluate Ending
  | .absent => return .next
  | .declare _ name initial _ => do
    if initial.isAbsent then
      -- Outside of all scopes the variable has no value yet.
      if nested then
        declare nested name .nil
    else
      declare nested name (← initial.evaluate)
    return .next
  | .assign _ name value _ => do
    assign name (← value.evaluate)
    return .next
  | .assignField location object field value => do
    let target ← object.evaluate
    let value ← value.evaluate
    let heap ← orFail location ((← get).heap.withField target field value)
    modify fun scene => { scene with heap }
    return .next
  | .assignIndex location object index value => do
    let target ← object.evaluate
    let place ← index.evaluate
    let value ← value.evaluate
    let heap ← orFail location ((← get).heap.withElement target place value)
    modify fun scene => { scene with heap }
    return .next
  | .evaluate _ expression => do
    let _ ← expression.evaluate
    return .next
  | .print _ expression => do
    let value ← expression.evaluate
    modify fun scene => { scene with output := scene.output ++ (scene.heap.text value ++ "\n") }
    return .next
  | .block _ body => withinScope (Stmt.performAll turns true body)
  | .ifElse _ condition yes no => do
    if (← condition.evaluate).truthy then yes.perform turns nested else no.perform turns nested
  | .cond location scrutinee arms => do
    if scrutinee.isAbsent then Arm.performGuarded turns location arms
    else Arm.performMatched turns location (← scrutinee.evaluate) arms
  | .whileLoop _ condition body =>
    let turn (_ : Unit) : Evaluate (Unit ⊕ Ending) := do
      if (← condition.evaluate).truthy then
        return (← withinScope (body.perform turns true)).ofBody.elim (.inl ()) .inr
      else return .inr .next
    loop turn turns ()
  | .forLoop location counter _ first bound body => do
    let start ← first.evaluate
    let last ← bound.evaluate
    let turn (next : Value) : Evaluate (Value ⊕ Ending) := do
      let below ← orFail location (BinaryOp.less.result (← get).heap next last)
      if below.truthy then
        let ending ← withinScope do
          declare true counter next
          body.perform turns true
        match ending.ofBody with
        | none => return .inl (← orFail location (BinaryOp.add.result (← get).heap next (.scalar (.int 1))))
        | some ending => return .inr ending
      else return .inr .next
    loop turn turns start
  | .forever _ body =>
    let turn (_ : Unit) : Evaluate (Unit ⊕ Ending) := do
      return (← withinScope (body.perform turns true)).ofBody.elim (.inl ()) .inr
    loop turn turns ()
  | .leave _ => return .leave
  | .skip _ => return .skip
  | .giveBack _ value => do
    if value.isAbsent then return .giveBack .nil
    return .giveBack (← value.evaluate)
  | .disown location name _ => do
    let _ ← read name location
    assign name .nil
    return .next
  | .function _ _ _ => throw .unfinished

/-- Carries out statements in order, up to one that does not go on to the next. -/
def Stmt.performAll (turns : Nat) (nested : Bool) : List Stmt → Evaluate Ending
  | [] => return .next
  | stmt :: rest => do
    match ← stmt.perform turns nested with
    | .next => Stmt.performAll turns nested rest
    | ending => return ending

/-- Carries out the first arm whose guard is true. -/
def Arm.performGuarded (turns : Nat) (location : Location) : List Arm → Evaluate Ending
  | [] => throw (.failure ⟨.noMatchingArm, location⟩)
  | ⟨_, _, guard, body⟩ :: rest => do
    if guard.isAbsent then withinScope (Stmt.performAll turns true body)
    else if (← guard.evaluate).truthy then withinScope (Stmt.performAll turns true body)
    else Arm.performGuarded turns location rest

/-- Carries out the first arm whose pattern accepts a value and whose guard is true then. -/
def Arm.performMatched (turns : Nat) (location : Location) (value : Value) : List Arm → Evaluate Ending
  | [] => throw (.failure ⟨.noMatchingArm, location⟩)
  | ⟨_, pattern, guard, body⟩ :: rest => do
    match pattern.elim (some []) (·.variables? (← get).heap value) with
    | none => Arm.performMatched turns location value rest
    | some bound =>
      let ending ← withinScope do
        modify fun scene => { scene with locals := bound.reverse ++ scene.locals }
        if guard.isAbsent then return some (← Stmt.performAll turns true body)
        else if (← guard.evaluate).truthy then return some (← Stmt.performAll turns true body)
        else return none
      match ending with
      | some ending => return ending
      | none => Arm.performMatched turns location value rest

end

/-- The value of a program: what it gives back, or nil if it ends without that. -/
def Program.evaluate (program : Program) (turns : Nat) : EStateM.Result Stop Scene Value :=
  let value : Evaluate Value := do
    match ← Stmt.performAll turns false program.statements with
    | .giveBack value => return value
    | _ => return .nil
  value { heap := .ofConfig {} }

end OwnScript
