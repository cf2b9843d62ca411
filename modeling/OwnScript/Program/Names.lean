import OwnScript.Program.Basic

/-!
The names of a program in source order, with what analysis has written on them. A declaration
comes before the expressions and statements inside it.
-/

namespace OwnScript

/-- In which role a name occurs. -/
inductive NameRole where
  | declare
  | assign
  | use
  | move
  | forLoop
  | disown
  | function
  | pattern
  deriving Repr, DecidableEq

/-- One occurrence of a name. -/
structure NameEntry where
  role : NameRole
  name : String
  resolution : Resolution
  deriving Repr, DecidableEq

/-- Occurrences, latest first. -/
abbrev NameEntries := List NameEntry

mutual

/-- Adds the variables of a pattern. -/
def Pattern.names : Pattern → NameEntries → NameEntries
  | .bind _ name binding, seen => ⟨.pattern, name, { binding }⟩ :: seen
  | .destructure _ fields, seen => Pattern.fieldNames fields seen
  | _, seen => seen

/-- Adds the variables of the patterns of fields. -/
def Pattern.fieldNames : List (String × Pattern) → NameEntries → NameEntries
  | [], seen => seen
  | (_, pattern) :: rest, seen => Pattern.fieldNames rest (pattern.names seen)

end

mutual

/-- Adds the names of an expression. -/
def Expr.names : Expr → NameEntries → NameEntries
  | .absent, seen => seen
  | .literal _ _, seen => seen
  | .name id, seen => ⟨.use, id.name, id.resolution⟩ :: seen
  | .unary _ _ operand, seen => operand.names seen
  | .binary _ _ left right, seen => right.names (left.names seen)
  | .call _ callee arguments, seen => Expr.listNames arguments (callee.names seen)
  | .field _ object _, seen => object.names seen
  | .index _ object index, seen => index.names (object.names seen)
  | .record _ fields, seen => Expr.fieldNames fields seen
  | .array _ items, seen => Expr.listNames items seen
  | .lambda _ function, seen => function.names seen
  | .borrow _ target _, seen => target.names seen
  | .move _ none, seen => seen
  | .move _ (some id), seen => ⟨.move, id.name, id.resolution⟩ :: seen
  | .deref _ operand, seen => operand.names seen

/-- Adds the names of several expressions. -/
def Expr.listNames : List Expr → NameEntries → NameEntries
  | [], seen => seen
  | expr :: rest, seen => Expr.listNames rest (expr.names seen)

/-- Adds the names of the values of fields. -/
def Expr.fieldNames : List (String × Expr) → NameEntries → NameEntries
  | [], seen => seen
  | (_, expr) :: rest, seen => Expr.fieldNames rest (expr.names seen)

/-- Adds the names of a statement. -/
def Stmt.names : Stmt → NameEntries → NameEntries
  | .absent, seen => seen
  | .declare _ name initial resolution, seen => initial.names (⟨.declare, name, resolution⟩ :: seen)
  | .assign _ name value resolution, seen => value.names (⟨.assign, name, resolution⟩ :: seen)
  | .assignField _ object _ value, seen => value.names (object.names seen)
  | .assignIndex _ object index value, seen => value.names (index.names (object.names seen))
  | .evaluate _ expression, seen => expression.names seen
  | .print _ expression, seen => expression.names seen
  | .block _ body, seen => Stmt.listNames body seen
  | .ifElse _ condition yes no, seen => no.names (yes.names (condition.names seen))
  | .cond _ scrutinee arms, seen => Arm.listNames arms (scrutinee.names seen)
  | .whileLoop _ condition body, seen => body.names (condition.names seen)
  | .forLoop _ counter binding first bound body, seen =>
    body.names (bound.names (first.names (⟨.forLoop, counter, { binding }⟩ :: seen)))
  | .forever _ body, seen => body.names seen
  | .leave _, seen => seen
  | .skip _, seen => seen
  | .giveBack _ value, seen => value.names seen
  | .disown _ name resolution, seen => ⟨.disown, name, resolution⟩ :: seen
  | .function _ declaration resolution, seen =>
    declaration.names (⟨.function, declaration.name, resolution⟩ :: seen)

/-- Adds the names of several statements. -/
def Stmt.listNames : List Stmt → NameEntries → NameEntries
  | [], seen => seen
  | stmt :: rest, seen => Stmt.listNames rest (stmt.names seen)

/-- Adds the names of the arms of a cond: of each, pattern, guard and body. -/
def Arm.listNames : List Arm → NameEntries → NameEntries
  | [], seen => seen
  | ⟨_, pattern, guard, body⟩ :: rest, seen =>
    let seen := match pattern with
      | some pattern => pattern.names seen
      | none => seen
    Arm.listNames rest (Stmt.listNames body (guard.names seen))

/-- Adds the names in a function, without its own. -/
def Function.names : Function → NameEntries → NameEntries
  | ⟨_, _, clauses⟩, seen => Clause.listNames clauses seen

/-- Adds the names of the clauses of a function: of each, parameters and body. -/
def Clause.listNames : List Clause → NameEntries → NameEntries
  | [], seen => seen
  | ⟨_, parameters, body⟩ :: rest, seen =>
    let seen := parameters.foldl (fun seen pattern => pattern.names seen) seen
    Clause.listNames rest (Stmt.listNames body seen)

end

/-- The names of a program in source order. -/
def Program.names (program : Program) : List NameEntry :=
  (Stmt.listNames program.statements []).reverse

end OwnScript
