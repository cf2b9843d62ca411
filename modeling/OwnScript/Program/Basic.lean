import OwnScript.Diagnostic
import OwnScript.Scalar

/-!
Programs as trees. A part that the source leaves out, or that a front end could not build, is
`absent`. Names carry what analysis finds out about them: the declaration that they lead to and
whether it is global.
-/

namespace OwnScript

/-- The number that analysis gives to a declaration. -/
abbrev BindingId := Nat

/-- What analysis knows about a name: the declaration, once resolved, and its reach. -/
structure Resolution where
  binding : Option BindingId := none
  isGlobal : Bool := false
  deriving Repr, DecidableEq

/-- A name where a variable is used. -/
structure Identifier where
  location : Location
  name : String
  resolution : Resolution := {}
  deriving Repr, DecidableEq

/-- A literal. -/
inductive Literal where
  | scalar (value : Scalar)
  | text (value : String)
  deriving DecidableEq

/-- A pattern of a clause or of an arm. -/
inductive Pattern where
  | wildcard (location : Location)
  | literal (location : Location) (value : Literal)
  | bind (location : Location) (name : String) (binding : Option BindingId)
  | destructure (location : Location) (fields : List (String × Pattern))

/-- Where a pattern stands. -/
def Pattern.location : Pattern → Location
  | .wildcard location | .literal location _ | .bind location _ _ | .destructure location _ => location

/-- Whether a pattern accepts every value without looking at it. -/
def Pattern.isIrrefutable : Pattern → Bool
  | .wildcard _ | .bind _ _ _ => true
  | _ => false

/-- The operators with one operand. -/
inductive UnaryOp where
  | negate
  | logicalNot
  | bitwiseNot
  deriving Repr, DecidableEq

/-- The operators with two operands. The last two decide whether their right operand runs. -/
inductive BinaryOp where
  | add
  | subtract
  | multiply
  | divide
  | modulo
  | bitwiseAnd
  | bitwiseOr
  | bitwiseXor
  | shiftLeft
  | shiftRight
  | equal
  | notEqual
  | less
  | lessEqual
  | greater
  | greaterEqual
  | logicalAnd
  | logicalOr
  deriving Repr, DecidableEq

/-- Whether an operator decides by its left operand if the right one runs. -/
def BinaryOp.isLogical : BinaryOp → Bool
  | .logicalAnd | .logicalOr => true
  | _ => false

mutual

/-- An expression. -/
inductive Expr where
  | absent
  | literal (location : Location) (value : Literal)
  | name (identifier : Identifier)
  | unary (location : Location) (op : UnaryOp) (operand : Expr)
  | binary (location : Location) (op : BinaryOp) (left right : Expr)
  | call (location : Location) (callee : Expr) (arguments : List Expr)
  | field (location : Location) (object : Expr) (name : String)
  | index (location : Location) (object index : Expr)
  | record (location : Location) (fields : List (String × Expr))
  | array (location : Location) (items : List Expr)
  | lambda (location : Location) (function : Function)
  /-- The value of a place, shared or for exclusive use. -/
  | borrow (location : Location) (target : Expr) (exclusive : Bool)
  /-- The value of a variable, which gives it up. -/
  | move (location : Location) (target : Option Identifier)
  | deref (location : Location) (operand : Expr)

/-- A statement. -/
inductive Stmt where
  | absent
  /-- Without an initial value the variable is declared but not initialized. -/
  | declare (location : Location) (name : String) (initial : Expr) (resolution : Resolution)
  | assign (location : Location) (name : String) (value : Expr) (resolution : Resolution)
  | assignField (location : Location) (object : Expr) (field : String) (value : Expr)
  | assignIndex (location : Location) (object index value : Expr)
  | evaluate (location : Location) (expression : Expr)
  | print (location : Location) (expression : Expr)
  | block (location : Location) (body : List Stmt)
  | ifElse (location : Location) (condition : Expr) (yes no : Stmt)
  /-- The first arm that matches runs; without a scrutinee the guards alone decide. -/
  | cond (location : Location) (scrutinee : Expr) (arms : List Arm)
  | whileLoop (location : Location) (condition : Expr) (body : Stmt)
  /-- The variable runs over the integers from the first bound up to, not including, the second. -/
  | forLoop (location : Location) (counter : String) (binding : Option BindingId)
      (first bound : Expr) (body : Stmt)
  | forever (location : Location) (body : Stmt)
  | leave (location : Location)
  | skip (location : Location)
  | giveBack (location : Location) (value : Expr)
  /-- Gives up the value of a variable. -/
  | disown (location : Location) (name : String) (resolution : Resolution)
  | function (location : Location) (declaration : Function) (resolution : Resolution)

/-- An arm of a cond. -/
structure Arm where
  location : Location
  pattern : Option Pattern
  guard : Expr
  body : List Stmt

/-- One alternative of a function, chosen by its parameters. -/
structure Clause where
  location : Location
  parameters : List Pattern
  body : List Stmt

/-- A function with its alternatives in order. -/
structure Function where
  name : String
  isProc : Bool
  clauses : List Clause

end

instance : Inhabited Expr := ⟨.absent⟩
instance : Inhabited Stmt := ⟨.absent⟩

/-- Whether an expression is left out. -/
def Expr.isAbsent : Expr → Bool
  | .absent => true
  | _ => false

/-- A program. -/
structure Program where
  statements : List Stmt
  /-- Whether analysis has accepted the program. -/
  analyzed : Bool := false
  /-- How many declarations analysis has numbered. -/
  bindingCount : Nat := 0

end OwnScript
