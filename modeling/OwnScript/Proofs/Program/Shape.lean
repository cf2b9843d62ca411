import OwnScript.Program.Basic

/-!
The shape of programs. A program is well shaped if no expression is missing where the language wants
one, no branch of an if is a declaration by itself, and a cond without a scrutinee has guards only.
-/

namespace OwnScript

/-- Whether a statement is a declaration by itself, which brings a variable into the scope around it. -/
def Stmt.isDeclaration : Stmt → Bool
  | .declare .. | .function .. => true
  | _ => false

/-- Whether a statement declares nothing in the scope around it, in no branch of an if either. -/
def Stmt.isContained : Stmt → Bool
  | .declare .. | .function .. => false
  | .ifElse _ _ yes no => yes.isContained && no.isContained
  | _ => true

mutual

/-- Whether an expression is there, and what it consists of is well shaped. -/
def Expr.wellShaped : Expr → Bool
  | .absent => false
  | .literal _ _ | .name _ | .move _ _ => true
  | .unary _ _ operand => operand.wellShaped
  | .binary _ _ left right => left.wellShaped && right.wellShaped
  | .call _ callee arguments => callee.wellShaped && exprsWellShaped arguments
  | .field _ object _ => object.wellShaped
  | .index _ object index => object.wellShaped && index.wellShaped
  | .record _ fields => fieldsWellShaped fields
  | .array _ items => exprsWellShaped items
  | .lambda _ function => function.wellShaped
  | .borrow _ target _ => target.wellShaped
  | .deref _ operand => operand.wellShaped

/-- Whether expressions are there and well shaped. -/
def exprsWellShaped : List Expr → Bool
  | [] => true
  | expr :: rest => expr.wellShaped && exprsWellShaped rest

/-- Whether the values of fields are there and well shaped. -/
def fieldsWellShaped : List (String × Expr) → Bool
  | [] => true
  | (_, value) :: rest => value.wellShaped && fieldsWellShaped rest

/-- Whether a statement is well shaped. Initial values, results of functions and guards may be left
out. -/
def Stmt.wellShaped : Stmt → Bool
  | .absent | .leave _ | .skip _ | .disown _ _ _ => true
  | .declare _ _ initial _ => initial.isAbsent || initial.wellShaped
  | .assign _ _ value _ => value.wellShaped
  | .assignField _ object _ value => object.wellShaped && value.wellShaped
  | .assignIndex _ object index value => object.wellShaped && index.wellShaped && value.wellShaped
  | .evaluate _ expression => expression.wellShaped
  | .print _ expression => expression.wellShaped
  | .block _ body => stmtsWellShaped body
  | .ifElse _ condition yes no =>
    condition.wellShaped && !yes.isDeclaration && yes.wellShaped && !no.isDeclaration && no.wellShaped
  | .cond _ scrutinee arms =>
    (scrutinee.isAbsent || scrutinee.wellShaped) && armsWellShaped scrutinee.isAbsent arms
  | .whileLoop _ condition body => condition.wellShaped && body.wellShaped
  | .forLoop _ _ _ first bound body => first.wellShaped && bound.wellShaped && body.wellShaped
  | .forever _ body => body.wellShaped
  | .giveBack _ value => value.isAbsent || value.wellShaped
  | .function _ declaration _ => declaration.wellShaped

/-- Whether statements are well shaped. -/
def stmtsWellShaped : List Stmt → Bool
  | [] => true
  | stmt :: rest => stmt.wellShaped && stmtsWellShaped rest

/-- Whether the arms of a cond are well shaped; if guards alone decide, no arm has a pattern. -/
def armsWellShaped (guardsOnly : Bool) : List Arm → Bool
  | [] => true
  | ⟨_, pattern, guard, body⟩ :: rest =>
    !(guardsOnly && pattern.isSome) && (guard.isAbsent || guard.wellShaped) && stmtsWellShaped body
      && armsWellShaped guardsOnly rest

/-- Whether the clauses of a function are well shaped. -/
def Function.wellShaped : Function → Bool
  | ⟨_, _, clauses⟩ => clausesWellShaped clauses

/-- Whether clauses are well shaped. -/
def clausesWellShaped : List Clause → Bool
  | [] => true
  | ⟨_, _, body⟩ :: rest => stmtsWellShaped body && clausesWellShaped rest

end

/-- Whether a program is well shaped. -/
def Program.wellShaped (program : Program) : Bool :=
  stmtsWellShaped program.statements

/-- Whether the declarations in the outermost scope are statements of the program, and no branches. -/
def Program.isContained (program : Program) : Bool :=
  program.statements.all fun stmt => stmt.isDeclaration || stmt.isContained

/-- A statement that is well shaped declares something in the scope around it only if it is a declaration itself. -/
theorem Stmt.isContained_of_wellShaped (stmt : Stmt) (hshape : stmt.wellShaped = true)
    (hplain : stmt.isDeclaration = false) : stmt.isContained = true := by
  cases stmt with
  | declare | function => cases hplain
  | ifElse location condition yes no =>
    simp only [Stmt.wellShaped, Bool.and_eq_true, Bool.not_eq_true'] at hshape
    obtain ⟨⟨⟨⟨-, hyes⟩, hyesShape⟩, hno⟩, hnoShape⟩ := hshape
    rw [Stmt.isContained, yes.isContained_of_wellShaped hyesShape hyes, no.isContained_of_wellShaped hnoShape hno]
    rfl
  | _ => rfl
termination_by structural stmt

end OwnScript
