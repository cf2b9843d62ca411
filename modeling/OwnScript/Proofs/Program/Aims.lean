import OwnScript.Proofs.Program.Source

/-!
What moves and patterns are about. A move is aimed if it says what it moves, and the patterns of a cond are if there
is a value that they look at.
-/

namespace OwnScript

mutual

/-- Whether all moves and patterns in an expression are aimed. -/
def Expr.aimed : Expr → Bool
  | .absent | .literal _ _ | .name _ => true
  | .unary _ _ operand | .deref _ operand => operand.aimed
  | .binary _ _ left right => left.aimed && right.aimed
  | .call _ callee arguments => callee.aimed && exprsAimed arguments
  | .field _ object _ => object.aimed
  | .index _ object index => object.aimed && index.aimed
  | .record _ fields => fieldsAimed fields
  | .array _ items => exprsAimed items
  | .lambda _ function => function.aimed
  | .borrow _ target _ => target.aimed
  | .move _ target => target.isSome

def exprsAimed : List Expr → Bool
  | [] => true
  | expr :: rest => expr.aimed && exprsAimed rest

def fieldsAimed : List (String × Expr) → Bool
  | [] => true
  | (_, value) :: rest => value.aimed && fieldsAimed rest

/-- Whether all moves and patterns in a statement are aimed. -/
def Stmt.aimed : Stmt → Bool
  | .absent | .leave _ | .skip _ | .disown _ _ _ => true
  | .declare _ _ initial _ => initial.aimed
  | .assign _ _ value _ => value.aimed
  | .assignField _ object _ value => object.aimed && value.aimed
  | .assignIndex _ object index value => object.aimed && index.aimed && value.aimed
  | .evaluate _ expression | .print _ expression | .giveBack _ expression => expression.aimed
  | .block _ body => stmtsAimed body
  | .ifElse _ condition yes no => condition.aimed && yes.aimed && no.aimed
  | .cond _ scrutinee arms => scrutinee.aimed && armsAimed scrutinee.isAbsent arms
  | .whileLoop _ condition body => condition.aimed && body.aimed
  | .forLoop _ _ _ first bound body => first.aimed && bound.aimed && body.aimed
  | .forever _ body => body.aimed
  | .function _ declaration _ => declaration.aimed

def stmtsAimed : List Stmt → Bool
  | [] => true
  | stmt :: rest => stmt.aimed && stmtsAimed rest

/-- Where guards alone decide, a pattern has nothing to look at. -/
def armsAimed (guardsOnly : Bool) : List Arm → Bool
  | [] => true
  | ⟨_, pattern, guard, body⟩ :: rest =>
    !(guardsOnly && pattern.isSome) && guard.aimed && stmtsAimed body && armsAimed guardsOnly rest

def Function.aimed : Function → Bool
  | ⟨_, _, clauses⟩ => clausesAimed clauses

def clausesAimed : List Clause → Bool
  | [] => true
  | ⟨_, _, body⟩ :: rest => stmtsAimed body && clausesAimed rest

end

/-- Whether all moves and patterns in a program are aimed. -/
def Program.aimed (program : Program) : Bool :=
  stmtsAimed program.statements

theorem stmtsAimed_eq_all (stmts : List Stmt) : stmtsAimed stmts = stmts.all Stmt.aimed := by
  induction stmts with
  | nil => rfl
  | cons stmt rest ih => rw [stmtsAimed, List.all_cons, ih]

mutual

/-- What is aimed at does not depend on what analysis finds out. -/
theorem Expr.aimed_source (expr : Expr) : expr.source.aimed = expr.aimed := by
  cases expr with
  | absent | literal | name => rfl
  | unary location op operand => exact operand.aimed_source
  | binary location op left right => simp only [Expr.source, Expr.aimed, left.aimed_source, right.aimed_source]
  | call location callee arguments =>
    simp only [Expr.source, Expr.aimed, callee.aimed_source, Expr.aimed_sources arguments]
  | field location object name => exact object.aimed_source
  | index location object index => simp only [Expr.source, Expr.aimed, object.aimed_source, index.aimed_source]
  | record location fields => exact Expr.aimed_fieldSources fields
  | array location items => exact Expr.aimed_sources items
  | lambda location function => exact function.aimed_source
  | borrow location target exclusive => exact target.aimed_source
  | move location target => simp only [Expr.source, Expr.aimed, Option.isSome_map]
  | deref location operand => exact operand.aimed_source
termination_by structural expr

theorem Expr.aimed_sources (exprs : List Expr) : exprsAimed (Expr.sources exprs) = exprsAimed exprs := by
  cases exprs with
  | nil => rfl
  | cons expr rest => simp only [Expr.sources, exprsAimed, expr.aimed_source, Expr.aimed_sources rest]
termination_by structural exprs

theorem Expr.aimed_fieldSources (fields : List (String × Expr)) :
    fieldsAimed (Expr.fieldSources fields) = fieldsAimed fields := by
  cases fields with
  | nil => rfl
  | cons field rest =>
    obtain ⟨name, value⟩ := field
    simp only [Expr.fieldSources, fieldsAimed, value.aimed_source, Expr.aimed_fieldSources rest]
termination_by structural fields

theorem Stmt.aimed_source (stmt : Stmt) : stmt.source.aimed = stmt.aimed := by
  cases stmt with
  | absent | leave | skip | disown => rfl
  | declare location name initial resolution => exact initial.aimed_source
  | assign location name value resolution => exact value.aimed_source
  | assignField location object field value =>
    simp only [Stmt.source, Stmt.aimed, object.aimed_source, value.aimed_source]
  | assignIndex location object index value =>
    simp only [Stmt.source, Stmt.aimed, object.aimed_source, index.aimed_source, value.aimed_source]
  | evaluate location expression | print location expression => exact expression.aimed_source
  | block location body => exact Stmt.aimed_sources body
  | ifElse location condition yes no =>
    simp only [Stmt.source, Stmt.aimed, condition.aimed_source, yes.aimed_source, no.aimed_source]
  | cond location scrutinee arms =>
    simp only [Stmt.source, Stmt.aimed, scrutinee.isAbsent_source, scrutinee.aimed_source, Arm.aimed_sources _ arms]
  | whileLoop location condition body =>
    simp only [Stmt.source, Stmt.aimed, condition.aimed_source, body.aimed_source]
  | forLoop location counter binding first bound body =>
    simp only [Stmt.source, Stmt.aimed, first.aimed_source, bound.aimed_source, body.aimed_source]
  | forever location body => exact body.aimed_source
  | giveBack location value => exact value.aimed_source
  | function location declaration resolution => exact declaration.aimed_source
termination_by structural stmt

theorem Stmt.aimed_sources (stmts : List Stmt) : stmtsAimed (Stmt.sources stmts) = stmtsAimed stmts := by
  cases stmts with
  | nil => rfl
  | cons stmt rest => simp only [Stmt.sources, stmtsAimed, stmt.aimed_source, Stmt.aimed_sources rest]
termination_by structural stmts

theorem Arm.aimed_sources (guardsOnly : Bool) (arms : List Arm) :
    armsAimed guardsOnly (Arm.sources arms) = armsAimed guardsOnly arms := by
  cases arms with
  | nil => rfl
  | cons arm rest =>
    obtain ⟨location, pattern, guard, body⟩ := arm
    simp only [Arm.sources, armsAimed, Option.isSome_map, guard.aimed_source, Stmt.aimed_sources body,
      Arm.aimed_sources guardsOnly rest]
termination_by structural arms

theorem Function.aimed_source (function : Function) : function.source.aimed = function.aimed := by
  obtain ⟨name, isProc, clauses⟩ := function
  exact Clause.aimed_sources clauses
termination_by structural function

theorem Clause.aimed_sources (clauses : List Clause) :
    clausesAimed (Clause.sources clauses) = clausesAimed clauses := by
  cases clauses with
  | nil => rfl
  | cons clause rest =>
    obtain ⟨location, parameters, body⟩ := clause
    simp only [Clause.sources, clausesAimed, Stmt.aimed_sources body, Clause.aimed_sources rest]
termination_by structural clauses

end

end OwnScript
