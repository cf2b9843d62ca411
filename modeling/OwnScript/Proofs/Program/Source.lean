import OwnScript.Proofs.Program.Scoping

/-!
Programs as they were written. The source of a part of a program is the part without what analysis finds out about
its names.
-/

namespace OwnScript

/-- A name as it was written. -/
def Identifier.source (identifier : Identifier) : Identifier :=
  { identifier with resolution := {} }

mutual

/-- A pattern as it was written. -/
def Pattern.source : Pattern → Pattern
  | .wildcard location => .wildcard location
  | .literal location value => .literal location value
  | .bind location name _ => .bind location name none
  | .destructure location fields => .destructure location (Pattern.fieldSources fields)

def Pattern.fieldSources : List (String × Pattern) → List (String × Pattern)
  | [] => []
  | (name, pattern) :: rest => (name, pattern.source) :: Pattern.fieldSources rest

end

mutual

/-- An expression as it was written. -/
def Expr.source : Expr → Expr
  | .absent => .absent
  | .literal location value => .literal location value
  | .name identifier => .name identifier.source
  | .unary location op operand => .unary location op operand.source
  | .binary location op left right => .binary location op left.source right.source
  | .call location callee arguments => .call location callee.source (Expr.sources arguments)
  | .field location object name => .field location object.source name
  | .index location object index => .index location object.source index.source
  | .record location fields => .record location (Expr.fieldSources fields)
  | .array location items => .array location (Expr.sources items)
  | .lambda location function => .lambda location function.source
  | .borrow location target exclusive => .borrow location target.source exclusive
  | .move location target => .move location (target.map Identifier.source)
  | .deref location operand => .deref location operand.source

def Expr.sources : List Expr → List Expr
  | [] => []
  | expr :: rest => expr.source :: Expr.sources rest

def Expr.fieldSources : List (String × Expr) → List (String × Expr)
  | [] => []
  | (name, value) :: rest => (name, value.source) :: Expr.fieldSources rest

/-- A statement as it was written. -/
def Stmt.source : Stmt → Stmt
  | .absent => .absent
  | .declare location name initial _ => .declare location name initial.source {}
  | .assign location name value _ => .assign location name value.source {}
  | .assignField location object field value => .assignField location object.source field value.source
  | .assignIndex location object index value => .assignIndex location object.source index.source value.source
  | .evaluate location expression => .evaluate location expression.source
  | .print location expression => .print location expression.source
  | .block location body => .block location (Stmt.sources body)
  | .ifElse location condition yes no => .ifElse location condition.source yes.source no.source
  | .cond location scrutinee arms => .cond location scrutinee.source (Arm.sources arms)
  | .whileLoop location condition body => .whileLoop location condition.source body.source
  | .forLoop location counter _ first bound body =>
    .forLoop location counter none first.source bound.source body.source
  | .forever location body => .forever location body.source
  | .leave location => .leave location
  | .skip location => .skip location
  | .giveBack location value => .giveBack location value.source
  | .disown location name _ => .disown location name {}
  | .function location declaration _ => .function location declaration.source {}

def Stmt.sources : List Stmt → List Stmt
  | [] => []
  | stmt :: rest => stmt.source :: Stmt.sources rest

def Arm.sources : List Arm → List Arm
  | [] => []
  | ⟨location, pattern, guard, body⟩ :: rest =>
    ⟨location, pattern.map Pattern.source, guard.source, Stmt.sources body⟩ :: Arm.sources rest

/-- A function as it was written. -/
def Function.source : Function → Function
  | ⟨name, isProc, clauses⟩ => ⟨name, isProc, Clause.sources clauses⟩

def Clause.sources : List Clause → List Clause
  | [] => []
  | ⟨location, parameters, body⟩ :: rest =>
    ⟨location, parameters.map Pattern.source, Stmt.sources body⟩ :: Clause.sources rest

end

@[simp] theorem Expr.isAbsent_source (expr : Expr) : expr.source.isAbsent = expr.isAbsent := by
  cases expr <;> rfl

@[simp] theorem Stmt.isDeclaration_source (stmt : Stmt) : stmt.source.isDeclaration = stmt.isDeclaration := by
  cases stmt <;> rfl

@[simp] theorem Stmt.isFunction_source (stmt : Stmt) : stmt.source.isFunction = stmt.isFunction := by
  cases stmt <;> rfl

theorem Stmt.isContained_source (stmt : Stmt) : stmt.source.isContained = stmt.isContained := by
  cases stmt with
  | ifElse location condition yes no =>
    rw [Stmt.source, Stmt.isContained, yes.isContained_source, no.isContained_source, Stmt.isContained]
  | _ => rfl
termination_by structural stmt

theorem Stmt.sources_eq_map (stmts : List Stmt) : Stmt.sources stmts = stmts.map Stmt.source := by
  induction stmts with
  | nil => rfl
  | cons stmt rest ih => rw [Stmt.sources, List.map_cons, ih]

theorem Stmt.contained_sources (stmts : List Stmt) :
    ((Stmt.sources stmts).all fun stmt => stmt.isDeclaration || stmt.isContained) =
      stmts.all fun stmt => stmt.isDeclaration || stmt.isContained := by
  induction stmts with
  | nil => rfl
  | cons stmt rest ih =>
    rw [Stmt.sources, List.all_cons, List.all_cons, stmt.isDeclaration_source, stmt.isContained_source, ih]

mutual

/-- The shape of an expression does not depend on what analysis finds out. -/
theorem Expr.wellShaped_source (expr : Expr) : expr.source.wellShaped = expr.wellShaped := by
  cases expr with
  | absent | literal | name | move => rfl
  | unary location op operand => exact operand.wellShaped_source
  | binary location op left right =>
    simp only [Expr.source, Expr.wellShaped, left.wellShaped_source, right.wellShaped_source]
  | call location callee arguments =>
    simp only [Expr.source, Expr.wellShaped, callee.wellShaped_source, Expr.wellShaped_sources arguments]
  | field location object name => exact object.wellShaped_source
  | index location object index =>
    simp only [Expr.source, Expr.wellShaped, object.wellShaped_source, index.wellShaped_source]
  | record location fields => exact Expr.wellShaped_fieldSources fields
  | array location items => exact Expr.wellShaped_sources items
  | lambda location function => exact function.wellShaped_source
  | borrow location target exclusive => exact target.wellShaped_source
  | deref location operand => exact operand.wellShaped_source
termination_by structural expr

theorem Expr.wellShaped_sources (exprs : List Expr) : exprsWellShaped (Expr.sources exprs) = exprsWellShaped exprs := by
  cases exprs with
  | nil => rfl
  | cons expr rest =>
    simp only [Expr.sources, exprsWellShaped, expr.wellShaped_source, Expr.wellShaped_sources rest]
termination_by structural exprs

theorem Expr.wellShaped_fieldSources (fields : List (String × Expr)) :
    fieldsWellShaped (Expr.fieldSources fields) = fieldsWellShaped fields := by
  cases fields with
  | nil => rfl
  | cons field rest =>
    obtain ⟨name, value⟩ := field
    simp only [Expr.fieldSources, fieldsWellShaped, value.wellShaped_source, Expr.wellShaped_fieldSources rest]
termination_by structural fields

theorem Stmt.wellShaped_source (stmt : Stmt) : stmt.source.wellShaped = stmt.wellShaped := by
  cases stmt with
  | absent | leave | skip | disown => rfl
  | declare location name initial resolution =>
    simp only [Stmt.source, Stmt.wellShaped, initial.isAbsent_source, initial.wellShaped_source]
  | assign location name value resolution => exact value.wellShaped_source
  | assignField location object field value =>
    simp only [Stmt.source, Stmt.wellShaped, object.wellShaped_source, value.wellShaped_source]
  | assignIndex location object index value =>
    simp only [Stmt.source, Stmt.wellShaped, object.wellShaped_source, index.wellShaped_source, value.wellShaped_source]
  | evaluate location expression | print location expression => exact expression.wellShaped_source
  | block location body => exact Stmt.wellShaped_sources body
  | ifElse location condition yes no =>
    simp only [Stmt.source, Stmt.wellShaped, condition.wellShaped_source, yes.isDeclaration_source,
      yes.wellShaped_source, no.isDeclaration_source, no.wellShaped_source]
  | cond location scrutinee arms =>
    simp only [Stmt.source, Stmt.wellShaped, scrutinee.isAbsent_source, scrutinee.wellShaped_source,
      Arm.wellShaped_sources _ arms]
  | whileLoop location condition body =>
    simp only [Stmt.source, Stmt.wellShaped, condition.wellShaped_source, body.wellShaped_source]
  | forLoop location counter binding first bound body =>
    simp only [Stmt.source, Stmt.wellShaped, first.wellShaped_source, bound.wellShaped_source, body.wellShaped_source]
  | forever location body => exact body.wellShaped_source
  | giveBack location value =>
    simp only [Stmt.source, Stmt.wellShaped, value.isAbsent_source, value.wellShaped_source]
  | function location declaration resolution => exact declaration.wellShaped_source
termination_by structural stmt

theorem Stmt.wellShaped_sources (stmts : List Stmt) : stmtsWellShaped (Stmt.sources stmts) = stmtsWellShaped stmts := by
  cases stmts with
  | nil => rfl
  | cons stmt rest =>
    simp only [Stmt.sources, stmtsWellShaped, stmt.wellShaped_source, Stmt.wellShaped_sources rest]
termination_by structural stmts

theorem Arm.wellShaped_sources (guardsOnly : Bool) (arms : List Arm) :
    armsWellShaped guardsOnly (Arm.sources arms) = armsWellShaped guardsOnly arms := by
  cases arms with
  | nil => rfl
  | cons arm rest =>
    obtain ⟨location, pattern, guard, body⟩ := arm
    simp only [Arm.sources, armsWellShaped, Option.isSome_map, guard.isAbsent_source, guard.wellShaped_source,
      Stmt.wellShaped_sources body, Arm.wellShaped_sources guardsOnly rest]
termination_by structural arms

theorem Function.wellShaped_source (function : Function) : function.source.wellShaped = function.wellShaped := by
  obtain ⟨name, isProc, clauses⟩ := function
  exact Clause.wellShaped_sources clauses
termination_by structural function

theorem Clause.wellShaped_sources (clauses : List Clause) :
    clausesWellShaped (Clause.sources clauses) = clausesWellShaped clauses := by
  cases clauses with
  | nil => rfl
  | cons clause rest =>
    obtain ⟨location, parameters, body⟩ := clause
    simp only [Clause.sources, clausesWellShaped, Stmt.wellShaped_sources body, Clause.wellShaped_sources rest]
termination_by structural clauses

end

end OwnScript
