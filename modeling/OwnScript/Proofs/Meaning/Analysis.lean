import OwnScript.Proofs.Analysis.Shape
import OwnScript.Proofs.Program.CallFree
import OwnScript.Proofs.Program.Evaluation

/-!
Analysis leaves the meaning of a program as it is. What it writes on names has no part in the evaluation, and apart
from that a program stays as it was written.
-/

namespace OwnScript

mutual

/-- A pattern accepts the same values as the one that was written. -/
@[simp] theorem Pattern.toMatcher_source (pattern : Pattern) : pattern.source.toMatcher = pattern.toMatcher := by
  cases pattern with
  | destructure location fields =>
    simp only [Pattern.source, Pattern.toMatcher, Pattern.toMatchers_sources fields]
  | wildcard | literal | bind => rfl
termination_by structural pattern

theorem Pattern.toMatchers_sources (fields : List (String × Pattern)) :
    Pattern.toMatchers (Pattern.fieldSources fields) = Pattern.toMatchers fields := by
  cases fields with
  | nil => rfl
  | cons field rest =>
    obtain ⟨name, pattern⟩ := field
    simp only [Pattern.fieldSources, Pattern.toMatchers, pattern.toMatcher_source, Pattern.toMatchers_sources rest]
termination_by structural fields

end

mutual

/-- It gives the same names to what is in them. -/
@[simp] theorem Pattern.variableNames_source (pattern : Pattern) :
    pattern.source.variableNames = pattern.variableNames := by
  cases pattern with
  | destructure location fields => exact Pattern.fieldVariableNames_sources fields
  | wildcard | literal | bind => rfl
termination_by structural pattern

theorem Pattern.fieldVariableNames_sources (fields : List (String × Pattern)) :
    Pattern.fieldVariableNames (Pattern.fieldSources fields) = Pattern.fieldVariableNames fields := by
  cases fields with
  | nil => rfl
  | cons field rest =>
    obtain ⟨name, pattern⟩ := field
    simp only [Pattern.fieldSources, Pattern.fieldVariableNames, pattern.variableNames_source,
      Pattern.fieldVariableNames_sources rest]
termination_by structural fields

end

theorem Pattern.variables?_source (pattern : Pattern) (heap : Heap) (value : Value) :
    pattern.source.variables? heap value = pattern.variables? heap value := by
  have heq (pattern : Pattern) : pattern.variables? heap value =
      (heap.matchValue pattern.toMatcher value).map (pattern.variableNames.zip ·) := by
    rw [Pattern.matchValue_toMatcher, Option.map_map]
    rfl
  rw [heq, heq, pattern.toMatcher_source, pattern.variableNames_source]

/-- What an arm binds does not depend on what analysis finds out. -/
theorem Arm.bound_source (pattern : Option Pattern) (heap : Heap) (value : Value) :
    (pattern.map Pattern.source).elim (some []) (·.variables? heap value) =
      pattern.elim (some []) (·.variables? heap value) := by
  cases pattern with
  | none => rfl
  | some pattern => exact pattern.variables?_source heap value

theorem Expr.fieldNames_sources (fields : List (String × Expr)) :
    (Expr.fieldSources fields).map (·.1) = fields.map (·.1) := by
  induction fields with
  | nil => rfl
  | cons field rest ih => rw [Expr.fieldSources, List.map_cons, List.map_cons, ih]

mutual

/-- An expression means what was written. -/
theorem Expr.evaluate_source (expr : Expr) : expr.source.evaluate = expr.evaluate := by
  cases expr with
  | absent | call | lambda | name => rfl
  | literal location value => rfl
  | unary location op operand => simp only [Expr.source, Expr.evaluate, operand.evaluate_source]
  | binary location op left right =>
    simp only [Expr.source, Expr.evaluate, left.evaluate_source, right.evaluate_source]
  | field location object name => simp only [Expr.source, Expr.evaluate, object.evaluate_source]
  | index location object index =>
    simp only [Expr.source, Expr.evaluate, object.evaluate_source, index.evaluate_source]
  | record location fields =>
    simp only [Expr.source, Expr.evaluate, Expr.evaluateFields_sources fields, Expr.fieldNames_sources fields]
  | array location items => simp only [Expr.source, Expr.evaluate, Expr.evaluateAll_sources items]
  | borrow location target exclusive => exact target.evaluate_source
  | move location target => cases target <;> rfl
  | deref location operand => exact operand.evaluate_source
termination_by structural expr

theorem Expr.evaluateAll_sources (exprs : List Expr) :
    Expr.evaluateAll (Expr.sources exprs) = Expr.evaluateAll exprs := by
  cases exprs with
  | nil => rfl
  | cons expr rest =>
    simp only [Expr.sources, Expr.evaluateAll, expr.evaluate_source, Expr.evaluateAll_sources rest]
termination_by structural exprs

theorem Expr.evaluateFields_sources (fields : List (String × Expr)) :
    Expr.evaluateFields (Expr.fieldSources fields) = Expr.evaluateFields fields := by
  cases fields with
  | nil => rfl
  | cons field rest =>
    obtain ⟨name, value⟩ := field
    simp only [Expr.fieldSources, Expr.evaluateFields, value.evaluate_source, Expr.evaluateFields_sources rest]
termination_by structural fields

end

mutual

/-- A statement does what was written. -/
theorem Stmt.perform_source (stmt : Stmt) (turns : Nat) (nested : Bool) :
    stmt.source.perform turns nested = stmt.perform turns nested := by
  cases stmt with
  | absent | leave | skip | disown | function => rfl
  | declare location name initial resolution =>
    simp only [Stmt.source, Stmt.perform, initial.isAbsent_source, initial.evaluate_source]
  | assign location name value resolution => simp only [Stmt.source, Stmt.perform, value.evaluate_source]
  | assignField location object field value =>
    simp only [Stmt.source, Stmt.perform, object.evaluate_source, value.evaluate_source]
  | assignIndex location object index value =>
    simp only [Stmt.source, Stmt.perform, object.evaluate_source, index.evaluate_source, value.evaluate_source]
  | evaluate location expression | print location expression =>
    simp only [Stmt.source, Stmt.perform, expression.evaluate_source]
  | block location body => simp only [Stmt.source, Stmt.perform, Stmt.performAll_sources body]
  | ifElse location condition yes no =>
    simp only [Stmt.source, Stmt.perform, condition.evaluate_source, yes.perform_source, no.perform_source]
  | cond location scrutinee arms =>
    simp only [Stmt.source, Stmt.perform, scrutinee.isAbsent_source, scrutinee.evaluate_source,
      Arm.performGuarded_sources arms, Arm.performMatched_sources arms]
  | whileLoop location condition body =>
    simp only [Stmt.source, Stmt.perform, condition.evaluate_source, body.perform_source]
  | forLoop location counter binding first bound body =>
    simp only [Stmt.source, Stmt.perform, first.evaluate_source, bound.evaluate_source, body.perform_source]
  | forever location body => simp only [Stmt.source, Stmt.perform, body.perform_source]
  | giveBack location value => simp only [Stmt.source, Stmt.perform, value.isAbsent_source, value.evaluate_source]
termination_by structural stmt

theorem Stmt.performAll_sources (stmts : List Stmt) (turns : Nat) (nested : Bool) :
    Stmt.performAll turns nested (Stmt.sources stmts) = Stmt.performAll turns nested stmts := by
  cases stmts with
  | nil => rfl
  | cons stmt rest =>
    simp only [Stmt.sources, Stmt.performAll, stmt.perform_source, Stmt.performAll_sources rest]
termination_by structural stmts

theorem Arm.performGuarded_sources (arms : List Arm) (turns : Nat) (location : Location) :
    Arm.performGuarded turns location (Arm.sources arms) = Arm.performGuarded turns location arms := by
  cases arms with
  | nil => rfl
  | cons arm rest =>
    obtain ⟨place, pattern, guard, body⟩ := arm
    simp only [Arm.sources, Arm.performGuarded, guard.isAbsent_source, guard.evaluate_source,
      Stmt.performAll_sources body, Arm.performGuarded_sources rest]
termination_by structural arms

theorem Arm.performMatched_sources (arms : List Arm) (turns : Nat) (location : Location) (value : Value) :
    Arm.performMatched turns location value (Arm.sources arms) = Arm.performMatched turns location value arms := by
  cases arms with
  | nil => rfl
  | cons arm rest =>
    obtain ⟨place, pattern, guard, body⟩ := arm
    simp only [Arm.sources, Arm.performMatched, Arm.bound_source, guard.isAbsent_source, guard.evaluate_source,
      Stmt.performAll_sources body, Arm.performMatched_sources rest]
termination_by structural arms

end

namespace Program

variable {program : Program}

/-- A program of which no statement is a function stays one. -/
theorem isFunction_analyze (hplain : ∀ stmt ∈ program.statements, stmt.isFunction = false) :
    ∀ stmt ∈ program.analyze.program.statements, stmt.isFunction = false := by
  intro stmt hstmt
  have hmem : stmt.source ∈ Stmt.sources program.statements := by
    rw [← program.sources_analyze, Stmt.sources_eq_map]
    exact List.mem_map_of_mem hstmt
  rw [Stmt.sources_eq_map] at hmem
  obtain ⟨other, hother, hsource⟩ := List.mem_map.mp hmem
  rw [← stmt.isFunction_source, ← hsource, other.isFunction_source, hplain other hother]

/-- A program means what was written, before analysis and after it. -/
theorem evaluate_analyze (program : Program) (turns : Nat) :
    program.analyze.program.evaluate turns = program.evaluate turns := by
  have hsame : Stmt.performAll turns false program.analyze.program.statements =
      Stmt.performAll turns false program.statements := by
    rw [← Stmt.performAll_sources, program.sources_analyze, Stmt.performAll_sources]
  rw [evaluate, evaluate, hsame]

end Program

end OwnScript
