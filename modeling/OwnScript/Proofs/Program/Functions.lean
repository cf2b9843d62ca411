import Mathlib.Data.List.Basic
import OwnScript.Proofs.Program.Scoping
import OwnScript.Lowering.Patterns

/-!
The functions of a program that have code, declared or anonymous and however deep, each with the place where its
closures are made. Arms of a cond behind one that always matches have no code. What lexical scoping says about a
program it says about every function inside.
-/

namespace OwnScript

/-- Whether an arm always matches: it has no guard, and no pattern that could fail is looked at. -/
def Arm.isLast (guardsOnly : Bool) (arm : Arm) : Bool :=
  arm.guard.isAbsent && (guardsOnly || arm.pattern.all Pattern.isIrrefutable)

mutual

/-- The functions in an expression. -/
def Expr.functions : Expr → List (Location × Function)
  | .absent | .literal _ _ | .name _ | .move _ _ => []
  | .unary _ _ operand | .deref _ operand => operand.functions
  | .binary _ _ left right => left.functions ++ right.functions
  | .call _ callee arguments => callee.functions ++ Expr.allFunctions arguments
  | .field _ object _ => object.functions
  | .index _ object index => object.functions ++ index.functions
  | .record _ fields => Expr.fieldFunctions fields
  | .array _ items => Expr.allFunctions items
  | .lambda location function => (location, function) :: function.inner
  | .borrow _ target _ => target.functions

def Expr.allFunctions : List Expr → List (Location × Function)
  | [] => []
  | expr :: rest => expr.functions ++ Expr.allFunctions rest

def Expr.fieldFunctions : List (String × Expr) → List (Location × Function)
  | [] => []
  | (_, value) :: rest => value.functions ++ Expr.fieldFunctions rest

/-- The functions in a statement. A global function is made before the first statement. -/
def Stmt.functions : Stmt → List (Location × Function)
  | .absent | .leave _ | .skip _ | .disown _ _ _ => []
  | .declare _ _ initial _ => initial.functions
  | .assign _ _ value _ => value.functions
  | .assignField _ object _ value => object.functions ++ value.functions
  | .assignIndex _ object index value => object.functions ++ (index.functions ++ value.functions)
  | .evaluate _ expression | .print _ expression | .giveBack _ expression => expression.functions
  | .block _ body => Stmt.allFunctions body
  | .ifElse _ condition yes no => condition.functions ++ (yes.functions ++ no.functions)
  | .cond _ scrutinee arms => scrutinee.functions ++ Arm.functions scrutinee.isAbsent arms
  | .whileLoop _ condition body => condition.functions ++ body.functions
  | .forLoop _ _ _ first bound body => first.functions ++ (bound.functions ++ body.functions)
  | .forever _ body => body.functions
  | .function location declaration resolution =>
    if resolution.isGlobal then [] else (location, declaration) :: declaration.inner

def Stmt.allFunctions : List Stmt → List (Location × Function)
  | [] => []
  | stmt :: rest => stmt.functions ++ Stmt.allFunctions rest

def Arm.functions (guardsOnly : Bool) : List Arm → List (Location × Function)
  | [] => []
  | ⟨place, pattern, guard, body⟩ :: rest =>
    guard.functions ++ (Stmt.allFunctions body ++
      if Arm.isLast guardsOnly ⟨place, pattern, guard, body⟩ then [] else Arm.functions guardsOnly rest)

/-- The functions inside a function. -/
def Function.inner : Function → List (Location × Function)
  | ⟨_, _, clauses⟩ => Clause.functions clauses

def Clause.functions : List Clause → List (Location × Function)
  | [] => []
  | ⟨_, _, body⟩ :: rest => Stmt.allFunctions body ++ Clause.functions rest

end

/-- The functions that are made before a statement of a program runs. -/
def Stmt.earlyFunctions : Stmt → List (Location × Function)
  | .function location declaration resolution =>
    if resolution.isGlobal then (location, declaration) :: declaration.inner else []
  | _ => []

/-- The functions of a program that have code. -/
def Program.functions (program : Program) : List (Location × Function) :=
  program.statements.flatMap Stmt.earlyFunctions ++ Stmt.allFunctions program.statements

section Mentions

variable {location : Location} {function : Function} {outline more : List Naming}

/-- What the function says about names is part of an outline. -/
def Outlined (function : Function) (outline : List Naming) : Prop :=
  (mentions function.outline).Sublist (mentions outline)

theorem Outlined.left (h : Outlined function outline) (more : List Naming) : Outlined function (outline ++ more) := by
  rw [Outlined, mentions_append]
  exact h.trans (List.sublist_append_left ..)

theorem Outlined.right (h : Outlined function more) (outline : List Naming) : Outlined function (outline ++ more) := by
  rw [Outlined, mentions_append]
  exact h.trans (List.sublist_append_right ..)

theorem Outlined.scope (h : Outlined function outline) : Outlined function [.scope outline] := by
  rw [Outlined, mentions_scope]
  exact h

theorem Outlined.cons (h : Outlined function outline) (naming : Naming) : Outlined function (naming :: outline) :=
  h.right [naming]

theorem Outlined.append (h : Outlined function outline ∨ Outlined function more) :
    Outlined function (outline ++ more) :=
  h.elim (·.left more) (·.right outline)

mutual

theorem Expr.outlined (expr : Expr) (hmem : (location, function) ∈ expr.functions) :
    Outlined function expr.outline := by
  cases expr with
  | absent | literal | name | move => cases hmem
  | unary _ _ operand | deref _ operand => exact operand.outlined hmem
  | binary _ _ left right => exact .append ((List.mem_append.mp hmem).imp left.outlined right.outlined)
  | call _ callee arguments =>
      exact .append ((List.mem_append.mp hmem).imp callee.outlined (Expr.all_outlined arguments))
  | field _ object _ => exact object.outlined hmem
  | index _ object index => exact .append ((List.mem_append.mp hmem).imp object.outlined index.outlined)
  | record _ fields => exact Expr.fields_outlined fields hmem
  | array _ items => exact Expr.all_outlined items hmem
  | lambda _ inner =>
    rcases List.mem_cons.mp hmem with heq | hmem
    · cases heq
      exact .refl _
    · exact Function.inner_outlined inner hmem
  | borrow _ target _ => exact target.outlined hmem
termination_by structural expr

theorem Expr.all_outlined (exprs : List Expr) (hmem : (location, function) ∈ Expr.allFunctions exprs) :
    Outlined function (Expr.outlines exprs) := by
  cases exprs with
  | nil => cases hmem
  | cons expr rest => exact .append ((List.mem_append.mp hmem).imp expr.outlined (Expr.all_outlined rest))
termination_by structural exprs

theorem Expr.fields_outlined (fields : List (String × Expr))
    (hmem : (location, function) ∈ Expr.fieldFunctions fields) :
    Outlined function (Expr.fieldOutlines fields) := by
  cases fields with
  | nil => cases hmem
  | cons field rest =>
    obtain ⟨name, value⟩ := field
    exact .append ((List.mem_append.mp hmem).imp value.outlined (Expr.fields_outlined rest))
termination_by structural fields

theorem Stmt.outlined (stmt : Stmt) (hmem : (location, function) ∈ stmt.functions) :
    Outlined function stmt.outline := by
  cases stmt with
  | absent | leave | skip | disown => cases hmem
  | declare _ _ initial _ => exact (initial.outlined hmem).left _
  | assign _ _ value _ => exact (value.outlined hmem).left _
  | assignField _ object _ value => exact .append ((List.mem_append.mp hmem).imp object.outlined value.outlined)
  | assignIndex _ object index value =>
    exact .append ((List.mem_append.mp hmem).imp object.outlined fun hmem =>
      .append ((List.mem_append.mp hmem).imp index.outlined value.outlined))
  | evaluate _ expression | print _ expression | giveBack _ expression => exact expression.outlined hmem
  | block _ body => exact (Stmt.all_outlined body hmem).scope
  | ifElse _ condition yes no =>
    exact .append ((List.mem_append.mp hmem).imp condition.outlined fun hmem =>
      .append ((List.mem_append.mp hmem).imp yes.outlined no.outlined))
  | cond _ scrutinee arms => exact .append ((List.mem_append.mp hmem).imp scrutinee.outlined (Arm.outlined _ arms))
  | whileLoop _ condition body =>
    exact Outlined.scope (.append ((List.mem_append.mp hmem).imp condition.outlined body.outlined))
  | forLoop _ _ _ first bound body =>
    exact .append ((List.mem_append.mp hmem).imp first.outlined fun hmem =>
      .append ((List.mem_append.mp hmem).imp bound.outlined fun hmem => ((body.outlined hmem).cons _).scope.scope))
  | forever _ body => exact (body.outlined hmem).scope
  | function _ declaration _ =>
    rw [Stmt.functions] at hmem
    split at hmem
    · cases hmem
    · refine Outlined.cons ?_ _
      rcases List.mem_cons.mp hmem with heq | hmem
      · cases heq
        exact .refl _
      · exact Function.inner_outlined declaration hmem
termination_by structural stmt

theorem Stmt.all_outlined (stmts : List Stmt) (hmem : (location, function) ∈ Stmt.allFunctions stmts) :
    Outlined function (Stmt.outlines stmts) := by
  cases stmts with
  | nil => cases hmem
  | cons stmt rest => exact .append ((List.mem_append.mp hmem).imp stmt.outlined (Stmt.all_outlined rest))
termination_by structural stmts

theorem Arm.outlined (guardsOnly : Bool) (arms : List Arm)
    (hmem : (location, function) ∈ Arm.functions guardsOnly arms) :
    Outlined function (Arm.outlines arms) := by
  cases arms with
  | nil => cases hmem
  | cons arm rest =>
    obtain ⟨place, pattern, guard, body⟩ := arm
    rcases List.mem_append.mp hmem with hmem | hmem
    · exact ((guard.outlined hmem).left _ |>.right _).scope.left (Arm.outlines rest)
    · rcases List.mem_append.mp hmem with hmem | hmem
      · exact ((Stmt.all_outlined body hmem).right _ |>.right _).scope.left (Arm.outlines rest)
      · split at hmem
        · cases hmem
        · exact (Arm.outlined guardsOnly rest hmem).cons _
termination_by structural arms

theorem Function.inner_outlined (outer : Function) (hmem : (location, function) ∈ outer.inner) :
    Outlined function outer.outline := by
  obtain ⟨name, isProc, clauses⟩ := outer
  exact Clause.outlined clauses hmem
termination_by structural outer

theorem Clause.outlined (clauses : List Clause) (hmem : (location, function) ∈ Clause.functions clauses) :
    Outlined function (Clause.outlines clauses) := by
  cases clauses with
  | nil => cases hmem
  | cons clause rest =>
    obtain ⟨place, parameters, body⟩ := clause
    rcases List.mem_append.mp hmem with hmem | hmem
    · exact ((Stmt.all_outlined body hmem).right _).scope.left (Clause.outlines rest)
    · exact (Clause.outlined rest hmem).cons _
termination_by structural clauses

end

/-- A statement of a program does not repeat the declaration of its function, which is visible from the start. -/
theorem Stmt.late_outlined (stmt : Stmt)
    (hmem : (location, function) ∈ stmt.earlyFunctions ∨ (location, function) ∈ stmt.functions) :
    Outlined function stmt.late := by
  cases stmt with
  | function place declaration resolution =>
    have hmem : (location, function) ∈ (place, declaration) :: declaration.inner := by
      rw [Stmt.earlyFunctions, Stmt.functions] at hmem
      cases hglobal : resolution.isGlobal <;> simpa [hglobal] using hmem
    rcases List.mem_cons.mp hmem with heq | hmem
    · cases heq
      exact .refl _
    · exact Function.inner_outlined declaration hmem
  | _ => exact Stmt.outlined _ (hmem.resolve_left List.not_mem_nil)

theorem Program.outlined (program : Program) (hmem : (location, function) ∈ program.functions) :
    Outlined function program.outline := by
  refine Outlined.right ?_ _
  replace hmem := List.mem_append.mp hmem
  change Outlined function (program.statements.flatMap Stmt.late)
  generalize program.statements = statements at hmem ⊢
  induction statements with
  | nil => exact (hmem.elim List.not_mem_nil List.not_mem_nil).elim
  | cons stmt rest ih =>
    rw [List.flatMap_cons, Stmt.allFunctions, List.mem_append, List.mem_append] at hmem
    refine .append ?_
    rcases hmem with (hfirst | hrest) | (hfirst | hrest)
    · exact .inl (stmt.late_outlined (.inl hfirst))
    · exact .inr (ih (.inl hrest))
    · exact .inl (stmt.late_outlined (.inr hfirst))
    · exact .inr (ih (.inr hrest))

end Mentions

section Parameters

variable {property : Scopes → Naming → Prop} {naming : Naming}

mutual

theorem Naming.Throughout.mention (part : Naming) {scopes : Scopes} (h : part.Throughout property scopes)
    (hmem : naming ∈ part.mentions) : ∃ scopes, property scopes naming := by
  cases part with
  | declares name resolution =>
    obtain rfl := List.mem_singleton.mp hmem
    exact ⟨scopes, h⟩
  | refers name resolution =>
    obtain rfl := List.mem_singleton.mp hmem
    exact ⟨scopes, h⟩
  | scope body => exact Throughout.mention body h hmem
termination_by structural part

theorem Throughout.mention (outline : List Naming) {scopes : Scopes} (h : Throughout property scopes outline)
    (hmem : naming ∈ mentions outline) : ∃ scopes, property scopes naming := by
  cases outline with
  | nil => cases hmem
  | cons first rest =>
    rcases List.mem_append.mp hmem with hmem | hmem
    · exact Naming.Throughout.mention first h.1 hmem
    · exact Throughout.mention rest h.2 hmem
termination_by structural outline

end

mutual

/-- A pattern mentions its variables and nothing else. -/
theorem Pattern.mentions_outline (pattern : Pattern) :
    (mentions pattern.outline).map Naming.declared? = pattern.vars.map (·.binding) := by
  cases pattern with
  | bind => rfl
  | wildcard | literal => rfl
  | destructure location fields => exact Pattern.mentions_fields fields
termination_by structural pattern

theorem Pattern.mentions_fields (fields : List (String × Pattern)) :
    (mentions (Pattern.fieldOutlines fields)).map Naming.declared? =
      (Pattern.fieldVariables fields).map (·.binding) := by
  cases fields with
  | nil => rfl
  | cons field rest =>
    obtain ⟨name, pattern⟩ := field
    rw [Pattern.fieldOutlines, mentions_append, List.map_append, pattern.mentions_outline,
      Pattern.mentions_fields rest, Pattern.fieldVariables, List.map_append]
termination_by structural fields

end

mutual

theorem Pattern.declares_outline (pattern : Pattern) (hmem : naming ∈ mentions pattern.outline) :
    ∃ name resolution, naming = .declares name resolution := by
  cases pattern with
  | bind location name binding => exact ⟨_, _, List.mem_singleton.mp hmem⟩
  | wildcard | literal => cases hmem
  | destructure location fields => exact Pattern.declares_fields fields hmem
termination_by structural pattern

theorem Pattern.declares_fields (fields : List (String × Pattern))
    (hmem : naming ∈ mentions (Pattern.fieldOutlines fields)) :
    ∃ name resolution, naming = .declares name resolution := by
  cases fields with
  | nil => cases hmem
  | cons field rest =>
    obtain ⟨name, pattern⟩ := field
    rw [Pattern.fieldOutlines, mentions_append] at hmem
    exact (List.mem_append.mp hmem).elim pattern.declares_outline (Pattern.declares_fields rest)
termination_by structural fields

end

/-- The variables of the parameters of a clause from left to right. -/
def Clause.vars (clause : Clause) : List Pattern.Variable :=
  clause.parameters.flatMap Pattern.vars

theorem mentions_parameters (parameters : List Pattern) :
    (mentions (parameters.flatMap Pattern.outline)).map Naming.declared? =
      (parameters.flatMap Pattern.vars).map (·.binding) := by
  induction parameters with
  | nil => rfl
  | cons pattern rest ih =>
    rw [List.flatMap_cons, mentions_append, List.map_append, pattern.mentions_outline, ih, List.flatMap_cons,
      List.map_append]

theorem declares_parameters (parameters : List Pattern)
    (hmem : naming ∈ mentions (parameters.flatMap Pattern.outline)) :
    ∃ name resolution, naming = .declares name resolution := by
  induction parameters with
  | nil => cases hmem
  | cons pattern rest ih =>
    rw [List.flatMap_cons, mentions_append] at hmem
    exact (List.mem_append.mp hmem).elim pattern.declares_outline ih

theorem mentions_clause {clauses : List Clause} {clause : Clause} (hmem : clause ∈ clauses) :
    (mentions (clause.parameters.flatMap Pattern.outline)).Sublist (mentions (Clause.outlines clauses)) := by
  induction clauses with
  | nil => cases hmem
  | cons first rest ih =>
    obtain ⟨place, parameters, body⟩ := first
    change List.Sublist _ (mentions (parameters.flatMap Pattern.outline ++ Stmt.outlines body) ++
      mentions (Clause.outlines rest))
    rcases List.mem_cons.mp hmem with rfl | hmem
    · rw [mentions_append]
      exact (List.sublist_append_left ..).trans (List.sublist_append_left ..)
    · exact (ih hmem).trans (List.sublist_append_right ..)

/-- In a program with resolved names the variables of a clause have numbers of their own. -/
theorem Program.LexicallyResolved.vars_distinct {program : Program} (hresolved : program.LexicallyResolved)
    {location : Location} {function : Function} (hfunction : (location, function) ∈ program.functions)
    {clause : Clause} (hclause : clause ∈ function.clauses) :
    ∃ ids : List BindingId, clause.vars.map (·.binding) = ids.map some ∧ ids.Nodup := by
  have hsub : (mentions (clause.parameters.flatMap Pattern.outline)).Sublist (mentions program.outline) := by
    obtain ⟨name, isProc, clauses⟩ := function
    exact (mentions_clause hclause).trans (program.outlined hfunction)
  have hsome : ∀ binding ∈ clause.vars.map (·.binding), binding.isSome = true := by
    intro binding hbinding
    rw [Clause.vars, ← mentions_parameters] at hbinding
    obtain ⟨naming, hnaming, rfl⟩ := List.mem_map.mp hbinding
    obtain ⟨name, resolution, rfl⟩ := declares_parameters _ hnaming
    obtain ⟨scopes, hresolves⟩ := Throughout.mention _ hresolved.resolves (hsub.subset hnaming)
    exact hresolves.1
  refine ⟨declaredIds (clause.parameters.flatMap Pattern.outline), ?_, hresolved.distinct.sublist (hsub.filterMap _)⟩
  calc clause.vars.map (·.binding)
    _ = (clause.vars.map (·.binding)).filterMap some := List.filterMap_some.symm
    _ = (clause.vars.map (·.binding)).filterMap (·.map some) := List.filterMap_congr fun binding hbinding => by
        obtain ⟨id, rfl⟩ := Option.isSome_iff_exists.mp (hsome binding hbinding)
        rfl
    _ = _ := by
        rw [declaredIds, Clause.vars, ← mentions_parameters, List.filterMap_map, List.map_filterMap]
        rfl

end Parameters

end OwnScript
