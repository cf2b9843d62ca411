import OwnScript.Analysis.Check
import OwnScript.Proofs.Program.Source

/-!
Analysis resolves names and changes nothing else about a program: the program stays as it was written. In particular
every part keeps its shape.
-/

namespace OwnScript

namespace Check

variable {α β : Type}

/-- Whatever the state of the analysis, the result of a step has a property. -/
def Gives (step : Check α) (post : α → Prop) : Prop :=
  ∀ a, post (step a).1

theorem gives_pure {value : α} {post : α → Prop} (hvalue : post value) : Gives (pure value) post :=
  fun _ => hvalue

theorem Gives.bind {step : Check α} {next : α → Check β} {middle : α → Prop} {post : β → Prop}
    (hstep : Gives step middle) (hnext : ∀ value, middle value → Gives (next value) post) :
    Gives (step >>= next) post :=
  fun a => hnext _ (hstep a) _

/-- A step whose result does not matter. -/
theorem Gives.after {step : Check α} {next : α → Check β} {post : β → Prop} (hnext : ∀ value, Gives (next value) post) :
    Gives (step >>= next) post :=
  fun _ => hnext _ _

end Check

open Check

section Lists

variable {γ δ : Type} {sourceOf : List γ → δ} {done todo result rest : List γ}

/-- A list that goes on from a part that is done, in reverse, with parts that have the same source as those that were
still to do. -/
def Continues (sourceOf : List γ → δ) (done todo result : List γ) : Prop :=
  ∃ parts, result = done.reverse ++ parts ∧ sourceOf parts = sourceOf todo

theorem continues_done (sourceOf : List γ → δ) (done : List γ) : Continues sourceOf done [] done.reverse :=
  ⟨[], (List.append_nil _).symm, rfl⟩

/-- One part more is done. -/
theorem Continues.step {part head : γ} (hrest : Continues sourceOf (part :: done) rest result)
    (hstep : ∀ parts, sourceOf parts = sourceOf rest → sourceOf (part :: parts) = sourceOf (head :: rest)) :
    Continues sourceOf done (head :: rest) result := by
  obtain ⟨parts, rfl, hsource⟩ := hrest
  exact ⟨part :: parts, by simp, hstep parts hsource⟩

theorem Continues.same (hresult : Continues sourceOf [] todo result) : sourceOf result = sourceOf todo := by
  obtain ⟨parts, rfl, hsource⟩ := hresult
  exact hsource

end Lists

namespace Check

/-- The place of a borrow, or the whole target if it is no place. -/
theorem gives_borrowPlace {location : Location} {exclusive : Bool} {extent : Extent}
    {place : Check (Expr × PlaceRoot)} {whole : Check Expr} {post : Expr → Prop}
    (hplace : Gives place fun found => post found.1) (hwhole : Gives whole post) :
    Gives (borrowPlace location exclusive extent place whole) fun found => post found.1 := by
  refine hplace.bind fun found hfound => ?_
  obtain ⟨part, root⟩ := found
  cases root with
  | expression => exact hwhole.bind fun part hpart => gives_pure hpart
  | unresolved => exact gives_pure hfound
  | resolved identifier id => exact Gives.after fun _ => Gives.after fun _ => gives_pure hfound

theorem gives_loopPass {α : Type} {body : Check (α × Option FlowState)} {post : α → Prop}
    (hbody : Gives body fun found => post found.1) (entry : FlowState) :
    Gives (loopPass body entry) fun found => post found.1 := by
  refine Gives.after fun _ => Gives.after fun _ => hbody.bind fun found hfound => ?_
  exact Gives.after fun _ => Gives.after fun _ => Gives.after fun _ => gives_pure hfound

theorem gives_analyzeLoop {α : Type} {body : Check (α × Option FlowState)} (post : α → Prop)
    (hbody : Gives body fun found => post found.1) : Gives (analyzeLoop body) post := by
  refine Gives.after fun _ => Gives.after fun _ => Gives.after fun _ => Gives.after fun entry => Gives.after fun _ => ?_
  refine (gives_loopPass hbody entry).bind fun found hfound => ?_
  exact Gives.after fun _ => gives_pure hfound

theorem gives_functionBody {α : Type} {body : FlowState → Check α} {post : α → Prop}
    (hbody : ∀ flow, Gives (body flow) post) : Gives (functionBody body) post := by
  refine Gives.after fun flow => Gives.after fun _ => Gives.after fun _ => (hbody flow).bind fun part hpart => ?_
  exact Gives.after fun _ => gives_pure hpart

theorem gives_declaredBody {α : Type} {id : BindingId} {body : Check α} {post : α → Prop}
    (hbody : Gives body post) : Gives (declaredBody id body) post := by
  refine Gives.after fun a => ?_
  split
  · exact Gives.after fun _ => hbody.bind fun part hpart => Gives.after fun _ => gives_pure hpart
  · exact hbody

/-- A name stays as it was written, wherever it leads. -/
theorem source_resolve (identifier : Identifier) :
    Gives (resolve identifier) fun found => found.1.source = identifier.source := by
  refine Gives.after fun target => ?_
  cases target with
  | none => exact Gives.after fun _ => gives_pure rfl
  | some id => exact Gives.after fun _ => Gives.after fun _ => gives_pure rfl

mutual

theorem source_pattern (pattern : Pattern) :
    Gives (declarePattern pattern) fun declared => declared.source = pattern.source := by
  cases pattern with
  | bind location name binding => exact Gives.after fun _ => gives_pure rfl
  | destructure location fields =>
    refine (source_fieldPatterns fields []).bind fun parts hparts => gives_pure ?_
    rw [Pattern.source, Pattern.source, hparts.same]
  | wildcard location => exact gives_pure rfl
  | literal location value => exact gives_pure rfl
termination_by structural pattern

theorem source_fieldPatterns (fields done : List (String × Pattern)) :
    Gives (declareFields fields done) (Continues Pattern.fieldSources done fields) := by
  cases fields with
  | nil => exact gives_pure (continues_done ..)
  | cons field rest =>
    obtain ⟨name, pattern⟩ := field
    refine (source_pattern pattern).bind fun part hpart a =>
      (source_fieldPatterns rest ((name, part) :: done) a).step fun parts hparts => ?_
    rw [Pattern.fieldSources, Pattern.fieldSources, hpart, hparts]
termination_by structural fields

end

theorem source_parameters (parameters done : List Pattern) :
    Gives (declareParameters parameters done) (Continues (List.map Pattern.source) done parameters) := by
  induction parameters generalizing done with
  | nil => exact gives_pure (continues_done ..)
  | cons pattern rest ih =>
    refine (source_pattern pattern).bind fun part hpart a => (ih (part :: done) a).step fun parts hparts => ?_
    rw [List.map_cons, List.map_cons, hpart, hparts]

mutual

theorem source_expr (expr : Expr) : Gives (checkExpr expr) fun part => part.source = expr.source := by
  cases expr with
  | absent => exact gives_pure rfl
  | literal location value => exact gives_pure rfl
  | name identifier =>
    refine (source_resolve identifier).bind fun found hfound => ?_
    obtain ⟨resolved, target⟩ := found
    cases target with
    | none => exact gives_pure (congrArg Expr.name hfound)
    | some id => exact Gives.after fun _ => gives_pure (congrArg Expr.name hfound)
  | unary location op operand =>
    refine (source_expr operand).bind fun part hpart => gives_pure ?_
    rw [Expr.source, Expr.source, hpart]
  | binary location op left right =>
    refine (source_expr left).bind fun first hfirst => ?_
    have hboth (second : Expr) (hsecond : second.source = right.source) :
        (Expr.binary location op first second).source = (Expr.binary location op left right).source := by
      rw [Expr.source, Expr.source, hfirst, hsecond]
    split
    · refine Gives.after fun _ => (source_expr right).bind fun second hsecond => ?_
      exact Gives.after fun _ => Gives.after fun _ => gives_pure (hboth second hsecond)
    · exact (source_expr right).bind fun second hsecond => gives_pure (hboth second hsecond)
  | call location callee arguments =>
    refine (source_expr callee).bind fun first hfirst => Gives.after fun extent => ?_
    refine (source_arguments extent arguments []).bind fun others hothers => Gives.after fun _ => gives_pure ?_
    rw [Expr.source, Expr.source, hfirst, hothers.same]
  | field location object name =>
    refine (source_expr object).bind fun part hpart => gives_pure ?_
    rw [Expr.source, Expr.source, hpart]
  | index location object index =>
    refine (source_expr object).bind fun first hfirst => (source_expr index).bind fun second hsecond => gives_pure ?_
    rw [Expr.source, Expr.source, hfirst, hsecond]
  | record location fields =>
    refine (source_fields fields []).bind fun parts hparts => gives_pure ?_
    rw [Expr.source, Expr.source, hparts.same]
  | array location items =>
    refine (source_items items []).bind fun parts hparts => gives_pure ?_
    rw [Expr.source, Expr.source, hparts.same]
  | lambda location function =>
    refine (source_function function).bind fun part hpart => gives_pure ?_
    rw [Expr.source, Expr.source, hpart]
  | borrow location target exclusive =>
    refine Gives.after fun extent => ?_
    refine (gives_borrowPlace (source_place target) (source_expr target)).bind fun found hfound => ?_
    refine Gives.after fun _ => gives_pure ?_
    rw [Expr.source, Expr.source, hfound]
  | move location target =>
    cases target with
    | none => exact gives_pure rfl
    | some identifier =>
      refine (source_resolve identifier).bind fun found hfound => ?_
      obtain ⟨resolved, target⟩ := found
      have hmove : (Expr.move location (some resolved)).source = (Expr.move location (some identifier)).source :=
        congrArg (fun target => Expr.move location (some target)) hfound
      cases target with
      | none => exact gives_pure hmove
      | some id => exact Gives.after fun _ => gives_pure hmove
  | deref location operand =>
    refine (source_expr operand).bind fun part hpart => gives_pure ?_
    rw [Expr.source, Expr.source, hpart]
termination_by structural expr

theorem source_place (expr : Expr) : Gives (checkPlace expr) fun found => found.1.source = expr.source := by
  cases expr with
  | name identifier =>
    refine (source_resolve identifier).bind fun found hfound => ?_
    obtain ⟨resolved, target⟩ := found
    cases target with
    | none => exact gives_pure (congrArg Expr.name hfound)
    | some id => exact gives_pure (congrArg Expr.name hfound)
  | field location object name =>
    refine (source_place object).bind fun part hpart => gives_pure ?_
    rw [Expr.source, Expr.source, hpart]
  | index location object index =>
    refine (source_expr index).bind fun second hsecond => (source_place object).bind fun first hfirst => gives_pure ?_
    rw [Expr.source, Expr.source, hfirst, hsecond]
  | _ => exact gives_pure rfl
termination_by structural expr

theorem source_arguments (extent : Extent) (arguments done : List Expr) :
    Gives (checkArguments extent arguments done) (Continues Expr.sources done arguments) := by
  cases arguments with
  | nil => exact gives_pure (continues_done ..)
  | cons argument rest =>
    have hnext (part : Expr) (hpart : part.source = argument.source) :
        Gives (checkArguments extent rest (part :: done)) (Continues Expr.sources done (argument :: rest)) := by
      refine fun a => (source_arguments extent rest (part :: done) a).step fun parts hparts => ?_
      rw [Expr.sources, Expr.sources, hpart, hparts]
    cases argument with
    | borrow location target exclusive =>
      refine (gives_borrowPlace (source_place target) (source_expr target)).bind fun found hfound => hnext _ ?_
      rw [Expr.source, Expr.source, hfound]
    | _ => exact (source_expr _).bind hnext
termination_by structural arguments

theorem source_items (items done : List Expr) : Gives (checkItems items done) (Continues Expr.sources done items) := by
  cases items with
  | nil => exact gives_pure (continues_done ..)
  | cons item rest =>
    refine (source_expr item).bind fun part hpart a => (source_items rest (part :: done) a).step fun parts hparts => ?_
    rw [Expr.sources, Expr.sources, hpart, hparts]
termination_by structural items

theorem source_fields (fields done : List (String × Expr)) :
    Gives (checkFields fields done) (Continues Expr.fieldSources done fields) := by
  cases fields with
  | nil => exact gives_pure (continues_done ..)
  | cons field rest =>
    obtain ⟨name, value⟩ := field
    refine (source_expr value).bind fun part hpart a =>
      (source_fields rest ((name, part) :: done) a).step fun parts hparts => ?_
    rw [Expr.fieldSources, Expr.fieldSources, hpart, hparts]
termination_by structural fields

theorem source_stmt (stmt : Stmt) : Gives (checkStmt stmt) fun part => part.source = stmt.source := by
  cases stmt with
  | absent => exact gives_pure rfl
  | declare location name initial resolution =>
    have hsource {part : Expr} (hpart : part.source = initial.source) (found : Resolution) :
        (Stmt.declare location name part found).source = (Stmt.declare location name initial resolution).source := by
      rw [Stmt.source, Stmt.source, hpart]
    have hplain : Gives (do
        let initial ← checkExpr initial
        let id ← declareName name location (if initial.isAbsent then .uninitialized else .initialized)
        return Stmt.declare location name initial { binding := some id, isGlobal := ← isGlobal id })
        fun part : Stmt => part.source = (Stmt.declare location name initial resolution).source :=
      (source_expr initial).bind fun part hpart => Gives.after fun id => Gives.after fun _ =>
        gives_pure (hsource hpart _)
    cases initial with
    | borrow place target exclusive =>
      refine Gives.after fun a => ?_
      refine (gives_borrowPlace (source_place target) (source_expr target)).bind fun found hfound => ?_
      obtain ⟨part, borrow⟩ := found
      have hborrow : (Expr.borrow place part exclusive).source = (Expr.borrow place target exclusive).source :=
        congrArg (Expr.borrow place · exclusive) hfound
      refine Gives.after fun id => ?_
      cases borrow with
      | none => exact Gives.after fun _ => gives_pure (hsource hborrow _)
      | some borrow => exact Gives.after fun _ => Gives.after fun _ => gives_pure (hsource hborrow _)
    | _ => exact hplain
  | assign location name value resolution =>
    have hsource {part : Expr} (hpart : part.source = value.source) (found : Resolution) :
        (Stmt.assign location name part found).source = (Stmt.assign location name value resolution).source := by
      rw [Stmt.source, Stmt.source, hpart]
    rw [checkStmt]
    refine Gives.after fun target => ?_
    cases target with
    | none => exact (source_expr value).bind fun part hpart => Gives.after fun _ => gives_pure (hsource hpart _)
    | some id =>
      refine Gives.after fun isGlobal => ?_
      have hplain : Gives (do
          let value ← checkExpr value
          releaseHeldBy id
          assignBinding id name location
          return Stmt.assign location name value { binding := some id, isGlobal })
          fun part : Stmt => part.source = (Stmt.assign location name value resolution).source :=
        (source_expr value).bind fun part hpart => Gives.after fun _ => Gives.after fun _ =>
          gives_pure (hsource hpart _)
      cases value with
      | borrow place target exclusive =>
        refine Gives.after fun _ => Gives.after fun a => ?_
        refine (gives_borrowPlace (source_place target) (source_expr target)).bind fun found hfound => ?_
        obtain ⟨part, borrow⟩ := found
        have hborrow : (Expr.borrow place part exclusive).source = (Expr.borrow place target exclusive).source :=
          congrArg (Expr.borrow place · exclusive) hfound
        refine Gives.after fun _ => ?_
        cases borrow with
        | none => exact gives_pure (hsource hborrow _)
        | some borrow => exact Gives.after fun _ => gives_pure (hsource hborrow _)
      | _ => exact hplain
  | assignField location object field value =>
    refine (source_expr object).bind fun first hfirst => (source_expr value).bind fun second hsecond => gives_pure ?_
    rw [Stmt.source, Stmt.source, hfirst, hsecond]
  | assignIndex location object index value =>
    refine (source_expr object).bind fun first hfirst => (source_expr index).bind fun second hsecond => ?_
    refine (source_expr value).bind fun third hthird => gives_pure ?_
    rw [Stmt.source, Stmt.source, hfirst, hsecond, hthird]
  | evaluate location expression =>
    refine (source_expr expression).bind fun part hpart => gives_pure ?_
    rw [Stmt.source, Stmt.source, hpart]
  | print location expression =>
    refine (source_expr expression).bind fun part hpart => gives_pure ?_
    rw [Stmt.source, Stmt.source, hpart]
  | block location body =>
    refine Gives.after fun _ => (source_stmts body []).bind fun parts hparts => Gives.after fun _ => ?_
    refine gives_pure ?_
    rw [Stmt.source, Stmt.source, hparts.same]
  | ifElse location condition yes no =>
    refine (source_expr condition).bind fun test htest => Gives.after fun _ => ?_
    refine (source_stmt yes).bind fun first hfirst => Gives.after fun _ => Gives.after fun _ => ?_
    refine (source_stmt no).bind fun second hsecond => Gives.after fun _ => Gives.after fun _ => gives_pure ?_
    rw [Stmt.source, Stmt.source, htest, hfirst, hsecond]
  | cond location scrutinee arms =>
    refine (source_expr scrutinee).bind fun part hpart => Gives.after fun a => Gives.after fun flow => ?_
    refine (source_arms a.symbols.size arms flow .unreachable []).bind fun found hfound => ?_
    obtain ⟨parts, after⟩ := found
    refine Gives.after fun _ => gives_pure ?_
    rw [Stmt.source, Stmt.source, hpart, hfound.same]
  | whileLoop location condition body =>
    have hbody : Gives (do
        let condition ← checkExpr condition
        let testExit ← getFlow
        let body ← checkStmt body
        return ((condition, body), some testExit))
        fun found => found.1.1.source = condition.source ∧ found.1.2.source = body.source := by
      refine (source_expr condition).bind fun test htest => Gives.after fun _ => ?_
      exact (source_stmt body).bind fun part hpart => gives_pure ⟨htest, hpart⟩
    refine (gives_analyzeLoop (fun parts => parts.1.source = condition.source ∧ parts.2.source = body.source)
      hbody).bind fun parts hparts => gives_pure ?_
    rw [Stmt.source, Stmt.source, hparts.1, hparts.2]
  | forLoop location counter binding first bound body =>
    refine (source_expr first).bind fun low hlow => (source_expr bound).bind fun high hhigh => ?_
    have hbody : Gives (do
        let testExit ← getFlow
        enterScope
        let id ← declareName counter location .initialized
        let body ← checkStmt body
        exitScope
        return ((id, body), some testExit))
        fun found => found.1.2.source = body.source := by
      refine Gives.after fun _ => Gives.after fun _ => Gives.after fun id => ?_
      exact (source_stmt body).bind fun part hpart => Gives.after fun _ => gives_pure hpart
    refine (gives_analyzeLoop (fun parts => parts.2.source = body.source) hbody).bind fun found hfound => gives_pure ?_
    rw [Stmt.source, Stmt.source, hlow, hhigh, hfound]
  | forever location body =>
    have hbody : Gives (do
        let body ← checkStmt body
        return (body, (none : Option FlowState))) fun found => found.1.source = body.source :=
      (source_stmt body).bind fun part hpart => gives_pure hpart
    refine (gives_analyzeLoop (fun part => part.source = body.source) hbody).bind fun part hpart => ?_
    refine gives_pure ?_
    rw [Stmt.source, Stmt.source, hpart]
  | leave location => exact Gives.after fun _ => gives_pure rfl
  | skip location => exact Gives.after fun _ => gives_pure rfl
  | giveBack location value =>
    refine (source_expr value).bind fun part hpart => Gives.after fun _ => gives_pure ?_
    rw [Stmt.source, Stmt.source, hpart]
  | disown location name resolution =>
    refine Gives.after fun target => ?_
    cases target with
    | none => exact Gives.after fun _ => gives_pure rfl
    | some id => exact Gives.after fun _ => Gives.after fun _ => gives_pure rfl
  | function location declaration resolution =>
    obtain ⟨name, isProc, clauses⟩ := declaration
    have hbody (id : BindingId) (isGlobal : Bool) : Gives (do
        let clauses ← declaredBody id (functionBody fun flow => checkClauses flow clauses [])
        return Stmt.function location ⟨name, isProc, clauses⟩ { binding := some id, isGlobal })
        fun part : Stmt => part.source = (Stmt.function location ⟨name, isProc, clauses⟩ resolution).source := by
      refine (gives_declaredBody (gives_functionBody fun flow => source_clauses flow clauses [])).bind
        fun parts hparts => gives_pure ?_
      rw [Stmt.source, Stmt.source, Function.source, Function.source, hparts.same]
    obtain ⟨binding, flag⟩ := resolution
    cases binding with
    | none => exact Gives.after fun id => Gives.after fun isGlobal => hbody id isGlobal
    | some old =>
      cases flag with
      | true => exact hbody old true
      | false => exact Gives.after fun id => Gives.after fun isGlobal => hbody id isGlobal
termination_by structural stmt

theorem source_stmts (stmts done : List Stmt) : Gives (checkStmts stmts done) (Continues Stmt.sources done stmts) := by
  cases stmts with
  | nil => exact gives_pure (continues_done ..)
  | cons stmt rest =>
    refine (source_stmt stmt).bind fun part hpart a => (source_stmts rest (part :: done) a).step fun parts hparts => ?_
    rw [Stmt.sources, Stmt.sources, hpart, hparts]
termination_by structural stmts

theorem source_arms (outer : Nat) (arms : List Arm) (test after : FlowState) (done : List Arm) :
    Gives (checkArms outer arms test after done) fun found => Continues Arm.sources done arms found.1 := by
  cases arms with
  | nil => exact gives_pure (continues_done ..)
  | cons arm rest =>
    obtain ⟨location, pattern, guard, body⟩ := arm
    refine Gives.after fun _ => Gives.after fun _ => ?_
    have hnext (declared : Option Pattern) (hdeclared : declared.map Pattern.source = pattern.map Pattern.source) :
        Gives (do
          let guard ← checkExpr guard
          let test := (← getFlow).truncate outer
          let body ← checkStmts body []
          exitScope
          let armEnd := (← getFlow).truncate outer
          checkArms outer rest test (after.meet armEnd) (⟨location, declared, guard, body⟩ :: done))
          fun found => Continues Arm.sources done (⟨location, pattern, guard, body⟩ :: rest) found.1 := by
      refine (source_expr guard).bind fun part hpart => Gives.after fun flow => ?_
      refine (source_stmts body []).bind fun parts hparts => Gives.after fun _ => Gives.after fun last a => ?_
      refine (source_arms outer rest _ _ (⟨location, declared, part, parts⟩ :: done) a).step fun others hothers => ?_
      rw [Arm.sources, Arm.sources, hdeclared, hpart, hparts.same, hothers]
    cases pattern with
    | none => exact hnext none rfl
    | some pattern =>
      have hdeclared : Gives (some <$> declarePattern pattern) fun declared =>
          declared.map Pattern.source = some pattern.source := fun a => congrArg some (source_pattern pattern a)
      exact hdeclared.bind hnext
termination_by structural arms

theorem source_function (function : Function) :
    Gives (checkFunction function) fun part => part.source = function.source := by
  obtain ⟨name, isProc, clauses⟩ := function
  refine (gives_functionBody fun flow => source_clauses flow clauses []).bind fun parts hparts => gives_pure ?_
  rw [Function.source, Function.source, hparts.same]
termination_by structural function

theorem source_clauses (flow : FlowState) (clauses done : List Clause) :
    Gives (checkClauses flow clauses done) (Continues Clause.sources done clauses) := by
  cases clauses with
  | nil => exact gives_pure (continues_done ..)
  | cons clause rest =>
    obtain ⟨location, parameters, body⟩ := clause
    refine Gives.after fun _ => Gives.after fun _ => (source_parameters parameters []).bind fun declared hdeclared => ?_
    refine (source_stmts body []).bind fun parts hparts => Gives.after fun _ a => ?_
    refine (source_clauses flow rest (⟨location, declared, parts⟩ :: done) a).step fun others hothers => ?_
    rw [Clause.sources, Clause.sources, hdeclared.same, hparts.same, hothers]
termination_by structural clauses

end

theorem source_hoistFunctions (stmts hoisted : List Stmt) :
    Gives (hoistFunctions hoisted stmts) (Continues Stmt.sources hoisted stmts) := by
  induction stmts generalizing hoisted with
  | nil => exact gives_pure (continues_done ..)
  | cons stmt rest ih =>
    cases stmt with
    | function location declaration resolution =>
      refine Gives.after fun id => Gives.after fun _ a => (ih _ a).step fun parts hparts => ?_
      rw [Stmt.sources, Stmt.sources, hparts, Stmt.source, Stmt.source]
    | _ =>
      refine fun a => (ih _ a).step fun parts hparts => ?_
      rw [Stmt.sources, Stmt.sources, hparts]

end Check

namespace Program

variable (program : Program)

/-- A program stays as it was written. -/
theorem sources_analyze : Stmt.sources program.analyze.program.statements = Stmt.sources program.statements := by
  have hwalk : Gives (do
      let statements ← hoistFunctions [] program.statements
      let statements ← checkStmts statements []
      exitScope
      checkPendingReferences
      return statements) fun statements => Stmt.sources statements = Stmt.sources program.statements := by
    refine (source_hoistFunctions program.statements []).bind fun hoisted hhoisted => ?_
    refine (source_stmts hoisted []).bind fun parts hparts => Gives.after fun _ => Gives.after fun _ => gives_pure ?_
    rw [hparts.same, hhoisted.same]
  exact hwalk {}

/-- The shape of a program is the same after analysis. -/
theorem wellShaped_analyze : program.analyze.program.wellShaped = program.wellShaped := by
  rw [wellShaped, wellShaped, ← Stmt.wellShaped_sources, sources_analyze, Stmt.wellShaped_sources]

theorem isContained_analyze : program.analyze.program.isContained = program.isContained := by
  rw [isContained, isContained, ← Stmt.contained_sources, sources_analyze, Stmt.contained_sources]

end Program

end OwnScript
