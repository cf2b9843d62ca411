import OwnScript.Analysis.Basic

/-!
The walk of an analysis through a program, in the order in which the program runs. Branches are
looked at one after the other from the same path and then joined. The body of a loop is looked
at until the path at its start no longer changes, silently, and once more to report. A function
body is looked at where it is declared and leaves the path around it as it was.

The result of looking at a part is the part with its names resolved.
-/

namespace OwnScript.Check

/-- What the place of a borrow is reached from. -/
inductive PlaceRoot where
  /-- Not from a variable: the target is an expression like any other. -/
  | expression
  /-- From a name that leads nowhere. -/
  | unresolved
  /-- From a variable. -/
  | resolved (identifier : Identifier) (id : BindingId)

/-- A borrow of a place. A field or an element borrows the variable that it is reached from; an
expression that is no place borrows nothing. The result is the target and, if a borrow began, its
place among the live ones. -/
def borrowPlace (location : Location) (exclusive : Bool) (extent : Extent)
    (place : Check (Expr × PlaceRoot)) (whole : Check Expr) : Check (Expr × Option Nat) := do
  let (target, root) ← place
  match root with
  | .expression => return (← whole, none)
  | .unresolved => return (target, none)
  | .resolved identifier id =>
    useBinding id identifier.name identifier.location
    return (target, some (← beginBorrow id identifier.name exclusive extent location))

/-- Declares the variables of patterns, from left to right. -/
def declareVariable (location : Location) (name : String) : Check Pattern :=
  return .bind location name (some (← declareName name location .initialized))

mutual

/-- Declares the variables of a pattern. -/
def declarePattern : Pattern → Check Pattern
  | .bind location name _ => declareVariable location name
  | .destructure location fields =>
    return .destructure location (← declareFields fields [])
  | pattern => return pattern

/-- Declares the variables of the patterns of fields, after those already done. -/
def declareFields : List (String × Pattern) → List (String × Pattern) →
    Check (List (String × Pattern))
  | [], done => return done.reverse
  | (name, pattern) :: rest, done => do
    let pattern ← declarePattern pattern
    declareFields rest ((name, pattern) :: done)

end

/-- Declares the variables of parameters, after those already done. -/
def declareParameters : List Pattern → List Pattern → Check (List Pattern)
  | [], done => return done.reverse
  | pattern :: rest, done => do
    let pattern ← declarePattern pattern
    declareParameters rest (pattern :: done)

/-- One look at the body of a loop from a path, in a scope of its own. -/
def loopPass {α : Type} (body : Check (α × Option FlowState)) (entry : FlowState) :
    Check (α × Option FlowState × LoopPaths) := do
  modify fun a => { a with flow := entry, loops := {} :: a.loops }
  enterScope
  let (part, testExit) ← body
  exitScope
  let paths := (← get).loops.headD {}
  modify fun a => { a with loops := a.loops.tail }
  return (part, testExit, paths)

/-- The path at the start of a loop, found by repetition: it joins the path before the loop with
the paths that come back to the start. -/
def loopEntry {α : Type} (body : Check (α × Option FlowState)) (outer : Nat) (before : FlowState) :
    Nat → FlowState → Check FlowState
  | 0, entry => return entry
  | passes + 1, entry => do
    let (_, _, paths) ← loopPass body entry
    let back := paths.skipping.foldl FlowState.meet (← getFlow)
    let next := (before.meet back).truncate outer
    if next = entry then return entry else loopEntry body outer before passes next

/-- A loop. The body says by which path the test of the loop is left, if it has one. Knowledge
only gets weaker from pass to pass, so the passes allowed are enough. -/
def analyzeLoop {α : Type} (body : Check (α × Option FlowState)) : Check α := do
  let before ← getFlow
  let outer := (← get).symbols.size
  modify fun a => { a with silence := a.silence + 1 }
  let entry ← loopEntry body outer before (outer * 2 + 3) before
  modify fun a => { a with silence := a.silence - 1 }
  let (part, testExit, paths) ← loopPass body entry
  let exit := paths.leaving.foldl FlowState.meet (testExit.getD .unreachable)
  setFlow (exit.truncate outer)
  return part

/-- Remembers the current path as one that leaves the innermost loop. -/
def leaveLoop : Check Unit := do
  modify fun a =>
    match a.loops with
    | [] => a
    | loop :: rest => { a with loops := { loop with leaving := loop.leaving.push a.flow } :: rest }
  endPath

/-- Remembers the current path as one that goes on with the next turn of the innermost loop. -/
def skipLoop : Check Unit := do
  modify fun a =>
    match a.loops with
    | [] => a
    | loop :: rest => { a with loops := { loop with skipping := loop.skipping.push a.flow } :: rest }
  endPath

/-- Looks at the body of a function: nothing in it changes the path or the loops around it. -/
def functionBody {α : Type} (body : FlowState → Check α) : Check α := do
  let flow ← getFlow
  let loops := (← get).loops
  modify fun a => { a with loops := [], functionDepth := a.functionDepth + 1 }
  let part ← body flow
  modify fun a => { a with flow, loops, functionDepth := a.functionDepth - 1 }
  return part

/-- Looks at the body of a declared function. What a global function refers to is collected in
its summary. -/
def declaredBody {α : Type} (id : BindingId) (body : Check α) : Check α := do
  let a ← get
  if (a.symbols[id]?.map (·.hoisted)).getD false then
    let enclosing := a.currentFunction
    modify fun a =>
      { a with currentFunction := some id, summaries := a.summaries.insert id (a.summaries.of id) }
    let part ← body
    modify fun a => { a with currentFunction := enclosing }
    return part
  else body

mutual

/-- Looks at an expression. -/
def checkExpr : Expr → Check Expr
  | .absent => return .absent
  | .literal location value => return .literal location value
  | .name identifier => do
    let (identifier, target) ← resolve identifier
    if let some id := target then useBinding id identifier.name identifier.location
    return .name identifier
  | .unary location op operand => return .unary location op (← checkExpr operand)
  | .binary location op left right => do
    let left ← checkExpr left
    if op.isLogical then
      -- The right operand may not run.
      let afterLeft ← getFlow
      let right ← checkExpr right
      setFlow (afterLeft.meet (← getFlow))
      return .binary location op left right
    else
      return .binary location op left (← checkExpr right)
  | .call location callee arguments => do
    let callee ← checkExpr callee
    -- Borrows passed as arguments stay live until the call is made.
    let extent ← newExtent
    let arguments ← checkArguments extent arguments []
    releaseExtent extent
    return .call location callee arguments
  | .field location object name => return .field location (← checkExpr object) name
  | .index location object index => do
    let object ← checkExpr object
    return .index location object (← checkExpr index)
  | .record location fields => return .record location (← checkFields fields [])
  | .array location items => return .array location (← checkItems items [])
  | .lambda location function => return .lambda location (← checkFunction function)
  | .borrow location target exclusive => do
    -- A borrow that is neither stored nor passed ends with the expression.
    let extent ← newExtent
    let (target, _) ← borrowPlace location exclusive extent (checkPlace target) (checkExpr target)
    releaseExtent extent
    return .borrow location target exclusive
  | .move location none => return .move location none
  | .move location (some identifier) => do
    let (identifier, target) ← resolve identifier
    if let some id := target then moveBinding id identifier.name location
    return .move location (some identifier)
  | .deref location operand => return .deref location (← checkExpr operand)
termination_by structural expr => expr

/-- Walks a place from the outside in to what it is reached from. -/
def checkPlace : Expr → Check (Expr × PlaceRoot)
  | .name identifier => do
    let (identifier, target) ← resolve identifier
    match target with
    | none => return (.name identifier, .unresolved)
    | some id => return (.name identifier, .resolved identifier id)
  | .field location object name => do
    let (object, root) ← checkPlace object
    return (.field location object name, root)
  | .index location object index => do
    let index ← checkExpr index
    let (object, root) ← checkPlace object
    return (.index location object index, root)
  | expr => return (expr, .expression)
termination_by structural expr => expr

/-- Looks at the arguments of a call, after those already done. -/
def checkArguments (extent : Extent) : List Expr → List Expr → Check (List Expr)
  | [], done => return done.reverse
  | .borrow location target exclusive :: rest, done => do
    let (target, _) ← borrowPlace location exclusive extent (checkPlace target) (checkExpr target)
    checkArguments extent rest (.borrow location target exclusive :: done)
  | argument :: rest, done => do
    let argument ← checkExpr argument
    checkArguments extent rest (argument :: done)
termination_by structural arguments _ => arguments

/-- Looks at the items of an array, after those already done. -/
def checkItems : List Expr → List Expr → Check (List Expr)
  | [], done => return done.reverse
  | item :: rest, done => do
    let item ← checkExpr item
    checkItems rest (item :: done)
termination_by structural items _ => items

/-- Looks at the values of fields, after those already done. -/
def checkFields : List (String × Expr) → List (String × Expr) → Check (List (String × Expr))
  | [], done => return done.reverse
  | (name, value) :: rest, done => do
    let value ← checkExpr value
    checkFields rest ((name, value) :: done)
termination_by structural fields _ => fields

/-- Looks at a statement. -/
def checkStmt : Stmt → Check Stmt
  | .absent => return .absent
  | .declare location name (.borrow place target exclusive) _ => do
    let extent := (← get).scope.extent
    let (target, borrow) ← borrowPlace place exclusive extent (checkPlace target) (checkExpr target)
    let id ← declareName name location .initialized
    if let some borrow := borrow then holdBorrow borrow id
    return .declare location name (.borrow place target exclusive)
      { binding := some id, isGlobal := ← isGlobal id }
  | .declare location name initial _ => do
    -- The initial value sees the variable of the same name outside, if there is one.
    let initial ← checkExpr initial
    let id ← declareName name location (if initial.isAbsent then .uninitialized else .initialized)
    return .declare location name initial { binding := some id, isGlobal := ← isGlobal id }
  | .assign location name value resolution => do
    match ← lookup name with
    | none =>
      let value ← checkExpr value
      report .undefinedName s!"assignment to undeclared name '{name}'" location name
      return .assign location name value resolution
    | some id =>
      let resolution : Resolution := { binding := some id, isGlobal := ← isGlobal id }
      match value with
      | .borrow place target exclusive =>
        -- The borrow that the variable held ends with the assignment.
        releaseHeldBy id
        let extent := ((← get).symbols[id]?.map (·.extent)).getD 0
        let (target, borrow) ←
          borrowPlace place exclusive extent (checkPlace target) (checkExpr target)
        assignBinding id name location
        if let some borrow := borrow then holdBorrow borrow id
        return .assign location name (.borrow place target exclusive) resolution
      | value =>
        let value ← checkExpr value
        releaseHeldBy id
        assignBinding id name location
        return .assign location name value resolution
  | .assignField location object field value => do
    let object ← checkExpr object
    return .assignField location object field (← checkExpr value)
  | .assignIndex location object index value => do
    let object ← checkExpr object
    let index ← checkExpr index
    return .assignIndex location object index (← checkExpr value)
  | .evaluate location expression => return .evaluate location (← checkExpr expression)
  | .print location expression => return .print location (← checkExpr expression)
  | .block location body => do
    enterScope
    let body ← checkStmts body []
    exitScope
    return .block location body
  | .ifElse location condition yes no => do
    let condition ← checkExpr condition
    let base ← getFlow
    let yes ← checkStmt yes
    let afterYes ← getFlow
    setFlow base
    let no ← checkStmt no
    setFlow (afterYes.meet (← getFlow))
    return .ifElse location condition yes no
  | .cond location scrutinee arms => do
    let scrutinee ← checkExpr scrutinee
    let outer := (← get).symbols.size
    let (arms, after) ← checkArms outer arms (← getFlow) .unreachable []
    -- Without an arm that always matches the program stops, so only the arms go on.
    setFlow after
    return .cond location scrutinee arms
  | .whileLoop location condition body => do
    let (condition, body) ← analyzeLoop do
      let condition ← checkExpr condition
      let testExit ← getFlow
      let body ← checkStmt body
      return ((condition, body), some testExit)
    return .whileLoop location condition body
  | .forLoop location counter _ first bound body => do
    let first ← checkExpr first
    let bound ← checkExpr bound
    let (binding, body) ← analyzeLoop do
      let testExit ← getFlow
      enterScope
      let id ← declareName counter location .initialized
      let body ← checkStmt body
      exitScope
      return ((id, body), some testExit)
    return .forLoop location counter (some binding) first bound body
  | .forever location body => do
    let body ← analyzeLoop do
      let body ← checkStmt body
      return (body, none)
    return .forever location body
  | .leave location => do
    leaveLoop
    return .leave location
  | .skip location => do
    skipLoop
    return .skip location
  | .giveBack location value => do
    let value ← checkExpr value
    endPath
    return .giveBack location value
  | .disown location name resolution => do
    match ← lookup name with
    | none =>
      report .undefinedName s!"cannot disown undeclared name '{name}'" location name
      return .disown location name resolution
    | some id =>
      let resolution : Resolution := { binding := some id, isGlobal := ← isGlobal id }
      moveBinding id name location
      return .disown location name resolution
  | .function location ⟨name, isProc, clauses⟩ resolution => do
    -- Global functions are declared already. Others are visible in their own bodies.
    let (id, isGlobal) ← match resolution with
      | ⟨some id, true⟩ => pure (id, true)
      | _ => do
        let id ← declareName name location .initialized
        pure (id, ← isGlobal id)
    let clauses ← declaredBody id (functionBody fun flow => checkClauses flow clauses [])
    return .function location ⟨name, isProc, clauses⟩ { binding := some id, isGlobal }
termination_by structural stmt => stmt

/-- Looks at statements in order, after those already done. -/
def checkStmts : List Stmt → List Stmt → Check (List Stmt)
  | [], done => return done.reverse
  | stmt :: rest, done => do
    let stmt ← checkStmt stmt
    checkStmts rest (stmt :: done)
termination_by structural stmts _ => stmts

/-- Looks at the arms of a cond, after those already done. An arm runs after the tests before it
have failed; the paths from the ends of the arms join. -/
def checkArms (outer : Nat) : List Arm → FlowState → FlowState → List Arm →
    Check (List Arm × FlowState)
  | [], _, after, done => return (done.reverse, after)
  | ⟨location, pattern, guard, body⟩ :: rest, test, after, done => do
    setFlow test
    enterScope
    let pattern ← match pattern with
      | some pattern => some <$> declarePattern pattern
      | none => pure none
    let guard ← checkExpr guard
    let test := (← getFlow).truncate outer
    let body ← checkStmts body []
    exitScope
    let armEnd := (← getFlow).truncate outer
    checkArms outer rest test (after.meet armEnd) (⟨location, pattern, guard, body⟩ :: done)
termination_by structural arms _ _ _ => arms

/-- Looks at a function without a name of its own. -/
def checkFunction : Function → Check Function
  | ⟨name, isProc, clauses⟩ => do
    let clauses ← functionBody fun flow => checkClauses flow clauses []
    return ⟨name, isProc, clauses⟩
termination_by structural function => function

/-- Looks at the clauses of a function, each from the path where the function is declared, after
those already done. Parameters and body of a clause share one scope. -/
def checkClauses (flow : FlowState) : List Clause → List Clause → Check (List Clause)
  | [], done => return done.reverse
  | ⟨location, parameters, body⟩ :: rest, done => do
    setFlow { flow with reachable := true }
    enterScope
    let parameters ← declareParameters parameters []
    let body ← checkStmts body []
    exitScope
    checkClauses flow rest (⟨location, parameters, body⟩ :: done)
termination_by structural clauses _ => clauses

end

end OwnScript.Check

namespace OwnScript.Program

/-- The outcome of an analysis: the program with its names resolved, and what is wrong with it. -/
structure Analyzed where
  program : Program
  diagnostics : List Diagnostic

/-- Analyzes a program. It counts as analyzed once an analysis has found nothing wrong with it. -/
def analyze (program : Program) : Analyzed :=
  let walk : Check (List Stmt) := do
    let statements ← Check.hoistFunctions [] program.statements
    let statements ← Check.checkStmts statements []
    Check.exitScope
    Check.checkPendingReferences
    return statements
  let (statements, final) := walk.run {}
  { program :=
      { statements
        analyzed := program.analyzed || final.errors.isEmpty
        bindingCount := final.symbols.size }
    diagnostics := final.errors.toList }

end OwnScript.Program
