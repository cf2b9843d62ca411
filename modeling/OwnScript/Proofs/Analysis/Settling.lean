import OwnScript.Proofs.Analysis.Loops

/-!
The search for the path at the start of a loop ends, in every state of an analysis and for every body, whatever loops,
functions and early exits the body consists of.
-/

namespace OwnScript.Check

open Analysis FlowState

variable {outer : Nat} {start other : FlowState}

/-- What two walks find a place to be reached from. -/
inductive SameRoot (outer : Nat) : PlaceRoot → PlaceRoot → Prop where
  | expression : SameRoot outer .expression .expression
  | unresolved : SameRoot outer .unresolved .unresolved
  | resolved {identifier identifier' : Identifier} {id id' : BindingId} : SameId outer id id' →
      SameRoot outer (.resolved identifier id) (.resolved identifier' id')

theorem together_borrowPlace {related : Expr → Expr → Prop} {location : Location} {exclusive : Bool}
    {extent extent' : Extent} {place : Check (Expr × PlaceRoot)} {whole : Check Expr}
    (hplace : Together outer start other (fun found found' => SameRoot outer found.2 found'.2) place place)
    (hwhole : Together outer start other related whole whole) :
    Together outer start other Free (borrowPlace location exclusive extent place whole)
      (borrowPlace location exclusive extent' place whole) := by
  refine hplace.bind fun found found' hroot => ?_
  obtain ⟨part, root⟩ := found
  obtain ⟨part', root'⟩ := found'
  cases hroot with
  | expression => exact hwhole.ends fun _ _ _ => trivial
  | unresolved => exact together_pure trivial
  | resolved hids =>
    refine (together_useBinding hids _ _ _ _).bind fun _ _ _ => ?_
    exact (together_still (still_beginBorrow _ _ _ _ _) (still_beginBorrow _ _ _ _ _)).ends fun _ _ _ => trivial

theorem together_declareVariable (location : Location) (name : String) :
    Together outer start other Free (declareVariable location name) (declareVariable location name) :=
  (together_declareName name location rfl).ends fun _ _ _ => trivial

mutual

theorem together_declarePattern (pattern : Pattern) :
    Together outer start other Free (declarePattern pattern) (declarePattern pattern) := by
  cases pattern with
  | bind location name binding => exact together_declareVariable location name
  | destructure location fields => exact (together_declareFields fields [] []).ends fun _ _ _ => trivial
  | wildcard location => exact together_pure trivial
  | literal location value => exact together_pure trivial
termination_by structural pattern

theorem together_declareFields (fields done done' : List (String × Pattern)) :
    Together outer start other Free (declareFields fields done) (declareFields fields done') := by
  cases fields with
  | nil => exact together_pure trivial
  | cons field rest => exact (together_declarePattern field.2).bind fun _ _ _ => together_declareFields rest _ _
termination_by structural fields

end

theorem together_function (function : Function) :
    Together outer start other Free (checkFunction function) (checkFunction function) := by
  obtain ⟨name, isProc, clauses⟩ := function
  exact (together_still (still_functionBody clauses) (still_functionBody clauses)).ends fun _ _ _ => trivial

mutual

theorem together_expr (expr : Expr) {outer : Nat} {start other : FlowState} :
    Together outer start other (fun part part' => part.isAbsent = part'.isAbsent) (checkExpr expr)
      (checkExpr expr) := by
  cases expr with
  | absent => exact together_pure rfl
  | literal location value => exact together_pure rfl
  | name identifier =>
    refine (together_resolve identifier).bind fun found found' htarget => ?_
    obtain ⟨resolved, target⟩ := found
    obtain ⟨resolved', target'⟩ := found'
    cases htarget with
    | none => exact together_pure rfl
    | some hids => exact (together_useBinding hids _ _ _ _).ends fun _ _ _ => rfl
  | unary location op operand => exact (together_expr operand).ends fun _ _ _ => rfl
  | binary location op left right =>
    refine (together_expr left).bind fun _ _ _ => ?_
    split
    · refine together_getFlow.bind fun _ _ hleft => (together_expr right).bind fun _ _ _ => ?_
      exact together_getFlow.bind fun _ _ hright => (together_setFlow (hleft.meet hright)).ends fun _ _ _ => rfl
    · exact (together_expr right).ends fun _ _ _ => rfl
  | call location callee arguments =>
    refine (together_expr callee).bind fun _ _ _ => ?_
    refine (together_still still_newExtent still_newExtent).bind fun extent extent' _ => ?_
    refine (together_arguments extent extent' arguments [] []).bind fun _ _ _ => ?_
    exact (together_still (still_releaseExtent _) (still_releaseExtent _)).ends fun _ _ _ => rfl
  | field location object name => exact (together_expr object).ends fun _ _ _ => rfl
  | index location object index =>
    exact (together_expr object).bind fun _ _ _ => (together_expr index).ends fun _ _ _ => rfl
  | record location fields => exact (together_fields fields [] []).ends fun _ _ _ => rfl
  | array location items => exact (together_items items [] []).ends fun _ _ _ => rfl
  | lambda location function =>
    exact (together_function function).ends fun _ _ _ => rfl
  | borrow location target exclusive =>
    refine (together_still still_newExtent still_newExtent).bind fun extent extent' _ => ?_
    refine (together_borrowPlace (together_place target) (together_expr target)).bind
      fun _ _ _ => ?_
    exact (together_still (still_releaseExtent _) (still_releaseExtent _)).ends fun _ _ _ => rfl
  | move location target =>
    cases target with
    | none => exact together_pure rfl
    | some identifier =>
      refine (together_resolve identifier).bind fun found found' htarget => ?_
      obtain ⟨resolved, target⟩ := found
      obtain ⟨resolved', target'⟩ := found'
      cases htarget with
      | none => exact together_pure rfl
      | some hids => exact (together_moveBinding hids _ _ _ _).ends fun _ _ _ => rfl
  | deref location operand => exact (together_expr operand).ends fun _ _ _ => rfl
termination_by structural expr

theorem together_place (expr : Expr) {outer : Nat} {start other : FlowState} :
    Together outer start other (fun found found' => SameRoot outer found.2 found'.2) (checkPlace expr)
      (checkPlace expr) := by
  cases expr with
  | name identifier =>
    refine (together_resolve identifier).bind fun found found' htarget => ?_
    obtain ⟨resolved, target⟩ := found
    obtain ⟨resolved', target'⟩ := found'
    cases htarget with
    | none => exact together_pure .unresolved
    | some hids => exact together_pure (.resolved hids)
  | field location object name => exact (together_place object).ends fun _ _ h => h
  | index location object index =>
    exact (together_expr index).bind fun _ _ _ => (together_place object).ends fun _ _ h => h
  | _ => exact together_pure .expression
termination_by structural expr

theorem together_arguments (extent extent' : Extent) (arguments done done' : List Expr) {outer : Nat}
    {start other : FlowState} :
    Together outer start other Free (checkArguments extent arguments done)
      (checkArguments extent' arguments done') := by
  cases arguments with
  | nil => exact together_pure trivial
  | cons argument rest =>
    cases argument with
    | borrow location target exclusive =>
      refine (together_borrowPlace (together_place target) (together_expr target)).bind
        fun _ _ _ => ?_
      exact together_arguments extent extent' rest _ _
    | _ =>
      exact (together_expr _).bind fun _ _ _ => together_arguments extent extent' rest _ _
termination_by structural arguments

theorem together_items (items done done' : List Expr) {outer : Nat} {start other : FlowState} :
    Together outer start other Free (checkItems items done) (checkItems items done') := by
  cases items with
  | nil => exact together_pure trivial
  | cons item rest =>
    exact (together_expr item).bind fun _ _ _ => together_items rest _ _
termination_by structural items

theorem together_fields (fields done done' : List (String × Expr)) {outer : Nat} {start other : FlowState} :
    Together outer start other Free (checkFields fields done) (checkFields fields done') := by
  cases fields with
  | nil => exact together_pure trivial
  | cons field rest =>
    exact (together_expr field.2).bind fun _ _ _ => together_fields rest _ _
termination_by structural fields

end

/-- One turn of a loop with a test. -/
def whileTurn (condition : Expr) (body : Stmt) : Check ((Expr × Stmt) × Option FlowState) := do
  let condition ← checkExpr condition
  let testExit ← getFlow
  let body ← checkStmt body
  return ((condition, body), some testExit)

/-- One turn of a loop over a range. -/
def forTurn (location : Location) (counter : String) (body : Stmt) : Check ((BindingId × Stmt) × Option FlowState) := do
  let testExit ← getFlow
  enterScope
  let id ← declareName counter location .initialized
  let body ← checkStmt body
  exitScope
  return ((id, body), some testExit)

/-- One turn of a loop without a test. -/
def foreverTurn (body : Stmt) : Check (Stmt × Option FlowState) := do
  let body ← checkStmt body
  return (body, none)

section Turns

variable {body : Stmt}

/-- Walks through a statement stay in step, whatever path each of them starts from. -/
def StaysInStep (stmt : Stmt) : Prop :=
  ∀ outer start other, Together outer start other Free (checkStmt stmt) (checkStmt stmt)

theorem keeps_whileTurn (condition : Expr) (body : Stmt) : Keeps (whileTurn condition body) :=
  (keeps_checkExpr condition).bind fun _ => keeps_getFlow fun _ => (keeps_checkStmt body).bind fun _ => keeps_pure _

theorem keeps_forTurn (location : Location) (counter : String) (body : Stmt) :
    Keeps (forTurn location counter body) := by
  have hinner : Keeps (do
      let id ← declareName counter location .initialized
      let body ← checkStmt body
      return (id, body)) :=
    (keeps_declareName counter location .initialized).bind fun _ => (keeps_checkStmt body).bind fun _ => keeps_pure _
  exact keeps_getFlow fun exit => hinner.scoped fun found => keeps_pure (found, some exit)

theorem keeps_foreverTurn (body : Stmt) : Keeps (foreverTurn body) :=
  (keeps_checkStmt body).bind fun _ => keeps_pure _

theorem uniform_whileTurn (condition : Expr) (hbody : StaysInStep body) : Uniform (whileTurn condition body) := by
  intro outer start other
  refine (together_expr condition).bind fun _ _ _ => together_getFlow.bind fun _ _ hexit => ?_
  exact (hbody outer start other).ends fun _ _ _ => .some hexit

theorem uniform_forTurn (location : Location) (counter : String) (hbody : StaysInStep body) :
    Uniform (forTurn location counter body) := by
  intro outer start other
  refine together_getFlow.bind fun _ _ hexit => together_enterScope.bind fun _ _ _ => ?_
  refine (together_declareName counter location rfl).bind fun _ _ _ => (hbody outer start other).bind fun _ _ _ => ?_
  exact together_exitScope.ends fun _ _ _ => .some hexit

theorem uniform_foreverTurn (hbody : StaysInStep body) : Uniform (foreverTurn body) :=
  fun outer start other => (hbody outer start other).ends fun _ _ _ => .none

end Turns

mutual

theorem together_stmt (stmt : Stmt) {outer : Nat} {start other : FlowState} :
    Together outer start other Free (checkStmt stmt) (checkStmt stmt) := by
  cases stmt with
  | absent => exact together_pure trivial
  | declare location name initial resolution =>
    have hplain : Together outer start other Free (do
        let initial ← checkExpr initial
        let id ← declareName name location (if initial.isAbsent then .uninitialized else .initialized)
        return Stmt.declare location name initial { binding := some id, isGlobal := ← isGlobal id }) (do
        let initial ← checkExpr initial
        let id ← declareName name location (if initial.isAbsent then .uninitialized else .initialized)
        return Stmt.declare location name initial { binding := some id, isGlobal := ← isGlobal id }) := by
      refine (together_expr initial).bind fun part part' habsent => ?_
      refine (together_declareName name location (by rw [habsent])).bind fun _ _ _ => ?_
      exact (together_still (still_isGlobal _) (still_isGlobal _)).ends fun _ _ _ => trivial
    cases initial with
    | borrow place target exclusive =>
      refine together_get fun a b _ => ?_
      refine (together_borrowPlace (together_place target) (together_expr target)).bind
        fun found found' _ => ?_
      obtain ⟨part, borrow⟩ := found
      obtain ⟨part', borrow'⟩ := found'
      have hlast (borrow : Option Nat) (part : Expr) (id : BindingId) : Still (do
          if let some borrow := borrow then holdBorrow borrow id
          return Stmt.declare location name (.borrow place part exclusive)
            { binding := some id, isGlobal := ← isGlobal id }) := by
        have hend := Moves.after (still_isGlobal id) fun flag => still_pure
          (Stmt.declare location name (.borrow place part exclusive) { binding := some id, isGlobal := flag })
        cases borrow with
        | none => exact hend
        | some borrow => exact Moves.after (still_holdBorrow borrow id) fun _ => hend
      exact (together_declareName name location rfl).bind fun _ _ _ => together_still (hlast _ _ _) (hlast _ _ _)
    | _ => exact hplain
  | assign location name value resolution =>
    rw [checkStmt]
    refine (together_lookup name).bind fun target target' htarget => ?_
    cases htarget with
    | none =>
      refine (together_expr value).bind fun _ _ _ => ?_
      exact (together_still (still_report _ _ _ _) (still_report _ _ _ _)).ends fun _ _ _ => trivial
    | @some id id' hids =>
      refine (together_still (still_isGlobal _) (still_isGlobal _)).bind fun flag flag' _ => ?_
      have hplain : Together outer start other Free (do
          let value ← checkExpr value
          releaseHeldBy id
          assignBinding id name location
          return Stmt.assign location name value ⟨some id, flag⟩) (do
          let value ← checkExpr value
          releaseHeldBy id'
          assignBinding id' name location
          return Stmt.assign location name value ⟨some id', flag'⟩) := by
        refine (together_expr value).bind fun _ _ _ => ?_
        refine (together_still (still_releaseHeldBy _) (still_releaseHeldBy _)).bind fun _ _ _ => ?_
        exact (together_assignBinding hids _ _ _ _).ends fun _ _ _ => trivial
      cases value with
      | borrow place target exclusive =>
        have hlast (borrow : Option Nat) (part : Expr) (id : BindingId) (flag : Bool) : Still (do
            if let some borrow := borrow then holdBorrow borrow id
            return Stmt.assign location name (.borrow place part exclusive) ⟨some id, flag⟩) := by
          cases borrow with
          | none => exact still_pure _
          | some borrow => exact Moves.after (still_holdBorrow borrow id) fun _ => still_pure _
        refine (together_still (still_releaseHeldBy _) (still_releaseHeldBy _)).bind fun _ _ _ =>
          together_get fun a b _ => ?_
        refine (together_borrowPlace (together_place target) (together_expr target)).bind
          fun found found' _ => ?_
        exact (together_assignBinding hids _ _ _ _).bind fun _ _ _ => together_still (hlast _ _ _ _) (hlast _ _ _ _)
      | _ => exact hplain
  | assignField location object field value =>
    exact (together_expr object).bind fun _ _ _ => (together_expr value).ends fun _ _ _ => trivial
  | assignIndex location object index value =>
    refine (together_expr object).bind fun _ _ _ => (together_expr index).bind fun _ _ _ => ?_
    exact (together_expr value).ends fun _ _ _ => trivial
  | evaluate location expression => exact (together_expr expression).ends fun _ _ _ => trivial
  | print location expression => exact (together_expr expression).ends fun _ _ _ => trivial
  | block location body =>
    refine together_enterScope.bind fun _ _ _ => (together_stmts body [] []).bind fun _ _ _ => ?_
    exact together_exitScope.ends fun _ _ _ => trivial
  | ifElse location condition yes no =>
    refine (together_expr condition).bind fun _ _ _ => together_getFlow.bind fun _ _ hbase => ?_
    refine (together_stmt yes).bind fun _ _ _ => together_getFlow.bind fun _ _ hyes => ?_
    refine (together_setFlow hbase).bind fun _ _ _ => (together_stmt no).bind fun _ _ _ => ?_
    exact together_getFlow.bind fun _ _ hno => (together_setFlow (hyes.meet hno)).ends fun _ _ _ => trivial
  | cond location scrutinee arms =>
    refine (together_expr scrutinee).bind fun _ _ _ => together_get fun a b hinStep => ?_
    refine together_getFlow.bind fun _ _ htest => ?_
    refine (together_arms hinStep.left hinStep.right arms [] [] htest .unreachable).bind fun found found' hafter => ?_
    exact (together_setFlow hafter).ends fun _ _ _ => trivial
  | whileLoop location condition body =>
    exact (together_analyzeLoop (keeps_whileTurn condition body)
      (uniform_whileTurn condition fun _ _ _ => together_stmt body)).ends fun _ _ _ => trivial
  | forLoop location counter binding first bound body =>
    refine (together_expr first).bind fun _ _ _ => (together_expr bound).bind fun _ _ _ => ?_
    exact (together_analyzeLoop (keeps_forTurn location counter body)
      (uniform_forTurn location counter fun _ _ _ => together_stmt body)).ends fun _ _ _ => trivial
  | forever location body =>
    exact (together_analyzeLoop (keeps_foreverTurn body)
      (uniform_foreverTurn fun _ _ _ => together_stmt body)).ends fun _ _ _ => trivial
  | leave location => exact together_leaveLoop.ends fun _ _ _ => trivial
  | skip location => exact together_skipLoop.ends fun _ _ _ => trivial
  | giveBack location value =>
    exact (together_expr value).bind fun _ _ _ => together_endPath.ends fun _ _ _ => trivial
  | disown location name resolution =>
    refine (together_lookup name).bind fun target target' htarget => ?_
    cases htarget with
    | none => exact (together_still (still_report _ _ _ _) (still_report _ _ _ _)).ends fun _ _ _ => trivial
    | some hids =>
      refine (together_still (still_isGlobal _) (still_isGlobal _)).bind fun _ _ _ => ?_
      exact (together_moveBinding hids _ _ _ _).ends fun _ _ _ => trivial
  | function location declaration resolution =>
    obtain ⟨name, isProc, clauses⟩ := declaration
    have hbody (id id' : BindingId) (flag flag' : Bool) : Together outer start other Free (do
        let clauses ← declaredBody id (functionBody fun flow => checkClauses flow clauses [])
        return Stmt.function location ⟨name, isProc, clauses⟩ ⟨some id, flag⟩) (do
        let clauses ← declaredBody id' (functionBody fun flow => checkClauses flow clauses [])
        return Stmt.function location ⟨name, isProc, clauses⟩ ⟨some id', flag'⟩) :=
      (together_still (still_declaredBody _ (still_functionBody clauses))
        (still_declaredBody _ (still_functionBody clauses))).ends fun _ _ _ => trivial
    have hlocal : Together outer start other Free (do
        let id ← declareName name location .initialized
        let flag ← isGlobal id
        let clauses ← declaredBody id (functionBody fun flow => checkClauses flow clauses [])
        return Stmt.function location ⟨name, isProc, clauses⟩ ⟨some id, flag⟩) (do
        let id ← declareName name location .initialized
        let flag ← isGlobal id
        let clauses ← declaredBody id (functionBody fun flow => checkClauses flow clauses [])
        return Stmt.function location ⟨name, isProc, clauses⟩ ⟨some id, flag⟩) := by
      refine (together_declareName name location rfl).bind fun _ _ _ => ?_
      exact (together_still (still_isGlobal _) (still_isGlobal _)).bind fun _ _ _ => hbody _ _ _ _
    obtain ⟨binding, flag⟩ := resolution
    cases binding with
    | none => exact hlocal
    | some id =>
      cases flag with
      | true => exact hbody id id true true
      | false => exact hlocal
termination_by structural stmt

theorem together_stmts (stmts done done' : List Stmt) {outer : Nat} {start other : FlowState} :
    Together outer start other Free (checkStmts stmts done) (checkStmts stmts done') := by
  cases stmts with
  | nil => exact together_pure trivial
  | cons stmt rest =>
    exact (together_stmt stmt).bind fun _ _ _ => together_stmts rest _ _
termination_by structural stmts

theorem together_arms {outer count count' : Nat} {start other test test' after after' : FlowState}
    (hcount : outer ≤ count) (hcount' : outer ≤ count') (arms done done' : List Arm)
    (htest : Parallel outer start other test test') (hafter : Parallel outer start other after after') :
    Together outer start other (fun found found' => Parallel outer start other found.2 found'.2)
      (checkArms count arms test after done) (checkArms count' arms test' after' done') := by
  cases arms with
  | nil => exact together_pure hafter
  | cons arm rest =>
    obtain ⟨location, pattern, guard, body⟩ := arm
    have harm (bound : Check (Option Pattern)) (hbound : Together outer start other Free bound bound) :
        Together outer start other (fun found found' => Parallel outer start other found.2 found'.2) (do
          setFlow test
          enterScope
          let pattern ← bound
          let guard ← checkExpr guard
          let test := (← getFlow).truncate count
          let body ← checkStmts body []
          exitScope
          let armEnd := (← getFlow).truncate count
          checkArms count rest test (after.meet armEnd) (⟨location, pattern, guard, body⟩ :: done)) (do
          setFlow test'
          enterScope
          let pattern ← bound
          let guard ← checkExpr guard
          let test := (← getFlow).truncate count'
          let body ← checkStmts body []
          exitScope
          let armEnd := (← getFlow).truncate count'
          checkArms count' rest test (after'.meet armEnd) (⟨location, pattern, guard, body⟩ :: done')) := by
      refine (together_setFlow htest).bind fun _ _ _ => together_enterScope.bind fun _ _ _ =>
        hbound.bind fun _ _ _ => ?_
      refine (together_expr guard).bind fun _ _ _ => together_getFlow.bind fun _ _ hfailed => ?_
      refine (together_stmts body [] []).bind fun _ _ _ => together_exitScope.bind fun _ _ _ => ?_
      refine together_getFlow.bind fun _ _ hend => ?_
      exact together_arms hcount hcount' rest _ _ (hfailed.truncate hcount hcount')
        (hafter.meet (hend.truncate hcount hcount'))
    cases pattern with
    | none =>
      rw [checkArms, checkArms]
      exact harm (pure none) (together_pure trivial)
    | some pattern =>
      rw [checkArms, checkArms]
      exact harm (some <$> declarePattern pattern) ((together_declarePattern pattern).ends fun _ _ _ => trivial)
termination_by structural arms

end

/-- What a state of an analysis knows about a loop whose turns are given: the silent search for the path at the start of
the loop ends because that path does not change any more, and the look that reports starts from that path, which is the
path before the loop joined with the ways back to the start in that very look, as far as the variables declared before
the loop go. -/
def SettlesFrom {α : Type} (turn : Check (α × Option FlowState)) (a : Analysis) : Prop :=
  ∃ looks entry quiet, looks ≤ 2 ∧ Settles turn a.symbols.size a.flow looks a.flow (hushed a) entry quiet ∧
    loopEntry turn a.symbols.size a.flow (a.symbols.size * 2 + 3) a.flow (hushed a) = (entry, quiet) ∧
    let report := loopPass turn entry (heard quiet)
    entry = (a.flow.meet (wayBack report)).truncate a.symbols.size ∧
    analyzeLoop turn a = (report.1.1, { report.2 with flow :=
      (report.1.2.2.leaving.foldl FlowState.meet (report.1.2.1.getD .unreachable)).truncate a.symbols.size })

theorem settlesFrom {α : Type} {turn : Check (α × Option FlowState)} (hkeeps : Keeps turn) (huniform : Uniform turn)
    (a : Analysis) : SettlesFrom turn a := by
  obtain ⟨looks, quiet, hlooks, hreturns, hsettles, hrun⟩ := analyzeLoop_settled hkeeps huniform a
  have hquiet : Returns (hushed a) (heard quiet) :=
    ⟨hreturns.scope, hreturns.outerScopes, hreturns.symbols, hreturns.loops, rfl⟩
  have hagain := @nextEntry_again _ a.symbols.size turn (hushed a) (heard quiet) hkeeps huniform a.flow le_rfl hquiet
  exact ⟨looks, _, quiet, hlooks, hsettles, hsettles.loopEntry_eq (by omega), hagain.symm, hrun⟩

/-- The path at the start of every loop settles, from every state of an analysis. -/
theorem loops_settle (a : Analysis) :
    (∀ location condition body, SettlesFrom (whileTurn condition body) a ∧
      checkStmt (.whileLoop location condition body) = do
        let (condition, body) ← analyzeLoop (whileTurn condition body)
        return .whileLoop location condition body) ∧
    (∀ location counter binding first bound body, SettlesFrom (forTurn location counter body) a ∧
      checkStmt (.forLoop location counter binding first bound body) = do
        let first ← checkExpr first
        let bound ← checkExpr bound
        let (binding, body) ← analyzeLoop (forTurn location counter body)
        return .forLoop location counter (some binding) first bound body) ∧
    (∀ location body, SettlesFrom (foreverTurn body) a ∧
      checkStmt (.forever location body) = do
        let body ← analyzeLoop (foreverTurn body)
        return .forever location body) := by
  refine ⟨fun location condition body => ⟨?_, rfl⟩, fun location counter binding first bound body => ⟨?_, rfl⟩,
    fun location body => ⟨?_, rfl⟩⟩
  · exact settlesFrom (keeps_whileTurn condition body) (uniform_whileTurn condition fun _ _ _ => together_stmt body) a
  · exact settlesFrom (keeps_forTurn location counter body)
      (uniform_forTurn location counter fun _ _ _ => together_stmt body) a
  · exact settlesFrom (keeps_foreverTurn body) (uniform_foreverTurn fun _ _ _ => together_stmt body) a

end OwnScript.Check
