import OwnScript.Proofs.Analysis.Paths
import OwnScript.Proofs.Analysis.Shape

/-!
Definite initialization. A program that analysis has accepted reads its global variables in time: on every
path, in every turn of a loop, in every branch, in functions that are called before their declaration, and in
functions that run long after they were made.
-/

namespace OwnScript

mutual

/-- Functions stand among the statements of the program only, where they have been declared before. -/
def Stmt.Placed : Stmt → Prop
  | .function _ _ resolution => ∃ id, resolution = ⟨some id, true⟩
  | .ifElse _ _ yes no => yes.Placed ∧ no.Placed
  | _ => True

end

/-- A list that goes on from a part that is done, in reverse, with parts as wanted. -/
def Adds {γ : Type} (good : List γ → Prop) (done result : List γ) : Prop :=
  ∃ parts, result = done.reverse ++ parts ∧ good parts

section Adds

variable {γ : Type} {good wanted : List γ → Prop} {part : γ} {done result : List γ}

theorem adds_done (hgood : good []) : Adds good done done.reverse :=
  ⟨[], (List.append_nil _).symm, hgood⟩

theorem Adds.step (hrest : Adds good (part :: done) result) (hstep : ∀ parts, good parts → wanted (part :: parts)) :
    Adds wanted done result := by
  obtain ⟨parts, rfl, hparts⟩ := hrest
  exact ⟨part :: parts, by simp, hstep parts hparts⟩

theorem Adds.whole (hresult : Adds good [] result) : good result := by
  obtain ⟨parts, rfl, hparts⟩ := hresult
  exact hparts

end Adds

namespace Check

open Analysis

variable {final : Analysis} {mode : Option BindingId} {nested : Bool}

/-- A statement and those behind it. -/
theorem runs_followed {stmt : Stmt} {rest done : List Stmt}
    (hstmt : Runs final mode nested (checkStmt stmt) fun part defined exits =>
      part.Timely final.readiness.May defined exits)
    (hrest : ∀ part, Runs final mode nested (checkStmts rest (part :: done)) fun result defined exits =>
      ∀ parts, result = (part :: done).reverse ++ parts → stmtsTimely final.readiness.May parts defined exits) :
    Runs final mode nested (checkStmts (stmt :: rest) done) fun result defined exits =>
      ∀ parts, result = done.reverse ++ parts → stmtsTimely final.readiness.May parts defined exits where
  keeps := hstmt.keeps.bind fun part => (hrest part).keeps
  runs a hstands hextends defined exits hgrants hfall hleave hskip parts hparts := by
    have hlater := (hrest (checkStmt stmt a).1).keeps (checkStmt stmt a).2
    obtain ⟨others, hothers, -⟩ := source_stmts rest ((checkStmt stmt a).1 :: done) (checkStmt stmt a).2
    have hsplit : parts = (checkStmt stmt a).1 :: others := by
      have hsame := hparts.symm.trans hothers
      rwa [List.reverse_cons, List.append_assoc, List.append_cancel_left_eq] at hsame
    subst hsplit
    refine hstmt.runs a hstands (hlater.toExtends.trans hextends) defined _ hgrants (fun more hmore h => ?_)
      (fun more hmore h => hleave more hmore (h.grow hlater.loops)) hskip
    exact (hrest _).runs _ (hstands.keep (hstmt.keeps a)) hextends more exits h
      (fun last hlast => hfall last (hmore.trans hlast)) (fun last hlast => hleave last (hmore.trans hlast))
      (fun last hlast => hskip last (hmore.trans hlast)) others hothers

/-- An arm and those behind it. -/
theorem chooses_followed (outer : Nat) (test after : FlowState) (location : Location) {guard : Expr} {body : List Stmt}
    {rest : List Arm} {bound : Check (Option Pattern)} (hbound : Serves final mode true bound fun _ _ => True)
    (hguard : Serves final mode true (checkExpr guard) fun part defined => part.Timely final.readiness.May defined)
    (hbody : Runs final mode true (checkStmts body []) fun result defined exits =>
      ∀ parts, result = [].reverse ++ parts → stmtsTimely final.readiness.May parts defined exits)
    (hrest : ∀ test after done, Chooses final mode nested test after (checkArms outer rest test after done)
      fun result defined exits => Adds (armsTimely final.readiness.May · defined exits) done result) (done : List Arm) :
    Chooses final mode nested test after (do
      setFlow test
      enterScope
      let pattern ← bound
      let guard ← checkExpr guard
      let test := (← getFlow).truncate outer
      let body ← checkStmts body []
      exitScope
      let armEnd := (← getFlow).truncate outer
      checkArms outer rest test (after.meet armEnd) (⟨location, pattern, guard, body⟩ :: done))
      fun result defined exits => Adds (armsTimely final.readiness.May · defined exits) done result := by
  have hnext (pattern : Option Pattern) (guard : Expr) (test : FlowState) (part : List Stmt) (armEnd : FlowState) :=
    hrest test (after.meet armEnd) (⟨location, pattern, guard, part⟩ :: done)
  have harm := @chooses_arm _ _ final mode nested _ outer test after bound (checkExpr guard) (checkStmts body [])
    (fun pattern guard test part armEnd =>
      checkArms outer rest test (after.meet armEnd) (⟨location, pattern, guard, part⟩ :: done)) _ _ _
    (fun result defined exits => Adds (armsTimely final.readiness.May · defined exits) done result)
    hbound hguard hbody hnext fun pattern guard part result defined exits hpart hran hothers =>
      hothers.step fun parts hparts => ⟨hpart, hran part rfl, hparts⟩
  exact harm

mutual

theorem serves_expr (haccepted : final.Accepted) (mode : Option BindingId) (nested : Bool) (expr : Expr) :
    Serves final mode nested (checkExpr expr) fun part defined => part.Timely final.readiness.May defined := by
  cases expr with
  | absent => exact serves_pure fun _ => trivial
  | literal location value => exact serves_pure fun _ => trivial
  | name identifier =>
    refine (serves_resolve haccepted identifier).bind fun found => ?_
    obtain ⟨resolved, target⟩ := found
    cases target with
    | none => exact serves_pure fun _ ⟨_, h, _⟩ => by cases h
    | some id =>
      refine (serves_useBinding haccepted id _ _).bind fun _ => serves_pure fun defined hknown hfound => ?_
      obtain ⟨_, hsame, htimely⟩ := hfound
      cases hsame
      exact htimely hknown
  | unary location op operand =>
    exact (serves_expr haccepted mode nested operand).bind fun part => serves_pure fun _ h => h
  | binary location op left right =>
    refine (serves_expr haccepted mode nested left).bind fun first => ?_
    split
    · exact (serves_expr haccepted mode nested right).optional _ fun _ _ h hfirst => ⟨hfirst, h⟩
    · exact (serves_expr haccepted mode nested right).bind fun _ => serves_pure fun _ h hfirst => ⟨hfirst, h⟩
  | call location callee arguments =>
    refine (serves_expr haccepted mode nested callee).bind fun first => serves_newExtent.after fun extent => ?_
    refine (serves_arguments haccepted mode nested extent arguments []).bind fun others => ?_
    refine (serves_releaseExtent extent).after fun _ => serves_pure fun _ hothers hfirst => ⟨hfirst, ?_⟩
    exact Adds.whole hothers
  | field location object name =>
    exact (serves_expr haccepted mode nested object).bind fun part => serves_pure fun _ h => h
  | index location object index =>
    refine (serves_expr haccepted mode nested object).bind fun first => ?_
    exact (serves_expr haccepted mode nested index).bind fun second => serves_pure fun _ h hfirst => ⟨hfirst, h⟩
  | record location fields =>
    exact (serves_fields haccepted mode nested fields []).bind fun parts => serves_pure fun _ h => Adds.whole h
  | array location items =>
    exact (serves_items haccepted mode nested items []).bind fun parts => serves_pure fun _ h => Adds.whole h
  | lambda location function =>
    exact (serves_function haccepted mode nested function).bind fun part => serves_pure fun _ h => h
  | borrow location target exclusive =>
    refine serves_newExtent.after fun extent => ?_
    refine (serves_borrowPlace haccepted (serves_place haccepted mode nested target)
      (serves_expr haccepted mode nested target)).bind fun found => ?_
    exact (serves_releaseExtent extent).after fun _ => serves_pure fun _ h => h
  | move location target =>
    cases target with
    | none => exact serves_pure fun _ => trivial
    | some identifier =>
      refine (serves_resolve haccepted identifier).bind fun found => ?_
      obtain ⟨resolved, target⟩ := found
      cases target with
      | none => exact serves_pure fun _ ⟨_, h, _⟩ => by cases h
      | some id =>
        refine (serves_moveBinding haccepted id _ _).bind fun _ => serves_pure fun defined hknown hfound => ?_
        obtain ⟨_, hsame, htimely⟩ := hfound
        cases hsame
        exact htimely hknown
  | deref location operand =>
    exact (serves_expr haccepted mode nested operand).bind fun part => serves_pure fun _ h => h
termination_by structural expr

theorem serves_place (haccepted : final.Accepted) (mode : Option BindingId) (nested : Bool) (expr : Expr) :
    Serves final mode nested (checkPlace expr) (PlaceServed final mode) := by
  have hexpression (expr : Expr) : Serves final mode nested (pure (expr, PlaceRoot.expression))
      (PlaceServed final mode) :=
    serves_pure fun _ => ⟨by simp, fun _ _ h => by cases h⟩
  cases expr with
  | name identifier =>
    refine (serves_resolve haccepted identifier).bind fun found => ?_
    obtain ⟨resolved, target⟩ := found
    cases target with
    | none => exact serves_pure fun _ ⟨_, h, _⟩ => by cases h
    | some id =>
      refine serves_pure fun defined hfound => ⟨by simp, fun _ _ hroot hknown => ?_⟩
      obtain ⟨_, hsame, htimely⟩ := hfound
      cases hsame
      cases hroot
      exact htimely hknown
  | field location object name =>
    exact (serves_place haccepted mode nested object).bind fun found => serves_pure fun _ h => h
  | index location object index =>
    refine (serves_expr haccepted mode nested index).bind fun second => ?_
    refine (serves_place haccepted mode nested object).bind fun found => serves_pure fun _ hfound hsecond => ?_
    exact ⟨hfound.1, fun identifier id hroot hknown => ⟨hfound.2 identifier id hroot hknown, hsecond⟩⟩
  | _ => exact hexpression _
termination_by structural expr

theorem serves_arguments (haccepted : final.Accepted) (mode : Option BindingId) (nested : Bool) (extent : Extent)
    (arguments done : List Expr) :
    Serves final mode nested (checkArguments extent arguments done) fun result defined =>
      Adds (exprsTimely final.readiness.May · defined) done result := by
  cases arguments with
  | nil => exact serves_pure fun _ => adds_done trivial
  | cons argument rest =>
    have hnext (part : Expr) : Serves final mode nested (checkArguments extent rest (part :: done))
        fun result defined => part.Timely final.readiness.May defined →
          Adds (exprsTimely final.readiness.May · defined) done result :=
      (serves_arguments haccepted mode nested extent rest (part :: done)).mono fun _ _ h hpart =>
        h.step fun _ hparts => ⟨hpart, hparts⟩
    cases argument with
    | borrow location target exclusive =>
      exact (serves_borrowPlace haccepted (serves_place haccepted mode nested target)
        (serves_expr haccepted mode nested target)).bind fun found => hnext (.borrow location found.1 exclusive)
    | _ => exact (serves_expr haccepted mode nested _).bind hnext
termination_by structural arguments

theorem serves_items (haccepted : final.Accepted) (mode : Option BindingId) (nested : Bool) (items done : List Expr) :
    Serves final mode nested (checkItems items done) fun result defined =>
      Adds (exprsTimely final.readiness.May · defined) done result := by
  cases items with
  | nil => exact serves_pure fun _ => adds_done trivial
  | cons item rest =>
    refine (serves_expr haccepted mode nested item).bind fun part => ?_
    exact (serves_items haccepted mode nested rest (part :: done)).mono fun _ _ h hpart =>
      h.step fun _ hparts => ⟨hpart, hparts⟩
termination_by structural items

theorem serves_fields (haccepted : final.Accepted) (mode : Option BindingId) (nested : Bool)
    (fields done : List (String × Expr)) :
    Serves final mode nested (checkFields fields done) fun result defined =>
      Adds (fieldsTimely final.readiness.May · defined) done result := by
  cases fields with
  | nil => exact serves_pure fun _ => adds_done trivial
  | cons field rest =>
    refine (serves_expr haccepted mode nested field.2).bind fun part => ?_
    exact (serves_fields haccepted mode nested rest ((field.1, part) :: done)).mono fun _ _ h hpart =>
      h.step fun _ hparts => ⟨hpart, hparts⟩
termination_by structural fields

theorem runs_stmt (haccepted : final.Accepted) (mode : Option BindingId) (nested : Bool) (stmt : Stmt)
    (hplaced : nested = false → stmt.Placed) :
    Runs final mode nested (checkStmt stmt) fun part defined exits =>
      part.Timely final.readiness.May defined exits := by
  cases stmt with
  | absent => exact runs_pure fun _ _ h => h
  | declare location name initial resolution =>
    have hplain : Runs final mode nested (do
        let initial ← checkExpr initial
        let id ← declareName name location (if initial.isAbsent then .uninitialized else .initialized)
        return Stmt.declare location name initial { binding := some id, isGlobal := ← isGlobal id })
        fun part defined exits => part.Timely final.readiness.May defined exits :=
      (serves_expr haccepted mode nested initial).followed fun part =>
        runs_declaring haccepted name location part (fun id => (keeps_isGlobal id).bind fun _ => keeps_pure _)
          (fun _ _ => rfl) fun _ _ => rfl
    cases initial with
    | borrow place target exclusive =>
      refine runs_get fun a => ?_
      refine (serves_borrowPlace haccepted (serves_place haccepted mode nested target)
        (serves_expr haccepted mode nested target)).followed fun found => ?_
      obtain ⟨part, borrow⟩ := found
      cases borrow with
      | none =>
        exact runs_declaring haccepted name location (.borrow place part exclusive)
          (fun id => (keeps_isGlobal id).bind fun _ => keeps_pure _) (fun _ _ => rfl) fun _ _ => rfl
      | some borrow =>
        exact runs_declaring haccepted name location (.borrow place part exclusive)
          (fun id => (keeps_holdBorrow borrow id).bind fun _ => (keeps_isGlobal id).bind fun _ => keeps_pure _)
          (fun _ _ => rfl) fun _ _ => rfl
    | _ => exact hplain
  | assign location name value resolution =>
    rw [checkStmt]
    refine runs_lookup name (fun _ => rfl) ?_ fun id flag => ?_
    · refine (serves_expr haccepted mode nested value).followed fun _ => ?_
      exact (serves_report haccepted _ _ _ _ fun _ _ => False).followed fun _ => runs_pure fun _ _ _ h => h.elim
    · have hplain : Runs final mode nested (do
          let value ← checkExpr value
          releaseHeldBy id
          assignBinding id name location
          return Stmt.assign location name value ⟨some id, flag⟩)
          fun part defined exits => (final.IsGlobal id → flag = true) →
            part.Timely final.readiness.May defined exits := by
        refine (serves_expr haccepted mode nested value).followed fun part => ?_
        refine (serves_releaseHeldBy id).followed fun _ => ?_
        exact (runs_assigning id flag name location part (keeps_pure _) (fun _ => rfl) fun _ => rfl).mono
          fun stmt _ _ h _ hpart => h hpart
      cases value with
      | borrow place target exclusive =>
        refine (serves_releaseHeldBy id).followed fun _ => runs_get fun a => ?_
        refine (serves_borrowPlace haccepted (serves_place haccepted mode nested target)
          (serves_expr haccepted mode nested target)).followed fun found => ?_
        obtain ⟨part, borrow⟩ := found
        cases borrow with
        | none =>
          exact (runs_assigning id flag name location (.borrow place part exclusive) (keeps_pure _) (fun _ => rfl)
            fun _ => rfl).mono fun stmt _ _ h hpart _ => h hpart
        | some borrow =>
          exact (runs_assigning id flag name location (.borrow place part exclusive)
            ((keeps_holdBorrow borrow id).bind fun _ => keeps_pure _) (fun _ => rfl) fun _ => rfl).mono
            fun stmt _ _ h hpart _ => h hpart
      | _ => exact hplain
  | assignField location object field value =>
    refine (serves_expr haccepted mode nested object).followed fun first => ?_
    refine (serves_expr haccepted mode nested value).followed fun second => runs_pure fun _ _ hfall hvalue hobject => ?_
    exact ⟨hobject, hvalue, hfall⟩
  | assignIndex location object index value =>
    refine (serves_expr haccepted mode nested object).followed fun first => ?_
    refine (serves_expr haccepted mode nested index).followed fun second => ?_
    refine (serves_expr haccepted mode nested value).followed fun third =>
      runs_pure fun _ _ hfall hvalue hindex hobject => ?_
    exact ⟨hobject, hindex, hvalue, hfall⟩
  | evaluate location expression =>
    exact (serves_expr haccepted mode nested expression).followed fun _ => runs_pure fun _ _ hfall h => ⟨h, hfall⟩
  | print location expression =>
    exact (serves_expr haccepted mode nested expression).followed fun _ => runs_pure fun _ _ hfall h => ⟨h, hfall⟩
  | block location body =>
    exact (runs_stmts haccepted mode true body [] (fun h => by cases h)).scoped _ fun parts _ _ h => h parts rfl
  | ifElse location condition yes no =>
    refine (serves_expr haccepted mode nested condition).followed fun test => ?_
    exact runs_branches (runs_stmt haccepted mode nested yes fun h => (hplaced h).1)
      (runs_stmt haccepted mode nested no fun h => (hplaced h).2) _
      fun _ _ _ _ hyes hno hcondition => ⟨hcondition, hyes, hno⟩
  | cond location scrutinee arms =>
    refine (serves_expr haccepted mode nested scrutinee).followed fun part => ?_
    exact runs_chooses (fun outer test => chooses_arms haccepted mode nested outer arms test .unreachable []) _
      fun _ _ _ h hpart => ⟨hpart, h.whole⟩
  | whileLoop location condition body =>
    have hturns : Turns final mode _ fun (parts : Expr × Stmt) defined exits =>
        parts.1.Timely final.readiness.May defined ∧ parts.2.Timely final.readiness.May defined (exits.turn defined) ∧
          exits.fall defined :=
      turns_tested (serves_expr haccepted mode true condition) (runs_stmt haccepted mode true body fun h => by cases h)
        Prod.mk fun _ _ _ _ htest hbody hfall => ⟨htest, hbody, hfall⟩
    exact (runs_analyzeLoop hturns).map _ fun _ _ _ h => h
  | forLoop location counter binding first bound body =>
    refine (serves_expr haccepted mode nested first).followed fun low => ?_
    refine (serves_expr haccepted mode nested bound).followed fun high => ?_
    have hbody : Runs final mode true (do
        let id ← declareName counter location .initialized
        let body ← checkStmt body
        return (id, body)) fun parts defined exits => parts.2.Timely final.readiness.May defined exits :=
      (serves_declareName haccepted counter location .initialized).followed fun id =>
        (runs_stmt haccepted mode true body fun h => by cases h).map _ fun _ _ _ h _ => h
    have hturns : Turns final mode _ fun (parts : BindingId × Stmt) defined exits =>
        parts.2.Timely final.readiness.May defined (exits.turn defined) ∧ exits.fall defined :=
      turns_tested (serves_pure fun _ => trivial : Serves final mode true (pure ()) fun _ _ => True)
        (hbody.scoped id fun _ _ _ h => h) (fun (_ : Unit) parts => parts)
        fun _ _ _ _ _ hbody hfall => ⟨hbody, hfall⟩
    exact (runs_analyzeLoop hturns).map _ fun _ _ _ h hhigh hlow => ⟨hlow, hhigh, h.1, h.2⟩
  | forever location body =>
    exact (runs_analyzeLoop (turns_untested (runs_stmt haccepted mode true body fun h => by cases h))).map _
      fun _ _ _ h => h
  | leave location => exact (runs_leaveLoop _).mono fun _ _ _ h => h.1 ▸ h.2
  | skip location => exact (runs_skipLoop _).mono fun _ _ _ h => h.1 ▸ h.2
  | giveBack location value =>
    refine (serves_expr haccepted mode nested value).followed fun part => ?_
    exact (runs_endPath _).mono fun _ _ _ h hpart => h ▸ hpart
  | disown location name resolution =>
    refine @Serves.falls _ final mode nested _ (fun stmt defined => ∃ id flag, (flag = true → id ∈ defined) ∧
      stmt = .disown location name ⟨some id, flag⟩) _ ?_ fun stmt _ _ h hfall => ?_
    · refine serves_lookup_move haccepted name location (fun _ => rfl) ?_ fun id flag _ h => ⟨id, flag, h, rfl⟩
      exact (serves_report haccepted _ _ _ _ fun _ _ => False).bind fun _ => serves_pure fun _ h => h.elim
    · obtain ⟨id, flag, hdefined, rfl⟩ := h
      exact ⟨fun hflag other hother => Option.some.inj hother ▸ hdefined hflag, hfall⟩
  | function location declaration resolution =>
    obtain ⟨name, isProc, clauses⟩ := declaration
    have hclauses (nested : Bool) : Serves final mode nested (functionBody fun flow => checkClauses flow clauses [])
        fun parts defined => Adds (clausesTimely final.readiness.May · defined) [] parts :=
      serves_functionBody fun flow => servesBody_clauses haccepted mode flow clauses []
    have hglobal (id : BindingId) : Runs final mode nested (do
        let clauses ← declaredBody id (functionBody fun flow => checkClauses flow clauses [])
        return Stmt.function location ⟨name, isProc, clauses⟩ ⟨some id, true⟩)
        fun part defined exits => part.Timely final.readiness.May defined exits :=
      (serves_declaredBody id (hclauses nested).keeps fun _ => rfl).followed fun parts =>
        runs_pure fun _ _ hfall _ => ⟨fun h => (by cases h), hfall⟩
    have hlocal (hnested : nested = true) : Runs final mode nested (do
        let id ← declareName name location .initialized
        let flag ← isGlobal id
        let clauses ← declaredBody id (functionBody fun flow => checkClauses flow clauses [])
        return Stmt.function location ⟨name, isProc, clauses⟩ ⟨some id, flag⟩)
        fun part defined exits => part.Timely final.readiness.May defined exits := by
      subst hnested
      refine (serves_declareFunction haccepted name location (hclauses true) fun id flag clauses =>
        Stmt.function location ⟨name, isProc, clauses⟩ ⟨some id, flag⟩).falls fun stmt _ _ h hfall => ?_
      obtain ⟨id, flag, parts, rfl, hparts⟩ := h
      exact ⟨fun _ => hparts.whole, hfall⟩
    have hnested (hnew : ∀ id, resolution ≠ ⟨some id, true⟩) : nested = true := by
      cases nested with
      | true => rfl
      | false =>
        obtain ⟨id, hid⟩ := hplaced rfl
        exact (hnew id hid).elim
    obtain ⟨binding, flag⟩ := resolution
    cases binding with
    | none => exact hlocal (hnested fun _ h => by cases h)
    | some id =>
      cases flag with
      | true => exact hglobal id
      | false => exact hlocal (hnested fun _ h => by cases h)
termination_by structural stmt

theorem runs_stmts (haccepted : final.Accepted) (mode : Option BindingId) (nested : Bool) (stmts done : List Stmt)
    (hplaced : nested = false → ∀ stmt ∈ stmts, stmt.Placed) :
    Runs final mode nested (checkStmts stmts done) fun result defined exits =>
      ∀ parts, result = done.reverse ++ parts → stmtsTimely final.readiness.May parts defined exits := by
  cases stmts with
  | nil =>
    refine runs_pure fun _ _ hfall parts hparts => ?_
    rw [List.self_eq_append_right.mp hparts]
    exact hfall
  | cons stmt rest =>
    exact runs_followed (runs_stmt haccepted mode nested stmt fun h => hplaced h _ (List.mem_cons_self ..))
      fun part => runs_stmts haccepted mode nested rest (part :: done) fun h other hother =>
        hplaced h other (List.mem_cons_of_mem _ hother)
termination_by structural stmts

theorem chooses_arms (haccepted : final.Accepted) (mode : Option BindingId) (nested : Bool) (outer : Nat)
    (arms : List Arm) (test after : FlowState) (done : List Arm) :
    Chooses final mode nested test after (checkArms outer arms test after done) fun result defined exits =>
      Adds (armsTimely final.readiness.May · defined exits) done result := by
  cases arms with
  | nil => exact chooses_done fun _ _ => adds_done trivial
  | cons arm rest =>
    obtain ⟨location, pattern, guard, body⟩ := arm
    have harm (bound : Check (Option Pattern)) (hbound : Serves final mode true bound fun _ _ => True) :=
      chooses_followed outer test after location hbound (serves_expr haccepted mode true guard)
        (runs_stmts haccepted mode true body [] fun h => by cases h) fun test after done =>
          chooses_arms haccepted mode nested outer rest test after done
    cases pattern with
    | none =>
      rw [checkArms]
      exact harm (pure none) (serves_pure fun _ => trivial) done
    | some pattern =>
      rw [checkArms]
      exact harm (some <$> declarePattern pattern) ((serves_declarePattern haccepted pattern).after
        fun _ => serves_pure fun _ => trivial) done
termination_by structural arms

theorem serves_function (haccepted : final.Accepted) (mode : Option BindingId) (nested : Bool) (function : Function) :
    Serves final mode nested (checkFunction function) fun part defined =>
      part.Timely final.readiness.May defined := by
  obtain ⟨name, isProc, clauses⟩ := function
  refine (serves_functionBody fun flow => servesBody_clauses haccepted mode flow clauses []).bind fun parts => ?_
  exact serves_pure fun _ h => Adds.whole h
termination_by structural function

theorem servesBody_clauses (haccepted : final.Accepted) (mode : Option BindingId) (flow : FlowState)
    (clauses done : List Clause) :
    ServesBody final mode flow (checkClauses flow clauses done) fun result defined =>
      Adds (clausesTimely final.readiness.May · defined) done result := by
  cases clauses with
  | nil => exact servesBody_done fun _ => adds_done trivial
  | cons clause rest =>
    obtain ⟨location, parameters, body⟩ := clause
    have hbody : Runs final mode true (checkStmts body []) fun parts defined exits => exits = .free →
        stmtsTimely final.readiness.May parts defined .free :=
      (runs_stmts haccepted mode true body [] fun h => by cases h).mono fun _ _ _ h hfree => hfree ▸ h _ rfl
    rw [checkClauses]
    refine servesBody_clause (serves_declareParameters haccepted parameters []) hbody fun bound part => ?_
    exact (servesBody_clauses haccepted mode flow rest (⟨location, bound, part⟩ :: done)).mono fun _ _ h hpart =>
      h.step fun _ hparts => ⟨hpart, hparts⟩
termination_by structural clauses

end

end Check

end OwnScript
