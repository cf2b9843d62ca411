import OwnScript.Proofs.Analysis.Agreement

/-!
Looking again at what an analysis has looked at. Every part echoes, but for functions that are declared in the
outermost scope without being statements of the program: an analysis declares those of the program first, and takes
others that it has marked as global for such. Where there are none of them, a second analysis of a program finds the
same as the first one.
-/

namespace OwnScript

/-- Whether a function is marked as declared before the program runs. -/
def Resolution.early : Resolution → Bool
  | ⟨some _, true⟩ => true
  | _ => false

theorem Resolution.eq_of_early {resolution : Resolution} (hearly : resolution.early = true) :
    ∃ id, resolution = ⟨some id, true⟩ := by
  obtain ⟨binding, flag⟩ := resolution
  cases binding with
  | none => cases hearly
  | some id =>
    cases flag with
    | true => exact ⟨id, rfl⟩
    | false => cases hearly

/-- Whether a statement declares a function in the scope around it that is not marked as declared. -/
def Stmt.loose : Stmt → Bool
  | .function _ _ resolution => !resolution.early
  | .ifElse _ _ yes no => yes.loose || no.loose
  | _ => false

namespace Check

open Analysis

variable {α β : Type} {a : Analysis}

section Kept

theorem keeps_checkArgument (extent : Extent) (argument : Expr) : Keeps (checkArgument extent argument) := by
  cases argument with
  | borrow location target exclusive =>
    exact (keeps_borrowPlace (keeps_checkPlace target) (keeps_checkExpr target)).bind fun _ => keeps_pure _
  | _ => exact keeps_checkExpr _

theorem keeps_inScope {body : Check α} (hbody : Keeps body) : Keeps (inScope body) :=
  hbody.scoped fun _ => keeps_pure _

theorem keeps_gatherPatterns (parameters : List Pattern) : Keeps (gather declarePattern parameters []) := by
  rw [← declareParameters_eq]
  exact keeps_declareParameters _ _

theorem keeps_clauseParts (clause : Clause) : Keeps (clauseParts clause) := by
  rw [clauseParts, ← checkStmts_eq]
  exact (keeps_gatherPatterns _).bind fun _ => (keeps_checkStmts _ _).bind fun _ => keeps_pure _

theorem keeps_checkClause (flow : FlowState) (clause : Clause) : Keeps (checkClause flow clause) :=
  (keeps_setFlow _).bind fun _ => (keeps_inScope (keeps_clauseParts clause)).bind fun _ => keeps_pure _

theorem keeps_declareArm (pattern : Option Pattern) : Keeps (declareArm pattern) := by
  cases pattern with
  | none => exact keeps_pure _
  | some pattern => exact (keeps_declarePattern pattern).bind fun _ => keeps_pure _

theorem keeps_armParts (outer : Nat) (arm : Arm) : Keeps (armParts outer arm) := by
  rw [armParts, ← checkStmts_eq]
  refine (keeps_declareArm _).bind fun _ => (keeps_checkExpr _).bind fun _ => keeps_getFlow fun _ => ?_
  exact (keeps_checkStmts _ _).bind fun _ => keeps_pure _

theorem keeps_checkArm (outer : Nat) (test : FlowState) (arm : Arm) : Keeps (checkArm outer test arm) :=
  (keeps_setFlow _).bind fun _ => (keeps_inScope (keeps_armParts outer arm)).bind fun _ =>
    keeps_getFlow fun _ => keeps_pure _

end Kept

section Patterns

mutual

theorem echo_pattern (pattern : Pattern) (a : Analysis) : Echo declarePattern pattern a := by
  cases pattern with
  | wildcard location => exact ⟨fun _ => agree_pure trivial, rfl⟩
  | literal location value => exact ⟨fun _ => agree_pure trivial, rfl⟩
  | bind location name binding => exact ⟨fun _ => (agree_refl (declareVariable location name)).free, rfl⟩
  | destructure location fields =>
    refine (echo_fieldPatterns fields a).form (Pattern.destructure location) fun fields => ?_
    rw [declarePattern, declareFields_eq]
termination_by structural pattern

theorem echo_fieldPatterns (fields : List (String × Pattern)) (a : Analysis) :
    Echo (fun fields => gather declareField fields []) fields a := by
  cases fields with
  | nil => exact echoes_nil (fun _ : Unit => declareField) () a
  | cons field rest =>
    obtain ⟨name, pattern⟩ := field
    exact ((echo_pattern pattern a).form (name, ·) fun _ => rfl).cons (echo_fieldPatterns rest _)
termination_by structural fields

end

theorem echo_parameters (parameters : List Pattern) (a : Analysis) :
    Echo (fun parameters => gather declarePattern parameters []) parameters a := by
  induction parameters generalizing a with
  | nil => exact echoes_nil (fun _ : Unit => declarePattern) () a
  | cons pattern rest ih => exact (echo_pattern pattern a).cons (ih _)

theorem echo_declareArm (pattern : Option Pattern) (a : Analysis) : Echo declareArm pattern a := by
  cases pattern with
  | none => exact ⟨fun _ => agree_pure trivial, rfl⟩
  | some pattern => exact (echo_pattern pattern a).form some fun _ => rfl

end Patterns

section Compounds

theorem agree_inScope {related : α → β → Prop} {body : Check α} {twin : Check β} (hbody : Agree related body twin) :
    Agree related (inScope body) (inScope twin) :=
  agree_after fun _ => hbody.bind fun _ _ h => agree_after fun _ => agree_pure h

theorem checkExpr_call (location : Location) (callee : Expr) (arguments : List Expr) :
    checkExpr (.call location callee arguments) = do
      let callee ← checkExpr callee
      let extent ← newExtent
      let arguments ← gather (checkArgument extent) arguments []
      releaseExtent extent
      return .call location callee arguments := by
  simp only [checkExpr, checkArguments_eq]

theorem echo_call (location : Location) {callee : Expr} {arguments : List Expr} (hcallee : Echo checkExpr callee a)
    (harguments : Echoes (fun extent arguments => gather (checkArgument extent) arguments [])
      (newExtent (checkExpr callee a).2).1 arguments (newExtent (checkExpr callee a).2).2) :
    Echo checkExpr (.call location callee arguments) a := by
  obtain ⟨b, hb⟩ : ∃ b, b = newExtent (checkExpr callee a).2 := ⟨_, rfl⟩
  rw [← hb] at harguments
  have hfst (callee' : Expr) (arguments : List Expr) (hcallee' : (checkExpr callee' a).2 = (checkExpr callee a).2) :
      (checkExpr (.call location callee' arguments) a).1 =
        .call location (checkExpr callee' a).1 (gather (checkArgument b.1) arguments [] b.2).1 := by
    rw [checkExpr_call, bind_run, hcallee', hb]
    rfl
  refine ⟨fun _ => ?_, ?_⟩
  · rw [hfst callee arguments rfl, checkExpr_call, checkExpr_call]
    refine (hcallee.effect ()).bind fun _ _ _ => agree_after fun extent => ?_
    exact (harguments.effect extent).bind fun _ _ _ => agree_after fun _ => agree_pure trivial
  · rw [hfst callee arguments rfl, hfst _ _ (hcallee.effect () a).1, hcallee.result]
    exact congrArg (Expr.call location _) harguments.result

theorem checkExpr_borrow_fst (location : Location) (target : Expr) (exclusive : Bool) (a : Analysis) :
    (checkExpr (.borrow location target exclusive) a).1 =
      .borrow location (lentTarget target (newExtent a).2) exclusive :=
  congrArg (Expr.borrow location · exclusive) (borrowPlace_fst ..)

theorem agree_borrow (location : Location) (exclusive : Bool) {again target : Expr} (hsame : SameTarget again target) :
    Agree Free (checkExpr (.borrow location again exclusive)) (checkExpr (.borrow location target exclusive)) :=
  agree_after fun _ => hsame.borrowPlace.bind fun _ _ _ => agree_after fun _ => agree_pure trivial

theorem echo_borrow (location : Location) (exclusive : Bool) {target : Expr}
    (hlent : SameTarget (lentTarget target (newExtent a).2) target ∧
      lentTarget (lentTarget target (newExtent a).2) (newExtent a).2 = lentTarget target (newExtent a).2) :
    Echo checkExpr (.borrow location target exclusive) a := by
  refine ⟨fun _ => ?_, ?_⟩
  · rw [checkExpr_borrow_fst]
    exact agree_borrow location exclusive hlent.1
  · rw [checkExpr_borrow_fst, checkExpr_borrow_fst, hlent.2]

theorem echoes_argument {extent : Extent} {argument : Expr} (hplain : argument.isBorrow = false)
    (hexpr : Echo checkExpr argument a) : Echoes checkArgument extent argument a := by
  have hrun {argument : Expr} (hplain : argument.isBorrow = false) (extent : Extent) :
      checkArgument extent argument = checkExpr argument := by
    cases argument with
    | borrow location target exclusive => cases hplain
    | _ => rfl
  have hagain : (checkExpr argument a).1.isBorrow = false := (isBorrow_checkExpr argument a).trans hplain
  refine ⟨fun other => ?_, ?_⟩
  · rw [hrun hplain, hrun hplain, hrun hagain]
    exact hexpr.effect ()
  · rw [hrun hplain, hrun hagain]
    exact hexpr.result

theorem echoes_lentArgument {extent : Extent} {location : Location} {target : Expr} {exclusive : Bool}
    (hlent : SameTarget (lentTarget target a) target ∧ lentTarget (lentTarget target a) a = lentTarget target a) :
    Echoes checkArgument extent (.borrow location target exclusive) a := by
  obtain ⟨hsame, hresult⟩ := hlent
  have hfst (target : Expr) : (checkArgument extent (.borrow location target exclusive) a).1 =
      .borrow location (lentTarget target a) exclusive :=
    congrArg (Expr.borrow location · exclusive) (borrowPlace_fst ..)
  refine ⟨fun other => ?_, ?_⟩
  · rw [hfst]
    exact hsame.borrowPlace.ends
  · rw [hfst, hfst, hresult]

/-- A look at the body of a function. -/
def bodyOf (clauses : List Clause) : Check (List Clause) :=
  functionBody fun flow => checkClauses flow clauses []

theorem echo_bodyOf {clauses : List Clause}
    (hclauses : Echoes (fun flow clauses => gather (checkClause flow) clauses []) a.flow clauses
      { a with loops := [], functionDepth := a.functionDepth + 1 }) : Echo bodyOf clauses a := by
  have hrun (clauses : List Clause) :
      bodyOf clauses = functionBody fun flow => gather (checkClause flow) clauses [] := by
    simp only [bodyOf, checkClauses_eq]
  have hfst (clauses : List Clause) : (bodyOf clauses a).1 =
      (gather (checkClause a.flow) clauses [] { a with loops := [], functionDepth := a.functionDepth + 1 }).1 := by
    rw [hrun]
    rfl
  refine ⟨fun _ => ?_, ?_⟩
  · rw [hfst, hrun, hrun]
    exact agree_functionBody hclauses.effect
  · rw [hfst, hfst]
    exact hclauses.result

theorem echoes_declaredBody (id : BindingId) {clauses : List Clause} (ha : a.Tiered)
    (hbody : ∀ b : Analysis, b.Tiered → Echo bodyOf clauses b) :
    Echoes (fun id clauses => declaredBody id (bodyOf clauses)) id clauses a := by
  have hfst : ∃ b : Analysis, b.Tiered ∧ ∀ clauses, (declaredBody id (bodyOf clauses) a).1 = (bodyOf clauses b).1 := by
    by_cases hhoisted : (a.symbols[id]?.map (·.hoisted)).getD false = true
    · refine ⟨{ a with currentFunction := some id, summaries := a.summaries.insert id (a.summaries.of id) }, ha,
        fun clauses => ?_⟩
      rw [declaredBody_snd, if_pos hhoisted]
    · refine ⟨a, ha, fun clauses => ?_⟩
      rw [declaredBody_snd, if_neg hhoisted]
  obtain ⟨b, hb, hfst⟩ := hfst
  refine ⟨fun other => ?_, ?_⟩
  · rw [hfst]
    exact agree_declaredBody other ((hbody b hb).effect ())
  · rw [hfst, hfst]
    exact (hbody b hb).result

theorem echoes_clause {flow : FlowState} {clause : Clause}
    (hbody : ∀ b : Analysis, b = (enterScope (setFlow { flow with reachable := true } a).2).2 →
      Echo (fun body => gather checkStmt body []) clause.body (gather declarePattern clause.parameters [] b).2) :
    Echoes checkClause flow clause a := by
  obtain ⟨b, hb⟩ : ∃ b, b = (enterScope (setFlow { flow with reachable := true } a).2).2 := ⟨_, rfl⟩
  have hbody := hbody b hb
  have hparameters := echo_parameters clause.parameters b
  have hfst (clause : Clause) : (checkClause flow clause a).1 = ⟨clause.location,
      (gather declarePattern clause.parameters [] b).1,
      (gather checkStmt clause.body [] (gather declarePattern clause.parameters [] b).2).1⟩ := by
    rw [hb]
    rfl
  refine ⟨fun other => ?_, ?_⟩
  · rw [hfst]
    have hparts : Agree Free (clauseParts ⟨clause.location, (gather declarePattern clause.parameters [] b).1,
        (gather checkStmt clause.body [] (gather declarePattern clause.parameters [] b).2).1⟩) (clauseParts clause) :=
      (hparameters.effect ()).bind fun _ _ _ => (hbody.effect ()).ends
    exact agree_after fun _ => (agree_inScope hparts).ends
  · rw [hfst, hfst]
    dsimp only
    rw [hparameters.result, (hparameters.effect () b).1, hbody.result]

theorem agree_checkArm {arm : Arm} {outer : Nat} {test : FlowState}
    (hparts : ∀ b : Analysis, b = (enterScope (setFlow test a).2).2 →
      Echo checkExpr arm.guard (declareArm arm.pattern b).2 ∧
      Echo (fun body => gather checkStmt body []) arm.body (checkExpr arm.guard (declareArm arm.pattern b).2).2) :
    (∀ count flow, Agree SameRest (checkArm count flow (checkArm outer test arm a).1.1)
      (checkArm count flow arm)) ∧
    (checkArm outer test (checkArm outer test arm a).1.1 a).1 = (checkArm outer test arm a).1 := by
  obtain ⟨b, hb⟩ : ∃ b, b = (enterScope (setFlow test a).2).2 := ⟨_, rfl⟩
  obtain ⟨hguard, hbody⟩ := hparts b hb
  have hpattern := echo_declareArm arm.pattern b
  have hfst (arm : Arm) : (checkArm outer test arm a).1.1 = ⟨arm.location, (declareArm arm.pattern b).1,
      (checkExpr arm.guard (declareArm arm.pattern b).2).1,
      (gather checkStmt arm.body [] (checkExpr arm.guard (declareArm arm.pattern b).2).2).1⟩ := by
    rw [hb]
    rfl
  have hagree (count : Nat) (flow : FlowState) : Agree SameRest
      (checkArm count flow (checkArm outer test arm a).1.1) (checkArm count flow arm) := by
    rw [hfst]
    have hinside : Agree (fun found found' => found.2.2.1 = found'.2.2.1)
        (armParts count ⟨arm.location, (declareArm arm.pattern b).1,
          (checkExpr arm.guard (declareArm arm.pattern b).2).1,
          (gather checkStmt arm.body [] (checkExpr arm.guard (declareArm arm.pattern b).2).2).1⟩)
        (armParts count arm) := by
      refine (hpattern.effect ()).bind fun _ _ _ => (hguard.effect ()).bind fun _ _ _ => agree_after fun failed => ?_
      exact (hbody.effect ()).bind fun _ _ _ => agree_pure rfl
    refine agree_after fun _ => (agree_inScope hinside).bind fun found found' h => agree_after fun ended => ?_
    exact agree_pure (Prod.ext h rfl)
  refine ⟨hagree, Prod.ext ?_ (hagree outer test a).2⟩
  rw [hfst, hfst]
  dsimp only
  rw [hpattern.result, (hpattern.effect () b).1, hguard.result, (hguard.effect () _).1, hbody.result]

/-- Arms that have been looked at. -/
structure ArmsEcho (outer : Nat) (arms : List Arm) (test after : FlowState) (a : Analysis) : Prop where
  effect : ∀ count flow ended, Agree SameRest
    (checkArms count (checkArms outer arms test after [] a).1.1 flow ended []) (checkArms count arms flow ended [])
  result : (checkArms outer (checkArms outer arms test after [] a).1.1 test after [] a).1 =
    (checkArms outer arms test after [] a).1

theorem ArmsEcho.cons {arm : Arm} {rest : List Arm} {outer : Nat} {test after : FlowState}
    (harm : (∀ count flow, Agree SameRest
        (checkArm count flow (checkArm outer test arm a).1.1) (checkArm count flow arm)) ∧
      (checkArm outer test (checkArm outer test arm a).1.1 a).1 = (checkArm outer test arm a).1)
    (hrest : ArmsEcho outer rest (checkArm outer test arm a).1.2.1 (after.meet (checkArm outer test arm a).1.2.2)
      (checkArm outer test arm a).2) : ArmsEcho outer (arm :: rest) test after a := by
  obtain ⟨hagree, hresult⟩ := harm
  have hcons (count : Nat) (arm : Arm) (rest : List Arm) (flow ended : FlowState) (c : Analysis) :
      checkArms count (arm :: rest) flow ended [] c =
        let found := checkArm count flow arm c
        let last := checkArms count rest found.1.2.1 (ended.meet found.1.2.2) [] found.2
        ((found.1.1 :: last.1.1, last.1.2), last.2) := by
    rw [checkArms_cons, bind_run, checkArms_done]
    rfl
  refine ⟨fun count flow ended c => ?_, ?_⟩
  · obtain ⟨hafter, hpaths⟩ := hagree count flow c
    rw [hcons, hcons, hcons]
    dsimp only
    rw [hafter, hpaths]
    exact hrest.effect count _ _ _
  · rw [hcons, hcons]
    dsimp only
    rw [hresult, (hagree outer test a).1]
    have hlast := hrest.result
    rw [hlast]

end Compounds

section Statements

variable {location : Location} {name : String} {resolution : Resolution}

/-- A declaration whose variable may hold a borrow. -/
def declareHeld (name : String) (location : Location) (initial : InitState) (borrow : Option Nat) :
    Check Resolution := do
  let id ← declareName name location initial
  match borrow with
  | some borrow => holdBorrow borrow id
  | none => pure ()
  return { binding := some id, isGlobal := ← isGlobal id }

theorem checkStmt_declare {initial : Expr} (hplain : initial.isBorrow = false) :
    checkStmt (.declare location name initial resolution) = do
      let initial ← checkExpr initial
      let resolution ← declareHeld name location (if initial.isAbsent then .uninitialized else .initialized) none
      return .declare location name initial resolution := by
  cases initial with
  | borrow place target exclusive => cases hplain
  | _ => rfl

theorem echo_declare {initial : Expr} (hplain : initial.isBorrow = false) (hinitial : Echo checkExpr initial a) :
    Echo checkStmt (.declare location name initial resolution) a := by
  have hagain : (checkExpr initial a).1.isBorrow = false := (isBorrow_checkExpr initial a).trans hplain
  have hagree : Agree (fun part part' => part.isAbsent = part'.isAbsent) (checkExpr (checkExpr initial a).1)
      (checkExpr initial) := by
    refine fun c => ⟨(hinitial.effect () c).1, ?_⟩
    dsimp only
    rw [isAbsent_checkExpr, isAbsent_checkExpr, isAbsent_checkExpr]
  have hfst {initial : Expr} (hplain : initial.isBorrow = false) (resolution : Resolution) :
      (checkStmt (.declare location name initial resolution) a).1 = .declare location name (checkExpr initial a).1
        (declareHeld name location (if (checkExpr initial a).1.isAbsent then .uninitialized else .initialized) none
          (checkExpr initial a).2).1 := by
    rw [checkStmt_declare hplain]
    rfl
  refine ⟨fun _ => ?_, ?_⟩
  · rw [hfst hplain, checkStmt_declare hagain, checkStmt_declare hplain]
    refine hagree.bind fun part part' h => ?_
    rw [h]
    exact (agree_refl _).ends
  · rw [hfst hplain, hfst hagain, hinitial.result, (hinitial.effect () a).1]

theorem checkStmt_declareBorrow (place : Location) (target : Expr) (exclusive : Bool) :
    checkStmt (.declare location name (.borrow place target exclusive) resolution) = do
      let extent := (← get).scope.extent
      let found ← borrowPlace place exclusive extent (checkPlace target) (checkExpr target)
      let resolution ← declareHeld name location .initialized found.2
      return .declare location name (.borrow place found.1 exclusive) resolution := by
  funext a
  rw [checkStmt, get_bind_run, get_bind_run, bind_run, bind_run]
  generalize borrowPlace place exclusive a.scope.extent (checkPlace target) (checkExpr target) a = found
  obtain ⟨⟨part, borrow⟩, b⟩ := found
  cases borrow <;> rfl

theorem echo_declareBorrow (place : Location) (exclusive : Bool) {target : Expr}
    (hlent : SameTarget (lentTarget target a) target ∧ lentTarget (lentTarget target a) a = lentTarget target a) :
    Echo checkStmt (.declare location name (.borrow place target exclusive) resolution) a := by
  obtain ⟨hsame, hagain⟩ := hlent
  have hfst (target : Expr) (resolution : Resolution) :
      (checkStmt (.declare location name (.borrow place target exclusive) resolution) a).1 =
        .declare location name (.borrow place (lentTarget target a) exclusive)
          (declareHeld name location .initialized
            (borrowPlace place exclusive a.scope.extent (checkPlace target) (checkExpr target) a).1.2
            (borrowPlace place exclusive a.scope.extent (checkPlace target) (checkExpr target) a).2).1 := by
    rw [checkStmt_declareBorrow, ← borrowPlace_fst target place exclusive a.scope.extent a]
    rfl
  refine ⟨fun _ => ?_, ?_⟩
  · rw [hfst, checkStmt_declareBorrow, checkStmt_declareBorrow]
    refine agree_after fun state => hsame.borrowPlace.bind fun found found' h => ?_
    rw [h]
    exact (agree_refl _).ends
  · have hborrow : Agree SameRest
        (borrowPlace place exclusive a.scope.extent (checkPlace (lentTarget target a))
          (checkExpr (lentTarget target a)))
        (borrowPlace place exclusive a.scope.extent (checkPlace target) (checkExpr target)) := hsame.borrowPlace
    rw [hfst, hfst, hagain, (hborrow a).1, (hborrow a).2]

theorem checkStmt_assign_none {value : Expr} (hfound : a.found name = none) :
    checkStmt (.assign location name value resolution) a =
      (.assign location name (checkExpr value a).1 resolution,
        (report .undefinedName s!"assignment to undeclared name '{name}'" location name (checkExpr value a).2).2) := by
  rw [checkStmt, lookup_bind_run, hfound]
  rfl

theorem checkStmt_assign_some {value : Expr} {id : BindingId} (hfound : a.found name = some id)
    (hplain : value.isBorrow = false) :
    checkStmt (.assign location name value resolution) a =
      (.assign location name (checkExpr value a).1 { binding := some id, isGlobal := (isGlobal id a).1 },
        (assignBinding id name location (releaseHeldBy id (checkExpr value a).2).2).2) := by
  rw [checkStmt, lookup_bind_run, hfound]
  cases value with
  | borrow place target exclusive => cases hplain
  | _ => rfl

theorem checkStmt_assignBorrow_some {id : BindingId} (hfound : a.found name = some id) (place : Location)
    (target : Expr) (exclusive : Bool) :
    checkStmt (.assign location name (.borrow place target exclusive) resolution) a =
      (let found := borrowPlace place exclusive ((a.symbols[id]?.map (·.extent)).getD 0) (checkPlace target)
        (checkExpr target) (releaseHeldBy id a).2
      (.assign location name (.borrow place found.1.1 exclusive) { binding := some id, isGlobal := (isGlobal id a).1 },
        ((do
          assignBinding id name location
          if let some borrow := found.1.2 then holdBorrow borrow id) found.2).2)) := by
  rw [checkStmt, lookup_bind_run, hfound]
  dsimp only
  rw [bind_run, bind_run, get_bind_run, bind_run]
  have hglobal : (isGlobal id a).2 = a := rfl
  have hreleased : (releaseHeldBy id a).2.symbols = a.symbols := rfl
  rw [hglobal, hreleased]
  generalize borrowPlace place exclusive ((a.symbols[id]?.map (·.extent)).getD 0) (checkPlace target) (checkExpr target)
    (releaseHeldBy id a).2 = found
  obtain ⟨⟨part, borrow⟩, b⟩ := found
  cases borrow <;> rfl

theorem echo_assign {value : Expr} (hplain : value.isBorrow = false) (hvalue : Echo checkExpr value a) :
    Echo checkStmt (.assign location name value resolution) a := by
  have hagain : (checkExpr value a).1.isBorrow = false := (isBorrow_checkExpr value a).trans hplain
  have hagree (other : Resolution) : Agree Free (checkStmt (.assign location name (checkExpr value a).1 other))
      (checkStmt (.assign location name value resolution)) := by
    refine fun c => ⟨?_, trivial⟩
    cases hfound : c.found name with
    | none => rw [checkStmt_assign_none hfound, checkStmt_assign_none hfound, (hvalue.effect () c).1]
    | some id =>
      rw [checkStmt_assign_some hfound hagain, checkStmt_assign_some hfound hplain, (hvalue.effect () c).1]
  cases hfound : a.found name with
  | none =>
    refine ⟨fun _ => ?_, ?_⟩
    · rw [checkStmt_assign_none hfound]
      exact hagree _
    · rw [checkStmt_assign_none hfound, checkStmt_assign_none hfound, hvalue.result]
  | some id =>
    refine ⟨fun _ => ?_, ?_⟩
    · rw [checkStmt_assign_some hfound hplain]
      exact hagree _
    · rw [checkStmt_assign_some hfound hplain, checkStmt_assign_some hfound hagain, hvalue.result]

theorem agree_assignBorrow {again target : Expr} (hsame : SameTarget again target) (place : Location) (exclusive : Bool)
    (other : Resolution) : Agree Free (checkStmt (.assign location name (.borrow place again exclusive) other))
      (checkStmt (.assign location name (.borrow place target exclusive) resolution)) := by
  refine fun c => ⟨?_, trivial⟩
  cases hfound : c.found name with
  | none =>
    rw [checkStmt_assign_none hfound, checkStmt_assign_none hfound, (agree_borrow place exclusive hsame c).1]
  | some id =>
    have hborrow : Agree SameRest
        (borrowPlace place exclusive ((c.symbols[id]?.map (·.extent)).getD 0) (checkPlace again) (checkExpr again))
        (borrowPlace place exclusive ((c.symbols[id]?.map (·.extent)).getD 0) (checkPlace target) (checkExpr target)) :=
      hsame.borrowPlace
    obtain ⟨hafter, hplace⟩ := hborrow (releaseHeldBy id c).2
    rw [checkStmt_assignBorrow_some hfound, checkStmt_assignBorrow_some hfound]
    dsimp only
    rw [hafter, hplace]

theorem echo_assignBorrow (place : Location) (exclusive : Bool) {target : Expr} (ha : a.Tiered)
    (hlent : ∀ b : Analysis, b.Tiered →
      SameTarget (lentTarget target b) target ∧ lentTarget (lentTarget target b) b = lentTarget target b) :
    Echo checkStmt (.assign location name (.borrow place target exclusive) resolution) a := by
  cases hfound : a.found name with
  | none =>
    obtain ⟨hsame, hagain⟩ := hlent (newExtent a).2 ((keeps_newExtent a).tiered ha)
    refine ⟨fun _ => ?_, ?_⟩
    · rw [checkStmt_assign_none hfound, checkExpr_borrow_fst]
      exact agree_assignBorrow hsame place exclusive _
    · rw [checkStmt_assign_none hfound, checkExpr_borrow_fst, checkStmt_assign_none hfound, checkExpr_borrow_fst,
        hagain]
  | some id =>
    obtain ⟨hsame, hagain⟩ := hlent (releaseHeldBy id a).2 ((keeps_releaseHeldBy id a).tiered ha)
    have hfst (target : Expr) (resolution : Resolution) :
        (checkStmt (.assign location name (.borrow place target exclusive) resolution) a).1 =
          .assign location name (.borrow place (lentTarget target (releaseHeldBy id a).2) exclusive)
            { binding := some id, isGlobal := (isGlobal id a).1 } := by
      rw [checkStmt_assignBorrow_some hfound]
      dsimp only
      rw [borrowPlace_fst]
    refine ⟨fun _ => ?_, ?_⟩
    · rw [hfst]
      exact agree_assignBorrow hsame place exclusive _
    · rw [hfst, hfst, hagain]

theorem echo_while {condition : Expr} {body : Stmt} (ha : a.Tiered)
    (hcondition : ∀ b : Analysis, b.Tiered → Echo checkExpr condition b)
    (hbody : ∀ b : Analysis, b.Tiered → b.outerScopes ≠ [] → Echo checkStmt body b) :
    Echo checkStmt (.whileLoop location condition body) a := by
  obtain ⟨b, hb⟩ : ∃ b, b = reporting (whileTurn condition body) a := ⟨_, rfl⟩
  obtain ⟨htiered, hinner⟩ := tiered_reporting (keeps_whileTurn condition body) ha
  rw [← hb] at htiered hinner
  have hfirst := hcondition b htiered
  have hmiddle := keeps_checkExpr condition b
  have hsecond := hbody (checkExpr condition b).2 (hmiddle.tiered htiered) (by rwa [hmiddle.outerScopes])
  have hturn : Agree SameRest
      (whileTurn (checkExpr condition b).1 (checkStmt body (checkExpr condition b).2).1) (whileTurn condition body) :=
    (hfirst.effect ()).bind fun _ _ _ => agree_after fun exit => (hsecond.effect ()).bind fun _ _ _ => agree_pure rfl
  have hfst (condition : Expr) (body : Stmt) : (checkStmt (.whileLoop location condition body) a).1 =
      .whileLoop location (checkExpr condition (reporting (whileTurn condition body) a)).1
        (checkStmt body (checkExpr condition (reporting (whileTurn condition body) a)).2).1 := by
    change Stmt.whileLoop location (analyzeLoop (whileTurn condition body) a).1.1
      (analyzeLoop (whileTurn condition body) a).1.2 = _
    rw [analyzeLoop_fst]
    rfl
  refine ⟨fun _ => ?_, ?_⟩
  · rw [hfst, ← hb]
    exact (agree_analyzeLoop hturn).ends
  · rw [hfst condition body, ← hb, hfst, reporting_eq hturn, ← hb, hfirst.result, (hfirst.effect () b).1,
      hsecond.result]

theorem echo_for {counter : String} {binding : Option BindingId} {first bound : Expr} {body : Stmt} (ha : a.Tiered)
    (hfirst : Echo checkExpr first a) (hbound : Echo checkExpr bound (checkExpr first a).2)
    (hbody : ∀ b : Analysis, b.Tiered → b.outerScopes ≠ [] → Echo checkStmt body b) :
    Echo checkStmt (.forLoop location counter binding first bound body) a := by
  have hstart := ((keeps_checkExpr first).bind fun _ => keeps_checkExpr bound) a
  obtain ⟨start, hstart'⟩ : ∃ start, start = (checkExpr bound (checkExpr first a).2).2 := ⟨_, rfl⟩
  obtain ⟨b, hb⟩ : ∃ b, b = reporting (forTurn location counter body) start := ⟨_, rfl⟩
  obtain ⟨htiered, hinner⟩ := tiered_reporting (keeps_forTurn location counter body) (hstart' ▸ hstart.tiered ha)
  rw [← hb] at htiered hinner
  have hdeclared := (keeps_declareName counter location .initialized) (enterScope b).2
  obtain ⟨c, hc⟩ : ∃ c, c = (declareName counter location .initialized (enterScope b).2).2 := ⟨_, rfl⟩
  have hlook := hbody c (hc ▸ hdeclared.tiered htiered.enterScope) (by rw [hc, hdeclared.outerScopes]; exact nofun)
  have hturn : Agree SameRest (forTurn location counter (checkStmt body c).1)
      (forTurn location counter body) :=
    agree_after fun exit => agree_after fun _ => agree_after fun id => (hlook.effect ()).bind fun _ _ _ =>
      agree_after fun _ => agree_pure rfl
  have hfst (binding : Option BindingId) (first bound : Expr) (body : Stmt) :
      (checkStmt (.forLoop location counter binding first bound body) a).1 =
        .forLoop location counter
          (some (analyzeLoop (forTurn location counter body) (checkExpr bound (checkExpr first a).2).2).1.1)
          (checkExpr first a).1 (checkExpr bound (checkExpr first a).2).1
          (analyzeLoop (forTurn location counter body) (checkExpr bound (checkExpr first a).2).2).1.2 := rfl
  have hrun (body : Stmt) : (forTurn location counter body b).1.1 =
      ((declareName counter location .initialized (enterScope b).2).1, (checkStmt body c).1) := by
    rw [hc]
    rfl
  refine ⟨fun _ => ?_, ?_⟩
  · rw [hfst, analyzeLoop_fst, ← hstart', ← hb, hrun]
    refine (hfirst.effect ()).bind fun _ _ _ => (hbound.effect ()).bind fun _ _ _ => ?_
    exact (agree_analyzeLoop hturn).ends
  · rw [hfst binding first bound body, analyzeLoop_fst, ← hstart', ← hb, hrun]
    dsimp only
    rw [hfst, hfirst.result, (hfirst.effect () a).1, hbound.result, (hbound.effect () _).1, ← hstart', analyzeLoop_fst,
      reporting_eq hturn, ← hb, hrun, hlook.result]

theorem echo_forever {body : Stmt} (ha : a.Tiered)
    (hbody : ∀ b : Analysis, b.Tiered → b.outerScopes ≠ [] → Echo checkStmt body b) :
    Echo checkStmt (.forever location body) a := by
  obtain ⟨b, hb⟩ : ∃ b, b = reporting (foreverTurn body) a := ⟨_, rfl⟩
  obtain ⟨htiered, hinner⟩ := tiered_reporting (keeps_foreverTurn body) ha
  rw [← hb] at htiered hinner
  have hlook := hbody b htiered hinner
  have hturn : Agree SameRest (foreverTurn (checkStmt body b).1) (foreverTurn body) :=
    (hlook.effect ()).bind fun _ _ _ => agree_pure rfl
  have hfst (body : Stmt) : (checkStmt (.forever location body) a).1 =
      .forever location (checkStmt body (reporting (foreverTurn body) a)).1 := by
    change Stmt.forever location (analyzeLoop (foreverTurn body) a).1 = _
    rw [analyzeLoop_fst]
    rfl
  refine ⟨fun _ => ?_, ?_⟩
  · rw [hfst, ← hb]
    exact (agree_analyzeLoop hturn).ends
  · rw [hfst body, ← hb, hfst, reporting_eq hturn, ← hb, hlook.result]

/-- Giving up a variable: which one does not depend on what was written on the name before. -/
theorem echo_disown : Echo checkStmt (.disown location name resolution) a := by
  have hagree (other : Resolution) : Agree Free (checkStmt (.disown location name other))
      (checkStmt (.disown location name resolution)) := by
    refine agree_after fun target => ?_
    cases target with
    | none => exact agree_after fun _ => agree_pure trivial
    | some id => exact agree_after fun _ => agree_after fun _ => agree_pure trivial
  have hfst (resolution : Resolution) : (checkStmt (.disown location name resolution) a).1 =
      .disown location name
        ((a.found name).elim resolution fun id => { binding := some id, isGlobal := (isGlobal id a).1 }) := by
    rw [checkStmt, lookup_bind_run]
    cases a.found name <;> rfl
  refine ⟨fun _ => ?_, ?_⟩
  · rw [hfst]
    exact hagree _
  · rw [hfst, hfst]
    cases a.found name <;> rfl

theorem checkStmt_function_early (id : BindingId) (isProc : Bool) (clauses : List Clause) :
    checkStmt (.function location ⟨name, isProc, clauses⟩ ⟨some id, true⟩) =
      declaredBody id (bodyOf clauses) >>= fun clauses =>
        pure (.function location ⟨name, isProc, clauses⟩ ⟨some id, true⟩) :=
  rfl

theorem checkStmt_function_late (hlate : resolution.early = false) (isProc : Bool) (clauses : List Clause) :
    checkStmt (.function location ⟨name, isProc, clauses⟩ resolution) = do
      let id ← declareName name location .initialized
      let isGlobal ← isGlobal id
      let clauses ← declaredBody id (bodyOf clauses)
      return .function location ⟨name, isProc, clauses⟩ { binding := some id, isGlobal } := by
  obtain ⟨binding, flag⟩ := resolution
  cases binding with
  | none => rfl
  | some id =>
    cases flag with
    | true => cases hlate
    | false => rfl

/-- A function that is marked as declared stays marked. -/
theorem echo_function_early (id : BindingId) (isProc : Bool) {clauses : List Clause} (ha : a.Tiered)
    (hbody : ∀ b : Analysis, b.Tiered → Echo bodyOf clauses b) :
    Echo checkStmt (.function location ⟨name, isProc, clauses⟩ ⟨some id, true⟩) a := by
  have hdeclared := echoes_declaredBody id ha hbody
  have hfst (clauses : List Clause) : (checkStmt (.function location ⟨name, isProc, clauses⟩ ⟨some id, true⟩) a).1 =
      .function location ⟨name, isProc, (declaredBody id (bodyOf clauses) a).1⟩ ⟨some id, true⟩ := rfl
  refine ⟨fun _ => ?_, ?_⟩
  · rw [hfst, checkStmt_function_early, checkStmt_function_early]
    exact (hdeclared.effect id).ends
  · rw [hfst, hfst]
    exact congrArg (fun clauses => Stmt.function location ⟨name, isProc, clauses⟩ ⟨some id, true⟩) hdeclared.result

/-- In a scope with others around it, a declared name is not global. -/
theorem isGlobal_declareName (ha : a.Tiered) (hinner : a.outerScopes ≠ []) (initial : InitState) :
    (isGlobal (declareName name location initial a).1 (declareName name location initial a).2).1 = false := by
  have hkeeps := keeps_declareName name location initial a
  obtain ⟨symbol, hsymbol, hlocal⟩ := tiered_iff.mp (hkeeps.tiered ha) (hkeeps.outerScopes ▸ hinner) _
    (List.mem_cons_self ..) _ _ (names_declareName name location initial a)
  generalize declareName name location initial a = declared at hsymbol
  change (declared.2.symbols[declared.1]?.map (·.isGlobal)).getD false = false
  rw [hsymbol]
  exact hlocal

/-- A function in a scope with others around it is declared in every look. -/
theorem echo_function_late (hlate : resolution.early = false) (isProc : Bool) {clauses : List Clause} (ha : a.Tiered)
    (hinner : a.outerScopes ≠ []) (hbody : ∀ b : Analysis, b.Tiered → Echo bodyOf clauses b) :
    Echo checkStmt (.function location ⟨name, isProc, clauses⟩ resolution) a := by
  obtain ⟨b, hb⟩ : ∃ b, b = (declareName name location .initialized a).2 := ⟨_, rfl⟩
  obtain ⟨id, hid⟩ : ∃ id, id = (declareName name location .initialized a).1 := ⟨_, rfl⟩
  have hlocal := @isGlobal_declareName a location name ha hinner .initialized
  rw [← hb, ← hid] at hlocal
  have hdeclared := echoes_declaredBody id (hb ▸ (keeps_declareName name location .initialized a).tiered ha) hbody
  have hfst {resolution : Resolution} (hlate : resolution.early = false) (clauses : List Clause) :
      (checkStmt (.function location ⟨name, isProc, clauses⟩ resolution) a).1 =
        .function location ⟨name, isProc, (declaredBody id (bodyOf clauses) b).1⟩ ⟨some id, false⟩ := by
    rw [checkStmt_function_late hlate, bind_run, bind_run, ← hb, ← hid, hlocal]
    rfl
  refine ⟨fun _ => ?_, ?_⟩
  · rw [hfst hlate, checkStmt_function_late hlate, checkStmt_function_late rfl]
    exact agree_after fun other => agree_after fun _ => (hdeclared.effect other).ends
  · rw [hfst hlate, hfst rfl]
    exact congrArg (fun clauses => Stmt.function location ⟨name, isProc, clauses⟩ ⟨some id, false⟩) hdeclared.result

/-- The right operand of a logical operator: it may not run. -/
def checkOptional (expr : Expr) : Check Expr := do
  let before ← getFlow
  let expr ← checkExpr expr
  setFlow (before.meet (← getFlow))
  return expr

theorem echo_optional {expr : Expr} (hexpr : Echo checkExpr expr a) : Echo checkOptional expr a where
  effect _ := agree_after fun _ => (hexpr.effect ()).bind fun _ _ _ => agree_after fun _ => agree_after fun _ =>
    agree_pure trivial
  result := hexpr.result

/-- The branches of an if: each starts on the path to both. -/
def checkBranches (branches : Stmt × Stmt) : Check (Stmt × Stmt) := do
  let base ← getFlow
  let yes ← checkStmt branches.1
  let afterYes ← getFlow
  setFlow base
  let no ← checkStmt branches.2
  setFlow (afterYes.meet (← getFlow))
  return (yes, no)

theorem echo_branches {yes no : Stmt} (hyes : Echo checkStmt yes a)
    (hno : Echo checkStmt no (setFlow a.flow (checkStmt yes a).2).2) : Echo checkBranches (yes, no) a := by
  have hfst (yes no : Stmt) : (checkBranches (yes, no) a).1 =
      ((checkStmt yes a).1, (checkStmt no (setFlow a.flow (checkStmt yes a).2).2).1) := rfl
  refine ⟨fun _ => ?_, ?_⟩
  · refine agree_after fun _ => (hyes.effect ()).bind fun _ _ _ => agree_after fun _ => agree_after fun _ => ?_
    exact (hno.effect ()).bind fun _ _ _ => agree_after fun _ => agree_after fun _ => agree_pure trivial
  · rw [hfst yes no, hfst, hyes.result, (hyes.effect () a).1, hno.result]

/-- All the arms of a cond. Only they go on. -/
def checkAllArms (arms : List Arm) : Check (List Arm) := do
  let outer := (← get).symbols.size
  let found ← checkArms outer arms (← getFlow) .unreachable []
  setFlow found.2
  return found.1

theorem echo_allArms {arms : List Arm} (harms : ArmsEcho a.symbols.size arms a.flow .unreachable a) :
    Echo checkAllArms arms a := by
  refine ⟨fun _ => ?_, ?_⟩
  · refine agree_after fun _ => agree_after fun _ => (harms.effect _ _ _).bind fun found found' h => ?_
    rw [h]
    exact agree_after fun _ => agree_pure trivial
  · have hfst (arms : List Arm) :
        (checkAllArms arms a).1 = (checkArms a.symbols.size arms a.flow .unreachable [] a).1.1 := rfl
    rw [hfst arms, hfst, harms.result]

end Statements

/-! What has been looked at is looked at again with the same effect, form by form. -/

mutual

theorem echo_expr (expr : Expr) (a : Analysis) (ha : a.Tiered) : Echo checkExpr expr a := by
  cases expr with
  | absent => exact ⟨fun _ => agree_pure trivial, rfl⟩
  | literal location value => exact ⟨fun _ => agree_pure trivial, rfl⟩
  | name identifier => exact echo_name identifier a
  | unary location op operand => exact (echo_expr operand a ha).form (Expr.unary location op) fun _ => rfl
  | binary location op left right =>
    have hleft := echo_expr left a ha
    have hright := echo_expr right _ ((keeps_checkExpr left a).tiered ha)
    let form (parts : Expr × Expr) : Expr := .binary location op parts.1 parts.2
    cases hlogical : op.isLogical with
    | true =>
      refine (hleft.inTurn (echo_optional hright)).form form fun _ => ?_
      rw [checkExpr, hlogical]
      rfl
    | false =>
      refine (hleft.inTurn hright).form form fun _ => ?_
      rw [checkExpr, hlogical]
      rfl
  | call location callee arguments =>
    have hcallee := (keeps_checkExpr callee a).trans (keeps_newExtent _)
    exact echo_call location (echo_expr callee a ha) (echo_arguments _ arguments _ (hcallee.tiered ha))
  | field location object name => exact (echo_expr object a ha).form (Expr.field location · name) fun _ => rfl
  | index location object index =>
    have hobject := echo_expr object a ha
    have hindex := echo_expr index _ ((keeps_checkExpr object a).tiered ha)
    exact (hobject.inTurn hindex).form (fun parts => Expr.index location parts.1 parts.2) fun _ => rfl
  | record location fields =>
    refine (echo_values fields a ha).form (Expr.record location) fun _ => ?_
    rw [checkExpr, checkFields_eq]
  | array location items =>
    refine (echo_items items a ha).form (Expr.array location) fun _ => ?_
    rw [checkExpr, checkItems_eq]
  | lambda location function => exact (echo_function function a ha).form (Expr.lambda location) fun _ => rfl
  | borrow location target exclusive =>
    have hnext := (keeps_newExtent a).tiered ha
    exact echo_borrow location exclusive (sameTarget_lentTarget hnext (echo_place target _ hnext) (agree_place target)
      (echo_expr target))
  | move location target =>
    cases target with
    | none => exact ⟨fun _ => agree_pure trivial, rfl⟩
    | some identifier => exact echo_move location identifier a
  | deref location operand => exact (echo_expr operand a ha).form (Expr.deref location) fun _ => rfl
termination_by structural expr

theorem echo_place (expr : Expr) (a : Analysis) (ha : a.Tiered) :
    Agree SameRest (checkPlace (checkPlace expr a).1.1) (checkPlace expr) ∧
      (checkPlace (checkPlace expr a).1.1 a).1 = (checkPlace expr a).1 := by
  cases expr with
  | name identifier => exact echo_placeName identifier a
  | field location object name =>
    obtain ⟨hagree, hresult⟩ := echo_place object a ha
    refine ⟨hagree.bind fun _ _ h => agree_pure h, ?_⟩
    exact congrArg (fun found => (Expr.field location found.1 name, found.2)) hresult
  | index location object index =>
    have hindex := echo_expr index a ha
    obtain ⟨hagree, hresult⟩ := echo_place object _ ((keeps_checkExpr index a).tiered ha)
    have hfst (object index : Expr) : (checkPlace (.index location object index) a).1 =
        (.index location (checkPlace object (checkExpr index a).2).1.1 (checkExpr index a).1,
          (checkPlace object (checkExpr index a).2).1.2) := rfl
    refine ⟨(hindex.effect ()).bind fun _ _ _ => hagree.bind fun _ _ h => agree_pure h, ?_⟩
    rw [hfst object index, hfst, hindex.result, (hindex.effect () a).1, hresult]
  | _ => exact ⟨agree_pure rfl, rfl⟩
termination_by structural expr

theorem agree_place (expr : Expr) (a : Analysis) (ha : a.Tiered) :
    Agree SameRest (checkPlace (checkExpr expr a).1) (checkPlace expr) := by
  cases expr with
  | name identifier =>
    rw [checkExpr_name_fst]
    exact agree_placeName (resolve_kept ..).1 (resolve_kept ..).2
  | field location object name => exact (agree_place object a ha).bind fun _ _ h => agree_pure h
  | index location object index =>
    have hindex := echo_expr index _ ((keeps_checkExpr object a).tiered ha)
    exact (hindex.effect ()).bind fun _ _ _ => (agree_place object a ha).bind fun _ _ h => agree_pure h
  | binary location op left right =>
    rw [checkExpr_binary_fst]
    exact agree_pure rfl
  | move location target =>
    cases target with
    | none => exact agree_pure rfl
    | some identifier =>
      rw [checkExpr_move_fst]
      exact agree_pure rfl
  | _ => exact agree_pure rfl
termination_by structural expr

theorem echo_arguments (extent : Extent) (arguments : List Expr) (a : Analysis) (ha : a.Tiered) :
    Echoes (fun extent arguments => gather (checkArgument extent) arguments []) extent arguments a := by
  cases arguments with
  | nil => exact echoes_nil checkArgument extent a
  | cons argument rest =>
    refine Echoes.cons ?_ (echo_arguments extent rest _ ((keeps_checkArgument extent argument a).tiered ha))
    cases argument with
    | borrow location target exclusive =>
      exact echoes_lentArgument
        (sameTarget_lentTarget ha (echo_place target _ ha) (agree_place target) (echo_expr target))
    | _ => exact echoes_argument rfl (echo_expr _ a ha)
termination_by structural arguments

theorem echo_items (items : List Expr) (a : Analysis) (ha : a.Tiered) :
    Echo (fun items => gather checkExpr items []) items a := by
  cases items with
  | nil => exact echoes_nil (fun _ : Unit => checkExpr) () a
  | cons item rest => exact (echo_expr item a ha).cons (echo_items rest _ ((keeps_checkExpr item a).tiered ha))
termination_by structural items

theorem echo_values (fields : List (String × Expr)) (a : Analysis) (ha : a.Tiered) :
    Echo (fun fields => gather checkField fields []) fields a := by
  cases fields with
  | nil => exact echoes_nil (fun _ : Unit => checkField) () a
  | cons field rest =>
    obtain ⟨name, value⟩ := field
    exact ((echo_expr value a ha).form (name, ·) fun _ => rfl).cons
      (echo_values rest _ ((keeps_checkExpr value a).tiered ha))
termination_by structural fields

theorem echo_function (function : Function) (a : Analysis) (ha : a.Tiered) : Echo checkFunction function a := by
  obtain ⟨name, isProc, clauses⟩ := function
  exact (echo_bodyOf (echo_clauses a.flow clauses _ ha)).form (Function.mk name isProc) fun _ => rfl
termination_by structural function

theorem echo_clauses (flow : FlowState) (clauses : List Clause) (a : Analysis) (ha : a.Tiered) :
    Echoes (fun flow clauses => gather (checkClause flow) clauses []) flow clauses a := by
  cases clauses with
  | nil => exact echoes_nil checkClause flow a
  | cons clause rest =>
    refine Echoes.cons ?_ (echo_clauses flow rest _ ((keeps_checkClause flow clause a).tiered ha))
    obtain ⟨location, parameters, body⟩ := clause
    refine echoes_clause fun b hb => ?_
    have hstart : b.Tiered := hb ▸ ((keeps_setFlow _ a).tiered ha).enterScope
    have hparameters := keeps_gatherPatterns parameters b
    refine echo_stmts body _ (hparameters.tiered hstart) fun h => ?_
    rw [hparameters.outerScopes, hb] at h
    cases h
termination_by structural clauses

theorem echo_arms (outer : Nat) (arms : List Arm) (test after : FlowState) (a : Analysis) (ha : a.Tiered) :
    ArmsEcho outer arms test after a := by
  cases arms with
  | nil => exact ⟨fun _ _ _ => agree_pure rfl, rfl⟩
  | cons arm rest =>
    refine ArmsEcho.cons ?_ (echo_arms outer rest _ _ _ ((keeps_checkArm outer test arm a).tiered ha))
    obtain ⟨location, pattern, guard, body⟩ := arm
    refine agree_checkArm fun b hb => ?_
    have hstart : b.Tiered := hb ▸ ((keeps_setFlow _ a).tiered ha).enterScope
    have hpattern := keeps_declareArm pattern b
    have hguard := hpattern.trans (keeps_checkExpr guard _)
    refine ⟨echo_expr guard _ (hpattern.tiered hstart), echo_stmts body _ (hguard.tiered hstart) fun h => ?_⟩
    rw [hguard.outerScopes, hb] at h
    cases h
termination_by structural arms

theorem echo_stmt (stmt : Stmt) (a : Analysis) (ha : a.Tiered) (hloose : a.outerScopes = [] → stmt.loose = false) :
    Echo checkStmt stmt a := by
  cases stmt with
  | absent => exact ⟨fun _ => agree_pure trivial, rfl⟩
  | declare location name initial resolution =>
    cases initial with
    | borrow place target exclusive =>
      exact echo_declareBorrow place exclusive
        (sameTarget_lentTarget ha (echo_place target _ ha) (agree_place target) (echo_expr target))
    | _ => exact echo_declare rfl (echo_expr _ a ha)
  | assign location name value resolution =>
    cases value with
    | borrow place target exclusive =>
      exact echo_assignBorrow place exclusive ha fun b hb =>
        sameTarget_lentTarget hb (echo_place target _ hb) (agree_place target) (echo_expr target)
    | _ => exact echo_assign rfl (echo_expr _ a ha)
  | assignField location object field value =>
    have hobject := echo_expr object a ha
    have hvalue := echo_expr value _ ((keeps_checkExpr object a).tiered ha)
    exact (hobject.inTurn hvalue).form (fun parts => Stmt.assignField location parts.1 field parts.2) fun _ => rfl
  | assignIndex location object index value =>
    have hobject := echo_expr object a ha
    have hindex := echo_expr index _ ((keeps_checkExpr object a).tiered ha)
    have hvalue := echo_expr value _ ((keeps_checkExpr index _).tiered ((keeps_checkExpr object a).tiered ha))
    exact (hobject.inTurn (hindex.inTurn hvalue)).form
      (fun parts => Stmt.assignIndex location parts.1 parts.2.1 parts.2.2) fun _ => rfl
  | evaluate location expression => exact (echo_expr expression a ha).form (Stmt.evaluate location) fun _ => rfl
  | print location expression => exact (echo_expr expression a ha).form (Stmt.print location) fun _ => rfl
  | block location body =>
    have hbody := echo_stmts body (enterScope a).2 ha.enterScope nofun
    refine (hbody.preceded.followed exitScope).form (Stmt.block location) fun _ => ?_
    simp only [checkStmt, checkStmts_eq, bind_assoc, pure_bind]
  | ifElse location condition yes no =>
    have hcondition := keeps_checkExpr condition a
    have hyes := hcondition.trans (keeps_checkStmt yes _)
    have hfirst := echo_stmt yes _ (hcondition.tiered ha) fun h =>
      (Bool.or_eq_false_iff.mp (hloose (hcondition.outerScopes.symm.trans h))).1
    have hsecond := echo_stmt no (setFlow (checkExpr condition a).2.flow (checkStmt yes (checkExpr condition a).2).2).2
      (hyes.tiered ha) fun h => (Bool.or_eq_false_iff.mp (hloose (hyes.outerScopes.symm.trans h))).2
    exact ((echo_expr condition a ha).inTurn (echo_branches hfirst hsecond)).form
      (fun parts => Stmt.ifElse location parts.1 parts.2.1 parts.2.2) fun _ => rfl
  | cond location scrutinee arms =>
    have harms := echo_arms (checkExpr scrutinee a).2.symbols.size arms (checkExpr scrutinee a).2.flow .unreachable
      (checkExpr scrutinee a).2 ((keeps_checkExpr scrutinee a).tiered ha)
    exact ((echo_expr scrutinee a ha).inTurn (echo_allArms harms)).form
      (fun parts => Stmt.cond location parts.1 parts.2) fun _ => rfl
  | whileLoop location condition body =>
    exact echo_while ha (echo_expr condition) fun b hb hinner => echo_stmt body b hb fun h => absurd h hinner
  | forLoop location counter binding first bound body =>
    exact echo_for ha (echo_expr first a ha) (echo_expr bound _ ((keeps_checkExpr first a).tiered ha))
      fun b hb hinner => echo_stmt body b hb fun h => absurd h hinner
  | forever location body =>
    exact echo_forever ha fun b hb hinner => echo_stmt body b hb fun h => absurd h hinner
  | leave location => exact ⟨fun _ => (agree_refl _).free, rfl⟩
  | skip location => exact ⟨fun _ => (agree_refl _).free, rfl⟩
  | giveBack location value =>
    exact ((echo_expr value a ha).followed endPath).form (Stmt.giveBack location) fun _ => rfl
  | disown location name resolution => exact echo_disown
  | function location function resolution =>
    obtain ⟨name, isProc, clauses⟩ := function
    have hbody (b : Analysis) (hb : b.Tiered) : Echo bodyOf clauses b :=
      echo_bodyOf (echo_clauses b.flow clauses _ hb)
    cases hearly : resolution.early with
    | true =>
      obtain ⟨id, rfl⟩ := Resolution.eq_of_early hearly
      exact echo_function_early id isProc ha hbody
    | false =>
      refine echo_function_late hearly isProc ha (fun h => ?_) hbody
      have hnot : (!resolution.early) = false := hloose h
      rw [hearly] at hnot
      cases hnot
termination_by structural stmt

theorem echo_stmts (stmts : List Stmt) (a : Analysis) (ha : a.Tiered)
    (hloose : a.outerScopes = [] → ∀ stmt ∈ stmts, stmt.loose = false) :
    Echo (fun stmts => gather checkStmt stmts []) stmts a := by
  cases stmts with
  | nil => exact echoes_nil (fun _ : Unit => checkStmt) () a
  | cons stmt rest =>
    have hkeeps := keeps_checkStmt stmt a
    refine (echo_stmt stmt a ha fun h => hloose h stmt (List.mem_cons_self ..)).cons
      (echo_stmts rest _ (hkeeps.tiered ha) fun h other hmem => ?_)
    exact hloose (hkeeps.outerScopes.symm.trans h) other (List.mem_cons_of_mem _ hmem)
termination_by structural stmts

end

section Programs

/-- A statement before the program is looked at: functions are declared then. -/
def hoistStmt : Stmt → Check Stmt
  | .function location declaration _ => do
    let id ← declareName declaration.name location .initialized
    modify fun a => { a with symbols := a.symbols.modify id fun symbol => { symbol with hoisted := true } }
    return .function location declaration { binding := some id, isGlobal := true }
  | stmt => return stmt

theorem hoistFunctions_eq (stmts hoisted : List Stmt) :
    hoistFunctions hoisted stmts = gather hoistStmt stmts hoisted := by
  induction stmts generalizing hoisted with
  | nil => rfl
  | cons stmt rest ih => cases stmt <;> simp only [hoistFunctions, gather, hoistStmt, ih, bind_assoc, pure_bind]

theorem hoistStmt_plain {stmt : Stmt} (hplain : stmt.isFunction = false) : hoistStmt stmt = pure stmt := by
  cases stmt with
  | function => cases hplain
  | _ => rfl

/-- Statements that are declared alike before a program is looked at. -/
inductive SameHead : Stmt → Stmt → Prop
  | function {location : Location} {declaration again : Function} {resolution : Resolution}
    (hname : again.name = declaration.name) :
    SameHead (.function location declaration resolution) (.function location again resolution)
  | other {stmt again : Stmt} (hplain : stmt.isFunction = false) (hagain : again.isFunction = false) :
    SameHead stmt again

theorem loose_hoistStmt {stmt : Stmt} (hplaced : stmt.loose = true → stmt.isFunction = true) (a : Analysis) :
    (hoistStmt stmt a).1.loose = false := by
  cases hfunction : stmt.isFunction with
  | true =>
    cases stmt with
    | function => rfl
    | _ => cases hfunction
  | false =>
    rw [hoistStmt_plain hfunction]
    exact Bool.eq_false_iff.mpr fun hloose => nomatch hfunction.symm.trans (hplaced hloose)

theorem outerScopes_hoistStmt (stmt : Stmt) (a : Analysis) : (hoistStmt stmt a).2.outerScopes = a.outerScopes := by
  cases stmt with
  | function location declaration => exact (keeps_declareName declaration.name location .initialized a).outerScopes
  | _ => rfl

theorem gather_hoistStmt {stmts : List Stmt} (hplaced : ∀ stmt ∈ stmts, stmt.loose = true → stmt.isFunction = true)
    (a : Analysis) : (∀ stmt ∈ (gather hoistStmt stmts [] a).1, stmt.loose = false) ∧
      (gather hoistStmt stmts [] a).2.outerScopes = a.outerScopes := by
  induction stmts generalizing a with
  | nil => exact ⟨nofun, rfl⟩
  | cons stmt rest ih =>
    obtain ⟨hstmt, hrest⟩ := List.forall_mem_cons.mp hplaced
    obtain ⟨hloose, houter⟩ := ih hrest (hoistStmt stmt a).2
    rw [gather_cons]
    exact ⟨List.forall_mem_cons.mpr ⟨loose_hoistStmt hstmt a, hloose⟩, houter.trans (outerScopes_hoistStmt stmt a)⟩

/-- A look at a statement leaves what was declared with it. -/
theorem sameHead_checkStmt {stmt : Stmt} (hloose : stmt.loose = false) (a : Analysis) :
    SameHead stmt (checkStmt stmt a).1 := by
  cases hfunction : stmt.isFunction with
  | false =>
    refine .other hfunction ?_
    rw [← Stmt.isFunction_source, source_stmt stmt a, stmt.isFunction_source, hfunction]
  | true =>
    cases stmt with
    | function location declaration resolution =>
      have hearly : resolution.early = true := by simpa [Stmt.loose] using hloose
      obtain ⟨id, rfl⟩ := Resolution.eq_of_early hearly
      obtain ⟨name, isProc, clauses⟩ := declaration
      rw [checkStmt_function_early]
      exact .function rfl
    | _ => cases hfunction

theorem sameHead_checkStmts {stmts : List Stmt} (hloose : ∀ stmt ∈ stmts, stmt.loose = false) (a : Analysis) :
    List.Forall₂ SameHead stmts (gather checkStmt stmts [] a).1 := by
  induction stmts generalizing a with
  | nil => exact .nil
  | cons stmt rest ih =>
    obtain ⟨hstmt, hrest⟩ := List.forall_mem_cons.mp hloose
    rw [gather_cons]
    exact .cons (sameHead_checkStmt hstmt a) (ih hrest _)

theorem hoistStmt_again {stmt again : Stmt} (hsame : SameHead (hoistStmt stmt a).1 again) :
    hoistStmt again a = (again, (hoistStmt stmt a).2) := by
  cases hfunction : stmt.isFunction with
  | false =>
    rw [hoistStmt_plain hfunction] at hsame ⊢
    cases hsame with
    | function => cases hfunction
    | other hplain hagain =>
      rw [hoistStmt_plain hagain]
      rfl
  | true =>
    cases stmt with
    | function location declaration resolution =>
      change SameHead (.function location declaration
        ⟨some (declareName declaration.name location .initialized a).1, true⟩) again at hsame
      cases hsame with
      | function hname =>
        change (Stmt.function location _ ⟨some (declareName _ location .initialized a).1, true⟩, _) = _
        rw [hname]
        rfl
      | other hplain hagain => cases hplain
    | _ => cases hfunction

/-- Functions that have been declared and looked at are declared as before. -/
theorem gather_hoistStmt_again {stmts again : List Stmt}
    (hsame : List.Forall₂ SameHead (gather hoistStmt stmts [] a).1 again) :
    gather hoistStmt again [] a = (again, (gather hoistStmt stmts [] a).2) := by
  induction stmts generalizing again a with
  | nil =>
    cases hsame
    rfl
  | cons stmt rest ih =>
    rw [gather_cons] at hsame ⊢
    cases hsame with
    | cons hstmt hrest =>
      rw [gather_cons, hoistStmt_again hstmt, ih hrest]

end Programs

end Check

namespace Program

open Check

variable {program : Program}

theorem looked_eq (program : Program) : program.looked =
    let hoisted := gather hoistStmt program.statements [] {}
    gather checkStmt hoisted.1 [] hoisted.2 := by
  rw [looked, hoistFunctions_eq, checkStmts_eq]

theorem looked_again (hplaced : ∀ stmt ∈ program.statements, stmt.loose = true → stmt.isFunction = true) :
    program.analyze.program.looked = program.looked := by
  obtain ⟨hloose, houter⟩ := gather_hoistStmt hplaced {}
  have hagain := gather_hoistStmt_again (sameHead_checkStmts hloose (gather hoistStmt program.statements [] {}).2)
  have htiered : (gather hoistStmt program.statements [] {}).2.Tiered :=
    Analysis.tiered_iff.mpr fun h => absurd houter h
  obtain ⟨heffect, hresult⟩ := echo_stmts _ _ htiered fun _ => hloose
  have hstatements : program.analyze.program.statements = program.looked.1 := rfl
  rw [looked_eq, hstatements, looked_eq, hagain]
  exact Prod.ext hresult (heffect () _).1

/-- An analysis of what an analysis has made of a program finds the same, and changes nothing, where the functions that
are declared in the outermost scope are statements of the program. A function that is a branch of an if is declared in
the scope around the if, but not before the program is looked at. -/
theorem analyze_again (program : Program)
    (hplaced : ∀ stmt ∈ program.statements, stmt.loose = true → stmt.isFunction = true) :
    program.analyze.program.analyze = program.analyze := by
  have hlooked := looked_again hplaced
  have hclosed : program.analyze.program.closed = program.closed := by rw [closed, hlooked, closed]
  have hflag : program.analyze.program.analyzed = (program.analyzed || program.closed.errors.isEmpty) := rfl
  rw [analyze_eq program.analyze.program, hlooked, hclosed, hflag, Bool.or_assoc, Bool.or_self, ← analyze_eq]

/-- A function in a block of an if, with the name of a variable outside that it borrows. -/
def nestedTwin : Program :=
  { statements :=
      [.declare {} "f" (.literal {} (.scalar (.int 1))) {},
        .function {} ⟨"main", false, [⟨{}, [], [.giveBack {} (.name ⟨{}, "f", {}⟩)]⟩]⟩ {},
        .ifElse {} (.literal {} (.scalar (.bool true)))
          (.block {} [.declare {} "held" (.borrow {} (.name ⟨{}, "f", {}⟩) false) {},
            .function {} ⟨"f", false, [⟨{}, [], []⟩]⟩ {}]) .absent,
        .print {} (.name ⟨{}, "main", {}⟩)] }

theorem analyze_again_nestedTwin : nestedTwin.analyze.program.analyze = nestedTwin.analyze :=
  analyze_again nestedTwin (by decide)

/-- A function that is the branch of an if, with the name of a variable of the program. -/
def bareBranch : Program :=
  { statements :=
      [.declare {} "f" (.literal {} (.scalar (.int 1))) {},
        .ifElse {} (.literal {} (.scalar (.bool true)))
          (.function {} ⟨"f", false, [⟨{}, [], [.giveBack {} (.literal {} (.scalar (.int 2)))]⟩]⟩ {}) .absent,
        .print {} (.name ⟨{}, "f", {}⟩)] }

/-- The first analysis rejects the program, and marks the function as declared. The second one accepts it. -/
theorem analyze_differs_bareBranch :
    bareBranch.analyze.diagnostics.map (·.kind) = [.duplicateBinding] ∧
      bareBranch.analyze.program.analyze.diagnostics = [] := by
  decide +kernel

end Program

end OwnScript
