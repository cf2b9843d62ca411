import OwnScript.Proofs.Analysis.Borrows
import OwnScript.Proofs.Analysis.Resolution
import OwnScript.Proofs.Analysis.Settling

/-!
Looks with the same effect. Two looks agree if they take every state to the same state, whatever they give. What an
analysis writes on names makes no difference to a later look: a part echoes if a look at what has come of it agrees
with one at the part, and in the same state gives the same again.
-/

namespace OwnScript

/-- Whether an expression is a variable, or a field or an element that is reached from one. -/
def Expr.rooted : Expr → Bool
  | .name _ => true
  | .field _ object _ | .index _ object _ => object.rooted
  | _ => false

/-- Whether an expression borrows. -/
def Expr.isBorrow : Expr → Bool
  | .borrow _ _ _ => true
  | _ => false

namespace Check

open Analysis

variable {α β γ δ : Type} {a : Analysis}

/-- Two steps with the same effect in every state, and with related results. -/
def Agree (related : α → β → Prop) (step : Check α) (twin : Check β) : Prop :=
  ∀ c, (step c).2 = (twin c).2 ∧ related (step c).1 (twin c).1

/-- Results that differ in the part that was looked at only. -/
abbrev SameRest (found : α × γ) (found' : β × γ) : Prop :=
  found.2 = found'.2

section Agree

variable {related : α → β → Prop} {wider : γ → δ → Prop}

theorem agree_refl (step : Check α) : Agree Eq step step :=
  fun _ => ⟨rfl, rfl⟩

theorem agree_pure {value : α} {value' : β} (h : related value value') : Agree related (pure value) (pure value') :=
  fun _ => ⟨rfl, h⟩

theorem Agree.mono {step : Check α} {twin : Check β} {other : α → β → Prop} (h : Agree related step twin)
    (hwider : ∀ value value', related value value' → other value value') : Agree other step twin :=
  fun c => ⟨(h c).1, hwider _ _ (h c).2⟩

theorem Agree.free {step : Check α} {twin : Check β} (h : Agree related step twin) : Agree Free step twin :=
  h.mono fun _ _ _ => trivial

theorem Agree.bind {step : Check α} {twin : Check β} {next : α → Check γ} {next' : β → Check δ}
    (h : Agree related step twin)
    (hnext : ∀ value value', related value value' → Agree wider (next value) (next' value')) :
    Agree wider (step >>= next) (twin >>= next') := by
  intro c
  have hlast := hnext _ _ (h c).2 (twin c).2
  rw [bind_run, bind_run, (h c).1]
  exact hlast

/-- The same step first. -/
theorem agree_after {step : Check α} {next : α → Check γ} {next' : α → Check δ}
    (hnext : ∀ value, Agree wider (next value) (next' value)) : Agree wider (step >>= next) (step >>= next') :=
  (agree_refl step).bind fun value _ h => h ▸ hnext value

/-- Steps after which nothing depends on the results. -/
theorem Agree.ends {step : Check α} {twin : Check β} (h : Agree related step twin) {result : α → γ} {result' : β → δ} :
    Agree Free (step >>= fun value => pure (result value)) (twin >>= fun value => pure (result' value)) :=
  h.bind fun _ _ _ => agree_pure trivial

end Agree

/-- What comes of a part that is looked at: a later look at the result has the same effect as one at the part, however
the looks are made, and looked at as before the result stays as it is. -/
structure Echoes {ι σ : Type} (check : ι → σ → Check σ) (mode : ι) (part : σ) (a : Analysis) : Prop where
  effect : ∀ other, Agree Free (check other (check mode part a).1) (check other part)
  result : (check mode (check mode part a).1 a).1 = (check mode part a).1

section Lists

variable {ι σ : Type} {check : ι → σ → Check σ} {mode : ι}

/-- A look at the parts of a list, one after the other, after those already done. -/
def gather (check : σ → Check σ) : List σ → List σ → Check (List σ)
  | [], done => return done.reverse
  | part :: rest, done => do
    let part ← check part
    gather check rest (part :: done)

theorem gather_done (check : σ → Check σ) (parts done : List σ) (a : Analysis) :
    gather check parts done a = (done.reverse ++ (gather check parts [] a).1, (gather check parts [] a).2) := by
  induction parts generalizing done a with
  | nil => exact Prod.ext (List.append_nil _).symm rfl
  | cons part rest ih =>
    rw [gather, gather, bind_run, bind_run, ih, ih [_]]
    simp

theorem gather_cons (check : σ → Check σ) (part : σ) (rest : List σ) (a : Analysis) :
    gather check (part :: rest) [] a =
      ((check part a).1 :: (gather check rest [] (check part a).2).1, (gather check rest [] (check part a).2).2) := by
  rw [gather, bind_run, gather_done]
  rfl

theorem echoes_nil (check : ι → σ → Check σ) (mode : ι) (a : Analysis) :
    Echoes (fun mode parts => gather (check mode) parts []) mode [] a :=
  ⟨fun _ => agree_pure trivial, rfl⟩

theorem Echoes.cons {part : σ} {rest : List σ} (hpart : Echoes check mode part a)
    (hrest : Echoes (fun mode parts => gather (check mode) parts []) mode rest (check mode part a).2) :
    Echoes (fun mode parts => gather (check mode) parts []) mode (part :: rest) a := by
  have hfirst : (check mode (check mode part a).1 a).2 = (check mode part a).2 := (hpart.effect mode a).1
  refine ⟨fun other c => ⟨?_, trivial⟩, ?_⟩
  · rw [gather_cons, gather_cons, gather_cons, (hpart.effect other c).1]
    exact (hrest.effect other _).1
  · rw [gather_cons, gather_cons, hpart.result, hfirst]
    exact congrArg (_ :: ·) hrest.result

end Lists

/-- A part whose later looks are made like the first. -/
abbrev Echo {σ : Type} (check : σ → Check σ) (part : σ) (a : Analysis) : Prop :=
  Echoes (fun _ : Unit => check) () part a

section Echo

variable {σ τ : Type} {inner first : σ → Check σ} {second : τ → Check τ} {check : τ → Check τ} {part : σ} {other : τ}

/-- A part inside another one. -/
theorem Echo.form (hpart : Echo inner part a) (form : σ → τ)
    (hrun : ∀ part, check (form part) = inner part >>= fun part => pure (form part)) : Echo check (form part) a := by
  have hfst (part : σ) : (check (form part) a).1 = form (inner part a).1 := by
    rw [hrun]
    rfl
  refine ⟨fun _ => ?_, ?_⟩
  · rw [hfst, hrun, hrun]
    exact (hpart.effect ()).ends
  · rw [hfst, hfst]
    exact congrArg form hpart.result

/-- A look at two parts, one after the other. -/
def inTurn (first : σ → Check σ) (second : τ → Check τ) (parts : σ × τ) : Check (σ × τ) := do
  let part ← first parts.1
  let other ← second parts.2
  return (part, other)

theorem Echo.inTurn (hfirst : Echo first part a) (hsecond : Echo second other (first part a).2) :
    Echo (inTurn first second) (part, other) a := by
  have hfst (part : σ) (other : τ) : (Check.inTurn first second (part, other) a).1 =
      ((first part a).1, (second other (first part a).2).1) := rfl
  refine ⟨fun _ => ?_, ?_⟩
  · exact (hfirst.effect ()).bind fun _ _ _ => (hsecond.effect ()).ends
  · rw [hfst part other, hfst, hfirst.result, (hfirst.effect () a).1, hsecond.result]

/-- A step after a part. -/
theorem Echo.followed (hpart : Echo inner part a) (after : Check Unit) :
    Echo (fun part => inner part >>= fun part => after >>= fun _ => pure part) part a :=
  ⟨fun _ => (hpart.effect ()).bind fun _ _ _ => agree_after fun _ => agree_pure trivial, hpart.result⟩

/-- A step before a part. -/
theorem Echo.preceded {before : Check Unit} (hpart : Echo inner part (before a).2) :
    Echo (fun part => before >>= fun _ => inner part) part a :=
  ⟨fun _ => agree_after fun _ => hpart.effect (), hpart.result⟩

end Echo

section Names

variable {identifier : Identifier}

theorem agree_resolve {other : Identifier} (hname : other.name = identifier.name)
    (hlocation : other.location = identifier.location) :
    Agree (fun found found' => found.2 = found'.2 ∧ (found.2 ≠ none → found.1 = found'.1)) (resolve other)
      (resolve identifier) := by
  intro c
  obtain ⟨location, name, resolution⟩ := identifier
  obtain ⟨location', name', resolution'⟩ := other
  obtain rfl : name' = name := hname
  obtain rfl : location' = location := hlocation
  rw [resolve_apply, resolve_apply]
  cases (c.scope :: c.outerScopes).findSome? (·.names[name']?) with
  | none => exact ⟨rfl, rfl, fun h => absurd rfl h⟩
  | some id => exact ⟨rfl, rfl, fun _ => rfl⟩

theorem resolve_kept (identifier : Identifier) (a : Analysis) :
    (resolve identifier a).1.1.name = identifier.name ∧ (resolve identifier a).1.1.location = identifier.location := by
  rw [resolve_apply]
  cases (a.scope :: a.outerScopes).findSome? (·.names[identifier.name]?) <;> exact ⟨rfl, rfl⟩

theorem resolve_again (identifier : Identifier) (a : Analysis) :
    (resolve (resolve identifier a).1.1 a).1 = (resolve identifier a).1 := by
  obtain ⟨hname, hlocation⟩ := resolve_kept identifier a
  obtain ⟨-, htarget, hresolved⟩ := agree_resolve hname hlocation a
  cases hfound : (resolve identifier a).1.2 with
  | some id => exact Prod.ext (hresolved (by rw [htarget, hfound]; exact nofun)) htarget
  | none =>
    have hunknown : a.found identifier.name = none := by
      cases hlook : a.found identifier.name with
      | none => rfl
      | some id =>
        obtain ⟨-, resolved, hrun, -⟩ := mentions_resolve hlook
        rw [hrun] at hfound
        cases hfound
    have hsame : (resolve identifier a).1.1 = identifier := by rw [resolve_unknown hunknown]
    rw [hsame]

theorem checkExpr_name_fst (identifier : Identifier) (a : Analysis) :
    (checkExpr (.name identifier) a).1 = .name (resolve identifier a).1.1 := by
  rw [checkExpr, bind_run]
  generalize resolve identifier a = found
  obtain ⟨⟨resolved, target⟩, b⟩ := found
  cases target <;> rfl

theorem checkExpr_move_fst (location : Location) (identifier : Identifier) (a : Analysis) :
    (checkExpr (.move location (some identifier)) a).1 = .move location (some (resolve identifier a).1.1) := by
  rw [checkExpr, bind_run]
  generalize resolve identifier a = found
  obtain ⟨⟨resolved, target⟩, b⟩ := found
  cases target <;> rfl

theorem checkExpr_binary_fst (location : Location) (op : BinaryOp) (left right : Expr) (a : Analysis) :
    (checkExpr (.binary location op left right) a).1 =
      .binary location op (checkExpr left a).1 (checkExpr right (checkExpr left a).2).1 := by
  rw [checkExpr, bind_run]
  cases op.isLogical <;> rfl

theorem checkPlace_name_fst (identifier : Identifier) (a : Analysis) :
    (checkPlace (.name identifier) a).1 = (.name (resolve identifier a).1.1,
      match (resolve identifier a).1.2 with
      | none => .unresolved
      | some id => .resolved (resolve identifier a).1.1 id) := by
  rw [checkPlace, bind_run]
  generalize resolve identifier a = found
  obtain ⟨⟨resolved, target⟩, b⟩ := found
  cases target <;> rfl

theorem echo_name (identifier : Identifier) (a : Analysis) : Echo checkExpr (.name identifier) a where
  effect _ := by
    rw [checkExpr_name_fst]
    refine (agree_resolve (resolve_kept ..).1 (resolve_kept ..).2).bind fun found found' h => ?_
    obtain ⟨resolved, target⟩ := found
    obtain ⟨resolved', target'⟩ := found'
    obtain ⟨rfl, hsame⟩ := h
    cases target with
    | none => exact agree_pure trivial
    | some id =>
      obtain rfl := hsame nofun
      exact agree_after fun _ => agree_pure trivial
  result := by rw [checkExpr_name_fst, checkExpr_name_fst, resolve_again]

theorem echo_move (location : Location) (identifier : Identifier) (a : Analysis) :
    Echo checkExpr (.move location (some identifier)) a where
  effect _ := by
    rw [checkExpr_move_fst]
    refine (agree_resolve (resolve_kept ..).1 (resolve_kept ..).2).bind fun found found' h => ?_
    obtain ⟨resolved, target⟩ := found
    obtain ⟨resolved', target'⟩ := found'
    obtain ⟨rfl, hsame⟩ := h
    cases target with
    | none => exact agree_pure trivial
    | some id =>
      obtain rfl := hsame nofun
      exact agree_after fun _ => agree_pure trivial
  result := by rw [checkExpr_move_fst, checkExpr_move_fst, resolve_again]

theorem agree_placeName {other : Identifier} (hname : other.name = identifier.name)
    (hlocation : other.location = identifier.location) :
    Agree SameRest (checkPlace (.name other)) (checkPlace (.name identifier)) := by
  refine (agree_resolve hname hlocation).bind fun found found' h => ?_
  obtain ⟨resolved, target⟩ := found
  obtain ⟨resolved', target'⟩ := found'
  obtain ⟨rfl, hsame⟩ := h
  cases target with
  | none => exact agree_pure rfl
  | some id =>
    obtain rfl := hsame nofun
    exact agree_pure rfl

theorem echo_placeName (identifier : Identifier) (a : Analysis) :
    Agree SameRest (checkPlace (checkPlace (.name identifier) a).1.1)
        (checkPlace (.name identifier)) ∧
      (checkPlace (checkPlace (.name identifier) a).1.1 a).1 = (checkPlace (.name identifier) a).1 := by
  rw [checkPlace_name_fst, checkPlace_name_fst, resolve_again]
  exact ⟨agree_placeName (resolve_kept ..).1 (resolve_kept ..).2, rfl⟩

end Names

section Forms

/-- The form of an expression is part of its source. -/
theorem isBorrow_source (expr : Expr) : expr.source.isBorrow = expr.isBorrow := by
  cases expr <;> rfl

theorem rooted_source (expr : Expr) : expr.source.rooted = expr.rooted := by
  cases expr with
  | field location object name => exact rooted_source object
  | index location object index => exact rooted_source object
  | _ => rfl
termination_by structural expr

theorem isBorrow_checkExpr (expr : Expr) (a : Analysis) : (checkExpr expr a).1.isBorrow = expr.isBorrow := by
  rw [← isBorrow_source, source_expr expr a, isBorrow_source]

theorem isAbsent_checkExpr (expr : Expr) (a : Analysis) : (checkExpr expr a).1.isAbsent = expr.isAbsent := by
  rw [← Expr.isAbsent_source, source_expr expr a, Expr.isAbsent_source]

theorem rooted_checkExpr (expr : Expr) (a : Analysis) : (checkExpr expr a).1.rooted = expr.rooted := by
  rw [← rooted_source, source_expr expr a, rooted_source]

theorem rooted_checkPlace (expr : Expr) (a : Analysis) : (checkPlace expr a).1.1.rooted = expr.rooted := by
  rw [← rooted_source, source_place expr a, rooted_source]

/-- A place is reached from a name or from an expression, whatever the state. -/
theorem root_checkPlace (expr : Expr) (a : Analysis) : (checkPlace expr a).1.2 = .expression ↔ expr.rooted = false := by
  cases expr with
  | name identifier =>
    rw [checkPlace_name_fst]
    cases (resolve identifier a).1.2 <;> simp [Expr.rooted]
  | field location object name => exact root_checkPlace object a
  | index location object index => exact root_checkPlace object (checkExpr index a).2
  | _ => exact iff_of_true rfl rfl
termination_by structural expr

end Forms

section Walkers

/-- The variables of the pattern of a field. -/
def declareField (field : String × Pattern) : Check (String × Pattern) := do
  let pattern ← declarePattern field.2
  return (field.1, pattern)

/-- A look at the value of a field. -/
def checkField (field : String × Expr) : Check (String × Expr) := do
  let value ← checkExpr field.2
  return (field.1, value)

/-- A look at an argument of a call. A borrow is live until the call is made. -/
def checkArgument (extent : Extent) : Expr → Check Expr
  | .borrow location target exclusive => do
    let (target, _) ← borrowPlace location exclusive extent (checkPlace target) (checkExpr target)
    return .borrow location target exclusive
  | argument => checkExpr argument

/-- The parts of a clause share a scope. -/
def clauseParts (clause : Clause) : Check (List Pattern × List Stmt) := do
  let parameters ← gather declarePattern clause.parameters []
  let body ← gather checkStmt clause.body []
  return (parameters, body)

/-- A look at a clause of a function. -/
def checkClause (flow : FlowState) (clause : Clause) : Check Clause := do
  setFlow { flow with reachable := true }
  let (parameters, body) ← inScope (clauseParts clause)
  return ⟨clause.location, parameters, body⟩

/-- The variables of the pattern of an arm, if it has one. -/
def declareArm : Option Pattern → Check (Option Pattern)
  | some pattern => some <$> declarePattern pattern
  | none => pure none

/-- The parts of an arm share a scope. The path if the test fails comes with them. -/
def armParts (outer : Nat) (arm : Arm) : Check (Option Pattern × Expr × FlowState × List Stmt) := do
  let pattern ← declareArm arm.pattern
  let guard ← checkExpr arm.guard
  let test := (← getFlow).truncate outer
  let body ← gather checkStmt arm.body []
  return (pattern, guard, test, body)

/-- A look at an arm of a cond: what comes with it is the path if its test fails and the path at its end. -/
def checkArm (outer : Nat) (test : FlowState) (arm : Arm) : Check (Arm × FlowState × FlowState) := do
  setFlow test
  let (pattern, guard, test, body) ← inScope (armParts outer arm)
  let armEnd := (← getFlow).truncate outer
  return (⟨arm.location, pattern, guard, body⟩, test, armEnd)

theorem declareFields_eq (fields done : List (String × Pattern)) :
    declareFields fields done = gather declareField fields done := by
  induction fields generalizing done with
  | nil => rfl
  | cons field rest ih => simp only [declareFields, gather, declareField, ih, bind_assoc, pure_bind]

theorem declareParameters_eq (parameters done : List Pattern) :
    declareParameters parameters done = gather declarePattern parameters done := by
  induction parameters generalizing done with
  | nil => rfl
  | cons pattern rest ih => simp only [declareParameters, gather, ih]

theorem checkItems_eq (items done : List Expr) : checkItems items done = gather checkExpr items done := by
  induction items generalizing done with
  | nil => rfl
  | cons item rest ih => simp only [checkItems, gather, ih]

theorem checkFields_eq (fields done : List (String × Expr)) :
    checkFields fields done = gather checkField fields done := by
  induction fields generalizing done with
  | nil => rfl
  | cons field rest ih => simp only [checkFields, gather, checkField, ih, bind_assoc, pure_bind]

theorem checkArguments_eq (extent : Extent) (arguments done : List Expr) :
    checkArguments extent arguments done = gather (checkArgument extent) arguments done := by
  induction arguments generalizing done with
  | nil => rfl
  | cons argument rest ih =>
    cases argument <;> simp only [checkArguments, gather, checkArgument, ih, bind_assoc, pure_bind]

theorem checkStmts_eq (stmts done : List Stmt) : checkStmts stmts done = gather checkStmt stmts done := by
  induction stmts generalizing done with
  | nil => rfl
  | cons stmt rest ih => simp only [checkStmts, gather, ih]

theorem checkClauses_eq (flow : FlowState) (clauses done : List Clause) :
    checkClauses flow clauses done = gather (checkClause flow) clauses done := by
  induction clauses generalizing done with
  | nil => rfl
  | cons clause rest ih =>
    obtain ⟨location, parameters, body⟩ := clause
    simp only [checkClauses, gather, checkClause, inScope, clauseParts, declareParameters_eq, checkStmts_eq, ih,
      bind_assoc, pure_bind]

theorem checkArms_cons (outer : Nat) (arm : Arm) (rest : List Arm) (test after : FlowState) (done : List Arm) :
    checkArms outer (arm :: rest) test after done = checkArm outer test arm >>= fun found =>
      checkArms outer rest found.2.1 (after.meet found.2.2) (found.1 :: done) := by
  obtain ⟨location, pattern, guard, body⟩ := arm
  cases pattern <;>
    simp only [checkArms, checkArm, inScope, armParts, declareArm, checkStmts_eq, bind_assoc, pure_bind]

/-- The arms that are done come first, and make no other difference. -/
theorem checkArms_done (outer : Nat) (arms : List Arm) (test after : FlowState) (done : List Arm) (a : Analysis) :
    checkArms outer arms test after done a =
      ((done.reverse ++ (checkArms outer arms test after [] a).1.1, (checkArms outer arms test after [] a).1.2),
        (checkArms outer arms test after [] a).2) := by
  induction arms generalizing test after done a with
  | nil => exact Prod.ext (Prod.ext (List.append_nil _).symm rfl) rfl
  | cons arm rest ih =>
    rw [checkArms_cons, checkArms_cons, bind_run, bind_run, ih, ih _ _ [_]]
    simp

end Walkers

theorem keeps_checkPlace (expr : Expr) : Keeps (checkPlace expr) :=
  (serves_place accepted_empty none true expr).keeps

section Borrows

variable {target again : Expr} {location : Location} {exclusive : Bool} {extent : Extent}

/-- Two looks at the target of a borrow with the same effect. -/
structure SameTarget (again target : Expr) : Prop where
  rooted : again.rooted = target.rooted
  place : Agree SameRest (checkPlace again) (checkPlace target)
  whole : target.rooted = false → Agree Free (checkExpr again) (checkExpr target)

theorem SameTarget.borrowPlace (hsame : SameTarget again target) :
    Agree SameRest
      (borrowPlace location exclusive extent (checkPlace again) (checkExpr again))
      (borrowPlace location exclusive extent (checkPlace target) (checkExpr target)) := by
  have hplace : Agree (fun found found' => found.2 = found'.2 ∧ (found'.2 = .expression → target.rooted = false))
      (checkPlace again) (checkPlace target) :=
    fun c => ⟨(hsame.place c).1, (hsame.place c).2, (root_checkPlace target c).mp⟩
  refine hplace.bind fun found found' h => ?_
  obtain ⟨part, root⟩ := found
  obtain ⟨part', root'⟩ := found'
  obtain ⟨rfl, hbare⟩ := h
  cases root with
  | expression => exact (hsame.whole (hbare rfl)).bind fun _ _ _ => agree_pure rfl
  | unresolved => exact agree_pure rfl
  | resolved identifier id => exact agree_after fun _ => agree_after fun _ => agree_pure rfl

/-- The target of a borrow when it has been looked at. -/
def lentTarget (target : Expr) (a : Analysis) : Expr :=
  if target.rooted then (checkPlace target a).1.1 else (checkExpr target (checkPlace target a).2).1

theorem borrowPlace_fst (target : Expr) (location : Location) (exclusive : Bool) (extent : Extent) (a : Analysis) :
    (borrowPlace location exclusive extent (checkPlace target) (checkExpr target) a).1.1 = lentTarget target a := by
  have hroot := root_checkPlace target a
  rw [borrowPlace, bind_run, lentTarget]
  generalize checkPlace target a = found at hroot
  obtain ⟨⟨part, root⟩, b⟩ := found
  cases root with
  | expression =>
    rw [hroot.mp rfl]
    rfl
  | unresolved =>
    have hrooted : target.rooted = true := Bool.eq_true_of_not_eq_false (mt hroot.mpr PlaceRoot.noConfusion)
    rw [if_pos hrooted]
    rfl
  | resolved identifier id =>
    have hrooted : target.rooted = true := Bool.eq_true_of_not_eq_false (mt hroot.mpr PlaceRoot.noConfusion)
    rw [if_pos hrooted]
    rfl

/-- What has been looked at as the target of a borrow is looked at with the same effect. -/
theorem sameTarget_lentTarget (ha : a.Tiered)
    (hplace : Agree SameRest (checkPlace (checkPlace target a).1.1) (checkPlace target) ∧
      (checkPlace (checkPlace target a).1.1 a).1 = (checkPlace target a).1)
    (hbare : ∀ b : Analysis, b.Tiered →
      Agree SameRest (checkPlace (checkExpr target b).1) (checkPlace target))
    (hwhole : ∀ b : Analysis, b.Tiered → Echo checkExpr target b) :
    SameTarget (lentTarget target a) target ∧ lentTarget (lentTarget target a) a = lentTarget target a := by
  have hafter : (checkPlace target a).2.Tiered := (keeps_checkPlace target a).tiered ha
  cases hrooted : target.rooted with
  | true =>
    have hagain : (checkPlace target a).1.1.rooted = true := (rooted_checkPlace target a).trans hrooted
    have hlent : lentTarget target a = (checkPlace target a).1.1 := if_pos hrooted
    rw [hlent]
    refine ⟨⟨hagain.trans hrooted.symm, hplace.1, fun h => nomatch hrooted.symm.trans h⟩, ?_⟩
    rw [lentTarget, if_pos hagain, hplace.2]
  | false =>
    have hagree := hbare _ hafter
    have hagain : (checkExpr target (checkPlace target a).2).1.rooted = false := (rooted_checkExpr ..).trans hrooted
    have hlent : lentTarget target a = (checkExpr target (checkPlace target a).2).1 :=
      if_neg (Bool.eq_false_iff.mp hrooted)
    rw [hlent]
    refine ⟨⟨hagain.trans hrooted.symm, hagree, fun _ => (hwhole _ hafter).effect ()⟩, ?_⟩
    rw [lentTarget, if_neg (Bool.eq_false_iff.mp hagain), (hagree a).1]
    exact (hwhole _ hafter).result

end Borrows

section Bodies

variable {body twin : Check (α × Option FlowState)}

theorem agree_loopPass (hbody : Agree SameRest body twin) (entry : FlowState) :
    Agree SameRest (loopPass body entry) (loopPass twin entry) := by
  refine agree_after fun _ => agree_after fun _ => hbody.bind fun found found' h => agree_after fun _ => ?_
  obtain ⟨part, exit⟩ := found
  obtain ⟨part', exit'⟩ := found'
  obtain rfl : exit = exit' := h
  exact agree_after fun _ => agree_after fun _ => agree_pure rfl

theorem agree_loopEntry (hbody : Agree SameRest body twin) (outer : Nat)
    (before : FlowState) (passes : Nat) (entry : FlowState) :
    Agree Eq (loopEntry body outer before passes entry) (loopEntry twin outer before passes entry) := by
  induction passes generalizing entry with
  | zero => exact agree_pure rfl
  | succ passes ih =>
    refine (agree_loopPass hbody entry).bind fun found found' h => agree_after fun flow => ?_
    obtain ⟨part, exit, paths⟩ := found
    obtain ⟨part', exit', paths'⟩ := found'
    cases h
    dsimp only
    split
    · exact agree_pure rfl
    · exact ih _

theorem agree_analyzeLoop (hbody : Agree SameRest body twin) :
    Agree Free (analyzeLoop body) (analyzeLoop twin) := by
  refine agree_after fun before => agree_after fun state => agree_after fun _ => ?_
  refine (agree_loopEntry hbody _ _ _ _).bind fun entry entry' h => ?_
  cases h
  refine agree_after fun _ => (agree_loopPass hbody entry).bind fun found found' h => ?_
  obtain ⟨part, exit, paths⟩ := found
  obtain ⟨part', exit', paths'⟩ := found'
  cases h
  exact agree_after fun _ => agree_pure trivial

/-- The state in which the body of a loop is looked at to report. -/
def reporting (body : Check (α × Option FlowState)) (a : Analysis) : Analysis :=
  let quiet := loopEntry body a.symbols.size a.flow (a.symbols.size * 2 + 3) a.flow (hushed a)
  opened quiet.1 (heard quiet.2)

theorem analyzeLoop_fst (body : Check (α × Option FlowState)) (a : Analysis) :
    (analyzeLoop body a).1 = (body (reporting body a)).1.1 := by
  rw [analyzeLoop_eq]
  rfl

theorem reporting_eq (hbody : Agree SameRest body twin) (a : Analysis) :
    reporting body a = reporting twin a := by
  obtain ⟨hafter, hentry⟩ :=
    agree_loopEntry hbody a.symbols.size a.flow (a.symbols.size * 2 + 3) a.flow (hushed a)
  rw [reporting, reporting, hafter, hentry]

/-- The body of a loop is looked at in a scope of its own. -/
theorem tiered_reporting (hkeeps : Keeps body) (ha : a.Tiered) :
    (reporting body a).Tiered ∧ (reporting body a).outerScopes ≠ [] := by
  have hquiet := (Analysis.Keeps.ofSilence (keeps_loopEntry hkeeps a.symbols.size a.flow (a.symbols.size * 2 + 3) a.flow
    (hushed a))).tiered ha
  unfold reporting
  generalize loopEntry body a.symbols.size a.flow (a.symbols.size * 2 + 3) a.flow (hushed a) = quiet at hquiet
  have hentry : Analysis.Tiered { heard quiet.2 with flow := quiet.1, loops := {} :: (heard quiet.2).loops } := hquiet
  exact ⟨hentry.enterScope, nofun⟩

theorem agree_functionBody {body twin : FlowState → Check α} (hbody : ∀ flow, Agree Free (body flow) (twin flow)) :
    Agree Free (functionBody body) (functionBody twin) :=
  agree_after fun flow => agree_after fun _ => agree_after fun _ => (hbody flow).bind fun _ _ _ =>
    agree_after fun _ => agree_pure trivial

theorem agree_declaredBody (id : BindingId) {body twin : Check α} (hbody : Agree Free body twin) :
    Agree Free (declaredBody id body) (declaredBody id twin) := by
  refine agree_after fun state => ?_
  split
  · exact agree_after fun _ => hbody.bind fun _ _ _ => agree_after fun _ => agree_pure trivial
  · exact hbody

end Bodies

end Check

end OwnScript
