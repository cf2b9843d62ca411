import OwnScript.Proofs.Analysis.Resolution
import OwnScript.Proofs.Analysis.Shape
import OwnScript.Proofs.Lowering.Reach
import OwnScript.Proofs.Lowering.Slots
import OwnScript.Proofs.Lowering.Statements
import OwnScript.Proofs.Program.Aims

/-!
What is visible is within reach. Where a name stands in a program that analysis has resolved, the generator has
a slot for what the name leads to: a global one, or one in a frame that is under construction. So code
generation gives up only where the program leaves a loop that is not there or is too large.
-/

namespace OwnScript

namespace Emit

open Emitter

variable {α β : Type} {step : Emit α} {scopes inner last : Scopes} {location : Location}

section Walk

variable {nesting : Nat} {outline more : List Naming}

theorem Serves.leaving (hstep : Serves scopes step scopes) (hneutral : Neutral outline) :
    Serves scopes step (scopes.afterAll outline) := by
  rw [hneutral]
  exact hstep

/-- What comes after something that declares nothing. -/
theorem throughout_neutral {property : Scopes → Naming → Prop} (hneutral : Neutral outline) :
    Throughout property scopes (outline ++ more) ↔ Throughout property scopes outline ∧
      Throughout property scopes more := by
  rw [throughout_append, hneutral]

/-- What is visible does not depend on which of the scopes is the innermost. -/
theorem Serves.entered (hstep : Serves scopes step scopes) : Serves scopes.enter step scopes.enter :=
  fun emitter hshows => (hstep emitter ⟨hshows.reaches, hshows.shallow⟩).mono fun _ _ h =>
    ⟨⟨h.1.reaches, h.1.shallow⟩, h.2⟩

theorem Serves.left (hstep : Serves scopes.enter step scopes.enter) : Serves scopes step scopes :=
  fun emitter hshows => (hstep emitter ⟨hshows.reaches, hshows.shallow⟩).mono fun _ _ h =>
    ⟨⟨h.1.reaches, h.1.shallow⟩, h.2⟩

theorem serves_declares {name : String} {id : BindingId} :
    Serves scopes (declareLocal (some id) location) (scopes.after (.declares name { binding := some id })) := by
  refine fun emitter hshows => (ends_declareLocal (some id) emitter).mono fun _ final h => ⟨?_, h.1⟩
  have hdeclared : ∀ naming ∈ [Naming.declares name { binding := some id }], ∃ name id depth,
      naming = .declares name { binding := some id } ∧ (some id, depth) ∈ final.current.variables :=
    fun naming hmem => ⟨name, id, _, List.mem_singleton.mp hmem, h.2⟩
  exact (hshows.retains h.1).declares hdeclared

theorem serves_loopTurn {start : Nat} {body between : Emit Unit} (hbody : Serves scopes.enter body inner)
    (hbetween : IsStill between) : Serves scopes (loopTurn start body between location) scopes :=
  serves_enterScope <| hbody.inside fun _ => closes_exitScope_before <| still_landSkipping.before fun _ =>
    hbetween.before fun _ => still_back.serves

/-- The variables of a pattern come into the scope of an arm. -/
theorem serves_patternVariables {pattern : Pattern} (hresolves : Throughout Scopes.Resolves scopes pattern.outline) :
    Serves scopes (declareVariables pattern.vars) (scopes.afterAll pattern.outline) := by
  intro emitter hshows
  refine (ends_declareVariables pattern.vars emitter).mono fun _ final h => ⟨?_, h.1⟩
  have hsingle : [pattern].flatMap Pattern.outline = pattern.outline := by simp
  rw [← hsingle] at hresolves ⊢
  exact shows_patterns (hshows.retains h.1) hresolves (by simpa using h.2)

theorem serves_patternArm {slot : Nat} {pattern : Option Pattern} {hasGuard : Bool} {guard body : Emit Unit}
    (hpattern : Throughout Scopes.Resolves scopes.enter ((pattern.map Pattern.outline).getD []))
    (hguard : hasGuard = true → Serves (scopes.enter.afterAll ((pattern.map Pattern.outline).getD [])) guard
      (scopes.enter.afterAll ((pattern.map Pattern.outline).getD [])))
    (hbody : Serves (scopes.enter.afterAll ((pattern.map Pattern.outline).getD [])) body inner) :
    Serves scopes (patternArm slot location pattern hasGuard guard body) scopes := by
  have hvars : Serves scopes.enter (declareVariables (pattern.elim [] Pattern.vars))
      (scopes.enter.afterAll ((pattern.map Pattern.outline).getD [])) := by
    cases pattern with
    | none => exact serves_pure
    | some pattern => exact serves_patternVariables hpattern
  refine still_withChunk.before fun _ => still_opIndex.before fun _ => still_short.before fun _ =>
    still_jump.before fun _ => still_op.before fun _ => serves_enterScope <| still_get.inside fun _ =>
      hvars.inside fun _ => ?_
  have hend {rest : Option Nat → Emit Nat}
      (hrest : ∀ place, Closes scopes (scopes.enter.afterAll ((pattern.map Pattern.outline).getD []))
        (rest place) scopes) :
      Closes scopes (scopes.enter.afterAll ((pattern.map Pattern.outline).getD [])) (if hasGuard = true then (do
        guard
        let place ← jump .jumpIfFalse location
        op .pop location
        let noGuard ← pure (some place)
        rest noGuard) else do
        let noGuard ← pure none
        rest noGuard) scopes := by
    split
    · exact (hguard ‹_›).inside fun _ => still_jump.inside fun _ => still_op.inside fun _ => still_pure.inside hrest
    · exact still_pure.inside hrest
  refine hend fun place => hbody.inside fun _ => still_localsFrom.inside fun _ => closes_exitScope_before ?_
  refine still_jump.before fun _ => ?_
  cases place with
  | some place =>
    exact (still_land.bind fun _ => still_op.bind fun _ => still_drops.bind fun _ => still_jump.bind fun _ =>
      still_land.bind fun _ => still_op.bind fun _ => still_land.bind fun _ => still_pure).serves
  | none => exact (still_land.bind fun _ => still_op.bind fun _ => still_pure).serves

/-- The parameters of a clause become visible when the variables inside them have been declared. -/
theorem follows_parameters {base : Scopes} {parameters : List Pattern} {rest : Nat → Emit α}
    (hresolves : Throughout Scopes.Resolves scopes (parameters.flatMap Pattern.outline))
    (hrest : ∀ next, Follows base (scopes.afterAll (parameters.flatMap Pattern.outline)) (rest next)) :
    Follows base scopes (declareParameters parameters [] [] >>= fun found =>
      withChunk (·.addClause found.1) >>= fun index => opIndex .matchArgs index location "function clauses" >>= fun _ =>
      jump .jumpIfFalse location >>= fun next => op .pop location >>= fun _ => declareVariables found.2 >>= fun _ =>
      rest next) := by
  intro emitter hsheltered hshows
  refine ends_bind (ends_declareParameters parameters [] [] emitter) fun found first hfirst => ?_
  refine ends_bind (still_withChunk.retains first) fun _ second hsecond => ?_
  refine ends_bind (still_opIndex.retains second) fun _ third hthird => ?_
  refine ends_bind (still_jump.retains third) fun next fourth hfourth => ?_
  refine ends_bind (still_op.retains fourth) fun _ fifth hfifth => ?_
  refine ends_bind (ends_declareVariables found.2 fifth) fun _ final hfinal => ?_
  have hsame : first.Retains final := hsecond.trans (hthird.trans (hfourth.trans (hfifth.trans hfinal.1)))
  have hretains : emitter.Retains final := hfirst.1.trans hsame
  have hshown : final.Shows (scopes.afterAll (parameters.flatMap Pattern.outline)) := by
    refine shows_patterns (hshows.retains hretains) hresolves fun pattern hpattern var hvar => ?_
    rcases hfirst.2.2 pattern hpattern var hvar with ⟨depth, hmem⟩ | hlisted
    · exact ⟨depth, hsame.mem hmem⟩
    · exact hfinal.2 var hlisted
  have haround : Around emitter final := ⟨hretains.globals, hretains.enclosing⟩
  exact (hrest next final (hsheltered.around haround) hshown).mono fun _ _ => haround.trans

mutual

theorem serves_expr (nesting : Nat) (expr : Expr) (scopes : Scopes) (haimed : expr.aimed = true)
    (hresolves : Throughout Scopes.Resolves scopes expr.outline) :
    Serves scopes (compileExpr nesting expr) scopes := by
  cases expr with
  | absent => exact serves_pure
  | literal => exact still_deeper.before fun _ => still_literal.serves
  | name identifier => exact still_deeper.before fun _ => serves_name hresolves.1
  | unary _ _ operand => exact still_deeper.before fun _ => (serves_expr _ operand _ haimed hresolves).after fun _ =>
    still_op
  | binary _ operator left right =>
    simp only [Expr.aimed, Bool.and_eq_true] at haimed
    obtain ⟨hfirst, hsecond⟩ := (throughout_neutral left.neutral_outline).mp hresolves
    have hright (nesting : Nat) := serves_expr nesting right _ haimed.2 hsecond
    refine still_deeper.before fun _ => (serves_expr _ left _ haimed.1 hfirst).bind fun _ => ?_
    split
    · exact still_jump.before fun _ => still_op.before fun _ => (hright _).after fun _ => still_land
    · exact (hright _).after fun _ => still_op
  | call _ callee arguments =>
    simp only [Expr.aimed, Bool.and_eq_true] at haimed
    obtain ⟨hfirst, hsecond⟩ := (throughout_neutral callee.neutral_outline).mp hresolves
    exact still_deeper.before fun _ => (serves_expr _ callee _ haimed.1 hfirst).bind fun _ =>
      (serves_exprs _ arguments _ haimed.2 hsecond).after fun _ => still_opIndex
  | field _ object _ =>
    exact still_deeper.before fun _ => (serves_expr _ object _ haimed hresolves).after fun _ => still_onString
  | index _ object index =>
    simp only [Expr.aimed, Bool.and_eq_true] at haimed
    obtain ⟨hfirst, hsecond⟩ := (throughout_neutral object.neutral_outline).mp hresolves
    exact still_deeper.before fun _ => (serves_expr _ object _ haimed.1 hfirst).bind fun _ =>
      (serves_expr _ index _ haimed.2 hsecond).after fun _ => still_op
  | record _ fields =>
    exact still_deeper.before fun _ => (serves_fields _ fields _ haimed hresolves).after fun _ =>
      still_withChunk.bind fun _ => still_opIndex
  | array _ items =>
    exact still_deeper.before fun _ => (serves_exprs _ items _ haimed hresolves).after fun _ => still_opIndex
  | lambda location function =>
    exact still_deeper.before fun _ => serves_closure _ location function _ haimed hresolves
  | borrow _ target _ => exact still_deeper.before fun _ => serves_expr _ target _ haimed hresolves
  | move _ target =>
    cases target with
    | none => cases haimed
    | some identifier => exact still_deeper.before fun _ => serves_name hresolves.1
  | deref _ operand => exact still_deeper.before fun _ => serves_expr _ operand _ haimed hresolves
termination_by structural expr

theorem serves_exprs (nesting : Nat) (exprs : List Expr) (scopes : Scopes) (haimed : exprsAimed exprs = true)
    (hresolves : Throughout Scopes.Resolves scopes (Expr.outlines exprs)) :
    Serves scopes (compileExprs nesting exprs) scopes := by
  cases exprs with
  | nil => exact serves_pure
  | cons expr rest =>
    simp only [exprsAimed, Bool.and_eq_true] at haimed
    obtain ⟨hfirst, hrest⟩ := (throughout_neutral expr.neutral_outline).mp hresolves
    exact (serves_expr _ expr _ haimed.1 hfirst).bind fun _ => serves_exprs _ rest _ haimed.2 hrest
termination_by structural exprs

theorem serves_fields (nesting : Nat) (fields : List (String × Expr)) (scopes : Scopes)
    (haimed : fieldsAimed fields = true) (hresolves : Throughout Scopes.Resolves scopes (Expr.fieldOutlines fields)) :
    Serves scopes (compileFields nesting fields) scopes := by
  cases fields with
  | nil => exact serves_pure
  | cons field rest =>
    obtain ⟨name, value⟩ := field
    simp only [fieldsAimed, Bool.and_eq_true] at haimed
    obtain ⟨hfirst, hrest⟩ := (throughout_neutral value.neutral_outline).mp hresolves
    exact (serves_expr _ value _ haimed.1 hfirst).bind fun _ => serves_fields _ rest _ haimed.2 hrest
termination_by structural fields

theorem serves_stmt (nesting : Nat) (stmt : Stmt) (scopes : Scopes) (haimed : stmt.aimed = true)
    (hcontained : scopes.outer = [] → stmt.isContained = true)
    (hresolves : Throughout Scopes.Resolves scopes stmt.outline) :
    Serves scopes (compileStmt nesting stmt) (scopes.afterAll stmt.outline) := by
  cases stmt with
  | absent => exact serves_pure
  | declare location name initial resolution =>
    obtain ⟨hinitial, ⟨hid, hglobal⟩, -⟩ := (throughout_neutral initial.neutral_outline).mp hresolves
    obtain ⟨binding, flag⟩ := resolution
    obtain ⟨id, rfl⟩ := Option.isSome_iff_exists.mp hid
    -- In the outermost scope the statement is no declaration, so the variable is one of a frame.
    obtain rfl : flag = false := Bool.eq_false_iff.mpr fun h => nomatch hcontained (hglobal.mp h)
    have hafter : scopes.afterAll (Stmt.declare location name initial ⟨some id, false⟩).outline =
        scopes.after (.declares name ⟨some id, false⟩) := by
      rw [Stmt.outline, Scopes.afterAll_append, initial.neutral_outline]
      rfl
    rw [hafter]
    refine still_deeper.before fun _ => ?_
    rw [if_neg (show ¬ (⟨some id, false⟩ : Resolution).isGlobal = true from Bool.false_ne_true)]
    refine .whether still_op fun _ => ?_
    exact (serves_expr _ initial _ haimed hinitial).bind fun _ => serves_declares.after fun _ => still_pure
  | assign _ name value resolution =>
    obtain ⟨hvalue, hname, -⟩ := (throughout_neutral value.neutral_outline).mp hresolves
    refine Serves.leaving ?_ (value.neutral_outline.append (neutral_refers _ _))
    exact still_deeper.before fun _ => (serves_expr _ value _ haimed hvalue).bind fun _ =>
      (serves_name hname).after fun _ => still_op
  | assignField _ object _ value =>
    simp only [Stmt.aimed, Bool.and_eq_true] at haimed
    obtain ⟨hfirst, hsecond⟩ := (throughout_neutral object.neutral_outline).mp hresolves
    refine Serves.leaving ?_ (object.neutral_outline.append value.neutral_outline)
    exact still_deeper.before fun _ => (serves_expr _ object _ haimed.1 hfirst).bind fun _ =>
      (serves_expr _ value _ haimed.2 hsecond).after fun _ => still_onString.bind fun _ => still_op
  | assignIndex _ object index value =>
    simp only [Stmt.aimed, Bool.and_eq_true] at haimed
    obtain ⟨hfirst, hrest⟩ := (throughout_neutral object.neutral_outline).mp hresolves
    obtain ⟨hsecond, hthird⟩ := (throughout_neutral index.neutral_outline).mp hrest
    refine Serves.leaving ?_ (object.neutral_outline.append (index.neutral_outline.append value.neutral_outline))
    exact still_deeper.before fun _ => (serves_expr _ object _ haimed.1.1 hfirst).bind fun _ =>
      (serves_expr _ index _ haimed.1.2 hsecond).bind fun _ =>
      (serves_expr _ value _ haimed.2 hthird).after fun _ => still_op.bind fun _ => still_op
  | evaluate _ expression | print _ expression =>
    refine Serves.leaving ?_ expression.neutral_outline
    exact still_deeper.before fun _ => (serves_expr _ expression _ haimed hresolves).after fun _ => still_op
  | block _ body =>
    have hbody := throughout_scope.mp hresolves
    exact still_deeper.before fun nesting => serves_enterScope <|
      (serves_stmts nesting body _ haimed (List.cons_ne_nil _ _) hbody).inside fun _ => closes_exitScope
  | ifElse _ condition yes no =>
    simp only [Stmt.aimed, Bool.and_eq_true] at haimed
    simp only [Stmt.isContained, Bool.and_eq_true] at hcontained
    obtain ⟨htest, hbranches⟩ := (throughout_neutral condition.neutral_outline).mp hresolves
    obtain ⟨hfirst, hsecond⟩ := throughout_append.mp hbranches
    rw [Stmt.outline, Scopes.afterAll_append, condition.neutral_outline, Scopes.afterAll_append]
    exact still_deeper.before fun _ => (serves_expr _ condition _ haimed.1.1 htest).bind fun _ =>
      still_jump.before fun _ => still_op.before fun _ =>
      (serves_stmt _ yes _ haimed.1.2 (fun h => (hcontained h).1) hfirst).bind fun _ =>
      still_jump.before fun _ => still_land.before fun _ => still_op.before fun _ =>
      (serves_stmt _ no _ haimed.2 (fun h => (hcontained (by rwa [Scopes.outer_afterAll] at h)).2)
        hsecond).after fun _ => still_land
  | cond location scrutinee arms =>
    simp only [Stmt.aimed, Bool.and_eq_true] at haimed
    obtain ⟨hvalue, harms⟩ := (throughout_neutral scrutinee.neutral_outline).mp hresolves
    refine Serves.leaving ?_ (scrutinee.neutral_outline.append (Arm.neutral_outlines arms))
    cases habsent : scrutinee.isAbsent with
    | true =>
      obtain rfl := isAbsent_eq habsent
      exact still_deeper.before fun _ => serves_guardedArms _ location arms [] _ haimed.2 harms
    | false =>
      rw [habsent] at haimed
      have hscrutinee (nesting : Nat) : Serves scopes.enter (compileExpr nesting scrutinee) scopes.enter :=
        (serves_expr nesting scrutinee _ haimed.1 hvalue).entered
      cases scrutinee with
      | absent => cases habsent
      | _ =>
        exact still_deeper.before fun _ => serves_enterScope <| (hscrutinee _).inside fun _ =>
          serves_declareLocal.inside fun _ =>
          (serves_patternArms _ location _ arms [] _ haimed.2 harms).entered.inside fun _ => closes_exitScope
  | whileLoop _ condition body =>
    simp only [Stmt.aimed, Bool.and_eq_true] at haimed
    obtain ⟨htest, hbody⟩ := (throughout_neutral condition.neutral_outline).mp (throughout_scope.mp hresolves)
    exact still_deeper.before fun _ => still_enterLoop.before fun _ => still_position.before fun _ =>
      (serves_expr _ condition _ haimed.1 htest).left.bind fun _ => still_jump.before fun _ =>
      still_op.before fun _ =>
      (serves_loopTurn (serves_stmt _ body _ haimed.2 (fun h => absurd h (List.cons_ne_nil _ _)) hbody)
        still_pure).after fun _ =>
      still_land.bind fun _ => still_op.bind fun _ => still_exitLoop
  | forLoop location counter binding first bound body =>
    simp only [Stmt.aimed, Bool.and_eq_true] at haimed
    obtain ⟨hfirst, hrest⟩ := (throughout_neutral first.neutral_outline).mp hresolves
    obtain ⟨hbound, hturn⟩ := (throughout_neutral bound.neutral_outline).mp hrest
    obtain ⟨⟨hid, -⟩, hbody⟩ := throughout_scope.mp (throughout_scope.mp hturn)
    obtain ⟨id, rfl⟩ := Option.isSome_iff_exists.mp hid
    have hcode (nesting slot : Nat) :
        Serves scopes.enter.enter (do
          opShort .getLocal slot location
          let _ ← declareLocal (some id) location
          compileStmt nesting body)
          ((scopes.enter.enter.after (.declares counter { binding := some id })).afterAll body.outline) :=
      still_opShort.before fun _ => serves_declares.bind fun _ =>
        serves_stmt nesting body _ haimed.2 (fun h => absurd h (List.cons_ne_nil _ _)) hbody
    refine Serves.leaving ?_ (first.neutral_outline.append (bound.neutral_outline.append (neutral_nil.scope _)))
    refine still_deeper.before fun _ => serves_enterScope <|
      (serves_expr _ first _ haimed.1.1 hfirst).entered.inside fun _ => serves_declareLocal.inside fun _ =>
      (serves_expr _ bound _ haimed.1.2 hbound).entered.inside fun _ => serves_declareLocal.inside fun _ =>
      still_enterLoop.inside fun _ => still_position.inside fun _ => still_opShort.inside fun _ =>
      still_opShort.inside fun _ => still_op.inside fun _ => still_jump.inside fun _ => still_op.inside fun _ =>
      (serves_loopTurn (hcode _ _) ?_).inside fun _ =>
      still_land.inside fun _ => still_op.inside fun _ => still_exitLoop.inside fun _ => closes_exitScope
    exact still_opShort.bind fun _ => still_constant.bind fun _ => still_op.bind fun _ => still_opShort.bind fun _ =>
      still_op
  | forever _ body =>
    exact still_deeper.before fun _ => still_enterLoop.before fun _ => still_position.before fun _ =>
      (serves_loopTurn (serves_stmt _ body _ haimed (fun h => absurd h (List.cons_ne_nil _ _))
        (throughout_scope.mp hresolves)) still_pure).after fun _ =>
      still_exitLoop
  | leave => exact (still_deeper.bind fun _ => still_jumpFromLoop).serves
  | skip => exact (still_deeper.bind fun _ => still_jumpFromLoop).serves
  | giveBack _ value =>
    refine Serves.leaving ?_ value.neutral_outline
    exact still_deeper.before fun _ => .whether still_op fun _ =>
      (serves_expr _ value _ haimed hresolves).after fun _ => still_op
  | disown _ name resolution =>
    exact still_deeper.before fun _ => (serves_name hresolves.1).after fun _ => still_op
  | function location declaration resolution =>
    obtain ⟨⟨hid, hglobal⟩, hbody⟩ := hresolves
    obtain ⟨binding, flag⟩ := resolution
    obtain ⟨id, rfl⟩ := Option.isSome_iff_exists.mp hid
    obtain rfl : flag = false := Bool.eq_false_iff.mpr fun h => nomatch hcontained (hglobal.mp h)
    have hafter : scopes.afterAll (Stmt.function location declaration ⟨some id, false⟩).outline =
        scopes.after (.declares declaration.name ⟨some id, false⟩) := declaration.neutral_outline _
    rw [hafter]
    exact still_deeper.before fun _ => serves_declares.bind fun _ =>
      serves_closure _ location declaration _ haimed hbody
termination_by structural stmt

theorem serves_guardedArms (nesting : Nat) (location : Location) (arms : List Arm) (done : List Nat) (scopes : Scopes)
    (haimed : armsAimed true arms = true)
    (hresolves : Throughout Scopes.Resolves scopes (Arm.outlines arms)) :
    Serves scopes (compileGuardedArms nesting location arms done) scopes := by
  cases arms with
  | nil => exact (still_op.bind fun _ => still_landAll).serves
  | cons arm rest =>
    obtain ⟨place, pattern, guard, body⟩ := arm
    simp only [armsAimed, Bool.and_eq_true] at haimed
    obtain ⟨⟨⟨hpattern, hguard⟩, hbody⟩, hrest⟩ := haimed
    -- The variables of a pattern would be visible in the arm, but no slot is made for them here.
    obtain rfl : pattern = none := by simpa using hpattern
    obtain ⟨harm, hothers⟩ := hresolves
    obtain ⟨htest, hinside⟩ := (throughout_neutral guard.neutral_outline).mp harm
    have hstmts := serves_stmts nesting body _ hbody (List.cons_ne_nil _ _) hinside
    cases habsent : guard.isAbsent with
    | true =>
      obtain rfl := isAbsent_eq habsent
      simp only [compileGuardedArms, habsent, if_true, pure_bind]
      exact serves_enterScope <| hstmts.inside fun _ => closes_exitScope_before <|
        (still_jump.bind fun _ => still_landAll).serves
    | false =>
      simp only [compileGuardedArms, habsent, Bool.false_eq_true, if_false, pure_bind]
      refine (serves_expr _ guard _ hguard htest).left.bind
        fun _ => still_jump.before fun _ => still_op.before fun _ => serves_enterScope <| hstmts.inside fun _ =>
        closes_exitScope_before <| still_jump.before fun _ => still_land.before fun _ => still_op.before fun _ => ?_
      exact serves_guardedArms _ location rest _ _ hrest hothers
termination_by structural arms

theorem serves_patternArms (nesting : Nat) (location : Location) (slot : Nat) (arms : List Arm) (done : List Nat)
    (scopes : Scopes) (haimed : armsAimed false arms = true)
    (hresolves : Throughout Scopes.Resolves scopes (Arm.outlines arms)) :
    Serves scopes (compilePatternArms nesting location slot arms done) scopes := by
  cases arms with
  | nil => exact (still_op.bind fun _ => still_landAll).serves
  | cons arm rest =>
    obtain ⟨place, pattern, guard, body⟩ := arm
    simp only [armsAimed, Bool.and_eq_true] at haimed
    obtain ⟨⟨⟨-, hguard⟩, hbody⟩, hrest⟩ := haimed
    obtain ⟨harm, hothers⟩ := hresolves
    obtain ⟨hpattern, hinside⟩ := throughout_append.mp harm
    obtain ⟨htest, hstmts⟩ := (throughout_neutral guard.neutral_outline).mp hinside
    refine (serves_patternArm hpattern (fun _ => ?_)
      (serves_stmts nesting body _ hbody (by rw [Scopes.outer_afterAll]; exact List.cons_ne_nil _ _)
        hstmts)).bind fun _ => ?_
    · exact serves_expr _ guard _ hguard htest
    · split
      · exact still_landAll.serves
      · exact serves_patternArms _ location slot rest _ _ hrest hothers
termination_by structural arms

theorem serves_stmts (nesting : Nat) (stmts : List Stmt) (scopes : Scopes) (haimed : stmtsAimed stmts = true)
    (hinner : scopes.outer ≠ [])
    (hresolves : Throughout Scopes.Resolves scopes (Stmt.outlines stmts)) :
    Serves scopes (compileStmts nesting stmts) (scopes.afterAll (Stmt.outlines stmts)) := by
  cases stmts with
  | nil => exact serves_pure
  | cons stmt rest =>
    simp only [stmtsAimed, Bool.and_eq_true] at haimed
    obtain ⟨hfirst, hrest⟩ := throughout_append.mp hresolves
    rw [Stmt.outlines, Scopes.afterAll_append]
    refine (serves_stmt _ stmt _ haimed.1 (fun h => absurd h hinner) hfirst).bind fun _ => ?_
    exact serves_stmts _ rest _ haimed.2 (by rwa [Scopes.outer_afterAll]) hrest
termination_by structural stmts

theorem serves_closure (nesting : Nat) (location : Location) (function : Function) (scopes : Scopes)
    (haimed : function.aimed = true) (hresolves : Throughout Scopes.Resolves scopes function.outline) :
    Serves scopes (compileFunction nesting location function) scopes := by
  obtain ⟨name, isProc, clauses⟩ := function
  exact serves_function (nests_clauses _ location clauses _ haimed hresolves)
termination_by structural function

theorem nests_clauses (nesting : Nat) (location : Location) (clauses : List Clause) (scopes : Scopes)
    (haimed : clausesAimed clauses = true) (hresolves : Throughout Scopes.Resolves scopes (Clause.outlines clauses)) :
    Nests scopes (compileClauses nesting location clauses) := by
  cases clauses with
  | nil => exact fun emitter _ => ⟨rfl, rfl⟩
  | cons clause rest =>
    obtain ⟨place, parameters, body⟩ := clause
    simp only [clausesAimed, Bool.and_eq_true] at haimed
    obtain ⟨hclause, hrest⟩ := hresolves
    obtain ⟨hparameters, hbody⟩ := throughout_append.mp hclause
    have hstmts := serves_stmts nesting body _ haimed.1
      (by rw [Scopes.outer_afterAll]; exact List.cons_ne_nil _ _) hbody
    refine nests_enterClause (follows_parameters hparameters fun _ => hstmts.follows fun _ =>
      still_op.serves.follows fun _ => still_op.serves.follows fun _ => still_land.serves.follows fun _ =>
      still_op.serves.follows fun _ => Nests.follows ?_)
    exact nests_clauses _ location rest _ haimed.2 hrest
termination_by structural clauses

end

end Walk

section Programs

variable {table : GlobalTable} {next : α → Emit β} {id : BindingId} {stmt : Stmt} {stmts : List Stmt}

/-- Everything that is visible is global and has a slot. -/
def Tabled (table : GlobalTable) (scopes : Scopes) : Prop :=
  ∀ name resolution, scopes.visible name = some resolution →
    ∃ id, resolution = ⟨some id, true⟩ ∧ (table.slots[id]?).isSome

theorem tabled_empty : Tabled table {} :=
  fun _ _ h => by cases h

/-- A declaration that has a slot becomes visible. -/
theorem Tabled.declares (htabled : Tabled table scopes) (hslot : (table.slots[id]?).isSome) (name : String) :
    Tabled table (scopes.after (.declares name ⟨some id, true⟩)) := by
  intro wanted resolution h
  rw [Scopes.visible_declares] at h
  split at h
  · cases h
    exact ⟨id, rfl, hslot⟩
  · exact htabled wanted resolution h

/-- The emitter of a script, between its statements. -/
structure OfScript (table : GlobalTable) (emitter : Emitter) : Prop where
  globals : emitter.globals = table
  shallow : ∀ var ∈ emitter.current.variables, var.2 ≤ emitter.current.depth

theorem OfScript.shows {emitter : Emitter} (hscript : OfScript table emitter) (htabled : Tabled table scopes) :
    emitter.Shows scopes := by
  refine ⟨fun name resolution hvisible => ?_, hscript.shallow⟩
  obtain ⟨id, rfl, hslot⟩ := htabled name resolution hvisible
  refine ⟨id, rfl, ?_⟩
  rw [if_pos rfl, hscript.globals]
  exact hslot

theorem OfScript.retains {before after : Emitter} (hscript : OfScript table before) (hretains : before.Retains after) :
    OfScript table after :=
  ⟨hretains.globals.trans hscript.globals, hretains.shallow hscript.shallow⟩

/-- A step of a script. -/
def Advances (table : GlobalTable) (step : Emit α) : Prop :=
  ∀ emitter : Emitter, OfScript table emitter → Ends (step emitter) fun _ final => OfScript table final

theorem Advances.bind (hstep : Advances table step) (hnext : ∀ value, Advances table (next value)) :
    Advances table (step >>= next) :=
  fun emitter hscript => ends_bind (hstep emitter hscript) fun value final h => hnext value final h

theorem Serves.advances (hstep : Serves scopes step last) (htabled : Tabled table scopes) : Advances table step :=
  fun emitter hscript => (hstep emitter (hscript.shows htabled)).mono fun _ _ h => hscript.retains h.2

theorem IsStill.advances (hstep : IsStill step) : Advances table step :=
  fun emitter hscript => (hstep.retains emitter).mono fun _ _ h => hscript.retains h

theorem advances_defineGlobal (hslot : (table.slots[id]?).isSome) :
    Advances table (defineGlobal ⟨some id, true⟩ location) := by
  have hfound : Advances table (globalSlot id location) := by
    intro emitter hscript
    obtain ⟨slot, hslot⟩ := Option.isSome_iff_exists.mp hslot
    unfold globalSlot
    rw [get_bind, hscript.globals, hslot]
    exact hscript
  exact still_op.advances.bind fun _ => hfound.bind fun _ => still_short.advances.bind fun _ => still_op.advances

/-- What is known of a statement of a program. -/
structure Placed (table : GlobalTable) (stmt : Stmt) : Prop where
  aimed : stmt.aimed = true
  contained : stmt.isDeclaration = true ∨ stmt.isContained = true
  slots : ∀ id, stmt.globalId? = some id → (table.slots[id]?).isSome
  function : ∀ location declaration resolution, stmt = .function location declaration resolution →
    ∃ id, resolution = ⟨some id, true⟩

/-- A declaration in the outermost scope has a number and is global. -/
theorem resolution_of_resolves (name : String) {resolution : Resolution} (houter : scopes.outer = [])
    (hresolves : scopes.Resolves (.declares name resolution)) : ∃ id, resolution = ⟨some id, true⟩ := by
  obtain ⟨binding, isGlobal⟩ := resolution
  obtain ⟨id, rfl⟩ := Option.isSome_iff_exists.mp hresolves.1
  obtain rfl : isGlobal = true := hresolves.2.mpr houter
  exact ⟨id, rfl⟩

theorem Tabled.early (htabled : Tabled table scopes) (hplaced : ∀ stmt ∈ stmts, Placed table stmt) :
    Tabled table (scopes.afterAll (stmts.flatMap Stmt.early)) := by
  induction stmts generalizing scopes with
  | nil => exact htabled
  | cons stmt rest ih =>
    obtain ⟨hstmt, hrest⟩ := List.forall_mem_cons.mp hplaced
    rw [List.flatMap_cons, Scopes.afterAll_append]
    refine ih ?_ hrest
    cases stmt with
    | function location declaration resolution =>
      obtain ⟨id, rfl⟩ := hstmt.function _ _ _ rfl
      exact htabled.declares (hstmt.slots id rfl) declaration.name
    | _ => exact htabled

theorem Placed.tabled (hplaced : Placed table stmt) (houter : scopes.outer = []) (htabled : Tabled table scopes)
    (hresolves : Throughout Scopes.Resolves scopes stmt.late) : Tabled table (scopes.afterAll stmt.late) := by
  rcases hplaced.contained with hdeclares | hcontained
  · cases stmt with
    | declare location name initial resolution =>
      obtain ⟨-, hname, -⟩ := (throughout_neutral initial.neutral_outline).mp hresolves
      obtain ⟨id, rfl⟩ := resolution_of_resolves name houter hname
      rw [Stmt.late_eq_outline rfl, Stmt.outline, Scopes.afterAll_append, initial.neutral_outline]
      exact htabled.declares (hplaced.slots id rfl) name
    | function location declaration resolution =>
      rw [Stmt.late, declaration.neutral_outline]
      exact htabled
    | _ => cases hdeclares
  · have hneutral := stmt.neutral_outline hcontained
    rw [Stmt.late_eq_outline (Stmt.isFunction_of_isContained hcontained), hneutral]
    exact htabled

/-- The code of a statement in the outermost scope. -/
theorem Placed.advances (hplaced : Placed table stmt) (houter : scopes.outer = []) (htabled : Tabled table scopes)
    (hresolves : Throughout Scopes.Resolves scopes stmt.late) : Advances table (compileStmt 0 stmt) := by
  rcases hplaced.contained with hdeclares | hcontained
  · cases stmt with
    | declare location name initial resolution =>
      obtain ⟨hinitial, hname, -⟩ := (throughout_neutral initial.neutral_outline).mp hresolves
      obtain ⟨id, rfl⟩ := resolution_of_resolves name houter hname
      refine still_deeper.advances.bind fun nesting => ?_
      rw [if_pos rfl]
      split
      · exact still_pure.advances
      · exact ((serves_expr nesting initial scopes hplaced.aimed hinitial).advances htabled).bind fun _ =>
          advances_defineGlobal (hplaced.slots id rfl)
    | function location declaration resolution =>
      obtain ⟨id, rfl⟩ := hplaced.function _ _ _ rfl
      exact still_deeper.advances.bind fun nesting => still_pure.advances
    | _ => cases hdeclares
  · rw [Stmt.late_eq_outline (Stmt.isFunction_of_isContained hcontained)] at hresolves
    exact (serves_stmt 0 stmt scopes hplaced.aimed (fun _ => hcontained) hresolves).advances htabled

theorem advances_stmts (houter : scopes.outer = []) (htabled : Tabled table scopes)
    (hplaced : ∀ stmt ∈ stmts, Placed table stmt)
    (hresolves : Throughout Scopes.Resolves scopes (stmts.flatMap Stmt.late)) :
    Advances table (compileStmts 0 stmts) := by
  induction stmts generalizing scopes with
  | nil => exact still_pure.advances
  | cons stmt rest ih =>
    obtain ⟨hstmt, hrest⟩ := List.forall_mem_cons.mp hplaced
    obtain ⟨hfirst, hothers⟩ := throughout_append.mp hresolves
    refine (hstmt.advances houter htabled hfirst).bind fun _ => ?_
    exact ih (by rw [Scopes.outer_afterAll, houter]) (hstmt.tabled houter htabled hfirst) hrest hothers

/-- Functions are built before the first statement runs. What is visible in their bodies has a slot even so. -/
theorem advances_hoistFunctions (houter : scopes.outer = []) (htabled : Tabled table scopes)
    (hplaced : ∀ stmt ∈ stmts, Placed table stmt)
    (hresolves : Throughout Scopes.Resolves scopes (stmts.flatMap Stmt.late)) :
    Advances table (hoistFunctions stmts) := by
  induction stmts generalizing scopes with
  | nil => exact still_pure.advances
  | cons stmt rest ih =>
    obtain ⟨hstmt, hrest⟩ := List.forall_mem_cons.mp hplaced
    obtain ⟨hfirst, hothers⟩ := throughout_append.mp hresolves
    -- The names in a body are resolved where the function stands, after statements that have not been compiled yet.
    have hlater := ih (by rw [Scopes.outer_afterAll, houter]) (hstmt.tabled houter htabled hfirst) hrest hothers
    cases stmt with
    | function location declaration resolution =>
      obtain ⟨id, rfl⟩ := hstmt.function _ _ _ rfl
      exact ((serves_closure 0 location declaration scopes hstmt.aimed hfirst).advances htabled).bind fun _ =>
        (advances_defineGlobal (hstmt.slots id rfl)).bind fun _ => hlater
    | _ => exact hlater

end Programs

end Emit

namespace Program

open Emit

variable {program : Program}

/-- Functions that are statements of a program are global. -/
theorem resolution_of_early {scopes : Scopes} {stmts : List Stmt} (houter : scopes.outer = [])
    (hresolves : Throughout Scopes.Resolves scopes (stmts.flatMap Stmt.early)) {location : Location}
    {declaration : Function} {resolution : Resolution} (hmem : .function location declaration resolution ∈ stmts) :
    ∃ id, resolution = ⟨some id, true⟩ := by
  induction stmts generalizing scopes with
  | nil => cases hmem
  | cons stmt rest ih =>
    obtain ⟨hfirst, hothers⟩ := throughout_append.mp hresolves
    rcases List.mem_cons.mp hmem with rfl | hmem
    · exact resolution_of_resolves declaration.name houter hfirst.1
    · exact ih (by rw [Scopes.outer_afterAll, houter]) hothers hmem

theorem placed_of_mem {table : GlobalTable} (haimed : program.aimed = true) (hcontained : program.isContained = true)
    (hearly : Throughout Scopes.Resolves {} (program.statements.flatMap Stmt.early))
    (htable : GlobalTable.ofStatements {} program.statements = .ok table) {stmt : Stmt}
    (hmem : stmt ∈ program.statements) : Placed table stmt where
  aimed := by
    rw [aimed, stmtsAimed_eq_all] at haimed
    exact List.all_eq_true.mp haimed stmt hmem
  contained := Bool.or_eq_true_iff.mp (List.all_eq_true.mp hcontained stmt hmem)
  slots id hid := GlobalTable.slots_ofStatements htable hmem hid
  function location declaration resolution heq := resolution_of_early rfl hearly (heq ▸ hmem)

/-- Where names are resolved, code generation gives up only on a fault of the program. -/
theorem ends_compile (hanalyzed : program.analyzed = true) (haimed : program.aimed = true)
    (hcontained : program.isContained = true) (hresolves : Throughout Scopes.Resolves {} program.outline) :
    (∃ unit, program.compile = .ok unit) ∨ ∃ fault, program.compile = .error fault ∧ fault.IsRejection := by
  obtain ⟨hearly, hlate⟩ := throughout_append.mp hresolves
  unfold compile
  rw [if_pos hanalyzed]
  cases htable : GlobalTable.ofStatements {} program.statements with
  | error fault =>
    obtain ⟨diagnostic, rfl, hkind⟩ := GlobalTable.ofStatements_eq_error htable
    exact .inr ⟨_, rfl, diagnostic, rfl, by rw [hkind]; decide⟩
  | ok table =>
    have hplaced : ∀ stmt ∈ program.statements, Placed table stmt := fun _ =>
      placed_of_mem haimed hcontained hearly htable
    have htabled : Tabled table (({} : Scopes).afterAll (program.statements.flatMap Stmt.early)) :=
      tabled_empty.early hplaced
    have houter : (({} : Scopes).afterAll (program.statements.flatMap Stmt.early)).outer = [] := Scopes.outer_afterAll _
    have hcode : Advances table (do
        hoistFunctions program.statements
        compileStmts 0 program.statements
        op .halt {}) :=
      (advances_hoistFunctions houter htabled hplaced hlate).bind fun _ =>
        (advances_stmts houter htabled hplaced hlate).bind fun _ => still_op.advances
    have hends := hcode { globals := table } ⟨rfl, fun _ h => by cases h⟩
    generalize hrun : (do
        hoistFunctions program.statements
        compileStmts 0 program.statements
        op .halt {} : Emit Unit) { globals := table } = outcome at hends
    cases outcome with
    | error fault => exact .inr ⟨fault, by simp only [bind, Except.bind, pure, StateT.run] at hrun ⊢; rw [hrun], hends⟩
    | ok pair => exact .inl ⟨_, by simp only [bind, Except.bind, pure, StateT.run] at hrun ⊢; rw [hrun]; rfl⟩

/-- Acceptance is enough for code generation. A program that analysis has accepted is compiled, or rejected since it
leaves a loop that is not there or is too large; no name is left without a slot. Every move says what it moves, every
pattern has a value to look at, and the declarations of the outermost scope are statements by themselves. -/
theorem compile_accepted (hfresh : program.IsFresh) (haimed : program.aimed = true)
    (hcontained : program.isContained = true) (haccepted : program.analyze.diagnostics = []) :
    (∃ unit, program.analyze.program.compile = .ok unit) ∨
      ∃ diagnostic, program.analyze.program.compile = .error (.rejected diagnostic) ∧
        diagnostic.kind ∈ [ErrorKind.breakOutsideLoop, .limitExceeded] := by
  have hanalyzed : program.analyze.program.analyzed = true :=
    Bool.or_eq_true_iff.mpr (.inr (Array.isEmpty_iff.mpr (Array.toList_eq_nil_iff.mp haccepted)))
  have haimedAfter : program.analyze.program.aimed = true := by
    rw [aimed, ← Stmt.aimed_sources, sources_analyze, Stmt.aimed_sources]
    exact haimed
  have hcontainedAfter := program.isContained_analyze.trans hcontained
  have hresolves := (lexicallyResolved_analyze (.inl hfresh) haccepted).resolves
  rcases ends_compile hanalyzed haimedAfter hcontainedAfter hresolves with
    hdone | ⟨fault, hfault, diagnostic, rfl, hkind⟩
  · exact .inl hdone
  · exact .inr ⟨diagnostic, hfault, hkind⟩

/-- A function that is called before its declaration and gives back one inside it, which looks at a variable of a
pattern of the outer one. -/
def lateSelector : Program :=
  { statements :=
      [.declare {} "picked"
          (.call {} (.name ⟨{}, "select", {}⟩) [.record {} [("x", .literal {} (.scalar (.int 1)))]]) {},
        .function {} ⟨"select", false, [⟨{}, [.destructure {} [("x", .bind {} "inner" none)]],
          [.giveBack {} (.lambda {} ⟨"", false, [⟨{}, [], [.giveBack {} (.name ⟨{}, "inner", {}⟩)]⟩]⟩)]⟩]⟩ {},
        .print {} (.call {} (.name ⟨{}, "picked", {}⟩) [])] }

theorem compile_accepted_lateSelector : lateSelector.IsFresh ∧ lateSelector.aimed = true ∧
    lateSelector.isContained = true ∧ lateSelector.analyze.diagnostics = [] ∧
    ((∃ unit, lateSelector.analyze.program.compile = .ok unit) ∨
      ∃ diagnostic, lateSelector.analyze.program.compile = .error (.rejected diagnostic) ∧
        diagnostic.kind ∈ [ErrorKind.breakOutsideLoop, .limitExceeded]) := by
  have hfresh : lateSelector.IsFresh := by
    unfold IsFresh Unresolved
    decide +kernel
  have haimed : lateSelector.aimed = true := by decide
  have hcontained : lateSelector.isContained = true := by decide
  have haccepted : lateSelector.analyze.diagnostics = [] := by decide +kernel
  exact ⟨hfresh, haimed, hcontained, haccepted, compile_accepted hfresh haimed hcontained haccepted⟩

/-- A variable whose declaration is the branch of an if. -/
def bareVariable : Program :=
  { statements :=
      [.ifElse ⟨1, 1⟩ (.literal {} (.scalar (.bool true)))
        (.declare ⟨1, 9⟩ "x" (.literal {} (.scalar (.int 1))) {}) .absent] }

/-- Analysis takes the variable for a global one, and code generation has no slot for it. -/
theorem compile_fails_bareVariable : bareVariable.IsFresh ∧ bareVariable.aimed = true ∧
    bareVariable.isContained = false ∧ bareVariable.analyze.diagnostics = [] ∧
    (bareVariable.analyze.program.compile.map fun _ => ()) = .error (.noGlobalSlot 1) := by
  unfold IsFresh Unresolved
  decide +kernel

end Program

end OwnScript
