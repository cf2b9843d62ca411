import OwnScript.Proofs.Meaning.Arms
import OwnScript.Proofs.Meaning.Loops
import OwnScript.Proofs.Program.Shape

/-!
The code of a statement ends as the evaluation of the statement ends, and fails where that fails. The induction is on
the syntax; the loops and the arms of a cond are followed by lemmas of their own.
-/

namespace OwnScript

open Stateful Machine

namespace Exec

open Evaluate

variable {T : Translation} {loop : Option LoopPlan} {m : Machine} {p q turns : Nat} {nested : Bool} {scene : Scene}
  {slots outer : FrameSlots} {scopes : Scopes} {scope last : FrameScope} {location : Location} {value : Value}
  {name : String} {resolution : Resolution}

section Simple

variable {height : Option Nat} {place : Location} {expr object index initial : Expr} {field : String}

/-- Code was only generated for what is there. -/
theorem present_of_code {count : Nat} (hcode : ExprCode T.table T.code count scope p expr last q) :
    expr.isAbsent = false := by
  cases hcode with
  | absent h => exact absurd trivial h
  | _ => rfl

theorem Pushed.pop (hpushed : Pushed T q slots [] value scene m) (hpop : T.code.Has q height .pop 0 0 place) :
    Leads OutOfRoom (Rests T (q + 1) slots scene) m := by
  obtain ⟨after, hlater, htied⟩ := hpushed
  exact (htied.pop hpop).imp fun machine htied => ⟨after, hlater, htied⟩

/-- What is declared outside of all scopes is global. -/
theorem nested_eq (hfits : scopes.Fits T.nameOf (.declares name resolution))
    (hnested : nested = true ↔ scopes.outer ≠ []) :
    nested = !resolution.isGlobal := by
  obtain ⟨_, -, hglobal, -⟩ := hfits
  cases hkind : resolution.isGlobal with
  | true =>
    rw [Bool.not_true, Bool.eq_false_iff]
    exact fun h => hnested.mp h (hglobal.mp hkind)
  | false =>
    refine hnested.mpr fun h => ?_
    rw [hglobal.mpr h] at hkind
    cases hkind

/-- A local variable is declared with the value on top of the stack. -/
theorem goes_declareLocal (hsituated : Situated T.nameOf scopes slots scope)
    (hfits : scopes.Fits T.nameOf (.declares name resolution)) (hinner : scopes.outer ≠ [])
    (htied : Tied T p slots [value] scene m) :
    Goes T p (scopes.after (.declares name resolution)) (⟨resolution.binding, false⟩ :: scope) slots
      { scene with locals := (name, value) :: scene.locals } m := by
  obtain ⟨id, hbinding, -, hdeclared⟩ := hsituated.declare hfits hinner value false
  exact ⟨[.named name id value], slots, .refl slots, hdeclared, congrArg ((name, value) :: ·) htied.locals,
    htied.stands⟩

/-- A global variable is declared with the value on top of the stack. -/
theorem leads_declareGlobal {id : BindingId} {slot : Nat} (hsituated : Situated T.nameOf scopes slots scope)
    (hfits : scopes.Fits T.nameOf (.declares name resolution)) (houtermost : scopes.outer = [])
    (hbinding : resolution.binding = some id) (hslot : T.table.slots[id]? = some slot)
    (hset : T.code.Has p height .setGlobal slot 0 place) (hpop : T.code.Has (p + 3) height .pop 0 0 place)
    (htied : Tied T p slots [value] scene m) :
    Leads OutOfRoom (Goes T (p + 4) (scopes.after (.declares name resolution)) scope slots
      { scene with globals := (name, value) :: scene.globals }) m := by
  obtain ⟨-, hname, hdeclared⟩ := hsituated.declareGlobal hfits houtermost
  refine (leads_always hset htied.stands (always_setGlobal hslot 0)).bind fun machine hstands => ?_
  rw [hname id hbinding] at hstands
  exact (leads_pop hpop hstands).imp fun machine hstands => ⟨[], slots, .refl slots, hdeclared, htied.locals, hstands⟩

theorem follows_declare
    (hcode : StmtCode T.table T.code loop scope p (.declare location name initial resolution) last q)
    (hfits : Throughout (Scopes.Fits T.nameOf) scopes (Stmt.declare location name initial resolution).outline)
    (hnested : nested = true ↔ scopes.outer ≠ []) (hplaced : Placed T loop p scopes scope slots outer scene m) :
    Follows T ((Stmt.declare location name initial resolution).perform turns nested scene)
      (Carried T loop q (scopes.after (.declares name resolution)) last slots outer) m := by
  obtain ⟨hinitial, hdeclares, -⟩ := throughout_expr.mp hfits
  have hkind := nested_eq hdeclares hnested
  have houter : resolution.isGlobal = true ↔ scopes.outer = [] := by
    obtain ⟨-, -, hglobal, -⟩ := hdeclares
    exact hglobal
  cases hcode with
  | declareUndefined hglobal =>
    obtain rfl : nested = false := hkind.trans (congrArg (!·) hglobal)
    obtain ⟨-, -, hdeclared⟩ := hplaced.situated.declareGlobal hdeclares (houter.mp hglobal)
    exact follows_pure (.next ⟨[], slots, .refl slots, hdeclared, hplaced.tied⟩)
  | declareEmpty hlocal hhas =>
    obtain rfl : nested = true := hkind.trans (congrArg (!·) hlocal)
    refine (leads_always hhas hplaced.tied.stands (always_load .nil)).follows fun machine hstands =>
      follows_pure (.next ?_)
    exact goes_declareLocal hplaced.situated hdeclares (hnested.mp rfl) ⟨hplaced.tied.locals, hstands⟩
  | declareGlobal hglobal hbinding hslot hexpr hset hpop =>
    obtain rfl : nested = false := hkind.trans (congrArg (!·) hglobal)
    simp only [Stmt.perform, present_of_code hexpr, Bool.false_eq_true, if_false]
    refine (follows_expr initial hexpr hinitial hplaced.situated hplaced.tied).bind fun value now machine hpushed => ?_
    obtain ⟨after, hlater, htied⟩ := hpushed
    have hsituated := (hplaced.situated.change hlater).later hexpr.later
    exact (leads_declareGlobal hsituated hdeclares (houter.mp hglobal) hbinding hslot hset hpop htied).follows
      fun machine hgoes => follows_pure (.next (hgoes.since hlater))
  | declareLocal hlocal hexpr =>
    obtain rfl : nested = true := hkind.trans (congrArg (!·) hlocal)
    simp only [Stmt.perform, present_of_code hexpr, Bool.false_eq_true, if_false]
    refine (follows_expr initial hexpr hinitial hplaced.situated hplaced.tied).bind fun value now machine hpushed => ?_
    obtain ⟨after, hlater, htied⟩ := hpushed
    have hsituated := (hplaced.situated.change hlater).later hexpr.later
    exact follows_pure (.next ((goes_declareLocal hsituated hdeclares (hnested.mp rfl) htied).since hlater))

theorem follows_assignment (hcode : StmtCode T.table T.code loop scope p (.assign location name expr resolution) last q)
    (hfits : Throughout (Scopes.Fits T.nameOf) scopes (Stmt.assign location name expr resolution).outline)
    (hplaced : Placed T loop p scopes scope slots outer scene m) :
    Follows T ((Stmt.assign location name expr resolution).perform turns nested scene)
      (Carried T loop q scopes last slots outer) m := by
  obtain ⟨hexpr, hrefers, -⟩ := throughout_expr.mp hfits
  cases hcode with
  | assign hcode hhas haccesses hpop =>
    rw [Stmt.perform]
    refine (follows_expr expr hcode hexpr hplaced.situated hplaced.tied).bind fun value now machine hpushed => ?_
    obtain ⟨after, hlater, htied⟩ := hpushed
    have hsituated := (hplaced.situated.change hlater).later hcode.later
    refine (follows_assign htied hsituated hrefers haccesses hhas).bind fun _ now machine hpushed => ?_
    exact ((hpushed.since hlater).pop hpop).follows fun machine hrests =>
      follows_pure (hplaced.concludes hcode.later hrests)

theorem follows_assignField
    (hcode : StmtCode T.table T.code loop scope p (.assignField location object field expr) last q)
    (hfits : Throughout (Scopes.Fits T.nameOf) scopes (Stmt.assignField location object field expr).outline)
    (hplaced : Placed T loop p scopes scope slots outer scene m) :
    Follows T ((Stmt.assignField location object field expr).perform turns nested scene)
      (Carried T loop q scopes last slots outer) m := by
  obtain ⟨hobject, hexpr⟩ := throughout_expr.mp hfits
  cases hcode with
  | assignField hfirst hsecond hhas hname hpop =>
    rw [Stmt.perform]
    refine (follows_expr object hfirst hobject hplaced.situated hplaced.tied).bind fun target now machine hpushed => ?_
    obtain ⟨held, hheld, htied⟩ := hpushed
    have hsituated := (hplaced.situated.change hheld).later hfirst.later
    refine (follows_expr expr hsecond hexpr hsituated htied).bind fun value now machine hpushed => ?_
    obtain ⟨after, hlater, htied⟩ := hpushed
    refine (htied.answers hhas (answers_setField hname 0)).bind fun heap now machine h => ?_
    obtain ⟨rfl, hstands⟩ := h
    exact (leads_pop hpop hstands).follows fun machine hstands => follows_pure
      (hplaced.concludes (hfirst.later.trans hsecond.later) ⟨after, hheld.trans hlater, htied.locals, hstands⟩)

theorem follows_assignIndex
    (hcode : StmtCode T.table T.code loop scope p (.assignIndex location object index expr) last q)
    (hfits : Throughout (Scopes.Fits T.nameOf) scopes (Stmt.assignIndex location object index expr).outline)
    (hplaced : Placed T loop p scopes scope slots outer scene m) :
    Follows T ((Stmt.assignIndex location object index expr).perform turns nested scene)
      (Carried T loop q scopes last slots outer) m := by
  obtain ⟨hobject, hrest⟩ := throughout_expr.mp hfits
  obtain ⟨hindex, hexpr⟩ := throughout_expr.mp hrest
  cases hcode with
  | assignIndex hfirst hsecond hthird hhas hpop =>
    rw [Stmt.perform]
    refine (follows_expr object hfirst hobject hplaced.situated hplaced.tied).bind fun target now machine hpushed => ?_
    obtain ⟨held, hheld, htied⟩ := hpushed
    have hsituated := (hplaced.situated.change hheld).later hfirst.later
    refine (follows_expr index hsecond hindex hsituated htied).bind fun place now machine hpushed => ?_
    obtain ⟨kept, hkept, htied⟩ := hpushed
    have hsituated := (hsituated.change hkept).later hsecond.later
    refine (follows_expr expr hthird hexpr hsituated htied).bind fun value now machine hpushed => ?_
    obtain ⟨after, hlater, htied⟩ := hpushed
    refine (htied.answers hhas (answers_setIndex 0 0)).bind fun heap now machine h => ?_
    obtain ⟨rfl, hstands⟩ := h
    exact (leads_pop hpop hstands).follows fun machine hstands => follows_pure
      (hplaced.concludes (hfirst.later.trans (hsecond.later.trans hthird.later))
        ⟨after, hheld.trans (hkept.trans hlater), htied.locals, hstands⟩)

theorem follows_print (hcode : StmtCode T.table T.code loop scope p (.print location expr) last q)
    (hfits : Throughout (Scopes.Fits T.nameOf) scopes expr.outline)
    (hplaced : Placed T loop p scopes scope slots outer scene m) :
    Follows T ((Stmt.print location expr).perform turns nested scene) (Carried T loop q scopes last slots outer) m := by
  cases hcode with
  | print hcode hhas =>
    rw [Stmt.perform]
    refine (follows_expr expr hcode hfits hplaced.situated hplaced.tied).bind fun value now machine hpushed => ?_
    obtain ⟨after, hlater, htied⟩ := hpushed
    exact (leads_always hhas htied.stands (always_printTop 0 0)).follows fun machine hstands => follows_pure
      (hplaced.concludes hcode.later ⟨after, hlater, htied.locals, hstands⟩)

theorem follows_giveBack (hcode : StmtCode T.table T.code loop scope p (.giveBack location expr) last q)
    (hfits : Throughout (Scopes.Fits T.nameOf) scopes expr.outline)
    (hplaced : Placed T loop p scopes scope slots outer scene m) :
    Follows T ((Stmt.giveBack location expr).perform turns nested scene)
      (Carried T loop q scopes last slots outer) m := by
  cases hcode with
  | giveBackNil hhas hret =>
    refine (leads_always hhas hplaced.tied.stands (always_load .nil)).follows fun machine hstands => ?_
    exact (leads_always hret hstands (always_ret 0 0)).follows fun machine h => follows_pure (.giveBack h.1 h.2)
  | giveBack hcode hret =>
    simp only [Stmt.perform, present_of_code hcode, Bool.false_eq_true, if_false]
    refine (follows_expr expr hcode hfits hplaced.situated hplaced.tied).bind fun value now machine hpushed => ?_
    obtain ⟨after, hlater, htied⟩ := hpushed
    exact (leads_always hret htied.stands (always_ret 0 0)).follows fun machine h => follows_pure (.giveBack h.1 h.2)

theorem follows_disown (hcode : StmtCode T.table T.code loop scope p (.disown location name resolution) last q)
    (hfits : Throughout (Scopes.Fits T.nameOf) scopes (Stmt.disown location name resolution).outline)
    (hplaced : Placed T loop p scopes scope slots outer scene m) :
    Follows T ((Stmt.disown location name resolution).perform turns nested scene)
      (Carried T loop q scopes last slots outer) m := by
  cases hcode with
  | disown hhas haccesses hpop =>
    have htaken := follows_take hplaced.tied hplaced.situated hfits.1 haccesses hhas
    have hperform : (Stmt.disown location name resolution).perform turns nested =
        take name location >>= fun _ => pure .next := by
      rw [Stmt.perform, take, bind_assoc]
      simp only [bind_assoc, pure_bind]
    rw [hperform]
    refine htaken.bind fun value now machine hpushed => ?_
    exact (hpushed.pop hpop).follows fun machine hrests => follows_pure (hplaced.concludes (.refl scope) hrests)

/-- A jump out of the innermost loop, or to its next turn, drops the variables inside of the loop. -/
theorem leads_jumpOut {plan : LoopPlan} {dropped around : FrameScope} {target : Nat}
    (hplaced : Placed T (some plan) p scopes (dropped ++ around) slots outer scene m)
    (haround : around.length = plan.outside) (hdrop : DropCode T.code place plan.outside dropped p q)
    (hjumps : T.code.Jumps q height .jump place target) : Leads OutOfRoom (Jumped T target outer scene) m := by
  obtain ⟨inner, rfl⟩ := hplaced.suffix
  have hlocals := hplaced.tied.locals
  have hstands := hplaced.tied.stands
  rw [FrameSlots.locals_append] at hlocals
  rw [List.nil_append, FrameSlots.values_append] at hstands
  have hinner : (FrameSlots.values inner).length = dropped.length := by
    have hlength := hplaced.length_eq
    have houter := hplaced.plan plan rfl
    rw [List.length_append, List.length_append] at hlength
    rw [FrameSlots.length_values]
    omega
  refine (leads_drops hdrop hinner hstands).bind fun machine hstands => ?_
  exact (leads_jump hjumps hstands).imp fun machine hstands =>
    ⟨FrameSlots.locals inner, outer, .refl outer, hlocals, hstands⟩

end Simple

section Branches

variable {condition scrutinee : Expr} {yes no : Stmt} {arms : List Arm} {body : List Stmt}

theorem follows_block (hbody : StmtsFollow T turns body)
    (hcode : StmtCode T.table T.code loop scope p (.block location body) last q)
    (hfits : Throughout (Scopes.Fits T.nameOf) scopes (Stmt.block location body).outline)
    (hplaced : Placed T loop p scopes scope slots outer scene m) :
    Follows T ((Stmt.block location body).perform turns nested scene) (Carried T loop q scopes last slots outer) m := by
  cases hcode with
  | block hcode hlength hdrop =>
    have hstep := hbody hcode (throughout_scope.mp hfits) (iff_of_true rfl (List.cons_ne_nil _ _)) hplaced.enter
    rw [Stmt.perform]
    exact follows_scoped hplaced hstep (hcode.grows.dropped hlength) hdrop

theorem follows_if (hyes : StmtFollows T turns yes) (hno : StmtFollows T turns no) (hneutral : Neutral yes.outline)
    (hneutral' : Neutral no.outline)
    (hcode : StmtCode T.table T.code loop scope p (.ifElse location condition yes no) last q)
    (hfits : Throughout (Scopes.Fits T.nameOf) scopes (Stmt.ifElse location condition yes no).outline)
    (hnested : nested = true ↔ scopes.outer ≠ []) (hplaced : Placed T loop p scopes scope slots outer scene m) :
    Follows T ((Stmt.ifElse location condition yes no).perform turns nested scene)
      (Carried T loop q scopes last slots outer) m := by
  obtain ⟨hcondition, hrest⟩ := throughout_expr.mp hfits
  obtain ⟨hfirst, hsecond⟩ := throughout_append.mp hrest
  rw [hneutral scopes] at hsecond
  cases hcode with
  | ifElse htest hjumps hpop _ hcode hlength hdone hmiss _ hcode' hlength' =>
    have hscope := hcode.grows.later ((hlength trivial).trans htest.later.length_eq.symm)
    have hlast := hcode'.grows.later (hlength' trivial)
    rw [Stmt.perform]
    refine follows_condition htest hcondition hplaced.situated hplaced.tied hjumps hpop hmiss
      (fun after now machine hlater htied => ?_) fun after now machine hlater htied => ?_
    · obtain ⟨more, hmore, hplaced⟩ := hplaced.moved hlater htest.later htied
      refine (hyes hcode hfirst hnested hplaced).runOn fun ending now machine h => ?_
      rw [hneutral scopes] at h
      exact (Carried.since hlater hmore h).leads fun machine hgoes => (hgoes.later hlast).jump hdone
    · obtain ⟨more, hmore, hplaced⟩ := hplaced.moved hlater (htest.later.trans hscope) htied
      refine (hno hcode' hsecond hnested hplaced).mono fun ending now machine h => ?_
      rw [hneutral' scopes] at h
      exact Carried.since hlater hmore h

/-- The slot of the scrutinee is dropped behind the arms. -/
theorem leads_dropScrutinee {hidden : FrameVar} {around : FrameScope} {place : Location} {outside : Nat}
    (hgoes : Goes T p scopes (hidden :: around) (.hidden value :: slots) scene m)
    (hlength : around.length = slots.length)
    (hdrop : DropCode T.code place outside [hidden] p q) : Leads OutOfRoom (Rests T q slots scene) m := by
  obtain ⟨_, hlater, htied⟩ := hgoes.neutral (congrArg (· + 1) hlength)
  obtain ⟨kept, rfl, hkept⟩ := hlater.hidden
  have hstands : Stands T p ([value] ++ FrameSlots.values kept) scene.toWorld m := htied.stands
  exact (leads_drops hdrop rfl hstands).imp fun machine hstands => ⟨kept, hkept, htied.locals, hstands⟩

end Branches

/-- How arms without a scrutinee are followed. -/
def GuardsFollow (T : Translation) (turns : Nat) (arms : List Arm) : Prop :=
  ∀ {loop : Option LoopPlan} {location : Location} {p t : Nat} {scopes : Scopes} {scope last : FrameScope}
    {slots outer : FrameSlots} {scene : Scene} {m : Machine},
    GuardedCode T.table T.code loop location scope p arms last t →
    Throughout (Scopes.Fits T.nameOf) scopes (Arm.outlines arms) → Placed T loop p scopes scope slots outer scene m →
    Follows T (Arm.performGuarded turns location arms scene) (Carried T loop t scopes last slots outer) m

/-- How arms with a scrutinee are followed, which is in the topmost slot. -/
def MatchesFollow (T : Translation) (turns : Nat) (arms : List Arm) : Prop :=
  ∀ {loop : Option LoopPlan} {location : Location} {p t : Nat} {scopes : Scopes} {scope last : FrameScope}
    {value : Value} {base outer : FrameSlots} {scene : Scene} {m : Machine},
    PatternedCode T.table T.code loop location base.length scope p arms last t →
    Throughout (Scopes.Fits T.nameOf) scopes (Arm.outlines arms) →
    Placed T loop p scopes scope (.hidden value :: base) outer scene m →
    Follows T (Arm.performMatched turns location value arms scene)
      (Carried T loop t scopes last (.hidden value :: base) outer) m

mutual

theorem follows_stmt (stmt : Stmt) (hshape : stmt.wellShaped = true) : StmtFollows T turns stmt := by
  intro nested loop p q scopes scope last slots outer scene m hcode hfits hnested hplaced
  cases stmt with
  | absent =>
    cases hcode
    exact follows_pure (hplaced.concludes (.refl scope) ⟨slots, .refl slots, hplaced.tied⟩)
  | declare location name initial resolution =>
    rw [Stmt.outline, Scopes.afterAll_append, initial.neutral_outline]
    exact follows_declare hcode hfits hnested hplaced
  | function => trivial
  | assign location name value resolution =>
    rw [Stmt.neutral_outline _ (Stmt.isContained_of_wellShaped _ hshape rfl)]
    exact follows_assignment hcode hfits hplaced
  | assignField location object field value =>
    rw [Stmt.neutral_outline _ (Stmt.isContained_of_wellShaped _ hshape rfl)]
    exact follows_assignField hcode hfits hplaced
  | assignIndex location object index value =>
    rw [Stmt.neutral_outline _ (Stmt.isContained_of_wellShaped _ hshape rfl)]
    exact follows_assignIndex hcode hfits hplaced
  | evaluate location expression =>
    rw [Stmt.neutral_outline _ (Stmt.isContained_of_wellShaped _ hshape rfl), Stmt.perform]
    cases hcode with
    | evaluate hcode hpop =>
      refine (follows_expr expression hcode hfits hplaced.situated hplaced.tied).bind
        fun value now machine hpushed => ?_
      exact (hpushed.pop hpop).follows fun machine hrests => follows_pure (hplaced.concludes hcode.later hrests)
  | print location expression =>
    rw [Stmt.neutral_outline _ (Stmt.isContained_of_wellShaped _ hshape rfl)]
    exact follows_print hcode hfits hplaced
  | block location body => exact follows_block (follows_stmts body hshape) hcode hfits hplaced
  | ifElse location condition yes no =>
    rw [Stmt.neutral_outline _ (Stmt.isContained_of_wellShaped _ hshape rfl)]
    simp only [Stmt.wellShaped, Bool.and_eq_true, Bool.not_eq_true'] at hshape
    obtain ⟨⟨⟨⟨-, hyes⟩, hyesShape⟩, hno⟩, hnoShape⟩ := hshape
    exact follows_if (follows_stmt yes hyesShape) (follows_stmt no hnoShape)
      (yes.neutral_outline (yes.isContained_of_wellShaped hyesShape hyes))
      (no.neutral_outline (no.isContained_of_wellShaped hnoShape hno)) hcode hfits hnested hplaced
  | cond location scrutinee arms =>
    rw [Stmt.neutral_outline _ (Stmt.isContained_of_wellShaped _ hshape rfl)]
    simp only [Stmt.wellShaped, Bool.and_eq_true] at hshape
    obtain ⟨-, hshape⟩ := hshape
    obtain ⟨hscrutinee, harms⟩ := throughout_expr.mp hfits
    have hgrows := hcode.grows
    cases hcode with
    | condGuards hcode => exact follows_guarded arms hshape hcode harms hplaced
    | condPatterns hpresent hcode harmsCode hlength hdrop =>
      simp only [Stmt.perform, hpresent, Bool.false_eq_true, if_false]
      refine (follows_expr scrutinee hcode hscrutinee hplaced.situated hplaced.tied).bind
        fun value now machine hpushed => ?_
      obtain ⟨held, hheld, htied⟩ := hpushed
      obtain ⟨more, hmore, hinside⟩ := hplaced.hide hheld hcode.later htied
      have hroom : held.length = scope.length := hheld.length_eq.trans hplaced.length_eq.symm
      rw [hpresent] at hshape
      rw [← hroom] at harmsCode
      refine (follows_matched arms hshape harmsCode harms hinside).runOn fun ending now machine h => ?_
      refine (Concludes.since hmore h).leads fun machine hgoes => ?_
      refine (leads_dropScrutinee hgoes (hlength.trans hroom.symm) hdrop).imp fun machine hrests => ?_
      exact .of_rests (hrests.since hheld) hplaced.situated (hgrows.later hlength)
  | whileLoop location condition body =>
    simp only [Stmt.wellShaped, Bool.and_eq_true] at hshape
    exact follows_while (follows_stmt body hshape.2) hcode hfits hplaced
  | forLoop location counter binding first bound body =>
    rw [Stmt.neutral_outline _ (Stmt.isContained_of_wellShaped _ hshape rfl)]
    simp only [Stmt.wellShaped, Bool.and_eq_true] at hshape
    exact follows_for (follows_stmt body hshape.2) hcode hfits hplaced
  | forever location body => exact follows_forever (follows_stmt body hshape) hcode hfits hplaced
  | leave location =>
    cases hcode with
    | leave haround hdrop hjumps =>
      exact (leads_jumpOut hplaced haround hdrop hjumps).follows fun machine h => follows_pure (.leave rfl h)
  | skip location =>
    cases hcode with
    | skip haround hdrop hjumps =>
      exact (leads_jumpOut hplaced haround hdrop hjumps).follows fun machine h => follows_pure (.skip rfl h)
  | giveBack location value =>
    rw [Stmt.neutral_outline _ (Stmt.isContained_of_wellShaped _ hshape rfl)]
    exact follows_giveBack hcode hfits hplaced
  | disown location name resolution => exact follows_disown hcode hfits hplaced
termination_by structural stmt

theorem follows_stmts (stmts : List Stmt) (hshape : stmtsWellShaped stmts = true) : StmtsFollow T turns stmts := by
  intro nested loop p q scopes scope last slots outer scene m hcode hfits hnested hplaced
  cases stmts with
  | nil =>
    cases hcode
    exact follows_pure (hplaced.concludes (.refl scope) ⟨slots, .refl slots, hplaced.tied⟩)
  | cons stmt rest =>
    simp only [stmtsWellShaped, Bool.and_eq_true] at hshape
    obtain ⟨hfirst, hrest⟩ := throughout_append.mp hfits
    rw [Stmt.outlines, Scopes.afterAll_append]
    cases hcode with
    | cons _ hcode hmore =>
      rw [Stmt.performAll]
      refine (follows_stmt stmt hshape.1 hcode hfirst hnested hplaced).bind fun ending now machine h => ?_
      cases h with
      | leave hplan hjumped => exact follows_pure (.leave hplan hjumped)
      | skip hplan hjumped => exact follows_pure (.skip hplan hjumped)
      | giveBack hhalted hreturned => exact follows_pure (.giveBack hhalted hreturned)
      | next hgoes =>
        obtain ⟨declared, after, more, hlater, hkept, hplaced⟩ := hplaced.next hgoes
        have hnested : nested = true ↔ (scopes.afterAll stmt.outline).outer ≠ [] := by rwa [Scopes.outer_afterAll]
        refine (follows_stmts rest hshape.2 hmore hrest hnested hplaced).mono fun ending now machine h => ?_
        exact Carried.since hlater hkept (h.within declared)
termination_by structural stmts

theorem follows_guarded (arms : List Arm) (hshape : armsWellShaped true arms = true) : GuardsFollow T turns arms := by
  intro loop location p t scopes scope last slots outer scene m hcode hfits hplaced
  cases arms with
  | nil =>
    cases hcode with
    | nil hhas => exact leads_instruction hhas hplaced.tied.stands (always_noMatchingArm 0 0)
  | cons arm rest =>
    obtain ⟨place, pattern, guard, body⟩ := arm
    simp only [armsWellShaped, Bool.true_and, Bool.and_eq_true, Bool.not_eq_true', Option.isSome_eq_false_iff,
      Option.isNone_iff_eq_none] at hshape
    obtain ⟨⟨⟨rfl, -⟩, hbodyShape⟩, hrestShape⟩ := hshape
    obtain ⟨harm, hrest⟩ := hfits
    obtain ⟨htest, hbody⟩ := throughout_expr.mp harm
    have hinner : true = true ↔ scopes.enter.outer ≠ [] := iff_of_true rfl (List.cons_ne_nil _ _)
    cases hcode with
    | last hcode hlength hdrop hdone =>
      have hstep := follows_stmts body hbodyShape hcode hbody hinner hplaced.enter
      rw [Arm.performGuarded]
      exact follows_withinScope hstep fun ending now machine h =>
        leads_done hplaced h (hcode.grows.dropped hlength) hdrop hdone
    | cons hpresent hcondition hjumps hpop hcode hlength hdrop hdone hmiss hmore =>
      simp only [Arm.performGuarded, hpresent, Bool.false_eq_true, if_false]
      have hscope := hcode.grows.dropped (hlength.trans hcondition.later.length_eq.symm)
      refine follows_condition hcondition htest hplaced.situated.enter hplaced.tied hjumps hpop hmiss
        (fun after now machine hlater htied => ?_) fun after now machine hlater htied => ?_
      · obtain ⟨more, hkept, hplaced⟩ := hplaced.moved hlater hcondition.later htied
        have hstep := follows_stmts body hbodyShape hcode hbody hinner hplaced.enter
        refine follows_withinScope hstep fun ending now machine h => ?_
        refine (leads_done hplaced h hscope hdrop hdone).imp fun machine h => Carried.since hlater hkept ?_
        exact h.mono fun hgoes => hgoes.later (hmore.later rest)
      · obtain ⟨more, hkept, hplaced⟩ := hplaced.moved hlater (hcondition.later.trans hscope) htied
        exact (follows_guarded rest hrestShape hmore hrest hplaced).mono fun _ _ _ => Carried.since hlater hkept
termination_by structural arms

theorem follows_matched (arms : List Arm) (hshape : armsWellShaped false arms = true) : MatchesFollow T turns arms := by
  intro loop location p t scopes scope last value base outer scene m hcode hfits hplaced
  cases arms with
  | nil =>
    cases hcode with
    | nil hhas => exact leads_instruction hhas hplaced.tied.stands (always_noMatchingArm 0 0)
  | cons arm rest =>
    obtain ⟨place, pattern, guard, body⟩ := arm
    simp only [armsWellShaped, Bool.and_eq_true] at hshape
    obtain ⟨⟨-, hbodyShape⟩, hrestShape⟩ := hshape
    obtain ⟨harm, hrest⟩ := hfits
    cases hcode with
    | last hirrefutable hcode =>
      exact follows_lastArm hirrefutable (follows_plainArm (follows_stmts body hbodyShape) hcode harm hplaced) rest
    | plain _ hcode hmore =>
      refine follows_nextArm hplaced
        (follows_plainArm (follows_stmts body hbodyShape) hcode harm hplaced).tried hcode.later
        (hmore.later rest) fun hkept hplaced => ?_
      exact follows_matched rest hrestShape (hkept ▸ hmore) hrest hplaced
    | guarded hpresent hcode hmore =>
      refine follows_nextArm hplaced (follows_guardedArm (follows_stmts body hbodyShape) hpresent hcode harm hplaced)
        hcode.later (hmore.later rest) fun hkept hplaced => ?_
      exact follows_matched rest hrestShape (hkept ▸ hmore) hrest hplaced
termination_by structural arms

end

end Exec

end OwnScript
