import OwnScript.Proofs.Meaning.Endings
import OwnScript.Proofs.Meaning.Expressions

/-!
Arms of a cond with a scrutinee. The scrutinee stays in a slot of its own. What the pattern of an arm binds is put
above it; if the guard then fails, it is dropped again and the next arm is tried.
-/

namespace OwnScript

section Layout

variable {globals : GlobalTable} {tracked : Prop} {F : Listing tracked} {loop : Option LoopPlan} {place : Location}
  {slot p next t : Nat} {scope after : FrameScope} {pattern : Option Pattern} {guard : Expr} {body : List Stmt}

theorem PlainArmCode.later (hcode : PlainArmCode globals F loop place slot scope p pattern body after next t) :
    scope.Later after := by
  cases hcode with
  | intro _ _ _ _ _ hbody hlength =>
    exact FrameScope.Grows.dropped (.trans ⟨_, scope, rfl, .refl scope⟩ hbody.grows) hlength

theorem GuardedArmCode.later
    (hcode : GuardedArmCode globals F loop place slot scope p pattern guard body after next t) :
    scope.Later after := by
  cases hcode with
  | intro _ _ _ _ _ hguard _ _ hbody _ hlength =>
    rw [← List.append_assoc] at hbody
    have hgrows := FrameScope.Grows.trans hguard.later.grows hbody.grows
    exact FrameScope.Grows.dropped (.trans ⟨_, scope, rfl, .refl scope⟩ hgrows) hlength

end Layout

open Stateful Machine

namespace Exec

open Evaluate

variable {T : Translation} {loop : Option LoopPlan} {m : Machine} {p q t fail turns slot a : Nat} {scene : Scene}
  {slots base outer : FrameSlots} {scopes : Scopes} {scope last : FrameScope} {place location : Location}
  {height above full : Option Nat} {value : Value} {pattern : Option Pattern} {guard : Expr} {body : List Stmt}

/-- What an arm does once its pattern has bound variables: it carries out its body, unless its guard fails. -/
def tryArm (turns : Nat) (guard : Expr) (body : List Stmt) (bound : List (String × Value)) :
    Evaluate (Option Ending) := do
  modify fun scene => { scene with locals := bound.reverse ++ scene.locals }
  if guard.isAbsent then return some (← Stmt.performAll turns true body)
  else if (← guard.evaluate).truthy then return some (← Stmt.performAll turns true body)
  else return none

theorem performMatched_missed (hnone : pattern.elim (some []) (·.variables? scene.heap value) = none)
    (rest : List Arm) :
    Arm.performMatched turns location value (⟨place, pattern, guard, body⟩ :: rest) scene =
      Arm.performMatched turns location value rest scene := by
  rw [Arm.performMatched, get_bind_apply, hnone]

theorem performMatched_bound {bound : List (String × Value)}
    (hsome : pattern.elim (some []) (·.variables? scene.heap value) = some bound) (rest : List Arm) :
    Arm.performMatched turns location value (⟨place, pattern, guard, body⟩ :: rest) scene =
      (withinScope (tryArm turns guard body bound) >>= fun ending =>
        ending.elim (Arm.performMatched turns location value rest) pure) scene := by
  rw [Arm.performMatched, get_bind_apply, hsome]
  exact congrFun (congrArg (withinScope (tryArm turns guard body bound) >>= ·)
    (funext fun ending => by cases ending <;> rfl)) scene

theorem variables_of_irrefutable (hirrefutable : pattern.all Pattern.isIrrefutable = true) (heap : Heap)
    (value : Value) :
    pattern.elim (some []) (·.variables? heap value) ≠ none := by
  rcases pattern with _ | (_ | _ | _ | _)
  all_goals first | cases hirrefutable; done | exact Option.some_ne_none _

/-- The pattern of an arm is tried on the scrutinee. Either it fails, and control goes on behind the arm, or what it
binds is in the frame for the evaluation and for the code. -/
theorem leads_match (hplaced : Placed T loop p scopes scope (.hidden value :: base) outer scene m)
    (hfits : Throughout (Scopes.Fits T.nameOf) scopes.enter ((pattern.map Pattern.outline).getD []))
    (hmatch : T.code.Has p height .matchValue a base.length place)
    (hmatcher : T.code.chunk.matchers[a]? = some (pattern.elim .any Pattern.toMatcher))
    (hjumps : T.code.Jumps (p + 5) above .jumpIfFalse place fail) (hpop : T.code.Has (p + 8) full .pop 0 0 place) :
    (pattern.elim (some []) (·.variables? scene.heap value) = none ∧
      Leads OutOfRoom (Tied T fail (.hidden value :: base) [.ofBool false] scene) m) ∨
    ∃ (bound : List (String × Value)) (declared : FrameSlots),
      pattern.elim (some []) (·.variables? scene.heap value) = some bound ∧
      Leads OutOfRoom (Placed T loop (p + 9) (scopes.enter.afterAll ((pattern.map Pattern.outline).getD []))
        (boundScope (pattern.elim [] Pattern.vars) ++ scope) (declared ++ .hidden value :: base) outer
        { scene with locals := bound.reverse ++ scene.locals }) m := by
  have hstands : Stands T p ([] ++ value :: base.values) scene.toWorld m := hplaced.tied.stands
  have hmatches {bound : Option (List Value)}
      (hvalues : scene.heap.matchValue (pattern.elim .any Pattern.toMatcher) value = bound) :
      Leads OutOfRoom (Stands T (p + 5) ((Prologue.answer bound).reverse ++ value :: base.values) scene.toWorld) m :=
    leads_always hmatch hstands (always_matchValue hmatcher FrameSlots.length_values.symm fun config =>
      (matchValue_withConfig pattern scene.heap config value).trans hvalues)
  rcases arm_cases pattern scene.heap value hfits (List.cons_ne_nil _ _) hplaced.situated.enter with
    ⟨hvariables, hvalues⟩ | ⟨names, values, hvariables, hvalues, -, declared, hdeclared, hnamed, hsituated⟩
  · refine .inl ⟨hvariables, ?_⟩
    refine (hmatches hvalues).bind fun machine hstands => ?_
    have htied : Tied T (p + 5) (.hidden value :: base) [.ofBool false] scene machine := ⟨hplaced.tied.locals, hstands⟩
    exact htied.jumpIfFalse hjumps
  · refine .inr ⟨names.zip values, declared, hvariables, ?_⟩
    refine (hmatches hvalues).bind fun machine hstands => ?_
    have hlocals : (names.zip values).reverse ++ scene.locals =
      FrameSlots.locals (declared ++ .hidden value :: base) := by
      rw [FrameSlots.locals_append, hnamed, hplaced.tied.locals]
    have htied : Tied T (p + 5) (declared ++ .hidden value :: base) [.ofBool true]
        { scene with locals := (names.zip values).reverse ++ scene.locals } machine := by
      refine ⟨hlocals, ?_⟩
      rw [FrameSlots.values_append, hdeclared]
      simpa [Prologue.answer, FrameSlot.value] using hstands
    refine (htied.jumpIfFalse hjumps).bind fun machine htied => (htied.pop hpop).imp fun machine htied => ?_
    exact ⟨hsituated, hplaced.suffix.trans (List.suffix_append _ _), hplaced.plan, htied⟩

/-- A machine follows an arm. If the pattern does not accept the scrutinee, the next arm is to be tried. -/
def ArmFollows (T : Translation) (turns next : Nat) (slots : FrameSlots) (value : Value) (pattern : Option Pattern)
    (guard : Expr) (body : List Stmt) (reached : Option Ending → Scene → Machine → Prop) (scene : Scene) (m : Machine) :
    Prop :=
  (pattern.elim (some []) (·.variables? scene.heap value) = none ∧ Leads OutOfRoom (Rests T next slots scene) m) ∨
  ∃ bound, pattern.elim (some []) (·.variables? scene.heap value) = some bound ∧
    Follows T (withinScope (tryArm turns guard body bound) scene) reached m

/-- What an arm comes to that was tried: its body was carried out, or the next arm is to be tried. -/
def Tried (T : Translation) (loop : Option LoopPlan) (t next : Nat) (scopes : Scopes) (scope : FrameScope)
    (slots outer : FrameSlots) : Option Ending → Scene → Machine → Prop
  | some ending => Carried T loop t scopes scope slots outer ending
  | none => Rests T next slots

section Trying

variable {inside known : Scopes} {dropped rebound : FrameScope} {r s u outside next : Nat} {gap : Location}

/-- The variables of an arm are dropped after its body. -/
theorem leads_done {ending : Ending} (hplaced : Placed T loop p scopes scope slots outer scene m) {now : Scene}
    {machine : Machine}
    (hconcludes : Concludes T loop outer (Goes T q inside (dropped ++ last) slots) ending now machine)
    (hscope : scope.Later last) (hdrop : DropCode T.code gap outside dropped q r)
    (hdone : T.code.Jumps r height .jump place t) :
    Leads OutOfRoom (Carried T loop t scopes last slots outer ending (now.leave scene.locals.length)) machine := by
  rw [hplaced.tied.locals]
  refine (hconcludes.close hplaced.situated hscope hplaced.suffix hdrop).bind fun _ h => ?_
  exact h.leads fun _ hgoes => hgoes.jump hdone

theorem follows_plainArm (hbody : StmtsFollow T turns body)
    (hcode : PlainArmCode T.table T.code loop place base.length scope p pattern body last next t)
    (hfits : Throughout (Scopes.Fits T.nameOf) scopes.enter
      ((pattern.map Pattern.outline).getD [] ++ (Expr.absent.outline ++ Stmt.outlines body)))
    (hplaced : Placed T loop p scopes scope (.hidden value :: base) outer scene m) :
    ArmFollows T turns next (.hidden value :: base) value pattern .absent body (fun ending now machine =>
      ∃ done, ending = some done ∧
        Carried T loop t scopes last (.hidden value :: base) outer done now machine) scene m := by
  obtain ⟨hpattern, hrest⟩ := throughout_append.mp hfits
  have hscope := hcode.later
  cases hcode with
  | @intro _ _ _ _ _ _ dropped _ _ q r _ _ _ _ hbound hmatch hmatcher hjumps hpop hcode hlength hdrop hdone hfail =>
    subst hbound
    rcases leads_match hplaced hpattern hmatch hmatcher hjumps hpop with
      ⟨hnone, hleads⟩ | ⟨bound, declared, hsome, hleads⟩
    · refine .inl ⟨hnone, hleads.bind fun machine htied => ?_⟩
      exact (htied.pop hfail).imp fun machine htied => ⟨_, .refl _, htied⟩
    · refine .inr ⟨bound, hsome, hleads.follows fun machine hinside => ?_⟩
      have hcarried := (hbody hcode hrest (iff_of_true rfl (by simp [Scopes.enter])) hinside).mono
        fun _ _ _ => Concludes.within declared
      have hstep : Follows T (tryArm turns .absent body bound scene) (fun ending now machine =>
          ∃ done, ending = some done ∧
            Concludes T loop outer (Goes T q _ (dropped ++ last) (.hidden value :: base)) done now machine) machine :=
        hcarried.bind fun done now machine h => follows_pure ⟨done, rfl, h⟩
      refine follows_withinScope hstep fun ending now machine h => ?_
      obtain ⟨done, rfl, h⟩ := h
      exact (leads_done hplaced h hscope hdrop hdone).imp fun machine h => ⟨done, rfl, h⟩

theorem follows_guardedArm (hbody : StmtsFollow T turns body) (hguard : guard.isAbsent = false)
    (hcode : GuardedArmCode T.table T.code loop place base.length scope p pattern guard body last next t)
    (hfits : Throughout (Scopes.Fits T.nameOf) scopes.enter
      ((pattern.map Pattern.outline).getD [] ++ (guard.outline ++ Stmt.outlines body)))
    (hplaced : Placed T loop p scopes scope (.hidden value :: base) outer scene m) :
    ArmFollows T turns next (.hidden value :: base) value pattern guard body
      (Tried T loop t next scopes last (.hidden value :: base) outer) scene m := by
  obtain ⟨hpattern, hrest⟩ := throughout_append.mp hfits
  obtain ⟨htest, hrest⟩ := throughout_expr.mp hrest
  have hafter := hcode.later
  cases hcode with
  | @intro _ _ _ _ _ _ tested dropped rebound _ _ q r s u _ _ _ _ _ hbound hmatch hmatcher hjumps hpop hcondition hturns
      hyes hcode hrebound hlength hdrop hdone hfails hback hagain hmissed =>
    subst hbound
    have hscope : FrameScope.Later (boundScope (pattern.elim [] Pattern.vars) ++ scope) (rebound ++ last) :=
      hcondition.later.trans
        (FrameScope.Grows.dropped hcode.grows (by simp [hrebound, hlength, hcondition.later.length_eq]))
    rcases leads_match hplaced hpattern hmatch hmatcher hjumps hpop with
      ⟨hnone, hleads⟩ | ⟨bound, declared, hsome, hleads⟩
    · refine .inl ⟨hnone, hleads.bind fun machine htied => ?_⟩
      exact (htied.pop hmissed).imp fun machine htied => ⟨_, .refl _, htied⟩
    · refine .inr ⟨bound, hsome, hleads.follows fun machine hinside => ?_⟩
      have hstep : Follows T (tryArm turns guard body bound scene) (fun ending now machine => ending.elim
          (Goes T (s + 4) (scopes.enter.afterAll ((pattern.map Pattern.outline).getD [])) (rebound ++ last)
            (.hidden value :: base) now machine)
          fun done => Concludes T loop outer (Goes T r ((scopes.enter.afterAll
            ((pattern.map Pattern.outline).getD [])).afterAll (Stmt.outlines body)) ((dropped ++ rebound) ++ last)
              (.hidden value :: base)) done now machine) machine := by
        simp only [tryArm, hguard, Bool.false_eq_true, if_false]
        refine follows_condition hcondition htest hinside.situated hinside.tied hturns hyes hfails
          (fun after now machine hlater htied => ?_) fun after now machine hlater htied => follows_pure ?_
        · obtain ⟨more, hmore, hplaced⟩ := hinside.moved hlater hcondition.later htied
          refine (hbody hcode hrest (iff_of_true rfl (by simp [Scopes.enter])) hplaced).bind fun done now machine h =>
            follows_pure ?_
          have hdone := (Carried.since hlater hmore h).within declared
          rwa [← List.append_assoc] at hdone
        · exact Goes.within declared (.of_rests ⟨after, hlater, htied⟩ hinside.situated hscope)
      refine follows_withinScope hstep fun ending now machine h => ?_
      cases ending with
      | some done => exact leads_done hplaced h hafter hdrop hdone
      | none =>
        rw [hplaced.tied.locals]
        refine (Goes.close h (hafter.length_eq.trans hplaced.length_eq) hback).bind fun machine h => ?_
        obtain ⟨after, hlater, htied⟩ := h
        exact (htied.jump hagain).imp fun machine htied => ⟨after, hlater, htied⟩

/-- The arm is the one that is carried out. -/
theorem follows_lastArm {reached : Ending → Scene → Machine → Prop}
    (hirrefutable : pattern.all Pattern.isIrrefutable = true)
    (harm : ArmFollows T turns next slots value pattern guard body
      (fun ending now machine => ∃ done, ending = some done ∧ reached done now machine) scene m) (rest : List Arm) :
    Follows T (Arm.performMatched turns location value (⟨place, pattern, guard, body⟩ :: rest) scene) reached m := by
  rcases harm with ⟨hnone, -⟩ | ⟨bound, hsome, hfollows⟩
  · exact absurd hnone (variables_of_irrefutable hirrefutable scene.heap value)
  · rw [performMatched_bound hsome]
    refine hfollows.bind fun ending now machine h => ?_
    obtain ⟨done, rfl, h⟩ := h
    exact follows_pure h

/-- An arm without a guard is the one that is carried out if its pattern matches. -/
theorem ArmFollows.tried (harm : ArmFollows T turns next slots value pattern guard body (fun ending now machine =>
      ∃ done, ending = some done ∧ Carried T loop t scopes last slots outer done now machine) scene m) :
    ArmFollows T turns next slots value pattern guard body (Tried T loop t next scopes last slots outer) scene m := by
  refine harm.imp_right fun ⟨bound, hsome, hfollows⟩ => ⟨bound, hsome, hfollows.mono fun ending now machine h => ?_⟩
  obtain ⟨done, rfl, h⟩ := h
  exact h

/-- The arms after an arm are tried if it is not the one that is carried out. -/
theorem follows_nextArm {rest : List Arm} {middle : FrameScope}
    (hplaced : Placed T loop p scopes scope (.hidden value :: base) outer scene m)
    (harm : ArmFollows T turns next (.hidden value :: base) value pattern guard body
      (Tried T loop t next scopes middle (.hidden value :: base) outer) scene m)
    (hscope : scope.Later middle) (hlast : middle.Later last)
    (hrest : ∀ {kept more : FrameSlots} {now : Scene} {machine : Machine}, kept.length = base.length →
      Placed T loop next scopes middle (.hidden value :: kept) more now machine →
      Follows T (Arm.performMatched turns location value rest now)
        (Carried T loop t scopes last (.hidden value :: kept) more) machine) :
    Follows T (Arm.performMatched turns location value (⟨place, pattern, guard, body⟩ :: rest) scene)
      (Carried T loop t scopes last (.hidden value :: base) outer) m := by
  have hnext {now : Scene} {machine : Machine} (hrests : Rests T next (.hidden value :: base) now machine) :
      Follows T (Arm.performMatched turns location value rest now)
        (Carried T loop t scopes last (.hidden value :: base) outer) machine := by
    obtain ⟨after, hlater, htied⟩ := hrests
    obtain ⟨more, hmore, hplaced⟩ := hplaced.moved hlater hscope htied
    obtain ⟨kept, rfl, hkept⟩ := hlater.hidden
    exact (hrest hkept.length_eq hplaced).mono fun _ _ _ => Carried.since hlater hmore
  rcases harm with ⟨hnone, hleads⟩ | ⟨bound, hsome, hfollows⟩
  · rw [performMatched_missed hnone]
    exact hleads.follows fun machine hrests => hnext hrests
  · rw [performMatched_bound hsome]
    refine hfollows.bind fun ending now machine h => ?_
    cases ending with
    | none => exact hnext h
    | some done => exact follows_pure (Concludes.mono h fun hgoes => hgoes.later hlast)

end Trying

end Exec

end OwnScript
