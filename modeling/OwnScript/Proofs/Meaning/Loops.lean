import OwnScript.Proofs.Meaning.Endings
import OwnScript.Proofs.Meaning.Expressions

/-!
Loops. The turns of a loop keep to an invariant: before each of them the machine is back at the start of the loop,
with the slots that were there before the loop and what the loop keeps for itself above them.
-/

namespace OwnScript

open Stateful Machine

namespace Exec

open Evaluate

variable {T : Translation} {loop : Option LoopPlan} {plan : LoopPlan} {m : Machine} {p q r start outside turns : Nat}
  {nested : Bool} {scene : Scene} {slots after outer more : FrameSlots} {scopes inside : Scopes}
  {scope first last dropped : FrameScope} {location place : Location} {condition : Expr} {body : Stmt}
  {height : Option Nat} {bound next : Value}

/-- One turn of a loop, after which the variables of its body are dropped. -/
theorem follows_turn {step : Evaluate Ending} (hlocals : scene.locals = slots.locals)
    (hstep : Follows T (step scene) (Concludes T (some plan) slots (Goes T r inside (dropped ++ last) slots)) m)
    (hlength : last.length = slots.length) (hdrop : DropCode T.code place outside dropped r plan.skip) :
    Follows T (withinScope step scene) (fun ending => Turned T plan slots ending.ofBody) m := by
  refine follows_withinScope hstep fun ending now machine hconcludes => ?_
  rw [hlocals]
  exact hconcludes.turned hlength hdrop

/-- The body of a loop stands in the slots around the loop. -/
theorem placed_body (hsituated : Situated T.nameOf inside slots scope) (hlength : slots.length = plan.outside)
    (htied : Tied T p slots [] scene m) : Placed T (some plan) p inside scope slots slots scene m :=
  ⟨hsituated, List.suffix_refl slots, fun _ hplan => Option.some.inj hplan ▸ hlength, htied⟩

section Again

/-- What a turn of a loop comes to that starts over without a value to hand on. -/
abbrev Revolves (T : Translation) (loop : Option LoopPlan) (start q : Nat) (scopes : Scopes) (scope : FrameScope)
    (slots outer : FrameSlots) : Unit ⊕ Ending → Scene → Machine → Prop :=
  Sum.elim (fun _ => Rests T start slots) (Carried T loop q scopes scope slots outer)

theorem Revolves.since {result : Unit ⊕ Ending} (hslots : slots.Later after) (houter : outer.Later more)
    (hrevolves : Revolves T loop start q scopes scope after more result scene m) :
    Revolves T loop start q scopes scope slots outer result scene m := by
  cases result with
  | inl => exact Rests.since hslots hrevolves
  | inr ending => exact Carried.since hslots houter hrevolves

/-- The body of a loop that jumps back after it. -/
theorem follows_again (hbody : StmtFollows T turns body)
    (hcode : StmtCode T.table T.code (some plan) scope p body (dropped ++ last) r)
    (hfits : Throughout (Scopes.Fits T.nameOf) scopes.enter body.outline)
    (hplaced : Placed T loop p scopes scope slots outer scene m) (hroom : scope.length = plan.outside)
    (hlength : last.length = scope.length) (hdrop : DropCode T.code place outside dropped r plan.skip)
    (hrepeats : T.code.Repeats plan.skip height location start) :
    Follows T ((do return (← withinScope (body.perform turns true)).ofBody.elim (.inl ()) .inr :
      Evaluate (Unit ⊕ Ending)) scene) (Revolves T loop start plan.leave scopes last slots outer) m := by
  have hsituated := hplaced.situated
  have hinside : Placed T (some plan) p scopes.enter scope slots slots scene m :=
    placed_body hsituated.enter (hsituated.length_eq.symm.trans hroom) hplaced.tied
  have hstep := hbody hcode hfits (iff_of_true rfl (List.cons_ne_nil _ _)) hinside
  refine (follows_turn hplaced.tied.locals hstep (hlength.trans hsituated.length_eq) hdrop).bind
    fun ending now machine hturned => ?_
  generalize ending.ofBody = result at hturned ⊢
  cases hturned with
  | again hrests =>
    obtain ⟨after, hlater, htied⟩ := hrests
    exact (htied.repeats hrepeats).follows fun machine h => follows_pure ⟨after, hlater, h⟩
  | leaves hrests => exact follows_pure (hplaced.concludes (hcode.grows.dropped hlength) hrests)
  | givesBack hhalted hreturned => exact follows_pure (.giveBack hhalted hreturned)

theorem follows_forever (hbody : StmtFollows T turns body)
    (hcode : StmtCode T.table T.code loop scope p (.forever location body) last q)
    (hfits : Throughout (Scopes.Fits T.nameOf) scopes (Stmt.forever location body).outline)
    (hplaced : Placed T loop p scopes scope slots outer scene m) :
    Follows T ((Stmt.forever location body).perform turns nested scene)
      (Carried T loop q scopes last slots outer) m := by
  cases hcode with
  | forever _ hcode hlength hdrop hrepeats =>
    rw [Stmt.perform]
    refine follows_loop (fun _ => Rests T p slots) (fun _ now machine hrests => ?_) turns
      ⟨slots, .refl slots, hplaced.tied⟩
    obtain ⟨before, hbefore, htied⟩ := hrests
    obtain ⟨more, hmore, hplaced⟩ := hplaced.moved hbefore (.refl scope) htied
    exact (follows_again hbody hcode (throughout_scope.mp hfits) hplaced rfl hlength hdrop hrepeats).mono
      fun _ _ _ => Revolves.since hbefore hmore

theorem follows_while (hbody : StmtFollows T turns body)
    (hcode : StmtCode T.table T.code loop scope p (.whileLoop location condition body) last q)
    (hfits : Throughout (Scopes.Fits T.nameOf) scopes (Stmt.whileLoop location condition body).outline)
    (hplaced : Placed T loop p scopes scope slots outer scene m) :
    Follows T ((Stmt.whileLoop location condition body).perform turns nested scene)
      (Carried T loop q scopes last slots outer) m := by
  have hgrows := hcode.grows
  cases hcode with
  | whileLoop hcondition hjumps hpop _ hcode hlength hdrop hrepeats hexit =>
    obtain ⟨hfirst, hsecond⟩ := throughout_expr.mp (throughout_scope.mp hfits)
    have hscope := hcondition.later
    rw [Stmt.perform]
    refine follows_loop (fun _ => Rests T p slots) (fun _ now machine hrests => ?_) turns
      ⟨slots, .refl slots, hplaced.tied⟩
    obtain ⟨before, hbefore, htied⟩ := hrests
    have hsituated := (hplaced.situated.change hbefore).enter
    refine follows_condition hcondition hfirst hsituated htied hjumps hpop hexit
      (fun after now machine hlater htied => ?_) fun after now machine hlater htied => follows_pure ?_
    · obtain ⟨more, hmore, hplaced⟩ := hplaced.moved (hbefore.trans hlater) hscope htied
      exact (follows_again hbody hcode hsecond hplaced hscope.length_eq (hlength.trans hscope.length_eq.symm) hdrop
        hrepeats).mono fun _ _ _ => Revolves.since (hbefore.trans hlater) hmore
    · exact hplaced.concludes (hgrows.later hlength) ⟨after, hbefore.trans hlater, htied⟩

end Again

section Counting

variable {kept : FrameSlots} {counter : String} {binding : Option BindingId} {start bound : Expr} {s t limit a : Nat}
  {above : FrameScope} {last next : Value}

/-- The machine is at the start of a turn of a for loop, which keeps the bound and the counter in two slots. -/
def Counting (T : Translation) (start : Nat) (slots : FrameSlots) (last next : Value) (scene : Scene)
    (m : Machine) : Prop :=
  ∃ kept, slots.Later kept ∧ Tied T start (.hidden last :: .hidden next :: kept) [] scene m

/-- The counter and the bound are compared. -/
theorem follows_test (htied : Tied T r (.hidden last :: .hidden next :: kept) [] scene m) (hlength : kept.length = a)
    (hcounter : T.code.Has r (some (a + 2)) .getLocal a 0 location)
    (hbound : T.code.Has (r + 3) (some (a + 3)) .getLocal (a + 1) 0 location)
    (hless : T.code.Has (r + 6) (some (a + 4)) .less 0 0 location) :
    Follows T (orFail location (BinaryOp.less.result scene.heap next last) scene) (fun value now machine =>
      now = scene ∧ Tied T (r + 7) (.hidden last :: .hidden next :: kept) [value] scene machine) m := by
  have htied : Tied T r ([.hidden last] ++ .hidden next :: kept) [] scene m := htied
  refine (htied.getSlot hcounter hlength.symm).follows fun machine htied => ?_
  have htied : Tied T (r + 3) ([] ++ .hidden last :: .hidden next :: kept) [next] scene machine := htied
  refine (htied.getSlot hbound (congrArg (· + 1) hlength.symm)).follows fun machine htied => ?_
  refine (htied.answers hless (answers_binaryOp rfl)).mono fun value now machine h => ?_
  exact ⟨h.1, htied.locals, h.2⟩

/-- The counter is raised, and the next turn follows. -/
theorem follows_increment (htied : Tied T t (.hidden last :: .hidden next :: kept) [] scene m)
    (hlength : kept.length = a) (hcounter : T.code.Has t (some (a + 2)) .getLocal a 0 location)
    (hone : T.code.Has (t + 3) (some (a + 3)) .constant p 0 location)
    (hconstant : T.code.chunk.constants[p]? = some (.scalar (.int 1)))
    (hadd : T.code.Has (t + 6) (some (a + 4)) .add 0 0 location)
    (hset : T.code.Has (t + 7) (some (a + 3)) .setLocal a 0 location)
    (hpop : T.code.Has (t + 10) (some (a + 3)) .pop 0 0 location)
    (hrepeats : T.code.Repeats (t + 11) (some (a + 2)) location r) :
    Follows T (orFail location (BinaryOp.add.result scene.heap next (.scalar (.int 1))) scene)
      (fun value now machine => now = scene ∧ Tied T r (.hidden last :: .hidden value :: kept) [] scene machine) m := by
  have htied : Tied T t ([.hidden last] ++ .hidden next :: kept) [] scene m := htied
  refine (htied.getSlot hcounter hlength.symm).follows fun machine htied => ?_
  refine (leads_always hone htied.stands (always_load (.constant hconstant))).follows fun machine hstands => ?_
  have hadded : Follows T (orFail location (BinaryOp.add.result scene.heap next (.scalar (.int 1))) scene) _ machine :=
    follows_answers hadd hstands (answers_binaryOp rfl)
  generalize BinaryOp.add.result scene.heap next (.scalar (.int 1)) = result at hadded ⊢
  cases result with
  | error kind => exact hadded
  | ok value =>
    refine Leads.bind hadded fun machine h => ?_
    have htied : Tied T (t + 7) ([.hidden last] ++ .hidden next :: kept) [value] scene machine := ⟨htied.locals, h.2⟩
    refine (htied.setHidden hset hlength.symm).bind fun machine htied => ?_
    refine (htied.pop hpop).bind fun machine htied => ?_
    exact (htied.repeats hrepeats).imp fun machine htied => ⟨rfl, htied⟩

/-- The two slots are dropped at the end of the loop. -/
theorem leads_dropCounter (htied : Tied T p (.hidden last :: .hidden next :: kept) [] scene m)
    (hdrop : DropCode T.code place outside dropped p q) (hlength : dropped.length = 2) :
    Leads OutOfRoom (Tied T q kept [] scene) m := by
  have hstands : Stands T p ([last, next] ++ kept.values) scene.toWorld m := htied.stands
  have hcount : [last, next].length = dropped.length := hlength.symm
  exact (leads_drops hdrop hcount hstands).imp fun _ h => ⟨htied.locals, h⟩

/-- The body of a for loop, with the variable of the loop. -/
theorem follows_counted (hbody : StmtFollows T turns body)
    (hcode : StmtCode T.table T.code (some plan) (⟨binding, false⟩ :: scope) p body (dropped ++ above) r)
    (hfits : Throughout (Scopes.Fits T.nameOf) inside (.declares counter { binding } :: body.outline))
    (hinner : inside.outer ≠ []) (hsituated : Situated T.nameOf inside slots scope)
    (hroom : slots.length = plan.outside) (htied : Tied T p slots [next] scene m)
    (hlength : above.length = slots.length) (hdrop : DropCode T.code place outside dropped r plan.skip) :
    Follows T (withinScope (do
      declare true counter next
      body.perform turns true) scene) (fun ending => Turned T plan slots ending.ofBody) m := by
  obtain ⟨id, -, -, hdeclared⟩ := hsituated.declare hfits.1 hinner next false
  have hinside : Placed T (some plan) p (inside.after (.declares counter { binding })) (⟨binding, false⟩ :: scope)
      (.named counter id next :: slots) slots { scene with locals := (counter, next) :: scene.locals } m :=
    ⟨hdeclared, List.suffix_cons _ _, fun _ hplan => Option.some.inj hplan ▸ hroom,
      congrArg ((counter, next) :: ·) htied.locals, htied.stands⟩
  have hstep := hbody hcode hfits.2 (iff_of_true rfl hinner) hinside
  have hwithin := hstep.mono fun _ _ _ => Concludes.within [.named counter id next]
  exact follows_turn htied.locals hwithin hlength hdrop

theorem follows_for (hbody : StmtFollows T turns body)
    (hcode : StmtCode T.table T.code loop scope p (.forLoop location counter binding start bound body) above q)
    (hfits : Throughout (Scopes.Fits T.nameOf) scopes (Stmt.forLoop location counter binding start bound body).outline)
    (hplaced : Placed T loop p scopes scope slots outer scene m) :
    Follows T ((Stmt.forLoop location counter binding start bound body).perform turns nested scene)
      (Carried T loop q scopes above slots outer) m := by
  have hgrows := hcode.grows
  cases hcode with
  | forLoop hstart hbound hnext hlast hless hjumps hpop hcounter _ hcode htwo hlength hdrop hagain hone hconstant hadd
      hset hraised hrepeats hexit hhidden =>
    obtain ⟨hfirst, hrest⟩ := throughout_expr.mp hfits
    obtain ⟨hsecond, hrest⟩ := throughout_expr.mp hrest
    have hinner := throughout_scope.mp (throughout_scope.mp hrest)
    have hscope := hgrows.later hlength
    rw [Stmt.perform]
    refine (follows_expr start hstart hfirst hplaced.situated hplaced.tied).bind fun next now machine hpushed => ?_
    obtain ⟨held, hheld, htied⟩ := hpushed
    have hsituated := ((hplaced.situated.change hheld).later hstart.later).hide next false
    refine (follows_expr bound hbound hsecond hsituated htied.hide).bind fun last now machine hpushed => ?_
    obtain ⟨_, hlater, htied⟩ := hpushed
    obtain ⟨kept, rfl, hkept⟩ := hlater.hidden
    refine follows_loop (fun next => Counting T _ slots last next) (fun next now machine hcounting => ?_) turns
      ⟨kept, hheld.trans hkept, htied.hide⟩
    clear hkept htied hlater hsituated
    obtain ⟨kept, hkept, htied⟩ := hcounting
    have hroom : kept.length = scope.length := hkept.length_eq.trans hplaced.length_eq.symm
    refine (follows_test htied hroom hnext hlast hless).bind fun value now machine h => ?_
    obtain ⟨rfl, htied⟩ := h
    refine (htied.jumpIfFalse hjumps).follows fun machine htied => ?_
    cases htruthy : value.truthy with
    | true =>
      rw [htruthy, if_pos rfl] at htied
      rw [if_pos rfl]
      refine (htied.pop hpop).follows fun machine htied => ?_
      have htied : Tied T _ ([.hidden last] ++ .hidden next :: kept) [] now machine := htied
      refine (htied.getSlot hcounter hroom.symm).follows fun machine htied => ?_
      have hsituated := ((hplaced.situated.change hkept).later hstart.later).hide next false
      have hsituated := (hsituated.later hbound.later).hide last false
      refine (follows_counted hbody hcode hinner (List.cons_ne_nil _ _) hsituated.enter.enter (by simp [hroom]) htied
        (by simp [htwo, hlength, hroom]; omega) hdrop).bind fun ending now machine hturned => ?_
      generalize ending.ofBody = result at hturned ⊢
      cases hturned with
      | again hrests =>
        obtain ⟨_, hlater, htied⟩ := hrests
        obtain ⟨_, rfl, hinside⟩ := hlater.hidden
        obtain ⟨more, rfl, hsince⟩ := hinside.hidden
        refine (follows_increment htied (hsince.length_eq.trans hroom) hagain hone hconstant hadd hset hraised
          hrepeats).bind fun value now machine h => ?_
        obtain ⟨rfl, htied⟩ := h
        exact follows_pure ⟨more, hkept.trans hsince, htied⟩
      | leaves hrests =>
        obtain ⟨_, hlater, htied⟩ := hrests
        obtain ⟨_, rfl, hinside⟩ := hlater.hidden
        obtain ⟨more, rfl, hsince⟩ := hinside.hidden
        refine (leads_dropCounter htied hhidden htwo).follows fun machine htied => follows_pure ?_
        exact hplaced.concludes hscope ⟨more, hkept.trans hsince, htied⟩
      | givesBack hhalted hreturned => exact follows_pure (.giveBack hhalted hreturned)
    | false =>
      rw [htruthy, if_neg Bool.false_ne_true] at htied
      rw [if_neg Bool.false_ne_true]
      refine (htied.pop hexit).follows fun machine htied => ?_
      refine (leads_dropCounter htied hhidden htwo).follows fun machine htied => follows_pure ?_
      exact hplaced.concludes hscope ⟨kept, hkept, htied⟩

end Counting

end Exec

end OwnScript
