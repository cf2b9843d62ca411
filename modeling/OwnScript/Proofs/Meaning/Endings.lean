import OwnScript.Proofs.Meaning.Simulation

/-!
How statements end, for the evaluation and for the machine. Where a scope ends, the evaluation forgets its variables
and the machine drops their slots. A jump out of a loop drops the slots of all the scopes that it leaves before it
jumps; the evaluation forgets them scope by scope.
-/

namespace OwnScript

open Stateful Machine

namespace Exec

variable {T : Translation} {loop : Option LoopPlan} {plan : LoopPlan} {m : Machine} {offset target outside p q : Nat}
  {scene : Scene} {value : Value} {values stack above below : List Value} {w : World} {ρ : Renaming}
  {slots after outer more : FrameSlots} {scopes inside : Scopes} {scope last dropped : FrameScope} {ending : Ending}
  {goes goal : Scene → Machine → Prop} {place : Location} {height : Option Nat}

section Drops

/-- Closing an upvalue is dropping a value where no variable is shared with a function. -/
theorem always_closeUpvalue (a b next : Nat) :
    Always T (value :: stack) w next none (Stands T next stack w) (execute .closeUpvalue a b) := by
  intro ρ m hmirrors hip
  have hsame : (if m.stack.isEmpty then m else m.closeCells (m.stack.size - 1)) = m := by
    split
    · rfl
    · have hnone := hmirrors.cells
      obtain ⟨⟩ := m
      subst hnone
      rw [closeCells_eq]
      rfl
  have hrun : execute .closeUpvalue a b m = execute .pop a b m := by
    simp only [execute]
    rw [bind_apply, modify_apply]
    dsimp only
    rw [hsame]
  rw [hrun]
  exact always_pop a b ρ m hmirrors hip

theorem leads_drop {var : FrameVar} (hhas : T.code.Has offset height var.dropOp 0 0 place)
    (hstands : Stands T offset (value :: stack) w m) : Leads OutOfRoom (Stands T (offset + 1) stack w) m := by
  unfold FrameVar.dropOp at hhas
  split at hhas
  · exact leads_always hhas hstands (always_closeUpvalue 0 0 _)
  · exact leads_always hhas hstands (always_pop 0 0)

/-- Variables are dropped, whether functions have captured them or not. -/
theorem leads_drops (hcode : DropCode T.code place outside dropped p q) (hlength : above.length = dropped.length)
    (hstands : Stands T p (above ++ below) w m) : Leads OutOfRoom (Stands T q below w) m := by
  induction hcode generalizing above m with
  | nil =>
    obtain rfl := List.eq_nil_of_length_eq_zero hlength
    exact .here hstands
  | cons hhas _ ih =>
    cases above with
    | nil => cases hlength
    | cons value rest => exact (leads_drop hhas hstands).bind fun after h => ih (Nat.succ.inj hlength) h

end Drops

/-- The machine is at an offset with the slots that were there before, and nothing above them. -/
def Rests (T : Translation) (offset : Nat) (slots : FrameSlots) (scene : Scene) (m : Machine) : Prop :=
  ∃ after, slots.Later after ∧ Tied T offset after [] scene m

/-- A statement came to its end: the slots that were there before are below those of the variables that it
declared. -/
def Goes (T : Translation) (offset : Nat) (scopes : Scopes) (scope : FrameScope) (slots : FrameSlots) (scene : Scene)
    (m : Machine) : Prop :=
  ∃ declared after : FrameSlots, slots.Later after ∧ Situated T.nameOf scopes (declared ++ after) scope ∧
    Tied T offset (declared ++ after) [] scene m

/-- A jump went to an offset where the frame holds the slots around a loop. The evaluation is still to forget the
variables inside of it. -/
def Jumped (T : Translation) (offset : Nat) (outer : FrameSlots) (scene : Scene) (m : Machine) : Prop :=
  ∃ (forgotten : List (String × Value)) (after : FrameSlots), outer.Later after ∧
    scene.locals = forgotten ++ after.locals ∧
    Stands T offset after.values scene.toWorld m

/-- How a statement ends inside of a loop, or outside of all loops. -/
inductive Concludes (T : Translation) (loop : Option LoopPlan) (outer : FrameSlots) (goes : Scene → Machine → Prop) :
    Ending → Scene → Machine → Prop where
  | next {scene : Scene} {m : Machine} : goes scene m → Concludes T loop outer goes .next scene m
  | leave {plan : LoopPlan} {scene : Scene} {m : Machine} : loop = some plan → Jumped T plan.leave outer scene m →
      Concludes T loop outer goes .leave scene m
  | skip {plan : LoopPlan} {scene : Scene} {m : Machine} : loop = some plan → Jumped T plan.skip outer scene m →
      Concludes T loop outer goes .skip scene m
  | giveBack {value : Value} {scene : Scene} {m : Machine} : m.halted = true → Returned T value scene.toWorld m →
      Concludes T loop outer goes (.giveBack value) scene m

/-- What the body of a loop means for the loop: it goes on with the next turn, or it ends. -/
inductive Turned (T : Translation) (plan : LoopPlan) (slots : FrameSlots) : Option Ending → Scene → Machine → Prop where
  | again {scene : Scene} {m : Machine} : Rests T plan.skip slots scene m → Turned T plan slots none scene m
  | leaves {scene : Scene} {m : Machine} : Rests T plan.leave slots scene m → Turned T plan slots (some .next) scene m
  | givesBack {value : Value} {scene : Scene} {m : Machine} : m.halted = true → Returned T value scene.toWorld m →
      Turned T plan slots (some (.giveBack value)) scene m

theorem Rests.since (hlater : slots.Later after) (hrests : Rests T offset after scene m) :
    Rests T offset slots scene m := by
  obtain ⟨now, hnow, htied⟩ := hrests
  exact ⟨now, hlater.trans hnow, htied⟩

theorem Goes.of_rests (hrests : Rests T offset slots scene m) (hsituated : Situated T.nameOf scopes slots scope)
    (hscope : scope.Later last) : Goes T offset scopes last slots scene m := by
  obtain ⟨now, hnow, htied⟩ := hrests
  exact ⟨[], now, hnow, (hsituated.change hnow).later hscope, htied⟩

theorem Goes.since (hlater : slots.Later after) (hgoes : Goes T offset scopes scope after scene m) :
    Goes T offset scopes scope slots scene m := by
  obtain ⟨declared, now, hnow, hrest⟩ := hgoes
  exact ⟨declared, now, hlater.trans hnow, hrest⟩

theorem Goes.jump (hgoes : Goes T p scopes scope slots scene m) (hjumps : T.code.Jumps p height .jump place q) :
    Leads OutOfRoom (Goes T q scopes scope slots scene) m := by
  obtain ⟨declared, now, hnow, hsituated, htied⟩ := hgoes
  exact (htied.jump hjumps).imp fun machine htied => ⟨declared, now, hnow, hsituated, htied⟩

theorem Goes.later (hgoes : Goes T offset scopes scope slots scene m) (hscope : scope.Later last) :
    Goes T offset scopes last slots scene m := by
  obtain ⟨declared, now, hnow, hsituated, htied⟩ := hgoes
  exact ⟨declared, now, hnow, hsituated.later hscope, htied⟩

/-- Slots that were there before count as declared inside. -/
theorem Goes.within (before : FrameSlots) (hgoes : Goes T offset scopes scope (before ++ slots) scene m) :
    Goes T offset scopes scope slots scene m := by
  obtain ⟨declared, now, hnow, hsituated, htied⟩ := hgoes
  obtain ⟨first, second, rfl, -, hsecond⟩ := FrameSlots.Later.split hnow
  rw [← List.append_assoc] at hsituated htied
  exact ⟨declared ++ first, second, hsecond, hsituated, htied⟩

/-- Nothing was declared where the scope is as large as before. -/
theorem Goes.neutral (hgoes : Goes T offset scopes scope slots scene m) (hlength : scope.length = slots.length) :
    Rests T offset slots scene m := by
  obtain ⟨declared, now, hnow, hsituated, htied⟩ := hgoes
  have hsame := hsituated.length_eq
  rw [List.length_append, hnow.length_eq, hlength] at hsame
  obtain rfl : declared = [] := List.eq_nil_of_length_eq_zero (by omega)
  exact ⟨now, hnow, htied⟩

/-- The variables of a scope are dropped at its end. -/
theorem Goes.close (hgoes : Goes T p inside (dropped ++ last) slots scene m) (hlength : last.length = slots.length)
    (hdrop : DropCode T.code place outside dropped p q) :
    Leads OutOfRoom (Rests T q slots (scene.leave slots.locals.length)) m := by
  obtain ⟨declared, now, hnow, hsituated, hlocals, hstands⟩ := hgoes
  have hdeclared : declared.values.length = dropped.length := by
    have hsame := hsituated.length_eq
    rw [List.length_append, List.length_append, hnow.length_eq, hlength] at hsame
    simpa using (Nat.add_right_cancel hsame).symm
  rw [List.nil_append, FrameSlots.values_append] at hstands
  refine (leads_drops hdrop hdeclared hstands).imp fun machine h => ⟨now, hnow, ?_, h⟩
  simp [Scene.leave, hlocals, hnow.length_locals]

theorem Jumped.since (hlater : outer.Later more) (hjumped : Jumped T offset more scene m) :
    Jumped T offset outer scene m := by
  obtain ⟨forgotten, now, hnow, hrest⟩ := hjumped
  exact ⟨forgotten, now, hlater.trans hnow, hrest⟩

/-- A jump out of a scope inside of the loop. -/
theorem Jumped.close (hjumped : Jumped T offset outer scene m) (houter : outer <:+ slots) :
    Jumped T offset outer (scene.leave slots.locals.length) m := by
  obtain ⟨forgotten, now, hnow, hlocals, hstands⟩ := hjumped
  obtain ⟨inner, rfl⟩ := houter
  refine ⟨forgotten.drop (scene.locals.length - (FrameSlots.locals (inner ++ outer)).length), now, hnow, ?_, hstands⟩
  have hfew : scene.locals.length - (FrameSlots.locals (inner ++ outer)).length ≤ forgotten.length := by
    rw [hlocals, FrameSlots.locals_append, List.length_append, List.length_append, hnow.length_locals]
    omega
  rw [Scene.leave, ← List.drop_append_of_le_length hfew, ← hlocals]

/-- A jump to the end of a loop, or to its next turn. -/
theorem Jumped.rests (hjumped : Jumped T offset slots scene m) :
    Rests T offset slots (scene.leave slots.locals.length) m := by
  obtain ⟨forgotten, now, hnow, hlocals, hstands⟩ := hjumped
  refine ⟨now, hnow, ?_, hstands⟩
  simp [Scene.leave, hlocals, hnow.length_locals]

namespace Concludes

theorem mono (hconcludes : Concludes T loop outer goes ending scene m) (hmono : goes scene m → goal scene m) :
    Concludes T loop outer goal ending scene m := by
  cases hconcludes with
  | next h => exact .next (hmono h)
  | leave hplan hjumped => exact .leave hplan hjumped
  | skip hplan hjumped => exact .skip hplan hjumped
  | giveBack hhalted hreturned => exact .giveBack hhalted hreturned

theorem since (hlater : outer.Later more) (hconcludes : Concludes T loop more goes ending scene m) :
    Concludes T loop outer goes ending scene m := by
  cases hconcludes with
  | next h => exact .next h
  | leave hplan hjumped => exact .leave hplan (hjumped.since hlater)
  | skip hplan hjumped => exact .skip hplan (hjumped.since hlater)
  | giveBack hhalted hreturned => exact .giveBack hhalted hreturned

theorem within (before : FrameSlots)
    (hconcludes : Concludes T loop outer (Goes T p scopes scope (before ++ slots)) ending scene m) :
    Concludes T loop outer (Goes T p scopes scope slots) ending scene m :=
  hconcludes.mono (Goes.within before)

/-- Where a statement comes to its end, more instructions follow. -/
theorem leads (hconcludes : Concludes T loop outer goes ending scene m)
    (hleads : ∀ m, goes scene m → Leads OutOfRoom (goal scene) m) :
    Leads OutOfRoom (Concludes T loop outer goal ending scene) m := by
  cases hconcludes with
  | next h => exact (hleads m h).imp fun _ => .next
  | leave hplan hjumped => exact .here (.leave hplan hjumped)
  | skip hplan hjumped => exact .here (.skip hplan hjumped)
  | giveBack hhalted hreturned => exact .here (.giveBack hhalted hreturned)

/-- The end of a scope inside of the loop. -/
theorem close (hconcludes : Concludes T loop outer (Goes T p inside (dropped ++ last) slots) ending scene m)
    (hsituated : Situated T.nameOf scopes slots scope) (hscope : scope.Later last) (houter : outer <:+ slots)
    (hdrop : DropCode T.code place outside dropped p q) :
    Leads OutOfRoom (Concludes T loop outer (Goes T q scopes last slots) ending
      (scene.leave slots.locals.length)) m := by
  cases hconcludes with
  | next h =>
    exact (h.close (hscope.length_eq.trans hsituated.length_eq) hdrop).imp fun machine h =>
      .next (.of_rests h hsituated hscope)
  | leave hplan hjumped => exact .here (.leave hplan (hjumped.close houter))
  | skip hplan hjumped => exact .here (.skip hplan (hjumped.close houter))
  | giveBack hhalted hreturned => exact .here (.giveBack hhalted hreturned)

/-- The end of the body of a loop. -/
theorem turned (hconcludes : Concludes T (some plan) slots (Goes T p inside (dropped ++ last) slots) ending scene m)
    (hlength : last.length = slots.length) (hdrop : DropCode T.code place outside dropped p plan.skip) :
    Leads OutOfRoom (Turned T plan slots ending.ofBody (scene.leave slots.locals.length)) m := by
  cases hconcludes with
  | next h => exact (h.close hlength hdrop).imp fun machine h => .again h
  | leave hplan hjumped =>
    cases hplan
    exact .here (.leaves hjumped.rests)
  | skip hplan hjumped =>
    cases hplan
    exact .here (.again hjumped.rests)
  | giveBack hhalted hreturned => exact .here (.givesBack hhalted hreturned)

end Concludes

/-- A statement is about to be carried out: where its names lead, the slots around the innermost loop, and the machine
that is tied to the evaluation. -/
structure Placed (T : Translation) (loop : Option LoopPlan) (p : Nat) (scopes : Scopes) (scope : FrameScope)
    (slots outer : FrameSlots) (scene : Scene) (m : Machine) : Prop where
  situated : Situated T.nameOf scopes slots scope
  suffix : outer <:+ slots
  plan : ∀ plan, loop = some plan → outer.length = plan.outside
  tied : Tied T p slots [] scene m

/-- A statement was carried out. -/
abbrev Carried (T : Translation) (loop : Option LoopPlan) (q : Nat) (scopes : Scopes) (scope : FrameScope)
    (slots outer : FrameSlots) : Ending → Scene → Machine → Prop :=
  Concludes T loop outer (Goes T q scopes scope slots)

/-- Whatever is around a statement, a machine that runs its code follows its evaluation. -/
def StmtFollows (T : Translation) (turns : Nat) (stmt : Stmt) : Prop :=
  ∀ {nested : Bool} {loop : Option LoopPlan} {p q : Nat} {scopes : Scopes} {scope last : FrameScope}
    {slots outer : FrameSlots} {scene : Scene} {m : Machine}, StmtCode T.table T.code loop scope p stmt last q →
    Throughout (Scopes.Fits T.nameOf) scopes stmt.outline → (nested = true ↔ scopes.outer ≠ []) →
    Placed T loop p scopes scope slots outer scene m →
    Follows T (stmt.perform turns nested scene) (Carried T loop q (scopes.afterAll stmt.outline) last slots outer) m

/-- Whatever is around statements, a machine that runs their code follows their evaluation. -/
def StmtsFollow (T : Translation) (turns : Nat) (stmts : List Stmt) : Prop :=
  ∀ {nested : Bool} {loop : Option LoopPlan} {p q : Nat} {scopes : Scopes} {scope last : FrameScope}
    {slots outer : FrameSlots} {scene : Scene} {m : Machine}, StmtsCode T.table T.code loop scope p stmts last q →
    Throughout (Scopes.Fits T.nameOf) scopes (Stmt.outlines stmts) → (nested = true ↔ scopes.outer ≠ []) →
    Placed T loop p scopes scope slots outer scene m →
    Follows T (Stmt.performAll turns nested stmts scene)
      (Carried T loop q (scopes.afterAll (Stmt.outlines stmts)) last slots outer) m

section Placed

variable {now : Scene} {machine : Machine}

theorem Carried.since (hslots : slots.Later after) (houter : outer.Later more)
    (hcarried : Carried T loop q scopes scope after more ending scene m) :
    Carried T loop q scopes scope slots outer ending scene m :=
  (Concludes.since houter hcarried).mono (Goes.since hslots)

namespace Placed

theorem enter (hplaced : Placed T loop p scopes scope slots outer scene m) :
    Placed T loop p scopes.enter scope slots outer scene m :=
  { hplaced with situated := hplaced.situated.enter }

/-- The machine has run on, and the variables may have changed. -/
theorem moved (hplaced : Placed T loop p scopes scope slots outer scene m) (hlater : slots.Later after)
    (hscope : scope.Later last) (htied : Tied T q after [] now machine) :
    ∃ more, outer.Later more ∧ Placed T loop q scopes last after more now machine := by
  obtain ⟨inner, rfl⟩ := hplaced.suffix
  obtain ⟨first, second, rfl, -, hsecond⟩ := hlater.split
  exact ⟨second, hsecond, (hplaced.situated.change hlater).later hscope, List.suffix_append first second,
    fun plan hplan => hsecond.length_eq.trans (hplaced.plan plan hplan), htied⟩

/-- A value was pushed that the code keeps for itself. -/
theorem hide (hplaced : Placed T loop p scopes scope slots outer scene m) (hlater : slots.Later after)
    (hscope : scope.Later last) (htied : Tied T q after [value] now machine) :
    ∃ more, outer.Later more ∧
      Placed T loop q scopes (⟨none, false⟩ :: last) (.hidden value :: after) more now machine := by
  obtain ⟨inner, rfl⟩ := hplaced.suffix
  obtain ⟨first, second, rfl, -, hsecond⟩ := hlater.split
  exact ⟨second, hsecond, ((hplaced.situated.change hlater).later hscope).hide value false,
    (List.suffix_append first second).trans (List.suffix_cons _ _),
    fun plan hplan => hsecond.length_eq.trans (hplaced.plan plan hplan), htied.hide⟩

/-- A statement was carried out before. -/
theorem next (hplaced : Placed T loop p scopes scope slots outer scene m)
    (hgoes : Goes T q inside last slots now machine) :
    ∃ declared after more, slots.Later after ∧ outer.Later more ∧
      Placed T loop q inside last (declared ++ after) more now machine := by
  obtain ⟨declared, after, hlater, hsituated, htied⟩ := hgoes
  obtain ⟨inner, rfl⟩ := hplaced.suffix
  obtain ⟨first, second, rfl, -, hsecond⟩ := hlater.split
  refine ⟨declared, first ++ second, second, hlater, hsecond, hsituated, ?_, fun plan hplan => ?_, htied⟩
  · rw [← List.append_assoc]
    exact List.suffix_append _ _
  · exact hsecond.length_eq.trans (hplaced.plan plan hplan)

/-- The statement came to its end and declared nothing. -/
theorem concludes (hplaced : Placed T loop p scopes scope slots outer scene m) (hscope : scope.Later last)
    (hrests : Rests T q slots now machine) : Carried T loop q scopes last slots outer .next now machine :=
  .next (.of_rests hrests hplaced.situated hscope)

theorem length_eq (hplaced : Placed T loop p scopes scope slots outer scene m) : scope.length = slots.length :=
  hplaced.situated.length_eq

end Placed

/-- Statements in a scope of their own, whose variables are dropped at its end. -/
theorem follows_scoped {step : Evaluate Ending} (hplaced : Placed T loop target scopes scope slots outer scene m)
    (hstep : Follows T (step scene) (Carried T loop p inside (dropped ++ last) slots outer) machine)
    (hscope : scope.Later last) (hdrop : DropCode T.code place outside dropped p q) :
    Follows T (Evaluate.withinScope step scene) (Carried T loop q scopes last slots outer) machine := by
  refine follows_withinScope hstep fun ending now after hconcludes => ?_
  rw [hplaced.tied.locals]
  exact hconcludes.close hplaced.situated hscope hplaced.suffix hdrop

end Placed

end Exec

end OwnScript
