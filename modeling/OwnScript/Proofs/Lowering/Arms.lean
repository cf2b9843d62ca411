import OwnScript.Proofs.Lowering.Statements

/-!
Code generation for the arms of a cond follows the layout. The jumps behind the last arm are collected
while the arms are written, and completed all together at the end.
-/

namespace OwnScript

variable {globals : GlobalTable} {tracked : Prop}

namespace Stage

variable {stage : Stage globals}

/-- Arms lead from a stage to another, and the jumps of the arms in front of them are completed there. -/
structure Settles (stage after : Stage globals) (avoid : Set Nat) (done : List Nat)
    (code : Listing tracked → Option LoopPlan → Prop) : Prop where
  emitter : stage.emitter.Advances after.emitter
  length : after.scope.length = stage.scope.length
  size : stage.size ≤ after.size
  pending : ∀ place ∈ stage.draft.pending, place ∉ done → place ∈ after.draft.pending
  completes : ∀ {tracked : Prop} (F : Listing tracked), F.Completes after.draft →
    F.Completes stage.draft ∧ ∀ place ∈ done, F.Leads place after.size
  loops : after.LoopsOpen avoid
  code : ∀ (F : Listing tracked) (plan : Option LoopPlan), F.Completes after.draft →
    F.Holds after.size after.scope.length → after.Planned F plan →
    F.Holds stage.size stage.scope.length ∧ code F plan

theorem Settles.lays {after : Stage globals} {avoid : Set Nat} {code : Listing tracked → Option LoopPlan → Prop}
    (hsettles : stage.Settles after avoid [] code) : stage.Lays after avoid code := by
  refine ⟨⟨⟨?_, hsettles.size, ?_⟩, hsettles.emitter⟩, hsettles.loops, hsettles.code⟩
  · exact fun F h => (hsettles.completes F h).1
  · exact fun place h => hsettles.pending place h (List.not_mem_nil)

/-- The jumps to the end of a cond so far: they are open, and the code at hand leaves them alone. -/
structure Awaits (stage : Stage globals) (avoid : Set Nat) (done : List Nat) : Prop where
  loops : stage.LoopsOpen avoid
  inside : ∀ place ∈ avoid, place < stage.size
  distinct : done.Nodup
  open_ : ∀ place ∈ done, place ∈ stage.draft.pending ∧ place ∈ avoid

/-- No arm matches. -/
theorem settles_none {avoid : Set Nat} {done : List Nat} (hawaits : stage.Awaits avoid done)
    {location : Location} {result : Unit × Emitter}
    (hrun : (do
      Emit.op .noMatchingArm location
      Emit.landAll done location) stage.emitter = .ok result) :
    ∃ after : Stage globals, result = ((), after.emitter) ∧ after.scope = stage.scope ∧
      after.size = stage.size + 1 ∧ stage.Settles after avoid done fun (F : Listing tracked) _ =>
        F.Has stage.size (some stage.scope.length) .noMatchingArm 0 0 location := by
  replace hrun := run_op_after (some stage.scope.length) hrun
  let failed := stage.op .noMatchingArm location (some stage.scope.length)
  have hfailed : stage.Extends failed := stage.extends_op ..
  obtain ⟨draft, hresult, hsize, hkept, hcode⟩ := run_landAll
    (fun place h => hfailed.draft.pending (hawaits.open_ place h).1) hawaits.distinct hrun
  have hfailedSize : failed.size = stage.size + 1 := stage.size_op ..
  have hlast : (failed.draw draft).size = failed.size := hsize
  refine ⟨failed.draw draft, hresult, rfl, hsize.trans hfailedSize,
    (hfailed.emitter.trans (continues_draw ..)).advances, rfl, ?_, ?_, ?_, ?_, ?_⟩
  · exact hlast ▸ hfailed.draft.size
  · exact fun place h hnew => hkept place (hfailed.draft.pending h) hnew
  · intro tracked F h
    obtain ⟨hfailedF, hleads⟩ := hcode F h
    exact ⟨hfailed.draft.completes F hfailedF, fun place hplace => hlast ▸ hleads place hplace⟩
  · refine (hawaits.loops.extends hfailed).of_same rfl (Nat.le_refl _) fun place h hnew => ?_
    exact hkept place h fun hdone => hnew (hawaits.open_ place hdone).2
  · intro F plan h _ _
    have hhas : F.Has stage.size (some stage.scope.length) .noMatchingArm 0 0 location :=
      has_op rfl (hcode F h).1
    exact ⟨hhas.height, hhas⟩

/-- One arm leads from a stage to another; where it has run, its jump to the end is open. -/
structure ArmLays (stage armed : Stage globals) (avoid : Set Nat) (finished : Nat) : Prop where
  proceeds : stage.Proceeds armed
  loops : armed.LoopsOpen (insert finished avoid)
  length : armed.scope.length = stage.scope.length
  own : stage.size ≤ finished
  place : finished ∈ armed.draft.pending

/-- The code of an arm is of the given kind. It does not matter what the frame holds behind the arm, since
control gets there by jumps only. -/
def ArmCode (stage armed : Stage globals) (code : Listing tracked → Option LoopPlan → Prop) : Prop :=
  ∀ (F : Listing tracked) (plan : Option LoopPlan), F.Completes armed.draft → armed.Planned F plan →
    F.Holds stage.size stage.scope.length ∧ code F plan

theorem ArmLays.awaits {armed : Stage globals} {avoid : Set Nat} {finished : Nat}
    (harm : stage.ArmLays armed avoid finished) {done : List Nat}
    (hawaits : stage.Awaits avoid done) :
    armed.Awaits (insert finished avoid) (finished :: done) := by
  have hsize : stage.size ≤ armed.size := harm.proceeds.draft.size
  refine ⟨harm.loops, ?_, ?_, ?_⟩
  · rintro place (rfl | h)
    · have : place + 2 ≤ armed.size := armed.draft.inside _ harm.place
      omega
    · have := hawaits.inside place h
      omega
  · refine List.nodup_cons.mpr ⟨fun h => ?_, hawaits.distinct⟩
    have := hawaits.inside _ (hawaits.open_ _ h).2
    have := harm.own
    omega
  · intro place hplace
    rcases List.mem_cons.mp hplace with rfl | h
    · exact ⟨harm.place, Set.mem_insert ..⟩
    · obtain ⟨hpending, havoid⟩ := hawaits.open_ place h
      exact ⟨harm.proceeds.draft.pending hpending, .inr havoid⟩

/-- An arm that ends the list. -/
theorem ArmLays.settles_last {armed : Stage globals} {avoid : Set Nat} {finished : Nat}
    (harm : stage.ArmLays armed avoid finished) {code : Listing tracked → Option LoopPlan → Prop}
    (harmed : stage.ArmCode armed code) {done : List Nat} (hawaits : stage.Awaits avoid done) {location : Location}
    {result : Unit × Emitter} (hrun : Emit.landAll (finished :: done) location armed.emitter = .ok result) :
    ∃ after : Stage globals, result = ((), after.emitter) ∧ after.scope = armed.scope ∧
      after.size = armed.size ∧ stage.Settles after avoid done fun (F : Listing tracked) plan =>
        code F plan ∧ F.Leads finished armed.size := by
  have hnext := harm.awaits hawaits
  obtain ⟨draft, hresult, hsize, hkept, hcode⟩ :=
    run_landAll (fun place h => (hnext.open_ place h).1) hnext.distinct hrun
  have harmedSize : stage.size ≤ armed.size := harm.proceeds.draft.size
  have hlast : (armed.draw draft).size = armed.size := hsize
  have hloops : (armed.draw draft).LoopsOpen (insert finished avoid) :=
    hnext.loops.of_same rfl (Nat.le_refl _) fun place h hnew =>
      hkept place h fun hdone => hnew (hnext.open_ place hdone).2
  refine ⟨armed.draw draft, hresult, rfl, hsize,
    harm.proceeds.emitter.trans (continues_draw ..).advances, harm.length, ?_, ?_, ?_, ?_, ?_⟩
  · exact hlast ▸ harmedSize
  · intro place h hnew
    refine hkept place (harm.proceeds.draft.pending h) fun hdone => ?_
    rcases List.mem_cons.mp hdone with rfl | hold
    · have : place + 2 ≤ stage.size := stage.draft.inside place h
      have := harm.own
      omega
    · exact hnew hold
  · intro tracked F h
    obtain ⟨harmedF, hleads⟩ := hcode F h
    exact ⟨harm.proceeds.draft.completes F harmedF, fun place hplace =>
      hlast ▸ hleads place (List.mem_cons_of_mem _ hplace)⟩
  · exact hloops.mono (Set.subset_insert ..)
  · intro F plan h _ hplanned
    obtain ⟨harmedF, hleads⟩ := hcode F h
    have hplanned : armed.Planned F plan := hplanned
    obtain ⟨hstart, hcode⟩ := harmed F plan harmedF hplanned
    exact ⟨hstart, hcode, hleads finished (List.mem_cons_self ..)⟩

/-- An arm with more of them behind it. -/
theorem ArmLays.settles_cons {armed after : Stage globals} {avoid : Set Nat} {finished : Nat}
    (harm : stage.ArmLays armed avoid finished) {code others : Listing tracked → Option LoopPlan → Prop}
    (harmed : stage.ArmCode armed code) {done : List Nat}
    (hothers : armed.Settles after (insert finished avoid) (finished :: done) others) :
    stage.Settles after avoid done fun (F : Listing tracked) plan =>
      code F plan ∧ F.Leads finished after.size ∧ others F plan := by
  have harmedSize : stage.size ≤ armed.size := harm.proceeds.draft.size
  refine ⟨harm.proceeds.emitter.trans hothers.emitter, hothers.length.trans harm.length,
    harmedSize.trans hothers.size, ?_, ?_, hothers.loops.mono (Set.subset_insert ..), ?_⟩
  · intro place h hnew
    refine hothers.pending place (harm.proceeds.draft.pending h) fun hdone => ?_
    rcases List.mem_cons.mp hdone with rfl | hold
    · have : place + 2 ≤ stage.size := stage.draft.inside place h
      have := harm.own
      omega
    · exact hnew hold
  · intro tracked F h
    obtain ⟨harmedF, hleads⟩ := hothers.completes F h
    exact ⟨harm.proceeds.draft.completes F harmedF, fun place hplace =>
      hleads place (List.mem_cons_of_mem _ hplace)⟩
  · intro F plan h hend hplanned
    obtain ⟨harmedF, hleads⟩ := hothers.completes F h
    obtain ⟨-, hrest⟩ := hothers.code F plan h hend hplanned
    obtain ⟨hstart, hcode⟩ := harmed F plan harmedF (hplanned.before hothers.emitter harm.loops)
    exact ⟨hstart, hcode, hleads finished (List.mem_cons_self ..), hrest⟩

end Stage

open Stage

section Guards

variable {nesting : Nat} {location place : Location} {pattern : Option Pattern} {guard : Expr}
  {body : List Stmt} {arms : List Arm}

/-- A scope is closed, and a jump behind it is left open. -/
theorem run_finished {stage opened : Stage globals} {avoid : Set Nat} (hopen : stage.LoopsOpen avoid)
    (hproceeds : stage.enterScope.Proceeds opened) (hopened : opened.LoopsOpen avoid)
    {α : Type} {rest : Nat → Emit α} {result : α × Emitter}
    (hrun : (do
      Emit.exitScope
      let finished ← Emit.jump .jump place
      rest finished) opened.emitter = .ok result) :
    ∃ (closed jumped : Stage globals) (dropped : List Local),
      rest (closed.size + 1) jumped.emitter = .ok result ∧
      opened.emitter.current.locals = dropped ++ jumped.emitter.current.locals ∧
      jumped.size = closed.size + 3 ∧ opened.draft.Grows jumped.draft ∧
      stage.ArmLays jumped avoid (closed.size + 1) ∧ ∀ (F : Listing tracked) (plan : Option LoopPlan),
        F.Completes jumped.draft → jumped.Planned F plan →
        F.Completes opened.draft ∧ F.Holds opened.size opened.scope.length ∧ opened.Planned F plan ∧
          DropCode F {} stage.scope.length (scopeOf dropped) opened.size closed.size ∧
          F.Departs closed.size (some stage.scope.length) .jump place := by
  obtain ⟨⟨⟩, emitter, hexit, hrest⟩ := Emit.bind_eq_ok.mp hrun
  obtain ⟨closed, dropped, hresult, hlocals, hlength, hafter, hloops, hgrows, hcode⟩ :=
    run_scoped hproceeds hopened hexit
  cases hresult
  obtain ⟨finished, emitter, hjump, hrest⟩ := Emit.bind_eq_ok.mp hrest
  rw [closed.run_jump .jump place (some stage.scope.length)] at hjump
  cases hjump
  have hjump := closed.extends_jump .jump place (some stage.scope.length)
  have hclosed : closed.LoopsOpen avoid :=
    hopen.exitScope hproceeds hopened hloops hafter.emitter.depth hgrows
  have hsize : stage.size ≤ closed.size := hafter.draft.size
  refine ⟨closed, _, dropped, hrest, hlocals, closed.size_jump .., hgrows.trans hjump.draft,
    ⟨hafter.trans hjump.proceeds,
    (hclosed.insert (Nat.le_succ _)).extends hjump, hlength, by omega, closed.mem_pending_jump ..⟩, ?_⟩
  intro F plan h hplanned
  have hdeparts := departs_jump h
  have hclosedF := hjump.draft.completes F h
  have hplanned : closed.Planned F plan := hplanned
  obtain ⟨hinside, hopenedPlan, hdrops⟩ := hcode F plan hclosedF (hlength ▸ hdeparts.height) hplanned
  exact ⟨hgrows.completes F hclosedF, hinside, hopenedPlan, hdrops, hdeparts⟩

/-- A step of code generation that lays out arms without a scrutinee. -/
def GuardsLaid (globals : GlobalTable) (tracked : Prop) (step : List Nat → Emit Unit) (location : Location)
    (arms : List Arm) :
    Prop :=
  ∀ (stage : Stage globals) (avoid : Set Nat) (done : List Nat), stage.Awaits avoid done →
    ∀ result : Unit × Emitter, step done stage.emitter = .ok result →
    ∃ after : Stage globals, result = ((), after.emitter) ∧
      stage.Settles after avoid done fun (F : Listing tracked) plan =>
      GuardedCode globals F plan location stage.scope stage.size arms after.scope after.size

theorem laid_guards_nil : GuardsLaid globals tracked (Emit.compileGuardedArms nesting location []) location [] := by
  intro stage avoid done hawaits result hrun
  obtain ⟨after, hresult, hscope, hsize, hsettles⟩ := settles_none hawaits hrun
  refine ⟨after, hresult, { hsettles with code := fun F plan h hend hplanned => ?_ }⟩
  obtain ⟨hstart, hhas⟩ := hsettles.code F plan h hend hplanned
  rw [hscope, hsize]
  exact ⟨hstart, .nil hhas⟩

theorem laid_guards_last (hbody : StmtsLaid globals tracked (Emit.compileStmts nesting body) body) :
    GuardsLaid globals tracked
      (Emit.compileGuardedArms nesting location (⟨place, pattern, .absent, body⟩ :: arms)) location
      (⟨place, pattern, .absent, body⟩ :: arms) := by
  intro stage avoid done hawaits result hrun
  replace hrun : (do
      Emit.enterScope
      Emit.compileStmts nesting body
      Emit.exitScope
      let finished ← Emit.jump .jump place
      Emit.landAll (finished :: done) location) stage.emitter = .ok result := hrun
  obtain ⟨⟨⟩, emitter, henter, hrest⟩ := Emit.bind_eq_ok.mp hrun
  rw [stage.run_enterScope] at henter
  cases henter
  obtain ⟨⟨⟩, emitter, hrun, hrest⟩ := Emit.bind_eq_ok.mp hrest
  obtain ⟨opened, hresult, hlays⟩ := hbody stage.enterScope avoid hawaits.loops.enterScope hawaits.inside _ hrun
  cases hresult
  obtain ⟨closed, jumped, dropped, hrest, hlocals, hjumpedSize, -, harm, hcode⟩ :=
    run_finished hawaits.loops hlays.proceeds hlays.loops hrest
  have harmed : stage.ArmCode jumped fun (F : Listing tracked) plan =>
      StmtsCode globals F plan stage.scope stage.size body (scopeOf dropped ++ jumped.scope) opened.size ∧
        DropCode F {} stage.scope.length (scopeOf dropped) opened.size closed.size ∧
        F.Departs closed.size (some stage.scope.length) .jump place := by
    intro F plan h hplanned
    obtain ⟨hopenedF, hinside, hopened, hdrops, hdeparts⟩ := hcode F plan h hplanned
    obtain ⟨hstart, hbodyCode⟩ := hlays.code F plan hopenedF hinside hopened
    rw [scope_of_locals hlocals] at hbodyCode
    exact ⟨hstart, hbodyCode, hdrops, hdeparts⟩
  obtain ⟨after, hresult, hsame, hsize, hsettles⟩ := harm.settles_last harmed hawaits hrest
  refine ⟨after, hresult, { hsettles with code := fun F plan h hend hplanned => ?_ }⟩
  obtain ⟨hstart, ⟨hcode, hdrops, hdeparts⟩, hleads⟩ := hsettles.code F plan h hend hplanned
  rw [← hsame] at hcode
  rw [hjumpedSize] at hleads
  rw [hsize, hjumpedSize]
  exact ⟨hstart, .last hcode hsettles.length hdrops (hdeparts.jumps rfl hleads)⟩

theorem laid_guards_cons (hpresent : guard.isAbsent = false)
    (hguard : ExprLaid globals tracked (Emit.compileExpr nesting guard) guard)
    (hbody : StmtsLaid globals tracked (Emit.compileStmts nesting body) body)
    (hothers : GuardsLaid globals tracked (Emit.compileGuardedArms nesting location arms) location arms) :
    GuardsLaid globals tracked
      (Emit.compileGuardedArms nesting location (⟨place, pattern, guard, body⟩ :: arms)) location
      (⟨place, pattern, guard, body⟩ :: arms) := by
  intro stage avoid done hawaits result hrun
  simp only [Emit.compileGuardedArms, hpresent, pure_bind] at hrun
  rw [if_neg Bool.false_ne_true] at hrun
  obtain ⟨⟨⟩, emitter, hrun, hrest⟩ := Emit.bind_eq_ok.mp hrun
  obtain ⟨first, hresult, hextends, hcode⟩ := hguard stage stage.scope.length _ hrun
  cases hresult
  replace hrest := run_branch (some (stage.scope.length + 1)) (some (stage.scope.length + 1)) hrest
  let chosen := first.branch .jumpIfFalse place (some (stage.scope.length + 1)) (some (stage.scope.length + 1))
  have hsize : stage.size ≤ first.size := hextends.draft.size
  have hchosenSize : chosen.size = first.size + 4 := first.size_branch ..
  have hchosenLength : chosen.scope.length = stage.scope.length := hextends.emitter.length_eq
  have hchosenOpen : chosen.LoopsOpen (insert (first.size + 1) avoid) :=
    ((hawaits.loops.extends hextends).insert (Nat.le_succ _)).extends (first.extends_branch ..)
  have hchosenAvoid : ∀ place ∈ insert (first.size + 1) avoid, place < chosen.size := by
    rintro place (rfl | h)
    · omega
    · have := hawaits.inside place h
      omega
  obtain ⟨⟨⟩, emitter, henter, hrest⟩ := Emit.bind_eq_ok.mp hrest
  rw [chosen.run_enterScope] at henter
  cases henter
  obtain ⟨⟨⟩, emitter, hrun, hrest⟩ := Emit.bind_eq_ok.mp hrest
  obtain ⟨opened, hresult, hlays⟩ := hbody chosen.enterScope _ hchosenOpen.enterScope hchosenAvoid _ hrun
  cases hresult
  obtain ⟨closed, jumped, dropped, hrest, hlocals, hjumpedSize, -, hbodyArm, hbodyCode⟩ :=
    run_finished hchosenOpen hlays.proceeds hlays.loops hrest
  obtain ⟨⟨⟩, emitter, hland, hrest⟩ := Emit.bind_eq_ok.mp hrest
  obtain ⟨hfits, hresult⟩ := jumped.run_land hland
  cases hresult
  let landed := jumped.land (first.size + 1)
  replace hrest := run_op_after (some (stage.scope.length + 1)) hrest
  let popped := landed.op .pop place (some (stage.scope.length + 1))
  have hplace : first.size + 1 ∈ jumped.draft.pending :=
    hbodyArm.proceeds.draft.pending (first.mem_pending_branch ..)
  have hown : chosen.size ≤ closed.size + 1 := hbodyArm.own
  have hjumped : stage.Proceeds jumped :=
    (hextends.proceeds.trans (first.extends_branch ..).proceeds).trans hbodyArm.proceeds
  have harm : stage.ArmLays popped avoid (closed.size + 1) := by
    refine ⟨(hjumped.land hplace hfits (by omega)).trans (landed.extends_op ..).proceeds, ?_,
      hbodyArm.length.trans hchosenLength, by omega, ?_⟩
    · refine ((hbodyArm.loops.land (.inr (.inl rfl))).extends (landed.extends_op ..)).mono ?_
      exact Set.insert_subset_insert (Set.subset_insert ..)
    · refine (landed.extends_op ..).draft.pending ⟨hbodyArm.place, fun heq => ?_⟩
      have : closed.size + 1 = first.size + 1 := heq
      omega
  have harmed : stage.ArmCode popped fun (F : Listing tracked) plan =>
      ExprCode globals F stage.scope.length stage.scope stage.size guard first.scope first.size ∧
        F.Jumps first.size (some (stage.scope.length + 1)) .jumpIfFalse place (closed.size + 3) ∧
        F.Has (first.size + 3) (some (stage.scope.length + 1)) .pop 0 0 place ∧
        StmtsCode globals F plan first.scope (first.size + 4) body (scopeOf dropped ++ popped.scope) opened.size ∧
        DropCode F {} stage.scope.length (scopeOf dropped) opened.size closed.size ∧
        F.Departs closed.size (some stage.scope.length) .jump place ∧
        F.Has (closed.size + 3) (some (stage.scope.length + 1)) .pop 0 0 place := by
    intro F plan h hplanned
    have hpop : F.Has landed.size (some (stage.scope.length + 1)) .pop 0 0 place := has_op rfl h
    obtain ⟨hjumpedF, hleads⟩ := leads_land hplace hfits ((landed.extends_op ..).draft.completes F h)
    obtain ⟨hopenedF, hinside, hopened, hdrops, hdeparts⟩ := hbodyCode F plan hjumpedF hplanned
    obtain ⟨-, hstmtsCode⟩ := hlays.code F plan hopenedF hinside hopened
    have hchosenF := hbodyArm.proceeds.draft.completes F hjumpedF
    obtain ⟨hbranch, hbranchPop⟩ := departs_branch hchosenF
    have hguardCode := hcode F ((first.extends_branch ..).draft.completes F hchosenF)
    rw [scope_of_locals hlocals, size_enterScope, hchosenSize] at hstmtsCode
    rw [hchosenLength] at hdrops hdeparts
    simp only [landed, size_land, hjumpedSize] at hpop hleads
    exact ⟨hguardCode.holds _, hguardCode, hbranch.jumps rfl hleads, hbranchPop, hstmtsCode, hdrops, hdeparts,
      hpop⟩
  obtain ⟨after, hresult, hsettles⟩ := hothers popped _ _ (harm.awaits hawaits) _ hrest
  have hall := harm.settles_cons harmed hsettles
  refine ⟨after, hresult, { hall with code := fun F plan h hend hplanned => ?_ }⟩
  obtain ⟨hstart, ⟨hguardCode, hbranch, hbranchPop, hbodyCode, hdrops, hdeparts, hpop⟩, hleads, hrest⟩ :=
    hall.code F plan h hend hplanned
  have hpoppedSize : popped.size = closed.size + 4 := by simp [popped, landed, hjumpedSize]
  rw [hpoppedSize] at hrest
  exact ⟨hstart, .cons hpresent hguardCode hbranch hbranchPop hbodyCode harm.length hdrops
    (hdeparts.jumps rfl hleads) hpop hrest⟩

theorem laid_condGuards
    (harms : GuardsLaid globals tracked (Emit.compileGuardedArms (nesting + 1) location arms) location arms) :
    StmtLaid globals tracked (Emit.compileStmt nesting (.cond location .absent arms))
      (.cond location .absent arms) := by
  intro stage avoid hopen havoid result hrun
  replace hrun := run_deeper hrun
  obtain ⟨after, hresult, hsettles⟩ := harms stage avoid [] ⟨hopen, havoid, .nil, fun _ h => by cases h⟩ _ hrun
  have hlays := hsettles.lays
  refine ⟨after, hresult, fun _ => hsettles.length, { hlays with code := fun F plan h hend hplanned => ?_ }⟩
  obtain ⟨hstart, hcode⟩ := hlays.code F plan h hend hplanned
  exact ⟨hstart, .condGuards hcode⟩

end Guards

section Patterns

variable {stage : Stage globals} {nesting slot : Nat} {location place : Location} {pattern : Option Pattern}
  {guard : Expr} {body : List Stmt} {arms : List Arm}

/-- The value in a slot is matched. -/
theorem run_matchValue {α : Type} {matcher : Matcher} (hslot : slot ≤ maxOperand) (height : Option Nat)
    {rest : Emit α} {result : α × Emitter}
    (hrun : (do
      let index ← Emit.withChunk (·.addMatcher matcher)
      Emit.opIndex .matchValue index place "patterns"
      Emit.short slot place
      rest) stage.emitter = .ok result) :
    ∃ matched : Stage globals, rest matched.emitter = .ok result ∧ stage.Extends matched ∧
      matched.scope = stage.scope ∧ matched.size = stage.size + 5 ∧
        ∀ {tracked : Prop} (F : Listing tracked), F.Completes matched.draft →
        ∃ a, F.Has stage.size height .matchValue a slot place ∧ F.chunk.matchers[a]? = some matcher := by
  let tabled := stage.draw (stage.draft.retable (stage.draft.chunk.addMatcher matcher).1 rfl rfl)
  obtain ⟨index, emitter, hindex, hrest⟩ := Emit.bind_eq_ok.mp hrun
  have hwith : Emit.withChunk (·.addMatcher matcher) stage.emitter =
      .ok ((stage.draft.chunk.addMatcher matcher).2, tabled.emitter) := by
    have hself : Emit.withChunk (·.addMatcher matcher) stage.emitter =
      .ok ((stage.emitter.current.chunk.addMatcher matcher).2,
        stage.emitter.withChunk (stage.emitter.current.chunk.addMatcher matcher).1) := rfl
    rw [hself, ← stage.chunk_eq]
    rfl
  rw [hwith] at hindex
  cases hindex
  obtain ⟨⟨⟩, emitter, hop, hrest⟩ := Emit.bind_eq_ok.mp hrest
  obtain ⟨hfits, hresult⟩ := tabled.run_opIndex height hop
  cases hresult
  obtain ⟨⟨⟩, emitter, hshort, hrest⟩ := Emit.bind_eq_ok.mp hrest
  cases hshort
  have htabled : stage.draft.Grows tabled.draft := by
    refine ⟨fun F h => ?_, Nat.le_refl _, fun _ h => h⟩
    have hcode : (stage.draft.chunk.addMatcher matcher).1.code = stage.draft.chunk.code := rfl
    exact Draft.completes_retable hcode rfl (fun h => (Chunk.tablesBegin_addMatcher h).1) h
  let draft := ((tabled.draft.op .matchValue place height).short
    (stage.draft.chunk.addMatcher matcher).2 place).short slot place
  have hgrows : tabled.draft.Grows draft :=
    ((Draft.grows_op ..).trans (Draft.grows_short ..)).trans (Draft.grows_short ..)
  refine ⟨stage.draw draft, hrest, extends_draw (htabled.trans hgrows), rfl, ?_, fun F h => ?_⟩
  · have hsize : tabled.draft.size = stage.size := rfl
    simp [draft, hsize]
  · obtain ⟨htabledF, hhas⟩ := Draft.has_op_short_short rfl hfits hslot h
    exact ⟨_, hhas, (Chunk.tablesBegin_addMatcher htabledF.tables).2⟩

/-- The value in a slot is matched, and if it matches, the variables of the pattern come into scope. -/
theorem run_bindPattern {α : Type} {matcher : Matcher} {vars : List Pattern.Variable} (hslot : slot ≤ maxOperand)
    {avoid : Set Nat} (hopen : stage.LoopsOpen avoid) {rest : Nat → Emitter → Emit α} {result : α × Emitter}
    (hrun : (do
      let index ← Emit.withChunk (·.addMatcher matcher)
      Emit.opIndex .matchValue index place "patterns"
      Emit.short slot place
      let noMatch ← Emit.jump .jumpIfFalse place
      Emit.op .pop place
      Emit.enterScope
      let emitter ← get
      Emit.declareVariables vars
      rest noMatch emitter) stage.emitter = .ok result) :
    ∃ chosen bound : Stage globals,
      rest (stage.size + 6) chosen.enterScope.emitter bound.emitter = .ok result ∧
      chosen.enterScope.emitter.current.nextSlot = stage.scope.length ∧ stage.Extends chosen ∧
        chosen.scope = stage.scope ∧ chosen.size = stage.size + 9 ∧
      stage.size + 6 ∈ chosen.draft.pending ∧ chosen.enterScope.Proceeds bound ∧ bound.size = stage.size + 9 ∧
      bound.scope = boundScope vars ++ stage.scope ∧
      chosen.LoopsOpen (insert (stage.size + 6) avoid) ∧ bound.LoopsOpen (insert (stage.size + 6) avoid) ∧
      ∀ {tracked : Prop} (F : Listing tracked), F.Completes chosen.draft →
        ∃ a, F.Has stage.size (some stage.scope.length) .matchValue a slot place ∧
          F.chunk.matchers[a]? = some matcher ∧ F.Departs (stage.size + 5) none .jumpIfFalse place ∧
          F.Has (stage.size + 8) (some (stage.scope.length + (boundScope vars).length + 1)) .pop 0 0 place := by
  obtain ⟨matched, hrest, hmatched, hscope, hsize, hcode⟩ :=
    run_matchValue hslot (some stage.scope.length) hrun
  let height := some (stage.scope.length + (boundScope vars).length + 1)
  replace hrest := run_branch none height hrest
  let chosen := matched.branch .jumpIfFalse place none height
  obtain ⟨⟨⟩, emitter, henter, hrest⟩ := Emit.bind_eq_ok.mp hrest
  rw [chosen.run_enterScope] at henter
  cases henter
  rw [Emit.get_bind] at hrest
  obtain ⟨⟨⟩, emitter, hvars, hrest⟩ := Emit.bind_eq_ok.mp hrest
  obtain ⟨bound, hresult, hproceeds, hdraft, hbound, hloops⟩ := run_declareVariables hvars
  cases hresult
  have hslots : chosen.enterScope.emitter.current.nextSlot = stage.scope.length := by
    rw [FunctionCode.nextSlot_eq chosen.enterScope.tidy.current.slots, ← length_scope, scope_enterScope]
    exact congrArg List.length hscope
  have hextends : stage.Extends chosen := hmatched.trans (matched.extends_branch ..)
  have hchosenSize : chosen.size = stage.size + 9 := by simp [chosen, hsize]
  have hboundSize : bound.size = stage.size + 9 := (congrArg Draft.size hdraft).trans hchosenSize
  rw [hsize] at hrest
  have hmatchedOpen : matched.LoopsOpen (insert (stage.size + 6) avoid) :=
    (hopen.extends hmatched).insert (by omega)
  have hchosenOpen := hmatchedOpen.extends (matched.extends_branch .jumpIfFalse place none height)
  refine ⟨chosen, bound, hrest, hslots, hextends, hscope, hchosenSize, ?_, hproceeds, hboundSize, ?_,
    hchosenOpen, ?_, ?_⟩
  · have hplace := matched.mem_pending_branch .jumpIfFalse place none height
    rwa [hsize] at hplace
  · rw [hbound]
    exact congrArg (boundScope vars ++ ·) hscope
  · exact hchosenOpen.enterScope.of_same hloops (Nat.le_of_eq hproceeds.emitter.depth.symm)
      fun _ h _ => hproceeds.draft.pending h
  · intro tracked F h
    obtain ⟨hdeparts, hpop⟩ := departs_branch h
    obtain ⟨a, hhas, hmatcher⟩ := hcode F ((matched.extends_branch ..).draft.completes F h)
    rw [hsize] at hdeparts hpop
    exact ⟨a, hhas, hmatcher, hdeparts, hpop⟩

theorem arm_plain {guardStep bodyStep : Emit Unit} (hslot : slot ≤ maxOperand) {avoid : Set Nat}
    (hopen : stage.LoopsOpen avoid) (havoid : ∀ place ∈ avoid, place < stage.size)
    (hbody : StmtsLaid globals tracked bodyStep body) {result : Nat × Emitter}
    (hrun : Emit.patternArm slot place pattern false guardStep bodyStep stage.emitter = .ok result) :
    ∃ (armed : Stage globals) (finished : Nat), result = (finished, armed.emitter) ∧
      stage.ArmLays armed avoid finished ∧ stage.ArmCode armed fun (F : Listing tracked) plan =>
        ∀ t, F.Leads finished t →
        PlainArmCode globals F plan place slot stage.scope stage.size pattern body armed.scope armed.size t := by
  simp only [Emit.patternArm, pure_bind, if_neg Bool.false_ne_true] at hrun
  obtain ⟨chosen, bound, hrest, -, hextends, hchosenScope, hchosenSize, hplace, hproceeds, hboundSize, hboundScope,
    hchosenOpen, hboundOpen, hcode⟩ := run_bindPattern hslot hopen hrun
  have hboundAvoid : ∀ place ∈ insert (stage.size + 6) avoid, place < bound.size := by
    rintro place (rfl | h)
    · omega
    · have := havoid place h
      omega
  obtain ⟨⟨⟩, emitter, hrun, hrest⟩ := Emit.bind_eq_ok.mp hrest
  obtain ⟨opened, hresult, hlays⟩ := hbody bound _ hboundOpen hboundAvoid _ hrun
  cases hresult
  obtain ⟨vars, emitter, hvars, hrest⟩ := Emit.bind_eq_ok.mp hrest
  cases hvars
  obtain ⟨closed, jumped, dropped, hrest, hlocals, hjumpedSize, -, hbodyArm, hbodyCode⟩ :=
    run_finished hchosenOpen (hproceeds.trans hlays.proceeds) hlays.loops hrest
  obtain ⟨⟨⟩, emitter, hland, hrest⟩ := Emit.bind_eq_ok.mp hrest
  obtain ⟨hfits, hresult⟩ := jumped.run_land hland
  cases hresult
  let landed := jumped.land (stage.size + 6)
  replace hrest := run_op_after (some (stage.scope.length + 1)) hrest
  let popped := landed.op .pop place (some (stage.scope.length + 1))
  cases hrest
  have hplace : stage.size + 6 ∈ jumped.draft.pending := hbodyArm.proceeds.draft.pending hplace
  have hown : chosen.size ≤ closed.size + 1 := hbodyArm.own
  have hchosenLength : chosen.scope.length = stage.scope.length := congrArg List.length hchosenScope
  have harm : stage.ArmLays popped avoid (closed.size + 1) := by
    refine ⟨((hextends.proceeds.trans hbodyArm.proceeds).land hplace hfits (by omega)).trans
      (landed.extends_op ..).proceeds, ?_, hbodyArm.length.trans hchosenLength, by omega, ?_⟩
    · refine ((hbodyArm.loops.land (.inr (.inl rfl))).extends (landed.extends_op ..)).mono ?_
      exact Set.insert_subset_insert (Set.subset_insert ..)
    · refine (landed.extends_op ..).draft.pending ⟨hbodyArm.place, fun heq => ?_⟩
      have : closed.size + 1 = stage.size + 6 := heq
      omega
  refine ⟨popped, closed.size + 1, rfl, harm, fun F plan h hplanned => ?_⟩
  have hpop : F.Has landed.size (some (stage.scope.length + 1)) .pop 0 0 place := has_op rfl h
  obtain ⟨hjumpedF, hleads⟩ := leads_land hplace hfits ((landed.extends_op ..).draft.completes F h)
  obtain ⟨hopenedF, hinside, hopened, hdrops, hdeparts⟩ := hbodyCode F plan hjumpedF hplanned
  obtain ⟨-, hstmtsCode⟩ := hlays.code F plan hopenedF hinside hopened
  obtain ⟨a, hmatch, hmatcher, hbranch, hbranchPop⟩ :=
    hcode F (hbodyArm.proceeds.draft.completes F hjumpedF)
  rw [scope_of_locals hlocals, hboundScope, hboundSize] at hstmtsCode
  rw [hchosenLength] at hdrops hdeparts
  simp only [landed, size_land, hjumpedSize] at hpop hleads
  have hpoppedSize : popped.size = closed.size + 4 := by simp [popped, landed, hjumpedSize]
  refine ⟨hmatch.height, fun t ht => ?_⟩
  rw [hpoppedSize]
  exact .intro rfl hmatch hmatcher (hbranch.jumps rfl hleads) hbranchPop hstmtsCode harm.length hdrops
    (hdeparts.jumps rfl ht) hpop

/-- The variables of a pattern are found again behind the body of their arm. -/
theorem run_localsFrom {α : Type} {opened : Stage globals} {dropped kept : List Local} {slot count : Nat}
    (hlocals : opened.emitter.current.locals = dropped ++ kept) (hslot : kept.length = slot)
    (hcount : count ≤ dropped.length) {rest : List Local → Emit α} {result : α × Emitter}
    (hrun : (Emit.localsFrom slot count >>= rest) opened.emitter = .ok result) :
    ∃ declared rebound : List Local, dropped = declared ++ rebound ∧ rebound.length = count ∧
      rest rebound opened.emitter = .ok result := by
  obtain ⟨vars, emitter, hvars, hrest⟩ := Emit.bind_eq_ok.mp hrun
  cases hvars
  have hsplit := List.take_append_drop (dropped.length - count) dropped
  have hlength : (dropped.drop (dropped.length - count)).length = count := by
    rw [List.length_drop]
    omega
  have hslots := opened.tidy.current.slots
  rw [hlocals, ← hsplit, List.append_assoc] at hslots
  have hfilter := hslots.filter_slots
  rw [hslot, hlength, ← List.append_assoc, hsplit, ← hlocals] at hfilter
  refine ⟨_, _, hsplit.symm, hlength, ?_⟩
  rw [← hfilter]
  exact hrest

theorem arm_guarded {guardStep bodyStep : Emit Unit} (hslot : slot ≤ maxOperand) {avoid : Set Nat}
    (hopen : stage.LoopsOpen avoid) (havoid : ∀ place ∈ avoid, place < stage.size)
    (hguard : ExprLaid globals tracked guardStep guard) (hbody : StmtsLaid globals tracked bodyStep body)
    {result : Nat × Emitter}
    (hrun : Emit.patternArm slot place pattern true guardStep bodyStep stage.emitter = .ok result) :
    ∃ (armed : Stage globals) (finished : Nat), result = (finished, armed.emitter) ∧
      stage.ArmLays armed avoid finished ∧ stage.ArmCode armed fun (F : Listing tracked) plan =>
        ∀ t, F.Leads finished t →
        GuardedArmCode globals F plan place slot stage.scope stage.size pattern guard body armed.scope
          armed.size t := by
  simp only [Emit.patternArm, pure_bind, if_true] at hrun
  obtain ⟨chosen, bound, hrest, hbase, hextends, hchosenScope, hchosenSize, hnoMatch, hproceeds, hboundSize,
    hboundScope, hchosenOpen, hboundOpen, hcode⟩ := run_bindPattern hslot hopen hrun
  obtain ⟨vars, hvars⟩ : ∃ vars, boundScope (pattern.elim [] Pattern.vars) = vars := ⟨_, rfl⟩
  have hcount : (pattern.elim [] Pattern.vars).length = vars.length := by
    simp [← hvars, boundScope]
  rw [hvars] at hboundScope hcode
  rw [hbase, hcount] at hrest
  obtain ⟨height, hheight⟩ : ∃ height, stage.scope.length + vars.length = height := ⟨_, rfl⟩
  obtain ⟨⟨⟩, emitter, hrun, hrest⟩ := Emit.bind_eq_ok.mp hrest
  obtain ⟨tested, hresult, htested, htestCode⟩ := hguard bound height _ hrun
  cases hresult
  replace hrest := run_branch (some (height + 1)) (some (height + 1)) hrest
  let passed := tested.branch .jumpIfFalse place (some (height + 1)) (some (height + 1))
  have htestedSize : bound.size ≤ tested.size := htested.draft.size
  have hpassedSize : passed.size = tested.size + 4 := tested.size_branch ..
  have hpassedOpen : passed.LoopsOpen (insert (tested.size + 1) (insert (stage.size + 6) avoid)) :=
    ((hboundOpen.extends htested).insert (Nat.le_succ _)).extends (tested.extends_branch ..)
  have hpassedAvoid : ∀ place ∈ insert (tested.size + 1) (insert (stage.size + 6) avoid), place < passed.size := by
    rintro place (rfl | rfl | h)
    · omega
    · omega
    · have := havoid place h
      omega
  obtain ⟨⟨⟩, emitter, hrun, hrest⟩ := Emit.bind_eq_ok.mp hrest
  obtain ⟨opened, hresult, hlays⟩ := hbody passed _ hpassedOpen hpassedAvoid _ hrun
  cases hresult
  have hopened : chosen.enterScope.Proceeds opened :=
    ((hproceeds.trans htested.proceeds).trans (tested.extends_branch ..).proceeds).trans hlays.proceeds
  have hchosenLength : chosen.scope.length = stage.scope.length := congrArg List.length hchosenScope
  obtain ⟨dropped, kept, hlocals, hkept, -⟩ := hopened.emitter.locals
  have hkeptLength : kept.length = stage.scope.length := by
    rw [hkept.length_eq, ← hchosenLength]
    exact chosen.length_scope.symm
  have hdroppedLength : vars.length ≤ dropped.length := by
    have hlong : passed.scope.length ≤ opened.scope.length := hlays.proceeds.emitter.length_le
    have hpassedLength : passed.scope.length = bound.scope.length := htested.emitter.length_eq
    rw [opened.length_scope, hlocals, hpassedLength, hboundScope, List.length_append, List.length_append,
      hkeptLength] at hlong
    omega
  obtain ⟨declared, rebound, rfl, hreboundLength, hrest⟩ :=
    run_localsFrom hlocals hkeptLength hdroppedLength hrest
  have hchosenOpen : chosen.LoopsOpen (insert (tested.size + 1) (insert (stage.size + 6) avoid)) :=
    hchosenOpen.insert (by omega)
  obtain ⟨closed, jumped, dropped, hrest, hlocals', hjumpedSize, hgrows, hbodyArm, hbodyCode⟩ :=
    run_finished hchosenOpen hopened hlays.loops hrest
  have hjumpedLength : jumped.scope.length = stage.scope.length := hbodyArm.length.trans hchosenLength
  obtain ⟨rfl, hkeptLocals⟩ : declared ++ rebound = dropped ∧ kept = jumped.emitter.current.locals := by
    refine List.append_inj' (hlocals.symm.trans hlocals') ?_
    rw [hkeptLength, ← jumped.length_scope, hjumpedLength]
  -- Where the guard fails, the variables of the pattern are dropped.
  obtain ⟨⟨⟩, emitter, hland, hrest⟩ := Emit.bind_eq_ok.mp hrest
  obtain ⟨hfits, hresult⟩ := jumped.run_land hland
  cases hresult
  let landed := jumped.land (tested.size + 1)
  replace hrest := run_op_after (some (height + 1)) hrest
  let popped := landed.op .pop place (some (height + 1))
  obtain ⟨⟨⟩, emitter, hunbind, hrest⟩ := Emit.bind_eq_ok.mp hrest
  obtain ⟨draft, hresult, hdraft, hdropCode⟩ := popped.run_drops stage.scope.length hunbind
  cases hresult
  let cleared := popped.draw draft
  obtain ⟨next, emitter, hjump, hrest⟩ := Emit.bind_eq_ok.mp hrest
  rw [cleared.run_jump .jump place (some stage.scope.length)] at hjump
  cases hjump
  let skipped := cleared.jump .jump place (some stage.scope.length)
  -- Where the pattern does not match, there is nothing to drop.
  obtain ⟨⟨⟩, emitter, hland, hrest⟩ := Emit.bind_eq_ok.mp hrest
  obtain ⟨hfits', hresult⟩ := skipped.run_land hland
  cases hresult
  let reached := skipped.land (stage.size + 6)
  replace hrest := run_op_after (some (stage.scope.length + 1)) hrest
  let unmatched := reached.op .pop place (some (stage.scope.length + 1))
  obtain ⟨⟨⟩, emitter, hland, hrest⟩ := Emit.bind_eq_ok.mp hrest
  obtain ⟨hfits'', hresult⟩ := unmatched.run_land hland
  cases hresult
  cases hrest
  let armed := unmatched.land (cleared.size + 1)
  have hown : chosen.size ≤ closed.size + 1 := hbodyArm.own
  have hlaysSize : passed.size ≤ opened.size := hlays.proceeds.draft.size
  have hjumpedGrows : opened.size ≤ jumped.size := hgrows.size
  have hpoppedSize : popped.size = closed.size + 4 := by simp [popped, landed, hjumpedSize]
  have hclearedSize : popped.size ≤ cleared.size := hdraft.size
  have hskippedSize : skipped.size = cleared.size + 3 := cleared.size_jump ..
  have hunmatchedSize : unmatched.size = cleared.size + 4 := by simp [unmatched, reached, hskippedSize]
  have hpopped : landed.Extends popped := landed.extends_op ..
  have hcleared : popped.Extends cleared := extends_draw hdraft
  have hskipped : cleared.Extends skipped := cleared.extends_jump ..
  have hunmatched : reached.Extends unmatched := reached.extends_op ..
  have hlater := (hpopped.trans hcleared).trans hskipped
  have hnoGuard : tested.size + 1 ∈ jumped.draft.pending :=
    hgrows.pending (hlays.proceeds.draft.pending (tested.mem_pending_branch ..))
  have hkeeps (other : Nat) (hother : other ∈ jumped.draft.pending) (hne : other ≠ tested.size + 1) :
      other ∈ skipped.draft.pending := hlater.draft.pending ⟨hother, hne⟩
  have hplace : stage.size + 6 ∈ skipped.draft.pending :=
    hkeeps _ (hbodyArm.proceeds.draft.pending hnoMatch) (by omega)
  have hnext : cleared.size + 1 ∈ unmatched.draft.pending :=
    hunmatched.draft.pending ⟨cleared.mem_pending_jump .., by simp; omega⟩
  have harm : stage.ArmLays armed avoid (closed.size + 1) := by
    refine ⟨?_, ?_, hjumpedLength, by omega, ?_⟩
    · have hskippedProceeds : stage.Proceeds skipped :=
        ((hextends.proceeds.trans hbodyArm.proceeds).land hnoGuard hfits (by omega)).trans hlater.proceeds
      exact ((hskippedProceeds.land hplace hfits' (by omega)).trans hunmatched.proceeds).land hnext hfits''
        (by omega)
    · have hclearedOpen := ((hbodyArm.loops.land (.inr (.inl rfl))).extends hpopped).extends hcleared
      have hskippedOpen := (hclearedOpen.insert (Nat.le_succ _)).extends hskipped
      refine LoopsOpen.mono
        (((hskippedOpen.land (.inr (.inr (.inr (.inl rfl))))).extends hunmatched).land (.inl rfl)) ?_
      rintro place (rfl | h)
      · exact .inr (.inl rfl)
      · exact .inr (.inr (.inr (.inr h)))
    · have hfinished : closed.size + 1 ∈ skipped.draft.pending := hkeeps _ hbodyArm.place (by omega)
      exact ⟨hunmatched.draft.pending ⟨hfinished, by simp; omega⟩, by simp; omega⟩
  refine ⟨armed, closed.size + 1, rfl, harm, fun F plan h hplanned => ?_⟩
  obtain ⟨hunmatchedF, hleadsNext⟩ := leads_land hnext hfits'' h
  have hlastPop : F.Has reached.size (some (stage.scope.length + 1)) .pop 0 0 place := has_op rfl hunmatchedF
  obtain ⟨hskippedF, hleadsNone⟩ := leads_land hplace hfits' (hunmatched.draft.completes F hunmatchedF)
  have hover : F.Departs cleared.size (some stage.scope.length) .jump place := departs_jump hskippedF
  have hclearedF := hskipped.draft.completes F hskippedF
  have hdropped := hdropCode F hclearedF
  have hpoppedF := hcleared.draft.completes F hclearedF
  have hguardPop : F.Has landed.size (some (height + 1)) .pop 0 0 place := has_op rfl hpoppedF
  obtain ⟨hjumpedF, hleadsGuard⟩ := leads_land hnoGuard hfits (hpopped.draft.completes F hpoppedF)
  obtain ⟨hopenedF, hinside, hopenedPlan, hdrops, hdeparts⟩ := hbodyCode F plan hjumpedF hplanned
  obtain ⟨-, hstmtsCode⟩ := hlays.code F plan hopenedF hinside hopenedPlan
  have hpassedF := hlays.proceeds.draft.completes F hopenedF
  obtain ⟨hbranch, hbranchPop⟩ := departs_branch hpassedF
  have htestedF := (tested.extends_branch ..).draft.completes F hpassedF
  have hguardCode := htestCode F htestedF
  obtain ⟨a, hmatch, hmatcher, hmatchBranch, hmatchPop⟩ :=
    hcode F (hbodyArm.proceeds.draft.completes F hjumpedF)
  have hopenedScope : opened.scope = scopeOf declared ++ (scopeOf rebound ++ armed.scope) := by
    rw [scope_of_locals hlocals', scopeOf_append, List.append_assoc]
    rfl
  rw [hopenedScope, hpassedSize] at hstmtsCode
  rw [hboundScope, hboundSize] at hguardCode
  rw [hchosenLength, scopeOf_append] at hdrops
  rw [hchosenLength] at hdeparts
  simp only [landed, size_land, hjumpedSize] at hguardPop hleadsGuard
  simp only [reached, size_land, hskippedSize] at hlastPop hleadsNone
  rw [hunmatchedSize] at hleadsNext
  rw [hpoppedSize] at hdropped
  subst hheight
  refine ⟨hmatch.height, fun t ht => ?_⟩
  have harmedSize : armed.size = cleared.size + 4 := (unmatched.size_land _).trans hunmatchedSize
  rw [harmedSize]
  exact .intro hvars hmatch hmatcher (hmatchBranch.jumps rfl hleadsNone) hmatchPop hguardCode
    (hbranch.jumps rfl hleadsGuard) hbranchPop hstmtsCode ((length_scopeOf _).trans hreboundLength) harm.length
    hdrops (hdeparts.jumps rfl ht) hguardPop hdropped (hover.jumps rfl hleadsNext) hlastPop

/-- A step of code generation that lays out arms whose scrutinee is in a slot. -/
def PatternsLaid (globals : GlobalTable) (tracked : Prop) (step : List Nat → Emit Unit) (location : Location)
    (slot : Nat) (arms : List Arm) : Prop :=
  ∀ (stage : Stage globals) (avoid : Set Nat) (done : List Nat), stage.Awaits avoid done →
    ∀ result : Unit × Emitter, step done stage.emitter = .ok result →
    ∃ after : Stage globals, result = ((), after.emitter) ∧
      stage.Settles after avoid done fun (F : Listing tracked) plan =>
      PatternedCode globals F plan location slot stage.scope stage.size arms after.scope after.size

theorem laid_patterns_nil :
    PatternsLaid globals tracked (Emit.compilePatternArms nesting location slot []) location slot [] := by
  intro stage avoid done hawaits result hrun
  obtain ⟨after, hresult, hscope, hsize, hsettles⟩ := settles_none hawaits hrun
  refine ⟨after, hresult, { hsettles with code := fun F plan h hend hplanned => ?_ }⟩
  obtain ⟨hstart, hhas⟩ := hsettles.code F plan h hend hplanned
  rw [hscope, hsize]
  exact ⟨hstart, .nil hhas⟩

theorem laid_patterns_plain (hslot : slot ≤ maxOperand)
    (hbody : StmtsLaid globals tracked (Emit.compileStmts nesting body) body)
    (hothers : PatternsLaid globals tracked (Emit.compilePatternArms nesting location slot arms) location slot arms) :
    PatternsLaid globals tracked
      (Emit.compilePatternArms nesting location slot (⟨place, pattern, .absent, body⟩ :: arms))
      location slot (⟨place, pattern, .absent, body⟩ :: arms) := by
  intro stage avoid done hawaits result hrun
  obtain ⟨finished, emitter, hrun, hrest⟩ := Emit.bind_eq_ok.mp hrun
  obtain ⟨armed, place, hresult, harm, harmed⟩ := arm_plain hslot hawaits.loops hawaits.inside hbody hrun
  cases hresult
  cases hall : pattern.all Pattern.isIrrefutable with
  | true =>
    rw [if_pos (by exact hall)] at hrest
    obtain ⟨after, hresult, hsame, hsize, hsettles⟩ := harm.settles_last harmed hawaits hrest
    refine ⟨after, hresult, { hsettles with code := fun F plan h hend hplanned => ?_ }⟩
    obtain ⟨hstart, hcode, hleads⟩ := hsettles.code F plan h hend hplanned
    rw [hsame, hsize]
    exact ⟨hstart, .last hall (hcode _ hleads)⟩
  | false =>
    rw [if_neg (by rw [hall]; exact Bool.false_ne_true)] at hrest
    obtain ⟨after, hresult, hsettles⟩ := hothers armed _ _ (harm.awaits hawaits) _ hrest
    have hsettled := harm.settles_cons harmed hsettles
    refine ⟨after, hresult, { hsettled with code := fun F plan h hend hplanned => ?_ }⟩
    obtain ⟨hstart, hcode, hleads, hrest⟩ := hsettled.code F plan h hend hplanned
    exact ⟨hstart, .plain hall (hcode _ hleads) hrest⟩

theorem laid_patterns_guarded (hslot : slot ≤ maxOperand) (hpresent : guard.isAbsent = false)
    (hguard : ExprLaid globals tracked (Emit.compileExpr nesting guard) guard)
    (hbody : StmtsLaid globals tracked (Emit.compileStmts nesting body) body)
    (hothers : PatternsLaid globals tracked (Emit.compilePatternArms nesting location slot arms) location slot arms) :
    PatternsLaid globals tracked (Emit.compilePatternArms nesting location slot (⟨place, pattern, guard, body⟩ :: arms))
      location slot (⟨place, pattern, guard, body⟩ :: arms) := by
  intro stage avoid done hawaits result hrun
  simp only [Emit.compilePatternArms, hpresent, Bool.not_false] at hrun
  obtain ⟨finished, emitter, hrun, hrest⟩ := Emit.bind_eq_ok.mp hrun
  obtain ⟨armed, place, hresult, harm, harmed⟩ := arm_guarded hslot hawaits.loops hawaits.inside hguard hbody hrun
  cases hresult
  rw [if_neg (by simp)] at hrest
  obtain ⟨after, hresult, hsettles⟩ := hothers armed _ _ (harm.awaits hawaits) _ hrest
  have hsettled := harm.settles_cons harmed hsettles
  refine ⟨after, hresult, { hsettled with code := fun F plan h hend hplanned => ?_ }⟩
  obtain ⟨hstart, hcode, hleads, hrest⟩ := hsettled.code F plan h hend hplanned
  exact ⟨hstart, .guarded hpresent (hcode _ hleads) hrest⟩

theorem laid_condPatterns {scrutinee : Expr} (hpresent : scrutinee.isAbsent = false)
    (hscrutinee : ExprLaid globals tracked (Emit.compileExpr (nesting + 1) scrutinee) scrutinee)
    (harms : ∀ slot, slot ≤ maxOperand →
      PatternsLaid globals tracked (Emit.compilePatternArms (nesting + 1) location slot arms) location slot arms) :
    StmtLaid globals tracked (Emit.compileStmt nesting (.cond location scrutinee arms))
      (.cond location scrutinee arms) := by
  intro stage avoid hopen havoid result hrun
  have hrun : (do
      let nesting ← Emit.deeper nesting location
      Emit.enterScope
      Emit.compileExpr nesting scrutinee
      let slot ← Emit.declareLocal none location
      Emit.compilePatternArms nesting location slot arms []
      Emit.exitScope) stage.emitter = .ok result := by
    cases scrutinee <;> first | exact hrun | cases hpresent
  replace hrun := run_deeper hrun
  obtain ⟨⟨⟩, emitter, henter, hrest⟩ := Emit.bind_eq_ok.mp hrun
  rw [stage.run_enterScope] at henter
  cases henter
  obtain ⟨⟨⟩, emitter, hrun, hrest⟩ := Emit.bind_eq_ok.mp hrest
  obtain ⟨first, hresult, hextends, hcode⟩ := hscrutinee stage.enterScope stage.scope.length _ hrun
  cases hresult
  have hlength : first.scope.length = stage.scope.length := hextends.emitter.length_eq
  obtain ⟨slot, emitter, hrun, hrest⟩ := Emit.bind_eq_ok.mp hrest
  obtain ⟨declared, hresult, hdeclared, hdraft, hscope, hroom, hloops⟩ := first.run_declareLocal hrun
  cases hresult
  have hdeclaredSize : declared.size = first.size := congrArg Draft.size hdraft
  have hsize : stage.size ≤ first.size := hextends.draft.size
  have hdeclaredOpen : declared.LoopsOpen avoid :=
    (hopen.enterScope.extends hextends).of_same hloops (Nat.le_of_eq hdeclared.emitter.depth.symm)
      fun _ h _ => hdeclared.draft.pending h
  have hdeclaredAvoid : ∀ place ∈ avoid, place < declared.size := by
    intro place h
    have := havoid place h
    omega
  obtain ⟨⟨⟩, emitter, hrun, hexit⟩ := Emit.bind_eq_ok.mp hrest
  obtain ⟨opened, hresult, hsettles⟩ := harms _ (Nat.le_of_lt hroom) declared avoid []
    ⟨hdeclaredOpen, hdeclaredAvoid, .nil, fun _ h => by cases h⟩ _ hrun
  cases hresult
  have hlays : stage.enterScope.Lays opened avoid fun (F : Listing tracked) plan =>
      ExprCode globals F stage.scope.length stage.scope stage.size scrutinee first.scope first.size ∧
        PatternedCode globals F plan location stage.scope.length (⟨none, false⟩ :: first.scope) first.size arms
          opened.scope opened.size := by
    refine ⟨(hextends.proceeds.trans hdeclared).trans hsettles.lays.proceeds, hsettles.loops, ?_⟩
    intro F plan h hend hplanned
    obtain ⟨-, harmsCode⟩ := hsettles.code F plan h hend hplanned
    have hdeclaredF := (hsettles.completes F h).1
    have hexprCode := hcode F (hdeclared.draft.completes F hdeclaredF)
    rw [hscope, hdeclaredSize, hlength] at harmsCode
    exact ⟨hexprCode.holds _, hexprCode, harmsCode⟩
  obtain ⟨after, dropped, hresult, hlocals, hafter, hall⟩ := lays_scoped hopen hlays hexit
  refine ⟨after, hresult, fun _ => hafter, { hall with code := fun F plan h hend hplanned => ?_ }⟩
  obtain ⟨hstart, ⟨hexprCode, harmsCode⟩, hdrops⟩ := hall.code F plan h hend hplanned
  have hopenedLength : opened.scope.length = stage.scope.length + 1 := by
    rw [hsettles.length, hscope, List.length_cons, hlength]
  have hopenedScope := scope_of_locals hlocals
  obtain ⟨hidden, hhidden⟩ : ∃ hidden, scopeOf dropped = [hidden] := by
    refine List.length_eq_one_iff.mp ?_
    rw [hopenedScope, List.length_append, hafter] at hopenedLength
    omega
  rw [hopenedScope, hhidden] at harmsCode
  rw [hhidden] at hdrops
  exact ⟨hstart, .condPatterns hpresent hexprCode harmsCode hafter hdrops⟩

end Patterns

end OwnScript
