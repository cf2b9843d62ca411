import OwnScript.Proofs.Lowering.Expressions

/-!
Code generation for statements follows the layout: straight-line statements, scopes, branches and loops.
-/

namespace OwnScript

variable {globals : GlobalTable} {tracked : Prop}

namespace Stage

variable {stage : Stage globals}

/-- Jumps out of the innermost loop. -/
def jumpOut (stage : Stage globals) (draft : Draft) (location : Location) (height : Nat)
    (loops : List LoopJumps) : Stage globals where
  emitter := { stage.emitter with
    current := { stage.emitter.current with
      chunk := (draft.jump .jump location (some height)).chunk, loops } }
  draft := draft.jump .jump location (some height)
  globals_eq := stage.globals_eq
  chunk_eq := rfl
  tidy := ⟨⟨stage.tidy.current.slots, stage.tidy.current.nested, stage.tidy.current.shallow,
    stage.tidy.current.few⟩, stage.tidy.linked.of_captures rfl, stage.tidy.globals⟩

/-- What a jump out of the innermost loop leads to, whichever of the two kinds it is. -/
theorem lays_jumpFromLoop {avoid : Set Nat} (hopen : stage.LoopsOpen avoid)
    (havoid : ∀ place ∈ avoid, place < stage.size) {word : String}
    {add : LoopJumps → Nat → LoopJumps} {target : LoopPlan → Nat} {stmt : Stmt} {location : Location}
    (hgrows : ∀ loop place rest, LoopsGrow (loop :: rest) (add loop place :: rest))
    (hadded : ∀ loop place, ((add loop place).leaving ++ (add loop place).skipping).Perm
      (place :: (loop.leaving ++ loop.skipping)))
    (htarget : ∀ (F : Listing tracked) loop place (ends : LoopPlan),
      (∀ other ∈ (add loop place).leaving, F.Leads other ends.leave) →
      (∀ other ∈ (add loop place).skipping, F.Leads other ends.skip) → F.Leads place (target ends))
    (hcode : ∀ (F : Listing tracked) (ends : LoopPlan) (dropped outer : FrameScope) (p q : Nat),
      outer.length = ends.outside → DropCode F location ends.outside dropped p q →
      F.Jumps q (some ends.outside) .jump location (target ends) →
      StmtCode globals F (some ends) (dropped ++ outer) p stmt (dropped ++ outer) (q + 3))
    {result : Unit × Emitter}
    (hrun : Emit.jumpFromLoop word add location stage.emitter = .ok result) :
    ∃ after : Stage globals, result = ((), after.emitter) ∧ after.scope = stage.scope ∧
      stage.Lays after avoid fun (F : Listing tracked) plan =>
        StmtCode globals F plan stage.scope stage.size stmt after.scope after.size := by
  obtain ⟨loop, rest, draft, hloops, hdraft, hdrops, rfl⟩ := run_jumpFromLoop hrun
  obtain ⟨hinside, hdistinct, hplaces⟩ := hopen loop (by rw [hloops]; rfl)
  have hsize : stage.size ≤ draft.size := hdraft.size
  have hfresh : draft.size + 1 ∉ loop.leaving ++ loop.skipping := by
    intro hmem
    have : draft.size + 1 + 2 ≤ stage.size := stage.draft.inside _ (hplaces _ hmem).1
    omega
  have hall : stage.draft.Grows (draft.jump .jump location
      (some (loop.outer stage.emitter.current.locals).length)) := hdraft.trans (Draft.grows_jump ..)
  refine ⟨stage.jumpOut draft location (loop.outer stage.emitter.current.locals).length
    (add loop (draft.size + 1) :: rest), rfl, rfl, ⟨hall, rfl, ?_, rfl, ?_, ?_⟩, ?_, ?_⟩
  · exact ⟨[], stage.emitter.current.locals, rfl, .refl _, fun _ h => by cases h⟩
  · rw [hloops]
    exact hgrows loop _ rest
  · exact List.forall₂_same.mpr fun function _ => .refl function
  · intro found hfound
    cases hfound
    have hperm := hadded loop (draft.size + 1)
    have hdepth : (add loop (draft.size + 1)).depth = loop.depth := by
      have hgrow := hgrows loop (draft.size + 1) []
      generalize add loop (draft.size + 1) = added at hgrow
      cases hgrow with
      | same => rfl
      | inner h => exact h
    refine ⟨hdepth ▸ hinside, hperm.nodup_iff.mpr (List.nodup_cons.mpr ⟨hfresh, hdistinct⟩), ?_⟩
    intro place hplace
    rcases List.mem_cons.mp (hperm.mem_iff.mp hplace) with rfl | hold
    · refine ⟨Set.mem_insert .., fun h => ?_⟩
      have := havoid _ h
      omega
    · exact ⟨hall.pending (hplaces place hold).1, (hplaces place hold).2⟩
  · intro F plan h _ hplanned
    obtain ⟨ends, rfl, hleave, hskip, houtside⟩ := hplanned _ rfl
    have hdepth : (add loop (draft.size + 1)).outer stage.emitter.current.locals =
        loop.outer stage.emitter.current.locals := by
      have hgrow := hgrows loop (draft.size + 1) []
      generalize add loop (draft.size + 1) = added at hgrow
      cases hgrow with
      | same => rfl
      | inner h => simp only [LoopJumps.outer, h]
    change ((add loop (draft.size + 1)).outer stage.emitter.current.locals).length = _ at houtside
    rw [hdepth] at houtside
    obtain ⟨hbefore, hdeparts⟩ := Draft.completes_jump h
    have hdropped := hdrops F hbefore
    have hjump := hdeparts.jumps rfl (htarget F loop _ ends hleave hskip)
    rw [houtside] at hdropped hjump
    have hscope := loop.inner_append_outer stage.emitter.current.locals
    have hstmt := hcode F ends _ (scopeOf (loop.outer stage.emitter.current.locals)) _ _
      (by rw [length_scopeOf, houtside]) hdropped hjump
    rw [hscope] at hstmt
    refine ⟨?_, ?_⟩
    · have hlength : stage.scope.length = ends.outside +
          (scopeOf (loop.inner stage.emitter.current.locals)).length := by
        have := congrArg List.length hscope
        rw [List.length_append, length_scopeOf (loop.outer _), houtside] at this
        rw [← (show scopeOf stage.emitter.current.locals = stage.scope from rfl)] at *
        omega
      obtain ⟨distance, hhas, -⟩ := hjump
      rw [hlength]
      exact hdropped.holds hhas.height
    · have hlast : (stage.jumpOut draft location (loop.outer stage.emitter.current.locals).length
          (add loop (draft.size + 1) :: rest)).size = draft.size + 3 := Draft.size_jump ..
      rw [hlast]
      exact hstmt

theorem lays_leave {avoid : Set Nat} (hopen : stage.LoopsOpen avoid)
    (havoid : ∀ place ∈ avoid, place < stage.size) {location : Location} {result : Unit × Emitter}
    (hrun : Emit.leaveLoop location stage.emitter = .ok result) :
    ∃ after : Stage globals, result = ((), after.emitter) ∧ after.scope = stage.scope ∧
      stage.Lays after avoid fun (F : Listing tracked) plan =>
        StmtCode globals F plan stage.scope stage.size (.leave location) after.scope after.size := by
  refine lays_jumpFromLoop hopen havoid (fun loop place rest => ?_) (fun loop place => .refl _)
    (fun F loop place ends hleave _ => hleave place (List.mem_cons_self ..))
    (fun F ends dropped outer p q => .leave) hrun
  exact .inner rfl (fun _ h => List.mem_cons_of_mem _ h) fun _ h => h

theorem lays_skip {avoid : Set Nat} (hopen : stage.LoopsOpen avoid)
    (havoid : ∀ place ∈ avoid, place < stage.size) {location : Location} {result : Unit × Emitter}
    (hrun : Emit.skipLoop location stage.emitter = .ok result) :
    ∃ after : Stage globals, result = ((), after.emitter) ∧ after.scope = stage.scope ∧
      stage.Lays after avoid fun (F : Listing tracked) plan =>
        StmtCode globals F plan stage.scope stage.size (.skip location) after.scope after.size := by
  refine lays_jumpFromLoop hopen havoid (fun loop place rest => ?_) (fun loop place => List.perm_middle)
    (fun F loop place ends _ hskip => hskip place (List.mem_cons_self ..))
    (fun F ends dropped outer p q => .skip) hrun
  exact .inner rfl (fun _ h => h) fun _ h => List.mem_cons_of_mem _ h

end Stage

open Stage

section Statements

variable {nesting : Nat} {location : Location} {expr object index value : Expr} {resolution : Resolution}
  {name : String} {body yes no : Stmt} {stmts : List Stmt}

theorem laid_absent : StmtLaid globals tracked (Emit.compileStmt nesting .absent) .absent := by
  intro stage avoid hopen havoid result hrun
  cases hrun
  exact ⟨stage, rfl, fun _ => rfl, (Extends.refl _).proceeds, hopen, fun F plan h hend _ => ⟨hend, .absent⟩⟩

theorem laid_evaluate (hexpr : ExprLaid globals tracked (Emit.compileExpr (nesting + 1) expr) expr) :
    StmtLaid globals tracked (Emit.compileStmt nesting (.evaluate location expr)) (.evaluate location expr) := by
  intro stage avoid hopen havoid result hrun
  replace hrun := run_deeper hrun
  obtain ⟨⟨⟩, emitter, hfirst, hop⟩ := Emit.bind_eq_ok.mp hrun
  obtain ⟨first, hfirst, hextends, hcode⟩ := hexpr stage stage.scope.length _ hfirst
  cases hfirst
  rw [first.run_op .pop location (some (stage.scope.length + 1))] at hop
  cases hop
  have hnext := first.extends_op .pop location (some (stage.scope.length + 1))
  refine ⟨_, rfl, fun _ => hextends.emitter.length_eq, .of_extends hopen (hextends.trans hnext) fun F plan h => ?_⟩
  have hexprCode := hcode F (hnext.draft.completes F h)
  rw [size_op]
  exact ⟨hexprCode.holds _, .evaluate hexprCode (has_op rfl h)⟩

theorem laid_print (hexpr : ExprLaid globals tracked (Emit.compileExpr (nesting + 1) expr) expr) :
    StmtLaid globals tracked (Emit.compileStmt nesting (.print location expr)) (.print location expr) := by
  intro stage avoid hopen havoid result hrun
  replace hrun := run_deeper hrun
  obtain ⟨⟨⟩, emitter, hfirst, hop⟩ := Emit.bind_eq_ok.mp hrun
  obtain ⟨first, hfirst, hextends, hcode⟩ := hexpr stage stage.scope.length _ hfirst
  cases hfirst
  rw [first.run_op .printTop location (some (stage.scope.length + 1))] at hop
  cases hop
  have hnext := first.extends_op .printTop location (some (stage.scope.length + 1))
  refine ⟨_, rfl, fun _ => hextends.emitter.length_eq, .of_extends hopen (hextends.trans hnext) fun F plan h => ?_⟩
  have hexprCode := hcode F (hnext.draft.completes F h)
  rw [size_op]
  exact ⟨hexprCode.holds _, .print hexprCode (has_op rfl h)⟩

theorem laid_assign (hvalue : ExprLaid globals tracked (Emit.compileExpr (nesting + 1) value) value) :
    StmtLaid globals tracked (Emit.compileStmt nesting (.assign location name value resolution))
      (.assign location name value resolution) := by
  intro stage avoid hopen havoid result hrun
  replace hrun := run_deeper hrun
  obtain ⟨⟨⟩, emitter, hfirst, hrest⟩ := Emit.bind_eq_ok.mp hrun
  obtain ⟨first, hfirst, hextends, hcode⟩ := hvalue stage stage.scope.length _ hfirst
  cases hfirst
  obtain ⟨⟨⟩, emitter, haccess, hop⟩ := Emit.bind_eq_ok.mp hrest
  obtain ⟨second, hsecond, hextends', hscope, hsize, hcode'⟩ :=
    run_access (some (stage.scope.length + 1)) haccess
  cases hsecond
  rw [second.run_op .pop location (some (stage.scope.length + 1))] at hop
  cases hop
  have hnext := second.extends_op .pop location (some (stage.scope.length + 1))
  refine ⟨_, rfl, fun _ => (hextends.trans hextends').emitter.length_eq,
    .of_extends hopen ((hextends.trans hextends').trans hnext) fun F plan h => ?_⟩
  have hF := hnext.draft.completes F h
  have hexprCode := hcode F (hextends'.draft.completes F hF)
  obtain ⟨op, a, hhas, haccesses⟩ := hcode' F hF
  have hpop : F.Has second.size (some (stage.scope.length + 1)) .pop 0 0 location := has_op rfl h
  rw [hsize] at hpop
  rw [size_op, hsize, scope_op, hscope]
  exact ⟨hexprCode.holds _, .assign hexprCode hhas haccesses hpop⟩

theorem laid_assignField (hobject : ExprLaid globals tracked (Emit.compileExpr (nesting + 1) object) object)
    (hvalue : ExprLaid globals tracked (Emit.compileExpr (nesting + 1) value) value) :
    StmtLaid globals tracked (Emit.compileStmt nesting (.assignField location object name value))
      (.assignField location object name value) := by
  intro stage avoid hopen havoid result hrun
  replace hrun := run_deeper hrun
  obtain ⟨⟨⟩, emitter, hfirst, hrest⟩ := Emit.bind_eq_ok.mp hrun
  obtain ⟨first, hfirst, hextends, hcode⟩ := hobject stage stage.scope.length _ hfirst
  cases hfirst
  obtain ⟨⟨⟩, emitter, hsecond, hrest⟩ := Emit.bind_eq_ok.mp hrest
  obtain ⟨second, hsecond, hextends', hcode'⟩ := hvalue first (stage.scope.length + 1) _ hsecond
  cases hsecond
  obtain ⟨⟨⟩, emitter, hthird, hop⟩ := Emit.bind_eq_ok.mp hrest
  obtain ⟨third, hthird, hextends'', hscope, hsize, hfield⟩ :=
    run_onString rfl (some (stage.scope.length + 2)) hthird
  cases hthird
  rw [third.run_op .pop location (some (stage.scope.length + 1))] at hop
  cases hop
  have hnext := third.extends_op .pop location (some (stage.scope.length + 1))
  have hall := (hextends.trans hextends').trans hextends''
  refine ⟨_, rfl, fun _ => hall.emitter.length_eq, .of_extends hopen (hall.trans hnext) fun F plan h => ?_⟩
  have hthirdF := hnext.draft.completes F h
  have hsecondF := hextends''.draft.completes F hthirdF
  have hobjectCode := hcode F (hextends'.draft.completes F hsecondF)
  obtain ⟨a, hhas, hname⟩ := hfield F hthirdF
  have hpop : F.Has third.size (some (stage.scope.length + 1)) .pop 0 0 location := has_op rfl h
  rw [hsize] at hpop
  rw [size_op, hsize, scope_op, hscope]
  exact ⟨hobjectCode.holds _, .assignField hobjectCode (hcode' F hsecondF) hhas hname hpop⟩

theorem laid_assignIndex (hobject : ExprLaid globals tracked (Emit.compileExpr (nesting + 1) object) object)
    (hindex : ExprLaid globals tracked (Emit.compileExpr (nesting + 1) index) index)
    (hvalue : ExprLaid globals tracked (Emit.compileExpr (nesting + 1) value) value) :
    StmtLaid globals tracked (Emit.compileStmt nesting (.assignIndex location object index value))
      (.assignIndex location object index value) := by
  intro stage avoid hopen havoid result hrun
  replace hrun := run_deeper hrun
  obtain ⟨⟨⟩, emitter, hfirst, hrest⟩ := Emit.bind_eq_ok.mp hrun
  obtain ⟨first, hfirst, hextends, hcode⟩ := hobject stage stage.scope.length _ hfirst
  cases hfirst
  obtain ⟨⟨⟩, emitter, hsecond, hrest⟩ := Emit.bind_eq_ok.mp hrest
  obtain ⟨second, hsecond, hextends', hcode'⟩ := hindex first (stage.scope.length + 1) _ hsecond
  cases hsecond
  obtain ⟨⟨⟩, emitter, hthird, hrest⟩ := Emit.bind_eq_ok.mp hrest
  obtain ⟨third, hthird, hextends'', hcode''⟩ := hvalue second (stage.scope.length + 2) _ hthird
  cases hthird
  replace hrest := run_op_after (some (stage.scope.length + 3)) hrest
  let stored := third.op .setIndex location (some (stage.scope.length + 3))
  rw [stored.run_op .pop location (some (stage.scope.length + 1))] at hrest
  cases hrest
  have hall := (hextends.trans hextends').trans hextends''
  have hnext : third.Extends (stored.op .pop location (some (stage.scope.length + 1))) :=
    (third.extends_op ..).trans (stored.extends_op ..)
  refine ⟨_, rfl, fun _ => hall.emitter.length_eq, .of_extends hopen (hall.trans hnext) fun F plan h => ?_⟩
  have hstoredF := (stored.extends_op ..).draft.completes F h
  have hthirdF := hnext.draft.completes F h
  have hsecondF := hextends''.draft.completes F hthirdF
  have hobjectCode := hcode F (hextends'.draft.completes F hsecondF)
  have hpop : F.Has stored.size (some (stage.scope.length + 1)) .pop 0 0 location := has_op rfl h
  simp only [stored, size_op] at hpop
  simp only [stored, size_op]
  exact ⟨hobjectCode.holds _,
    .assignIndex hobjectCode (hcode' F hsecondF) (hcode'' F hthirdF) (has_op rfl hstoredF) hpop⟩

theorem laid_giveBack
    (hvalue : value.isAbsent = false → ExprLaid globals tracked (Emit.compileExpr (nesting + 1) value) value) :
    StmtLaid globals tracked (Emit.compileStmt nesting (.giveBack location value)) (.giveBack location value) := by
  intro stage avoid hopen havoid result hrun
  replace hrun := run_deeper hrun
  cases habsent : value.isAbsent with
  | true =>
    rw [if_pos habsent] at hrun
    obtain rfl : value = .absent := by
      cases value <;> first | rfl | cases habsent
    replace hrun := run_op_after (some stage.scope.length) hrun
    let pushed := stage.op .pushNil location (some stage.scope.length)
    obtain ⟨⟨⟩, emitter, hnone, hop⟩ := Emit.bind_eq_ok.mp hrun
    cases hnone
    rw [pushed.run_op .ret location (some (stage.scope.length + 1))] at hop
    cases hop
    refine ⟨_, rfl, fun _ => rfl, .of_extends hopen ((stage.extends_op ..).trans (pushed.extends_op ..))
      fun F plan h => ?_⟩
    have hnil : F.Has stage.size (some stage.scope.length) .pushNil 0 0 location :=
      has_op rfl ((pushed.extends_op ..).draft.completes F h)
    have hret : F.Has pushed.size (some (stage.scope.length + 1)) .ret 0 0 location := has_op rfl h
    simp only [pushed, size_op] at hret
    simp only [pushed, size_op]
    exact ⟨hnil.height, .giveBackNil hnil hret⟩
  | false =>
    rw [if_neg (by simp [habsent])] at hrun
    obtain ⟨⟨⟩, emitter, hfirst, hop⟩ := Emit.bind_eq_ok.mp hrun
    obtain ⟨first, hfirst, hextends, hcode⟩ := hvalue habsent stage stage.scope.length _ hfirst
    cases hfirst
    rw [first.run_op .ret location (some (stage.scope.length + 1))] at hop
    cases hop
    have hnext := first.extends_op .ret location (some (stage.scope.length + 1))
    refine ⟨_, rfl, fun _ => hextends.emitter.length_eq, .of_extends hopen (hextends.trans hnext) fun F plan h => ?_⟩
    have hexprCode := hcode F (hnext.draft.completes F h)
    rw [size_op]
    exact ⟨hexprCode.holds _, .giveBack hexprCode (has_op rfl h)⟩

theorem laid_disown : StmtLaid globals tracked (Emit.compileStmt nesting (.disown location name resolution))
    (.disown location name resolution) := by
  intro stage avoid hopen havoid result hrun
  replace hrun := run_deeper hrun
  obtain ⟨⟨⟩, emitter, haccess, hop⟩ := Emit.bind_eq_ok.mp hrun
  obtain ⟨first, hfirst, hextends, hscope, hsize, hcode⟩ := run_access (some stage.scope.length) haccess
  cases hfirst
  rw [first.run_op .pop location (some (stage.scope.length + 1))] at hop
  cases hop
  have hnext := first.extends_op .pop location (some (stage.scope.length + 1))
  refine ⟨_, rfl, fun _ => hextends.emitter.length_eq, .of_extends hopen (hextends.trans hnext) fun F plan h => ?_⟩
  obtain ⟨op, a, hhas, haccesses⟩ := hcode F (hnext.draft.completes F h)
  have hpop : F.Has first.size (some (stage.scope.length + 1)) .pop 0 0 location := has_op rfl h
  rw [hsize] at hpop
  rw [size_op, hsize, scope_op, hscope]
  exact ⟨hhas.height, .disown hhas haccesses hpop⟩

theorem isAbsent_eq {expr : Expr} (habsent : expr.isAbsent = true) : expr = .absent := by
  cases expr <;> first | rfl | cases habsent

theorem laid_declareGlobal (hglobal : resolution.isGlobal = true)
    (hvalue : value.isAbsent = false → ExprLaid globals tracked (Emit.compileExpr (nesting + 1) value) value) :
    StmtLaid globals tracked (Emit.compileStmt nesting (.declare location name value resolution))
      (.declare location name value resolution) := by
  intro stage avoid hopen havoid result hrun
  replace hrun := run_deeper hrun
  rw [if_pos hglobal] at hrun
  cases habsent : value.isAbsent with
  | true =>
    obtain rfl := isAbsent_eq habsent
    cases hrun
    exact ⟨stage, rfl, fun _ => rfl, (Extends.refl _).proceeds, hopen, fun F plan h hend _ =>
      ⟨hend, .declareUndefined hglobal⟩⟩
  | false =>
    rw [if_neg (by simp [habsent])] at hrun
    obtain ⟨⟨⟩, emitter, hfirst, hdefine⟩ := Emit.bind_eq_ok.mp hrun
    obtain ⟨first, hfirst, hextends, hcode⟩ := hvalue habsent stage stage.scope.length _ hfirst
    cases hfirst
    obtain ⟨after, id, slot, hresult, hnext, hscope, hsize, hid, hslot, hdefined⟩ :=
      run_defineGlobal (stage.scope.length + 1) hdefine
    have hall := hextends.trans hnext
    refine ⟨after, hresult, fun _ => hall.emitter.length_eq, .of_extends hopen hall fun F plan h => ?_⟩
    have hexprCode := hcode F (hnext.draft.completes F h)
    obtain ⟨hset, hpop⟩ := hdefined F h
    rw [hscope, hsize]
    exact ⟨hexprCode.holds _, .declareGlobal hglobal hid hslot hexprCode hset hpop⟩

theorem laid_declareLocal (hlocal : resolution.isGlobal = false)
    (hvalue : value.isAbsent = false → ExprLaid globals tracked (Emit.compileExpr (nesting + 1) value) value) :
    StmtLaid globals tracked (Emit.compileStmt nesting (.declare location name value resolution))
      (.declare location name value resolution) := by
  intro stage avoid hopen havoid result hrun
  replace hrun := run_deeper hrun
  rw [if_neg (by simp [hlocal])] at hrun
  cases habsent : value.isAbsent with
  | true =>
    obtain rfl := isAbsent_eq habsent
    rw [if_pos habsent] at hrun
    replace hrun := run_op_after (some stage.scope.length) hrun
    let pushed := stage.op .pushNil location (some stage.scope.length)
    obtain ⟨⟨⟩, emitter, hnone, hrest⟩ := Emit.bind_eq_ok.mp hrun
    cases hnone
    obtain ⟨slot, emitter, hdeclare, hdone⟩ := Emit.bind_eq_ok.mp hrest
    cases hdone
    obtain ⟨after, hafter, hproceeds, hdraft, hscope, -, hloops⟩ := pushed.run_declareLocal hdeclare
    cases hafter
    have hpushed := stage.extends_op .pushNil location (some stage.scope.length)
    refine ⟨after, rfl, fun h => (by cases h.1), hpushed.proceeds.trans hproceeds, ?_, fun F plan h _ _ => ?_⟩
    · exact (hopen.extends hpushed).of_same hloops (Nat.le_of_eq hproceeds.emitter.depth.symm)
        fun _ h _ => hproceeds.draft.pending h
    · rw [hdraft] at h
      have hnil : F.Has stage.size (some stage.scope.length) .pushNil 0 0 location := has_op rfl h
      have hsize : after.size = stage.size + 1 := by
        rw [size, hdraft]
        exact stage.size_op ..
      rw [hsize, hscope]
      exact ⟨hnil.height, .declareEmpty hlocal hnil⟩
  | false =>
    rw [if_neg (by simp [habsent])] at hrun
    obtain ⟨⟨⟩, emitter, hfirst, hrest⟩ := Emit.bind_eq_ok.mp hrun
    obtain ⟨first, hfirst, hextends, hcode⟩ := hvalue habsent stage stage.scope.length _ hfirst
    cases hfirst
    obtain ⟨slot, emitter, hdeclare, hdone⟩ := Emit.bind_eq_ok.mp hrest
    cases hdone
    obtain ⟨after, hafter, hproceeds, hdraft, hscope, -, hloops⟩ := first.run_declareLocal hdeclare
    cases hafter
    refine ⟨after, rfl, fun h => (by cases h.1), hextends.proceeds.trans hproceeds, ?_, fun F plan h _ _ => ?_⟩
    · exact (hopen.extends hextends).of_same hloops (Nat.le_of_eq hproceeds.emitter.depth.symm)
        fun _ h _ => hproceeds.draft.pending h
    · rw [hdraft] at h
      have hexprCode := hcode F h
      have hsize : after.size = first.size := congrArg Draft.size hdraft
      rw [hsize, hscope]
      exact ⟨hexprCode.holds _, .declareLocal hlocal hexprCode⟩

theorem laid_functionStmt {declaration : Function}
    (hfunction : ClosureLaid globals tracked (Emit.compileFunction (nesting + 1) location declaration) location
      declaration) :
    StmtLaid globals tracked (Emit.compileStmt nesting (.function location declaration resolution))
      (.function location declaration resolution) := by
  intro stage avoid hopen havoid result hrun
  replace hrun := run_deeper hrun
  cases hglobal : resolution.isGlobal with
  | true =>
    rw [if_pos hglobal] at hrun
    cases hrun
    exact ⟨stage, rfl, fun h => (by cases h.1), (Extends.refl _).proceeds, hopen, fun F plan h hend _ =>
      ⟨hend, .functionGlobal hglobal⟩⟩
  | false =>
    rw [if_neg (by simp [hglobal])] at hrun
    obtain ⟨slot, emitter, hdeclare, hrest⟩ := Emit.bind_eq_ok.mp hrun
    obtain ⟨declared, hdeclared, hproceeds, hdraft, hscope, -, hloops⟩ := run_declareLocal hdeclare
    cases hdeclared
    obtain ⟨after, hresult, hextends, hsize, hcode⟩ := hfunction declared stage.scope.length _ hrest
    have hstart : declared.LoopsOpen avoid :=
      hopen.of_same hloops (Nat.le_of_eq hproceeds.emitter.depth.symm) fun _ h _ => hproceeds.draft.pending h
    refine ⟨after, hresult, fun h => (by cases h.1), hproceeds.trans hextends.proceeds,
      hstart.extends hextends, fun F plan h _ _ => ?_⟩
    have hclosure := hcode F h
    have hdeclaredSize : declared.size = stage.size := congrArg Draft.size hdraft
    rw [hscope, hdeclaredSize] at hclosure
    rw [hsize, hdeclaredSize]
    refine ⟨?_, .functionLocal hglobal hclosure⟩
    cases hclosure with
    | intro hhas => exact hhas.height

theorem laid_leave : StmtLaid globals tracked (Emit.compileStmt nesting (.leave location)) (.leave location) := by
  intro stage avoid hopen havoid result hrun
  obtain ⟨after, hresult, hscope, hlays⟩ := lays_leave hopen havoid (run_deeper hrun)
  exact ⟨after, hresult, fun _ => congrArg List.length hscope, hlays⟩

theorem laid_skip : StmtLaid globals tracked (Emit.compileStmt nesting (.skip location)) (.skip location) := by
  intro stage avoid hopen havoid result hrun
  obtain ⟨after, hresult, hscope, hlays⟩ := lays_skip hopen havoid (run_deeper hrun)
  exact ⟨after, hresult, fun _ => congrArg List.length hscope, hlays⟩

theorem laid_stmts_nil : StmtsLaid globals tracked (Emit.compileStmts nesting []) [] := by
  intro stage avoid hopen havoid result hrun
  cases hrun
  exact ⟨stage, rfl, (Extends.refl _).proceeds, hopen, fun F plan h hend _ => ⟨hend, .nil⟩⟩

theorem laid_stmts_cons (hfirst : StmtLaid globals tracked (Emit.compileStmt nesting body) body)
    (hrest : StmtsLaid globals tracked (Emit.compileStmts nesting stmts) stmts) :
    StmtsLaid globals tracked (Emit.compileStmts nesting (body :: stmts)) (body :: stmts) := by
  intro stage avoid hopen havoid result hrun
  obtain ⟨⟨⟩, emitter, hrun, hothers⟩ := Emit.bind_eq_ok.mp hrun
  obtain ⟨first, hresult, -, hlays⟩ := hfirst stage avoid hopen havoid _ hrun
  cases hresult
  have havoid' : ∀ place ∈ avoid, place < first.size := fun place h =>
    (havoid place h).trans_le hlays.proceeds.draft.size
  obtain ⟨after, hresult, hlays'⟩ := hrest first avoid hlays.loops havoid' _ hothers
  refine ⟨after, hresult, hlays.proceeds.trans hlays'.proceeds, hlays'.loops, fun F plan h hend hplanned => ?_⟩
  obtain ⟨hmiddle, hcode'⟩ := hlays'.code F plan h hend hplanned
  obtain ⟨hstart, hcode⟩ := hlays.code F plan (hlays'.proceeds.draft.completes F h) hmiddle
    (hplanned.before hlays'.proceeds.emitter hlays.loops)
  exact ⟨hstart, .cons hstart hcode hcode'⟩

/-- The variables in scope when some of them are dropped. -/
theorem scope_of_locals {opened after : Stage globals} {dropped : List Local}
    (hlocals : opened.emitter.current.locals = dropped ++ after.emitter.current.locals) :
    opened.scope = scopeOf dropped ++ after.scope := by
  change scopeOf opened.emitter.current.locals = _
  rw [hlocals, scopeOf_append]
  rfl

/-- A scope is closed behind a piece of code. -/
theorem run_scoped {stage opened : Stage globals} {avoid : Set Nat} (hproceeds : stage.enterScope.Proceeds opened)
    (hopened : opened.LoopsOpen avoid) {result : Unit × Emitter}
    (hrun : Emit.exitScope opened.emitter = .ok result) :
    ∃ (after : Stage globals) (dropped : List Local), result = ((), after.emitter) ∧
      opened.emitter.current.locals = dropped ++ after.emitter.current.locals ∧
      after.scope.length = stage.scope.length ∧ stage.Proceeds after ∧
      after.emitter.current.loops = opened.emitter.current.loops ∧ opened.draft.Grows after.draft ∧
      ∀ (F : Listing tracked) (plan : Option LoopPlan), F.Completes after.draft →
        F.Holds after.size after.scope.length → after.Planned F plan →
        F.Holds opened.size opened.scope.length ∧ opened.Planned F plan ∧
          DropCode F {} stage.scope.length (scopeOf dropped) opened.size after.size := by
  obtain ⟨after, hresult, hgrows, hafter, hlater, hloops, dropped, hlocals, hdeep, hdrops⟩ :=
    run_exitScope hproceeds hrun
  have hscope : opened.scope = scopeOf dropped ++ after.scope := scope_of_locals hlocals
  have hlength : after.scope.length = stage.scope.length := hlater.length_eq
  refine ⟨after, dropped, hresult, hlocals, hlength, hafter, hloops, hgrows, ?_⟩
  intro F plan h hend hplanned
  have hcode := hdrops F h
  refine ⟨?_, fun loop hloop => ?_, hcode⟩
  · rw [hscope, List.length_append, hlength, Nat.add_comm]
    exact hcode.holds (hlength ▸ hend)
  · obtain ⟨hdepth, -, -⟩ := hopened loop hloop
    rw [hproceeds.emitter.depth] at hdepth
    rw [← hloops] at hloop
    obtain ⟨ends, hplan, hleave, hskip, houtside⟩ := hplanned loop hloop
    refine ⟨ends, hplan, hleave, hskip, ?_⟩
    rw [← houtside, hlocals, LoopJumps.outer, List.dropWhile_append_of_pos]
    · rfl
    · intro var hvar
      exact decide_eq_true (Nat.lt_of_le_of_lt (Nat.le_of_lt_succ hdepth) (hdeep var hvar))

/-- The innermost loop around a scope is the same behind it, with more jumps perhaps. -/
theorem Stage.LoopsOpen.exitScope {stage opened after : Stage globals} {avoid : Set Nat} (hopen : stage.LoopsOpen avoid)
    (hproceeds : stage.enterScope.Proceeds opened) (hopened : opened.LoopsOpen avoid)
    (hloops : after.emitter.current.loops = opened.emitter.current.loops)
    (hdepth : after.emitter.current.depth = stage.emitter.current.depth)
    (hgrows : opened.draft.Grows after.draft) : after.LoopsOpen avoid := by
  intro loop hloop
  rw [hloops] at hloop
  obtain ⟨-, hdistinct, hplaces⟩ := hopened loop hloop
  refine ⟨?_, hdistinct, fun place h => ⟨hgrows.pending (hplaces place h).1, (hplaces place h).2⟩⟩
  rw [hdepth]
  have hgrow : LoopsGrow stage.emitter.current.loops opened.emitter.current.loops := hproceeds.emitter.loops
  unfold LoopsOpen at hopen
  generalize stage.emitter.current.loops = loops at hgrow hopen
  generalize opened.emitter.current.loops = loops' at hgrow hloop
  cases hgrow with
  | same => exact (hopen loop hloop).1
  | @inner first second outer hdepth =>
    cases hloop
    rw [hdepth]
    exact (hopen first rfl).1

/-- A piece of code in a scope of its own, around which nothing changes. -/
theorem lays_scoped {stage opened : Stage globals} {avoid : Set Nat} {code : Listing tracked → Option LoopPlan → Prop}
    (hopen : stage.LoopsOpen avoid) (hlays : stage.enterScope.Lays opened avoid code)
    {result : Unit × Emitter} (hrun : Emit.exitScope opened.emitter = .ok result) :
    ∃ (after : Stage globals) (dropped : List Local), result = ((), after.emitter) ∧
      opened.emitter.current.locals = dropped ++ after.emitter.current.locals ∧
      after.scope.length = stage.scope.length ∧ stage.Lays after avoid fun (F : Listing tracked) plan =>
        code F plan ∧ DropCode F {} stage.scope.length (scopeOf dropped) opened.size after.size := by
  obtain ⟨after, dropped, hresult, hlocals, hlength, hproceeds, hloops, hgrows, hcode⟩ :=
    run_scoped hlays.proceeds hlays.loops hrun
  refine ⟨after, dropped, hresult, hlocals, hlength, hproceeds,
    hopen.exitScope hlays.proceeds hlays.loops hloops hproceeds.emitter.depth hgrows, ?_⟩
  intro F plan h hend hplanned
  obtain ⟨hinside, hopened, hdrops⟩ := hcode F plan h hend hplanned
  obtain ⟨hstart, hbody⟩ := hlays.code F plan (hgrows.completes F h) hinside hopened
  exact ⟨hstart, hbody, hdrops⟩

theorem laid_block (hbody : StmtsLaid globals tracked (Emit.compileStmts (nesting + 1) stmts) stmts) :
    StmtLaid globals tracked (Emit.compileStmt nesting (.block location stmts)) (.block location stmts) := by
  intro stage avoid hopen havoid result hrun
  replace hrun := run_deeper hrun
  obtain ⟨⟨⟩, emitter, henter, hrest⟩ := Emit.bind_eq_ok.mp hrun
  cases henter
  obtain ⟨⟨⟩, emitter, hstmts, hexit⟩ := Emit.bind_eq_ok.mp hrest
  obtain ⟨opened, hopened, hlays⟩ := hbody stage.enterScope avoid (hopen.enterScope) havoid _ hstmts
  cases hopened
  obtain ⟨after, dropped, hresult, hlocals, hlength, hlays⟩ := lays_scoped hopen hlays hexit
  refine ⟨after, hresult, fun _ => hlength, hlays.proceeds, hlays.loops, fun F plan h hend hplanned => ?_⟩
  obtain ⟨hstart, hcode, hdrops⟩ := hlays.code F plan h hend hplanned
  rw [scope_of_locals hlocals] at hcode
  exact ⟨hstart, .block hcode hlength hdrops⟩

theorem laid_ifElse (hcondition : ExprLaid globals tracked (Emit.compileExpr (nesting + 1) expr) expr)
    (hyes : StmtLaid globals tracked (Emit.compileStmt (nesting + 1) yes) yes)
    (hplainYes : tracked → yes.isDeclaration = false)
    (hno : StmtLaid globals tracked (Emit.compileStmt (nesting + 1) no) no)
    (hplainNo : tracked → no.isDeclaration = false) :
    StmtLaid globals tracked (Emit.compileStmt nesting (.ifElse location expr yes no))
      (.ifElse location expr yes no) := by
  intro stage avoid hopen havoid result hrun
  replace hrun := run_deeper hrun
  obtain ⟨⟨⟩, emitter, hrun, hrest⟩ := Emit.bind_eq_ok.mp hrun
  obtain ⟨first, hresult, hextends, hcode⟩ := hcondition stage stage.scope.length _ hrun
  cases hresult
  replace hrest := run_branch (some (stage.scope.length + 1)) (some (stage.scope.length + 1)) hrest
  let chosen := first.branch .jumpIfFalse location (some (stage.scope.length + 1)) (some (stage.scope.length + 1))
  have hsize : stage.size ≤ first.size := hextends.draft.size
  have hchosenSize : chosen.size = first.size + 4 := first.size_branch ..
  -- Neither branch may complete the jump over the other one.
  have hchosenOpen : chosen.LoopsOpen (insert (first.size + 1) avoid) :=
    ((hopen.extends hextends).insert (Nat.le_succ _)).extends (first.extends_branch ..)
  have hchosenAvoid : ∀ place ∈ insert (first.size + 1) avoid, place < chosen.size := by
    rintro place (rfl | h)
    · omega
    · have := havoid place h
      omega
  obtain ⟨⟨⟩, emitter, hrun, hrest⟩ := Emit.bind_eq_ok.mp hrest
  obtain ⟨second, hresult, hyesLength, hyesLays⟩ := hyes chosen _ hchosenOpen hchosenAvoid _ hrun
  cases hresult
  obtain ⟨place, emitter, hrun, hrest⟩ := Emit.bind_eq_ok.mp hrest
  rw [second.run_jump .jump location (some second.scope.length)] at hrun
  cases hrun
  let jumped := second.jump .jump location (some second.scope.length)
  obtain ⟨⟨⟩, emitter, hrun, hrest⟩ := Emit.bind_eq_ok.mp hrest
  obtain ⟨hfits, hresult⟩ := jumped.run_land hrun
  cases hresult
  let landed := jumped.land (first.size + 1)
  replace hrest := run_op_after (some (second.scope.length + 1)) hrest
  let popped := landed.op .pop location (some (second.scope.length + 1))
  have hjumpedSize : jumped.size = second.size + 3 := second.size_jump ..
  have hpoppedSize : popped.size = second.size + 4 := by simp [popped, landed, jumped]
  have hsecondSize : chosen.size ≤ second.size := hyesLays.proceeds.draft.size
  have hlanded : landed.LoopsOpen (insert (second.size + 1) (insert (first.size + 1) avoid)) :=
    ((hyesLays.loops.insert (Nat.le_succ _)).extends (second.extends_jump ..)).land (.inr (.inl rfl))
  have hpoppedOpen : popped.LoopsOpen (insert (second.size + 1) (insert (first.size + 1) avoid)) :=
    hlanded.extends (landed.extends_op ..)
  have hpoppedAvoid : ∀ place ∈ insert (second.size + 1) (insert (first.size + 1) avoid), place < popped.size := by
    rintro place (rfl | h)
    · omega
    · have := hchosenAvoid place h
      omega
  obtain ⟨⟨⟩, emitter, hrun, hland⟩ := Emit.bind_eq_ok.mp hrest
  obtain ⟨third, hresult, hnoLength, hnoLays⟩ := hno popped _ hpoppedOpen hpoppedAvoid _ hrun
  cases hresult
  obtain ⟨hfits', hresult⟩ := third.run_land hland
  have hsecondLength (htracked : tracked) : second.scope.length = stage.scope.length :=
    (hyesLength ⟨hplainYes htracked, htracked⟩).trans hextends.emitter.length_eq
  have hthirdLength (htracked : tracked) : third.scope.length = second.scope.length :=
    hnoLength ⟨hplainNo htracked, htracked⟩
  have hplace : first.size + 1 ∈ jumped.draft.pending :=
    (second.extends_jump ..).draft.pending (hyesLays.proceeds.draft.pending (first.mem_pending_branch ..))
  have hplace' : second.size + 1 ∈ third.draft.pending := by
    refine hnoLays.proceeds.draft.pending ((landed.extends_op ..).draft.pending ⟨second.mem_pending_jump .., ?_⟩)
    intro heq
    have : second.size + 1 = first.size + 1 := heq
    omega
  have hjumped : stage.Proceeds jumped :=
    ((hextends.proceeds.trans (first.extends_branch ..).proceeds).trans hyesLays.proceeds).trans
      (second.extends_jump ..).proceeds
  have hthird : stage.Proceeds third :=
    ((hjumped.land hplace hfits (by omega)).trans (landed.extends_op ..).proceeds).trans hnoLays.proceeds
  refine ⟨third.land (second.size + 1), hresult, fun h => (hthirdLength h.2).trans (hsecondLength h.2),
    hthird.land hplace' hfits' (by omega), (hnoLays.loops.land (.inl rfl)).mono ?_, ?_⟩
  · exact fun place h => .inr (.inr h)
  intro F plan h hend hplanned
  rw [size_land, scope_land] at hend
  obtain ⟨hthirdF, hleads'⟩ := leads_land hplace' hfits' h
  replace hplanned : third.Planned F plan := hplanned
  obtain ⟨hnoStart, hnoCode⟩ := hnoLays.code F plan hthirdF hend hplanned
  have hpoppedF := hnoLays.proceeds.draft.completes F hthirdF
  have hpop : F.Has landed.size (some (second.scope.length + 1)) .pop 0 0 location := has_op rfl hpoppedF
  obtain ⟨hjumpedF, hleads⟩ := leads_land hplace hfits ((landed.extends_op ..).draft.completes F hpoppedF)
  have hover := departs_jump hjumpedF
  have hsecondF := (second.extends_jump ..).draft.completes F hjumpedF
  have hsecondPlanned : second.Planned F plan :=
    (hplanned.before hnoLays.proceeds.emitter hpoppedOpen).before
      (((second.extends_jump ..).emitter.trans (jumped.continues_draw _)).trans
        (landed.extends_op ..).emitter).advances hyesLays.loops
  obtain ⟨hyesStart, hyesCode⟩ :=
    hyesLays.code F plan hsecondF hover.height hsecondPlanned
  have hchosenF := hyesLays.proceeds.draft.completes F hsecondF
  obtain ⟨hbranch, hbranchPop⟩ := departs_branch hchosenF
  have hconditionCode := hcode F ((first.extends_branch ..).draft.completes F hchosenF)
  have hchosenLength : chosen.scope.length = stage.scope.length := hextends.emitter.length_eq
  have hpoppedLength : popped.scope.length = second.scope.length := rfl
  rw [hchosenLength, hchosenSize] at hyesStart
  rw [hchosenSize] at hyesCode
  rw [hpoppedLength, hpoppedSize] at hnoStart
  rw [hpoppedSize] at hnoCode
  simp only [landed, size_land, hjumpedSize] at hpop hleads
  refine ⟨hconditionCode.holds _, ?_⟩
  rw [size_land]
  exact .ifElse hconditionCode (hbranch.jumps rfl hleads) hbranchPop hyesStart hyesCode hsecondLength
    (hover.jumps rfl hleads') hpop hnoStart hnoCode hthirdLength hend

end Statements

end OwnScript
