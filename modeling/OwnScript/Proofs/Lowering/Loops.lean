import OwnScript.Proofs.Lowering.Statements

/-!
Code generation for loops follows the layout. The jumps out of the body are completed when the loop is
closed, so that all of it happens between the stage where the loop is opened and the stage behind it.
-/

namespace OwnScript

variable {globals : GlobalTable} {tracked : Prop}

/-- No variable was declared if there are not more of them than before. -/
theorem Emitter.Advances.later_of_length {before after : Emitter} (hadvances : before.Advances after)
    (hlength : after.scope.length = before.scope.length) :
    LocalsLater before.current.locals after.current.locals := by
  obtain ⟨declared, kept, hlocals, hkept, -⟩ := hadvances.locals
  have hnone : declared.length = 0 := by
    rw [Emitter.scope, Emitter.scope, length_scopeOf, length_scopeOf, hlocals, List.length_append,
      hkept.length_eq] at hlength
    omega
  rw [hlocals, List.length_eq_zero_iff.mp hnone]
  exact hkept

/-- At the depth of a loop all variables are around its body. -/
theorem LoopJumps.outer_eq_self (loop : LoopJumps) {locals : List Local}
    (hshallow : ∀ var ∈ locals, var.depth ≤ loop.depth) : loop.outer locals = locals := by
  cases locals with
  | nil => rfl
  | cons var rest =>
    have := hshallow var (List.mem_cons_self ..)
    exact List.dropWhile_cons_of_neg (by simp; omega)

namespace Stage

variable {stage inside : Stage globals} {loop : LoopJumps}

/-- The loop that was opened at a stage is still open, and its jumps are its own. -/
structure Looping (stage inside : Stage globals) (loop : LoopJumps) : Prop where
  draft : stage.draft.Grows inside.draft
  globals : inside.emitter.globals = stage.emitter.globals
  locals : LocalsLater stage.emitter.current.locals inside.emitter.current.locals
  depth : inside.emitter.current.depth = stage.emitter.current.depth
  enclosing : List.Forall₂ FunctionCode.Suspended stage.emitter.enclosing inside.emitter.enclosing
  loops : inside.emitter.current.loops = loop :: stage.emitter.current.loops
  inner : loop.depth = stage.emitter.current.depth
  leaving : loop.leaving.Nodup ∧ ∀ place ∈ loop.leaving, place ∈ inside.draft.pending ∧ stage.size ≤ place

theorem looping_enterLoop (stage : Stage globals) :
    stage.Looping stage.enterLoop { depth := stage.emitter.current.depth } :=
  ⟨.refl _, rfl, .refl _, rfl, List.forall₂_same.mpr fun function _ => .refl function, rfl, rfl, .nil,
    fun _ h => by cases h⟩

theorem Looping.extends {after : Stage globals} (hlooping : stage.Looping inside loop)
    (hextends : inside.Extends after) : stage.Looping after loop := by
  refine ⟨hlooping.draft.trans hextends.draft, hextends.emitter.globals.trans hlooping.globals,
    hlooping.locals.trans hextends.emitter.locals, hextends.emitter.depth.trans hlooping.depth,
    Emitter.suspended_trans hlooping.enclosing hextends.emitter.enclosing,
    hextends.emitter.loops.trans hlooping.loops, hlooping.inner, hlooping.leaving.1, fun place hplace => ?_⟩
  obtain ⟨hpending, hown⟩ := hlooping.leaving.2 place hplace
  exact ⟨hextends.draft.pending hpending, hown⟩

theorem Looping.length_eq (hlooping : stage.Looping inside loop) : inside.scope.length = stage.scope.length := by
  rw [length_scope, length_scope, hlooping.locals.length_eq]

/-- A jump of the loop itself lands. -/
theorem Looping.land (hlooping : stage.Looping inside loop) {place : Nat}
    (hplace : place ∈ inside.draft.pending) (hfits : inside.size - place - 2 ≤ maxOperand)
    (hown : stage.size ≤ place) (hother : place ∉ loop.leaving) : stage.Looping (inside.land place) loop := by
  refine ⟨hlooping.draft.land hplace hfits hown, hlooping.globals, hlooping.locals, hlooping.depth,
    hlooping.enclosing, hlooping.loops, hlooping.inner, hlooping.leaving.1, fun other hleaving => ?_⟩
  obtain ⟨hpending, hown⟩ := hlooping.leaving.2 other hleaving
  exact ⟨⟨hpending, fun heq => hother (heq ▸ hleaving)⟩, hown⟩

/-- The loop is closed, and around it nothing has changed. -/
theorem Looping.run_exitLoop (hlooping : stage.Looping inside loop) {location : Location}
    {result : Unit × Emitter} (hrun : Emit.exitLoop location inside.emitter = .ok result) :
    ∃ after : Stage globals, result = ((), after.emitter) ∧ stage.Extends after ∧
      after.scope = inside.scope ∧ after.size = inside.size ∧ ∀ {tracked : Prop} (F : Listing tracked),
        F.Completes after.draft →
        F.Completes inside.draft ∧ ∀ place ∈ loop.leaving, F.Leads place inside.size := by
  obtain ⟨hdistinct, hplaces⟩ := hlooping.leaving
  obtain ⟨draft, hresult, hsize, hkept, hcode⟩ :=
    Stage.run_exitLoop hlooping.loops (fun place h => (hplaces place h).1) hdistinct hrun
  refine ⟨inside.closeLoop draft, hresult, ⟨⟨?_, ?_, ?_⟩, ?_⟩, rfl, hsize, hcode⟩
  · exact fun F h => hlooping.draft.completes F (hcode F h).1
  · exact hlooping.draft.size.trans (Nat.le_of_eq hsize.symm)
  · intro place hplace
    refine hkept place (hlooping.draft.pending hplace) fun hleaving => ?_
    have hinside : place + 2 ≤ stage.size := stage.draft.inside place hplace
    have := (hplaces place hleaving).2
    omega
  · refine ⟨hlooping.globals, hlooping.locals, hlooping.depth, ?_, hlooping.enclosing⟩
    change inside.emitter.current.loops.tail = _
    rw [hlooping.loops]
    rfl

/-- One turn of a loop. What happens between turns has a code of its own and a fixed width. -/
theorem Looping.run_loopTurn (hlooping : stage.Looping inside { depth := stage.emitter.current.depth })
    {body between : Emit Unit} {code : Stage globals → Listing tracked → Option LoopPlan → Prop}
    (hbody : ∀ result, body inside.enterScope.emitter = .ok result → ∃ after : Stage globals,
      result = ((), after.emitter) ∧ inside.enterScope.Lays after {place | place < inside.size} (code after))
    (width : Nat) (advance : Listing tracked → Nat → Prop)
    (hbetween : ∀ (turned : Stage globals) (result : Unit × Emitter),
      turned.scope.length = stage.scope.length → between turned.emitter = .ok result →
      ∃ after : Stage globals, result = ((), after.emitter) ∧ turned.Extends after ∧
        after.scope = turned.scope ∧ after.size = turned.size + width ∧ ∀ F : Listing tracked, F.Completes after.draft →
          F.Holds after.size stage.scope.length →
          F.Holds turned.size stage.scope.length ∧ advance F turned.size)
    {start : Nat} (hstart : start ≤ inside.size) {location : Location} {result : Unit × Emitter}
    (hrun : Emit.loopTurn start body between location inside.emitter = .ok result) :
    ∃ (opened after : Stage globals) (dropped : FrameScope) (loop : LoopJumps) (next : Nat),
      result = ((), after.emitter) ∧ stage.Looping after loop ∧ inside.draft.Grows after.draft ∧
      (∀ place ∈ loop.leaving, inside.size ≤ place) ∧ after.size = next + width + 3 ∧
      opened.scope = dropped ++ after.scope ∧
      ∀ (F : Listing tracked) (leave : Nat), F.Completes after.draft →
        (∀ place ∈ loop.leaving, F.Leads place leave) →
        F.Holds inside.size stage.scope.length ∧
          code opened F (some ⟨stage.scope.length, leave, next⟩) ∧
          DropCode F {} stage.scope.length dropped opened.size next ∧ advance F next ∧
          F.Repeats (next + width) (some stage.scope.length) location start := by
  obtain ⟨⟨⟩, emitter, henter, hrest⟩ := Emit.bind_eq_ok.mp hrun
  cases henter
  obtain ⟨⟨⟩, emitter, hrun, hrest⟩ := Emit.bind_eq_ok.mp hrest
  obtain ⟨opened, hresult, hlays⟩ := hbody _ hrun
  cases hresult
  obtain ⟨⟨⟩, emitter, hrun, hrest⟩ := Emit.bind_eq_ok.mp hrest
  obtain ⟨closed, dropped, hresult, hlocals, hlength, hproceeds, hloops, hgrows, hcode⟩ :=
    run_scoped hlays.proceeds hlays.loops hrun
  cases hresult
  -- The body may only have added jumps to the loop.
  obtain ⟨loop, hloop, hdepth⟩ : ∃ loop, opened.emitter.current.loops = loop :: stage.emitter.current.loops ∧
      loop.depth = stage.emitter.current.depth := by
    have hgrow : LoopsGrow inside.emitter.current.loops opened.emitter.current.loops := hlays.proceeds.emitter.loops
    rw [hlooping.loops] at hgrow
    generalize opened.emitter.current.loops = loops at hgrow
    cases hgrow with
    | same => exact ⟨_, rfl, rfl⟩
    | inner hdepth => exact ⟨_, rfl, hdepth⟩
  rw [hloop] at hloops
  obtain ⟨-, hdistinct, hplaces⟩ := hlays.loops loop (by rw [hloop]; rfl)
  obtain ⟨hleaving, hskipping, hapart⟩ := List.nodup_append'.mp hdistinct
  have hpending (place : Nat) (h : place ∈ loop.leaving ++ loop.skipping) :
      place ∈ closed.draft.pending ∧ inside.size ≤ place :=
    ⟨hgrows.pending (hplaces place h).1, Nat.le_of_not_lt (hplaces place h).2⟩
  obtain ⟨⟨⟩, emitter, hrun, hrest⟩ := Emit.bind_eq_ok.mp hrest
  obtain ⟨draft, hresult, hsize, hkept, hland⟩ := run_landSkipping hloops
    (fun place h => (hpending place (List.mem_append_right _ h)).1) hskipping hrun
  cases hresult
  let landed := closed.draw draft
  have hinside : inside.scope.length = stage.scope.length := hlooping.length_eq
  have hlandedLength : landed.scope.length = stage.scope.length := hlength.trans hinside
  obtain ⟨⟨⟩, emitter, hrun, hrest⟩ := Emit.bind_eq_ok.mp hrest
  obtain ⟨turned, hresult, hturned, hturnedScope, hwidth, hadvance⟩ := hbetween landed _ hlandedLength hrun
  cases hresult
  have hlandedSize : landed.size = closed.size := hsize
  have hclosedSize : inside.size ≤ closed.size := hproceeds.draft.size
  obtain ⟨after, hresult, hback, hbackScope, hbackSize, hrepeats⟩ :=
    turned.run_back (by omega) (some stage.scope.length) hrest
  have hlanded : inside.draft.Grows landed.draft := by
    refine ⟨fun F h => hproceeds.draft.completes F (hland F h).1, ?_, fun place hplace => ?_⟩
    · exact hclosedSize.trans (Nat.le_of_eq hlandedSize.symm)
    · refine hkept place (hproceeds.draft.pending hplace) fun hskip => ?_
      have hin : place + 2 ≤ inside.size := inside.draft.inside place hplace
      have := (hpending place (List.mem_append_right _ hskip)).2
      omega
  have hstartSize : stage.size ≤ inside.size := hlooping.draft.size
  have hlast : inside.draft.Grows after.draft := (hlanded.trans hturned.draft).trans hback.draft
  refine ⟨opened, after, scopeOf dropped, loop, landed.size, hresult, ?_, hlast, ?_, ?_, ?_, ?_⟩
  · have hlocals : LocalsLater inside.emitter.current.locals closed.emitter.current.locals :=
      hproceeds.emitter.later_of_length hlength
    refine Looping.extends ⟨hlooping.draft.trans hlanded, hproceeds.emitter.globals.trans hlooping.globals,
      hlooping.locals.trans hlocals, hproceeds.emitter.depth.trans hlooping.depth,
      Emitter.suspended_trans hlooping.enclosing hproceeds.emitter.enclosing, hloops, hdepth, hleaving, ?_⟩
      (hturned.trans hback)
    intro place hplace
    obtain ⟨hclosed, hown⟩ := hpending place (List.mem_append_left _ hplace)
    exact ⟨hkept place hclosed fun hskip => hapart hplace hskip, hstartSize.trans hown⟩
  · exact fun place hplace => (hpending place (List.mem_append_left _ hplace)).2
  · omega
  · rw [scope_of_locals hlocals, hbackScope, hturnedScope]
    rfl
  · intro F leave h hleave
    have hturnedF := hback.draft.completes F h
    obtain ⟨distance, hhas, -⟩ := hrepeats F h
    obtain ⟨hnext, hbetweenCode⟩ := hadvance F hturnedF hhas.height
    obtain ⟨hclosedF, hskip⟩ := hland F (hturned.draft.completes F hturnedF)
    have hplanned : closed.Planned F (some ⟨stage.scope.length, leave, landed.size⟩) := by
      intro found hfound
      rw [hloops] at hfound
      cases hfound
      refine ⟨_, rfl, hleave, hlandedSize ▸ hskip, ?_⟩
      have hdepth : closed.emitter.current.depth = loop.depth :=
        (hproceeds.emitter.depth.trans hlooping.depth).trans hdepth.symm
      rw [loop.outer_eq_self (hdepth ▸ closed.tidy.current.shallow), ← closed.length_scope]
      exact hlandedLength
    rw [hlandedSize, ← hlandedLength] at hnext
    obtain ⟨hinner, hopened, hdrops⟩ := hcode F _ hclosedF hnext hplanned
    obtain ⟨hstart, hbodyCode⟩ := hlays.code F _ (hgrows.completes F hclosedF) hinner hopened
    rw [scope_enterScope, hinside] at hstart
    rw [hinside] at hdrops
    exact ⟨hstart, hbodyCode, hlandedSize ▸ hdrops, hbetweenCode, hwidth ▸ hrepeats F h⟩

/-- A loop without jumps yet. -/
theorem Looping.loopsOpen (hlooping : stage.Looping inside { depth := stage.emitter.current.depth })
    (avoid : Set Nat) : inside.enterScope.LoopsOpen avoid := by
  intro loop hloop
  have hhead : inside.emitter.current.loops.head? = some loop := hloop
  rw [hlooping.loops] at hhead
  cases hhead
  refine ⟨?_, .nil, fun _ h => by cases h⟩
  change stage.emitter.current.depth < inside.emitter.current.depth + 1
  rw [hlooping.depth]
  exact Nat.lt_succ_self _

/-- The number of bytes written so far is looked at. -/
theorem run_position {α : Type} {rest : Nat → Emit α} {result : α × Emitter}
    (hrun : (Emit.position >>= rest) stage.emitter = .ok result) : rest stage.size stage.emitter = .ok result := by
  obtain ⟨position, emitter, hposition, hrest⟩ := Emit.bind_eq_ok.mp hrun
  cases hposition
  rwa [stage.size_eq] at hrest

/-- Nothing happens between the turns of a loop. -/
theorem run_nothing {turned : Stage globals} {length : Nat} {result : Unit × Emitter}
    (hrun : (pure () : Emit Unit) turned.emitter = .ok result) :
    ∃ after : Stage globals, result = ((), after.emitter) ∧ turned.Extends after ∧
      after.scope = turned.scope ∧ after.size = turned.size + 0 ∧ ∀ F : Listing tracked, F.Completes after.draft →
        F.Holds after.size length → F.Holds turned.size length ∧ True := by
  cases hrun
  exact ⟨turned, rfl, .refl _, rfl, rfl, fun F _ h => ⟨h, trivial⟩⟩

end Stage

open Stage

section Loops

variable {nesting : Nat} {location : Location} {condition first bound : Expr} {body : Stmt}

theorem laid_forever (hbody : StmtLaid globals tracked (Emit.compileStmt (nesting + 1) body) body) :
    StmtLaid globals tracked (Emit.compileStmt nesting (.forever location body)) (.forever location body) := by
  intro stage avoid hopen havoid result hrun
  replace hrun := run_deeper hrun
  obtain ⟨⟨⟩, emitter, henter, hrest⟩ := Emit.bind_eq_ok.mp hrun
  rw [stage.run_enterLoop] at henter
  cases henter
  replace hrest := run_position hrest
  rw [size_enterLoop] at hrest
  have hlooping := stage.looping_enterLoop
  obtain ⟨⟨⟩, emitter, hturn, hexit⟩ := Emit.bind_eq_ok.mp hrest
  obtain ⟨opened, turned, dropped, loop, next, hresult, hlooping, -, -, hsize, hscope, hcode⟩ :=
    hlooping.run_loopTurn
      (fun result hrun => (hbody _ _ (hlooping.loopsOpen _) (fun _ h => h) result hrun).imp
        fun _ h => ⟨h.1, h.2.2⟩)
      0 (fun _ _ => True) (fun _ _ _ hrun => run_nothing hrun) (Nat.le_refl _) hturn
  cases hresult
  obtain ⟨after, hresult, hextends, hsame, hlast, hclosed⟩ := hlooping.run_exitLoop hexit
  refine ⟨after, hresult, fun _ => hextends.emitter.length_eq, .of_extends hopen hextends fun F plan h => ?_⟩
  obtain ⟨hturnedF, hleave⟩ := hclosed F h
  obtain ⟨hstart, hbodyCode, hdrops, -, hrepeats⟩ := hcode F _ hturnedF hleave
  have hlength : after.scope.length = stage.scope.length := hextends.emitter.length_eq
  rw [hscope, ← hsame] at hbodyCode
  rw [hlast, hsize]
  rw [hsize] at hbodyCode
  exact ⟨hstart, .forever hstart hbodyCode hlength hdrops hrepeats⟩

theorem laid_while (hcondition : ExprLaid globals tracked (Emit.compileExpr (nesting + 1) condition) condition)
    (hbody : StmtLaid globals tracked (Emit.compileStmt (nesting + 1) body) body) :
    StmtLaid globals tracked (Emit.compileStmt nesting (.whileLoop location condition body))
      (.whileLoop location condition body) := by
  intro stage avoid hopen havoid result hrun
  replace hrun := run_deeper hrun
  obtain ⟨⟨⟩, emitter, henter, hrest⟩ := Emit.bind_eq_ok.mp hrun
  rw [stage.run_enterLoop] at henter
  cases henter
  replace hrest := run_position hrest
  rw [size_enterLoop] at hrest
  obtain ⟨⟨⟩, emitter, hrun, hrest⟩ := Emit.bind_eq_ok.mp hrest
  obtain ⟨first, hresult, hextends, hcode⟩ := hcondition stage.enterLoop stage.scope.length _ hrun
  cases hresult
  replace hrest := run_branch (some (stage.scope.length + 1)) (some (stage.scope.length + 1)) hrest
  let chosen := first.branch .jumpIfFalse location (some (stage.scope.length + 1)) (some (stage.scope.length + 1))
  have hsize : stage.size ≤ first.size := hextends.draft.size
  have hchosenSize : chosen.size = first.size + 4 := first.size_branch ..
  have hlooping : stage.Looping chosen { depth := stage.emitter.current.depth } :=
    stage.looping_enterLoop.extends (hextends.trans (first.extends_branch ..))
  obtain ⟨⟨⟩, emitter, hturn, hrest⟩ := Emit.bind_eq_ok.mp hrest
  obtain ⟨opened, turned, dropped, loop, next, hresult, hlooping, hgrows, hplaces, hturnedSize, hscope, hturnCode⟩ :=
    hlooping.run_loopTurn
      (fun result hrun => (hbody _ _ (hlooping.loopsOpen _) (fun _ h => h) result hrun).imp
        fun _ h => ⟨h.1, h.2.2⟩)
      0 (fun _ _ => True) (fun _ _ _ hrun => run_nothing hrun) (by omega) hturn
  cases hresult
  obtain ⟨⟨⟩, emitter, hland, hrest⟩ := Emit.bind_eq_ok.mp hrest
  obtain ⟨hfits, hresult⟩ := turned.run_land hland
  cases hresult
  have hplace : first.size + 1 ∈ turned.draft.pending := hgrows.pending (first.mem_pending_branch ..)
  have hother : first.size + 1 ∉ loop.leaving := by
    intro h
    have := hplaces _ h
    omega
  let landed := turned.land (first.size + 1)
  replace hrest := run_op_after (some (stage.scope.length + 1)) hrest
  let popped := landed.op .pop location (some (stage.scope.length + 1))
  have hpopped : stage.Looping popped loop :=
    (hlooping.land hplace hfits (by omega) hother).extends (landed.extends_op ..)
  obtain ⟨after, hresult, hextends', hsame, hlast, hclosed⟩ := hpopped.run_exitLoop hrest
  refine ⟨after, hresult, fun _ => hextends'.emitter.length_eq, .of_extends hopen hextends' fun F plan h => ?_⟩
  obtain ⟨hpoppedF, hleave⟩ := hclosed F h
  have hpop : F.Has landed.size (some (stage.scope.length + 1)) .pop 0 0 location := has_op rfl hpoppedF
  obtain ⟨hturnedF, hleads⟩ := leads_land hplace hfits ((landed.extends_op ..).draft.completes F hpoppedF)
  obtain ⟨hstart, hbodyCode, hdrops, -, hrepeats⟩ := hturnCode F _ hturnedF hleave
  have hchosenF := hgrows.completes F hturnedF
  obtain ⟨hbranch, hbranchPop⟩ := departs_branch hchosenF
  have hconditionCode := hcode F ((first.extends_branch ..).draft.completes F hchosenF)
  have hlength : after.scope.length = stage.scope.length := hextends'.emitter.length_eq
  have hpoppedSize : popped.size = next + 4 := by
    simp only [popped, landed, size_op, size_land, hturnedSize]
  have hinner : turned.scope = after.scope := hsame.symm
  rw [size_enterScope, hscope, hinner, hpoppedSize, hchosenSize] at hbodyCode
  rw [hchosenSize] at hstart
  simp only [landed, size_land, hturnedSize] at hpop hleads
  rw [hlast, hpoppedSize]
  exact ⟨hconditionCode.holds _, .whileLoop hconditionCode (hbranch.jumps rfl hleads) hbranchPop hstart
    hbodyCode hlength hdrops hrepeats hpop⟩

/-- A turn of a for loop: the variable is a copy of the counter, and the body follows. -/
theorem lays_forTurn {stage : Stage globals} {avoid : Set Nat} (hopen : stage.LoopsOpen avoid)
    (havoid : ∀ place ∈ avoid, place < stage.size) {step : Emit Unit} (hbody : StmtLaid globals tracked step body)
    {slot : Nat} (hslot : slot ≤ maxOperand) {binding : Option BindingId} {result : Unit × Emitter}
    (hrun : (do
      Emit.opShort .getLocal slot location
      let _ ← Emit.declareLocal binding location
      step) stage.emitter = .ok result) :
    ∃ after : Stage globals, result = ((), after.emitter) ∧ stage.Lays after avoid fun (F : Listing tracked) plan =>
      F.Has stage.size (some stage.scope.length) .getLocal slot 0 location ∧
        F.Holds (stage.size + 3) (stage.scope.length + 1) ∧
        StmtCode globals F plan (⟨binding, false⟩ :: stage.scope) (stage.size + 3) body after.scope
          after.size := by
  obtain ⟨⟨⟩, emitter, hcopy, hrest⟩ := Emit.bind_eq_ok.mp hrun
  rw [stage.run_opShort .getLocal slot location (some stage.scope.length)] at hcopy
  cases hcopy
  let copied := stage.opShort .getLocal slot location (some stage.scope.length)
  have hcopied : stage.Extends copied := stage.extends_opShort ..
  obtain ⟨place, emitter, hdeclare, hrest⟩ := Emit.bind_eq_ok.mp hrest
  obtain ⟨declared, hresult, hproceeds, hdraft, hscope, -, hloops⟩ := copied.run_declareLocal hdeclare
  cases hresult
  have hsize : declared.size = stage.size + 3 := (congrArg Draft.size hdraft).trans (stage.size_opShort ..)
  have hopened : declared.LoopsOpen avoid :=
    (hopen.extends hcopied).of_same hloops (Nat.le_of_eq hproceeds.emitter.depth.symm)
      fun _ h _ => hproceeds.draft.pending h
  obtain ⟨after, hresult, -, hlays⟩ := hbody declared avoid hopened
    (fun place h => by have := havoid place h; omega) _ hrest
  refine ⟨after, hresult, (hcopied.proceeds.trans hproceeds).trans hlays.proceeds, hlays.loops, ?_⟩
  intro F plan h hend hplanned
  obtain ⟨hstart, hcode⟩ := hlays.code F plan h hend hplanned
  have hcopiedF := hproceeds.draft.completes F (hlays.proceeds.draft.completes F h)
  have hcopy : F.Has stage.size (some stage.scope.length) .getLocal slot 0 location :=
    has_opShort rfl hslot hcopiedF
  have hinner : declared.scope = ⟨binding, false⟩ :: stage.scope := hscope
  rw [hinner, hsize] at hcode
  rw [hinner, hsize] at hstart
  exact ⟨hcopy.height, hcopy, hstart, hcode⟩

/-- Code between the turns of a for loop: the counter goes up by one. -/
structure CountCode (F : Listing tracked) (location : Location) (height slot p : Nat) : Prop where
  copy : F.Has p (some height) .getLocal slot 0 location
  one : ∃ a, F.Has (p + 3) (some (height + 1)) .constant a 0 location ∧
    F.chunk.constants[a]? = some (.scalar (.int 1))
  sum : F.Has (p + 6) (some (height + 2)) .add 0 0 location
  store : F.Has (p + 7) (some (height + 1)) .setLocal slot 0 location
  drop : F.Has (p + 10) (some (height + 1)) .pop 0 0 location

theorem run_countUp {turned : Stage globals} {height slot : Nat} (hslot : slot ≤ maxOperand)
    {result : Unit × Emitter}
    (hrun : (do
      Emit.opShort .getLocal slot location
      Emit.constant (.int 1) location
      Emit.op .add location
      Emit.opShort .setLocal slot location
      Emit.op .pop location) turned.emitter = .ok result) :
    ∃ after : Stage globals, result = ((), after.emitter) ∧ turned.Extends after ∧
      after.scope = turned.scope ∧ after.size = turned.size + 11 ∧ ∀ F : Listing tracked, F.Completes after.draft →
        F.Holds after.size height →
        F.Holds turned.size height ∧ CountCode F location height slot turned.size := by
  obtain ⟨⟨⟩, emitter, hcopy, hrest⟩ := Emit.bind_eq_ok.mp hrun
  rw [turned.run_opShort .getLocal slot location (some height)] at hcopy
  cases hcopy
  let copied := turned.opShort .getLocal slot location (some height)
  obtain ⟨⟨⟩, emitter, hone, hrest⟩ := Emit.bind_eq_ok.mp hrest
  obtain ⟨loaded, hresult, hloaded, hscope, hsize, hconstant⟩ := copied.run_constant (some (height + 1)) hone
  cases hresult
  replace hrest := run_op_after (some (height + 2)) hrest
  let added := loaded.op .add location (some (height + 2))
  obtain ⟨⟨⟩, emitter, hstore, hpop⟩ := Emit.bind_eq_ok.mp hrest
  rw [added.run_opShort .setLocal slot location (some (height + 1))] at hstore
  cases hstore
  let stored := added.opShort .setLocal slot location (some (height + 1))
  rw [stored.run_op .pop location (some (height + 1))] at hpop
  cases hpop
  have hstored : loaded.Extends stored := (loaded.extends_op ..).trans (added.extends_opShort ..)
  refine ⟨_, rfl, (((turned.extends_opShort ..).trans hloaded).trans hstored).trans (stored.extends_op ..),
    hscope, ?_, fun F h _ => ?_⟩
  · simp [stored, added, hsize, copied]
  have hstoredF := (stored.extends_op ..).draft.completes F h
  have haddedF := (added.extends_opShort ..).draft.completes F hstoredF
  have hloadedF := (loaded.extends_op ..).draft.completes F haddedF
  have hcopy : F.Has turned.size (some height) .getLocal slot 0 location :=
    has_opShort rfl hslot (hloaded.draft.completes F hloadedF)
  obtain ⟨a, hload, hvalue⟩ := hconstant F hloadedF
  have hsum : F.Has loaded.size (some (height + 2)) .add 0 0 location := has_op rfl haddedF
  have hset : F.Has added.size (some (height + 1)) .setLocal slot 0 location := has_opShort rfl hslot hstoredF
  have hpop : F.Has stored.size (some (height + 1)) .pop 0 0 location := has_op rfl h
  simp only [stored, added, size_op, size_opShort, hsize, copied] at hload hsum hset hpop
  exact ⟨hcopy.height, hcopy, ⟨a, hload, hvalue⟩, hsum, hset, hpop⟩

theorem laid_for {counter : String} {binding : Option BindingId}
    (hfirst : ExprLaid globals tracked (Emit.compileExpr (nesting + 1) first) first)
    (hbound : ExprLaid globals tracked (Emit.compileExpr (nesting + 1) bound) bound)
    (hbody : StmtLaid globals tracked (Emit.compileStmt (nesting + 1) body) body) :
    StmtLaid globals tracked (Emit.compileStmt nesting (.forLoop location counter binding first bound body))
      (.forLoop location counter binding first bound body) := by
  intro stage avoid hopen havoid result hrun
  replace hrun := run_deeper hrun
  obtain ⟨n, hlength⟩ : ∃ n, stage.scope.length = n := ⟨_, rfl⟩
  obtain ⟨⟨⟩, emitter, henter, hrest⟩ := Emit.bind_eq_ok.mp hrun
  rw [stage.run_enterScope] at henter
  cases henter
  obtain ⟨⟨⟩, emitter, hrun, hrest⟩ := Emit.bind_eq_ok.mp hrest
  obtain ⟨started, hresult, hstarted, hstartCode⟩ := hfirst stage.enterScope n _ hrun
  cases hresult
  have hstartedLength : started.scope.length = n := hstarted.emitter.length_eq.trans hlength
  obtain ⟨slot, emitter, hrun, hrest⟩ := Emit.bind_eq_ok.mp hrest
  obtain ⟨counted, hresult, hcounted, hcountedDraft, hcountedScope, hroom, hcountedLoops⟩ :=
    started.run_declareLocal hrun
  cases hresult
  rw [hstartedLength] at hrest hroom
  obtain ⟨⟨⟩, emitter, hrun, hrest⟩ := Emit.bind_eq_ok.mp hrest
  obtain ⟨limited, hresult, hlimited, hlimitCode⟩ := hbound counted (n + 1) _ hrun
  cases hresult
  have hlimitedLength : limited.scope.length = n + 1 := by
    rw [show limited.scope.length = counted.scope.length from hlimited.emitter.length_eq, hcountedScope,
      List.length_cons, hstartedLength]
  obtain ⟨slot, emitter, hrun, hrest⟩ := Emit.bind_eq_ok.mp hrest
  obtain ⟨ready, hresult, hready, hreadyDraft, hreadyScope, hroom', hreadyLoops⟩ :=
    limited.run_declareLocal hrun
  cases hresult
  rw [hlimitedLength] at hrest hroom'
  have hreadyLength : ready.scope.length = n + 2 := by rw [hreadyScope, List.length_cons, hlimitedLength]
  have hreadySize : ready.size = limited.size := congrArg Draft.size hreadyDraft
  obtain ⟨⟨⟩, emitter, henter, hrest⟩ := Emit.bind_eq_ok.mp hrest
  rw [ready.run_enterLoop] at henter
  cases henter
  replace hrest := run_position hrest
  rw [size_enterLoop] at hrest
  obtain ⟨⟨⟩, emitter, hrun, hrest⟩ := Emit.bind_eq_ok.mp hrest
  rw [ready.enterLoop.run_opShort .getLocal n location (some (n + 2))] at hrun
  cases hrun
  let left := ready.enterLoop.opShort .getLocal n location (some (n + 2))
  obtain ⟨⟨⟩, emitter, hrun, hrest⟩ := Emit.bind_eq_ok.mp hrest
  rw [left.run_opShort .getLocal (n + 1) location (some (n + 3))] at hrun
  cases hrun
  let right := left.opShort .getLocal (n + 1) location (some (n + 3))
  replace hrest := run_op_after (some (n + 4)) hrest
  let compared := right.op .less location (some (n + 4))
  replace hrest := run_branch (some (n + 3)) (some (n + 3)) hrest
  let chosen := compared.branch .jumpIfFalse location (some (n + 3)) (some (n + 3))
  have hcomparedSize : compared.size = limited.size + 7 := by
    simp [compared, right, left, hreadySize]
  have hchosenSize : chosen.size = limited.size + 11 := by
    simp [chosen, hcomparedSize]
  have hcompared : left.Extends compared := (left.extends_opShort ..).trans (right.extends_op ..)
  have hlooping : ready.Looping chosen { depth := ready.emitter.current.depth } :=
    ready.looping_enterLoop.extends
      (((ready.enterLoop.extends_opShort ..).trans hcompared).trans (compared.extends_branch ..))
  have hmax : n + 1 ≤ maxOperand := Nat.le_of_lt hroom'
  have hmax' : n ≤ maxOperand := Nat.le_of_succ_le hmax
  obtain ⟨⟨⟩, emitter, hturn, hrest⟩ := Emit.bind_eq_ok.mp hrest
  obtain ⟨opened, turned, dropped, loop, next, hresult, hlooping, hgrows, hplaces, hturnedSize, hscope, hturnCode⟩ :=
    hlooping.run_loopTurn
      (fun result hrun => lays_forTurn (hlooping.loopsOpen _) (fun _ h => h) hbody hmax' hrun)
      11 (fun F p => CountCode F location ready.scope.length n p)
      (fun _ _ _ hrun => run_countUp hmax' hrun) (by omega) hturn
  cases hresult
  obtain ⟨⟨⟩, emitter, hland, hrest⟩ := Emit.bind_eq_ok.mp hrest
  obtain ⟨hfits, hresult⟩ := turned.run_land hland
  cases hresult
  have hplace : compared.size + 1 ∈ turned.draft.pending := hgrows.pending (compared.mem_pending_branch ..)
  have hother : compared.size + 1 ∉ loop.leaving := by
    intro h
    have := hplaces _ h
    omega
  let landed := turned.land (compared.size + 1)
  replace hrest := run_op_after (some (n + 3)) hrest
  let popped := landed.op .pop location (some (n + 3))
  have hpopped : ready.Looping popped loop :=
    (hlooping.land hplace hfits (by omega) hother).extends (landed.extends_op ..)
  obtain ⟨⟨⟩, emitter, hrun, hexit⟩ := Emit.bind_eq_ok.mp hrest
  obtain ⟨ended, hresult, hended, hsame, hendedSize, hclosed⟩ := hpopped.run_exitLoop hrun
  cases hresult
  have hreadyProceeds : stage.enterScope.Proceeds ready :=
    ((hstarted.proceeds.trans hcounted).trans hlimited.proceeds).trans hready
  have hlays : stage.enterScope.Lays ended avoid fun (F : Listing tracked) plan =>
      ∀ (hidden after : FrameScope) (u : Nat), ended.scope = hidden ++ after → hidden.length = 2 →
        after.length = n → DropCode F {} n hidden ended.size u →
        StmtCode globals F plan stage.scope stage.size
          (.forLoop location counter binding first bound body) after u := by
    refine ⟨hreadyProceeds.trans hended.proceeds, LoopsOpen.extends ?_ hended, fun F plan h _ _ => ?_⟩
    · refine hopen.enterScope.of_same ?_ (Nat.le_of_eq hreadyProceeds.emitter.depth.symm)
        fun _ h _ => hreadyProceeds.draft.pending h
      rw [hreadyLoops, hlimited.emitter.loops, hcountedLoops, hstarted.emitter.loops]
    obtain ⟨hpoppedF, hleave⟩ := hclosed F h
    have hpop : F.Has landed.size (some (n + 3)) .pop 0 0 location := has_op rfl hpoppedF
    obtain ⟨hturnedF, hleads⟩ := leads_land hplace hfits ((landed.extends_op ..).draft.completes F hpoppedF)
    obtain ⟨-, ⟨hcopy, hinside, hbodyCode⟩, hdrops, hcount, hrepeats⟩ := hturnCode F _ hturnedF hleave
    have hchosenF := hgrows.completes F hturnedF
    obtain ⟨hbranch, hbranchPop⟩ := departs_branch hchosenF
    have hcomparedF := (compared.extends_branch ..).draft.completes F hchosenF
    have hless : F.Has right.size (some (n + 4)) .less 0 0 location := has_op rfl hcomparedF
    have hrightF := (right.extends_op ..).draft.completes F hcomparedF
    have hright : F.Has left.size (some (n + 3)) .getLocal (n + 1) 0 location := has_opShort rfl hmax hrightF
    have hleftF := (left.extends_opShort ..).draft.completes F hrightF
    have hleft : F.Has ready.size (some (n + 2)) .getLocal n 0 location := has_opShort rfl hmax' hleftF
    have hreadyF : F.Completes ready.draft := (ready.enterLoop.extends_opShort ..).draft.completes F hleftF
    have hlimitedF := hready.draft.completes F hreadyF
    have hcountedF := hlimited.draft.completes F hlimitedF
    have hfirstCode := hstartCode F (hcounted.draft.completes F hcountedF)
    have hboundCode := hlimitCode F hlimitedF
    rw [hcountedScope, show counted.size = started.size from congrArg Draft.size hcountedDraft] at hboundCode
    obtain ⟨a, hone, hvalue⟩ := hcount.one
    have hcounter := hcount.copy
    have hsum := hcount.sum
    have hstore := hcount.store
    have hdrop := hcount.drop
    have hpoppedSize : popped.size = next + 15 := by
      simp only [popped, landed, size_op, size_land, hturnedSize]
    have hchosenScope : chosen.enterScope.scope = ⟨none, false⟩ :: limited.scope := hreadyScope
    have hturnedScope : turned.scope = ended.scope := hsame.symm
    refine ⟨hlength ▸ hfirstCode.holds _, fun hidden after u hends hhidden hafter hlast => ?_⟩
    rw [hchosenScope, List.length_cons, hlimitedLength, size_enterScope, hchosenSize] at hcopy hinside
    rw [hchosenScope, size_enterScope, hchosenSize, hscope, hturnedScope, hends, hreadyLength, hpoppedSize] at hbodyCode
    rw [hreadyLength] at hcounter hone hsum hstore hdrop hdrops hrepeats
    rw [hreadySize] at hleft hrepeats
    simp only [right, left, size_opShort, size_enterLoop, hreadySize] at hless hright
    rw [hcomparedSize] at hbranch hbranchPop hleads
    simp only [landed, size_land, hturnedSize] at hpop hleads
    rw [hendedSize, hpoppedSize] at hlast
    subst hlength
    exact .forLoop hfirstCode hboundCode hleft hright hless (hbranch.jumps rfl hleads) hbranchPop hcopy hinside
      hbodyCode hhidden hafter hdrops hcounter hone hvalue hsum hstore hdrop hrepeats hpop hlast
  obtain ⟨after, hidden, hresult, hlocals, hafter, hall⟩ := lays_scoped hopen hlays hexit
  have hends := scope_of_locals hlocals
  refine ⟨after, hresult, fun _ => hafter, hall.proceeds, hall.loops, fun F plan h hend hplanned => ?_⟩
  obtain ⟨hstart, hcode, hdrops⟩ := hall.code F plan h hend hplanned
  have hhidden : (scopeOf hidden).length = 2 := by
    have hlong : ended.scope.length = ready.scope.length := hended.emitter.length_eq
    rw [hends, List.length_append, hreadyLength] at hlong
    omega
  exact ⟨hstart, hcode _ after.scope after.size hends hhidden (hafter.trans hlength) (hlength ▸ hdrops)⟩

end Loops

end OwnScript
