import OwnScript.Proofs.Lowering.Stages

/-!
The larger steps of code generation: operations on tables, several jumps at once, variables and their
scopes, accesses, and the jumps out of loops.
-/

namespace OwnScript

variable {globals : GlobalTable} {tracked : Prop}

namespace Stage

variable {stage : Stage globals} {F : Listing tracked}

/-- An operation with an index that a table gives out finds its entry there. -/
theorem run_indexed {f : Chunk → Chunk × Nat} (found : Chunk → Nat → Prop)
    (hcode : ∀ chunk, (f chunk).1.code = chunk.code)
    (hlocations : ∀ chunk, (f chunk).1.locations = chunk.locations)
    (htables : ∀ chunk longer, (f chunk).1.TablesBegin longer →
      chunk.TablesBegin longer ∧ found longer (f chunk).2)
    {code : Opcode} {location : Location} {what : String} (hcount : code.operandCount = 1)
    (height : Option Nat) {result : Unit × Emitter}
    (hrun : (do
      let index ← Emit.withChunk f
      Emit.opIndex code index location what) stage.emitter = .ok result) :
    ∃ after : Stage globals, result = ((), after.emitter) ∧ stage.Extends after ∧ after.scope = stage.scope ∧
      after.size = stage.size + 3 ∧ ∀ {tracked : Prop} (F : Listing tracked), F.Completes after.draft →
        ∃ index, F.Has stage.size height code index 0 location ∧ found F.chunk index := by
  let tabled := stage.draw (stage.draft.retable (f stage.draft.chunk).1 (hcode _) (hlocations _))
  have hwith : Emit.withChunk f stage.emitter = .ok ((f stage.draft.chunk).2, tabled.emitter) := by
    have hself : Emit.withChunk f stage.emitter = .ok ((f stage.emitter.current.chunk).2,
      stage.emitter.withChunk (f stage.emitter.current.chunk).1) := rfl
    rw [hself, ← stage.chunk_eq]
    rfl
  have hsize : tabled.size = stage.size := by
    change (f stage.draft.chunk).1.code.size = _
    rw [hcode]
    rfl
  have hgrows : stage.draft.Grows tabled.draft := by
    refine ⟨fun F h => ?_, Nat.le_of_eq hsize.symm, fun _ h => h⟩
    exact Draft.completes_retable (hcode _) (hlocations _) (fun h => (htables _ _ h).1) h
  obtain ⟨index, middle, hindex, hop⟩ := Emit.bind_eq_ok.mp hrun
  rw [hwith] at hindex
  cases hindex
  obtain ⟨hfits, rfl⟩ := tabled.run_opIndex height hop
  refine ⟨_, rfl, (extends_draw hgrows).trans (extends_opShort ..), rfl, by rw [size_opShort, hsize], ?_⟩
  intro tracked F h
  have hbefore := (tabled.extends_opShort _ _ _ _).draft.completes F h
  refine ⟨_, ?_, (htables _ _ hbefore.tables).2⟩
  have hhas : F.Has tabled.size _ _ _ _ _ := has_opShort hcount hfits h
  rwa [hsize] at hhas

theorem run_constant {value : Scalar} {location : Location} (height : Option Nat)
    {result : Unit × Emitter} (hrun : Emit.constant value location stage.emitter = .ok result) :
    ∃ after : Stage globals, result = ((), after.emitter) ∧ stage.Extends after ∧ after.scope = stage.scope ∧
      after.size = stage.size + 3 ∧ ∀ {tracked : Prop} (F : Listing tracked), F.Completes after.draft →
        ∃ index, F.Has stage.size height .constant index 0 location ∧
          F.chunk.constants[index]? = some (.scalar value) :=
  run_indexed (fun chunk index => chunk.constants[index]? = some (.scalar value))
    (fun _ => rfl) (fun _ => rfl) (fun _ _ h => Chunk.tablesBegin_addConstant h) rfl height hrun

theorem run_onString {code : Opcode} (hcount : code.operandCount = 1) {text : String}
    {location : Location} (height : Option Nat) {result : Unit × Emitter}
    (hrun : Emit.onString code text location stage.emitter = .ok result) :
    ∃ after : Stage globals, result = ((), after.emitter) ∧ stage.Extends after ∧ after.scope = stage.scope ∧
      after.size = stage.size + 3 ∧ ∀ {tracked : Prop} (F : Listing tracked), F.Completes after.draft →
        ∃ index, F.Has stage.size height code index 0 location ∧ F.chunk.strings[index]? = some text :=
  run_indexed (fun chunk index => chunk.strings[index]? = some text)
    (fun chunk => chunk.code_addString text) (fun chunk => chunk.locations_addString text)
    (fun _ _ h => Chunk.tablesBegin_addString h) hcount height hrun

/-- A literal is pushed by one operation. -/
theorem run_literal {value : Literal} {location : Location} (height : Option Nat)
    {result : Unit × Emitter} (hrun : Emit.literal value location stage.emitter = .ok result) :
    ∃ after : Stage globals, result = ((), after.emitter) ∧ stage.Extends after ∧ after.scope = stage.scope ∧
      ∃ op : Opcode, after.size = stage.size + op.size ∧ ∀ {tracked : Prop} (F : Listing tracked),
        F.Completes after.draft →
        ∃ index, F.Has stage.size height op index 0 location ∧ Loads F.chunk value op index := by
  have hconstant {scalar : Scalar} (hrun : Emit.constant scalar location stage.emitter = .ok result) :
      ∃ after : Stage globals, result = ((), after.emitter) ∧ stage.Extends after ∧ after.scope = stage.scope ∧
        ∃ op : Opcode, after.size = stage.size + op.size ∧ ∀ {tracked : Prop} (F : Listing tracked),
          F.Completes after.draft →
          ∃ index, F.Has stage.size height op index 0 location ∧
            Loads F.chunk (.scalar scalar) op index := by
    obtain ⟨after, hresult, hextends, hscope, hsize, hcode⟩ := run_constant height hrun
    refine ⟨after, hresult, hextends, hscope, .constant, hsize, fun F h => ?_⟩
    obtain ⟨index, hhas, hfound⟩ := hcode F h
    exact ⟨index, hhas, .constant hfound⟩
  have hop {op : Opcode} (hcount : op.operandCount = 0)
    (hloads : ∀ {tracked : Prop} (F : Listing tracked), Loads F.chunk value op 0)
      (hrun : Emit.op op location stage.emitter = .ok result) :
      ∃ after : Stage globals, result = ((), after.emitter) ∧ stage.Extends after ∧ after.scope = stage.scope ∧
        ∃ op : Opcode, after.size = stage.size + op.size ∧ ∀ {tracked : Prop} (F : Listing tracked),
          F.Completes after.draft →
          ∃ index, F.Has stage.size height op index 0 location ∧ Loads F.chunk value op index := by
    rw [stage.run_op op location height] at hrun
    cases hrun
    refine ⟨_, rfl, extends_op .., rfl, op, ?_, fun F h => ⟨0, has_op hcount h, hloads F⟩⟩
    simp [Opcode.size, hcount]
  cases value with
  | text text =>
    obtain ⟨after, hresult, hextends, hscope, hsize, hcode⟩ := run_onString rfl height hrun
    refine ⟨after, hresult, hextends, hscope, .string, hsize, fun F h => ?_⟩
    obtain ⟨index, hhas, hfound⟩ := hcode F h
    exact ⟨index, hhas, .text hfound⟩
  | scalar scalar =>
    cases scalar with
    | nil => exact hop rfl (fun _ => .nil) hrun
    | bool value =>
      cases value with
      | true => exact hop rfl (fun _ => .true) hrun
      | false => exact hop rfl (fun _ => .false) hrun
    | int value => exact hconstant hrun
    | float value => exact hconstant hrun

/-- Several jumps land here. -/
theorem run_landAll {places : List Nat} {location : Location} (hplaces : ∀ place ∈ places, place ∈ stage.draft.pending)
    (hdistinct : places.Nodup) {result : Unit × Emitter}
    (hrun : Emit.landAll places location stage.emitter = .ok result) :
    ∃ draft : Draft, result = ((), (stage.draw draft).emitter) ∧ draft.size = stage.size ∧
      (∀ other ∈ stage.draft.pending, other ∉ places → other ∈ draft.pending) ∧
      ∀ {tracked : Prop} (F : Listing tracked), F.Completes draft →
        F.Completes stage.draft ∧ ∀ place ∈ places, F.Leads place stage.size := by
  induction places generalizing stage with
  | nil =>
    cases hrun
    refine ⟨stage.draft, ?_, rfl, fun _ h _ => h, fun F h => ⟨h, fun _ hplace => by cases hplace⟩⟩
    have hsame : stage.emitter = stage.emitter.withChunk stage.draft.chunk := by
      rw [stage.chunk_eq]
      rfl
    exact congrArg (Prod.mk ()) hsame
  | cons place rest ih =>
    obtain ⟨⟨⟩, middle, hland, hrest⟩ := Emit.bind_eq_ok.mp hrun
    obtain ⟨hfits, hmiddle⟩ := stage.run_land hland
    cases hmiddle
    obtain ⟨hfresh, hdistinct⟩ := List.nodup_cons.mp hdistinct
    have hpending (other : Nat) (hother : other ∈ stage.draft.pending) (hne : other ≠ place) :
        other ∈ (stage.land place).draft.pending := ⟨hother, hne⟩
    obtain ⟨draft, hresult, hsize, hkept, hcode⟩ := ih
      (fun other hother => hpending other (hplaces other (List.mem_cons_of_mem _ hother)) fun h =>
        hfresh (h ▸ hother)) hdistinct hrest
    refine ⟨draft, hresult, by rw [hsize, size_land], ?_, fun F h => ?_⟩
    · intro other hother hnew
      obtain ⟨hne, hnot⟩ := not_or.mp (fun h => hnew (List.mem_cons.mpr h))
      exact hkept other (hpending other hother hne) hnot
    · obtain ⟨hlanded, hothers⟩ := hcode F h
      obtain ⟨hbefore, hfirst⟩ := leads_land (hplaces place (List.mem_cons_self ..)) hfits hlanded
      refine ⟨hbefore, fun other hother => ?_⟩
      rcases List.mem_cons.mp hother with rfl | hother
      · exact hfirst
      · have := hothers other hother
        rwa [size_land] at this

/-- A jump back. -/
theorem run_back {target : Nat} (htarget : target ≤ stage.size) {location : Location}
    (height : Option Nat) {result : Unit × Emitter}
    (hrun : Emit.back target location stage.emitter = .ok result) :
    ∃ after : Stage globals, result = ((), after.emitter) ∧ stage.Extends after ∧ after.scope = stage.scope ∧
      after.size = stage.size + 3 ∧ ∀ {tracked : Prop} (F : Listing tracked), F.Completes after.draft →
        F.Repeats stage.size height location target := by
  obtain ⟨⟨⟩, middle, hop, hrest⟩ := Emit.bind_eq_ok.mp hrun
  rw [stage.run_op .loopBack location height] at hop
  cases hop
  obtain ⟨position, middle, hposition, hrest⟩ := Emit.bind_eq_ok.mp hrest
  cases hposition
  obtain ⟨hfits, hshort⟩ := Emit.limit_eq_ok hrest
  have hposition := (stage.op .loopBack location height).size_eq
  rw [size_op] at hposition
  rw [hposition] at hfits hshort
  cases hshort
  refine ⟨stage.opShort .loopBack (stage.size + 1 - target + 2) location height, rfl, extends_opShort ..,
    rfl, by simp, fun F h => ?_⟩
  exact ⟨_, has_opShort rfl (by omega) h, by omega⟩

/-- Variables are dropped, innermost first. -/
theorem run_drops {vars : List Local} {location : Location} (outside : Nat) {result : Unit × Emitter}
    (hrun : vars.forM (Emit.drop · location) stage.emitter = .ok result) :
    ∃ draft : Draft, result = ((), (stage.draw draft).emitter) ∧ stage.draft.Grows draft ∧
      ∀ {tracked : Prop} (F : Listing tracked), F.Completes draft →
        DropCode F location outside (scopeOf vars) stage.size draft.size := by
  induction vars generalizing stage with
  | nil =>
    cases hrun
    refine ⟨stage.draft, ?_, .refl _, fun F _ => .nil⟩
    have hsame : stage.emitter = stage.emitter.withChunk stage.draft.chunk := by
      rw [stage.chunk_eq]
      rfl
    exact congrArg (Prod.mk ()) hsame
  | cons var rest ih =>
    have hrun : (Emit.drop var location >>= fun _ => rest.forM (Emit.drop · location)) stage.emitter
        = .ok result := hrun
    obtain ⟨⟨⟩, middle, hdrop, hrest⟩ := Emit.bind_eq_ok.mp hrun
    have hstep := stage.run_op var.var.dropOp location (some (outside + rest.length + 1))
    have hmiddle : Emit.drop var location stage.emitter = _ := hstep
    rw [hmiddle] at hdrop
    cases hdrop
    obtain ⟨draft, hresult, hgrows, hcode⟩ := ih hrest
    refine ⟨draft, hresult, (extends_op ..).draft.trans hgrows, fun F h => ?_⟩
    have hrest := hcode F h
    rw [size_op] at hrest
    refine .cons ?_ hrest
    rw [List.length_map]
    refine has_op ?_ (hgrows.completes F h)
    unfold FrameVar.dropOp
    split <;> rfl

/-- A new variable for the value on top of the stack. -/
def declare (stage : Stage globals) (binding : Option BindingId) (emitter : Emitter)
    (hemitter : emitter = { stage.emitter with
      current := { stage.emitter.current with
        locals := { binding, slot := stage.scope.length, depth := stage.emitter.current.depth } ::
          stage.emitter.current.locals
        maxLocals := emitter.current.maxLocals } })
    (hroom : stage.scope.length < maxLocals) : Stage globals where
  emitter := emitter
  draft := stage.draft
  globals_eq := by
    rw [hemitter]
    exact stage.globals_eq
  chunk_eq := by
    rw [hemitter]
    exact stage.chunk_eq
  tidy := by
    have htidy := stage.tidy
    rw [hemitter]
    refine ⟨⟨⟨stage.length_scope, htidy.current.slots⟩, .cons (fun outer houter => ?_) htidy.current.nested,
      ?_, ?_⟩, htidy.linked.of_captures rfl, htidy.globals⟩
    · exact htidy.current.shallow outer houter
    · intro var hvar
      rcases List.mem_cons.mp hvar with rfl | hvar
      · exact Nat.le_refl _
      · exact htidy.current.shallow var hvar
    · rw [stage.length_scope] at hroom
      simp only [List.length_cons]
      omega

theorem run_declareLocal {binding : Option BindingId} {location : Location} {result : Nat × Emitter}
    (hrun : Emit.declareLocal binding location stage.emitter = .ok result) :
    ∃ after : Stage globals, result = (stage.scope.length, after.emitter) ∧ stage.Proceeds after ∧
      after.draft = stage.draft ∧ after.scope = ⟨binding, false⟩ :: stage.scope ∧
      stage.scope.length < maxLocals ∧ after.emitter.current.loops = stage.emitter.current.loops := by
  unfold Emit.declareLocal at hrun
  rw [Emit.get_bind] at hrun
  obtain ⟨hfits, hrest⟩ := Emit.limit_eq_ok hrun
  have hslot := FunctionCode.nextSlot_eq stage.tidy.current.slots
  rw [← stage.length_scope] at hslot
  rw [hslot] at hfits hrest
  cases hrest
  refine ⟨stage.declare binding _ rfl (by omega), rfl, ⟨.refl _, rfl, ?_, rfl, .same, ?_⟩, rfl, rfl,
    by omega, rfl⟩
  · refine ⟨[_], stage.emitter.current.locals, rfl, .refl _, fun var hvar => ?_⟩
    rw [List.mem_singleton.mp hvar]
  · exact List.forall₂_same.mpr fun function _ => .refl function

/-- Several new variables, the first outermost. -/
theorem run_declareVariables {vars : List Pattern.Variable} {result : Unit × Emitter}
    (hrun : Emit.declareVariables vars stage.emitter = .ok result) :
    ∃ after : Stage globals, result = ((), after.emitter) ∧ stage.Proceeds after ∧
      after.draft = stage.draft ∧ after.scope = boundScope vars ++ stage.scope ∧
      after.emitter.current.loops = stage.emitter.current.loops := by
  induction vars generalizing stage with
  | nil =>
    cases hrun
    exact ⟨stage, rfl, (Extends.refl _).proceeds, rfl, rfl, rfl⟩
  | cons bound rest ih =>
    obtain ⟨⟨⟩, middle, hfirst, hrest⟩ := Emit.bind_eq_ok.mp hrun
    obtain ⟨slot, emitter, hdeclare, hdone⟩ := Emit.bind_eq_ok.mp hfirst
    cases hdone
    obtain ⟨next, hnext, hproceeds, hdraft, hscope, -, hloops⟩ := run_declareLocal hdeclare
    cases hnext
    obtain ⟨after, hresult, hlast, hsame, hbound, hkept⟩ := ih hrest
    refine ⟨after, hresult, hproceeds.trans hlast, hsame.trans hdraft, ?_, hkept.trans hloops⟩
    rw [hbound, hscope]
    simp [boundScope]

/-- Opens a scope. -/
def enterScope (stage : Stage globals) : Stage globals where
  emitter := { stage.emitter with
    current := { stage.emitter.current with depth := stage.emitter.current.depth + 1 } }
  draft := stage.draft
  globals_eq := stage.globals_eq
  chunk_eq := stage.chunk_eq
  tidy := ⟨⟨stage.tidy.current.slots, stage.tidy.current.nested,
    fun var hvar => (stage.tidy.current.shallow var hvar).trans (Nat.le_succ _), stage.tidy.current.few⟩,
    stage.tidy.linked.of_captures rfl, stage.tidy.globals⟩

theorem run_enterScope : Emit.enterScope stage.emitter = .ok ((), stage.enterScope.emitter) := rfl

@[simp] theorem scope_enterScope : stage.enterScope.scope = stage.scope := rfl

@[simp] theorem size_enterScope : stage.enterScope.size = stage.size := rfl

end Stage

theorem span_of_depths {inner outer : List Local} {depth : Nat} (hinner : ∀ var ∈ inner, depth < var.depth)
    (houter : ∀ var ∈ outer, var.depth ≤ depth) :
    (inner ++ outer).span (fun var => depth < var.depth) = (inner, outer) := by
  rw [List.span_eq_takeWhile_dropWhile]
  have htake : outer.takeWhile (fun var => depth < var.depth) = [] := by
    cases outer with
    | nil => rfl
    | cons var rest => simp [houter var (List.mem_cons_self ..)]
  have hdrop : outer.dropWhile (fun var => depth < var.depth) = outer := by
    cases outer with
    | nil => rfl
    | cons var rest => simp [houter var (List.mem_cons_self ..)]
  rw [List.takeWhile_append_of_pos (by simpa using hinner),
    List.dropWhile_append_of_pos (by simpa using hinner), htake, hdrop, List.append_nil]

namespace Stage

variable {stage : Stage globals}

/-- A scope around code is closed: the variables that the code has declared are dropped. -/
theorem run_exitScope {opened : Stage globals} (hproceeds : stage.enterScope.Proceeds opened)
    {result : Unit × Emitter} (hrun : Emit.exitScope opened.emitter = .ok result) :
    ∃ after : Stage globals, result = ((), after.emitter) ∧ opened.draft.Grows after.draft ∧
      stage.Proceeds after ∧ stage.scope.Later after.scope ∧
      after.emitter.current.loops = opened.emitter.current.loops ∧
      ∃ dropped : List Local,
        opened.emitter.current.locals = dropped ++ after.emitter.current.locals ∧
        (∀ var ∈ dropped, stage.emitter.current.depth < var.depth) ∧
        ∀ {tracked : Prop} (F : Listing tracked), F.Completes after.draft →
          DropCode F {} stage.scope.length (scopeOf dropped) opened.size after.size := by
  obtain ⟨declared, kept, hlocals, hkept, hdeclared⟩ := hproceeds.emitter.locals
  have hdepth : opened.emitter.current.depth - 1 = stage.emitter.current.depth := by
    rw [hproceeds.emitter.depth]
    rfl
  have hsplit : opened.emitter.current.locals.span
      (fun var => opened.emitter.current.depth - 1 < var.depth) = (declared, kept) := by
    rw [hlocals, hdepth]
    refine span_of_depths (fun var hvar => ?_) fun var hvar => ?_
    · rw [hdeclared var hvar]
      exact Nat.lt_succ_self _
    · obtain ⟨old, hold, h⟩ := LocalsLater.mem hkept hvar
      rw [h.depth]
      exact stage.tidy.current.shallow old hold
  unfold Emit.exitScope at hrun
  rw [Emit.get_bind, hsplit] at hrun
  obtain ⟨⟨⟩, middle, hdrops, hrest⟩ := Emit.bind_eq_ok.mp hrun
  obtain ⟨draft, hmiddle, hgrows, hcode⟩ := run_drops stage.scope.length hdrops
  cases hmiddle
  cases hrest
  have htidy : FunctionCode.Tidy { opened.emitter.current with
      chunk := draft.chunk, depth := stage.emitter.current.depth, locals := kept } :=
    stage.tidy.current.later rfl hkept
  refine ⟨⟨{ opened.emitter with
      current := { opened.emitter.current with
        chunk := draft.chunk, depth := stage.emitter.current.depth, locals := kept } }, draft, opened.globals_eq, rfl,
      ⟨htidy, opened.tidy.linked.of_captures rfl, opened.tidy.globals⟩⟩, ?_, hgrows, ?_, hkept.scope, rfl, ?_⟩
  · rw [hdepth]
    rfl
  · exact ⟨hproceeds.draft.trans hgrows, hproceeds.emitter.globals,
      ⟨[], kept, rfl, hkept, fun _ h => by cases h⟩, rfl, hproceeds.emitter.loops,
      hproceeds.emitter.enclosing⟩
  · refine ⟨declared, hlocals, fun var hvar => ?_, hcode⟩
    rw [hdeclared var hvar]
    exact Nat.lt_succ_self _

theorem run_globalSlot {id : BindingId} {location : Location} {result : Nat × Emitter}
    (hrun : Emit.globalSlot id location stage.emitter = .ok result) :
    globals.slots[id]? = some result.1 ∧ result.2 = stage.emitter := by
  unfold Emit.globalSlot at hrun
  rw [Emit.get_bind, stage.globals_eq] at hrun
  cases hfound : globals.slots[id]? with
  | none =>
    rw [hfound] at hrun
    cases hrun
  | some slot =>
    rw [hfound] at hrun
    cases hrun
    exact ⟨rfl, rfl⟩

theorem slot_le (stage : Stage globals) {id : BindingId} {slot : Nat}
    (hslot : globals.slots[id]? = some slot) : slot ≤ maxOperand :=
  stage.tidy.globals id slot (by rw [stage.globals_eq]; exact hslot)

/-- The top of the stack goes into a global variable. -/
theorem run_defineGlobal {resolution : Resolution} {location : Location} (height : Nat)
    {result : Unit × Emitter}
    (hrun : Emit.defineGlobal resolution location stage.emitter = .ok result) :
    ∃ (after : Stage globals) (id : BindingId) (slot : Nat), result = ((), after.emitter) ∧
      stage.Extends after ∧ after.scope = stage.scope ∧ after.size = stage.size + 4 ∧
      resolution.binding = some id ∧ globals.slots[id]? = some slot ∧
      ∀ {tracked : Prop} (F : Listing tracked), F.Completes after.draft →
        F.Has stage.size (some height) .setGlobal slot 0 location ∧
          F.Has (stage.size + 3) (some height) .pop 0 0 location := by
  unfold Emit.defineGlobal at hrun
  obtain ⟨⟨⟩, emitter, hop, hrest⟩ := Emit.bind_eq_ok.mp hrun
  rw [stage.run_op .setGlobal location (some height)] at hop
  cases hop
  cases hid : resolution.binding with
  | none =>
    rw [hid] at hrest
    cases hrest
  | some id =>
    rw [hid] at hrest
    dsimp only at hrest
    obtain ⟨slot, emitter, hslot, hrest⟩ := Emit.bind_eq_ok.mp hrest
    obtain ⟨hfound, hsame⟩ := run_globalSlot hslot
    cases hsame
    obtain ⟨⟨⟩, emitter, hshort, hpop⟩ := Emit.bind_eq_ok.mp hrest
    let stored := stage.opShort .setGlobal slot location (some height)
    have hstored : emitter = stored.emitter := by
      cases hshort
      rfl
    rw [hstored, stored.run_op .pop location (some height)] at hpop
    cases hpop
    have hnext := stored.extends_op .pop location (some height)
    refine ⟨_, id, slot, rfl, (stage.extends_opShort ..).trans hnext, rfl, ?_, rfl, hfound, fun F h => ?_⟩
    · simp [stored]
    · have hpopped : F.Has stored.size (some height) .pop 0 0 location := has_op rfl h
      rw [size_opShort] at hpopped
      exact ⟨has_opShort rfl (stage.slot_le hfound) (hnext.draft.completes F h), hpopped⟩

/-- A variable is accessed wherever it lives. -/
theorem run_access {resolution : Resolution} {how : Emit.Access} {location : Location}
    (height : Option Nat) {result : Unit × Emitter}
    (hrun : Emit.access resolution how location stage.emitter = .ok result) :
    ∃ after : Stage globals, result = ((), after.emitter) ∧ stage.Extends after ∧ after.scope = stage.scope ∧
      after.size = stage.size + 3 ∧ ∀ {tracked : Prop} (F : Listing tracked), F.Completes after.draft →
        ∃ op a, F.Has stage.size height op a 0 location ∧
          Accesses globals stage.scope resolution how op a := by
  unfold Emit.access at hrun
  cases hid : resolution.binding with
  | none =>
    rw [hid] at hrun
    cases hrun
  | some id =>
    rw [hid] at hrun
    dsimp only at hrun
    split at hrun
    · rename_i hglobal
      obtain ⟨slot, middle, hslot, hop⟩ := Emit.bind_eq_ok.mp hrun
      obtain ⟨hfound, hsame⟩ := run_globalSlot hslot
      cases hsame
      rw [stage.run_opShort how.global slot location height] at hop
      cases hop
      have hcount : how.global.operandCount = 1 := by cases how <;> rfl
      refine ⟨_, rfl, extends_opShort .., rfl, by simp, fun F h => ⟨_, _, ?_, .global hid hglobal hfound⟩⟩
      exact has_opShort hcount (stage.slot_le hfound) h
    · rename_i hlocal
      have hlocal : resolution.isGlobal = false := by simpa using hlocal
      rw [Emit.get_bind, FunctionCode.slotOf?_eq stage.tidy.current.slots] at hrun
      cases hslot : (scopeOf stage.emitter.current.locals).slotOf? id with
      | some slot =>
        rw [hslot] at hrun
        dsimp only at hrun
        rw [stage.run_opShort how.frame slot location height] at hrun
        cases hrun
        have hcount : how.frame.operandCount = 1 := by cases how <;> rfl
        refine ⟨_, rfl, extends_opShort .., rfl, by simp, fun F h => ⟨_, _, ?_, .frame hid hlocal hslot⟩⟩
        have hlt := FrameScope.slotOf?_lt hslot
        rw [length_scopeOf] at hlt
        have hfew : stage.emitter.current.locals.length ≤ maxOperand := stage.tidy.current.few
        exact has_opShort hcount (by omega) h
      | none =>
        rw [hslot] at hrun
        dsimp only at hrun
        obtain ⟨place, middle, hplace, hop⟩ := Emit.bind_eq_ok.mp hrun
        unfold Emit.captureOf? at hplace
        rw [Emit.get_bind] at hplace
        cases hresolved : stage.emitter.current.resolveCapture id stage.emitter.enclosing with
        | error fault =>
          rw [hresolved] at hplace
          cases hplace
        | ok found =>
          rw [hresolved] at hplace
          cases found with
          | none =>
            cases hplace
            cases hop
          | some found =>
            obtain ⟨index, current, enclosing⟩ := found
            obtain ⟨hcurrent, hlocals, hout, hlink⟩ := FunctionCode.resolveCapture_spec hresolved
            cases hplace
            have hlater := hcurrent.locals stage.tidy.current.slots
            let next : Stage globals :=
              ⟨{ stage.emitter with current, enclosing }, stage.draft, stage.globals_eq,
                stage.chunk_eq.trans hcurrent.chunk.symm,
                ⟨stage.tidy.current.later hcurrent.depth hlater, hlink stage.tidy.linked,
                  stage.tidy.globals⟩⟩
            have hsame : next.scope = stage.scope := congrArg scopeOf hlocals
            have hnext : stage.Extends next :=
              ⟨.refl _, rfl, hlater, hcurrent.depth, hcurrent.loops, hout⟩
            dsimp only at hop
            have hstep := next.run_opShort how.captured index location height
            change Emit.opShort how.captured index location next.emitter = _ at hop
            rw [hstep] at hop
            cases hop
            have hcount : how.captured.operandCount = 1 := by cases how <;> rfl
            refine ⟨_, rfl, hnext.trans (extends_opShort ..), hsame, size_opShort .., fun F h => ?_⟩
            obtain ⟨operand, hhas⟩ := Draft.exists_has_op_short hcount h
            exact ⟨_, operand, hhas, .captured hid hlocal hslot⟩

/-- The jumps out of the innermost loop are open, and none of them is at a place to avoid. The code at
hand is inside the scope of the loop's body. -/
def LoopsOpen (stage : Stage globals) (avoid : Set Nat) : Prop :=
  ∀ loop, stage.emitter.current.loops.head? = some loop →
    loop.depth < stage.emitter.current.depth ∧ (loop.leaving ++ loop.skipping).Nodup ∧
      ∀ place ∈ loop.leaving ++ loop.skipping, place ∈ stage.draft.pending ∧ place ∉ avoid

theorem LoopsOpen.mono {avoid fewer : Set Nat} (hopen : stage.LoopsOpen avoid) (hfewer : fewer ⊆ avoid) :
    stage.LoopsOpen fewer := by
  intro loop hloop
  obtain ⟨hdepth, hdistinct, hplaces⟩ := hopen loop hloop
  exact ⟨hdepth, hdistinct, fun place hplace =>
    ⟨(hplaces place hplace).1, fun h => (hplaces place hplace).2 (hfewer h)⟩⟩

/-- Jumps of the construct at hand are avoided by the jumps that were open before it. -/
theorem LoopsOpen.insert {avoid : Set Nat} (hopen : stage.LoopsOpen avoid) {place : Nat}
    (hplace : stage.size ≤ place) : stage.LoopsOpen (insert place avoid) := by
  intro loop hloop
  obtain ⟨hdepth, hdistinct, hplaces⟩ := hopen loop hloop
  refine ⟨hdepth, hdistinct, fun other hother => ?_⟩
  obtain ⟨hpending, havoid⟩ := hplaces other hother
  refine ⟨hpending, ?_⟩
  rintro (rfl | h)
  · have : other + 2 ≤ stage.size := stage.draft.inside other hpending
    omega
  · exact havoid h

theorem LoopsOpen.of_same {avoid : Set Nat} {after : Stage globals} (hopen : stage.LoopsOpen avoid)
    (hloops : after.emitter.current.loops = stage.emitter.current.loops)
    (hdepth : stage.emitter.current.depth ≤ after.emitter.current.depth)
    (hpending : ∀ place ∈ stage.draft.pending, place ∉ avoid → place ∈ after.draft.pending) :
    after.LoopsOpen avoid := by
  intro loop hloop
  rw [hloops] at hloop
  obtain ⟨hinside, hdistinct, hplaces⟩ := hopen loop hloop
  refine ⟨by omega, hdistinct, fun place hplace => ?_⟩
  obtain ⟨h, havoid⟩ := hplaces place hplace
  exact ⟨hpending place h havoid, havoid⟩

theorem LoopsOpen.extends {avoid : Set Nat} {after : Stage globals} (hopen : stage.LoopsOpen avoid)
    (hextends : stage.Extends after) : after.LoopsOpen avoid :=
  hopen.of_same hextends.emitter.loops (Nat.le_of_eq hextends.emitter.depth.symm)
    fun _ h _ => hextends.draft.pending h

theorem LoopsOpen.enterScope {avoid : Set Nat} (hopen : stage.LoopsOpen avoid) :
    stage.enterScope.LoopsOpen avoid :=
  hopen.of_same rfl (Nat.le_succ _) fun _ h _ => h

theorem LoopsOpen.land {avoid : Set Nat} (hopen : stage.LoopsOpen avoid) {place : Nat}
    (hplace : place ∈ avoid) : (stage.land place).LoopsOpen avoid :=
  hopen.of_same rfl (Nat.le_refl _) fun _ h havoid => ⟨h, fun heq => havoid (heq ▸ hplace)⟩

end Stage

/-- The variables inside the body of a loop. -/
def LoopJumps.inner (loop : LoopJumps) (locals : List Local) : List Local :=
  locals.takeWhile fun var => loop.depth < var.depth

/-- The variables around the body of a loop. -/
def LoopJumps.outer (loop : LoopJumps) (locals : List Local) : List Local :=
  locals.dropWhile fun var => loop.depth < var.depth

theorem LoopJumps.inner_append_outer (loop : LoopJumps) (locals : List Local) :
    scopeOf (loop.inner locals) ++ scopeOf (loop.outer locals) = scopeOf locals := by
  rw [← scopeOf_append]
  exact congrArg scopeOf List.takeWhile_append_dropWhile

theorem LoopJumps.length_outer_later (loop : LoopJumps) {before after : List Local}
    (hlater : LocalsLater before after) : (loop.outer after).length = (loop.outer before).length := by
  unfold outer
  induction hlater with
  | nil => rfl
  | cons hvar hrest ih =>
    simp only [List.dropWhile_cons, hvar.depth]
    split
    · exact ih
    · simp [LocalsLater.length_eq hrest]

namespace Stage

variable {stage : Stage globals}

/-- How the jumps out of the innermost loop go, in finished code. -/
def Planned (stage : Stage globals) (F : Listing tracked) (plan : Option LoopPlan) : Prop :=
  ∀ loop, stage.emitter.current.loops.head? = some loop → ∃ ends, plan = some ends ∧
    (∀ place ∈ loop.leaving, F.Leads place ends.leave) ∧
    (∀ place ∈ loop.skipping, F.Leads place ends.skip) ∧
    (loop.outer stage.emitter.current.locals).length = ends.outside

theorem Planned.before {avoid : Set Nat} {after : Stage globals} {F : Listing tracked} {plan : Option LoopPlan}
    (hplanned : after.Planned F plan) (hadvances : stage.emitter.Advances after.emitter)
    (hopen : stage.LoopsOpen avoid) : stage.Planned F plan := by
  intro loop hloop
  obtain ⟨hinside, -, -⟩ := hopen loop hloop
  obtain ⟨declared, kept, hlocals, hkept, hdeclared⟩ := hadvances.locals
  have houtside : (loop.outer after.emitter.current.locals).length =
      (loop.outer stage.emitter.current.locals).length := by
    rw [hlocals, LoopJumps.outer, List.dropWhile_append_of_pos, ← loop.length_outer_later hkept]
    · rfl
    · intro var hvar
      rw [hdeclared var hvar]
      exact decide_eq_true hinside
  have hgrow := hadvances.loops
  unfold Planned at hplanned
  generalize stage.emitter.current.loops = loops at hloop hgrow
  generalize after.emitter.current.loops = loops' at hgrow hplanned
  cases hgrow with
  | same =>
    obtain ⟨ends, hplan, hleave, hskip, hout⟩ := hplanned loop hloop
    exact ⟨ends, hplan, hleave, hskip, houtside.symm.trans hout⟩
  | @inner first second outer hdepth hleaving hskipping =>
    cases hloop
    obtain ⟨ends, hplan, hleave, hskip, hout⟩ := hplanned second rfl
    rw [LoopJumps.outer, hdepth] at hout
    exact ⟨ends, hplan, fun place h => hleave place (hleaving h),
      fun place h => hskip place (hskipping h), houtside.symm.trans hout⟩

/-- A statement leads from a stage to another. Its code is of the given kind in all finished code where
the frame holds the variables and nothing else behind it. -/
structure Lays (stage after : Stage globals) (avoid : Set Nat) (code : Listing tracked → Option LoopPlan → Prop) :
    Prop where
  proceeds : stage.Proceeds after
  loops : after.LoopsOpen avoid
  code : ∀ (F : Listing tracked) (plan : Option LoopPlan), F.Completes after.draft →
    F.Holds after.size after.scope.length → after.Planned F plan →
    F.Holds stage.size stage.scope.length ∧ code F plan

theorem Lays.of_extends {after : Stage globals} {avoid : Set Nat} {code : Listing tracked → Option LoopPlan → Prop}
    (hopen : stage.LoopsOpen avoid) (hextends : stage.Extends after)
    (hcode : ∀ (F : Listing tracked) (plan : Option LoopPlan), F.Completes after.draft →
      F.Holds stage.size stage.scope.length ∧ code F plan) : stage.Lays after avoid code :=
  ⟨hextends.proceeds, hopen.extends hextends, fun F plan h _ _ => hcode F plan h⟩

/-- Opens a loop. -/
def enterLoop (stage : Stage globals) : Stage globals where
  emitter := { stage.emitter with
    current := { stage.emitter.current with
      loops := { depth := stage.emitter.current.depth } :: stage.emitter.current.loops } }
  draft := stage.draft
  globals_eq := stage.globals_eq
  chunk_eq := stage.chunk_eq
  tidy := ⟨⟨stage.tidy.current.slots, stage.tidy.current.nested, stage.tidy.current.shallow,
    stage.tidy.current.few⟩, stage.tidy.linked.of_captures rfl, stage.tidy.globals⟩

theorem run_enterLoop : Emit.enterLoop stage.emitter = .ok ((), stage.enterLoop.emitter) := rfl

@[simp] theorem scope_enterLoop : stage.enterLoop.scope = stage.scope := rfl

@[simp] theorem size_enterLoop : stage.enterLoop.size = stage.size := rfl

/-- Closes the innermost loop, with a draft in which its jumps are complete. -/
def closeLoop (stage : Stage globals) (draft : Draft) : Stage globals where
  emitter := { stage.emitter with
    current := { stage.emitter.current with
      chunk := draft.chunk, loops := stage.emitter.current.loops.tail } }
  draft := draft
  globals_eq := stage.globals_eq
  chunk_eq := (stage.draw draft).chunk_eq
  tidy := ⟨⟨stage.tidy.current.slots, stage.tidy.current.nested, stage.tidy.current.shallow,
    stage.tidy.current.few⟩, stage.tidy.linked.of_captures rfl, stage.tidy.globals⟩

@[simp] theorem scope_closeLoop (draft : Draft) : (stage.closeLoop draft).scope = stage.scope := rfl

@[simp] theorem size_closeLoop (draft : Draft) : (stage.closeLoop draft).size = draft.size := rfl

/-- The jumps that go on with the next turn of the innermost loop land here. -/
theorem run_landSkipping {loop : LoopJumps} {outer : List LoopJumps}
    (hloops : stage.emitter.current.loops = loop :: outer)
    (hplaces : ∀ place ∈ loop.skipping, place ∈ stage.draft.pending) (hdistinct : loop.skipping.Nodup)
    {location : Location} {result : Unit × Emitter}
    (hrun : Emit.landSkipping location stage.emitter = .ok result) :
    ∃ draft : Draft, result = ((), (stage.draw draft).emitter) ∧ draft.size = stage.size ∧
      (∀ other ∈ stage.draft.pending, other ∉ loop.skipping → other ∈ draft.pending) ∧
      ∀ {tracked : Prop} (F : Listing tracked), F.Completes draft →
        F.Completes stage.draft ∧ ∀ place ∈ loop.skipping, F.Leads place stage.size := by
  unfold Emit.landSkipping at hrun
  rw [Emit.get_bind, hloops] at hrun
  exact run_landAll hplaces hdistinct hrun

/-- The jumps that leave the innermost loop land here, and the loop is closed. -/
theorem run_exitLoop {loop : LoopJumps} {outer : List LoopJumps}
    (hloops : stage.emitter.current.loops = loop :: outer)
    (hplaces : ∀ place ∈ loop.leaving, place ∈ stage.draft.pending) (hdistinct : loop.leaving.Nodup)
    {location : Location} {result : Unit × Emitter}
    (hrun : Emit.exitLoop location stage.emitter = .ok result) :
    ∃ draft : Draft, result = ((), (stage.closeLoop draft).emitter) ∧ draft.size = stage.size ∧
      (∀ other ∈ stage.draft.pending, other ∉ loop.leaving → other ∈ draft.pending) ∧
      ∀ {tracked : Prop} (F : Listing tracked), F.Completes draft →
        F.Completes stage.draft ∧ ∀ place ∈ loop.leaving, F.Leads place stage.size := by
  unfold Emit.exitLoop at hrun
  rw [Emit.get_bind, hloops] at hrun
  obtain ⟨⟨⟩, middle, hland, hrest⟩ := Emit.bind_eq_ok.mp hrun
  obtain ⟨draft, hmiddle, hsize, hkept, hcode⟩ := run_landAll hplaces hdistinct hland
  cases hmiddle
  cases hrest
  exact ⟨draft, rfl, hsize, hkept, hcode⟩

/-- A jump out of the body of the innermost loop drops the variables of its scopes. -/
theorem run_jumpFromLoop {word : String} {add : LoopJumps → Nat → LoopJumps} {location : Location}
    {result : Unit × Emitter}
    (hrun : Emit.jumpFromLoop word add location stage.emitter = .ok result) :
    ∃ (loop : LoopJumps) (rest : List LoopJumps) (draft : Draft),
      stage.emitter.current.loops = loop :: rest ∧ stage.draft.Grows draft ∧
      (∀ {tracked : Prop} (F : Listing tracked), F.Completes draft →
        DropCode F location (loop.outer stage.emitter.current.locals).length
          (scopeOf (loop.inner stage.emitter.current.locals)) stage.size draft.size) ∧
      result = ((), { stage.emitter with
        current := { stage.emitter.current with
          chunk := (draft.jump .jump location
            (some (loop.outer stage.emitter.current.locals).length)).chunk
          loops := add loop (draft.size + 1) :: rest } }) := by
  unfold Emit.jumpFromLoop at hrun
  rw [Emit.get_bind] at hrun
  cases hloops : stage.emitter.current.loops with
  | nil =>
    rw [hloops] at hrun
    cases hrun
  | cons loop rest =>
    rw [hloops] at hrun
    dsimp only at hrun
    obtain ⟨⟨⟩, middle, hunwind, hrest⟩ := Emit.bind_eq_ok.mp hrun
    unfold Emit.unwind at hunwind
    rw [Emit.get_bind] at hunwind
    obtain ⟨draft, hmiddle, hgrows, hcode⟩ :=
      run_drops (loop.outer stage.emitter.current.locals).length hunwind
    cases hmiddle
    obtain ⟨place, middle, hjump, hrest⟩ := Emit.bind_eq_ok.mp hrest
    rw [(stage.draw draft).run_jump .jump location
      (some (loop.outer stage.emitter.current.locals).length)] at hjump
    cases hjump
    refine ⟨loop, rest, draft, rfl, hgrows, hcode, ?_⟩
    obtain ⟨⟨globals, ⟨chunk, locals, captures, loops, depth, most⟩, enclosing⟩, old, hold, htidy⟩ := stage
    cases hloops
    cases hrest
    rfl

end Stage

/-- Starts a function inside the one at hand. -/
def Stage.enterFunction (stage : Stage globals) : Stage globals where
  emitter := { stage.emitter with
    current := {}, enclosing := stage.emitter.current :: stage.emitter.enclosing }
  draft := .empty
  globals_eq := stage.globals_eq
  chunk_eq := Draft.chunk_empty
  tidy := ⟨⟨trivial, .nil, fun _ h => (by cases h), Nat.zero_le _⟩,
    ⟨fun _ h => absurd h (Array.not_mem_empty _), stage.tidy.linked⟩, stage.tidy.globals⟩

/-- Starts a clause. -/
def Stage.enterClause (stage : Stage globals) : Stage globals where
  emitter := { stage.emitter with
    current := { stage.emitter.current with locals := [], loops := [], depth := 1 } }
  draft := stage.draft
  globals_eq := stage.globals_eq
  chunk_eq := stage.chunk_eq
  tidy := ⟨⟨trivial, .nil, fun _ h => (by cases h), Nat.zero_le _⟩,
    stage.tidy.linked.of_captures rfl, stage.tidy.globals⟩

/-- The parameters of a clause become variables. -/
theorem Stage.run_declareParameters {parameters : List Pattern} {matchers : List Matcher}
    {vars : List Pattern.Variable} {stage : Stage globals}
    {result : (List Matcher × List Pattern.Variable) × Emitter}
    (hrun : Emit.declareParameters parameters matchers vars stage.emitter = .ok result) :
    ∃ after : Stage globals,
      result = ((matchers.reverse ++ parameters.map parameterMatcher,
        vars ++ parameterVariables parameters), after.emitter) ∧ stage.Proceeds after ∧
      after.draft = stage.draft ∧ after.scope = parameterScope parameters ++ stage.scope ∧
      after.emitter.current.loops = stage.emitter.current.loops := by
  induction parameters generalizing matchers vars stage with
  | nil =>
    cases hrun
    exact ⟨stage, by simp [parameterVariables], (Extends.refl _).proceeds, rfl, rfl, rfl⟩
  | cons pattern rest ih =>
    have hstep {binding : Option BindingId} {location : Location} {matcher : Matcher}
        {bound : List Pattern.Variable} (hmatcher : parameterMatcher pattern = matcher)
        (hbound : parameterVariables [pattern] = bound)
        (hscope : parameterScope [pattern] = [⟨binding, false⟩])
        (hrun : (do
          let _ ← Emit.declareLocal binding location
          Emit.declareParameters rest (matcher :: matchers) (vars ++ bound)) stage.emitter = .ok result) :
        ∃ after : Stage globals,
          result = ((matchers.reverse ++ (pattern :: rest).map parameterMatcher,
            vars ++ parameterVariables (pattern :: rest)), after.emitter) ∧ stage.Proceeds after ∧
          after.draft = stage.draft ∧ after.scope = parameterScope (pattern :: rest) ++ stage.scope ∧
          after.emitter.current.loops = stage.emitter.current.loops := by
      obtain ⟨slot, emitter, hdeclare, hrest⟩ := Emit.bind_eq_ok.mp hrun
      obtain ⟨next, hnext, hproceeds, hdraft, hfirst, -, hloops⟩ := run_declareLocal hdeclare
      cases hnext
      obtain ⟨after, hresult, hlast, hsame, hothers, hkept⟩ := ih hrest
      refine ⟨after, ?_, hproceeds.trans hlast, hsame.trans hdraft, ?_, hkept.trans hloops⟩
      · rw [hresult]
        simp [hmatcher, ← hbound, parameterVariables]
      · rw [hothers, hfirst]
        have hsplit : parameterScope (pattern :: rest) = parameterScope rest ++ parameterScope [pattern] := by
          simp [parameterScope]
        rw [hsplit, hscope, List.append_assoc]
        rfl
    cases pattern with
    | bind location name binding =>
      have hnone : (do
          let _ ← Emit.declareLocal binding location
          Emit.declareParameters rest (.any :: matchers) (vars ++ [])) stage.emitter = .ok result := by
        rw [List.append_nil]
        exact hrun
      exact hstep rfl rfl rfl hnone
    | wildcard location => exact hstep rfl (List.append_nil _) rfl hrun
    | literal location value => exact hstep rfl (List.append_nil _) rfl hrun
    | destructure location fields => exact hstep rfl (List.append_nil _) rfl hrun

/-- A function is complete: a closure of it is built where it stands. -/
theorem Stage.run_exitFunction {stage inner : Stage globals} {name : String} {isProc : Bool}
    {location : Location} (height : Nat)
    (henclosing : List.Forall₂ FunctionCode.Suspended
      (stage.emitter.current :: stage.emitter.enclosing) inner.emitter.enclosing)
    {result : Unit × Emitter}
    (hrun : Emit.exitFunction name isProc location inner.emitter = .ok result) :
    ∃ after : Stage globals, result = ((), after.emitter) ∧ stage.Extends after ∧
      after.size = stage.size + 3 ∧ ∃ prototype : Prototype, prototype.chunk = some inner.draft.chunk ∧
        (∀ capture ∈ prototype.captures, capture.isLocal = true → after.scope.Held capture.index) ∧
        ∀ {tracked : Prop} (F : Listing tracked), F.Completes after.draft →
          ∃ a, F.Has stage.size (some height) .closure a 0 location ∧
          F.chunk.functions[a]? = some (some prototype) := by
  unfold Emit.exitFunction at hrun
  rw [Emit.get_bind] at hrun
  obtain ⟨⟨⟩, emitter, hmodify, hrest⟩ := Emit.bind_eq_ok.mp hrun
  have hlinked := inner.tidy.linked
  obtain ⟨⟨table, built, enclosing⟩, draft, rfl, hchunk, htidy⟩ := inner
  cases henclosing with
  | @cons _ outer _ rest houter hothers =>
    cases hmodify
    have hlater := houter.locals stage.tidy.current.slots
    let resumed : Stage table :=
      ⟨⟨table, outer, rest⟩, stage.draft, rfl, stage.chunk_eq.trans houter.chunk.symm,
        ⟨stage.tidy.current.later houter.depth hlater, hlinked.2, htidy.globals⟩⟩
    have hresumed : stage.Extends resumed :=
      ⟨.refl _, stage.globals_eq.symm, hlater, houter.depth, houter.loops, hothers⟩
    have hindexed := resumed.run_indexed
      (fun chunk index => chunk.functions[index]? = some (some
        { name := if name.isEmpty then "<lambda>" else name, isProc, captures := built.captures,
          chunk := some built.chunk, maxSlots := built.maxLocals }))
      (fun _ => rfl) (fun _ => rfl) (fun _ _ h => Chunk.tablesBegin_addFunction h) rfl (some height) hrest
    obtain ⟨after, hresult, hextends, hscope, hsize, hcode⟩ := hindexed
    refine ⟨after, hresult, hresumed.trans hextends, hsize, _, congrArg some hchunk.symm, ?_, hcode⟩
    intro capture hcapture hlocal
    obtain ⟨var, hvar, hslot, hcaptured⟩ := hlinked.1 capture hcapture hlocal
    rw [hscope, ← hslot]
    exact resumed.tidy.current.slots.held hvar hcaptured

end OwnScript
