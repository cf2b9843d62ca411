import OwnScript.Proofs.Lowering.Stages
import OwnScript.Proofs.Program.Scoping

/-!
What the generator can reach. A name leads to a slot of a global variable or to a variable of a frame under
construction. A step of code generation serves scopes if it keeps everything that is visible there within reach, or
rejects the program.
-/

namespace OwnScript

/-- A fault that lies in the program: it leaves a loop that is not there, or is too large. -/
def LoweringFault.IsRejection (fault : LoweringFault) : Prop :=
  ∃ diagnostic, fault = .rejected diagnostic ∧ diagnostic.kind ∈ [ErrorKind.breakOutsideLoop, .limitExceeded]

/-- The variables of a frame under construction, each with the depth of its scope. -/
def FunctionCode.variables (function : FunctionCode) : List (Option BindingId × Nat) :=
  function.locals.map fun var => (var.binding, var.depth)

/-- A frame under construction as far as scopes go. -/
def FunctionCode.skeleton (function : FunctionCode) : List (Option BindingId × Nat) × Nat :=
  (function.variables, function.depth)

/-- What a name carries leads to a slot, of a global variable or in one of the frames. -/
def WithinReach (globals : GlobalTable) (frames : List FunctionCode) (resolution : Resolution) : Prop :=
  ∃ id, resolution.binding = some id ∧
    if resolution.isGlobal then (globals.slots[id]?).isSome = true
    else ∃ frame ∈ frames, ∃ depth, (some id, depth) ∈ frame.variables

theorem WithinReach.mono {globals : GlobalTable} {frames later : List FunctionCode} {resolution : Resolution}
    (h : WithinReach globals frames resolution)
    (hlater : ∀ frame ∈ frames, ∃ other ∈ later, frame.variables ⊆ other.variables) :
    WithinReach globals later resolution := by
  obtain ⟨id, hid, hreach⟩ := h
  refine ⟨id, hid, ?_⟩
  split at hreach
  · rwa [if_pos ‹_›]
  · rw [if_neg ‹_›]
    obtain ⟨frame, hframe, depth, hmem⟩ := hreach
    obtain ⟨other, hother, hsubset⟩ := hlater frame hframe
    exact ⟨other, hother, depth, hsubset hmem⟩

/-- The frames around are the same as far as scopes go. -/
theorem same_variables {frames later : List FunctionCode}
    (hsame : later.map FunctionCode.skeleton = frames.map FunctionCode.skeleton) {frame : FunctionCode}
    (hframe : frame ∈ frames) :
    ∃ other ∈ later, frame.variables ⊆ other.variables := by
  have hmem : frame.skeleton ∈ later.map FunctionCode.skeleton := hsame ▸ List.mem_map_of_mem hframe
  obtain ⟨other, hother, heq⟩ := List.mem_map.mp hmem
  have hvariables : other.variables = frame.variables := congrArg Prod.fst heq
  exact ⟨other, hother, by rw [hvariables]; exact List.Subset.refl _⟩

namespace Emitter

/-- Everything that is visible is within reach. -/
structure Shows (emitter : Emitter) (scopes : Scopes) : Prop where
  reaches : ∀ name resolution, scopes.visible name = some resolution →
    WithinReach emitter.globals (emitter.current :: emitter.enclosing) resolution
  shallow : ∀ var ∈ emitter.current.variables, var.2 ≤ emitter.current.depth

/-- Code was generated, and variables may have been declared in the innermost scope. -/
structure Retains (before after : Emitter) : Prop where
  globals : after.globals = before.globals
  depth : after.current.depth = before.current.depth
  frame : ∃ declared, after.current.variables = declared ++ before.current.variables ∧
    ∀ var ∈ declared, var.2 = before.current.depth
  enclosing : after.enclosing.map FunctionCode.skeleton = before.enclosing.map FunctionCode.skeleton

variable {before middle after : Emitter} {scopes : Scopes}

theorem Retains.of_same (hglobals : after.globals = before.globals)
    (hcurrent : after.current.skeleton = before.current.skeleton)
    (henclosing : after.enclosing.map FunctionCode.skeleton = before.enclosing.map FunctionCode.skeleton) :
    before.Retains after :=
  ⟨hglobals, congrArg Prod.snd hcurrent, ⟨[], congrArg Prod.fst hcurrent, fun _ h => nomatch h⟩, henclosing⟩

theorem Retains.refl (emitter : Emitter) : emitter.Retains emitter :=
  .of_same rfl rfl rfl

theorem Retains.trans (hfirst : before.Retains middle) (hsecond : middle.Retains after) : before.Retains after := by
  refine ⟨hsecond.globals.trans hfirst.globals, hsecond.depth.trans hfirst.depth, ?_,
    hsecond.enclosing.trans hfirst.enclosing⟩
  obtain ⟨declared, heq, hdeclared⟩ := hfirst.frame
  obtain ⟨more, heq', hmore⟩ := hsecond.frame
  refine ⟨more ++ declared, by rw [heq', heq, List.append_assoc], fun var hvar => ?_⟩
  rcases List.mem_append.mp hvar with hnew | hold
  · rw [hmore var hnew, hfirst.depth]
  · exact hdeclared var hold

theorem Retains.reaches (hretains : before.Retains after) {resolution : Resolution}
    (h : WithinReach before.globals (before.current :: before.enclosing) resolution) :
    WithinReach after.globals (after.current :: after.enclosing) resolution := by
  rw [hretains.globals]
  refine h.mono fun frame hframe => ?_
  rcases List.mem_cons.mp hframe with rfl | hframe
  · obtain ⟨declared, heq, -⟩ := hretains.frame
    exact ⟨_, List.mem_cons_self .., fun _ h => heq ▸ List.mem_append_right _ h⟩
  · obtain ⟨other, hother, hsubset⟩ := same_variables hretains.enclosing hframe
    exact ⟨other, List.mem_cons_of_mem _ hother, hsubset⟩

theorem Retains.mem (hretains : before.Retains after) {var : Option BindingId × Nat}
    (hvar : var ∈ before.current.variables) : var ∈ after.current.variables := by
  obtain ⟨declared, heq, -⟩ := hretains.frame
  exact heq ▸ List.mem_append_right _ hvar

theorem Retains.shallow (hretains : before.Retains after)
    (hshallow : ∀ var ∈ before.current.variables, var.2 ≤ before.current.depth) :
    ∀ var ∈ after.current.variables, var.2 ≤ after.current.depth := by
  intro var hvar
  obtain ⟨declared, heq, hdeclared⟩ := hretains.frame
  rw [heq] at hvar
  rw [hretains.depth]
  rcases List.mem_append.mp hvar with hnew | hold
  · exact (hdeclared var hnew).le
  · exact hshallow var hold

theorem Shows.retains (hshows : before.Shows scopes) (hretains : before.Retains after) : after.Shows scopes :=
  ⟨fun name resolution h => hretains.reaches (hshows.reaches name resolution h), hretains.shallow hshows.shallow⟩

/-- An emitter in a scope more. -/
def opened (emitter : Emitter) : Emitter :=
  { emitter with current := { emitter.current with depth := emitter.current.depth + 1 } }

theorem Shows.opened {emitter : Emitter} (hshows : emitter.Shows scopes) : emitter.opened.Shows scopes.enter := by
  refine ⟨fun name resolution h => (hshows.reaches name resolution h).mono fun frame hframe => ?_,
    fun var hvar => (hshows.shallow var hvar).trans (Nat.le_succ _)⟩
  rcases List.mem_cons.mp hframe with rfl | hframe
  · exact ⟨_, List.mem_cons_self .., List.Subset.refl _⟩
  · exact ⟨frame, List.mem_cons_of_mem _ hframe, List.Subset.refl _⟩

/-- Names whose variables are in the frame may become visible. -/
theorem Shows.declares {emitter : Emitter} (hshows : emitter.Shows scopes) {outline : List Naming}
    (hdeclared : ∀ naming ∈ outline, ∃ name id depth, naming = .declares name { binding := some id } ∧
      (some id, depth) ∈ emitter.current.variables) : emitter.Shows (scopes.afterAll outline) := by
  induction outline generalizing scopes with
  | nil => exact hshows
  | cons naming rest ih =>
    obtain ⟨hfirst, hrest⟩ := List.forall_mem_cons.mp hdeclared
    obtain ⟨name, id, depth, rfl, hmem⟩ := hfirst
    refine ih ⟨fun wanted resolution h => ?_, hshows.shallow⟩ hrest
    rw [Scopes.visible_declares] at h
    split at h
    · cases h
      exact ⟨id, rfl, _, List.mem_cons_self .., depth, hmem⟩
    · exact hshows.reaches wanted resolution h

end Emitter

namespace FunctionCode

theorem slotOf?_of_mem {function : FunctionCode} {id : BindingId} {depth : Nat}
    (hmem : (some id, depth) ∈ function.variables) : ∃ slot, function.slotOf? id = some slot := by
  obtain ⟨var, hvar, heq⟩ := List.mem_map.mp hmem
  have hfound : (function.locals.find? fun var => var.binding == some id).isSome :=
    List.find?_isSome.mpr ⟨var, hvar, by simp [(Prod.mk.inj heq).1]⟩
  obtain ⟨found, hfound⟩ := Option.isSome_iff_exists.mp hfound
  exact ⟨found.slot, by rw [slotOf?, hfound]; rfl⟩

theorem skeleton_capture (function : FunctionCode) (slot : Nat) :
    (function.capture slot).skeleton = function.skeleton := by
  refine Prod.ext ?_ rfl
  change ((function.locals.map _).map _ : List _) = function.locals.map _
  rw [List.map_map]
  refine List.map_congr_left fun var _ => ?_
  simp only [Function.comp]
  split <;> rfl

/-- A capture more leaves the variables, or is one too many. -/
theorem skeleton_addCapture (function : FunctionCode) (capture : Capture) :
    (∃ index after, function.addCapture capture = .ok (index, after) ∧ after.skeleton = function.skeleton) ∨
      ∃ fault, function.addCapture capture = .error fault ∧ fault.IsRejection := by
  unfold addCapture
  split
  · exact .inl ⟨_, _, rfl, rfl⟩
  · split
    · exact .inr ⟨_, rfl, _, rfl, by simp [Diagnostic.plain]⟩
    · exact .inl ⟨_, _, rfl, rfl⟩

/-- A variable of a frame around is captured, unless that is one too many. -/
theorem skeleton_resolveCapture {id : BindingId} (inner : FunctionCode) (outer : List FunctionCode)
    (hreach : ∃ frame ∈ outer, ∃ depth, (some id, depth) ∈ frame.variables) :
    (∃ index innerAfter outerAfter, resolveCapture id inner outer = .ok (some (index, innerAfter, outerAfter)) ∧
      innerAfter.skeleton = inner.skeleton ∧ outerAfter.map skeleton = outer.map skeleton) ∨
      ∃ fault, resolveCapture id inner outer = .error fault ∧ fault.IsRejection := by
  induction outer generalizing inner with
  | nil =>
    obtain ⟨frame, hframe, -⟩ := hreach
    cases hframe
  | cons outer rest ih =>
    unfold resolveCapture
    cases hslot : outer.slotOf? id with
    | some slot =>
      dsimp only
      rcases skeleton_addCapture inner ⟨slot, true⟩ with ⟨index, after, hadded, hsame⟩ | ⟨fault, hadded, hfault⟩
      · rw [hadded]
        refine .inl ⟨index, after, outer.capture slot :: rest, rfl, hsame, ?_⟩
        rw [List.map_cons, List.map_cons, skeleton_capture]
      · rw [hadded]
        exact .inr ⟨fault, rfl, hfault⟩
    | none =>
      dsimp only
      have hrest : ∃ frame ∈ rest, ∃ depth, (some id, depth) ∈ frame.variables := by
        obtain ⟨frame, hframe, depth, hmem⟩ := hreach
        rcases List.mem_cons.mp hframe with rfl | hframe
        · obtain ⟨slot, hfound⟩ := slotOf?_of_mem hmem
          rw [hslot] at hfound
          cases hfound
        · exact ⟨frame, hframe, depth, hmem⟩
      rcases ih outer hrest with ⟨place, outerAfter, restAfter, hfound, houter, hothers⟩ | ⟨fault, hfound, hfault⟩
      · rw [hfound]
        dsimp only [bind, Except.bind]
        rcases skeleton_addCapture inner ⟨place, false⟩ with ⟨index, after, hadded, hsame⟩ | ⟨fault, hadded, hfault⟩
        · rw [hadded]
          refine .inl ⟨index, after, outerAfter :: restAfter, rfl, hsame, ?_⟩
          rw [List.map_cons, List.map_cons, houter, hothers]
        · rw [hadded]
          exact .inr ⟨fault, rfl, hfault⟩
      · rw [hfound]
        exact .inr ⟨fault, rfl, hfault⟩

end FunctionCode

mutual

/-- A pattern declares its variables, and nothing else. -/
theorem Pattern.outline_declares (pattern : Pattern) {naming : Naming} (hmem : naming ∈ pattern.outline) :
    ∃ name, ∃ var ∈ pattern.vars, naming = .declares name { binding := var.binding } := by
  cases pattern with
  | bind location name binding => exact ⟨name, _, List.mem_singleton_self _, List.mem_singleton.mp hmem⟩
  | destructure location fields => exact Pattern.fieldOutlines_declares fields hmem
  | wildcard | literal => cases hmem
termination_by structural pattern

theorem Pattern.fieldOutlines_declares (fields : List (String × Pattern)) {naming : Naming}
    (hmem : naming ∈ Pattern.fieldOutlines fields) :
    ∃ name, ∃ var ∈ Pattern.fieldVariables fields, naming = .declares name { binding := var.binding } := by
  cases fields with
  | nil => cases hmem
  | cons field rest =>
    obtain ⟨label, pattern⟩ := field
    rcases List.mem_append.mp hmem with hmem | hmem
    · obtain ⟨name, var, hvar, heq⟩ := pattern.outline_declares hmem
      exact ⟨name, var, List.mem_append_left _ hvar, heq⟩
    · obtain ⟨name, var, hvar, heq⟩ := Pattern.fieldOutlines_declares rest hmem
      exact ⟨name, var, List.mem_append_right _ hvar, heq⟩
termination_by structural fields

end

namespace Emit

open Emitter

variable {α β : Type} {step : Emit α} {next : α → Emit β} {scopes inner last : Scopes} {location : Location}

/-- Code generation ends in some state, or rejects the program. -/
def Ends (outcome : Except LoweringFault (α × Emitter)) (post : α → Emitter → Prop) : Prop :=
  match outcome with
  | .ok (value, final) => post value final
  | .error fault => fault.IsRejection

theorem Ends.mono {outcome : Except LoweringFault (α × Emitter)} {post weaker : α → Emitter → Prop}
    (h : Ends outcome post) (hweaker : ∀ value final, post value final → weaker value final) : Ends outcome weaker := by
  cases outcome with
  | error fault => exact h
  | ok pair => exact hweaker _ _ h

theorem ends_bind {emitter : Emitter} {middle : α → Emitter → Prop} {post : β → Emitter → Prop}
    (hstep : Ends (step emitter) middle) (hnext : ∀ value final, middle value final → Ends (next value final) post) :
    Ends ((step >>= next) emitter) post := by
  change Ends (step emitter >>= fun pair => next pair.1 pair.2) post
  cases hrun : step emitter with
  | error fault =>
    rw [hrun] at hstep
    exact hstep
  | ok pair =>
    rw [hrun] at hstep
    exact hnext pair.1 pair.2 hstep

/-- A step from where some names are visible to where others are. All that is visible stays within reach. -/
def Serves (scopes : Scopes) (step : Emit α) (after : Scopes) : Prop :=
  ∀ emitter : Emitter, emitter.Shows scopes →
    Ends (step emitter) fun _ final => final.Shows after ∧ emitter.Retains final

theorem Serves.bind (hstep : Serves scopes step inner) (hnext : ∀ value, Serves inner (next value) last) :
    Serves scopes (step >>= next) last :=
  fun emitter hshows => ends_bind (hstep emitter hshows) fun value final h =>
    (hnext value final h.1).mono fun _ _ hlast => ⟨hlast.1, h.2.trans hlast.2⟩

theorem serves_pure {value : α} : Serves scopes (pure value) scopes :=
  fun emitter hshows => ⟨hshows, .refl emitter⟩

/-- A step that has nothing to do with variables. -/
def IsStill (step : Emit α) : Prop :=
  ∀ emitter : Emitter, Ends (step emitter) fun _ final =>
    final.globals = emitter.globals ∧ final.current.skeleton = emitter.current.skeleton ∧
      final.enclosing = emitter.enclosing

theorem IsStill.retains (hstep : IsStill step) (emitter : Emitter) :
    Ends (step emitter) fun _ final => emitter.Retains final :=
  (hstep emitter).mono fun _ _ h => .of_same h.1 h.2.1 (congrArg _ h.2.2)

theorem IsStill.serves (hstep : IsStill step) : Serves scopes step scopes :=
  fun emitter hshows => (hstep.retains emitter).mono fun _ _ hretains => ⟨hshows.retains hretains, hretains⟩

theorem IsStill.before (hstep : IsStill step) (hnext : ∀ value, Serves scopes (next value) last) :
    Serves scopes (step >>= next) last :=
  hstep.serves.bind hnext

theorem Serves.after (hstep : Serves scopes step last) (hnext : ∀ value, IsStill (next value)) :
    Serves scopes (step >>= next) last :=
  hstep.bind fun value => (hnext value).serves

section Still

variable {code : Opcode} {slot : Nat} {what : String}

theorem still_pure {value : α} : IsStill (pure value : Emit α) :=
  fun _ => ⟨rfl, rfl, rfl⟩

theorem still_get : IsStill (get : Emit Emitter) :=
  fun _ => ⟨rfl, rfl, rfl⟩

theorem IsStill.bind (hstep : IsStill step) (hnext : ∀ value, IsStill (next value)) : IsStill (step >>= next) :=
  fun emitter => ends_bind (hstep emitter) fun value final h => (hnext value final).mono fun _ _ hlast =>
    ⟨hlast.1.trans h.1, hlast.2.1.trans h.2.1, hlast.2.2.trans h.2.2⟩

theorem still_ite {condition : Prop} [Decidable condition] {other : Emit α} (hyes : IsStill step)
    (hno : IsStill other) :
    IsStill (if condition then step else other) := by
  split
  · exact hyes
  · exact hno

theorem still_reject {diagnostic : Diagnostic}
    (hkind : diagnostic.kind ∈ [ErrorKind.breakOutsideLoop, .limitExceeded]) :
    IsStill (reject diagnostic : Emit α) :=
  fun _ => ⟨diagnostic, rfl, hkind⟩

theorem still_limit {message : String} : IsStill (limit message location : Emit α) :=
  still_reject (by simp)

/-- A limit is checked first. -/
theorem still_limited {condition : Prop} [Decidable condition] {message : String} {rest : PUnit → Emit α}
    (hrest : ∀ value, IsStill (rest value)) :
    IsStill (if condition then (do
      let value ← limit message location
      rest value) else rest ⟨⟩) :=
  still_ite (still_limit.bind hrest) (hrest _)

theorem still_forM {entries : List β} {work : β → Emit PUnit} (hwork : ∀ entry, IsStill (work entry)) :
    IsStill (entries.forM work) := by
  induction entries with
  | nil => exact still_pure
  | cons entry rest ih => exact (hwork entry).bind fun _ => ih

theorem still_modifyCurrent {f : FunctionCode → FunctionCode} (hsame : ∀ code, (f code).skeleton = code.skeleton) :
    IsStill (modifyCurrent f) :=
  fun _ => ⟨rfl, hsame _, rfl⟩

theorem still_withChunk {f : Chunk → Chunk × α} : IsStill (withChunk f) :=
  fun _ => ⟨rfl, rfl, rfl⟩

theorem still_op : IsStill (op code location) :=
  still_modifyCurrent fun _ => rfl

theorem still_short : IsStill (short slot location) :=
  still_modifyCurrent fun _ => rfl

theorem still_opShort : IsStill (opShort code slot location) :=
  still_op.bind fun _ => still_short

theorem still_opIndex : IsStill (opIndex code slot location what) :=
  still_limited fun _ => still_opShort

theorem still_constant {value : Scalar} : IsStill (constant value location) :=
  still_withChunk.bind fun _ => still_opIndex

theorem still_onString {text : String} : IsStill (onString code text location) :=
  still_withChunk.bind fun _ => still_opIndex

theorem still_literal {value : Literal} : IsStill (literal value location) := by
  unfold literal
  split
  · exact still_onString
  · exact still_op
  · exact still_op
  · exact still_op
  · exact still_constant

theorem still_deeper {nesting : Nat} : IsStill (deeper nesting location) :=
  still_limited fun _ => still_pure

theorem still_jump : IsStill (jump code location) :=
  still_withChunk

theorem still_position : IsStill position :=
  still_get.bind fun _ => still_pure

theorem still_land {place : Nat} : IsStill (land place location) :=
  still_position.bind fun _ => still_limited fun _ => still_modifyCurrent fun _ => rfl

theorem still_landAll {places : List Nat} : IsStill (landAll places location) :=
  still_forM fun _ => still_land

theorem still_back {target : Nat} : IsStill (back target location) :=
  still_op.bind fun _ => still_position.bind fun _ => still_limited fun _ => still_short

theorem still_drops {vars : List Local} : IsStill (vars.forM (drop · location)) :=
  still_forM fun _ => still_op

theorem still_unwind {depth : Nat} : IsStill (unwind depth location) :=
  still_get.bind fun _ => still_drops

theorem still_localsFrom {count : Nat} : IsStill (localsFrom slot count) := by
  unfold localsFrom
  exact still_get.bind fun _ => still_pure

theorem still_enterLoop : IsStill enterLoop :=
  still_modifyCurrent fun _ => rfl

theorem still_landSkipping : IsStill (landSkipping location) :=
  still_get.bind fun _ => still_landAll

theorem still_exitLoop : IsStill (exitLoop location) :=
  still_get.bind fun _ => still_landAll.bind fun _ => still_modifyCurrent fun _ => rfl

theorem still_jumpFromLoop {word : String} {add : LoopJumps → Nat → LoopJumps} :
    IsStill (jumpFromLoop word add location) := by
  refine still_get.bind fun emitter => ?_
  split
  · exact still_reject (by simp)
  · refine still_unwind.bind fun _ => still_jump.bind fun _ => still_modifyCurrent fun code => ?_
    split <;> rfl

end Still

section Variables

/-- A name is within reach. -/
theorem serves_access {resolution : Resolution} {how : Access}
    (hreaches : ∀ emitter : Emitter, emitter.Shows scopes →
      WithinReach emitter.globals (emitter.current :: emitter.enclosing) resolution) :
    Serves scopes (access resolution how location) scopes := by
  intro emitter hshows
  obtain ⟨binding, isGlobal⟩ := resolution
  obtain ⟨id, rfl, hreach⟩ := hreaches emitter hshows
  have hdone {code : Opcode} {slot : Nat} {middle : Emitter} (hretains : emitter.Retains middle) :
      Ends (opShort code slot location middle) fun _ final => final.Shows scopes ∧ emitter.Retains final :=
    (still_opShort.retains middle).mono fun _ _ h => ⟨hshows.retains (hretains.trans h), hretains.trans h⟩
  cases isGlobal with
  | true =>
    obtain ⟨slot, hslot⟩ := Option.isSome_iff_exists.mp (show (emitter.globals.slots[id]?).isSome from hreach)
    have hfound : Ends (globalSlot id location emitter) fun _ final => emitter = final := by
      unfold globalSlot
      rw [get_bind, hslot]
      rfl
    exact ends_bind hfound fun slot final h => h ▸ hdone (.refl _)
  | false =>
    replace hreach : ∃ frame ∈ emitter.current :: emitter.enclosing, ∃ depth, (some id, depth) ∈ frame.variables :=
      hreach
    simp only [access, Bool.false_eq_true, if_false]
    rw [get_bind]
    cases hslot : emitter.current.slotOf? id with
    | some slot => exact hdone (.refl _)
    | none =>
      have houter : ∃ frame ∈ emitter.enclosing, ∃ depth, (some id, depth) ∈ frame.variables := by
        obtain ⟨frame, hframe, depth, hmem⟩ := hreach
        rcases List.mem_cons.mp hframe with rfl | hframe
        · obtain ⟨slot, hfound⟩ := FunctionCode.slotOf?_of_mem hmem
          rw [hslot] at hfound
          cases hfound
        · exact ⟨frame, hframe, depth, hmem⟩
      have hcaptured : Ends (captureOf? id emitter) fun found final => found.isSome ∧ emitter.Retains final := by
        unfold captureOf?
        rw [get_bind]
        rcases FunctionCode.skeleton_resolveCapture emitter.current emitter.enclosing houter with
          ⟨index, inner, outer, hrun, hinner, houter⟩ | ⟨fault, hrun, hfault⟩
        · rw [hrun]
          exact ⟨rfl, .of_same rfl hinner houter⟩
        · rw [hrun]
          exact hfault
      refine ends_bind hcaptured fun found final h => ?_
      obtain ⟨index, rfl⟩ := Option.isSome_iff_exists.mp h.1
      exact hdone h.2

/-- A name that is visible is within reach. -/
theorem serves_name {name : String} {resolution : Resolution} {how : Access}
    (hvisible : scopes.visible name = some resolution) : Serves scopes (access resolution how location) scopes :=
  serves_access fun _ hshows => hshows.reaches name resolution hvisible

/-- What a declaration puts into the frame. -/
theorem ends_declareLocal (binding : Option BindingId) (emitter : Emitter) :
    Ends (declareLocal binding location emitter) fun _ final =>
      emitter.Retains final ∧ (binding, emitter.current.depth) ∈ final.current.variables := by
  unfold declareLocal
  rw [get_bind]
  dsimp only
  split
  · exact ⟨_, rfl, by simp⟩
  · refine ⟨⟨rfl, rfl, ⟨[(binding, emitter.current.depth)], rfl, fun var hvar => ?_⟩, rfl⟩, List.mem_cons_self ..⟩
    rw [List.mem_singleton.mp hvar]

theorem serves_declareLocal {binding : Option BindingId} : Serves scopes (declareLocal binding location) scopes :=
  fun emitter hshows => (ends_declareLocal binding emitter).mono fun _ _ h => ⟨hshows.retains h.1, h.1⟩

/-- The variables of a pattern, from left to right. -/
theorem ends_declareVariables (vars : List Pattern.Variable) (emitter : Emitter) :
    Ends (declareVariables vars emitter) fun _ final =>
      emitter.Retains final ∧ ∀ var ∈ vars, ∃ depth, (var.binding, depth) ∈ final.current.variables := by
  induction vars generalizing emitter with
  | nil => exact ⟨.refl _, fun _ h => by cases h⟩
  | cons var rest ih =>
    change Ends (((declareLocal var.binding var.location >>= fun _ => pure ()) >>= fun _ =>
      declareVariables rest) emitter) _
    rw [bind_assoc]
    refine ends_bind (ends_declareLocal var.binding emitter) fun _ middle hfirst => ?_
    refine (ih middle).mono fun _ final hrest => ⟨hfirst.1.trans hrest.1, List.forall_mem_cons.mpr ⟨?_, hrest.2⟩⟩
    exact ⟨_, hrest.1.mem hfirst.2⟩

/-- The parameters of a clause: each variable is in the frame, or among those that come later. -/
theorem ends_declareParameters (parameters : List Pattern) (matchers : List Matcher) (vars : List Pattern.Variable)
    (emitter : Emitter) : Ends (declareParameters parameters matchers vars emitter) fun found final =>
      emitter.Retains final ∧ vars ⊆ found.2 ∧ ∀ pattern ∈ parameters, ∀ var ∈ pattern.vars,
        (∃ depth, (var.binding, depth) ∈ final.current.variables) ∨ var ∈ found.2 := by
  induction parameters generalizing matchers vars emitter with
  | nil => exact ⟨.refl _, List.Subset.refl _, fun _ h => by cases h⟩
  | cons pattern rest ih =>
    -- Any pattern that is no name gets a hidden slot, and its variables wait.
    have hplain (hrun : declareParameters (pattern :: rest) matchers vars =
        declareLocal none pattern.location >>= fun _ =>
          declareParameters rest (pattern.toMatcher :: matchers) (vars ++ pattern.vars)) :
        Ends (declareParameters (pattern :: rest) matchers vars emitter) fun found final =>
          emitter.Retains final ∧ vars ⊆ found.2 ∧ ∀ other ∈ pattern :: rest, ∀ var ∈ other.vars,
            (∃ depth, (var.binding, depth) ∈ final.current.variables) ∨ var ∈ found.2 := by
      rw [hrun]
      refine ends_bind (ends_declareLocal none emitter) fun _ middle hfirst => ?_
      refine (ih _ _ middle).mono fun found final hrest => ?_
      obtain ⟨hretains, hlisted, hothers⟩ := hrest
      refine ⟨hfirst.1.trans hretains, fun var h => hlisted (List.mem_append_left _ h), ?_⟩
      exact List.forall_mem_cons.mpr ⟨fun var hvar => .inr (hlisted (List.mem_append_right _ hvar)), hothers⟩
    cases pattern with
    | bind place name binding =>
      refine ends_bind (ends_declareLocal binding emitter) fun _ middle hfirst => ?_
      refine (ih _ _ middle).mono fun found final hrest => ?_
      obtain ⟨hretains, hlisted, hothers⟩ := hrest
      refine ⟨hfirst.1.trans hretains, hlisted, List.forall_mem_cons.mpr ⟨fun var hvar => .inl ?_, hothers⟩⟩
      obtain rfl := List.mem_singleton.mp hvar
      exact ⟨_, hretains.mem hfirst.2⟩
    | _ => exact hplain rfl

end Variables

section Resolved

theorem declares_of_mem {outline : List Naming} (hresolves : Throughout Scopes.Resolves scopes outline) {name : String}
    {resolution : Resolution} (hmem : .declares name resolution ∈ outline) : ∃ id, resolution.binding = some id := by
  induction outline generalizing scopes with
  | nil => cases hmem
  | cons naming rest ih =>
    rcases List.mem_cons.mp hmem with rfl | hmem
    · exact Option.isSome_iff_exists.mp hresolves.1.1
    · exact ih hresolves.2 hmem

/-- The variables of patterns become visible, in whatever order they got into the frame. -/
theorem shows_patterns {patterns : List Pattern} {emitter : Emitter} (hshows : emitter.Shows scopes)
    (hresolves : Throughout Scopes.Resolves scopes (patterns.flatMap Pattern.outline))
    (hdeclared : ∀ pattern ∈ patterns, ∀ var ∈ pattern.vars,
      ∃ depth, (var.binding, depth) ∈ emitter.current.variables) :
    emitter.Shows (scopes.afterAll (patterns.flatMap Pattern.outline)) := by
  refine hshows.declares fun naming hmem => ?_
  obtain ⟨pattern, hpattern, hnaming⟩ := List.mem_flatMap.mp hmem
  obtain ⟨name, var, hvar, rfl⟩ := pattern.outline_declares hnaming
  obtain ⟨id, hid⟩ := declares_of_mem hresolves hmem
  obtain ⟨depth, hframe⟩ := hdeclared pattern hpattern var hvar
  exact ⟨name, id, depth, by rw [show var.binding = some id from hid], (show var.binding = some id from hid) ▸ hframe⟩

end Resolved

section Scoped

theorem Serves.whether {condition : Prop} [Decidable condition] {first : Emit PUnit} {rest : PUnit → Emit α}
    (hfirst : IsStill first) (hrest : ∀ value, Serves scopes (rest value) last) :
    Serves scopes (if condition then (do
      let value ← first
      rest value) else rest ⟨⟩) last := by
  split
  · exact hfirst.before hrest
  · exact hrest _

/-- The variables of a scope are dropped when it closes, and those outside stay. -/
theorem ends_exitScope {emitter final : Emitter}
    (hshallow : ∀ var ∈ emitter.current.variables, var.2 ≤ emitter.current.depth)
    (hretains : emitter.opened.Retains final) : Ends (exitScope final) fun _ closed => emitter.Retains closed := by
  unfold exitScope
  rw [get_bind]
  refine ends_bind (still_drops final) fun _ middle hmiddle => ?_
  obtain ⟨hglobals, -, henclosing⟩ := hmiddle
  have hdepth : final.current.depth - 1 = emitter.current.depth := by
    rw [hretains.depth]
    rfl
  refine .of_same (hglobals.trans hretains.globals) (Prod.ext ?_ hdepth) (by
    change middle.enclosing.map _ = _
    rw [henclosing]
    exact hretains.enclosing)
  change (final.current.locals.span (fun var => final.current.depth - 1 < var.depth)).2.map _ = _
  -- What the scope declared stands in front, one level deeper than anything outside.
  obtain ⟨declared, heq, hdeclared⟩ := hretains.frame
  rw [hdepth, List.span_eq_takeWhile_dropWhile]
  have hdrop : (final.current.variables.dropWhile fun var => emitter.current.depth < var.2) =
      (final.current.locals.dropWhile fun var => emitter.current.depth < var.depth).map fun var =>
        (var.binding, var.depth) :=
    List.dropWhile_map ..
  rw [← hdrop, heq, List.dropWhile_append_of_pos fun var hvar => by simp [hdeclared var hvar, Emitter.opened]]
  refine List.dropWhile_eq_self_iff.mpr fun hlength => ?_
  rw [decide_eq_true_eq, not_lt]
  exact hshallow _ (List.getElem_mem hlength)

/-- Code in a scope that is open, up to where the scope is closed. -/
def Closes (base scopes : Scopes) (step : Emit α) (last : Scopes) : Prop :=
  ∀ emitter final : Emitter, emitter.Shows base → final.Shows scopes → emitter.opened.Retains final →
    Ends (step final) fun _ closed => closed.Shows last ∧ emitter.Retains closed

theorem serves_enterScope {rest : Emit α} (hrest : Closes scopes scopes.enter rest last) :
    Serves scopes (enterScope >>= fun _ => rest) last :=
  fun emitter hshows => hrest emitter emitter.opened hshows hshows.opened (.refl _)

theorem Serves.inside {base : Scopes} (hstep : Serves scopes step inner)
    (hnext : ∀ value, Closes base inner (next value) last) :
    Closes base scopes (step >>= next) last :=
  fun emitter final hbase hshows hretains => ends_bind (hstep final hshows) fun value middle h =>
    hnext value emitter middle hbase h.1 (hretains.trans h.2)

theorem IsStill.inside {base : Scopes} (hstep : IsStill step) (hnext : ∀ value, Closes base scopes (next value) last) :
    Closes base scopes (step >>= next) last :=
  hstep.serves.inside hnext

theorem closes_exitScope {base : Scopes} : Closes base scopes exitScope base :=
  fun _ _ hbase _ hretains => (ends_exitScope hbase.shallow hretains).mono fun _ _ h => ⟨hbase.retains h, h⟩

theorem closes_exitScope_before {base : Scopes} {rest : Emit α} (hrest : Serves base rest last) :
    Closes base scopes (exitScope >>= fun _ => rest) last :=
  fun emitter final hbase hshows hretains => ends_bind (closes_exitScope emitter final hbase hshows hretains)
    fun _ closed h => (hrest closed h.1).mono fun _ _ hlast => ⟨hlast.1, h.2.trans hlast.2⟩

/-- The emitter has gone on inside a function: what is around the function is the same. -/
def Around (before final : Emitter) : Prop :=
  final.globals = before.globals ∧
    final.enclosing.map FunctionCode.skeleton = before.enclosing.map FunctionCode.skeleton

theorem Around.trans {first second third : Emitter} (hfirst : Around first second) (hsecond : Around second third) :
    Around first third :=
  ⟨hsecond.1.trans hfirst.1, hsecond.2.trans hfirst.2⟩

/-- Everything that is visible is in the frames around the function under construction. -/
def Sheltered (scopes : Scopes) (emitter : Emitter) : Prop :=
  ∀ name resolution, scopes.visible name = some resolution → WithinReach emitter.globals emitter.enclosing resolution

theorem Sheltered.around {before final : Emitter} (hsheltered : Sheltered scopes before)
    (haround : Around before final) :
    Sheltered scopes final := by
  intro name resolution h
  rw [haround.1]
  exact (hsheltered name resolution h).mono fun _ hframe => same_variables haround.2 hframe

/-- Code inside a function that does not depend on what the function has declared. -/
def Nests (scopes : Scopes) (step : Emit α) : Prop :=
  ∀ emitter : Emitter, Sheltered scopes emitter → Ends (step emitter) fun _ final => Around emitter final

/-- Code in a clause, with what comes after the clause. -/
def Follows (base scopes : Scopes) (step : Emit α) : Prop :=
  ∀ emitter : Emitter, Sheltered base emitter → emitter.Shows scopes → Ends (step emitter) fun _ final =>
    Around emitter final

theorem Serves.follows {base : Scopes} (hstep : Serves scopes step inner)
    (hnext : ∀ value, Follows base inner (next value)) :
    Follows base scopes (step >>= next) :=
  fun emitter hsheltered hshows => ends_bind (hstep emitter hshows) fun value middle h =>
    have haround : Around emitter middle := ⟨h.2.globals, h.2.enclosing⟩
    (hnext value middle (hsheltered.around haround) h.1).mono fun _ _ => haround.trans

theorem Nests.follows {base : Scopes} (hstep : Nests base step) : Follows base scopes step :=
  fun emitter hsheltered _ => hstep emitter hsheltered

/-- A clause starts with a frame that holds nothing. -/
theorem nests_enterClause {rest : Emit α} (hrest : Follows scopes scopes.enter rest) :
    Nests scopes (enterClause >>= fun _ => rest) := by
  intro emitter hsheltered
  refine hrest { emitter with current := { emitter.current with locals := [], loops := [], depth := 1 } } hsheltered ?_
  refine ⟨fun name resolution h => (hsheltered name resolution h).mono fun frame hframe => ?_, fun _ h => by cases h⟩
  exact ⟨frame, List.mem_cons_of_mem _ hframe, List.Subset.refl _⟩

/-- A function is built inside the frames around it. -/
theorem serves_function {nesting : Nat} {name : String} {isProc : Bool} {clauses : List Clause}
    (hclauses : Nests scopes (compileClauses nesting location clauses)) :
    Serves scopes (compileFunction nesting location ⟨name, isProc, clauses⟩) scopes := by
  intro emitter hshows
  change Ends ((compileClauses nesting location clauses >>= fun _ => op .noMatchingOverload location >>= fun _ =>
    exitFunction name isProc location)
      { emitter with current := {}, enclosing := emitter.current :: emitter.enclosing }) _
  refine ends_bind (hclauses _ hshows.reaches) fun _ middle hmiddle => ?_
  refine ends_bind (still_op middle) fun _ built hbuilt => ?_
  have hglobals : built.globals = emitter.globals := hbuilt.1.trans hmiddle.1
  have henclosing : built.enclosing.map FunctionCode.skeleton =
      emitter.current.skeleton :: emitter.enclosing.map FunctionCode.skeleton := by
    rw [hbuilt.2.2]
    exact hmiddle.2
  obtain ⟨globals, current, enclosing⟩ := built
  cases enclosing with
  | nil => cases henclosing
  | cons outer rest =>
    obtain ⟨houter, hothers⟩ := List.cons.inj henclosing
    have hretains : emitter.Retains ⟨globals, outer, rest⟩ := .of_same hglobals houter hothers
    unfold exitFunction
    rw [get_bind]
    have hlast : IsStill (withChunk (fun chunk => chunk.addFunction (some
        { name := if name.isEmpty then "<lambda>" else name, isProc, captures := current.captures,
          chunk := some current.chunk, maxSlots := current.maxLocals })) >>= fun index =>
            opIndex .closure index location "functions") :=
      still_withChunk.bind fun _ => still_opIndex
    exact (hlast.retains ⟨globals, outer, rest⟩).mono fun _ _ h => ⟨hshows.retains (hretains.trans h), hretains.trans h⟩

end Scoped

end Emit

end OwnScript
