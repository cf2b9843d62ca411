import OwnScript.Proofs.Lowering.Acceptance
import OwnScript.Proofs.Lowering.Generation

/-!
Construction keeps code in order. Every step of code generation, from the writing of one instruction up to
a whole statement, leaves the function under construction in order: its own code, the slots of its
variables and what it captures from the functions around it. Jumps are pending from where they are
written to where they land; those out of a loop belong to the loop until it is closed.
-/

namespace OwnScript

namespace FunctionCode

/-- A function under construction while code is generated for a function inside it: it may have to capture
more, and is the same otherwise. -/
structure Waits (before after : FunctionCode) : Prop where
  chunk : after.chunk = before.chunk
  loops : after.loops = before.loops
  maxLocals : after.maxLocals = before.maxLocals
  captures : before.captures.size ≤ after.captures.size

theorem Waits.refl (function : FunctionCode) : function.Waits function :=
  ⟨rfl, rfl, rfl, le_rfl⟩

theorem Waits.trans {first second third : FunctionCode} (hfirst : first.Waits second)
    (hsecond : second.Waits third) : first.Waits third :=
  ⟨hsecond.chunk.trans hfirst.chunk, hsecond.loops.trans hfirst.loops,
    hsecond.maxLocals.trans hfirst.maxLocals, hfirst.captures.trans hsecond.captures⟩

theorem waits_trans {first second third : List FunctionCode} (hfirst : List.Forall₂ Waits first second)
    (hsecond : List.Forall₂ Waits second third) : List.Forall₂ Waits first third := by
  induction hfirst generalizing third with
  | nil => exact hsecond
  | cons hfunction _ ih =>
    cases hsecond with
    | cons hnext hrest => exact .cons (hfunction.trans hnext) (ih hrest)

/-- The slots of variables are counted, and operands can refer to all slots and captures. -/
structure Roomy (function : FunctionCode) : Prop where
  slots : ∀ var ∈ function.locals, var.slot < function.maxLocals
  few : function.maxLocals ≤ maxOperand
  captures : function.captures.size ≤ maxOperand

/-- What a function captures is there in the function around it. -/
def CapturesIn (inner outer : FunctionCode) : Prop :=
  ∀ capture ∈ inner.captures,
    capture.index < if capture.isLocal then outer.maxLocals else outer.captures.size

theorem CapturesIn.waits {inner outer later : FunctionCode} (hcaptures : inner.CapturesIn outer)
    (hwaits : outer.Waits later) : inner.CapturesIn later := by
  intro capture hcapture
  have hindex := hcaptures capture hcapture
  have hmore := hwaits.captures
  rw [hwaits.maxLocals]
  split at hindex <;> simp_all
  omega

/-- Functions from the inside out, each with its captures in the next. The outermost captures nothing. -/
def Chained : FunctionCode → List FunctionCode → Prop
  | function, [] => function.Roomy ∧ function.captures = #[]
  | function, outer :: rest => function.Roomy ∧ function.CapturesIn outer ∧ Chained outer rest

theorem Chained.roomy {function : FunctionCode} {outer : List FunctionCode} (hchained : function.Chained outer) :
    function.Roomy := by
  cases outer with
  | nil => exact hchained.1
  | cons => exact hchained.1

theorem Chained.of_captures {function other : FunctionCode} {outer : List FunctionCode}
    (hchained : function.Chained outer) (hcaptures : other.captures = function.captures)
    (hroomy : other.Roomy) : other.Chained outer := by
  cases outer with
  | nil => exact ⟨hroomy, hcaptures.trans hchained.2⟩
  | cons outer rest =>
    refine ⟨hroomy, fun capture hcapture => hchained.2.1 capture ?_, hchained.2.2⟩
    rwa [← hcaptures]

theorem roomy_capture {function : FunctionCode} (hroomy : function.Roomy) (slot : Nat) :
    (function.capture slot).Roomy := by
  refine ⟨fun var hvar => ?_, hroomy.few, hroomy.captures⟩
  obtain ⟨old, hold, rfl⟩ := List.mem_map.mp hvar
  split
  · exact hroomy.slots old hold
  · exact hroomy.slots old hold

/-- A capture is found among those of the function or added to them. -/
theorem addCapture_cases {function after : FunctionCode} {capture : Capture} {index : Nat}
    (hadded : function.addCapture capture = .ok (index, after)) (hroomy : function.Roomy) :
    function.Waits after ∧ after.locals = function.locals ∧ index < after.captures.size ∧ after.Roomy ∧
      ∀ other ∈ after.captures, other ∈ function.captures ∨ other = capture := by
  unfold addCapture at hadded
  split at hadded
  · rename_i found hfound
    cases hadded
    obtain ⟨hindex, -⟩ := Array.findIdx?_eq_some_iff_getElem.mp hfound
    exact ⟨.refl _, rfl, hindex, hroomy, fun other h => .inl h⟩
  · split at hadded
    · cases hadded
    · rename_i hroom
      cases hadded
      have hfew : function.captures.size < maxOperand := Nat.lt_of_not_le hroom
      refine ⟨⟨rfl, rfl, rfl, by simp⟩, rfl, by simp, ⟨hroomy.slots, hroomy.few, ?_⟩,
        fun other h => Array.mem_push.mp h⟩
      rw [Array.size_push]
      exact hfew

theorem resolveCapture_chained {id : BindingId} {inner after : FunctionCode} {outer outerAfter : List FunctionCode}
    {index : Nat} (hchained : inner.Chained outer)
    (hresolved : resolveCapture id inner outer = .ok (some (index, after, outerAfter))) :
    inner.Waits after ∧ after.locals = inner.locals ∧ index < after.captures.size ∧
      List.Forall₂ Waits outer outerAfter ∧ after.Chained outerAfter := by
  induction outer generalizing inner after outerAfter index with
  | nil => cases hresolved
  | cons outer rest ih =>
    obtain ⟨hroomy, hcaptures, hrest⟩ := hchained
    unfold resolveCapture at hresolved
    cases hslot : outer.slotOf? id with
    | some slot =>
      rw [hslot] at hresolved
      obtain ⟨⟨place, added⟩, hadded, hdone⟩ := except_bind_eq_ok.mp hresolved
      cases hdone
      obtain ⟨hwaits, hlocals, hindex, hroomy, hmem⟩ := addCapture_cases hadded hroomy
      have houter : outer.Waits (outer.capture slot) := ⟨rfl, rfl, rfl, le_rfl⟩
      refine ⟨hwaits, hlocals, hindex, .cons houter (List.forall₂_same.mpr fun f _ => .refl f), hroomy,
        fun capture hcapture => ?_, hrest.of_captures rfl (roomy_capture hrest.roomy slot)⟩
      rcases hmem capture hcapture with hold | rfl
      · exact hcaptures.waits houter capture hold
      · obtain ⟨var, hfound, rfl⟩ := Option.map_eq_some_iff.mp hslot
        exact hrest.roomy.slots var (List.mem_of_find?_eq_some hfound)
    | none =>
      rw [hslot] at hresolved
      obtain ⟨found, hfurther, hresolved⟩ := except_bind_eq_ok.mp hresolved
      cases found with
      | none => cases hresolved
      | some found =>
        obtain ⟨place, outer', rest'⟩ := found
        obtain ⟨houter, -, hplace, hothers, hchained⟩ := ih hrest hfurther
        obtain ⟨⟨place', added⟩, hadded, hdone⟩ := except_bind_eq_ok.mp hresolved
        cases hdone
        obtain ⟨hwaits, hlocals, hindex, hroomy, hmem⟩ := addCapture_cases hadded hroomy
        refine ⟨hwaits, hlocals, hindex, .cons houter hothers, hroomy, fun capture hcapture => ?_, hchained⟩
        rcases hmem capture hcapture with hold | rfl
        · exact hcaptures.waits houter capture hold
        · exact hplace

end FunctionCode

/-- What the operands of the function under construction may refer to. -/
def Emitter.reach (emitter : Emitter) : Reach :=
  ⟨emitter.globals.names.size, emitter.current.maxLocals, emitter.current.captures.size⟩

/-- What is known about code generation at some point. -/
structure Construction where
  globals : GlobalTable
  /-- The functions around the current one when it was started. -/
  outer : List FunctionCode
  loops : List LoopJumps
  /-- The open jumps out of loops. -/
  jumps : Set Nat
  /-- The other open jumps. -/
  pending : Set Nat
  /-- Places that control may get to. -/
  marks : Set Nat
  /-- Slots that the frame has. -/
  slots : Set Nat
  /-- The levels of functions inside the current one. -/
  levels : Nat

namespace Construction

/-- The function under construction is in order, and so are those around it. -/
structure Holds (c : Construction) (emitter : Emitter) : Prop where
  globals : emitter.globals = c.globals
  fits : c.globals.Fits
  outer : List.Forall₂ FunctionCode.Waits c.outer emitter.enclosing
  loops : emitter.current.loops = c.loops
  chained : emitter.current.Chained emitter.enclosing
  slots : ∀ slot ∈ c.slots, slot < emitter.current.maxLocals
  code : ∃ starts, emitter.current.chunk.Ordered emitter.reach c.levels (c.pending ∪ c.jumps) starts ∧
    ∀ mark ∈ c.marks, emitter.current.chunk.Lands starts mark

/-- A jump has been written that does not lead anywhere yet. -/
def await (c : Construction) (place : Nat) : Construction :=
  { c with pending := insert place c.pending }

/-- Several jumps have been written that do not lead anywhere yet. -/
def awaitAll (c : Construction) (places : List Nat) : Construction :=
  { c with pending := c.pending ∪ { place | place ∈ places } }

/-- A place to come back to. -/
def mark (c : Construction) (place : Nat) : Construction :=
  { c with marks := insert place c.marks }

/-- The frame has a slot. -/
def withSlot (c : Construction) (slot : Nat) : Construction :=
  { c with slots := insert slot c.slots }

theorem await_comm (c : Construction) (first second : Nat) :
    (c.await first).await second = (c.await second).await first := by
  simp only [await, Set.insert_comm]

theorem awaitAll_nil (c : Construction) : c.awaitAll [] = c := by
  simp [awaitAll]

theorem awaitAll_cons (c : Construction) (place : Nat) (places : List Nat) :
    c.awaitAll (place :: places) = (c.awaitAll places).await place := by
  simp only [awaitAll, await, List.mem_cons, ← Set.union_insert]
  rfl

theorem await_awaitAll (c : Construction) (place : Nat) (places : List Nat) :
    (c.await place).awaitAll places = (c.awaitAll places).await place := by
  simp only [awaitAll, await, Set.insert_union]

namespace Holds

variable {c : Construction} {emitter : Emitter}

/-- Less is known. -/
theorem forget (h : c.Holds emitter) {marks slots : Set Nat} (hmarks : marks ⊆ c.marks) (hslots : slots ⊆ c.slots) :
    Holds { c with marks, slots } emitter := by
  obtain ⟨starts, hordered, hlands⟩ := h.code
  exact ⟨h.globals, h.fits, h.outer, h.loops, h.chained, fun slot hslot => h.slots slot (hslots hslot), starts,
    hordered, fun mark hmark => hlands mark (hmarks hmark)⟩

/-- Open jumps may be counted among those out of loops or apart from them. -/
theorem regroup (h : c.Holds emitter) {pending jumps : Set Nat} (hsame : pending ∪ jumps = c.pending ∪ c.jumps) :
    Holds { c with pending, jumps } emitter := by
  obtain ⟨starts, hordered, hlands⟩ := h.code
  refine ⟨h.globals, h.fits, h.outer, h.loops, h.chained, h.slots, starts, ?_, hlands⟩
  change emitter.current.chunk.Ordered _ _ (pending ∪ jumps) _
  rwa [hsame]

/-- The code goes on and nothing else changes. -/
theorem withChunk {after : Construction} (h : c.Holds emitter) {chunk : Chunk}
    (hsame : after.globals = c.globals ∧ after.outer = c.outer ∧ after.loops = c.loops ∧ after.slots = c.slots)
    (hcode : ∃ starts, chunk.Ordered emitter.reach after.levels (after.pending ∪ after.jumps) starts ∧
      ∀ mark ∈ after.marks, chunk.Lands starts mark) : after.Holds (emitter.withChunk chunk) := by
  obtain ⟨hglobals, houter, hloops, hslots⟩ := hsame
  have hroomy := h.chained.roomy
  refine ⟨hglobals ▸ h.globals, hglobals ▸ h.fits, houter ▸ h.outer, hloops ▸ h.loops,
    h.chained.of_captures rfl ⟨hroomy.slots, hroomy.few, hroomy.captures⟩, ?_, hcode⟩
  rw [hslots]
  exact h.slots

/-- One more instruction, whose operands are known to fit. -/
theorem append (h : c.Holds emitter) {longer : Chunk} {op : Opcode} {a b : Nat}
    (happends : emitter.current.chunk.Appends longer op)
    (hinstruction : longer.instructionAt? emitter.size = some (op, a, b))
    (hfit : longer.OperandsFit emitter.reach (· ∈ c.marks) emitter.size a b op) :
    c.Holds (emitter.withChunk longer) := by
  obtain ⟨starts, hordered, hlands⟩ := h.code
  have hlonger (target : Nat) (hland : emitter.current.chunk.Lands starts target) :
      longer.Lands (starts ++ [(emitter.size, op)]) target :=
    .inr (Chunk.Ordered.starts_append hland)
  refine h.withChunk ⟨rfl, rfl, rfl, rfl⟩ ⟨starts ++ [(emitter.size, op)], ?_, fun mark hmark =>
    hlonger mark (hlands mark hmark)⟩
  refine hordered.append happends (fun _ h => h) (fun _ h => .inl h) (.inr ⟨a, b, hinstruction, ?_⟩)
  exact hfit.mono (.refl _) (.refl _) fun target hmark =>
    hlonger target (hlands target hmark)

/-- A jump whose distance is to be filled in. -/
theorem jump (h : c.Holds emitter) {op : Opcode} (hforward : op.isForward = true) (location : Location) :
    (emitter.current.chunk.writeJump op location).2 = emitter.size + 1 ∧
      (c.await (emitter.size + 1)).Holds (emitter.withChunk (emitter.current.chunk.writeJump op location).1) := by
  have hcount : op.operandCount = 1 := by cases op <;> first | rfl | cases hforward
  have happends : emitter.current.chunk.Appends (emitter.current.chunk.writeJump op location).1 op :=
    Chunk.appends_pair hcount _ _
  refine ⟨by simp [Chunk.writeJump, Chunk.writeOp, Chunk.write, Emitter.size], ?_⟩
  obtain ⟨starts, hordered, hlands⟩ := h.code
  refine h.withChunk ⟨rfl, rfl, rfl, rfl⟩ ⟨starts ++ [(emitter.size, op)], ?_, fun mark hmark =>
    .inr (Chunk.Ordered.starts_append (hlands mark hmark))⟩
  refine hordered.append happends (Set.union_subset_union_left _ (Set.subset_insert ..)) (fun place hplace => ?_)
    (.inl ⟨hforward, .inl (Set.mem_insert ..)⟩)
  rcases hplace with (rfl | hpending) | hjump
  · exact .inr ⟨hforward, rfl⟩
  · exact .inl (.inl hpending)
  · exact .inl (.inr hjump)

/-- A jump lands. -/
theorem land {place : Nat} (h : (c.await place).Holds emitter) (hfits : emitter.size - place - 2 ≤ maxOperand) :
    c.Holds (emitter.withChunk (emitter.current.chunk.patchShort place (emitter.size - place - 2))) := by
  obtain ⟨starts, hordered, hlands⟩ := h.code
  have hpending : (c.await place).pending ∪ (c.await place).jumps = insert place (c.pending ∪ c.jumps) :=
    Set.insert_union
  rw [hpending] at hordered
  refine h.withChunk ⟨rfl, rfl, rfl, rfl⟩ ⟨starts, hordered.patch hfits, fun mark hmark => ?_⟩
  have hland := hlands mark hmark
  unfold Chunk.Lands at hland ⊢
  rwa [Chunk.patchShort, Array.size_setIfInBounds, Array.size_setIfInBounds]

/-- The tables get longer. -/
theorem retable (h : c.Holds emitter) {longer : Chunk} (hcode : longer.code = emitter.current.chunk.code)
    (hlocations : longer.locations = emitter.current.chunk.locations)
    (htables : emitter.current.chunk.TablesBegin longer)
    (hfunctions : ∀ function ∈ longer.functions, function ∈ emitter.current.chunk.functions ∨
      ∃ inner, function = some inner ∧
        inner.Built emitter.reach.globals emitter.reach.slots emitter.reach.captures c.levels) :
    c.Holds (emitter.withChunk longer) := by
  obtain ⟨starts, hordered, hlands⟩ := h.code
  refine h.withChunk ⟨rfl, rfl, rfl, rfl⟩ ⟨starts, hordered.retable hcode hlocations htables hfunctions,
    fun mark hmark => ?_⟩
  have hland := hlands mark hmark
  unfold Chunk.Lands at hland ⊢
  rwa [hcode]

/-- The variables of the function change, and its code does not. -/
theorem rearrange {after : Construction} (h : c.Holds emitter) {current : FunctionCode}
    {enclosing : List FunctionCode} (hchunk : current.chunk = emitter.current.chunk)
    (hslots : emitter.current.maxLocals ≤ current.maxLocals)
    (hcaptures : emitter.current.captures.size ≤ current.captures.size)
    (hsame : after.globals = c.globals ∧ after.outer = c.outer ∧ after.levels = c.levels ∧
      after.pending ∪ after.jumps = c.pending ∪ c.jumps ∧ after.marks = c.marks)
    (hloops : current.loops = after.loops) (houter : List.Forall₂ FunctionCode.Waits emitter.enclosing enclosing)
    (hchained : current.Chained enclosing) (hknown : ∀ slot ∈ after.slots, slot < current.maxLocals) :
    after.Holds { emitter with current, enclosing } := by
  obtain ⟨hglobals, hsameOuter, hlevels, hpending, hmarks⟩ := hsame
  obtain ⟨starts, hordered, hlands⟩ := h.code
  have hgrows : emitter.reach.Grows (Emitter.reach { emitter with current, enclosing }) :=
    ⟨rfl, hslots, hcaptures⟩
  refine ⟨hglobals ▸ h.globals, hglobals ▸ h.fits, ?_, hloops, hchained, hknown, starts, ?_, ?_⟩
  · rw [hsameOuter]
    exact FunctionCode.waits_trans h.outer houter
  · rw [hlevels, hpending]
    change current.chunk.Ordered _ _ _ _
    rw [hchunk]
    exact hordered.widen hgrows
  · rw [hmarks]
    change ∀ mark ∈ c.marks, current.chunk.Lands starts mark
    rw [hchunk]
    exact hlands

end Holds

end Construction

namespace Emit

variable {α β : Type}

/-- A step leads from some states to some states, if it leads anywhere. -/
def Ensures (step : Emit α) (before : Emitter → Prop) (after : α → Emitter → Prop) : Prop :=
  ∀ emitter, before emitter → ∀ value final, step emitter = .ok (value, final) → after value final

section Ensures

variable {step : Emit α} {next : α → Emit β} {before : Emitter → Prop} {after : α → Emitter → Prop}
  {last : β → Emitter → Prop}

theorem Ensures.bind (hstep : step.Ensures before after) (hnext : ∀ value, (next value).Ensures (after value) last) :
    Ensures (step >>= next) before last := by
  intro emitter hbefore value final hrun
  obtain ⟨middle, state, hfirst, hsecond⟩ := bind_eq_ok.mp hrun
  exact hnext middle state (hstep emitter hbefore middle state hfirst) value final hsecond

theorem Ensures.bind_two {γ : Type} {rest : β → Emit γ} {final : γ → Emitter → Prop}
    (hsteps : Ensures (step >>= next) before last) (hrest : ∀ value, (rest value).Ensures (last value) final) :
    Ensures (step >>= fun value => next value >>= rest) before final := by
  rw [← bind_assoc]
  exact hsteps.bind hrest

theorem ensures_pure {value : α} (hvalue : ∀ emitter, before emitter → after value emitter) :
    Ensures (pure value) before after := by
  intro emitter hbefore found final hrun
  cases hrun
  exact hvalue emitter hbefore

theorem Ensures.imp (hstep : step.Ensures before after) {weaker : α → Emitter → Prop}
    (himp : ∀ value emitter, after value emitter → weaker value emitter) : step.Ensures before weaker :=
  fun emitter hbefore value final hrun => himp value final (hstep emitter hbefore value final hrun)

theorem ensures_ite {condition : Prop} [Decidable condition] {other : Emit α}
    (hyes : condition → step.Ensures before after) (hno : ¬ condition → other.Ensures before after) :
    Ensures (if condition then step else other) before after := by
  split
  · exact hyes ‹_›
  · exact hno ‹_›

theorem ensures_exists {γ : Type} {cases : γ → Emitter → Prop} (hstep : ∀ which, step.Ensures (cases which) after) :
    step.Ensures (fun emitter => ∃ which, cases which emitter) after := by
  rintro emitter ⟨which, hcase⟩
  exact hstep which emitter hcase

theorem ensures_forM {entries : List β} {work : β → Emit PUnit} {known : Emitter → Prop}
    (hwork : ∀ entry ∈ entries, (work entry).Ensures known fun _ => known) :
    Ensures (entries.forM work) known fun _ => known := by
  induction entries with
  | nil => exact ensures_pure fun _ h => h
  | cons entry rest ih =>
    refine (hwork entry (List.mem_cons_self ..)).bind fun _ => ih fun other hother => ?_
    exact hwork other (List.mem_cons_of_mem _ hother)

end Ensures

variable {c : Construction} {location : Location}

theorem ensures_op {code : Opcode} (hcount : code.operandCount = 0) :
    (op code location).Ensures c.Holds fun _ => c.Holds := by
  intro emitter h _ final hrun
  cases hrun
  obtain ⟨happends, hinstruction⟩ := Chunk.appends_op hcount
  refine h.append happends hinstruction ?_
  cases code <;> trivial

/-- An operation with an operand that fits, and that leads where it may. -/
theorem ensures_opShort {code : Opcode} (hcount : code.operandCount = 1) {value : Nat}
    (hvalue : ∀ emitter, c.Holds emitter → value ≤ maxOperand ∧
      emitter.current.chunk.OperandsFit emitter.reach (· ∈ c.marks) emitter.size value 0 code) :
    (opShort code value location).Ensures c.Holds fun _ => c.Holds := by
  intro emitter h _ final hrun
  cases hrun
  obtain ⟨hfits, hoperands⟩ := hvalue emitter h
  obtain ⟨happends, hinstruction⟩ := Chunk.appends_opShort hcount hfits
  exact h.append happends hinstruction (hoperands.mono happends.tables (.refl _) fun _ hmark => hmark)

theorem ensures_opIndex {code : Opcode} (hcount : code.operandCount = 1) {index : Nat} {what : String}
    (hindex : ∀ emitter, c.Holds emitter →
      emitter.current.chunk.OperandsFit emitter.reach (· ∈ c.marks) emitter.size index 0 code) :
    (opIndex code index location what).Ensures c.Holds fun _ => c.Holds := by
  intro emitter h _ final hrun
  obtain ⟨hfits, hrun⟩ := limit_eq_ok hrun
  exact ensures_opShort hcount (fun emitter h => ⟨Nat.le_of_not_lt hfits, hindex emitter h⟩) emitter h _ _ hrun

/-- An entry is added to a table, or found there. -/
structure Tabulates (f : Chunk → Chunk × Nat) : Prop where
  code : ∀ chunk, (f chunk).1.code = chunk.code
  locations : ∀ chunk, (f chunk).1.locations = chunk.locations
  tables : ∀ chunk, Chunk.TablesBegin chunk (f chunk).1
  functions : ∀ chunk, (f chunk).1.functions = chunk.functions

/-- An operation on an entry of a table. -/
theorem ensures_indexed {f : Chunk → Chunk × Nat} (htabulates : Tabulates f) {code : Opcode}
    (hcount : code.operandCount = 1) {what : String}
    (hfit : ∀ chunk reach lands offset, (f chunk).1.OperandsFit reach lands offset (f chunk).2 0 code) :
    Ensures (withChunk f >>= fun index => opIndex code index location what) c.Holds fun _ => c.Holds := by
  intro emitter h _ final hrun
  obtain ⟨index, tabled, htabled, hrun⟩ := bind_eq_ok.mp hrun
  cases htabled
  obtain ⟨hfits, hwritten⟩ := limit_eq_ok hrun
  cases hwritten
  have htabled : c.Holds (emitter.withChunk (f emitter.current.chunk).1) := by
    refine h.retable (htabulates.code _) (htabulates.locations _) (htabulates.tables _) fun function hmem => .inl ?_
    rwa [htabulates.functions] at hmem
  obtain ⟨happends, hinstruction⟩ := Chunk.appends_opShort hcount (Nat.le_of_not_lt hfits)
  exact htabled.append happends hinstruction
    ((hfit _ emitter.reach _ _).mono happends.tables (.refl _) fun _ hmark => hmark)

theorem ensures_constant {value : Scalar} : (constant value location).Ensures c.Holds fun _ => c.Holds := by
  refine ensures_indexed ⟨fun _ => rfl, fun _ => rfl, fun chunk => ?_, fun _ => rfl⟩ rfl
    fun chunk reach lands offset => ?_
  · exact (Chunk.tablesBegin_addConstant (.refl _)).1
  · exact ⟨value, (Chunk.tablesBegin_addConstant (.refl _)).2⟩

theorem ensures_onString {code : Opcode} (hcode : code = .string ∨ code = .getField ∨ code = .setField)
    {text : String} : (onString code text location).Ensures c.Holds fun _ => c.Holds := by
  refine ensures_indexed ⟨fun _ => Chunk.code_addString _, fun _ => Chunk.locations_addString _, fun chunk => ?_,
    fun chunk => ?_⟩ ?_ fun chunk reach lands offset => ?_
  · exact (Chunk.tablesBegin_addString (.refl _)).1
  · unfold Chunk.addString
    split <;> rfl
  · rcases hcode with rfl | rfl | rfl <;> rfl
  · obtain ⟨hindex, -⟩ := Array.getElem?_eq_some_iff.mp (Chunk.tablesBegin_addString (.refl (chunk.addString text).1)).2
    rcases hcode with rfl | rfl | rfl <;> exact hindex

theorem ensures_literal {value : Literal} : (literal value location).Ensures c.Holds fun _ => c.Holds := by
  unfold literal
  split
  · exact ensures_onString (.inl rfl)
  · exact ensures_op rfl
  · exact ensures_op rfl
  · exact ensures_op rfl
  · exact ensures_constant

theorem ensures_jump {code : Opcode} (hforward : code.isForward = true) :
    (jump code location).Ensures c.Holds fun place => (c.await place).Holds := by
  intro emitter h place final hrun
  cases hrun
  obtain ⟨hplace, hjump⟩ := h.jump hforward location
  change (c.await (emitter.current.chunk.writeJump code location).2).Holds _
  rw [hplace]
  exact hjump

theorem ensures_land {place : Nat} : (land place location).Ensures (c.await place).Holds fun _ => c.Holds := by
  intro emitter h _ final hrun
  obtain ⟨position, middle, hposition, hrun⟩ := bind_eq_ok.mp hrun
  cases hposition
  obtain ⟨hfits, hpatched⟩ := limit_eq_ok hrun
  cases hpatched
  exact h.land (Nat.le_of_not_lt hfits)

theorem ensures_landAll {places : List Nat} :
    (landAll places location).Ensures (c.awaitAll places).Holds fun _ => c.Holds := by
  induction places with
  | nil =>
    rw [Construction.awaitAll_nil]
    exact ensures_pure fun _ h => h
  | cons place rest ih =>
    rw [Construction.awaitAll_cons]
    exact ensures_land.bind fun _ => ih

theorem ensures_position : position.Ensures c.Holds fun place => (c.mark place).Holds := by
  intro emitter h place final hrun
  cases hrun
  obtain ⟨starts, hordered, hlands⟩ := h.code
  refine ⟨h.globals, h.fits, h.outer, h.loops, h.chained, h.slots, starts, hordered, ?_⟩
  rintro mark (rfl | hmark)
  · exact .inl rfl
  · exact hlands mark hmark

theorem ensures_back {target : Nat} (hmark : target ∈ c.marks) :
    (back target location).Ensures c.Holds fun _ => c.Holds := by
  intro emitter h _ final hrun
  obtain ⟨⟨⟩, middle, hop, hrun⟩ := bind_eq_ok.mp hrun
  cases hop
  obtain ⟨position, middle, hposition, hrun⟩ := bind_eq_ok.mp hrun
  cases hposition
  obtain ⟨hfits, hwritten⟩ := limit_eq_ok hrun
  cases hwritten
  have hbefore : target ≤ emitter.size := by
    obtain ⟨starts, hordered, hlands⟩ := h.code
    rcases hlands target hmark with hend | ⟨op, hstart⟩
    · exact hend.le
    · exact (Nat.le_add_right ..).trans (hordered.lt_size hstart)
  have hposition : ((emitter.current.chunk.writeOp .loopBack location).code.size - target + 2) =
      emitter.size + 3 - target := by
    rw [Chunk.size_writeOp]
    unfold Emitter.size at hbefore ⊢
    omega
  have hcount : Opcode.operandCount .loopBack = 1 := rfl
  obtain ⟨happends, hinstruction⟩ := Chunk.appends_opShort hcount (Nat.le_of_not_lt hfits)
  refine h.append happends hinstruction ⟨?_, ?_⟩
  · exact hposition.trans_le (Nat.sub_le ..)
  · have hback : emitter.size + 3 - ((emitter.current.chunk.writeOp .loopBack location).code.size - target + 2) =
        target := by omega
    change emitter.size + 3 - _ ∈ c.marks
    rw [hback]
    exact hmark

/-- Variables are dropped. -/
theorem ensures_drops {vars : List Local} : Ensures (vars.forM (drop · location)) c.Holds fun _ => c.Holds := by
  refine ensures_forM fun var _ => ensures_op ?_
  split <;> rfl

/-- Scopes and variables that are left do not change what code may refer to. -/
theorem ensures_modifyCurrent {f : FunctionCode → FunctionCode}
    (hsame : ∀ current, (f current).chunk = current.chunk ∧ (f current).maxLocals = current.maxLocals ∧
      (f current).captures = current.captures)
    (hloops : ∀ current, current.loops = c.loops → (f current).loops = c.loops)
    (hlocals : ∀ current, (f current).locals ⊆ current.locals) :
    (modifyCurrent f).Ensures c.Holds fun _ => c.Holds := by
  intro emitter h _ final hrun
  cases hrun
  obtain ⟨hchunk, hslots, hcaptures⟩ := hsame emitter.current
  have hroomy := h.chained.roomy
  refine h.rearrange hchunk hslots.ge (by rw [hcaptures]) ⟨rfl, rfl, rfl, rfl, rfl⟩ (hloops _ h.loops)
    (List.forall₂_same.mpr fun f _ => .refl f) (h.chained.of_captures hcaptures ⟨?_, ?_, ?_⟩) ?_
  · rw [hslots]
    exact fun var hvar => hroomy.slots var (hlocals _ hvar)
  · rw [hslots]
    exact hroomy.few
  · rw [hcaptures]
    exact hroomy.captures
  · rw [hslots]
    exact h.slots

theorem ensures_enterScope : enterScope.Ensures c.Holds fun _ => c.Holds :=
  ensures_modifyCurrent (fun _ => ⟨rfl, rfl, rfl⟩) (fun _ h => h) fun _ _ h => h

/-- Dropping variables writes code only. -/
theorem locals_of_drops {vars : List Local} {emitter final : Emitter}
    (hrun : vars.forM (drop · location) emitter = .ok ((), final)) : final.current.locals = emitter.current.locals := by
  induction vars generalizing emitter with
  | nil =>
    cases hrun
    rfl
  | cons var rest ih =>
    obtain ⟨⟨⟩, middle, hop, hrest⟩ := bind_eq_ok.mp hrun
    cases hop
    have hlocals := ih hrest
    exact hlocals

theorem ensures_exitScope : exitScope.Ensures c.Holds fun _ => c.Holds := by
  intro emitter h _ final hrun
  unfold exitScope at hrun
  rw [get_bind, List.span_eq_takeWhile_dropWhile] at hrun
  obtain ⟨⟨⟩, dropped, hdrops, hrun⟩ := bind_eq_ok.mp hrun
  have hdropped : c.Holds dropped := ensures_drops emitter h _ _ hdrops
  cases hrun
  have hroomy := hdropped.chained.roomy
  refine hdropped.rearrange rfl le_rfl le_rfl ⟨rfl, rfl, rfl, rfl, rfl⟩ hdropped.loops
    (List.forall₂_same.mpr fun f _ => .refl f)
    (hdropped.chained.of_captures rfl ⟨fun var hvar => hroomy.slots var ?_, hroomy.few, hroomy.captures⟩)
    hdropped.slots
  rw [locals_of_drops hdrops]
  exact List.dropWhile_subset _ hvar

theorem ensures_unwind {depth : Nat} : (unwind depth location).Ensures c.Holds fun _ => c.Holds := by
  intro emitter h _ final hrun
  exact ensures_drops emitter h _ _ hrun

theorem ensures_localsFrom {slot count : Nat} : (localsFrom slot count).Ensures c.Holds fun _ => c.Holds := by
  intro emitter h _ final hrun
  cases hrun
  exact h

theorem ensures_declareLocal {binding : Option BindingId} :
    (declareLocal binding location).Ensures c.Holds fun slot => (c.withSlot slot).Holds := by
  intro emitter h slot final hrun
  unfold declareLocal at hrun
  rw [get_bind] at hrun
  obtain ⟨hroom, hdone⟩ := limit_eq_ok hrun
  cases hdone
  have hroomy := h.chained.roomy
  refine h.rearrange rfl (le_max_left ..) le_rfl ⟨rfl, rfl, rfl, rfl, rfl⟩ h.loops
    (List.forall₂_same.mpr fun f _ => .refl f) (h.chained.of_captures rfl ⟨?_, ?_, hroomy.captures⟩) ?_
  · intro var hvar
    rcases List.mem_cons.mp hvar with rfl | hold
    · exact (Nat.lt_succ_self _).trans_le (le_max_right ..)
    · exact (hroomy.slots var hold).trans_le (le_max_left ..)
  · exact max_le hroomy.few (Nat.lt_of_not_le hroom)
  · rintro known (rfl | hknown)
    · exact (Nat.lt_succ_self _).trans_le (le_max_right ..)
    · exact (h.slots known hknown).trans_le (le_max_left ..)

theorem ensures_declareVariables {vars : List Pattern.Variable} :
    (declareVariables vars).Ensures c.Holds fun _ => c.Holds := by
  refine ensures_forM fun bound _ => ?_
  refine ensures_declareLocal.bind fun slot => ensures_pure fun emitter h => ?_
  exact h.forget (le_refl _) (Set.subset_insert ..)

theorem ensures_declareParameters {parameters : List Pattern} {matchers : List Matcher}
    {vars : List Pattern.Variable} :
    (declareParameters parameters matchers vars).Ensures c.Holds fun _ => c.Holds := by
  have hdeclare (binding : Option BindingId) (location : Location) :
      (declareLocal binding location).Ensures c.Holds fun _ => c.Holds :=
    ensures_declareLocal.imp fun slot emitter h => h.forget (le_refl _) (Set.subset_insert ..)
  induction parameters generalizing matchers vars with
  | nil => exact ensures_pure fun _ h => h
  | cons pattern rest ih =>
    cases pattern <;> exact (hdeclare _ _).bind fun _ => ih

theorem globalSlot_eq_ok {id : BindingId} {emitter final : Emitter} {slot : Nat}
    (hrun : globalSlot id location emitter = .ok (slot, final)) :
    emitter.globals.slots[id]? = some slot ∧ final = emitter := by
  unfold globalSlot at hrun
  rw [get_bind] at hrun
  cases hfound : emitter.globals.slots[id]? with
  | none =>
    rw [hfound] at hrun
    cases hrun
  | some found =>
    rw [hfound] at hrun
    cases hrun
    exact ⟨rfl, rfl⟩

theorem ensures_onGlobal {code : Opcode} (hcode : code = .getGlobal ∨ code = .setGlobal ∨ code = .moveGlobal)
    {id : BindingId} {slot : Nat} (hslot : c.globals.slots[id]? = some slot) :
    (opShort code slot location).Ensures c.Holds fun _ => c.Holds := by
  refine ensures_opShort ?_ fun emitter h => ?_
  · rcases hcode with rfl | rfl | rfl <;> rfl
  · have hlt := h.fits.slots id slot hslot
    have hfew := h.fits.few
    have hreach : slot < emitter.reach.globals := by
      change slot < emitter.globals.names.size
      rwa [h.globals]
    refine ⟨by omega, ?_⟩
    rcases hcode with rfl | rfl | rfl <;> exact hreach

theorem ensures_onLocal {code : Opcode} (hcode : code = .getLocal ∨ code = .setLocal ∨ code = .moveLocal)
    {slot : Nat} (hslot : slot ∈ c.slots) : (opShort code slot location).Ensures c.Holds fun _ => c.Holds := by
  refine ensures_opShort ?_ fun emitter h => ?_
  · rcases hcode with rfl | rfl | rfl <;> rfl
  · have hlt : slot < emitter.reach.slots := h.slots slot hslot
    have hfew : emitter.reach.slots ≤ maxOperand := h.chained.roomy.few
    refine ⟨by omega, ?_⟩
    rcases hcode with rfl | rfl | rfl <;> exact hlt

theorem ensures_defineGlobal {resolution : Resolution} :
    (defineGlobal resolution location).Ensures c.Holds fun _ => c.Holds := by
  intro emitter h _ final hrun
  unfold defineGlobal at hrun
  obtain ⟨⟨⟩, middle, hop, hrun⟩ := bind_eq_ok.mp hrun
  cases hop
  cases hid : resolution.binding with
  | none =>
    rw [hid] at hrun
    cases hrun
  | some id =>
    rw [hid] at hrun
    obtain ⟨slot, middle, hslot, hrun⟩ := bind_eq_ok.mp hrun
    obtain ⟨hfound, rfl⟩ := globalSlot_eq_ok hslot
    have hfound : c.globals.slots[id]? = some slot := h.globals ▸ hfound
    obtain ⟨⟨⟩, middle, hshort, hpop⟩ := bind_eq_ok.mp hrun
    cases hshort
    refine ensures_op rfl _ (ensures_onGlobal (.inr (.inl rfl)) hfound emitter h () _ rfl) _ _ hpop

theorem captureOf?_eq_ok {id : BindingId} {emitter final : Emitter} {index : Nat}
    (hrun : captureOf? id emitter = .ok (some index, final)) : ∃ current enclosing,
      emitter.current.resolveCapture id emitter.enclosing = .ok (some (index, current, enclosing)) ∧
        final = { emitter with current, enclosing } := by
  unfold captureOf? at hrun
  rw [get_bind] at hrun
  cases hresolved : emitter.current.resolveCapture id emitter.enclosing with
  | error fault =>
    rw [hresolved] at hrun
    cases hrun
  | ok found =>
    rw [hresolved] at hrun
    cases found with
    | none => cases hrun
    | some found =>
      obtain ⟨place, current, enclosing⟩ := found
      cases hrun
      exact ⟨current, enclosing, rfl, rfl⟩

theorem ensures_access {resolution : Resolution} {how : Access} :
    (access resolution how location).Ensures c.Holds fun _ => c.Holds := by
  intro emitter h _ final hrun
  unfold access at hrun
  cases hid : resolution.binding with
  | none =>
    rw [hid] at hrun
    cases hrun
  | some id =>
    rw [hid] at hrun
    dsimp only at hrun
    split at hrun
    · obtain ⟨slot, middle, hslot, hop⟩ := bind_eq_ok.mp hrun
      obtain ⟨hfound, rfl⟩ := globalSlot_eq_ok hslot
      refine ensures_onGlobal ?_ (h.globals ▸ hfound : c.globals.slots[id]? = some slot) _ h _ _ hop
      cases how <;> simp [Access.global]
    · rw [get_bind] at hrun
      cases hslot : emitter.current.slotOf? id with
      | some slot =>
        rw [hslot] at hrun
        obtain ⟨var, hfound, rfl⟩ := Option.map_eq_some_iff.mp hslot
        have hknown : (c.withSlot var.slot).Holds emitter := by
          refine ⟨h.globals, h.fits, h.outer, h.loops, h.chained, ?_, h.code⟩
          rintro slot (rfl | hslot)
          · exact h.chained.roomy.slots var (List.mem_of_find?_eq_some hfound)
          · exact h.slots slot hslot
        have hcode : how.frame = .getLocal ∨ how.frame = .setLocal ∨ how.frame = .moveLocal := by
          cases how <;> simp [Access.frame]
        have hafter := ensures_onLocal hcode (Set.mem_insert ..) emitter hknown _ _ hrun
        exact hafter.forget (le_refl _) (Set.subset_insert ..)
      | none =>
        rw [hslot] at hrun
        obtain ⟨found, middle, hcapture, hrun⟩ := bind_eq_ok.mp hrun
        cases found with
        | none => cases hrun
        | some index =>
          obtain ⟨current, enclosing, hresolved, rfl⟩ := captureOf?_eq_ok hcapture
          obtain ⟨hwaits, -, hindex, houter, hchained⟩ :=
            FunctionCode.resolveCapture_chained h.chained hresolved
          have hcaptured : c.Holds { emitter with current, enclosing } :=
            h.rearrange hwaits.chunk hwaits.maxLocals.ge hwaits.captures ⟨rfl, rfl, rfl, rfl, rfl⟩
              (hwaits.loops.trans h.loops) houter hchained (hwaits.maxLocals ▸ h.slots)
          have hfew : current.captures.size ≤ maxOperand := hchained.roomy.captures
          cases hrun
          have hcount : how.captured.operandCount = 1 := by cases how <;> rfl
          obtain ⟨happends, hinstruction⟩ := Chunk.appends_opShort hcount (by omega : index ≤ maxOperand)
          refine hcaptured.append happends hinstruction ?_
          cases how <;> exact hindex

end Emit

/-- The jumps out of loops. -/
def placesOf (loops : List LoopJumps) : Set Nat :=
  { place | ∃ loop ∈ loops, place ∈ loop.leaving ∨ place ∈ loop.skipping }

theorem placesOf_nil : placesOf [] = ∅ := by
  ext place
  simp [placesOf]

namespace Construction

/-- The same, inside of other loops. -/
def within (c : Construction) (loops : List LoopJumps) : Construction :=
  { c with loops, jumps := placesOf loops }

/-- The function under construction is in order, with more jumps out of the innermost loop maybe. -/
def HoldsWithin (c : Construction) (emitter : Emitter) : Prop :=
  ∃ loops, LoopsGrow c.loops loops ∧ (c.within loops).Holds emitter

/-- What is known at the start of a loop, which is a place to come back to. -/
def looping (c : Construction) (loop : LoopJumps) (outer : List LoopJumps) (start : Nat) : Construction :=
  { c with loops := loop :: outer, marks := insert start c.marks }

/-- What is known where the body of a loop ends: only the jumps that leave the loop are still open. -/
def closing (c : Construction) (loop : LoopJumps) (outer : List LoopJumps) : Construction :=
  awaitAll { c with loops := loop :: outer, jumps := placesOf outer } loop.leaving

theorem closing_await (c : Construction) (place : Nat) (loop : LoopJumps) (outer : List LoopJumps) :
    (c.await place).closing loop outer = (c.closing loop outer).await place :=
  await_awaitAll { c with loops := loop :: outer, jumps := placesOf outer } place loop.leaving

theorem Holds.within {c : Construction} {emitter : Emitter} (h : (c.within c.loops).Holds emitter) :
    c.HoldsWithin emitter :=
  ⟨c.loops, .same, h⟩

theorem HoldsWithin.forget {c : Construction} {emitter : Emitter} (h : c.HoldsWithin emitter)
    {marks slots : Set Nat} (hmarks : marks ⊆ c.marks) (hslots : slots ⊆ c.slots) :
    HoldsWithin { c with marks, slots } emitter := by
  obtain ⟨loops, hgrow, hholds⟩ := h
  exact ⟨loops, hgrow, hholds.forget hmarks hslots⟩

end Construction

namespace Emit

variable {α : Type} {c : Construction} {location : Location}

/-- Steps that leave the loops as they are can be taken within loops. -/
theorem Ensures.within {step : Emit α} {after : α → Construction}
    (hstep : ∀ loops, step.Ensures (c.within loops).Holds fun value => ((after value).within loops).Holds)
    (hloops : ∀ value, (after value).loops = c.loops) :
    step.Ensures c.HoldsWithin fun value => (after value).HoldsWithin := by
  rintro emitter ⟨loops, hgrow, h⟩ value final hrun
  exact ⟨loops, hloops value ▸ hgrow, hstep loops emitter h value final hrun⟩

theorem ensures_jumpFromLoop {word : String} {add : LoopJumps → Nat → LoopJumps}
    (hgrows : ∀ loop place rest, LoopsGrow (loop :: rest) (add loop place :: rest))
    (hplaces : ∀ loop place rest, placesOf (add loop place :: rest) = insert place (placesOf (loop :: rest))) :
    (jumpFromLoop word add location).Ensures c.HoldsWithin fun _ => c.HoldsWithin := by
  rintro emitter ⟨loops, hgrow, h⟩ _ final hrun
  unfold jumpFromLoop at hrun
  rw [get_bind] at hrun
  cases hloops : emitter.current.loops with
  | nil =>
    rw [hloops] at hrun
    cases hrun
  | cons loop rest =>
    rw [hloops] at hrun
    obtain ⟨⟨⟩, unwound, hunwind, hrun⟩ := bind_eq_ok.mp hrun
    obtain ⟨place, jumped, hjump, hdone⟩ := bind_eq_ok.mp hrun
    have hunwound : (c.within loops).Holds unwound := ensures_unwind emitter h _ _ hunwind
    have hjumped : ((c.within loops).await place).Holds jumped :=
      ensures_jump rfl unwound hunwound _ _ hjump
    have hsame : loop :: rest = loops := hloops.symm.trans h.loops
    subst hsame
    have hfinal : final = { jumped with current := { jumped.current with loops := add loop place :: rest } } := by
      obtain ⟨globals, ⟨chunk, locals, captures, loops, depth, most⟩, enclosing⟩ := jumped
      obtain rfl : loops = loop :: rest := hjumped.loops
      cases hdone
      rfl
    rw [hfinal]
    refine ⟨add loop place :: rest, hgrow.trans (hgrows ..), ?_⟩
    have hroomy := hjumped.chained.roomy
    refine hjumped.rearrange rfl le_rfl le_rfl ⟨rfl, rfl, rfl, ?_, rfl⟩ rfl
      (List.forall₂_same.mpr fun f _ => .refl f)
      (hjumped.chained.of_captures rfl ⟨hroomy.slots, hroomy.few, hroomy.captures⟩) hjumped.slots
    change c.pending ∪ placesOf (add loop place :: rest) = insert place c.pending ∪ placesOf (loop :: rest)
    rw [hplaces, Set.union_insert, Set.insert_union]

theorem ensures_leaveLoop : (leaveLoop location).Ensures c.HoldsWithin fun _ => c.HoldsWithin := by
  refine ensures_jumpFromLoop (fun loop place rest => .inner rfl (List.subset_cons_self ..) fun _ h => h)
    fun loop place rest => ?_
  ext other
  simp [placesOf, or_assoc]

theorem ensures_skipLoop : (skipLoop location).Ensures c.HoldsWithin fun _ => c.HoldsWithin := by
  refine ensures_jumpFromLoop (fun loop place rest => .inner rfl (fun _ h => h) (List.subset_cons_self ..))
    fun loop place rest => ?_
  ext other
  simp [placesOf, or_assoc, or_left_comm]

theorem ensures_enterLoop : enterLoop.Ensures c.HoldsWithin fun _ emitter => ∃ loop outer,
    LoopsGrow c.loops outer ∧ Construction.HoldsWithin { c with loops := loop :: outer } emitter := by
  rintro emitter ⟨loops, hgrow, h⟩ _ final hrun
  cases hrun
  let fresh : LoopJumps := { depth := emitter.current.depth }
  refine ⟨fresh, loops, hgrow, Construction.Holds.within ?_⟩
  have hroomy := h.chained.roomy
  refine h.rearrange rfl le_rfl le_rfl ⟨rfl, rfl, rfl, ?_, rfl⟩ (congrArg _ h.loops)
    (List.forall₂_same.mpr fun f _ => .refl f)
    (h.chained.of_captures rfl ⟨hroomy.slots, hroomy.few, hroomy.captures⟩) h.slots
  have hplaces : placesOf (fresh :: loops) = placesOf loops := by
    ext place
    simp [placesOf, fresh]
  exact congrArg _ hplaces

/-- The jumps to the next turn of a loop land. -/
theorem ensures_landSkipping {loop : LoopJumps} {outer : List LoopJumps} (hloops : c.loops = loop :: outer) :
    (landSkipping location).Ensures c.HoldsWithin fun _ emitter => ∃ last, (c.closing last outer).Holds emitter := by
  rintro emitter ⟨loops, hgrow, h⟩ _ final hrun
  rw [hloops] at hgrow
  obtain ⟨last, rfl⟩ : ∃ last, loops = last :: outer := by
    cases hgrow with
    | same => exact ⟨loop, rfl⟩
    | inner => exact ⟨_, rfl⟩
  refine ⟨last, ?_⟩
  unfold landSkipping at hrun
  rw [get_bind, h.loops] at hrun
  have hopen : ((c.closing last outer).awaitAll last.skipping).Holds emitter := by
    refine h.regroup ?_
    ext place
    simp [Construction.closing, Construction.awaitAll, Construction.within, placesOf, or_assoc]
  exact ensures_landAll emitter hopen _ _ hrun

theorem ensures_exitLoop {loop : LoopJumps} {outer : List LoopJumps} :
    (exitLoop location).Ensures (c.closing loop outer).Holds fun _ => (c.within outer).Holds := by
  intro emitter h _ final hrun
  unfold exitLoop at hrun
  have hloops : emitter.current.loops = loop :: outer := h.loops
  rw [get_bind, hloops] at hrun
  obtain ⟨⟨⟩, landed, hland, hdone⟩ := bind_eq_ok.mp hrun
  have hlanded : Construction.Holds { c with loops := loop :: outer, jumps := placesOf outer } landed :=
    ensures_landAll emitter h _ _ hland
  cases hdone
  have hroomy := hlanded.chained.roomy
  refine hlanded.rearrange rfl le_rfl le_rfl ⟨rfl, rfl, rfl, rfl, rfl⟩ (congrArg List.tail hlanded.loops)
    (List.forall₂_same.mpr fun f _ => .refl f)
    (hlanded.chained.of_captures rfl ⟨hroomy.slots, hroomy.few, hroomy.captures⟩) hlanded.slots

/-- One turn of a loop, whose start control may get to. -/
theorem ensures_loopTurn {loop : LoopJumps} {outer : List LoopJumps} (hloops : c.loops = loop :: outer) {start : Nat}
    (hstart : start ∈ c.marks) {body between : Emit Unit} (hbody : body.Ensures c.HoldsWithin fun _ => c.HoldsWithin)
    (hbetween : ∀ last, between.Ensures (c.closing last outer).Holds fun _ => (c.closing last outer).Holds) :
    (loopTurn start body between location).Ensures c.HoldsWithin
      fun _ emitter => ∃ last, (c.closing last outer).Holds emitter := by
  refine (Ensures.within (fun _ => ensures_enterScope) fun _ => rfl).bind fun _ => hbody.bind fun _ => ?_
  refine (Ensures.within (fun _ => ensures_exitScope) fun _ => rfl).bind fun _ => ?_
  refine (ensures_landSkipping hloops).bind fun _ => ensures_exists fun last => ?_
  refine (hbetween last).bind fun _ => (ensures_back ?_).imp fun _ emitter h => ⟨last, h⟩
  exact hstart

/-- The functions around a new one wait for it. -/
theorem holds_enterFunction {emitter : Emitter} (h : c.Holds emitter) (levels : Nat) :
    Construction.HoldsWithin
      { globals := c.globals, outer := emitter.current :: emitter.enclosing, loops := [], jumps := ∅, pending := ∅
        marks := ∅, slots := ∅, levels }
      { emitter with current := {}, enclosing := emitter.current :: emitter.enclosing } := by
  refine Construction.Holds.within ⟨h.globals, h.fits, List.forall₂_same.mpr fun f _ => .refl f, rfl, ?_,
    fun _ h => h.elim, [], ?_, fun _ h => h.elim⟩
  · exact ⟨⟨fun _ h => (by cases h), Nat.zero_le _, Nat.zero_le _⟩, fun _ h => (by simp at h), h.chained⟩
  · change Chunk.Ordered {} _ _ (∅ ∪ placesOf []) _
    rw [placesOf_nil, Set.union_empty]
    exact Chunk.ordered_empty ..

/-- The code of a function: it is in order if its clauses are, and it has a level less than the code around it. -/
theorem ensures_function {clauses : Emit Unit} {levels : Nat} (hlevels : levels < c.levels)
    (hclauses : ∀ inner : Construction, inner.loops = [] → inner.levels = levels →
      clauses.Ensures inner.HoldsWithin fun _ => inner.HoldsWithin) {name : String} {isProc : Bool} :
    Ensures (do
      enterFunction
      clauses
      op .noMatchingOverload location
      exitFunction name isProc location) c.Holds fun _ => c.Holds := by
  intro emitter h _ final hrun
  obtain ⟨⟨⟩, entered, henter, hrun⟩ := bind_eq_ok.mp hrun
  cases henter
  obtain ⟨⟨⟩, built, hbuild, hrun⟩ := bind_eq_ok.mp hrun
  obtain ⟨⟨⟩, ended, hend, hexit⟩ := bind_eq_ok.mp hrun
  cases hend
  obtain ⟨loops, hgrow, hbuilt⟩ := hclauses _ rfl rfl _ (holds_enterFunction h levels) _ _ hbuild
  obtain rfl : loops = [] := by
    cases hgrow
    rfl
  obtain ⟨globals, code, enclosing⟩ := built
  obtain ⟨waiting, enclosing, hwaits, houter, rfl⟩ := List.forall₂_cons_left_iff.mp hbuilt.outer
  have hglobals : globals = emitter.globals := hbuilt.globals.trans h.globals.symm
  obtain ⟨hroomy, hcaptures, hchained⟩ := hbuilt.chained
  have hreturned : c.Holds { emitter with current := waiting, enclosing } :=
    h.rearrange hwaits.chunk hwaits.maxLocals.ge hwaits.captures ⟨rfl, rfl, rfl, rfl, rfl⟩
      (hwaits.loops.trans h.loops) houter hchained (hwaits.maxLocals ▸ h.slots)
  let prototype : Prototype :=
    { name := if name.isEmpty then "<lambda>" else name
      isProc
      captures := code.captures
      chunk := some (code.chunk.writeOp .noMatchingOverload location)
      maxSlots := code.maxLocals }
  have hprototype : prototype.Built emitter.globals.names.size waiting.maxLocals waiting.captures.size c.levels := by
    obtain ⟨starts, hordered, -⟩ := hbuilt.code
    have hnone : (∅ : Set Nat) ∪ placesOf [] = ∅ := by rw [placesOf_nil, Set.union_empty]
    have hcount : Opcode.operandCount .noMatchingOverload = 0 := rfl
    have hbody : code.chunk.Ordered ⟨emitter.globals.names.size, prototype.maxSlots, prototype.captures.size⟩ levels ∅
        starts := by
      rw [← hnone, ← hglobals]
      exact hordered
    have hown : prototype.Built emitter.globals.names.size waiting.maxLocals waiting.captures.size (levels + 1) :=
      hbody.built (Chunk.appends_op hcount).1 hcount rfl rfl hcaptures
    exact hown.mono le_rfl le_rfl hlevels
  unfold exitFunction at hexit
  rw [get_bind] at hexit
  obtain ⟨⟨⟩, returned, hreturn, hexit⟩ := bind_eq_ok.mp hexit
  cases hreturn
  obtain ⟨index, tabled, htabled, hexit⟩ := bind_eq_ok.mp hexit
  cases htabled
  obtain ⟨hfits, hwritten⟩ := limit_eq_ok hexit
  cases hwritten
  rw [hglobals]
  have htabled : c.Holds (Emitter.withChunk { emitter with current := waiting, enclosing }
      (waiting.chunk.addFunction (some prototype)).1) := by
    refine hreturned.retable rfl rfl (Chunk.tablesBegin_addFunction (.refl _)).1 fun function hfunction => ?_
    rcases Array.mem_push.mp hfunction with hold | rfl
    · exact .inl hold
    · exact .inr ⟨prototype, rfl, hprototype⟩
  have hcount : Opcode.operandCount .closure = 1 := rfl
  obtain ⟨happends, hinstruction⟩ := Chunk.appends_opShort hcount (Nat.le_of_not_lt hfits)
  refine htabled.append happends hinstruction ?_
  change waiting.chunk.functions.size < (waiting.chunk.functions.push _).size
  rw [Array.size_push]
  exact Nat.lt_succ_self _

end Emit

end OwnScript
