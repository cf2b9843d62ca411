import OwnScript.Proofs.Lowering.Draft
import OwnScript.Proofs.Lowering.Variables

/-!
Stages of code generation: the state of the emitter with a draft of the function under construction.
For every step that the generator is made of there is one lemma that says from which stage to which it
leads and what stands in the code afterwards.
-/

namespace OwnScript

namespace Emit

variable {α β : Type}

/-- A sequence ends normally exactly when both of its parts do. -/
theorem bind_eq_ok {step : Emit α} {next : α → Emit β} {emitter : Emitter} {result : β × Emitter} :
    (step >>= next) emitter = .ok result ↔
      ∃ value middle, step emitter = .ok (value, middle) ∧ next value middle = .ok result := by
  change (step emitter >>= fun pair => next pair.1 pair.2) = _ ↔ _
  cases step emitter with
  | error fault =>
    constructor
    · intro h
      cases h
    · rintro ⟨_, _, h, -⟩
      cases h
  | ok pair =>
    constructor
    · intro h
      exact ⟨pair.1, pair.2, rfl, h⟩
    · rintro ⟨value, middle, h, hnext⟩
      cases h
      exact hnext

/-- Two steps and the rest. -/
theorem split_two {γ : Type} {step : Emit α} {next : α → Emit β} {rest : β → Emit γ} {emitter : Emitter}
    {result : γ × Emitter} (hrun : (step >>= fun value => next value >>= rest) emitter = .ok result) :
    ∃ value middle, (step >>= next) emitter = .ok (value, middle) ∧ rest value middle = .ok result := by
  rw [← bind_assoc] at hrun
  exact bind_eq_ok.mp hrun

theorem get_bind (next : Emitter → Emit β) (emitter : Emitter) :
    (get >>= next) emitter = next emitter emitter := rfl

/-- A limit that is kept to. -/
theorem limit_eq_ok {condition : Prop} [Decidable condition] {message : String} {location : Location}
    {rest : Emit β} {emitter : Emitter} {result : β × Emitter}
    (hrun : (do
      if condition then limit message location
      rest) emitter = .ok result) : ¬ condition ∧ rest emitter = .ok result := by
  by_cases h : condition
  · rw [if_pos h] at hrun
    cases hrun
  · rw [if_neg h] at hrun
    exact ⟨h, hrun⟩

end Emit

/-- A construct may complete the jumps that it has written itself. -/
theorem Draft.Grows.land {before after : Draft} (hgrows : before.Grows after) {place distance : Nat}
    (hplace : place ∈ after.pending) (hfits : distance ≤ maxOperand) (hown : before.size ≤ place) :
    before.Grows (after.land place distance) := by
  refine ⟨fun F h => hgrows.completes F (Draft.completes_land hplace hfits h).1, ?_, ?_⟩
  · rw [Draft.size_land]
    exact hgrows.size
  · intro other hother
    refine ⟨hgrows.pending hother, ?_⟩
    rintro rfl
    have := before.inside other hother
    unfold Draft.size at hown
    omega

/-- An emitter that has gone on to other code and is the same otherwise. -/
def Emitter.withChunk (emitter : Emitter) (chunk : Chunk) : Emitter :=
  { emitter with current := { emitter.current with chunk } }

theorem Emitter.Tidy.withChunk {emitter : Emitter} (htidy : emitter.Tidy) (chunk : Chunk) :
    (emitter.withChunk chunk).Tidy :=
  ⟨⟨htidy.current.slots, htidy.current.nested, htidy.current.shallow, htidy.current.few⟩,
    htidy.linked.of_captures rfl, htidy.globals⟩

variable {globals : GlobalTable} {tracked : Prop}

/-- A stage of code generation for given global variables. -/
structure Stage (globals : GlobalTable) where
  emitter : Emitter
  draft : Draft
  globals_eq : emitter.globals = globals
  chunk_eq : draft.chunk = emitter.current.chunk
  tidy : emitter.Tidy

namespace Stage

/-- The number of bytes written so far. -/
def size (stage : Stage globals) : Nat :=
  stage.draft.size

/-- The variables in scope. -/
def scope (stage : Stage globals) : FrameScope :=
  stage.emitter.scope

theorem size_eq (stage : Stage globals) : stage.emitter.current.chunk.code.size = stage.size := by
  rw [← stage.chunk_eq]
  rfl

theorem length_scope (stage : Stage globals) : stage.scope.length = stage.emitter.current.locals.length :=
  length_scopeOf _

/-- Code was generated, and the variables in scope are the same. -/
structure Extends (before after : Stage globals) : Prop where
  draft : before.draft.Grows after.draft
  emitter : before.emitter.Continues after.emitter

/-- Code was generated, and variables may have been declared. -/
structure Proceeds (before after : Stage globals) : Prop where
  draft : before.draft.Grows after.draft
  emitter : before.emitter.Advances after.emitter

theorem Extends.refl (stage : Stage globals) : stage.Extends stage :=
  ⟨.refl _, .refl _⟩

theorem Extends.trans {first second third : Stage globals} (hfirst : first.Extends second)
    (hsecond : second.Extends third) : first.Extends third :=
  ⟨hfirst.draft.trans hsecond.draft, hfirst.emitter.trans hsecond.emitter⟩

theorem Extends.proceeds {before after : Stage globals} (hextends : before.Extends after) :
    before.Proceeds after :=
  ⟨hextends.draft, hextends.emitter.advances⟩

theorem Proceeds.trans {first second third : Stage globals} (hfirst : first.Proceeds second)
    (hsecond : second.Proceeds third) : first.Proceeds third :=
  ⟨hfirst.draft.trans hsecond.draft, hfirst.emitter.trans hsecond.emitter⟩

/-- Goes on to another draft. -/
def draw (stage : Stage globals) (draft : Draft) : Stage globals :=
  ⟨stage.emitter.withChunk draft.chunk, draft, stage.globals_eq, rfl, stage.tidy.withChunk _⟩

@[simp] theorem draft_draw (stage : Stage globals) (draft : Draft) : (stage.draw draft).draft = draft := rfl

@[simp] theorem scope_draw (stage : Stage globals) (draft : Draft) : (stage.draw draft).scope = stage.scope := rfl

@[simp] theorem size_draw (stage : Stage globals) (draft : Draft) : (stage.draw draft).size = draft.size := rfl

theorem continues_draw (stage : Stage globals) (draft : Draft) :
    stage.emitter.Continues (stage.draw draft).emitter :=
  ⟨rfl, .refl _, rfl, rfl, List.forall₂_same.mpr fun function _ => .refl function⟩

theorem extends_draw {stage : Stage globals} {draft : Draft} (hgrows : stage.draft.Grows draft) :
    stage.Extends (stage.draw draft) :=
  ⟨hgrows, stage.continues_draw draft⟩

/-- Writes an operation without operands. -/
def op (stage : Stage globals) (code : Opcode) (location : Location) (height : Option Nat) : Stage globals :=
  stage.draw (stage.draft.op code location height)

/-- Writes an operation with an operand. -/
def opShort (stage : Stage globals) (code : Opcode) (value : Nat) (location : Location) (height : Option Nat) :
    Stage globals :=
  stage.draw ((stage.draft.op code location height).short value location)

/-- Writes a jump forward. -/
def jump (stage : Stage globals) (code : Opcode) (location : Location) (height : Option Nat) : Stage globals :=
  stage.draw (stage.draft.jump code location height)

/-- Completes a jump: its target is here. -/
def land (stage : Stage globals) (place : Nat) : Stage globals :=
  stage.draw (stage.draft.land place (stage.size - place - 2))

@[simp] theorem scope_op (stage : Stage globals) (code : Opcode) (location : Location) (height : Option Nat) :
    (stage.op code location height).scope = stage.scope := rfl

@[simp] theorem size_op (stage : Stage globals) (code : Opcode) (location : Location) (height : Option Nat) :
    (stage.op code location height).size = stage.size + 1 := by
  simp [op, size]

@[simp] theorem scope_opShort (stage : Stage globals) (code : Opcode) (value : Nat) (location : Location)
    (height : Option Nat) : (stage.opShort code value location height).scope = stage.scope := rfl

@[simp] theorem size_opShort (stage : Stage globals) (code : Opcode) (value : Nat) (location : Location)
    (height : Option Nat) : (stage.opShort code value location height).size = stage.size + 3 := by
  simp [opShort, size]

@[simp] theorem scope_jump (stage : Stage globals) (code : Opcode) (location : Location) (height : Option Nat) :
    (stage.jump code location height).scope = stage.scope := rfl

@[simp] theorem size_jump (stage : Stage globals) (code : Opcode) (location : Location) (height : Option Nat) :
    (stage.jump code location height).size = stage.size + 3 := by
  simp [jump, size]

@[simp] theorem scope_land (stage : Stage globals) (place : Nat) : (stage.land place).scope = stage.scope := rfl

@[simp] theorem size_land (stage : Stage globals) (place : Nat) : (stage.land place).size = stage.size := by
  simp [land, size]

variable (stage : Stage globals) {F : Listing tracked}

theorem extends_op (code : Opcode) (location : Location) (height : Option Nat) :
    stage.Extends (stage.op code location height) :=
  extends_draw (Draft.grows_op ..)

theorem extends_opShort (code : Opcode) (value : Nat) (location : Location) (height : Option Nat) :
    stage.Extends (stage.opShort code value location height) :=
  extends_draw ((Draft.grows_op ..).trans (Draft.grows_short ..))

theorem extends_jump (code : Opcode) (location : Location) (height : Option Nat) :
    stage.Extends (stage.jump code location height) :=
  extends_draw (Draft.grows_jump ..)

theorem run_op (code : Opcode) (location : Location) (height : Option Nat) :
    Emit.op code location stage.emitter = .ok ((), (stage.op code location height).emitter) := by
  change Except.ok ((), stage.emitter.withChunk (stage.emitter.current.chunk.writeOp code location)) = _
  rw [← stage.chunk_eq]
  rfl

theorem run_opShort (code : Opcode) (value : Nat) (location : Location) (height : Option Nat) :
    Emit.opShort code value location stage.emitter =
      .ok ((), (stage.opShort code value location height).emitter) := by
  change Except.ok ((), stage.emitter.withChunk
    ((stage.emitter.current.chunk.writeOp code location).writeShort value location)) = _
  rw [← stage.chunk_eq]
  rfl

theorem run_jump (code : Opcode) (location : Location) (height : Option Nat) :
    Emit.jump code location stage.emitter =
      .ok (stage.size + 1, (stage.jump code location height).emitter) := by
  have hsize : (stage.draft.chunk.writeJump code location).2 = stage.size + 1 := by
    simp [Chunk.writeJump, Chunk.writeOp, Chunk.write, size, Draft.size]
  have hrun : Emit.jump code location stage.emitter =
      .ok ((stage.emitter.current.chunk.writeJump code location).2,
        stage.emitter.withChunk (stage.emitter.current.chunk.writeJump code location).1) := rfl
  rw [hrun, ← stage.chunk_eq, hsize]
  rfl

theorem mem_pending_jump (code : Opcode) (location : Location) (height : Option Nat) :
    stage.size + 1 ∈ (stage.jump code location height).draft.pending :=
  Set.mem_insert ..

theorem run_opIndex {code : Opcode} {index : Nat} {location : Location} {what : String}
    (height : Option Nat) {result : Unit × Emitter}
    (hrun : Emit.opIndex code index location what stage.emitter = .ok result) :
    index ≤ maxOperand ∧ result = ((), (stage.opShort code index location height).emitter) := by
  obtain ⟨hfits, hrest⟩ := Emit.limit_eq_ok hrun
  rw [stage.run_opShort code index location height] at hrest
  cases hrest
  exact ⟨by omega, rfl⟩

theorem run_land {place : Nat} {location : Location} {result : Unit × Emitter}
    (hrun : Emit.land place location stage.emitter = .ok result) :
    stage.size - place - 2 ≤ maxOperand ∧ result = ((), (stage.land place).emitter) := by
  obtain ⟨position, middle, hposition, hrest⟩ := Emit.bind_eq_ok.mp hrun
  cases hposition
  obtain ⟨hfits, hpatched⟩ := Emit.limit_eq_ok hrest
  rw [stage.size_eq] at hfits hpatched
  have hpatch : stage.emitter.withChunk
      (stage.emitter.current.chunk.patchShort place (stage.size - place - 2)) =
        (stage.land place).emitter := by
    rw [← stage.chunk_eq]
    rfl
  rw [← hpatch]
  cases hpatched
  exact ⟨by omega, rfl⟩

variable {stage}

theorem has_op {code : Opcode} {location : Location} {height : Option Nat} (hcount : code.operandCount = 0)
    (h : F.Completes (stage.op code location height).draft) :
    F.Has stage.size height code 0 0 location :=
  (Draft.has_op hcount h).2

theorem has_opShort {code : Opcode} {value : Nat} {location : Location} {height : Option Nat}
    (hcount : code.operandCount = 1) (hfits : value ≤ maxOperand)
    (h : F.Completes (stage.opShort code value location height).draft) :
    F.Has stage.size height code value 0 location :=
  (Draft.has_op_short hcount hfits h).2

theorem departs_jump {code : Opcode} {location : Location} {height : Option Nat}
    (h : F.Completes (stage.jump code location height).draft) :
    F.Departs stage.size height code location :=
  (Draft.completes_jump h).2

/-- A jump that lands here leads here. -/
theorem leads_land {place : Nat} (hplace : place ∈ stage.draft.pending)
    (hfits : stage.size - place - 2 ≤ maxOperand) (h : F.Completes (stage.land place).draft) :
    F.Completes stage.draft ∧ F.Leads place stage.size := by
  obtain ⟨hdraft, hleads⟩ := Draft.completes_land hplace hfits h
  have hinside := stage.draft.inside place hplace
  have htarget : place + 2 + (stage.size - place - 2) = stage.size := by
    change place + 2 + (stage.draft.chunk.code.size - place - 2) = stage.draft.chunk.code.size
    omega
  rw [htarget] at hleads
  exact ⟨hdraft, hleads⟩

theorem Extends.land {before after : Stage globals} (hextends : before.Extends after) {place : Nat}
    (hplace : place ∈ after.draft.pending) (hfits : after.size - place - 2 ≤ maxOperand)
    (hown : before.size ≤ place) : before.Extends (after.land place) :=
  ⟨hextends.draft.land hplace hfits hown, hextends.emitter.trans (after.continues_draw _)⟩

theorem Proceeds.land {before after : Stage globals} (hproceeds : before.Proceeds after) {place : Nat}
    (hplace : place ∈ after.draft.pending) (hfits : after.size - place - 2 ≤ maxOperand)
    (hown : before.size ≤ place) : before.Proceeds (after.land place) :=
  ⟨hproceeds.draft.land hplace hfits hown, hproceeds.emitter.trans (after.continues_draw _).advances⟩

/-- Writes a jump that looks at the top of the stack, and drops the top where the jump is not taken. -/
def branch (stage : Stage globals) (code : Opcode) (location : Location) (height : Option Nat)
    (taken : Option Nat) : Stage globals :=
  (stage.jump code location height).op .pop location taken

@[simp] theorem scope_branch (stage : Stage globals) (code : Opcode) (location : Location)
    (height taken : Option Nat) : (stage.branch code location height taken).scope = stage.scope := rfl

@[simp] theorem size_branch (stage : Stage globals) (code : Opcode) (location : Location)
    (height taken : Option Nat) : (stage.branch code location height taken).size = stage.size + 4 := by
  simp [branch]

theorem extends_branch (stage : Stage globals) (code : Opcode) (location : Location)
    (height taken : Option Nat) : stage.Extends (stage.branch code location height taken) :=
  (stage.extends_jump code location height).trans (extends_op ..)

theorem mem_pending_branch (stage : Stage globals) (code : Opcode) (location : Location)
    (height taken : Option Nat) :
    stage.size + 1 ∈ (stage.branch code location height taken).draft.pending :=
  (extends_op ..).draft.pending (stage.mem_pending_jump ..)

theorem run_branch {α : Type} {stage : Stage globals} {code : Opcode} {location : Location}
    (height taken : Option Nat) {rest : Nat → Emit α} {result : α × Emitter}
    (hrun : (do
      let place ← Emit.jump code location
      Emit.op .pop location
      rest place) stage.emitter = .ok result) :
    rest (stage.size + 1) (stage.branch code location height taken).emitter = .ok result := by
  obtain ⟨place, emitter, hjump, hrest⟩ := Emit.bind_eq_ok.mp hrun
  rw [stage.run_jump code location height] at hjump
  cases hjump
  obtain ⟨⟨⟩, emitter, hpop, hrest⟩ := Emit.bind_eq_ok.mp hrest
  rw [(stage.jump code location height).run_op .pop location taken] at hpop
  cases hpop
  exact hrest

theorem departs_branch {code : Opcode} {location : Location} {height taken : Option Nat}
    (h : F.Completes (stage.branch code location height taken).draft) :
    F.Departs stage.size height code location ∧ F.Has (stage.size + 3) taken .pop 0 0 location := by
  have hjump := (extends_op ..).draft.completes F h
  have hpop : F.Has (stage.jump code location height).size taken .pop 0 0 location := has_op rfl h
  rw [size_jump] at hpop
  exact ⟨departs_jump hjump, hpop⟩

end Stage

end OwnScript
