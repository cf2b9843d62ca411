import OwnScript.Proofs.Lowering.Layout

/-!
Drafts: code under construction, together with the heights of the frame that will stand beside its
instructions and the places where the distance of a jump is still to be filled in. Finished code
completes a draft if it goes on from there and differs in those places only. What is written into a
draft stands in all code that completes it.
-/

namespace OwnScript

/-- A table is the beginning of another. -/
def Begins {α : Type} (table longer : Array α) : Prop :=
  ∀ (index : Nat) (entry : α), table[index]? = some entry → longer[index]? = some entry

theorem Begins.refl {α : Type} (table : Array α) : Begins table table :=
  fun _ _ h => h

theorem Begins.of_push {α : Type} {table longer : Array α} {entry : α} (h : Begins (table.push entry) longer) :
    Begins table longer := by
  intro index found hfound
  refine h index found ?_
  obtain ⟨hindex, -⟩ := Array.getElem?_eq_some_iff.mp hfound
  rwa [Array.getElem?_push_lt hindex, ← Array.getElem?_eq_getElem hindex]

theorem Begins.last {α : Type} {table longer : Array α} {entry : α} (h : Begins (table.push entry) longer) :
    longer[table.size]? = some entry :=
  h _ _ Array.getElem?_push_size

/-- The tables of code are the beginnings of those of other code. -/
structure Chunk.TablesBegin (chunk longer : Chunk) : Prop where
  constants : Begins chunk.constants longer.constants
  strings : Begins chunk.strings longer.strings
  matchers : Begins chunk.matchers longer.matchers
  clauses : Begins chunk.clauses longer.clauses
  shapes : Begins chunk.shapes longer.shapes
  functions : Begins chunk.functions longer.functions

theorem Chunk.TablesBegin.rewritten {chunk longer : Chunk} {code : Array UInt8} {locations : Array Location}
    (h : TablesBegin { chunk with code, locations } longer) : chunk.TablesBegin longer :=
  ⟨h.constants, h.strings, h.matchers, h.clauses, h.shapes, h.functions⟩

/-- Code under construction. -/
structure Draft where
  chunk : Chunk
  heights : Array (Option Nat)
  /-- Where the distance of a jump is to be filled in. -/
  pending : Set Nat
  heights_size : heights.size = chunk.code.size
  locations_size : chunk.locations.size = chunk.code.size
  inside : ∀ place ∈ pending, place + 2 ≤ chunk.code.size
  apart : ∀ place ∈ pending, ∀ other ∈ pending, place < other → place + 2 ≤ other

variable {tracked : Prop}

/-- Finished code that goes on from a draft. -/
structure Listing.Completes (F : Listing tracked) (draft : Draft) : Prop where
  code : ∀ offset byte, draft.chunk.code[offset]? = some byte →
    (∀ place ∈ draft.pending, offset ≠ place ∧ offset ≠ place + 1) → F.chunk.code[offset]? = some byte
  locations : Begins draft.chunk.locations F.chunk.locations
  heights : tracked → Begins draft.heights F.heights
  tables : draft.chunk.TablesBegin F.chunk

namespace Draft

/-- The number of bytes written so far. -/
def size (draft : Draft) : Nat :=
  draft.chunk.code.size

/-- A draft goes on from another: what completes it completes the other, and no open jump of the other
is closed. -/
structure Grows (before after : Draft) : Prop where
  completes : ∀ {tracked : Prop} (F : Listing tracked), F.Completes after → F.Completes before
  size : before.size ≤ after.size
  pending : before.pending ⊆ after.pending

theorem Grows.refl (draft : Draft) : draft.Grows draft :=
  ⟨fun _ h => h, Nat.le_refl _, fun _ h => h⟩

theorem Grows.trans {first second third : Draft} (hfirst : first.Grows second)
    (hsecond : second.Grows third) : first.Grows third :=
  ⟨fun F h => hfirst.completes F (hsecond.completes F h), hfirst.size.trans hsecond.size,
    fun _ h => hsecond.pending (hfirst.pending h)⟩

/-- The draft of a function without code. -/
def empty : Draft :=
  { chunk := {}, heights := #[], pending := ∅, heights_size := rfl, locations_size := rfl,
    inside := fun _ h => h.elim, apart := fun _ h => h.elim }

theorem chunk_empty : empty.chunk = {} := rfl

variable {F : Listing tracked} (draft : Draft)

/-- Appends a byte. -/
def write (byte : UInt8) (location : Location) (height : Option Nat) : Draft :=
  { chunk := draft.chunk.write byte location
    heights := draft.heights.push height
    pending := draft.pending
    heights_size := by simp [Chunk.write, draft.heights_size]
    locations_size := by simp [Chunk.write, draft.locations_size]
    inside := fun place h => by
      have := draft.inside place h
      simp only [Chunk.write, Array.size_push]
      omega
    apart := draft.apart }

@[simp] theorem size_write (byte : UInt8) (location : Location) (height : Option Nat) :
    (draft.write byte location height).size = draft.size + 1 := by
  simp [size, write, Chunk.write]

variable {draft}

theorem completes_write {byte : UInt8} {location : Location} {height : Option Nat}
    (h : F.Completes (draft.write byte location height)) :
    F.Completes draft ∧ F.chunk.code[draft.size]? = some byte ∧
      F.chunk.locations[draft.size]? = some location ∧ (tracked → F.heights[draft.size]? = some height) := by
  have hlast : (draft.write byte location height).chunk.code[draft.size]? = some byte :=
    Array.getElem?_push_size
  refine ⟨⟨fun offset found hfound hsettled => ?_, h.locations.of_push, fun htracked => (h.heights htracked).of_push,
    h.tables.rewritten⟩, h.code _ _ hlast fun place hplace => ?_, ?_, ?_⟩
  · refine h.code offset found ?_ hsettled
    obtain ⟨hindex, -⟩ := Array.getElem?_eq_some_iff.mp hfound
    change (draft.chunk.code.push byte)[offset]? = _
    rwa [Array.getElem?_push_lt hindex, ← Array.getElem?_eq_getElem hindex]
  · have := draft.inside place hplace
    unfold size
    omega
  · have := h.locations.last
    rwa [draft.locations_size] at this
  · intro htracked
    have := (h.heights htracked).last
    rwa [draft.heights_size] at this

theorem grows_write (byte : UInt8) (location : Location) (height : Option Nat) :
    draft.Grows (draft.write byte location height) :=
  ⟨fun _ h => (completes_write h).1, by simp, fun _ h => h⟩

variable (draft)

/-- Appends an operation without operands, or the first byte of one. -/
def op (code : Opcode) (location : Location) (height : Option Nat) : Draft :=
  draft.write code.toByte location height

/-- Appends an operand. -/
def short (value : Nat) (location : Location) : Draft :=
  (draft.write (UInt8.ofNat (value / 256)) location none).write (UInt8.ofNat value) location none

@[simp] theorem size_op (code : Opcode) (location : Location) (height : Option Nat) :
    (draft.op code location height).size = draft.size + 1 :=
  size_write ..

@[simp] theorem size_short (value : Nat) (location : Location) :
    (draft.short value location).size = draft.size + 2 := by
  simp [short]

/-- Appends a jump whose distance is not known yet. -/
def jump (code : Opcode) (location : Location) (height : Option Nat) : Draft :=
  { ((draft.op code location height).write 0xff location none).write 0xff location none with
    pending := insert (draft.size + 1) draft.pending
    inside := fun place h => by
      change place + 2 ≤ (((draft.op code location height).write 0xff location none).write 0xff location
        none).size
      rw [size_write, size_write, size_op]
      rcases h with rfl | h
      · omega
      · have : place + 2 ≤ draft.size := draft.inside place h
        omega
    apart := by
      rintro place (rfl | hplace) other (rfl | hother) hlt
      · omega
      · have := draft.inside other hother
        unfold size at hlt
        omega
      · have := draft.inside place hplace
        unfold size
        omega
      · exact draft.apart place hplace other hother hlt }

@[simp] theorem size_jump (code : Opcode) (location : Location) (height : Option Nat) :
    (draft.jump code location height).size = draft.size + 3 := by
  change (((draft.op code location height).write 0xff location none).write 0xff location none).size = _
  simp

/-- Fills in the distance of a jump. -/
def land (place distance : Nat) : Draft :=
  { chunk := draft.chunk.patchShort place distance
    heights := draft.heights
    pending := draft.pending \ {place}
    heights_size := by simp [Chunk.patchShort, draft.heights_size]
    locations_size := by simp [Chunk.patchShort, draft.locations_size]
    inside := fun other h => by
      simp only [Chunk.patchShort, Array.size_setIfInBounds]
      exact draft.inside other h.1
    apart := fun first hfirst second hsecond => draft.apart first hfirst.1 second hsecond.1 }

@[simp] theorem size_land (place distance : Nat) : (draft.land place distance).size = draft.size := by
  simp [size, land, Chunk.patchShort]

/-- Exchanges the tables. -/
def retable (chunk : Chunk) (hcode : chunk.code = draft.chunk.code)
    (hlocations : chunk.locations = draft.chunk.locations) : Draft :=
  { chunk, heights := draft.heights, pending := draft.pending
    heights_size := by rw [hcode, draft.heights_size]
    locations_size := by rw [hcode, hlocations, draft.locations_size]
    inside := fun place h => by
      rw [hcode]
      exact draft.inside place h
    apart := draft.apart }

variable {draft}

theorem completes_op {code : Opcode} {location : Location} {height : Option Nat}
    (h : F.Completes (draft.op code location height)) :
    F.Completes draft ∧ F.chunk.code[draft.size]? = some code.toByte ∧
      F.chunk.locations[draft.size]? = some location ∧ (tracked → F.heights[draft.size]? = some height) :=
  completes_write h

/-- An operation without operands, in code that completes the draft. -/
theorem has_op {code : Opcode} {location : Location} {height : Option Nat} (hcount : code.operandCount = 0)
    (h : F.Completes (draft.op code location height)) :
    F.Completes draft ∧ F.Has draft.size height code 0 0 location := by
  obtain ⟨hdraft, hcode, hlocation, hheight⟩ := completes_op h
  refine ⟨hdraft, Chunk.instructionAt?_of_none hcount hcode, ?_, hheight⟩
  simp [Chunk.locationAt, hlocation]

theorem readShort?_short {value : Nat} {location : Location} (hfits : value ≤ maxOperand)
    (h : F.Completes (draft.short value location)) :
    F.Completes draft ∧ F.chunk.readShort? draft.size = some value := by
  obtain ⟨hhigh, hlow, -, -⟩ := completes_write h
  obtain ⟨hdraft, hfirst, -, -⟩ := completes_write hhigh
  rw [size_write] at hlow
  exact ⟨hdraft, Chunk.readShort?_of_bytes hfits hfirst hlow⟩

/-- An operation with one operand, in code that completes the draft. -/
theorem has_op_short {code : Opcode} {value : Nat} {location : Location} {height : Option Nat}
    (hcount : code.operandCount = 1) (hfits : value ≤ maxOperand)
    (h : F.Completes ((draft.op code location height).short value location)) :
    F.Completes draft ∧ F.Has draft.size height code value 0 location := by
  obtain ⟨hop, hvalue⟩ := readShort?_short hfits h
  obtain ⟨hdraft, hcode, hlocation, hheight⟩ := completes_op hop
  rw [size_op] at hvalue
  refine ⟨hdraft, Chunk.instructionAt?_of_one hcount hcode hvalue, ?_, hheight⟩
  simp [Chunk.locationAt, hlocation]

/-- An operation with an operand that nothing is known about, in code that completes the draft. -/
theorem exists_has_op_short {code : Opcode} {value : Nat} {location : Location} {height : Option Nat}
    (hcount : code.operandCount = 1)
    (h : F.Completes ((draft.op code location height).short value location)) :
    ∃ operand, F.Has draft.size height code operand 0 location := by
  obtain ⟨hhigh, hlow, -, -⟩ := completes_write h
  obtain ⟨hop, hfirst, -, -⟩ := completes_write hhigh
  obtain ⟨-, hcode, hlocation, hheight⟩ := completes_op hop
  rw [size_write, size_op] at hlow
  rw [size_op] at hfirst
  have hread : F.chunk.readShort? (draft.size + 1) =
      some ((UInt8.ofNat (value / 256)).toNat * 256 + (UInt8.ofNat value).toNat) := by
    simp only [Chunk.readShort?, hfirst, hlow]
  refine ⟨_, Chunk.instructionAt?_of_one hcount hcode hread, ?_, hheight⟩
  simp [Chunk.locationAt, hlocation]

/-- An operation with two operands, in code that completes the draft. -/
theorem has_op_short_short {code : Opcode} {first second : Nat} {location : Location}
    {height : Option Nat} (hcount : code.operandCount = 2) (hfirst : first ≤ maxOperand)
    (hsecond : second ≤ maxOperand)
    (h : F.Completes (((draft.op code location height).short first location).short second location)) :
    F.Completes draft ∧ F.Has draft.size height code first second location := by
  obtain ⟨hfirstDraft, hsecondValue⟩ := readShort?_short hsecond h
  obtain ⟨hop, hfirstValue⟩ := readShort?_short hfirst hfirstDraft
  obtain ⟨hdraft, hcode, hlocation, hheight⟩ := completes_op hop
  rw [size_short, size_op] at hsecondValue
  rw [size_op] at hfirstValue
  refine ⟨hdraft, Chunk.instructionAt?_of_two hcount hcode hfirstValue hsecondValue, ?_, hheight⟩
  simp [Chunk.locationAt, hlocation]

theorem grows_op (code : Opcode) (location : Location) (height : Option Nat) :
    draft.Grows (draft.op code location height) :=
  grows_write ..

theorem grows_short (value : Nat) (location : Location) : draft.Grows (draft.short value location) :=
  (grows_write ..).trans (grows_write ..)

end Draft

/-- A jump that leads somewhere, if its operation stands in front of the place of its distance. -/
def Listing.Leads (F : Listing tracked) (place target : Nat) : Prop :=
  ∃ distance, F.chunk.readShort? place = some distance ∧ place + 2 + distance = target

/-- A jump stands at an offset, wherever it leads. -/
structure Listing.Departs (F : Listing tracked) (offset : Nat) (height : Option Nat) (op : Opcode)
    (location : Location) : Prop where
  code : F.chunk.code[offset]? = some op.toByte
  location : F.chunk.locationAt offset = location
  height : tracked → F.heights[offset]? = some height

theorem Listing.Departs.jumps {F : Listing tracked} {offset target : Nat} {height : Option Nat} {op : Opcode}
    {location : Location} (hdeparts : F.Departs offset height op location) (hcount : op.operandCount = 1)
    (hleads : F.Leads (offset + 1) target) : F.Jumps offset height op location target := by
  obtain ⟨distance, hread, htarget⟩ := hleads
  exact ⟨distance, ⟨Chunk.instructionAt?_of_one hcount hdeparts.code hread, hdeparts.location,
    hdeparts.height⟩, by omega⟩

namespace Draft

variable {F : Listing tracked} {draft : Draft}

theorem completes_jump {code : Opcode} {location : Location} {height : Option Nat}
    (h : F.Completes (draft.jump code location height)) :
    F.Completes draft ∧ F.Departs draft.size height code location := by
  let written := ((draft.op code location height).write 0xff location none).write 0xff location none
  have hsize : written.chunk.code.size = draft.size + 3 := by
    change written.size = _
    simp [written]
  have hcode : written.chunk.code =
      ((draft.chunk.code.push code.toByte).push 0xff).push 0xff := rfl
  have hlocations : Begins (draft.chunk.locations.push location) F.chunk.locations :=
    Begins.of_push (Begins.of_push h.locations)
  have hheights (htracked : tracked) : Begins (draft.heights.push height) F.heights :=
    Begins.of_push (Begins.of_push (h.heights htracked))
  refine ⟨⟨fun offset found hfound hsettled => ?_, hlocations.of_push, fun htracked => (hheights htracked).of_push,
      h.tables.rewritten.rewritten.rewritten⟩,
    ⟨h.code _ _ ?_ fun place hplace => ?_, ?_, ?_⟩⟩
  · obtain ⟨hindex, -⟩ := Array.getElem?_eq_some_iff.mp hfound
    refine h.code offset found ?_ ?_
    · change written.chunk.code[offset]? = _
      rw [hcode, Array.getElem?_push_lt (by simp; omega), Array.getElem_push_lt (by simp; omega),
        Array.getElem_push_lt hindex, ← hfound, Array.getElem?_eq_getElem hindex]
    · rintro place (rfl | hplace)
      · unfold size
        omega
      · exact hsettled place hplace
  · change written.chunk.code[draft.size]? = _
    rw [hcode, size, Array.getElem?_push_lt (by simp), Array.getElem_push_lt (by simp),
      Array.getElem_push_eq]
  · rcases hplace with rfl | hplace
    · omega
    · have := draft.inside place hplace
      unfold size
      omega
  · have hlast := hlocations.last
    rw [draft.locations_size] at hlast
    simp [Chunk.locationAt, size, hlast]
  · intro htracked
    have hlast := (hheights htracked).last
    rwa [draft.heights_size] at hlast

theorem grows_jump (code : Opcode) (location : Location) (height : Option Nat) :
    draft.Grows (draft.jump code location height) :=
  ⟨fun _ h => (completes_jump h).1, by simp, fun _ h => Set.mem_insert_of_mem _ h⟩

/-- A jump whose distance was filled in leads there, in all code that completes the draft. -/
theorem completes_land {place distance : Nat} (hplace : place ∈ draft.pending)
    (hfits : distance ≤ maxOperand) (h : F.Completes (draft.land place distance)) :
    F.Completes draft ∧ F.Leads place (place + 2 + distance) := by
  have hinside := draft.inside place hplace
  have hother (other : Nat) (hpending : other ∈ (draft.land place distance).pending) :
      other + 2 ≤ place ∨ place + 2 ≤ other := by
    rcases lt_trichotomy other place with hlt | rfl | hlt
    · exact .inl (draft.apart other hpending.1 place hplace hlt)
    · exact absurd rfl hpending.2
    · exact .inr (draft.apart place hplace other hpending.1 hlt)
  refine ⟨⟨fun offset byte hbyte hsettled => ?_, h.locations, h.heights, h.tables.rewritten⟩, distance,
    Chunk.readShort?_of_bytes hfits ?_ ?_, rfl⟩
  · obtain ⟨hfirst, hsecond⟩ := hsettled place hplace
    refine h.code offset byte ?_ fun other hpending => hsettled other hpending.1
    change ((draft.chunk.code.setIfInBounds place _).setIfInBounds (place + 1) _)[offset]? = _
    rw [Array.getElem?_setIfInBounds_ne (by omega), Array.getElem?_setIfInBounds_ne (by omega)]
    exact hbyte
  · refine h.code _ _ ?_ fun other hpending => ?_
    · change ((draft.chunk.code.setIfInBounds place _).setIfInBounds (place + 1) _)[place]? = _
      rw [Array.getElem?_setIfInBounds_ne (by omega),
        Array.getElem?_setIfInBounds_self_of_lt (by omega)]
    · have := hother other hpending
      omega
  · refine h.code _ _ ?_ fun other hpending => ?_
    · change ((draft.chunk.code.setIfInBounds place _).setIfInBounds (place + 1) _)[place + 1]? = _
      rw [Array.getElem?_setIfInBounds_self_of_lt (by simp; omega)]
    · have := hother other hpending
      omega

/-- Code whose own draft is given completes it, whatever is still open. -/
theorem completes_self (tracked : Prop) (draft : Draft) :
    Listing.Completes (⟨draft.chunk, draft.heights⟩ : Listing tracked) draft :=
  ⟨fun _ _ h _ => h, .refl _, fun _ => .refl _, .refl _, .refl _, .refl _, .refl _, .refl _, .refl _⟩

theorem completes_retable {chunk : Chunk} (hcode : chunk.code = draft.chunk.code)
    (hlocations : chunk.locations = draft.chunk.locations)
    (htables : chunk.TablesBegin F.chunk → draft.chunk.TablesBegin F.chunk)
    (h : F.Completes (draft.retable chunk hcode hlocations)) : F.Completes draft := by
  refine ⟨fun offset byte hbyte => h.code offset byte ?_, ?_, h.heights, htables h.tables⟩
  · change chunk.code[offset]? = _
    rwa [hcode]
  · have := h.locations
    change Begins chunk.locations _ at this
    rwa [hlocations] at this

end Draft

namespace Chunk

variable {chunk longer : Chunk}

theorem tablesBegin_addConstant {value : Constant} (h : TablesBegin (chunk.addConstant value).1 longer) :
    chunk.TablesBegin longer ∧ longer.constants[(chunk.addConstant value).2]? = some value :=
  ⟨⟨h.constants.of_push, h.strings, h.matchers, h.clauses, h.shapes, h.functions⟩, h.constants.last⟩

theorem tablesBegin_addMatcher {matcher : Matcher} (h : TablesBegin (chunk.addMatcher matcher).1 longer) :
    chunk.TablesBegin longer ∧ longer.matchers[(chunk.addMatcher matcher).2]? = some matcher :=
  ⟨⟨h.constants, h.strings, h.matchers.of_push, h.clauses, h.shapes, h.functions⟩, h.matchers.last⟩

theorem tablesBegin_addClause {parameters : List Matcher}
    (h : TablesBegin (chunk.addClause parameters).1 longer) :
    chunk.TablesBegin longer ∧ longer.clauses[(chunk.addClause parameters).2]? = some parameters :=
  ⟨⟨h.constants, h.strings, h.matchers, h.clauses.of_push, h.shapes, h.functions⟩, h.clauses.last⟩

theorem tablesBegin_addFunction {function : Option Prototype}
    (h : TablesBegin (chunk.addFunction function).1 longer) :
    chunk.TablesBegin longer ∧ longer.functions[(chunk.addFunction function).2]? = some function :=
  ⟨⟨h.constants, h.strings, h.matchers, h.clauses, h.shapes, h.functions.of_push⟩, h.functions.last⟩

theorem getElem?_of_findIdx? {α : Type} [BEq α] [LawfulBEq α] {table : Array α} {entry : α} {index : Nat}
    (hfound : table.findIdx? (· == entry) = some index) : table[index]? = some entry := by
  obtain ⟨hindex, hentry, -⟩ := Array.findIdx?_eq_some_iff_getElem.mp hfound
  rw [Array.getElem?_eq_getElem hindex]
  simpa using hentry

theorem tablesBegin_addString {text : String} (h : TablesBegin (chunk.addString text).1 longer) :
    chunk.TablesBegin longer ∧ longer.strings[(chunk.addString text).2]? = some text := by
  unfold addString at h ⊢
  cases hfound : chunk.strings.findIdx? (· == text) with
  | some index =>
    rw [hfound] at h
    exact ⟨h, Chunk.TablesBegin.strings h _ _ (getElem?_of_findIdx? hfound)⟩
  | none =>
    rw [hfound] at h
    exact ⟨⟨h.constants, h.strings.of_push, h.matchers, h.clauses, h.shapes, h.functions⟩,
      h.strings.last⟩

theorem tablesBegin_addShape {names : List String} (h : TablesBegin (chunk.addShape names).1 longer) :
    chunk.TablesBegin longer ∧ longer.shapes[(chunk.addShape names).2]? = some names := by
  unfold addShape at h ⊢
  cases hfound : chunk.shapes.findIdx? (· == names) with
  | some index =>
    rw [hfound] at h
    exact ⟨h, Chunk.TablesBegin.shapes h _ _ (getElem?_of_findIdx? hfound)⟩
  | none =>
    rw [hfound] at h
    exact ⟨⟨h.constants, h.strings, h.matchers, h.clauses, h.shapes.of_push, h.functions⟩,
      h.shapes.last⟩

theorem code_addString (text : String) : (chunk.addString text).1.code = chunk.code := by
  unfold addString
  split <;> rfl

theorem locations_addString (text : String) :
    (chunk.addString text).1.locations = chunk.locations := by
  unfold addString
  split <;> rfl

theorem code_addShape (names : List String) : (chunk.addShape names).1.code = chunk.code := by
  unfold addShape
  split <;> rfl

theorem locations_addShape (names : List String) :
    (chunk.addShape names).1.locations = chunk.locations := by
  unfold addShape
  split <;> rfl

end Chunk

end OwnScript
