import OwnScript.Proofs.Code.Verified
import OwnScript.Proofs.Lowering.Draft

/-!
Code in order. Code under construction splits into instructions, and every operand leads where it may:
into a table, to a variable that there is or to a place in the code where an instruction starts or will
start. Jumps whose distance is still to be filled in are exempt. Code is written at its end, tables get
longer and distances are filled in; nothing of that brings finished instructions out of order.
-/

namespace OwnScript

namespace Opcode

/-- The jumps whose distance may be filled in later. -/
def isForward : Opcode → Bool
  | .jump | .jumpIfFalse | .jumpIfTrue => true
  | _ => false

theorem size_of_isForward {op : Opcode} (hforward : op.isForward = true) : op.size = 3 := by
  cases op <;> first | rfl | cases hforward

end Opcode

/-- How many variables of each kind the operands of a function may refer to. -/
structure Reach where
  globals : Nat
  slots : Nat
  captures : Nat

/-- The variables that operands may refer to have become more. -/
structure Reach.Grows (before after : Reach) : Prop where
  globals : after.globals = before.globals
  slots : before.slots ≤ after.slots
  captures : before.captures ≤ after.captures

theorem Reach.Grows.refl (reach : Reach) : reach.Grows reach :=
  ⟨rfl, le_rfl, le_rfl⟩

theorem Begins.size_le {α : Type} {table longer : Array α} (h : Begins table longer) :
    table.size ≤ longer.size := by
  by_contra hshort
  have hlast : longer.size < table.size := by omega
  have hfound := h _ _ (Array.getElem?_eq_getElem hlast)
  simp at hfound

namespace Chunk

theorem TablesBegin.refl (chunk : Chunk) : chunk.TablesBegin chunk :=
  ⟨.refl _, .refl _, .refl _, .refl _, .refl _, .refl _⟩

/-- The operands of an instruction lead where they may. -/
def OperandsFit (chunk : Chunk) (reach : Reach) (lands : Nat → Prop) (offset a b : Nat) : Opcode → Prop
  | .constant => ∃ value, chunk.constants[a]? = some (.scalar value)
  | .string | .getField | .setField => a < chunk.strings.size
  | .getGlobal | .setGlobal | .moveGlobal => a < reach.globals
  | .getLocal | .setLocal | .moveLocal => a < reach.slots
  | .getUpvalue | .setUpvalue | .moveUpvalue => a < reach.captures
  | .jump | .jumpIfFalse | .jumpIfTrue => lands (offset + 3 + a)
  | .loopBack => a ≤ offset + 3 ∧ lands (offset + 3 - a)
  | .closure => a < chunk.functions.size
  | .record => a < chunk.shapes.size
  | .matchValue => a < chunk.matchers.size ∧ b < reach.slots
  | .matchArgs => a < chunk.clauses.size
  | _ => True

theorem OperandsFit.mono {chunk longer : Chunk} {reach wider : Reach} {lands further : Nat → Prop}
    {offset a b : Nat} {op : Opcode} (hfit : chunk.OperandsFit reach lands offset a b op)
    (htables : chunk.TablesBegin longer) (hreach : reach.Grows wider)
    (hlands : ∀ target, lands target → further target) :
    longer.OperandsFit wider further offset a b op := by
  have hstrings := htables.strings.size_le
  have hfunctions := htables.functions.size_le
  have hshapes := htables.shapes.size_le
  have hmatchers := htables.matchers.size_le
  have hclauses := htables.clauses.size_le
  have hglobals := hreach.globals
  have hslots := hreach.slots
  have hcaptures := hreach.captures
  cases op <;> simp only [OperandsFit] at hfit ⊢ <;> try omega
  case constant => exact hfit.imp fun value => htables.constants a (.scalar value)
  case jump | jumpIfFalse | jumpIfTrue => exact hlands _ hfit
  case loopBack => exact ⟨hfit.1, hlands _ hfit.2⟩

section Splits

variable {chunk longer : Chunk} {start : Nat} {instructions : List (Nat × Opcode)}

theorem Splits.le_offset (hsplits : chunk.Splits start instructions) {offset : Nat} {op : Opcode}
    (hmem : (offset, op) ∈ instructions) : start ≤ offset := by
  induction hsplits with
  | done => cases hmem
  | next _ _ _ _ ih =>
    rcases List.mem_cons.mp hmem with heq | hrest
    · cases heq
      exact le_rfl
    · exact (Nat.le_add_right ..).trans (ih hrest)

/-- Instructions do not overlap. -/
theorem Splits.apart (hsplits : chunk.Splits start instructions) {offset other : Nat} {op next : Opcode}
    (hmem : (offset, op) ∈ instructions) (hother : (other, next) ∈ instructions) (hlt : offset < other) :
    offset + op.size ≤ other := by
  induction hsplits with
  | done => cases hmem
  | next _ _ _ hrest ih =>
    rcases List.mem_cons.mp hmem with heq | hlater
    · cases heq
      rcases List.mem_cons.mp hother with heq | hother
      · cases heq
        omega
      · exact hrest.le_offset hother
    · rcases List.mem_cons.mp hother with heq | hother
      · cases heq
        have := hrest.le_offset hlater
        omega
      · exact ih hlater hother

/-- One more instruction at the end. -/
theorem Splits.snoc (hsplits : chunk.Splits start instructions) (hstart : start ≤ chunk.code.size)
    (hcode : Begins chunk.code longer.code) {op : Opcode}
    (hopcode : longer.code[chunk.code.size]? = some op.toByte)
    (hsize : longer.code.size = chunk.code.size + op.size) :
    longer.Splits start (instructions ++ [(chunk.code.size, op)]) := by
  induction hsplits with
  | @done offset hend =>
    obtain rfl : offset = chunk.code.size := by omega
    exact .next hopcode (Opcode.ofByte?_toByte op) hsize.ge (.done hsize.le)
  | next hbyte hop hend _ ih => exact .next (hcode _ _ hbyte) hop (by omega) (ih hend)

/-- Other code with the same opcode bytes. -/
theorem Splits.of_same (hsplits : chunk.Splits start instructions)
    (hsize : longer.code.size = chunk.code.size)
    (hsame : ∀ offset op, (offset, op) ∈ instructions → longer.code[offset]? = chunk.code[offset]?) :
    longer.Splits start instructions := by
  induction hsplits with
  | done hend => exact .done (hsize.trans_le hend)
  | next hbyte hop hend _ ih =>
    refine .next ((hsame _ _ (List.mem_cons_self ..)).trans hbyte) hop (hsize ▸ hend) (ih ?_)
    exact fun offset op hmem => hsame offset op (List.mem_cons_of_mem _ hmem)

end Splits

/-- An instruction reads the same in code with the same bytes there. -/
theorem instructionAt?_congr {chunk longer : Chunk} {offset : Nat} {op : Opcode} {a b : Nat}
    (hinstruction : chunk.instructionAt? offset = some (op, a, b))
    (hsame : ∀ index, offset ≤ index → index < offset + op.size → longer.code[index]? = chunk.code[index]?) :
    longer.instructionAt? offset = some (op, a, b) := by
  have hsize : op.size = 1 + 2 * op.operandCount := rfl
  simp only [instructionAt?, Option.bind_eq_bind, Option.bind_eq_some_iff, Option.pure_def,
    Option.some.injEq, Prod.mk.injEq] at hinstruction ⊢
  obtain ⟨byte, hbyte, found, hop, first, hfirst, second, hsecond, rfl, rfl, rfl⟩ := hinstruction
  have hread (i : Nat) (value : Nat) (h : chunk.operandAt? found offset i = some value) :
      longer.operandAt? found offset i = some value := by
    unfold operandAt? at h ⊢
    split
    · rename_i hi
      rw [if_pos hi] at h
      unfold readShort? at h ⊢
      rw [hsame _ (by omega) (by omega), hsame (offset + 1 + 2 * i + 1) (by omega) (by omega)]
      exact h
    · rename_i hi
      rwa [if_neg hi] at h
  refine ⟨byte, ?_, found, hop, first, hread 0 first hfirst, second, hread 1 second hsecond, rfl, rfl, rfl⟩
  rw [hsame offset le_rfl (by omega)]
  exact hbyte

/-- A jump forward is its byte and the distance. -/
theorem instructionAt?_of_forward {chunk : Chunk} {offset a : Nat} {op : Opcode} {byte : UInt8}
    (hforward : op.isForward = true) (hbyte : chunk.code[offset]? = some byte)
    (hop : Opcode.ofByte? byte = some op) (ha : chunk.readShort? (offset + 1) = some a) :
    chunk.instructionAt? offset = some (op, a, 0) := by
  have hcount : op.operandCount = 1 := by cases op <;> first | rfl | cases hforward
  simp [instructionAt?, operandAt?, hbyte, hop, hcount, ha]

/-- Control may get to a place: an instruction starts there, or will once more code is written. -/
def Lands (chunk : Chunk) (starts : List (Nat × Opcode)) (target : Nat) : Prop :=
  target = chunk.code.size ∨ ∃ op, (target, op) ∈ starts

end Chunk

/-- A function whose code is in order and whose captures are variables of the function around it, with at
most so many levels of functions from it downwards. -/
inductive Prototype.Built (globals : Nat) : Nat → Nat → Nat → Prototype → Prop where
  | intro {prototype : Prototype} {chunk : Chunk} {starts : List (Nat × Opcode)} {slots captures levels : Nat} :
      prototype.chunk = some chunk → chunk.locations.size = chunk.code.size → chunk.Splits 0 starts →
      (∃ last, starts.getLast? = some last ∧ last.2.endsControlFlow = true) →
      (∀ offset op, (offset, op) ∈ starts → ∃ a b, chunk.instructionAt? offset = some (op, a, b) ∧
        chunk.OperandsFit ⟨globals, prototype.maxSlots, prototype.captures.size⟩
          (fun target => ∃ next, (target, next) ∈ starts) offset a b op) →
      (∀ capture ∈ prototype.captures, capture.index < if capture.isLocal then slots else captures) →
      (∀ function ∈ chunk.functions, function.isSome = true) →
      (∀ inner, some inner ∈ chunk.functions →
        Built globals prototype.maxSlots prototype.captures.size levels inner) →
      Built globals slots captures (levels + 1) prototype

theorem Prototype.Built.mono {globals slots captures levels : Nat} {prototype : Prototype}
    (hbuilt : prototype.Built globals slots captures levels) {wider further more : Nat} (hslots : slots ≤ wider)
    (hcaptures : captures ≤ further) (hlevels : levels ≤ more) : prototype.Built globals wider further more := by
  induction hbuilt generalizing wider further more with
  | intro hchunk hlocations hsplits hlast hoperands hwithin hpresent _ ih =>
    obtain ⟨more, rfl⟩ : ∃ fewer, more = fewer + 1 := ⟨more - 1, by omega⟩
    refine .intro hchunk hlocations hsplits hlast hoperands (fun capture hcapture => ?_) hpresent
      fun inner hinner => ih inner hinner le_rfl le_rfl (by omega)
    have := hwithin capture hcapture
    split at this <;> simp_all <;> omega

namespace Chunk

/-- Code under construction that is in order, apart from the jumps whose operands are at the pending
places. -/
structure Ordered (chunk : Chunk) (reach : Reach) (levels : Nat) (pending : Set Nat)
    (starts : List (Nat × Opcode)) : Prop where
  locations : chunk.locations.size = chunk.code.size
  splits : chunk.Splits 0 starts
  operands : ∀ offset op, (offset, op) ∈ starts → (op.isForward = true ∧ offset + 1 ∈ pending) ∨
    ∃ a b, chunk.instructionAt? offset = some (op, a, b) ∧
      chunk.OperandsFit reach (chunk.Lands starts) offset a b op
  pending : ∀ place ∈ pending, ∃ offset op, (offset, op) ∈ starts ∧ op.isForward = true ∧ offset + 1 = place
  present : ∀ function ∈ chunk.functions, function.isSome = true
  functions : ∀ inner, some inner ∈ chunk.functions →
    inner.Built reach.globals reach.slots reach.captures levels

theorem ordered_empty (reach : Reach) (levels : Nat) : Ordered {} reach levels ∅ [] where
  locations := rfl
  splits := .done (Nat.le_refl _)
  operands _ _ h := by cases h
  pending _ h := h.elim
  present _ h := by simp at h
  functions _ h := by simp at h

namespace Ordered

variable {chunk longer : Chunk} {reach wider : Reach} {levels : Nat} {pending : Set Nat}
  {starts : List (Nat × Opcode)}

theorem lt_size (hordered : chunk.Ordered reach levels pending starts) {offset : Nat} {op : Opcode}
    (hmem : (offset, op) ∈ starts) : offset + op.size ≤ chunk.code.size := by
  obtain ⟨_, _, _, hend⟩ := hordered.splits.instruction hmem
  exact hend

/-- More variables to refer to. -/
theorem widen (hordered : chunk.Ordered reach levels pending starts) (hreach : reach.Grows wider) :
    chunk.Ordered wider levels pending starts := by
  refine ⟨hordered.locations, hordered.splits, fun offset op hmem => ?_, hordered.pending, hordered.present,
    fun inner hinner => ?_⟩
  · refine (hordered.operands offset op hmem).imp_right ?_
    rintro ⟨a, b, hinstruction, hfit⟩
    exact ⟨a, b, hinstruction, hfit.mono (.refl _) hreach fun _ h => h⟩
  · rw [hreach.globals]
    exact (hordered.functions inner hinner).mono hreach.slots hreach.captures le_rfl

/-- Longer tables. A function that was added is itself in order. -/
theorem retable (hordered : chunk.Ordered reach levels pending starts) (hcode : longer.code = chunk.code)
    (hlocations : longer.locations = chunk.locations) (htables : chunk.TablesBegin longer)
    (hfunctions : ∀ function ∈ longer.functions, function ∈ chunk.functions ∨
      ∃ inner, function = some inner ∧ inner.Built reach.globals reach.slots reach.captures levels) :
    longer.Ordered reach levels pending starts := by
  have hlands (target : Nat) (h : chunk.Lands starts target) : longer.Lands starts target := by
    rwa [Lands, hcode]
  refine ⟨by rw [hlocations, hcode, hordered.locations], ?_, fun offset op hmem => ?_, hordered.pending,
    fun function hfunction => ?_, fun inner hinner => ?_⟩
  · exact hordered.splits.of_same (by rw [hcode]) fun _ _ _ => by rw [hcode]
  · refine (hordered.operands offset op hmem).imp_right ?_
    rintro ⟨a, b, hinstruction, hfit⟩
    exact ⟨a, b, instructionAt?_congr hinstruction fun _ _ _ => by rw [hcode],
      hfit.mono htables (.refl _) hlands⟩
  · rcases hfunctions function hfunction with hold | ⟨inner, rfl, -⟩
    · exact hordered.present function hold
    · rfl
  · rcases hfunctions _ hinner with hold | ⟨added, hadded, hbuilt⟩
    · exact hordered.functions inner hold
    · cases hadded
      exact hbuilt

/-- Code that goes on behind finished instructions keeps them. -/
theorem operands_of_begins (hordered : chunk.Ordered reach levels pending starts)
    (hcode : Begins chunk.code longer.code) (htables : chunk.TablesBegin longer) {lands : Nat → Prop}
    (hlands : ∀ target, chunk.Lands starts target → lands target) {offset : Nat} {op : Opcode}
    (hmem : (offset, op) ∈ starts) :
    (op.isForward = true ∧ offset + 1 ∈ pending) ∨ ∃ a b, longer.instructionAt? offset = some (op, a, b) ∧
      longer.OperandsFit reach lands offset a b op := by
  have hend := hordered.lt_size hmem
  refine (hordered.operands offset op hmem).imp_right ?_
  rintro ⟨a, b, hinstruction, hfit⟩
  refine ⟨a, b, instructionAt?_congr hinstruction fun index _ hindex => ?_, hfit.mono htables (.refl _) hlands⟩
  have hinside : index < chunk.code.size := by omega
  rw [Array.getElem?_eq_getElem hinside]
  exact hcode _ _ (Array.getElem?_eq_getElem hinside)

end Ordered

/-- Code with one instruction more at its end, and the same tables. -/
structure Appends (chunk longer : Chunk) (op : Opcode) : Prop where
  code : Begins chunk.code longer.code
  opcode : longer.code[chunk.code.size]? = some op.toByte
  size : longer.code.size = chunk.code.size + op.size
  locations : longer.locations.size = chunk.locations.size + op.size
  tables : chunk.TablesBegin longer
  functions : longer.functions = chunk.functions

section Writing

variable {chunk : Chunk} {location : Location}

theorem appends_op {op : Opcode} (hcount : op.operandCount = 0) :
    chunk.Appends (chunk.writeOp op location) op ∧
      (chunk.writeOp op location).instructionAt? chunk.code.size = some (op, 0, 0) := by
  have hsize : op.size = 1 + 2 * op.operandCount := rfl
  have hopcode : (chunk.writeOp op location).code[chunk.code.size]? = some op.toByte := Array.getElem?_push_size
  refine ⟨⟨Begins.of_push (.refl _), hopcode, ?_, ?_, ⟨.refl _, .refl _, .refl _, .refl _, .refl _, .refl _⟩, rfl⟩,
    instructionAt?_of_none hcount hopcode⟩
  · simp [writeOp, write, hsize, hcount]
  · simp [writeOp, write, hsize, hcount]

/-- Two bytes behind an operation. -/
theorem appends_pair {op : Opcode} (hcount : op.operandCount = 1) (first second : UInt8) :
    chunk.Appends (((chunk.writeOp op location).write first location).write second location) op := by
  have hsize : op.size = 1 + 2 * op.operandCount := rfl
  refine ⟨Begins.of_push (Begins.of_push (Begins.of_push (.refl _))), ?_, ?_, ?_,
    ⟨.refl _, .refl _, .refl _, .refl _, .refl _, .refl _⟩, rfl⟩
  · exact Begins.last (Begins.of_push (Begins.of_push (.refl _)))
  · simp [writeOp, write, hsize, hcount]
  · simp [writeOp, write, hsize, hcount]

theorem size_writeOp (chunk : Chunk) (op : Opcode) (location : Location) :
    (chunk.writeOp op location).code.size = chunk.code.size + 1 :=
  Array.size_push ..

theorem size_writeShort (chunk : Chunk) (value : Nat) (location : Location) :
    (chunk.writeShort value location).code.size = chunk.code.size + 2 := by
  simp [writeShort, write]

/-- An operand that was written is read back. -/
theorem readShort?_writeShort (chunk : Chunk) {value : Nat} (hfits : value ≤ maxOperand) :
    (chunk.writeShort value location).readShort? chunk.code.size = some value := by
  let high := UInt8.ofNat (value / 256)
  have hhigh : (chunk.code.push high)[chunk.code.size]? = some high := Array.getElem?_push_size
  refine readShort?_of_bytes hfits (Begins.of_push (.refl _) _ _ hhigh) ?_
  have hlow := Begins.last (.refl ((chunk.code.push high).push (UInt8.ofNat value)))
  rwa [Array.size_push] at hlow

theorem readShort?_of_begins {longer : Chunk} (hcode : Begins chunk.code longer.code) {offset value : Nat}
    (hread : chunk.readShort? offset = some value) : longer.readShort? offset = some value := by
  unfold readShort? at hread ⊢
  split at hread
  · rename_i high low hhigh hlow
    rw [hcode _ _ hhigh, hcode _ _ hlow]
    exact hread
  · cases hread

theorem appends_opShort {op : Opcode} (hcount : op.operandCount = 1) {value : Nat} (hfits : value ≤ maxOperand) :
    chunk.Appends ((chunk.writeOp op location).writeShort value location) op ∧
      ((chunk.writeOp op location).writeShort value location).instructionAt? chunk.code.size
        = some (op, value, 0) := by
  have happends : chunk.Appends ((chunk.writeOp op location).writeShort value location) op :=
    appends_pair hcount _ _
  refine ⟨happends, instructionAt?_of_one hcount happends.opcode ?_⟩
  rw [← size_writeOp chunk op location]
  exact readShort?_writeShort _ hfits

/-- An operation with two operands. -/
theorem appends_opShortShort {op : Opcode} (hcount : op.operandCount = 2) {first second : Nat}
    (hfirst : first ≤ maxOperand) (hsecond : second ≤ maxOperand) :
    chunk.Appends (((chunk.writeOp op location).writeShort first location).writeShort second location) op ∧
      (((chunk.writeOp op location).writeShort first location).writeShort second location).instructionAt?
        chunk.code.size = some (op, first, second) := by
  have hsize : op.size = 1 + 2 * op.operandCount := rfl
  let named := chunk.writeOp op location
  let one := named.writeShort first location
  have hlater : Begins one.code (one.writeShort second location).code := Begins.of_push (Begins.of_push (.refl _))
  have hnamed : Begins named.code one.code := Begins.of_push (Begins.of_push (.refl _))
  have hopcode : (one.writeShort second location).code[chunk.code.size]? = some op.toByte :=
    hlater _ _ (hnamed _ _ Array.getElem?_push_size)
  have hfirstRead : (one.writeShort second location).readShort? (chunk.code.size + 1) = some first := by
    have hread : one.readShort? named.code.size = some first := readShort?_writeShort named hfirst
    rw [size_writeOp] at hread
    exact readShort?_of_begins hlater hread
  have hsecondRead : (one.writeShort second location).readShort? (chunk.code.size + 3) = some second := by
    have hread : (one.writeShort second location).readShort? one.code.size = some second :=
      readShort?_writeShort one hsecond
    rwa [size_writeShort, size_writeOp] at hread
  refine ⟨⟨?_, hopcode, ?_, ?_, ⟨.refl _, .refl _, .refl _, .refl _, .refl _, .refl _⟩, rfl⟩,
    instructionAt?_of_two hcount hopcode hfirstRead hsecondRead⟩
  · exact fun index byte hbyte => hlater _ _ (hnamed _ _ (Begins.of_push (.refl _) index byte hbyte))
  · simp [writeShort, writeOp, write, hsize, hcount]
  · simp [writeShort, writeOp, write, hsize, hcount]

end Writing

namespace Ordered

variable {chunk longer : Chunk} {reach : Reach} {levels : Nat} {pending : Set Nat}
  {starts : List (Nat × Opcode)} {op : Opcode}

/-- Once another instruction is written, one starts wherever control may get to so far. -/
theorem starts_append {target : Nat} (hlands : chunk.Lands starts target) :
    ∃ next, (target, next) ∈ starts ++ [(chunk.code.size, op)] := by
  rcases hlands with rfl | ⟨next, hmem⟩
  · exact ⟨op, List.mem_append_right _ (List.mem_singleton.mpr rfl)⟩
  · exact ⟨next, List.mem_append_left _ hmem⟩

/-- One more instruction, whose operands fit or are pending. -/
theorem append (hordered : chunk.Ordered reach levels pending starts) (happends : chunk.Appends longer op)
    {open_ : Set Nat} (hpending : pending ⊆ open_)
    (hnew : ∀ place ∈ open_, place ∈ pending ∨ (op.isForward = true ∧ chunk.code.size + 1 = place))
    (hoperands : (op.isForward = true ∧ chunk.code.size + 1 ∈ open_) ∨
      ∃ a b, longer.instructionAt? chunk.code.size = some (op, a, b) ∧
        longer.OperandsFit reach (longer.Lands (starts ++ [(chunk.code.size, op)])) chunk.code.size a b op) :
    longer.Ordered reach levels open_ (starts ++ [(chunk.code.size, op)]) := by
  refine ⟨?_, hordered.splits.snoc (Nat.zero_le _) happends.code happends.opcode happends.size,
    fun offset other hmem => ?_, fun place hplace => ?_, ?_, ?_⟩
  · rw [happends.locations, happends.size, hordered.locations]
  · rcases List.mem_append.mp hmem with hold | hlast
    · exact (hordered.operands_of_begins happends.code happends.tables
        (fun _ h => .inr (starts_append h)) hold).imp_left fun h => ⟨h.1, hpending h.2⟩
    · cases List.mem_singleton.mp hlast
      exact hoperands
  · rcases hnew place hplace with hold | ⟨hforward, rfl⟩
    · obtain ⟨offset, other, hmem, hforward, hplace⟩ := hordered.pending place hold
      exact ⟨offset, other, List.mem_append_left _ hmem, hforward, hplace⟩
    · exact ⟨_, op, List.mem_append_right _ (List.mem_singleton.mpr rfl), hforward, rfl⟩
  · rw [happends.functions]
    exact hordered.present
  · rw [happends.functions]
    exact hordered.functions

/-- A distance is filled in: the jump leads to the end of the code. -/
theorem patch {place : Nat} (hordered : chunk.Ordered reach levels (insert place pending) starts)
    (hfits : chunk.code.size - place - 2 ≤ maxOperand) :
    (chunk.patchShort place (chunk.code.size - place - 2)).Ordered reach levels pending starts := by
  obtain ⟨first, branch, hjump, hforward, rfl⟩ := hordered.pending place (Set.mem_insert ..)
  have hsize := Opcode.size_of_isForward hforward
  have hend := hordered.lt_size hjump
  rw [hsize] at hend
  let distance := chunk.code.size - (first + 1) - 2
  let patched := chunk.patchShort (first + 1) distance
  have hcode : patched.code = (chunk.code.setIfInBounds (first + 1) (UInt8.ofNat (distance / 256))).setIfInBounds
      (first + 1 + 1) (UInt8.ofNat distance) := rfl
  have hlength : patched.code.size = chunk.code.size := by simp [hcode]
  have hsame (index : Nat) (hfirst : index ≠ first + 1) (hsecond : index ≠ first + 2) :
      patched.code[index]? = chunk.code[index]? := by
    rw [hcode, Array.getElem?_setIfInBounds_ne (by omega), Array.getElem?_setIfInBounds_ne (by omega)]
  -- The bytes of any other instruction are not those of the distance.
  have hapart (offset : Nat) (op : Opcode) (hmem : (offset, op) ∈ starts) (hother : offset ≠ first)
      (index : Nat) (hlow : offset ≤ index) (hhigh : index < offset + op.size) :
      patched.code[index]? = chunk.code[index]? := by
    rcases Nat.lt_or_gt_of_ne hother with hlt | hgt
    · have := hordered.splits.apart hmem hjump hlt
      exact hsame index (by omega) (by omega)
    · have := hordered.splits.apart hjump hmem hgt
      rw [hsize] at this
      exact hsame index (by omega) (by omega)
  have hlands (target : Nat) (h : chunk.Lands starts target) : patched.Lands starts target := by
    rwa [Lands, hlength]
  have htables : chunk.TablesBegin patched := ⟨.refl _, .refl _, .refl _, .refl _, .refl _, .refl _⟩
  refine ⟨hordered.locations.trans hlength.symm,
    hordered.splits.of_same hlength fun offset op hmem => ?_, fun offset op hmem => ?_,
    fun other hother => hordered.pending other (Set.mem_insert_of_mem _ hother), hordered.present,
    hordered.functions⟩
  · by_cases hother : offset = first
    · exact hsame offset (by omega) (by omega)
    · have hpos : 0 < op.size := Nat.add_pos_left Nat.one_pos _
      exact hapart offset op hmem hother offset le_rfl (by omega)
  · by_cases hother : offset = first
    · subst hother
      obtain ⟨byte, hbyte, hop, -⟩ := hordered.splits.instruction hmem
      obtain ⟨_, hsameByte, hsameOp, -⟩ := hordered.splits.instruction hjump
      rw [hbyte] at hsameByte
      cases hsameByte
      rw [hop] at hsameOp
      cases hsameOp
      refine .inr ⟨distance, 0, ?_, ?_⟩
      · refine instructionAt?_of_forward hforward ((hsame offset (by omega) (by omega)).trans hbyte) hop
          (readShort?_of_bytes hfits ?_ ?_)
        · rw [hcode, Array.getElem?_setIfInBounds_ne (by omega),
            Array.getElem?_setIfInBounds_self_of_lt (by omega)]
        · rw [hcode, Array.getElem?_setIfInBounds_self_of_lt (by simp; omega)]
      · have htarget : offset + 3 + distance = patched.code.size := by omega
        have hfit : patched.Lands starts (offset + 3 + distance) := .inl htarget
        cases branch <;> first | exact hfit | cases hforward
    · rcases hordered.operands offset op hmem with ⟨hforward, hplace⟩ | ⟨a, b, hinstruction, hfit⟩
      · refine .inl ⟨hforward, hplace.resolve_left ?_⟩
        omega
      · exact .inr ⟨a, b, instructionAt?_congr hinstruction (hapart offset op hmem hother),
          hfit.mono htables (.refl _) hlands⟩

/-- Code without pending jumps, closed by an instruction that ends control flow, is that of a function. -/
theorem built {prototype : Prototype} {globals slots captures : Nat}
    (hordered : chunk.Ordered ⟨globals, prototype.maxSlots, prototype.captures.size⟩ levels ∅ starts)
    (happends : chunk.Appends longer op) (hcount : op.operandCount = 0) (hends : op.endsControlFlow = true)
    (hchunk : prototype.chunk = some longer)
    (hwithin : ∀ capture ∈ prototype.captures,
      capture.index < if capture.isLocal then slots else captures) :
    prototype.Built globals slots captures (levels + 1) := by
  refine .intro hchunk ?_ (hordered.splits.snoc (Nat.zero_le _) happends.code happends.opcode happends.size)
    ⟨_, List.getLast?_concat .., hends⟩ (fun offset other hmem => ?_) hwithin ?_ ?_
  · rw [happends.locations, happends.size, hordered.locations]
  · rcases List.mem_append.mp hmem with hold | hlast
    · exact (hordered.operands_of_begins happends.code happends.tables (fun _ => starts_append)
        hold).resolve_left fun h => h.2
    · cases List.mem_singleton.mp hlast
      refine ⟨0, 0, instructionAt?_of_none hcount happends.opcode, ?_⟩
      cases op <;> trivial
  · rw [happends.functions]
    exact hordered.present
  · rw [happends.functions]
    exact hordered.functions

end Ordered

end Chunk

end OwnScript
