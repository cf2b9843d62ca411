import OwnScript.Code.Listing
import OwnScript.Proofs.Code.Verified

/-!
Listings of code, whatever bytes it has. A line is written with looks into the code and the tables that all stay inside
them, and the next line belongs to a later offset, so the listing ends. Code that was accepted is listed as the check
splits it: one line for each instruction, at the offset where the instruction starts.
-/

namespace OwnScript.Chunk

variable {chunk : Chunk} {offset : Nat} {op : Opcode}

/-- A look into a table behind the question whether the index is inside: there is no answer if the look itself goes
outside, and no entry if the question is denied. -/
def lookInside? {α : Type} (table : Array α) (index : Nat) : Option (Option α) := do
  if index < table.size then
    let entry ← table[index]?
    return some entry
  else return none

/-- The number of a function and its name, if there is one. -/
def listFunction (index : Nat) (function : Option (Option Prototype)) : String :=
  let name := match function with
    | some (some prototype) => s!" <{prototype.name}>"
    | _ => ""
  " " ++ Text.alignRight 4 ' ' (toString index) ++ name

/-- The operands of an instruction as they are listed, with each look into the code or a table in the open: there is no
answer if one of them goes outside. -/
def readOperands? (chunk : Chunk) (op : Opcode) (offset : Nat) : Option String :=
  let operand (i : Nat) : Option Nat := chunk.readShort? (offset + 1 + 2 * i)
  match op with
  | .constant => do
    let index ← operand 0
    let entry ← lookInside? chunk.constants index
    return listEntry index (entry.map Constant.shown)
  | .string | .getField | .setField => do
    let index ← operand 0
    let entry ← lookInside? chunk.strings index
    return listEntry index entry
  | .jump | .jumpIfFalse | .jumpIfTrue => do
    let distance ← operand 0
    return listJump offset (offset + 3 + distance)
  | .loopBack => do
    let distance ← operand 0
    return listJump offset ((offset + 3 + UInt64.size - distance) % UInt64.size)
  | .closure => do
    let index ← operand 0
    let function ← lookInside? chunk.functions index
    return listFunction index function
  | _ => do
    let operands ← (List.range op.operandCount).mapM operand
    return String.join (operands.map fun operand => s!" {operand}")

/-- The line at an offset and the offset of the next one, with each look into the code or a table in the open. -/
def readInstruction? (chunk : Chunk) (offset : Nat) : Option (String × Nat) := do
  let place := chunk.listPlace offset
  let byte ← chunk.code[offset]?
  match Opcode.ofByte? byte with
  | none => return (s!"{place}Unknown opcode {byte.toNat}\n", offset + 1)
  | some op =>
    if offset + op.size > chunk.code.size then return (s!"{place}{op.name} <truncated>\n", chunk.code.size)
    else
      let operands ← chunk.readOperands? op offset
      return (place ++ Text.alignLeft 16 op.name ++ operands ++ "\n", offset + op.size)

/-- The operands of an instruction that ends inside the code can be read. -/
theorem readShort?_isSome {i : Nat} (hi : i < op.operandCount) (hend : offset + op.size ≤ chunk.code.size) :
    ∃ operand, chunk.readShort? (offset + 1 + 2 * i) = some operand := by
  unfold Opcode.size at hend
  have hhigh : offset + 1 + 2 * i < chunk.code.size := by omega
  have hlow : offset + 1 + 2 * i + 1 < chunk.code.size := by omega
  unfold readShort?
  rw [Array.getElem?_eq_getElem hhigh, Array.getElem?_eq_getElem hlow]
  exact ⟨_, rfl⟩

/-- No look goes outside of its table when the question was asked. -/
theorem lookInside?_eq {α : Type} (table : Array α) (index : Nat) : lookInside? table index = some table[index]? := by
  unfold lookInside?
  by_cases hinside : index < table.size
  · rw [if_pos hinside, Array.getElem?_eq_getElem hinside]
    rfl
  · rw [if_neg hinside, Array.getElem?_eq_none (Nat.le_of_not_lt hinside)]
    rfl

/-- Looks that all find something find a list. -/
theorem mapM_of_some {α β : Type} {look : α → Option β} {seen : α → β} {entries : List α}
    (hlook : ∀ entry ∈ entries, look entry = some (seen entry)) : entries.mapM look = some (entries.map seen) := by
  induction entries with
  | nil => rfl
  | cons first rest ih =>
    obtain ⟨hfirst, hrest⟩ := List.forall_mem_cons.mp hlook
    rw [List.mapM_cons, hfirst, ih hrest]
    rfl

/-- An instruction that ends inside the code is listed without a look outside. -/
theorem readOperands?_eq (hend : offset + op.size ≤ chunk.code.size) :
    chunk.readOperands? op offset = some (chunk.listOperands op offset) := by
  have hread : ∀ i < op.operandCount, chunk.readShort? (offset + 1 + 2 * i) =
      some ((chunk.readShort? (offset + 1 + 2 * i)).getD 0) := by
    intro i hi
    obtain ⟨operand, hoperand⟩ := readShort?_isSome hi hend
    rw [hoperand]
    rfl
  have hplain : (do
      let operands ← (List.range op.operandCount).mapM fun i => chunk.readShort? (offset + 1 + 2 * i)
      return String.join (operands.map fun operand => s!" {operand}")) =
      some (String.join ((List.range op.operandCount).map fun i =>
        s!" {(chunk.readShort? (offset + 1 + 2 * i)).getD 0}")) := by
    rw [mapM_of_some fun i hi => hread i (List.mem_range.mp hi)]
    simp only [Option.bind_eq_bind, Option.bind_some, List.map_map]
    rfl
  have hfirst (hcount : 0 < op.operandCount) : ∃ operand, chunk.readShort? (offset + 1 + 2 * 0) = some operand :=
    readShort?_isSome hcount hend
  cases op
  case constant | string | getField | setField | closure =>
    obtain ⟨index, hindex⟩ := hfirst Nat.one_pos
    simp only [readOperands?, listOperands, hindex, Option.bind_eq_bind, Option.bind_some, lookInside?_eq,
      Option.getD_some]
    rfl
  case jump | jumpIfFalse | jumpIfTrue | loopBack =>
    obtain ⟨distance, hdistance⟩ := hfirst Nat.one_pos
    simp only [readOperands?, listOperands, hdistance, Option.bind_eq_bind, Option.bind_some, Option.getD_some]
    rfl
  all_goals exact hplain

/-- Any offset inside the code has a line, and no look for it goes outside. -/
theorem readInstruction?_eq (hinside : offset < chunk.code.size) :
    chunk.readInstruction? offset = some (chunk.listInstruction offset) := by
  simp only [readInstruction?, listInstruction]
  rw [Array.getElem?_eq_getElem hinside]
  simp only [Option.bind_eq_bind, Option.bind_some, Option.getD_some]
  cases hop : Opcode.ofByte? chunk.code[offset] with
  | none => rfl
  | some op =>
    by_cases hcut : offset + op.size > chunk.code.size
    · simp only [if_pos hcut]
      rfl
    · simp only [if_neg hcut]
      rw [readOperands?_eq (Nat.le_of_not_lt hcut)]
      rfl

/-- The next line belongs to a later offset, the end of the code at most. -/
theorem listInstruction_advances (hinside : offset < chunk.code.size) :
    offset < (chunk.listInstruction offset).2 ∧ (chunk.listInstruction offset).2 ≤ chunk.code.size := by
  unfold listInstruction
  dsimp only
  cases Opcode.ofByte? (chunk.code[offset]?.getD 0) with
  | none => exact ⟨Nat.lt_succ_self _, hinside⟩
  | some op =>
    have hsize : 1 ≤ op.size := Nat.le_add_right 1 _
    dsimp only
    split
    · exact ⟨hinside, le_rfl⟩
    · dsimp only
      omega

/-- The lines from an offset on, each with the offset it belongs to. A line is written without a look outside, and the
next one belongs to a later offset; there are no more at the end of the code. -/
inductive Lists (chunk : Chunk) : Nat → List (Nat × String) → Prop where
  | done {offset : Nat} : chunk.code.size ≤ offset → Lists chunk offset []
  | next {offset next : Nat} {line : String} {rest : List (Nat × String)} : offset < chunk.code.size →
      chunk.readInstruction? offset = some (line, next) → offset < next → next ≤ chunk.code.size →
      Lists chunk next rest → Lists chunk offset ((offset, line) :: rest)

theorem Lists.unique {first second : List (Nat × String)} (hfirst : chunk.Lists offset first)
    (hsecond : chunk.Lists offset second) : first = second := by
  induction hfirst generalizing second with
  | done hend =>
    cases hsecond with
    | done => rfl
    | next hinside => omega
  | next hinside hread _ _ _ ih =>
    cases hsecond with
    | done hend => omega
    | next _ hread' _ _ hrest =>
      rw [hread] at hread'
      cases hread'
      rw [ih hrest]

/-- The listing from an offset on ends, and it consists of the lines from there on. There are at most as many as there
are bytes, since each line moves on. -/
theorem listFrom_lists {bytes : Nat} (hbytes : chunk.code.size ≤ offset + bytes) (text : String) :
    ∃ lines, chunk.Lists offset lines ∧
      chunk.listFrom bytes offset text = text ++ String.join (lines.map Prod.snd) := by
  induction bytes generalizing offset text with
  | zero => exact ⟨[], .done hbytes, by simp [listFrom]⟩
  | succ bytes ih =>
    unfold listFrom
    by_cases hinside : offset < chunk.code.size
    · obtain ⟨hlater, hend⟩ := listInstruction_advances hinside
      obtain ⟨lines, hlines, hrest⟩ := @ih (chunk.listInstruction offset).2 (by omega)
        (text ++ (chunk.listInstruction offset).1)
      refine ⟨(offset, (chunk.listInstruction offset).1) :: lines,
        .next hinside (readInstruction?_eq hinside) hlater hend hlines, ?_⟩
      rw [if_pos hinside]
      dsimp only
      rw [hrest, List.map_cons, String.join_cons, String.append_assoc]
    · exact ⟨[], .done (Nat.le_of_not_lt hinside), by simp [hinside]⟩

/-- The listings of those functions that have code. -/
def innerListings (functions : List (Option Prototype)) : List String :=
  functions.filterMap fun function => do
    let prototype ← function
    let chunk ← prototype.chunk
    return chunk.listing prototype.name

theorem listEach_eq (functions : List (Option Prototype)) (text : String) :
    listEach functions text = text ++ String.join (innerListings functions) := by
  induction functions generalizing text with
  | nil => simp [listEach, innerListings]
  | cons first rest ih =>
    match first with
    | none => simp [listEach, ih, innerListings]
    | some ⟨name, _, _, none, _⟩ => simp [listEach, ih, innerListings]
    | some ⟨name, _, _, some chunk, _⟩ =>
      rw [listEach, ih, String.append_assoc, ← String.join_cons]
      rfl

/-- A listing is the code of a chunk under its heading, and then the listings of the functions in it. -/
theorem listing_eq (chunk : Chunk) (name : String) :
    chunk.listing name = chunk.listCode name ++ String.join (innerListings chunk.functions.toList) := by
  obtain ⟨code, locations, constants, strings, matchers, clauses, shapes, ⟨functions⟩⟩ := chunk
  rw [listing, listFunctions, listEach_eq, String.empty_append]

/-- The line of an instruction, found at an offset. -/
def instructionLine (chunk : Chunk) (instruction : Nat × Opcode) : Nat × String :=
  (instruction.1, chunk.listPlace instruction.1 ++ Text.alignLeft 16 instruction.2.name
    ++ chunk.listOperands instruction.2 instruction.1 ++ "\n")

/-- Code that splits into instructions is listed with one line for each. -/
theorem Splits.lists {instructions : List (Nat × Opcode)} (hsplits : chunk.Splits offset instructions) :
    chunk.Lists offset (instructions.map chunk.instructionLine) := by
  induction hsplits with
  | done hend => exact .done hend
  | @next offset op byte rest hbyte hop hend _ ih =>
    obtain ⟨hinside, hbyte⟩ := Array.getElem?_eq_some_iff.mp hbyte
    have hline : chunk.listInstruction offset = ((chunk.instructionLine (offset, op)).2, offset + op.size) := by
      simp only [listInstruction, Array.getElem?_eq_getElem hinside, Option.getD_some, hbyte, hop,
        if_neg (Nat.not_lt.mpr hend)]
      rfl
    have hread := readInstruction?_eq hinside
    rw [hline] at hread
    have hsize : 1 ≤ op.size := Nat.le_add_right 1 _
    exact .next hinside hread (by omega) hend ih

/-- Every chunk can be listed, whatever it holds: each line is written without a look outside the code and the tables,
each moves on to a later offset, and the listing ends. A chunk of a unit that was accepted is listed with one line for
each instruction that the check found, at the offset that the check marked as its start. -/
theorem listing_agrees (chunk : Chunk) (name : String) :
    ∃ lines, chunk.Lists 0 lines ∧
      chunk.listing name = s!"== {name} ==\n" ++ String.join (lines.map Prod.snd)
        ++ String.join (innerListings chunk.functions.toList) ∧
      ∀ {unit : CodeUnit} {script prototype : Prototype} {depth : Nat}, unit.verify = .ok () →
        unit.script = some script → script.LiesBelow depth prototype → prototype.chunk = some chunk →
        ∃ instructions, chunk.instructions = .ok instructions ∧
          lines = instructions.toList.map chunk.instructionLine ∧
          ∀ offset, (chunk.starts instructions)[offset]?.getD false = true ↔ offset ∈ lines.map Prod.fst := by
  obtain ⟨lines, hlines, htext⟩ :=
    @listFrom_lists chunk 0 chunk.code.size (Nat.le_add_left ..) s!"== {name} ==\n"
  refine ⟨lines, hlines, ?_, ?_⟩
  · rw [listing_eq, listCode, htext]
  intro unit script prototype depth hverify hscript hbelow hchunk
  obtain ⟨_, hsame, hverified⟩ := CodeUnit.verify_ok hverify
  rw [hscript] at hsame
  cases hsame
  obtain ⟨enclosing, hverified⟩ := hbelow.verified hverified
  obtain ⟨hother, hchecked, -, -⟩ := hverified
  rw [hchunk] at hother
  cases hother
  obtain ⟨instructions, hinstructions, -⟩ := hchecked.operands
  have hsplits := instructions_ok hinstructions
  have hsame := hlines.unique hsplits.lists
  refine ⟨instructions, hinstructions, hsame, fun offset => ?_⟩
  rw [marked_iff, hsame, List.map_map]
  constructor
  · rintro ⟨-, op, hmem⟩
    exact List.mem_map.mpr ⟨(offset, op), Array.mem_toList_iff.mpr hmem, rfl⟩
  · intro hmem
    obtain ⟨⟨start, op⟩, hfound, rfl⟩ := List.mem_map.mp hmem
    obtain ⟨_, _, _, hend⟩ := hsplits.instruction hfound
    exact ⟨(Nat.le_add_right ..).trans hend, op, Array.mem_toList_iff.mp hfound⟩

/-- The code of a function that matches a constant and gives back whether it did. -/
def answerChunk : Chunk :=
  let empty : Chunk := { constants := #[.scalar (.int 42)], matchers := #[.any] }
  let matched := ((empty.writeOp .constant {}).writeShort 0 {}).writeOp .matchValue {}
  ((matched.writeShort 0 {}).writeShort 0 {}).writeOp .ret {}

/-- A function with that code. -/
def answerFunction : Prototype :=
  { name := "answer", chunk := some answerChunk, maxSlots := 1 }

/-- A script that makes a closure of that function. -/
def answerUnit : CodeUnit :=
  let closure := (Chunk.writeOp { functions := #[some answerFunction] } .closure {}).writeShort 0 {}
  { script := some { name := "<script>", chunk := some (closure.writeOp .halt {}), maxSlots := 1 } }

/-- The function inside the script is listed with a line for each of its instructions, with none, one and two
operands. -/
theorem listing_agrees_answer : answerUnit.verify = .ok () ∧
    ∃ lines, answerChunk.Lists 0 lines ∧ lines.map Prod.fst = [0, 3, 8] := by
  have hverify : answerUnit.verify = .ok () := by decide +kernel
  have hfound : answerChunk.instructions = .ok #[(0, .constant), (3, .matchValue), (8, .ret)] := by decide +kernel
  obtain ⟨lines, hlines, -, hagrees⟩ := listing_agrees answerChunk "answer"
  have hmem : some answerFunction ∈ #[some answerFunction] := Array.mem_singleton.mpr rfl
  obtain ⟨instructions, hinstructions, hsame, -⟩ := hagrees hverify rfl (.inner rfl hmem .self) rfl
  rw [hfound] at hinstructions
  cases hinstructions
  exact ⟨hverify, lines, hlines, by rw [hsame]; rfl⟩

end OwnScript.Chunk
