import Mathlib
import OwnScript.Code.Verification

/-!
What verification promises. A chunk that was accepted splits into instructions that follow each other
without gaps; control stays among their starts, and every operand leads into its table. The same
holds of every function below it.
-/

namespace OwnScript

section Checks

variable {ε α : Type}

theorem except_of_toOption {result : Except ε α} {value : α} (h : result.toOption = some value) :
    result = .ok value := by
  cases result with
  | error => cases h
  | ok => exact congrArg _ (Option.some.inj h)

theorem except_bind_eq_ok {β : Type} {first : Except ε α} {next : α → Except ε β} {b : β} :
    (first >>= next) = .ok b ↔ ∃ a, first = .ok a ∧ next a = .ok b := by
  cases first with
  | error fault =>
    constructor
    · intro h
      cases h
    · rintro ⟨a, h, -⟩
      cases h
  | ok a =>
    constructor
    · intro h
      exact ⟨a, rfl, h⟩
    · rintro ⟨other, h, hnext⟩
      cases h
      exact hnext

theorem forM_list_ok {check : α → Except ε Unit} {entries : List α}
    (hresult : entries.forM check = .ok ()) : ∀ entry ∈ entries, check entry = .ok () := by
  induction entries with
  | nil => simp
  | cons first rest ih =>
    change (check first >>= fun _ => rest.forM check) = _ at hresult
    obtain ⟨⟨⟩, hfirst, hrest⟩ := except_bind_eq_ok.mp hresult
    exact List.forall_mem_cons.mpr ⟨hfirst, ih hrest⟩

theorem forM_array_ok {check : α → Except ε Unit} {entries : Array α}
    (hresult : entries.forM check = .ok ()) : ∀ entry ∈ entries, check entry = .ok () := by
  intro entry hentry
  refine forM_list_ok ?_ entry (Array.mem_toList_iff.mpr hentry)
  rw [← hresult]
  cases entries
  simp

/-- A condition, then the rest of a check. -/
theorem guard_eq_ok {condition : Prop} [Decidable condition] {flaw : ε} {rest : Except ε α} {a : α} :
    (if condition then (Except.error flaw >>= fun _ : Unit => rest) else rest) = .ok a ↔
      ¬ condition ∧ rest = .ok a := by
  split
  · rename_i h
    exact ⟨fun hok => (by cases hok), fun hnot => absurd h hnot.1⟩
  · rename_i h
    exact ⟨fun hok => ⟨h, hok⟩, fun hok => hok.2⟩

/-- A condition that must hold, then the rest of a check. -/
theorem unless_eq_ok {condition : Prop} [Decidable condition] {flaw : ε} {rest : Except ε α} {a : α} :
    (if condition then rest else Except.error flaw >>= fun _ : Unit => rest) = .ok a ↔
      condition ∧ rest = .ok a := by
  split
  · rename_i h
    exact ⟨fun hok => ⟨h, hok⟩, fun hok => hok.2⟩
  · rename_i h
    exact ⟨fun hok => (by cases hok), fun hok => absurd hok.1 h⟩

end Checks

namespace Chunk

/-- Code from an offset on, split into instructions that follow each other up to the end. -/
inductive Splits (chunk : Chunk) : Nat → List (Nat × Opcode) → Prop where
  | done {offset : Nat} : chunk.code.size ≤ offset → Splits chunk offset []
  | next {offset : Nat} {op : Opcode} {byte : UInt8} {rest : List (Nat × Opcode)} :
      chunk.code[offset]? = some byte → Opcode.ofByte? byte = some op →
      offset + op.size ≤ chunk.code.size → Splits chunk (offset + op.size) rest →
      Splits chunk offset ((offset, op) :: rest)

theorem splitFrom_ok {chunk : Chunk} {bytes offset : Nat} {found instructions : Array (Nat × Opcode)}
    (hresult : chunk.splitFrom bytes offset found = .ok instructions)
    (hbytes : chunk.code.size ≤ offset + bytes) :
    ∃ rest, instructions.toList = found.toList ++ rest ∧ chunk.Splits offset rest := by
  induction bytes generalizing offset found with
  | zero =>
    cases hresult
    exact ⟨[], by simp, .done hbytes⟩
  | succ bytes ih =>
    simp only [splitFrom] at hresult
    cases hbyte : chunk.code[offset]? with
    | none =>
      simp only [hbyte] at hresult
      cases hresult
      exact ⟨[], by simp, .done (Array.getElem?_eq_none_iff.mp hbyte)⟩
    | some byte =>
      simp only [hbyte] at hresult
      cases hop : Opcode.ofByte? byte with
      | none => simp [hop] at hresult
      | some op =>
        simp only [hop] at hresult
        split at hresult
        · cases hresult
        · rename_i hend
          have hsize : 1 ≤ op.size := Nat.le_add_right 1 _
          obtain ⟨rest, hrest, hsplits⟩ := ih hresult (by omega)
          refine ⟨(offset, op) :: rest, ?_, .next hbyte hop (by omega) hsplits⟩
          rw [hrest]
          simp

theorem Splits.instruction {chunk : Chunk} {start offset : Nat} {op : Opcode}
    {instructions : List (Nat × Opcode)} (hsplits : chunk.Splits start instructions)
    (hmem : (offset, op) ∈ instructions) :
    ∃ byte, chunk.code[offset]? = some byte ∧ Opcode.ofByte? byte = some op ∧
      offset + op.size ≤ chunk.code.size := by
  induction hsplits with
  | done => simp at hmem
  | next hbyte hop hend _ ih =>
    rcases List.mem_cons.mp hmem with heq | hrest
    · cases heq
      exact ⟨_, hbyte, hop, hend⟩
    · exact ih hrest

/-- Behind an instruction there is another, unless it is the last. -/
theorem Splits.next_mem {chunk : Chunk} {start offset : Nat} {op : Opcode}
    {instructions : List (Nat × Opcode)} (hsplits : chunk.Splits start instructions)
    (hmem : (offset, op) ∈ instructions) :
    (∃ next, (offset + op.size, next) ∈ instructions) ∨ instructions.getLast? = some (offset, op) := by
  induction hsplits with
  | done => simp at hmem
  | @next first firstOp byte rest _ _ _ hrest ih =>
    rcases List.mem_cons.mp hmem with heq | hrest'
    · cases heq
      cases hrest with
      | done => exact .inr rfl
      | next => exact .inl ⟨_, List.mem_cons_of_mem _ (List.mem_cons_self ..)⟩
    · rcases ih hrest' with ⟨next, hnext⟩ | hlast
      · exact .inl ⟨next, List.mem_cons_of_mem _ hnext⟩
      · refine .inr ?_
        rw [List.getLast?_cons, hlast]
        rfl

/-- An instruction of the given operation starts at an offset. -/
def StartsAt (chunk : Chunk) (offset : Nat) (op : Opcode) : Prop :=
  ∃ instructions, chunk.instructions = .ok instructions ∧ (offset, op) ∈ instructions

theorem instructions_ok {chunk : Chunk} {instructions : Array (Nat × Opcode)}
    (hinstructions : chunk.instructions = .ok instructions) : chunk.Splits 0 instructions.toList := by
  obtain ⟨rest, hrest, hsplits⟩ := splitFrom_ok hinstructions (by omega)
  rw [hrest]
  simpa using hsplits

theorem StartsAt.code {chunk : Chunk} {offset : Nat} {op : Opcode} (hstarts : chunk.StartsAt offset op) :
    ∃ byte, chunk.code[offset]? = some byte ∧ Opcode.ofByte? byte = some op ∧
      offset + op.size ≤ chunk.code.size := by
  obtain ⟨instructions, hinstructions, hmem⟩ := hstarts
  exact (instructions_ok hinstructions).instruction (Array.mem_toList_iff.mpr hmem)

/-- The marks of the starts are those of the instructions. -/
theorem marked_iff (chunk : Chunk) (instructions : Array (Nat × Opcode)) (offset : Nat) :
    (chunk.starts instructions)[offset]?.getD false = true ↔
      offset ≤ chunk.code.size ∧ ∃ op, (offset, op) ∈ instructions := by
  have hmarks (entries : List (Nat × Opcode)) (marks : Array Bool) :
      (entries.foldl (fun marks entry => marks.setIfInBounds entry.1 true) marks)[offset]?.getD false = true ↔
        marks[offset]?.getD false = true ∨ offset < marks.size ∧ ∃ op, (offset, op) ∈ entries := by
    induction entries generalizing marks with
    | nil => simp
    | cons entry rest ih =>
      rw [List.foldl_cons, ih, Array.size_setIfInBounds]
      by_cases hentry : entry.1 = offset
      · subst hentry
        by_cases hinside : entry.1 < marks.size
        · simp [hinside, Prod.ext_iff]
        · simp [hinside]
      · rw [Array.getElem?_setIfInBounds_ne hentry]
        simp [Prod.ext_iff, Ne.symm hentry]
  have hempty : (Array.replicate (chunk.code.size + 1) false)[offset]?.getD false = false := by
    rw [Array.getElem?_replicate]
    split <;> rfl
  simp only [starts, ← Array.foldl_toList]
  rw [hmarks, hempty, Array.size_replicate, Nat.lt_succ_iff]
  simp

theorem startsAt_of_marked {chunk : Chunk} {instructions : Array (Nat × Opcode)} {offset : Nat}
    (hinstructions : chunk.instructions = .ok instructions)
    (hmarked : (chunk.starts instructions)[offset]?.getD false = true) :
    ∃ op, chunk.StartsAt offset op := by
  obtain ⟨-, op, hmem⟩ := (marked_iff chunk instructions offset).mp hmarked
  exact ⟨op, instructions, hinstructions, hmem⟩

end Chunk

/-- What the check of a function finds out about its code and tables. -/
structure Prototype.Checked (globals : Nat) (enclosing : Option Prototype) (prototype : Prototype)
    (chunk : Chunk) : Prop where
  /-- Control does not run past the end: behind an instruction that goes on there is another. -/
  next : ∀ offset op, chunk.StartsAt offset op → op.endsControlFlow = false →
    ∃ next, chunk.StartsAt (offset + op.size) next
  first : ∃ op, chunk.StartsAt 0 op
  operands : ∃ instructions, chunk.instructions = .ok instructions ∧
    ∀ offset op, chunk.StartsAt offset op →
      chunk.checkOperands
        { globals, slots := prototype.maxSlots, captures := prototype.captures.size
          starts := chunk.starts instructions } offset op = .ok ()
  captures : ∀ capture ∈ prototype.captures, ∃ outer, enclosing = some outer ∧
    capture.index < if capture.isLocal then outer.maxSlots else outer.captures.size

theorem Prototype.checkChunk_ok {globals : Nat} {enclosing : Option Prototype} {prototype : Prototype}
    {chunk : Chunk} (hresult : prototype.checkChunk globals enclosing chunk = .ok ()) :
    prototype.Checked globals enclosing chunk := by
  unfold checkChunk at hresult
  rw [guard_eq_ok] at hresult
  obtain ⟨hempty, hresult⟩ := hresult
  rw [guard_eq_ok] at hresult
  obtain ⟨-, hresult⟩ := hresult
  rw [except_bind_eq_ok] at hresult
  obtain ⟨⟨⟩, hcaptures, hresult⟩ := hresult
  dsimp only at hresult
  rw [unless_eq_ok, unless_eq_ok] at hresult
  obtain ⟨-, -, hresult⟩ := hresult
  rw [except_bind_eq_ok] at hresult
  obtain ⟨instructions, hinstructions, hresult⟩ := hresult
  rw [unless_eq_ok] at hresult
  obtain ⟨hlast, hoperands⟩ := hresult
  have hsplits := Chunk.instructions_ok hinstructions
  have hmem {offset : Nat} {op : Opcode} (hstarts : chunk.StartsAt offset op) :
      (offset, op) ∈ instructions := by
    obtain ⟨found, hfound, hmem⟩ := hstarts
    rw [hinstructions] at hfound
    cases hfound
    exact hmem
  refine ⟨fun offset op hstarts hgoes => ?_, ?_, ⟨instructions, hinstructions, fun offset op hstarts => ?_⟩,
    fun capture hcapture => ?_⟩
  · rcases hsplits.next_mem (Array.mem_toList_iff.mpr (hmem hstarts)) with ⟨next, hnext⟩ | hend
    · exact ⟨next, instructions, hinstructions, Array.mem_toList_iff.mp hnext⟩
    · rw [Array.getLast?_toList] at hend
      rw [hend, Option.any_some, hgoes] at hlast
      cases hlast
  · generalize hentries : instructions.toList = entries at hsplits
    cases hsplits with
    | done hend => exact absurd (by simpa using hend) hempty
    | @next _ op =>
      refine ⟨op, instructions, hinstructions, Array.mem_toList_iff.mp ?_⟩
      rw [hentries]
      exact List.mem_cons_self ..
  · exact forM_array_ok hoperands (offset, op) (hmem hstarts)
  · have hchecked := forM_array_ok hcaptures capture hcapture
    cases enclosing with
    | none => cases hchecked
    | some outer =>
      refine ⟨outer, rfl, ?_⟩
      by_contra hrange
      dsimp only at hchecked
      rw [if_neg hrange] at hchecked
      cases hchecked

/-- A function that was accepted together with the functions in it. -/
inductive Prototype.Verified (globals : Nat) : Option Prototype → Prototype → Prop where
  | intro {enclosing : Option Prototype} {prototype : Prototype} {chunk : Chunk} :
      prototype.chunk = some chunk → prototype.Checked globals enclosing chunk →
      (∀ function ∈ chunk.functions, function.isSome) →
      (∀ inner, some inner ∈ chunk.functions → Verified globals (some prototype) inner) →
      Verified globals enclosing prototype

theorem Prototype.verify_ok {globals levels : Nat} {enclosing : Option Prototype} {prototype : Prototype}
    (hresult : prototype.verify globals levels enclosing = .ok ()) :
    prototype.Verified globals enclosing := by
  induction levels generalizing enclosing prototype with
  | zero => cases hresult
  | succ levels ih =>
    unfold verify at hresult
    cases hchunk : prototype.chunk with
    | none => simp [hchunk] at hresult
    | some chunk =>
      simp only [hchunk] at hresult
      split at hresult
      · cases hresult
      · rename_i hchecked
        have hinner := forM_array_ok hresult
        refine .intro hchunk (checkChunk_ok hchecked) (fun function hfunction => ?_)
          (fun inner hfunction => ih (hinner (some inner) hfunction))
        cases function with
        | none => exact absurd (hinner none hfunction) (by simp)
        | some inner => rfl

/-- A function lies so many levels below another: it is inside of it, or inside of a function inside of it, and
so on. -/
inductive Prototype.LiesBelow : Prototype → Nat → Prototype → Prop where
  | self {prototype : Prototype} : LiesBelow prototype 0 prototype
  | inner {outer next prototype : Prototype} {chunk : Chunk} {depth : Nat} : outer.chunk = some chunk →
      some next ∈ chunk.functions → LiesBelow next depth prototype → LiesBelow outer (depth + 1) prototype

/-- All that lies below an accepted function was accepted with it. -/
theorem Prototype.LiesBelow.verified {globals depth : Nat} {enclosing : Option Prototype} {outer prototype : Prototype}
    (hbelow : outer.LiesBelow depth prototype) (hverified : outer.Verified globals enclosing) :
    ∃ enclosing, prototype.Verified globals enclosing := by
  induction hbelow generalizing enclosing with
  | self => exact ⟨enclosing, hverified⟩
  | inner hchunk hmem _ ih =>
    cases hverified with
    | intro hother _ _ hinner =>
      rw [hchunk] at hother
      cases hother
      exact ih (hinner _ hmem)

/-- What loading relies on: the script was accepted, and nothing encloses it. -/
theorem CodeUnit.verify_ok {unit : CodeUnit} (hresult : unit.verify = .ok ()) :
    ∃ script, unit.script = some script ∧ script.Verified unit.globalNames.size none := by
  unfold verify at hresult
  rw [guard_eq_ok] at hresult
  obtain ⟨-, hresult⟩ := hresult
  cases hscript : unit.script with
  | none => simp [hscript] at hresult
  | some script =>
    simp only [hscript] at hresult
    rw [guard_eq_ok, except_bind_eq_ok] at hresult
    obtain ⟨-, ⟨⟩, -, hverified⟩ := hresult
    exact ⟨script, rfl, Prototype.verify_ok hverified⟩

theorem Prototype.Verified.captures_eq_empty {globals : Nat} {prototype : Prototype}
    (hverified : prototype.Verified globals none) : prototype.captures = #[] := by
  cases hverified with
  | intro hchunk hchecked _ _ =>
    refine Array.eq_empty_iff_forall_not_mem.mpr fun capture hcapture => ?_
    obtain ⟨outer, houter, -⟩ := hchecked.captures capture hcapture
    cases houter

end OwnScript
