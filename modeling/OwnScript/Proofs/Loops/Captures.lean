import OwnScript.Proofs.Loops.Counting
import OwnScript.Proofs.Stack.Alignment

/-!
Slots without a cell. Safe code closes the cell of a slot before it drops the slot, so a slot that is dropped without
more ado has no cell wherever control may have come from. The counter and the bound of a for loop are dropped in this
way, hence neither is captured while the loop runs, nor is the counter while the bound is computed.
-/

namespace OwnScript

open Profile

/-- Profiles of code from which nothing goes wrong. -/
structure Flawless (globals : GlobalTable) (F : Listing True) (arguments : Nat) (good : Profile → Prop) : Prop where
  fine : ∀ {profile : Profile} {op : Opcode} {a b : Nat}, good profile →
    F.chunk.instructionAt? profile.offset = some (op, a, b) → Fine globals F.chunk arguments good profile op a b
  height : ∀ {profile : Profile} {height : Nat}, good profile → F.Holds profile.offset height → profile.height = height

theorem flawless_sure {globals : GlobalTable} {statements : List Stmt} {asScript : Bool} {prototype : Prototype}
    {F : Listing True} (hlaid : LaidOut globals statements asScript prototype F) (arguments : Nat) :
    Flawless globals F arguments (Sure globals statements asScript prototype arguments) where
  fine hsure hinstruction := hsure.fine hlaid hinstruction
  height hsure hholds := hsure.height hlaid hholds

/-- At an offset a slot may have a cell. -/
def MayHold (good : Profile → Prop) (slot : Nat) (top : Option Bool) (offset : Nat) : Prop :=
  ∃ height held, held slot ∧ good ⟨offset, height, held, top⟩

variable {globals : GlobalTable} {F : Listing True} {arguments slot : Nat} {good : Profile → Prop} {top : Option Bool}
  {p a b : Nat} {height : Option Nat} {op : Opcode} {location : Location}

namespace MayHold

theorem plain (hmay : MayHold good slot top p) (hgood : Flawless globals F arguments good)
    (hhas : F.Has p height op a b location) (hplain : op.isPlain = true) : MayHold good slot none (p + op.size) := by
  obtain ⟨height, held, hheld, hprofile⟩ := hmay
  cases hgood.fine hprofile hhas.instruction with
  | plain _ _ _ _ _ hnext => exact ⟨_, held, hheld, hnext⟩
  | _ => cases hplain

theorem access (hmay : MayHold good slot top p) (hgood : Flawless globals F arguments good)
    (hhas : F.Has p height op a b location) {scope : FrameScope} {resolution : Resolution} {how : Emit.Access}
    (haccesses : Accesses globals scope resolution how op a) : MayHold good slot none (p + 3) := by
  cases haccesses with
  | global | frame | captured => cases how <;> exact hmay.plain hgood hhas rfl

/-- At a branch control may go on here or there, unless the code knows better. -/
theorem branch (hmay : MayHold good slot top p) (hgood : Flawless globals F arguments good)
    (hop : op = .jumpIfFalse ∨ op = .jumpIfTrue) {target : Nat} (hjumps : F.Jumps p height op location target) :
    MayHold good slot none target ∨ top ≠ none ∧ MayHold good slot none (p + 3) := by
  obtain ⟨height, held, hheld, hprofile⟩ := hmay
  obtain ⟨distance, hhas, rfl⟩ := hjumps
  have hfine := hgood.fine hprofile hhas.instruction
  rcases hop with rfl | rfl
  · cases hfine with
    | plain hplain => cases hplain
    | ifFalse _ hthere hhere =>
      by_cases htop : top = some true
      · exact .inr ⟨by simp [htop], _, held, hheld, hhere (by simp [htop])⟩
      · exact .inl ⟨_, held, hheld, hthere htop⟩
  · cases hfine with
    | plain hplain => cases hplain
    | ifTrue _ hthere hhere =>
      by_cases htop : top = some false
      · exact .inr ⟨by simp [htop], _, held, hheld, hhere (by simp [htop])⟩
      · exact .inl ⟨_, held, hheld, hthere htop⟩

theorem call (hmay : MayHold good slot top p) (hgood : Flawless globals F arguments good)
    (hhas : F.Has p height .call a b location) : MayHold good slot none (p + 3) := by
  obtain ⟨height, held, hheld, hprofile⟩ := hmay
  cases hgood.fine hprofile hhas.instruction with
  | plain hplain => cases hplain
  | call _ _ hnext => exact ⟨_, held, hheld, hnext⟩

theorem closure (hmay : MayHold good slot top p) (hgood : Flawless globals F arguments good)
    (hhas : F.Has p height .closure a b location) : MayHold good slot none (p + 3) := by
  obtain ⟨height, held, hheld, hprofile⟩ := hmay
  cases hgood.fine hprofile hhas.instruction with
  | plain hplain => cases hplain
  | closure _ _ _ hnext => exact ⟨_, _, .inl hheld, hnext⟩

/-- A slot that is popped has no cell. -/
theorem not_popped {k : Nat} (hgood : Flawless globals F arguments good)
    (hhas : F.Has p (some (k + 1)) .pop a b location) (hmay : MayHold good slot top p) : slot ≠ k := by
  rintro rfl
  obtain ⟨height, held, hheld, hprofile⟩ := hmay
  obtain rfl : height = slot + 1 := hgood.height hprofile hhas.height
  cases hgood.fine hprofile hhas.instruction with
  | plain _ _ _ _ hfree => exact hfree slot le_rfl hheld

end MayHold

mutual

/-- A slot that may have a cell in front of an expression may still have it behind. -/
theorem ExprCode.mayHold (expr : Expr) {height p q : Nat} {scope after : FrameScope}
    (hcode : ExprCode globals F height scope p expr after q) (hgood : Flawless globals F arguments good)
    {top : Option Bool} (hmay : MayHold good slot top p) : MayHold good slot none q := by
  cases expr with
  | absent =>
    cases hcode with
    | absent huntracked => exact absurd trivial huntracked
  | literal =>
    cases hcode with
    | literal hhas hloads => exact hmay.plain hgood hhas (isPlain_loads hloads).1
  | name =>
    cases hcode with
    | name hhas haccesses => exact hmay.access hgood hhas haccesses
  | unary location operator operand =>
    cases hcode with
    | unary hoperand hhas =>
      obtain ⟨hplain, -, -, -, -, hsize⟩ := isPlain_unary operator
      have hdone := (ExprCode.mayHold operand hoperand hgood hmay).plain hgood hhas hplain
      rwa [hsize] at hdone
  | binary location operator left right =>
    cases hcode with
    | binary hlogical hleft hright hhas =>
      obtain ⟨hplain, -, -, -, -, hsize⟩ := isPlain_binary hlogical
      have hfirst := ExprCode.mayHold left hleft hgood hmay
      have hdone := (ExprCode.mayHold right hright hgood hfirst).plain hgood hhas hplain
      rwa [hsize] at hdone
    | logical hlogical hleft hjumps =>
      have hop : operator.opcode = .jumpIfFalse ∨ operator.opcode = .jumpIfTrue := by
        cases operator <;> first | exact .inl rfl | exact .inr rfl | cases hlogical
      exact ((ExprCode.mayHold left hleft hgood hmay).branch hgood hop hjumps).resolve_right fun h => h.1 rfl
  | call location callee arguments =>
    cases hcode with
    | call hcallee harguments hhas =>
      have hfirst := ExprCode.mayHold callee hcallee hgood hmay
      obtain ⟨_, hlast⟩ := ExprsCode.mayHold arguments harguments hgood hfirst
      exact hlast.call hgood hhas
  | field location object name =>
    cases hcode with
    | field hobject hhas => exact (ExprCode.mayHold object hobject hgood hmay).plain hgood hhas rfl
  | index location object index =>
    cases hcode with
    | index hobject hindex hhas =>
      have hfirst := ExprCode.mayHold object hobject hgood hmay
      exact (ExprCode.mayHold index hindex hgood hfirst).plain hgood hhas rfl
  | record location fields =>
    cases hcode with
    | record hfields hhas =>
      obtain ⟨_, hlast⟩ := FieldsCode.mayHold fields hfields hgood hmay
      exact hlast.plain hgood hhas rfl
  | array location items =>
    cases hcode with
    | array hitems hhas =>
      obtain ⟨_, hlast⟩ := ExprsCode.mayHold items hitems hgood hmay
      exact hlast.plain hgood hhas rfl
  | lambda location function =>
    cases hcode with
    | lambda hclosure =>
      cases hclosure with
      | intro hhas => exact hmay.closure hgood hhas
  | borrow location target exclusive =>
    cases hcode with
    | borrow htarget => exact ExprCode.mayHold target htarget hgood hmay
  | move location target =>
    cases hcode with
    | move hhas haccesses => exact hmay.access hgood hhas haccesses
  | deref location operand =>
    cases hcode with
    | deref hoperand => exact ExprCode.mayHold operand hoperand hgood hmay
termination_by structural expr

theorem ExprsCode.mayHold (exprs : List Expr) {height p q : Nat} {scope after : FrameScope}
    (hcode : ExprsCode globals F height scope p exprs after q) (hgood : Flawless globals F arguments good)
    {top : Option Bool} (hmay : MayHold good slot top p) : ∃ top, MayHold good slot top q := by
  cases exprs with
  | nil =>
    cases hcode
    exact ⟨top, hmay⟩
  | cons expr rest =>
    cases hcode with
    | cons hfirst hrest => exact ExprsCode.mayHold rest hrest hgood (ExprCode.mayHold expr hfirst hgood hmay)
termination_by structural exprs

theorem FieldsCode.mayHold (fields : List (String × Expr)) {height p q : Nat} {scope after : FrameScope}
    (hcode : FieldsCode globals F height scope p fields after q) (hgood : Flawless globals F arguments good)
    {top : Option Bool} (hmay : MayHold good slot top p) : ∃ top, MayHold good slot top q := by
  cases fields with
  | nil =>
    cases hcode
    exact ⟨top, hmay⟩
  | cons field rest =>
    obtain ⟨name, value⟩ := field
    cases hcode with
    | cons hfirst hrest => exact FieldsCode.mayHold rest hrest hgood (ExprCode.mayHold value hfirst hgood hmay)
termination_by structural fields

end

/-- Where a for loop starts to count, neither the counter nor the bound has a cell: once the test fails, both are
popped. -/
theorem Listing.Counts.free {place : Location} {height test step : Nat} (hcounts : F.Counts place height test step)
    (hgood : Flawless globals F arguments good) (hslot : slot = height ∨ slot = height + 1) :
    ¬ MayHold good slot top test := by
  intro hmay
  have hanswer := ((hmay.plain hgood hcounts.counter rfl).plain hgood hcounts.bound rfl).plain hgood hcounts.less rfl
  have hfails := (hanswer.branch hgood (.inl rfl) hcounts.branch).resolve_right fun h => h.1 rfl
  have hbound := hfails.plain hgood hcounts.fail rfl
  have hcounter := hbound.plain hgood hcounts.dropBound rfl
  rcases hslot with rfl | rfl
  · exact MayHold.not_popped hgood hcounts.dropCounter hcounter rfl
  · exact MayHold.not_popped hgood hcounts.dropBound hbound rfl

end OwnScript
