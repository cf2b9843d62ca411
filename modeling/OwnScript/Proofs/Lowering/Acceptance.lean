import OwnScript.Proofs.Lowering.Order

/-!
Verification of code in order. The check of a function splits its code as construction did, and no operand
is found out of range. What the check may still refuse is nesting: functions or patterns that go deeper
than it follows them.
-/

namespace OwnScript

/-- The flaws that have to do with nesting only. -/
def FunctionFlaw.isNesting : FunctionFlaw → Bool
  | .nesting | .matcher | .parameterMatcher => true
  | _ => false

namespace Chunk

variable {chunk : Chunk} {starts : List (Nat × Opcode)}

theorem splitFrom_of_splits {offset : Nat} (hsplits : chunk.Splits offset starts) {bytes : Nat}
    (hbytes : chunk.code.size ≤ offset + bytes) (found : Array (Nat × Opcode)) :
    chunk.splitFrom bytes offset found = .ok (found ++ starts.toArray) := by
  induction hsplits generalizing bytes found with
  | done hend =>
    cases bytes with
    | zero => simp [splitFrom]
    | succ bytes => simp [splitFrom, Array.getElem?_eq_none hend]
  | @next offset op byte rest hbyte hop hend _ ih =>
    have hpos : 0 < op.size := Nat.add_pos_left Nat.one_pos _
    obtain ⟨bytes, rfl⟩ : ∃ fewer, bytes = fewer + 1 := ⟨bytes - 1, by omega⟩
    have hroom : ¬ offset + op.size > chunk.code.size := by omega
    simp only [splitFrom, hbyte, hop, if_neg hroom]
    rw [ih (by omega)]
    simp

theorem instructions_of_splits (hsplits : chunk.Splits 0 starts) :
    chunk.instructions = .ok starts.toArray := by
  have hall := splitFrom_of_splits hsplits (Nat.le_of_eq (Nat.zero_add _).symm) #[]
  rwa [Array.empty_append] at hall

/-- Every start is marked. -/
theorem marked_of_mem (hsplits : chunk.Splits 0 starts) {offset : Nat} {op : Opcode}
    (hmem : (offset, op) ∈ starts) : (chunk.starts starts.toArray)[offset]?.getD false = true := by
  obtain ⟨_, _, _, hend⟩ := hsplits.instruction hmem
  exact (marked_iff chunk starts.toArray offset).mpr ⟨by omega, op, List.mem_toArray.mpr hmem⟩

/-- The check of an instruction agrees with what its operands lead to. -/
theorem checkOperands_of_fit (hsplits : chunk.Splits 0 starts) {reach : Reach} {offset a b : Nat} {op : Opcode}
    (hinstruction : chunk.instructionAt? offset = some (op, a, b))
    (hfit : chunk.OperandsFit reach (fun target => ∃ next, (target, next) ∈ starts) offset a b op) :
    chunk.checkOperands
      { globals := reach.globals, slots := reach.slots, captures := reach.captures
        starts := chunk.starts starts.toArray } offset op = .ok () := by
  have hinside {target : Nat} {next : Opcode} (hmem : (target, next) ∈ starts) : target < chunk.code.size := by
    obtain ⟨_, _, _, hend⟩ := hsplits.instruction hmem
    have hpos : 0 < next.size := Nat.add_pos_left Nat.one_pos _
    omega
  simp only [instructionAt?, Option.bind_eq_bind, Option.bind_eq_some_iff, Option.pure_def,
    Option.some.injEq, Prod.mk.injEq] at hinstruction
  obtain ⟨byte, -, found, -, first, hfirst, second, hsecond, rfl, rfl, rfl⟩ := hinstruction
  cases found
  all_goals
    simp only [operandAt?, Opcode.operandCount, Nat.lt_irrefl, Nat.lt_one_iff, Nat.one_lt_ofNat, Nat.ofNat_pos,
      if_true, if_false, Nat.mul_zero, Nat.mul_one, Nat.add_zero] at hfirst hsecond
  all_goals
    simp only [checkOperands, requireOperand, OperandsFit, Nat.mul_zero, Nat.mul_one, Nat.add_zero, hfirst,
      hsecond, Option.getD_some] at hfit ⊢
  case constant =>
    obtain ⟨value, hvalue⟩ := hfit
    obtain ⟨hindex, -⟩ := Array.getElem?_eq_some_iff.mp hvalue
    rw [if_pos (decide_eq_true hindex), hvalue]
    rfl
  case jump | jumpIfFalse | jumpIfTrue =>
    obtain ⟨next, hmem⟩ := hfit
    simp [hinside hmem, marked_of_mem hsplits hmem]
  case loopBack =>
    obtain ⟨hback, next, hmem⟩ := hfit
    simp [hback, marked_of_mem hsplits hmem]
  case matchValue =>
    simp [hfit.1, hfit.2]
    rfl
  all_goals simp [hfit]

end Chunk

/-- Checks that pass or report a fault of some kind pass together or report one. -/
theorem forM_list_or {ε α : Type} {check : α → Except ε Unit} {kind : ε → Prop} {entries : List α}
    (hall : ∀ entry ∈ entries, check entry = .ok () ∨ ∃ fault, kind fault ∧ check entry = .error fault) :
    entries.forM check = .ok () ∨ ∃ fault, kind fault ∧ entries.forM check = .error fault := by
  induction entries with
  | nil => exact .inl rfl
  | cons first rest ih =>
    change (check first >>= fun _ => rest.forM check) = _ ∨
      ∃ fault, kind fault ∧ (check first >>= fun _ => rest.forM check) = _
    rcases hall first (List.mem_cons_self ..) with hfirst | ⟨fault, hkind, hfirst⟩
    · rw [hfirst]
      exact ih fun entry hentry => hall entry (List.mem_cons_of_mem _ hentry)
    · rw [hfirst]
      exact .inr ⟨fault, hkind, rfl⟩

theorem forM_list_of {ε α : Type} {check : α → Except ε Unit} {entries : List α}
    (hall : ∀ entry ∈ entries, check entry = .ok ()) : entries.forM check = .ok () := by
  have hpass : entries.forM check = .ok () ∨ ∃ fault, False ∧ entries.forM check = .error fault :=
    forM_list_or fun entry hentry => .inl (hall entry hentry)
  exact hpass.resolve_right fun ⟨_, h, _⟩ => h

theorem forM_array_eq {ε α : Type} (check : α → Except ε Unit) (entries : Array α) :
    entries.forM check = entries.toList.forM check := by
  cases entries
  simp

theorem forM_array_of {ε α : Type} {check : α → Except ε Unit} {entries : Array α}
    (hall : ∀ entry ∈ entries, check entry = .ok ()) : entries.forM check = .ok () := by
  rw [forM_array_eq]
  exact forM_list_of fun entry hentry => hall entry (Array.mem_toList_iff.mp hentry)

namespace Prototype

/-- A variable that a function captures is there in the function around it. -/
def CapturesWithin (prototype : Prototype) (enclosing : Option Prototype) : Prop :=
  ∀ capture ∈ prototype.captures, ∃ outer, enclosing = some outer ∧
    capture.index < if capture.isLocal then outer.maxSlots else outer.captures.size

theorem checkCaptures_of_within {prototype : Prototype} {enclosing : Option Prototype}
    (hwithin : prototype.CapturesWithin enclosing) : prototype.checkCaptures enclosing = .ok () := by
  refine forM_array_of fun capture hcapture => ?_
  obtain ⟨outer, rfl, hindex⟩ := hwithin capture hcapture
  exact if_pos hindex

/-- The check of a function whose code is in order passes, or finds a pattern that nests too deep. -/
theorem checkChunk_of_ordered {globals : Nat} {enclosing : Option Prototype} {prototype : Prototype}
    {chunk : Chunk} {starts : List (Nat × Opcode)} (hwithin : prototype.CapturesWithin enclosing)
    (hlocations : chunk.locations.size = chunk.code.size) (hsplits : chunk.Splits 0 starts)
    (hlast : ∃ last, starts.getLast? = some last ∧ last.2.endsControlFlow = true)
    (hoperands : ∀ offset op, (offset, op) ∈ starts → ∃ a b, chunk.instructionAt? offset = some (op, a, b) ∧
      chunk.OperandsFit ⟨globals, prototype.maxSlots, prototype.captures.size⟩
        (fun target => ∃ next, (target, next) ∈ starts) offset a b op) :
    prototype.checkChunk globals enclosing chunk = .ok () ∨
      prototype.checkChunk globals enclosing chunk = .error (.matcher, 0) ∨
      prototype.checkChunk globals enclosing chunk = .error (.parameterMatcher, 0) := by
  obtain ⟨last, hlast, hends⟩ := hlast
  obtain ⟨_, _, _, hinside⟩ := hsplits.instruction (List.mem_of_getLast? hlast)
  have hpos : 0 < last.2.size := Nat.add_pos_left Nat.one_pos _
  have hcode : ¬ chunk.code.isEmpty = true := by
    rw [Array.isEmpty_iff_size_eq_zero]
    omega
  have hback : starts.toArray.back?.any (·.2.endsControlFlow) = true := by
    rw [List.back?_toArray, hlast]
    exact hends
  have hchecked : starts.toArray.forM (fun entry => chunk.checkOperands
      { globals, slots := prototype.maxSlots, captures := prototype.captures.size
        starts := chunk.starts starts.toArray } entry.1 entry.2) = .ok () := by
    refine forM_array_of fun entry hentry => ?_
    obtain ⟨a, b, hinstruction, hfit⟩ := hoperands entry.1 entry.2 (by simpa using hentry)
    exact Chunk.checkOperands_of_fit hsplits hinstruction hfit
  unfold checkChunk
  rw [if_neg hcode, if_neg (not_not.mpr hlocations), checkCaptures_of_within hwithin,
    Chunk.instructions_of_splits hsplits]
  by_cases hmatchers : chunk.matchers.all (·.wellFormed maxNesting) = true
  · by_cases hclauses : chunk.clauses.all (·.all (·.wellFormed maxNesting)) = true
    · left
      rw [if_pos hmatchers, if_pos hclauses]
      change (if _ then _ else _) = _
      rw [if_pos hback]
      exact hchecked
    · right
      right
      rw [if_pos hmatchers, if_neg hclauses]
      rfl
  · right
    left
    rw [if_neg hmatchers]
    rfl

/-- What verification may report about functions in order: nesting only, and functions that nest too deep
only if there are more levels of them than it follows. -/
def Overnested (levels followed : Nat) (diagnostic : Diagnostic) : Prop :=
  ∃ (flaw : FunctionFlaw) (inner : Prototype), flaw.isNesting = true ∧ (levels ≤ followed → flaw ≠ .nesting) ∧
    diagnostic = flaw.report inner 0

theorem Built.captures_lt {globals slots captures levels : Nat} {prototype : Prototype}
    (hbuilt : prototype.Built globals slots captures levels) :
    ∀ capture ∈ prototype.captures, capture.index < if capture.isLocal then slots else captures := by
  cases hbuilt with
  | intro _ _ _ _ _ hwithin => exact hwithin

/-- Verification accepts functions in order, apart from nesting. -/
theorem Built.verify {globals slots captures levels : Nat} {prototype : Prototype}
    (hbuilt : prototype.Built globals slots captures levels) {enclosing : Option Prototype}
    (hwithin : prototype.CapturesWithin enclosing) (followed : Nat) :
    prototype.verify globals followed enclosing = .ok () ∨
      ∃ diagnostic, Overnested levels followed diagnostic ∧
        prototype.verify globals followed enclosing = .error diagnostic := by
  induction hbuilt generalizing enclosing followed with
  | @intro prototype chunk _ _ _ levels hchunk hlocations hsplits hlast hoperands _ hpresent hfunctions ih =>
    cases followed with
    | zero => exact .inr ⟨_, ⟨.nesting, prototype, rfl, fun h => by omega, rfl⟩, rfl⟩
    | succ followed =>
      have hreported {flaw : FunctionFlaw} (hnesting : flaw.isNesting = true) (hother : flaw ≠ .nesting) :
          Overnested (levels + 1) (followed + 1) (flaw.report prototype 0) :=
        ⟨flaw, prototype, hnesting, fun _ => hother, rfl⟩
      unfold Prototype.verify
      rw [hchunk]
      rcases checkChunk_of_ordered hwithin hlocations hsplits hlast hoperands with hcheck | hcheck | hcheck
      · simp only [hcheck]
        rw [forM_array_eq]
        refine forM_list_or fun function hfunction => ?_
        rw [Array.mem_toList_iff] at hfunction
        obtain ⟨inner, rfl⟩ := Option.isSome_iff_exists.mp (hpresent function hfunction)
        have hinside : inner.CapturesWithin (some prototype) := fun capture hcapture =>
          ⟨prototype, rfl, (hfunctions inner hfunction).captures_lt capture hcapture⟩
        refine (ih inner hfunction hinside followed).imp_right ?_
        rintro ⟨_, ⟨flaw, deep, hnesting, hlevels, rfl⟩, hverify⟩
        exact ⟨_, ⟨flaw, deep, hnesting, fun h => hlevels (by omega), rfl⟩, hverify⟩
      · simp only [hcheck]
        exact .inr ⟨_, hreported rfl (by decide), rfl⟩
      · simp only [hcheck]
        exact .inr ⟨_, hreported rfl (by decide), rfl⟩

end Prototype

end OwnScript
