import OwnScript.Proofs.Machine.Moves

/-!
Operators on integers. Each gives the mathematical result, brought back into the range of a word where it does not
fit, or it fails. The operations of a machine on words are not defined everywhere: a division by zero, a quotient that
no word holds and a shift by a word or more have no result. The operators ask first, so they never get there.
-/

namespace OwnScript

open Stateful

variable {a b count : Int64}

namespace Word

/-- Whether a signed word holds a number. -/
def Holds (n : Int) : Prop :=
  -2 ^ 63 ≤ n ∧ n < 2 ^ 63

instance (n : Int) : Decidable (Holds n) :=
  inferInstanceAs (Decidable (_ ∧ _))

/-- Division of words, which drops the fraction. It is undefined without a divisor, and where no word holds the
quotient. -/
def quotient? (a b : Int64) : Option Int64 :=
  if b ≠ 0 ∧ Holds (a.toInt.tdiv b.toInt) then some (.ofInt (a.toInt.tdiv b.toInt)) else none

/-- What division leaves over, undefined where division is. -/
def remainder? (a b : Int64) : Option Int64 :=
  if b ≠ 0 ∧ Holds (a.toInt.tdiv b.toInt) then some (.ofInt (a.toInt.tmod b.toInt)) else none

/-- A shift of an unsigned word to the left, undefined for counts outside the word. -/
def shiftLeft? (a : UInt64) (count : Int64) : Option UInt64 :=
  if 0 ≤ count ∧ count ≤ 63 then some (.ofNat (a.toNat * 2 ^ count.toInt.toNat)) else none

/-- A shift of a signed word to the right, undefined for counts outside the word. -/
def shiftRight? (a count : Int64) : Option Int64 :=
  if 0 ≤ count ∧ count ≤ 63 then some (.ofInt (a.toInt / 2 ^ count.toInt.toNat)) else none

theorem holds_toInt (a : Int64) : Holds a.toInt :=
  ⟨a.le_toInt, a.toInt_lt⟩

/-- Only the least number has a quotient that no word holds, and only when its sign changes. -/
theorem toInt_div_of_fits (hfits : ¬ (a = Int64.minValue ∧ b = -1)) : (a / b).toInt = a.toInt.tdiv b.toInt := by
  by_cases hleast : a = Int64.minValue
  · apply Int64.toInt_div_of_ne_right
    exact fun hone => hfits ⟨hleast, hone⟩
  · exact Int64.toInt_div_of_ne_left a b hleast

theorem quotient?_eq (hzero : b ≠ 0) (hfits : ¬ (a = Int64.minValue ∧ b = -1)) : quotient? a b = some (a / b) := by
  have hexact := toInt_div_of_fits hfits
  have hholds := holds_toInt (a / b)
  rw [hexact] at hholds
  rw [quotient?, if_pos ⟨hzero, hholds⟩, ← hexact, Int64.ofInt_toInt]

/-- The sign of the least number cannot be changed by dividing. -/
example : quotient? Int64.minValue (-1) = none := by decide

theorem remainder?_eq (hzero : b ≠ 0) (hone : b ≠ -1) : remainder? a b = some (a % b) := by
  have hholds := holds_toInt (a / b)
  rw [Int64.toInt_div_of_ne_right a b hone] at hholds
  rw [remainder?, if_pos ⟨hzero, hholds⟩, ← Int64.toInt_mod, Int64.ofInt_toInt]

/-- A count within the word is not changed by taking it modulo the size of the word. -/
theorem toNat_smod (hlow : 0 ≤ count) (hhigh : count ≤ 63) : (count.toBitVec.smod 64).toNat = count.toInt.toNat := by
  have hlow : 0 ≤ count.toInt := Int64.le_iff_toInt_le.mp hlow
  have hhigh : count.toInt ≤ 63 := Int64.le_iff_toInt_le.mp hhigh
  have hsame : (count.toBitVec.smod 64).toInt = count.toInt := by
    rw [BitVec.toInt_smod]
    exact Int.fmod_eq_of_lt hlow (Int.lt_add_one_iff.mpr hhigh)
  rw [BitVec.toInt_eq_toNat_cond] at hsame
  have hbound := (count.toBitVec.smod 64).isLt
  split at hsame <;> omega

/-- A shift to the left multiplies by a power of two, and what leaves the word is lost. -/
theorem toInt_shiftLeft (hlow : 0 ≤ count) (hhigh : count ≤ 63) :
    (a <<< count).toInt = (a.toInt * 2 ^ count.toInt.toNat).bmod (2 ^ 64) := by
  have hword : a.toInt = (a.toBitVec.toNat : Int).bmod (2 ^ 64) := BitVec.toInt_eq_toNat_bmod a.toBitVec
  rw [← Int64.toInt_toBitVec, Int64.toBitVec_shiftLeft, BitVec.shiftLeft_eq', toNat_smod hlow hhigh,
    BitVec.toInt_shiftLeft, hword, Int.bmod_mul_bmod, Nat.shiftLeft_eq]
  push_cast
  rfl

/-- A shift to the right divides by a power of two and rounds down. -/
theorem toInt_shiftRight (hlow : 0 ≤ count) (hhigh : count ≤ 63) :
    (a >>> count).toInt = a.toInt / 2 ^ count.toInt.toNat := by
  rw [← Int64.toInt_toBitVec, Int64.toBitVec_shiftRight, BitVec.toInt_sshiftRight', toNat_smod hlow hhigh,
    Int64.toInt_toBitVec, Int.shiftRight_eq_div_pow]
  norm_cast

theorem shiftLeft?_eq (hlow : 0 ≤ count) (hhigh : count ≤ 63) :
    (shiftLeft? a.toUInt64 count).map UInt64.toInt64 = some (a <<< count) := by
  have hword : (UInt64.ofNat (a.toUInt64.toNat * 2 ^ count.toInt.toNat)).toInt64 = a <<< count := by
    apply Int64.toBitVec_inj.mp
    apply BitVec.eq_of_toNat_eq
    rw [Int64.toBitVec_shiftLeft, BitVec.shiftLeft_eq', toNat_smod hlow hhigh, BitVec.toNat_shiftLeft,
      Nat.shiftLeft_eq]
    rfl
  rw [shiftLeft?, if_pos ⟨hlow, hhigh⟩, Option.map_some, hword]

theorem shiftRight?_eq (hlow : 0 ≤ count) (hhigh : count ≤ 63) : shiftRight? a count = some (a >>> count) := by
  rw [shiftRight?, if_pos ⟨hlow, hhigh⟩, ← toInt_shiftRight hlow hhigh, Int64.ofInt_toInt]

/-- Quotient and remainder belong together, in the arithmetic of words too. -/
theorem div_mul_add_mod (a b : Int64) : a / b * b + a % b = a := by
  apply Int64.toInt_inj.mp
  calc (a / b * b + a % b).toInt
      = (a.toInt.tdiv b.toInt * b.toInt + a.toInt.tmod b.toInt).bmod (2 ^ 64) := by
        rw [Int64.toInt_add, Int64.toInt_mul, Int64.toInt_div, Int64.toInt_mod, Int.bmod_add_bmod,
          Int.add_bmod, Int.bmod_mul_bmod, ← Int.add_bmod]
    _ = a.toInt.bmod (2 ^ 64) := by rw [Int.tdiv_mul_add_tmod]
    _ = a.toInt := Int.bmod_eq_of_le a.le_toInt a.toInt_lt

/-- A remainder is smaller than the divisor. -/
theorem abs_mod_lt (hzero : b ≠ 0) : |(a % b).toInt| < |b.toInt| := by
  have hpositive : b.toInt.natAbs ≠ 0 := fun h => hzero (Int64.toInt_inj.mp (Int.natAbs_eq_zero.mp h))
  have hless := Nat.mod_lt a.toInt.natAbs (Nat.pos_of_ne_zero hpositive)
  rw [Int64.toInt_mod, Int.abs_eq_natAbs, Int.abs_eq_natAbs, Int.natAbs_tmod]
  exact_mod_cast hless

/-- A remainder that is not zero has the sign of the dividend. -/
theorem sign_mod (a b : Int64) : a % b = 0 ∨ (a % b).toInt.sign = a.toInt.sign := by
  by_cases hdvd : b.toInt ∣ a.toInt
  · left
    apply Int64.toInt_inj.mp
    rw [Int64.toInt_mod, Int.tmod_eq_zero_of_dvd hdvd]
    rfl
  · right
    rw [Int64.toInt_mod, Int.sign_tmod, if_neg hdvd]

end Word

/-- The operators that two integers can have between them, apart from comparisons and those on single bits. -/
def integerOperators : List Opcode :=
  [.add, .subtract, .multiply, .divide, .modulo, .leftShift, .rightShift]

namespace Opcode

/-- An operator on two integers as it is carried out: what has no result is asked for first, and there is no outcome
where an operation on words would be undefined. Sums, differences and products are those of unsigned words, which are
defined everywhere. -/
def outcome? (op : Opcode) (a b : Int64) : Option (Except Diagnostic Int64) :=
  match op with
  | .add => some (.ok (a.toUInt64 + b.toUInt64).toInt64)
  | .subtract => some (.ok (a.toUInt64 - b.toUInt64).toInt64)
  | .multiply => some (.ok (a.toUInt64 * b.toUInt64).toInt64)
  | .divide =>
    if b = 0 then some (.error (typeError "integer division by zero"))
    else if a = Int64.minValue ∧ b = -1 then some (.ok a)
    else (Word.quotient? a b).map .ok
  | .modulo =>
    if b = 0 then some (.error (typeError "integer modulo by zero"))
    else if b = -1 then some (.ok 0)
    else (Word.remainder? a b).map .ok
  | .leftShift =>
    match shiftCount b with
    | .error complaint => some (.error complaint)
    | .ok count => ((Word.shiftLeft? a.toUInt64 count).map UInt64.toInt64).map .ok
  | .rightShift =>
    match shiftCount b with
    | .error complaint => some (.error complaint)
    | .ok count => (Word.shiftRight? a count).map .ok
  | _ => none

/-- What an operator makes of two integers. -/
def onIntegers (op : Opcode) (a b : Int64) : Except Diagnostic Int64 :=
  match op with
  | .leftShift | .rightShift => op.bitResult a b
  | _ => op.integerResult a b

end Opcode

/-- The complaint about a count outside a word. -/
def shiftComplaint (count : Int64) : Diagnostic :=
  typeError s!"shift count {count.toInt} out of range 0..63"

theorem shiftCount_inside (hlow : 0 ≤ count) (hhigh : count ≤ 63) : shiftCount count = .ok count := by
  have hlow : ¬ count < 0 := Int64.not_lt.mpr hlow
  have hhigh : ¬ 63 < count := Int64.not_lt.mpr hhigh
  simp [shiftCount, hlow, hhigh]

theorem shiftCount_outside (houtside : ¬ (0 ≤ count ∧ count ≤ 63)) :
    shiftCount count = .error (shiftComplaint count) := by
  have hout : count < 0 ∨ 63 < count := by
    by_contra hnot
    rw [not_or, Int64.not_lt, Int64.not_lt] at hnot
    exact houtside hnot
  rcases hout with hout | hout <;> simp [shiftCount, shiftComplaint, hout]

namespace Opcode

theorem outcome?_divide (a b : Int64) : outcome? .divide a b = some (onIntegers .divide a b) := by
  simp only [outcome?, onIntegers, integerResult]
  by_cases hzero : b = 0
  · rw [if_pos hzero, if_pos hzero]
  rw [if_neg hzero, if_neg hzero]
  by_cases hleast : a = Int64.minValue ∧ b = -1
  · obtain ⟨rfl, rfl⟩ := hleast
    rfl
  · rw [if_neg hleast, Word.quotient?_eq hzero hleast]
    rfl

theorem outcome?_modulo (a b : Int64) : outcome? .modulo a b = some (onIntegers .modulo a b) := by
  simp only [outcome?, onIntegers, integerResult]
  by_cases hzero : b = 0
  · rw [if_pos hzero, if_pos hzero]
  rw [if_neg hzero, if_neg hzero]
  by_cases hone : b = -1
  · have hnothing : a % b = 0 := by
      apply Int64.toInt_inj.mp
      rw [Int64.toInt_mod, hone]
      exact (Int.tmod_neg _ 1).trans (Int.tmod_one _)
    rw [if_pos hone, hnothing]
  · rw [if_neg hone, Word.remainder?_eq hzero hone]
    rfl

theorem outcome?_leftShift (a b : Int64) : outcome? .leftShift a b = some (onIntegers .leftShift a b) := by
  simp only [outcome?, onIntegers, bitResult]
  by_cases hinside : 0 ≤ b ∧ b ≤ 63
  · rw [shiftCount_inside hinside.1 hinside.2]
    simp only [Word.shiftLeft?_eq hinside.1 hinside.2]
    rfl
  · rw [shiftCount_outside hinside]
    rfl

theorem outcome?_rightShift (a b : Int64) : outcome? .rightShift a b = some (onIntegers .rightShift a b) := by
  simp only [outcome?, onIntegers, bitResult]
  by_cases hinside : 0 ≤ b ∧ b ≤ 63
  · rw [shiftCount_inside hinside.1 hinside.2]
    simp only [Word.shiftRight?_eq hinside.1 hinside.2]
    rfl
  · rw [shiftCount_outside hinside]
    rfl

/-- The questions that are asked first are enough: no operator gets to an operation on words that is undefined. -/
theorem outcome?_eq {op : Opcode} (hop : op ∈ integerOperators) (a b : Int64) :
    op.outcome? a b = some (op.onIntegers a b) := by
  simp only [integerOperators, List.mem_cons, List.not_mem_nil, or_false] at hop
  rcases hop with rfl | rfl | rfl | rfl | rfl | rfl | rfl
  · rfl
  · rfl
  · rfl
  · exact outcome?_divide a b
  · exact outcome?_modulo a b
  · exact outcome?_leftShift a b
  · exact outcome?_rightShift a b

end Opcode

/-- A machine with two more integers on its stack. -/
def Machine.withIntegers (m : Machine) (a b : Int64) : Machine :=
  { m with stack := (m.stack.push (.scalar (.int a))).push (.scalar (.int b)) }

/-- A machine whose stack was higher and is back where it was: the values stay in their storage. -/
def Machine.backFrom (m : Machine) (higher : Array Value) : Machine :=
  { m with leftovers := leftBehind { m with stack := higher } m.stack.size }

namespace Exec

/-- The result of an operator takes the place of its operands, whatever they were. -/
theorem replaceTop_operands {count : Nat} {result : Value} {m : Machine} {operands : Array Value}
    (hbelow : operands.shrink (operands.size - count) = m.stack) :
    replaceTop count result { m with stack := operands } = push result (m.backFrom operands) := by
  have hheight : operands.size - count = m.stack.size := by
    rw [← hbelow, Array.size_shrink]
    omega
  unfold replaceTop Machine.cut Machine.backFrom
  rw [bind_apply, modify_apply]
  dsimp only
  rw [hbelow, hheight]

/-- An operator with two operands puts its result in their place, or fails and leaves them there. -/
theorem binary_top (operator : Heap → Value → Value → Except Diagnostic Value) (m : Machine) (left right : Value) :
    binary operator { m with stack := (m.stack.push left).push right } =
      match operator m.heap left right with
      | .ok result => push result (m.backFrom ((m.stack.push left).push right))
      | .error complaint => .error (.failure complaint) { m with stack := (m.stack.push left).push right } := by
  have hright : peek 0 { m with stack := (m.stack.push left).push right } =
      .ok right { m with stack := (m.stack.push left).push right } := by
    simp [peek_eq, Array.getElem_push]
  have hleft : peek 1 { m with stack := (m.stack.push left).push right } =
      .ok left { m with stack := (m.stack.push left).push right } := by
    simp [peek_eq, Array.getElem_push]
  simp only [binary]
  rw [bind_apply, hright]
  dsimp only
  rw [bind_apply, hleft]
  dsimp only
  rw [get_bind_apply, bind_apply]
  cases operator m.heap left right with
  | error complaint => rfl
  | ok result =>
    have hbelow : ((m.stack.push left).push right).shrink (((m.stack.push left).push right).size - 2) = m.stack := by
      apply Array.toList_inj.mp
      simp
    exact replaceTop_operands hbelow

/-- An operator with one operand puts its result in its place, or fails and leaves it there. -/
theorem unary_top (operator : Heap → Value → Except Diagnostic Value) (m : Machine) (value : Value) :
    unary operator { m with stack := m.stack.push value } =
      match operator m.heap value with
      | .ok result => push result (m.backFrom (m.stack.push value))
      | .error complaint => .error (.failure complaint) { m with stack := m.stack.push value } := by
  have htop : peek 0 { m with stack := m.stack.push value } = .ok value { m with stack := m.stack.push value } := by
    simp [peek_eq]
  simp only [unary]
  rw [bind_apply, htop]
  dsimp only
  rw [get_bind_apply, bind_apply]
  cases operator m.heap value with
  | error complaint => rfl
  | ok result =>
    have hbelow : (m.stack.push value).shrink ((m.stack.push value).size - 1) = m.stack := by
      apply Array.toList_inj.mp
      simp
    exact replaceTop_operands hbelow

/-- On every machine an operator makes this of two integers: the result takes their place, or the operator fails with a
complaint and they stay. -/
def Delivers (op : Opcode) (a b : Int64) (outcome : Except Diagnostic Int64) : Prop :=
  ∀ (m : Machine) (x y : Nat), execute op x y (m.withIntegers a b) =
    match outcome with
    | .ok result => push (.scalar (.int result)) (m.backFrom (m.withIntegers a b).stack)
    | .error complaint => .error (.failure complaint) (m.withIntegers a b)

theorem delivers_arithmetic {op : Opcode} (hop : ∀ x y, execute op x y = binary (·.arithmetic op)) (a b : Int64) :
    Delivers op a b (op.integerResult a b) := by
  intro m x y
  rw [hop, Machine.withIntegers, binary_top]
  simp only [Heap.arithmetic, numberPair?]
  cases op.integerResult a b <;> rfl

theorem delivers_bits {op : Opcode} (hop : ∀ x y, execute op x y = binary (·.bitwise op)) (a b : Int64) :
    Delivers op a b (op.bitResult a b) := by
  intro m x y
  rw [hop, Machine.withIntegers, binary_top]
  simp only [Heap.bitwise]
  cases op.bitResult a b <;> rfl

theorem delivers_divide (a b : Int64) :
    Delivers .divide a b (if b = 0 then .error (typeError "integer division by zero") else .ok (a / b)) :=
  delivers_arithmetic (fun _ _ => rfl) a b

theorem delivers_modulo (a b : Int64) :
    Delivers .modulo a b (if b = 0 then .error (typeError "integer modulo by zero") else .ok (a % b)) :=
  delivers_arithmetic (fun _ _ => rfl) a b

theorem delivers_leftShift (a b : Int64) : Delivers .leftShift a b ((shiftCount b).map (a <<< ·)) :=
  delivers_bits (fun _ _ => rfl) a b

theorem delivers_rightShift (a b : Int64) : Delivers .rightShift a b ((shiftCount b).map (a >>> ·)) :=
  delivers_bits (fun _ _ => rfl) a b

theorem delivers_onIntegers {op : Opcode} (hop : op ∈ integerOperators) (a b : Int64) :
    Delivers op a b (op.onIntegers a b) := by
  simp only [integerOperators, List.mem_cons, List.not_mem_nil, or_false] at hop
  rcases hop with rfl | rfl | rfl | rfl | rfl | rfl | rfl
  · exact delivers_arithmetic (fun _ _ => rfl) a b
  · exact delivers_arithmetic (fun _ _ => rfl) a b
  · exact delivers_arithmetic (fun _ _ => rfl) a b
  · exact delivers_divide a b
  · exact delivers_modulo a b
  · exact delivers_leftShift a b
  · exact delivers_rightShift a b

/-- What the operators make of two integers, on every machine. -/
structure IntegerLaws (a b : Int64) : Prop where
  /-- Each operator comes to an outcome without an operation on words that is undefined, and delivers it. -/
  defined : ∀ op ∈ integerOperators, ∃ outcome, op.outcome? a b = some outcome ∧ Delivers op a b outcome
  add : ∃ c, Delivers .add a b (.ok c) ∧ c.toInt = (a.toInt + b.toInt).bmod (2 ^ 64)
  subtract : ∃ c, Delivers .subtract a b (.ok c) ∧ c.toInt = (a.toInt - b.toInt).bmod (2 ^ 64)
  multiply : ∃ c, Delivers .multiply a b (.ok c) ∧ c.toInt = (a.toInt * b.toInt).bmod (2 ^ 64)
  /-- The opposite sign is a difference from zero. -/
  negate : ∃ c, Opcode.outcome? .subtract 0 a = some (.ok c) ∧ c.toInt = (-a.toInt).bmod (2 ^ 64) ∧
    ∀ (m : Machine) (x y : Nat), execute .negate x y { m with stack := m.stack.push (.scalar (.int a)) } =
      push (.scalar (.int c)) (m.backFrom (m.stack.push (.scalar (.int a))))
  /-- The quotient drops the fraction, except that the least number keeps its sign; the remainder is what the quotient
  leaves over. -/
  divide : b ≠ 0 → ∃ quotient remainder, Delivers .divide a b (.ok quotient) ∧ Delivers .modulo a b (.ok remainder) ∧
    (¬ (a = Int64.minValue ∧ b = -1) → quotient.toInt = a.toInt.tdiv b.toInt) ∧
    (a = Int64.minValue ∧ b = -1 → quotient = Int64.minValue) ∧
    (∃ product, Delivers .multiply quotient b (.ok product) ∧ Delivers .add product remainder (.ok a)) ∧
    |remainder.toInt| < |b.toInt| ∧ (remainder = 0 ∨ remainder.toInt.sign = a.toInt.sign)
  shift : 0 ≤ b → b ≤ 63 →
    (∃ c, Delivers .leftShift a b (.ok c) ∧ c.toInt = (a.toInt * 2 ^ b.toInt.toNat).bmod (2 ^ 64)) ∧
    ∃ c, Delivers .rightShift a b (.ok c) ∧ c.toInt = ⌊(a.toInt : ℚ) / 2 ^ b.toInt.toNat⌋
  zero : b = 0 → Delivers .divide a b (.error (typeError "integer division by zero")) ∧
    Delivers .modulo a b (.error (typeError "integer modulo by zero"))
  outside : ¬ (0 ≤ b ∧ b ≤ 63) → Delivers .leftShift a b (.error (shiftComplaint b)) ∧
    Delivers .rightShift a b (.error (shiftComplaint b))

/-- The operators on integers are exact as far as a word reaches, and have a result or complain for all integers. -/
theorem integers_exact (a b : Int64) : IntegerLaws a b where
  defined op hop := ⟨op.onIntegers a b, Opcode.outcome?_eq hop a b, delivers_onIntegers hop a b⟩
  add := ⟨a + b, delivers_arithmetic (fun _ _ => rfl) a b, Int64.toInt_add a b⟩
  subtract := ⟨a - b, delivers_arithmetic (fun _ _ => rfl) a b, Int64.toInt_sub a b⟩
  multiply := ⟨a * b, delivers_arithmetic (fun _ _ => rfl) a b, Int64.toInt_mul a b⟩
  negate := by
    refine ⟨0 - a, rfl, ?_, fun m x y => unary_top Heap.negate m (.scalar (.int a))⟩
    rw [Int64.toInt_sub, Int64.toInt_zero, zero_sub]
  divide hzero := by
    have hquotient := delivers_divide a b
    have hremainder := delivers_modulo a b
    rw [if_neg hzero] at hquotient hremainder
    have hwhole : Delivers .add (a / b * b) (a % b) (.ok (a / b * b + a % b)) :=
      delivers_arithmetic (fun _ _ => rfl) _ _
    rw [Word.div_mul_add_mod] at hwhole
    refine ⟨a / b, a % b, hquotient, hremainder, Word.toInt_div_of_fits, ?_, ?_, Word.abs_mod_lt hzero,
      Word.sign_mod a b⟩
    · rintro ⟨rfl, rfl⟩
      rfl
    · exact ⟨a / b * b, delivers_arithmetic (fun _ _ => rfl) _ _, hwhole⟩
  shift hlow hhigh := by
    have hleft := delivers_leftShift a b
    have hright := delivers_rightShift a b
    rw [shiftCount_inside hlow hhigh] at hleft hright
    refine ⟨⟨a <<< b, hleft, Word.toInt_shiftLeft hlow hhigh⟩, a >>> b, hright, ?_⟩
    have hfloor := Rat.floor_intCast_div_natCast a.toInt (2 ^ b.toInt.toNat)
    push_cast at hfloor
    rw [hfloor, Word.toInt_shiftRight hlow hhigh]
  zero hzero := by
    have hquotient := delivers_divide a b
    have hremainder := delivers_modulo a b
    rw [if_pos hzero] at hquotient hremainder
    exact ⟨hquotient, hremainder⟩
  outside houtside := by
    have hleft := delivers_leftShift a b
    have hright := delivers_rightShift a b
    rw [shiftCount_outside houtside] at hleft hright
    exact ⟨hleft, hright⟩

end Exec

end OwnScript
