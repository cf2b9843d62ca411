import OwnScript.Number.Binary64

/-!
The remainder of a float division whose quotient is cut toward zero. It is always exact: both
operands are multiples of one power of two, and the remainder is the integer remainder of the
two multiples.
-/

namespace OwnScript.Number

/-- The integer remainder of two magnitudes over their common power of two. -/
def Magnitude.remainder (a b : Magnitude) : Magnitude :=
  let unit := min a.exponent b.exponent
  let multiple (m : Magnitude) : Nat := m.mantissa <<< (m.exponent - unit).toNat
  ⟨multiple a % multiple b, unit⟩

/-- The remainder has the sign of the dividend, and a zero remainder keeps that sign too. An
infinite divisor leaves a finite dividend as it is; a zero divisor or an infinite dividend has
no remainder. -/
def remainder (a b : Float) : Float :=
  match content a.toBits, content b.toBits with
  | .finite x, .finite y =>
    if y.mantissa = 0 then 0.0 / 0.0
    else Float.ofBits (encode (signBit a.toBits) (x.remainder y))
  | .finite _, .infinite => a
  | _, _ => 0.0 / 0.0

end OwnScript.Number
