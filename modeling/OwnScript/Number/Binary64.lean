/-!
The binary64 encoding taken apart. A finite float is a sign and a magnitude
`mantissa * 2 ^ exponent` with natural mantissa, so that exact integer arithmetic decides
how it is written and what remains after a division.
-/

namespace OwnScript.Number

/-- The nonnegative number `mantissa * 2 ^ exponent`. -/
structure Magnitude where
  mantissa : Nat
  exponent : Int
  deriving Repr, DecidableEq

/-- What the bits of a float stand for, apart from its sign. -/
inductive Content where
  | nan
  | infinite
  | finite (magnitude : Magnitude)
  deriving Repr, DecidableEq

/-- The sign bit of an encoding. -/
def signBit (bits : UInt64) : Bool :=
  bits >>> 63 == 1

/-- The bit just above the fraction field, which a normal number has without its being written. -/
def leadingBit : Nat := 0x10000000000000

/-- Reads exponent and fraction fields. Subnormal numbers, zero among them, share the least
exponent and lack the implicit leading bit. -/
def content (bits : UInt64) : Content :=
  let field := ((bits >>> 52) &&& 0x7ff).toNat
  let fraction := (bits &&& 0xfffffffffffff).toNat
  if field = 0x7ff then
    if fraction = 0 then .infinite else .nan
  else if field = 0 then
    .finite ⟨fraction, -1074⟩
  else
    .finite ⟨fraction + leadingBit, (field : Int) - 1075⟩

/-- The encoding of a magnitude that binary64 holds exactly. The leading bit decides whether the
number is normal; bits of the mantissa below the last place are dropped, so only exact
magnitudes are encoded faithfully. -/
def encode (negative : Bool) (magnitude : Magnitude) : UInt64 :=
  let sign : Nat := if negative then 0x8000000000000000 else 0
  if magnitude.mantissa = 0 then
    sign.toUInt64
  else
    let lead : Int := magnitude.exponent + (Nat.log2 magnitude.mantissa : Int)
    let scale : Int := magnitude.exponent - (if lead < -1022 then -1074 else lead - 52)
    let places := if scale < 0 then magnitude.mantissa >>> (-scale).toNat
      else magnitude.mantissa <<< scale.toNat
    if lead < -1022 then
      (sign + places).toUInt64
    else
      (sign + ((lead + 1023).toNat * leadingBit + (places - leadingBit))).toUInt64

end OwnScript.Number
