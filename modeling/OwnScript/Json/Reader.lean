import OwnScript.Json.Basic

/-!
Reading JSON text by the grammar of the format: no comments, no trailing commas, no text after
the document. A number too large for a float and an escaped surrogate without its partner make
the text invalid.

Each reader takes the remaining characters and returns what it read with the rest. The depth of
a document is bounded by the number of its characters, which is the fuel of the recursion.
-/

namespace OwnScript.Json

/-- The rest of the text after the blanks that may stand between tokens. -/
def skipBlanks : List Char → List Char
  | ' ' :: rest | '\t' :: rest | '\n' :: rest | '\r' :: rest => skipBlanks rest
  | rest => rest

/-- The value of a hexadecimal digit. -/
def hexDigit? (c : Char) : Option Nat :=
  if '0' ≤ c ∧ c ≤ '9' then some (c.toNat - '0'.toNat)
  else if 'a' ≤ c ∧ c ≤ 'f' then some (c.toNat - 'a'.toNat + 10)
  else if 'A' ≤ c ∧ c ≤ 'F' then some (c.toNat - 'A'.toNat + 10)
  else none

/-- Four hexadecimal digits as one number. -/
def readUnit? : List Char → Option (Nat × List Char)
  | a :: b :: c :: d :: rest => do
    let a ← hexDigit? a
    let b ← hexDigit? b
    let c ← hexDigit? c
    let d ← hexDigit? d
    return (((a * 16 + b) * 16 + c) * 16 + d, rest)
  | _ => none

/-- The character of a `u` escape. Two escapes in a row write a character outside the basic
plane; either half alone writes nothing. -/
def readEscapedUnit? (text : List Char) : Option (Char × List Char) := do
  let (first, rest) ← readUnit? text
  if 0xd800 ≤ first ∧ first < 0xdc00 then
    match rest with
    | '\\' :: 'u' :: more => do
      let (second, rest) ← readUnit? more
      if 0xdc00 ≤ second ∧ second < 0xe000 then
        return (Char.ofNat (0x10000 + (first - 0xd800) * 0x400 + (second - 0xdc00)), rest)
      else none
    | _ => none
  else if 0xdc00 ≤ first ∧ first < 0xe000 then none
  else return (Char.ofNat first, rest)

/-- The characters of a string after its opening quote, collected in reverse. -/
def readString? (fuel : Nat) (seen : List Char) (text : List Char) :
    Option (String × List Char) :=
  match fuel, text with
  | 0, _ | _, [] => none
  | _ + 1, '"' :: rest => some (String.ofList seen.reverse, rest)
  | fuel + 1, '\\' :: 'u' :: rest => do
    let (c, rest) ← readEscapedUnit? rest
    readString? fuel (c :: seen) rest
  | fuel + 1, '\\' :: c :: rest =>
    match c with
    | '"' => readString? fuel ('"' :: seen) rest
    | '\\' => readString? fuel ('\\' :: seen) rest
    | '/' => readString? fuel ('/' :: seen) rest
    | 'b' => readString? fuel ('\x08' :: seen) rest
    | 'f' => readString? fuel ('\x0c' :: seen) rest
    | 'n' => readString? fuel ('\n' :: seen) rest
    | 'r' => readString? fuel ('\r' :: seen) rest
    | 't' => readString? fuel ('\t' :: seen) rest
    | _ => none
  | fuel + 1, c :: rest =>
    if c.toNat < 0x20 ∨ c = '\\' then none else readString? fuel (c :: seen) rest

/-- A run of decimal digits and the rest of the text. -/
def readDigits (text : List Char) : List Char × List Char :=
  text.span Char.isDigit

/-- The number that a run of decimal digits writes. -/
def digitsValue (digits : List Char) : Nat :=
  digits.foldl (fun n c => 10 * n + (c.toNat - '0'.toNat)) 0

/-- The float nearest to `digits * 10 ^ exponent`. Numbers far outside the range of floats are
settled by the position of their leading digit, without computing the power of ten. -/
def scaledFloat (digits : Nat) (exponent : Int) : Float :=
  let lead : Int := exponent + ((Nat.toDigits 10 digits).length : Int)
  if digits = 0 then 0.0
  else if 400 < lead then 1.0 / 0.0
  else if lead < -400 then 0.0
  else Float.ofScientific digits (decide (exponent < 0)) exponent.natAbs

/-- A number written with a fraction, an exponent or too many digits. -/
def floatNumber? (negative : Bool) (whole fractional : List Char) (power : Int) : Option Number :=
  let value := scaledFloat (digitsValue (whole ++ fractional)) (power - (fractional.length : Int))
  if value.isInf then none
  else some (.float (if negative then -value else value))

/-- The digits after a decimal point, if there is one. -/
def readFraction? : List Char → Option (Option (List Char) × List Char)
  | '.' :: rest =>
    match readDigits rest with
    | ([], _) => none
    | (digits, rest) => some (some digits, rest)
  | rest => some (none, rest)

/-- The power of ten after an exponent mark, if there is one. -/
def readExponent? : List Char → Option (Option Int × List Char)
  | 'e' :: rest | 'E' :: rest =>
    let (negative, rest) := match rest with
      | '-' :: rest => (true, rest)
      | '+' :: rest => (false, rest)
      | rest => (false, rest)
    match readDigits rest with
    | ([], _) => none
    | (digits, rest) =>
      let value : Int := digitsValue digits
      some (some (if negative then -value else value), rest)
  | rest => some (none, rest)

/-- The whole part of a number: zero alone, or digits that do not start with zero. -/
def readWhole? (text : List Char) : Option (List Char × List Char) :=
  match readDigits text with
  | ([], _) => none
  | ('0' :: _ :: _, _) => none
  | (digits, rest) => some (digits, rest)

/-- A number with its optional sign, fraction and exponent. -/
def readNumber? (text : List Char) : Option (Number × List Char) := do
  let (negative, text) := match text with
    | '-' :: rest => (true, rest)
    | rest => (false, rest)
  let (whole, text) ← readWhole? text
  let (fraction, text) ← readFraction? text
  let (power, text) ← readExponent? text
  let number ← match fraction, power with
    | none, none =>
      let value := digitsValue whole
      if negative then
        if value ≤ 0x8000000000000000 then some (.signed (-(value : Int))) else floatNumber? true whole [] 0
      else if value < UInt64.size then some (.unsigned value) else floatNumber? false whole [] 0
    | _, _ => floatNumber? negative whole (fraction.getD []) (power.getD 0)
  return (number, text)

mutual

/-- One document, with blanks before it skipped. -/
def readDocument? (fuel : Nat) (text : List Char) : Option (Json × List Char) :=
  match fuel with
  | 0 => none
  | fuel + 1 =>
    match skipBlanks text with
    | 'n' :: 'u' :: 'l' :: 'l' :: rest => some (.null, rest)
    | 't' :: 'r' :: 'u' :: 'e' :: rest => some (.bool true, rest)
    | 'f' :: 'a' :: 'l' :: 's' :: 'e' :: rest => some (.bool false, rest)
    | '"' :: rest => (readString? (rest.length + 1) [] rest).map fun (s, rest) => (.string s, rest)
    | '[' :: rest =>
      match skipBlanks rest with
      | ']' :: rest => some (.array [], rest)
      | _ => (readItems? fuel [] rest).map fun (items, rest) => (.array items, rest)
    | '\x7b' :: rest =>
      match skipBlanks rest with
      | '\x7d' :: rest => some (.object [], rest)
      | _ => (readMembers? fuel [] rest).map fun (members, rest) => (.object members, rest)
    | rest => (readNumber? rest).map fun (n, rest) => (.number n, rest)

/-- The items of an array up to its closing bracket, collected in reverse. -/
def readItems? (fuel : Nat) (seen : List Json) (text : List Char) :
    Option (List Json × List Char) :=
  match fuel with
  | 0 => none
  | fuel + 1 =>
    match readDocument? fuel text with
    | none => none
    | some (item, rest) =>
      match skipBlanks rest with
      | ']' :: rest => some ((item :: seen).reverse, rest)
      | ',' :: rest => readItems? fuel (item :: seen) rest
      | _ => none

/-- The members of an object up to its closing brace, collected in reverse. -/
def readMembers? (fuel : Nat) (seen : List (String × Json)) (text : List Char) :
    Option (List (String × Json) × List Char) :=
  match fuel with
  | 0 => none
  | fuel + 1 =>
    match skipBlanks text with
    | '"' :: rest =>
      match readString? (rest.length + 1) [] rest with
      | none => none
      | some (name, rest) =>
        match skipBlanks rest with
        | ':' :: rest =>
          match readDocument? fuel rest with
          | none => none
          | some (value, rest) =>
            match skipBlanks rest with
            | '\x7d' :: rest => some (((name, value) :: seen).reverse, rest)
            | ',' :: rest => readMembers? fuel ((name, value) :: seen) rest
            | _ => none
        | _ => none
    | _ => none

end

/-- The document that a text writes, if it writes exactly one. -/
def read? (text : String) : Option Json :=
  match readDocument? (2 * text.toList.length + 2) text.toList with
  | some (document, rest) => if skipBlanks rest = [] then some document else none
  | none => none

/-- A library that reads texts like this. -/
def library : Library where
  read? := read?
  find? := lastMember?

end OwnScript.Json
