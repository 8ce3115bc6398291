import FormScript.Number.Binary64

/-!
# Reading decimal numbers

A decimal number is a sign, digits with a point among or around them, and an exponent. It is read
as a whole number times a power of ten and then rounded once, so the result is the nearest binary
number whatever the spelling. Powers that no finite number can have are settled by the count of
digits, before any power of ten is computed.
-/

namespace FormScript

/-- A decimal number, apart from its sign: `digits * 10 ^ exponent`. -/
structure DecimalText where
  digits : List Char
  exponent : Int
deriving DecidableEq, Repr

/-- The number that digits spell. -/
def digitsValue (digits : List Char) : Nat :=
  digits.foldl (fun n c => 10 * n + (c.toNat - '0'.toNat)) 0

/-- The exponent that digits spell. Once it has reached 65536 further digits are passed over. -/
def exponentValue (digits : List Char) : Nat :=
  digits.foldl (fun n c => if n < 65536 then 10 * n + (c.toNat - '0'.toNat) else n) 0

/-- A sign in front, and the rest. -/
def readSign : List Char → Bool × List Char
  | '-' :: cs => (true, cs)
  | '+' :: cs => (false, cs)
  | cs => (false, cs)

/-- Nothing, or the letter of an exponent and a whole number with or without a sign. -/
def readExponent? : List Char → Option Int
  | [] => some 0
  | c :: cs =>
    if c = 'e' ∨ c = 'E' then
      let (negative, digits) := readSign cs
      if digits ≠ [] ∧ digits.all Char.isDigit then
        let n : Int := exponentValue digits
        some (if negative then -n else n)
      else none
    else none

/-- A decimal number without a sign: digits on at least one side of the point. -/
def readDecimal? (cs : List Char) : Option DecimalText := do
  let whole := cs.takeWhile Char.isDigit
  let rest := cs.dropWhile Char.isDigit
  let (fraction, rest) := match rest with
    | '.' :: more => (more.takeWhile Char.isDigit, more.dropWhile Char.isDigit)
    | rest => ([], rest)
  if whole.isEmpty && fraction.isEmpty then none
  let exponent ← readExponent? rest
  some ⟨whole ++ fraction, exponent - fraction.length⟩

/-- The nearest binary number to a decimal number with a sign. Beyond 400 places on either side of
the point nothing is left to round. -/
def DecimalText.value (negative : Bool) (d : DecimalText) : Binary64 :=
  let significant := d.digits.dropWhile (· == '0')
  let top : Int := significant.length + d.exponent
  if significant.isEmpty || top < -400 then .ofMagnitude negative 0
  else if 400 < top then .ofMagnitude negative Binary64.infinityBits
  else if 0 ≤ d.exponent then .ofRatio negative (digitsValue significant * tenTo d.exponent.toNat) 1
  else .ofRatio negative (digitsValue significant) (tenTo (-d.exponent).toNat)

/-- Reads a decimal number. Texts that spell no digits are refused. -/
def Binary64.ofDecimal? (cs : List Char) : Option Binary64 :=
  let (negative, rest) := readSign cs
  (readDecimal? rest).map (·.value negative)

end FormScript
