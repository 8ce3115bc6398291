import FormScript.Number.Binary64

/-!
# Writing numbers with the fewest digits

A number is written with as few digits as let it be read back. A decimal number reads back as `x`
if it lies in the interval of numbers that are nearer to `x` than to its neighbours; the ends of the
interval belong to it if the significand is even. For one digit, two digits, and so on up to
seventeen, the two decimal numbers of that many digits next to `x` are tried; if any decimal number
of that length lies in the interval then so does one of these two. Of two that do, the nearer one is
taken, and an exact half is decided by the format.

Everything is done on fractions of whole numbers. A format (`NumberLayout`) says how digits become
text.
-/

namespace FormScript

/-- A decimal number: `digits * 10 ^ exponent`. -/
structure Decimal where
  digits : Nat
  exponent : Int
deriving DecidableEq, Repr, Inhabited

/-- Which of two equally near decimal numbers is taken. -/
inductive Tie where
  | up
  | even
deriving DecidableEq, Repr

/-- Number of decimal digits. -/
def decimalLength (n : Nat) : Nat := (Nat.toDigits 10 n).length

/-- The fraction `num * 10 ^ k / den` as numerator and denominator. -/
def timesTen (num den : Nat) (k : Int) : Nat × Nat :=
  if 0 ≤ k then (num * tenTo k.toNat, den) else (num, den * tenTo (-k).toNat)

/-- The least power of ten above a fraction. -/
def decimalTop (num den : Nat) : Int :=
  let guess : Int := (decimalLength num : Int) - (decimalLength den : Int)
  let (n, d) := timesTen num den (-guess)
  if d ≤ n then guess + 1 else guess

/-- The decimal number of so many digits that reads back, if there is one: `low` and `high` are
the ends of the interval and `num` the number itself, all over `den`. -/
def decimalOfLength? (tie : Tie) (closed : Bool) (low num high den : Nat) (top : Int)
    (length : Nat) : Option Decimal :=
  let exponent := top - length
  let (n, d) := timesTen num den (-exponent)
  let (lo, _) := timesTen low den (-exponent)
  let (hi, _) := timesTen high den (-exponent)
  let below := n / d
  let above := below + 1
  let inside := fun (c : Nat) => if closed then lo ≤ c * d && c * d ≤ hi
    else lo < c * d && c * d < hi
  let twice := 2 * (n % d)
  let preferBelow := twice < d || (twice == d && tie == .even && below % 2 == 0)
  if inside below && inside above then some ⟨if preferBelow then below else above, exponent⟩
  else if inside below then some ⟨below, exponent⟩
  else if inside above then some ⟨above, exponent⟩
  else none

/-- Without zeros at the end. -/
def Decimal.trimZeros (d : Decimal) : Nat → Decimal
  | 0 => d
  | fuel + 1 =>
    if d.digits ≠ 0 ∧ d.digits % 10 = 0 then
      Decimal.trimZeros ⟨d.digits / 10, d.exponent + 1⟩ fuel
    else d

namespace Binary64

/-- The shortest decimal number that reads back as this one, signs apart. -/
def shortest (tie : Tie) (x : Binary64) : Decimal :=
  let m := x.significand
  if m = 0 then ⟨0, 0⟩
  else
    -- In units of a quarter of the spacing above: the spacing below is half as wide where the
    -- significand is the least of its power.
    let quarters := fun (n : Nat) => if x.scale ≤ 1076 then n else n * twoTo (x.scale - 1076)
    let den := twoTo (1076 - x.scale)
    let low := quarters (4 * m - if m = twoTo 52 ∧ 0 < x.scale then 1 else 2)
    let num := quarters (4 * m)
    let high := quarters (4 * m + 2)
    let top := decimalTop num den
    let found := (List.range 17).findSome? fun k =>
      decimalOfLength? tie (m % 2 == 0) low num high den top (k + 1)
    (found.getD ⟨0, 0⟩).trimZeros 17

end Binary64

/-- How digits become text: which of two equally near decimals is taken, from which powers of ten
on a number is written with an exponent, and whether a whole number shows a fraction. -/
structure NumberLayout where
  tie : Tie
  /-- Largest number of places before the point, if there is one. -/
  maxWhole : Option Nat
  /-- Largest number of zeros behind the point, if there is one. -/
  maxLeading : Option Nat
  wholeFraction : Bool
deriving DecidableEq, Repr

/-- Digits with a point so many places from their end, without an exponent. -/
def positional (digits : List Char) (exponent : Int) (wholeFraction : Bool) : String :=
  let tail := if wholeFraction then ".0" else ""
  if 0 ≤ exponent then
    String.ofList (digits ++ List.replicate exponent.toNat '0') ++ tail
  else
    let places := (-exponent).toNat
    if places < digits.length then
      let whole := digits.length - places
      String.ofList (digits.take whole) ++ "." ++ String.ofList (digits.drop whole)
    else
      "0." ++ String.ofList (List.replicate (places - digits.length) '0' ++ digits)

/-- Digits with one place before the point, and the exponent behind, always with its sign. -/
def scientific (digits : List Char) (exponent : Int) : String :=
  let power := exponent + digits.length - 1
  let mantissa := match digits with
    | [d] => d.toString
    | d :: ds => d.toString ++ "." ++ String.ofList ds
    | [] => ""
  let sign := if 0 ≤ power then "+" else "-"
  s!"{mantissa}e{sign}{power.natAbs}"

/-- The text of a finite number, sign apart. -/
def NumberLayout.writeMagnitude (layout : NumberLayout) (x : Binary64) : String :=
  let d := x.shortest layout.tie
  let digits := Nat.toDigits 10 d.digits
  let top := d.exponent + digits.length
  let tooLarge := layout.maxWhole.any fun n => (n : Int) < top
  let tooSmall := layout.maxLeading.any fun n => top < -(n : Int)
  if d.digits ≠ 0 && (tooLarge || tooSmall) then scientific digits d.exponent
  else positional digits d.exponent layout.wholeFraction

/-- The text of a number. -/
def NumberLayout.write (layout : NumberLayout) (x : Binary64) : String :=
  if x.isNaN then "NaN"
  else
    let sign := if x.isNegative then "-" else ""
    sign ++ if x.isFinite then layout.writeMagnitude x else "inf"

end FormScript
