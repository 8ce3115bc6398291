/-!
# Binary numbers of 64 bits

A number is kept as its bits: a sign, eleven bits of exponent and 52 bits of fraction. Equality is
equality of bits, so the two zeros differ and a number never differs from itself. What a finite
number stands for is `significand * 2 ^ power`, with the sign; nothing here computes with anything
but whole numbers.

`ofRatio` finds the number nearest to a fraction. It looks for the largest power of two at which
the quotient still fills 53 bits, or takes the least power there is, and rounds the quotient there.
Since the bits of a number grow with its size, a quotient that rounds up to the next power of two
carries into the exponent by plain addition.
-/

namespace FormScript

/-- A binary number of 64 bits. -/
structure Binary64 where
  bits : UInt64
deriving DecidableEq, Repr, Inhabited

/-- A power of two. -/
def twoTo (k : Nat) : Nat := Nat.pow 2 k

/-- A power of ten. -/
def tenTo (k : Nat) : Nat := Nat.pow 10 k

/-- The quotient rounded to the nearest whole number, a half going to the even neighbour. -/
def roundDiv (num den : Nat) : Nat :=
  let q := num / den
  let r := num % den
  if 2 * r < den then q
  else if den < 2 * r then q + 1
  else q + q % 2

namespace Binary64

/-- Bits without the sign. -/
def magnitude (x : Binary64) : Nat := x.bits.toNat % twoTo 63

/-- Whether the sign bit is set. -/
def isNegative (x : Binary64) : Bool := twoTo 63 ≤ x.bits.toNat

/-- The bits of infinity. -/
def infinityBits : Nat := 2047 * twoTo 52

/-- Whether this is neither infinite nor no number at all. -/
def isFinite (x : Binary64) : Bool := x.magnitude < infinityBits

/-- Whether this is no number at all. -/
def isNaN (x : Binary64) : Bool := infinityBits < x.magnitude

/-- The whole number whose multiple by a power of two this is. -/
def significand (x : Binary64) : Nat :=
  if x.magnitude < twoTo 52 then x.magnitude else twoTo 52 + x.magnitude % twoTo 52

/-- The power of two, counted up from the least one, which is the power of -1074. -/
def scale (x : Binary64) : Nat := x.magnitude / twoTo 52 - 1

/-- The number of that sign and magnitude. -/
def ofMagnitude (negative : Bool) (magnitude : Nat) : Binary64 :=
  ⟨UInt64.ofNat (if negative then twoTo 63 + magnitude else magnitude)⟩

/-- The whole part of the binary logarithm of a fraction that is not zero. The lengths of its two
parts give it up to one. -/
def logRatio (num den : Nat) : Int :=
  let guess : Int := (num.log2 : Int) - (den.log2 : Int)
  let reached := if 0 ≤ guess then den * twoTo guess.toNat ≤ num
    else den ≤ num * twoTo (-guess).toNat
  if reached then guess else guess - 1

/-- The number nearest to a fraction, a half going to the even significand. Fractions too large
for every finite number give infinity. -/
def ofRatio (negative : Bool) (num den : Nat) : Binary64 :=
  if num = 0 then ofMagnitude negative 0
  else
    let scale := (logRatio num den + 1022).toNat
    -- The quotient by the power `scale - 1074` of two, with that power moved to where it is whole.
    let rounded :=
      if scale ≤ 1074 then roundDiv (num * twoTo (1074 - scale)) den
      else roundDiv num (den * twoTo (scale - 1074))
    ofMagnitude negative (min infinityBits (scale * twoTo 52 + rounded))

end Binary64

end FormScript
