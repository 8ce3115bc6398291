import FormScript.Limits
import FormScript.Number.Binary64

/-!
# Sizes of files

A size is shown in the largest unit of which there is at least one, with two places, a half going to
the even neighbour. Sizes too large for 53 bits are first rounded to 53 bits.
-/

namespace FormScript

/-- A whole number rounded to 53 significant bits. -/
def roundTo53Bits (n : Nat) : Nat :=
  if n < twoTo 53 then n
  else
    let unit := twoTo (n.log2 - 52)
    roundDiv n unit * unit

/-- A quotient with two places. -/
def twoPlaces (num den : Nat) : String :=
  let hundredths := roundDiv (num * 100) den
  let rest := hundredths % 100
  s!"{hundredths / 100}." ++ (if rest < 10 then s!"0{rest}" else s!"{rest}")

/-- A size as people read it. -/
def sizeText (bytes : Nat) : String :=
  let n := roundTo53Bits bytes
  if n < 1024 then s!"{bytes} B"
  else if n < twoTo 20 then twoPlaces n 1024 ++ " KB"
  else if n < twoTo 30 then twoPlaces n (twoTo 20) ++ " MB"
  else twoPlaces n (twoTo 30) ++ " GB"

/-- Whether a file counts as large. -/
def isLargeSize (bytes : Nat) : Bool := Limits.largeFileBytes < bytes

end FormScript
