/-!
# Bytes as text

Bytes that are no text can still be shown: each broken piece becomes one replacement character. A
piece is as long as what could have been the start of a character, or a single byte.
-/

namespace FormScript

/-- The text that bytes encode, if they encode one. -/
def decodeText? (bytes : ByteArray) : Option String := String.fromUTF8? bytes

/-- What may come second in a character of several bytes, and how many bytes follow the first. -/
def leadByte? (b : Nat) : Option (Nat × Nat × Nat) :=
  if 0xc2 ≤ b ∧ b ≤ 0xdf then some (1, 0x80, 0xbf)
  else if b = 0xe0 then some (2, 0xa0, 0xbf)
  else if b = 0xed then some (2, 0x80, 0x9f)
  else if 0xe1 ≤ b ∧ b ≤ 0xef then some (2, 0x80, 0xbf)
  else if b = 0xf0 then some (3, 0x90, 0xbf)
  else if 0xf1 ≤ b ∧ b ≤ 0xf3 then some (3, 0x80, 0xbf)
  else if b = 0xf4 then some (3, 0x80, 0x8f)
  else none

/-- The bits that the first byte gives to a character with `more` bytes behind it. -/
def leadBits (more b : Nat) : Nat :=
  if more = 1 then b % 32 else if more = 2 then b % 16 else b % 8

/-- Reads the bytes behind the first one of a character. If one does not fit the replacement stands
for what was read, and reading goes on at that byte. -/
def readCharacter (value : Nat) : (more low high : Nat) → List UInt8 → Char × List UInt8
  | 0, _, _, bytes => (Char.ofNat value, bytes)
  | _ + 1, _, _, [] => ('\ufffd', [])
  | more + 1, low, high, b :: bytes =>
    if low ≤ b.toNat ∧ b.toNat ≤ high then
      readCharacter (64 * value + b.toNat % 64) more 0x80 0xbf bytes
    else ('\ufffd', b :: bytes)

/-- Reading goes on no earlier than where it began. -/
theorem readCharacter_length (value more low high : Nat) (bytes : List UInt8) :
    (readCharacter value more low high bytes).2.length ≤ bytes.length := by
  induction more generalizing value low high bytes with
  | zero => simp [readCharacter]
  | succ more ih =>
    cases bytes with
    | nil => simp [readCharacter]
    | cons b bytes =>
      rw [readCharacter]
      split
      · exact Nat.le_succ_of_le (ih _ _ _ _)
      · simp

/-- The text of bytes, with replacements for what is no text. -/
def showBytes (bytes : List UInt8) : List Char :=
  match bytes with
  | [] => []
  | b :: rest =>
    if b.toNat < 0x80 then Char.ofNat b.toNat :: showBytes rest
    else
      match leadByte? b.toNat with
      | none => '\ufffd' :: showBytes rest
      | some (more, low, high) =>
        let r := readCharacter (leadBits more b.toNat) more low high rest
        r.1 :: showBytes r.2
termination_by bytes.length
decreasing_by
  · simp
  · simp
  · have := readCharacter_length (leadBits more b.toNat) more low high rest
    simp only [List.length_cons]
    omega

end FormScript
