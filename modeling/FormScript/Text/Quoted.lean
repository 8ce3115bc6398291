import FormScript.Text.Hidden

/-!
# Quoted text

A text is shown between double quotes so that a reader can tell where it ends and what it holds.
The quote and the backslash are escaped, four control characters have short names, and every other
character that would not be seen is written by its number in hexadecimal digits.
-/

namespace FormScript

/-- The digits of a number in lower-case hexadecimal. -/
def hexDigits (n : Nat) : String := String.ofList (Nat.toDigits 16 n)

/-- How one character is written between quotes. -/
def quotedChar (c : Char) : String :=
  match c with
  | '\x00' => "\\0"
  | '\t' => "\\t"
  | '\r' => "\\r"
  | '\n' => "\\n"
  | '\x22' => "\\\""
  | '\\' => "\\\\"
  | c => if isHidden c then "\\u\x7b" ++ hexDigits c.toNat ++ "\x7d" else c.toString

/-- A text in double quotes. -/
def quoted (s : String) : String :=
  s.toList.foldl (fun out c => out ++ quotedChar c) "\"" ++ "\""

end FormScript
