/-!
# Blanks and lines

White space is the Unicode property of that name, which reaches beyond the blanks and tabs that a
program may be laid out with. Lines end at a newline; a carriage return in front of it belongs to
the line end, and a text that ends in a newline has no further, empty line.
-/

namespace FormScript

/-- The Unicode property White_Space. -/
def isBlank (c : Char) : Bool :=
  let n := c.toNat
  (9 ≤ n && n ≤ 13) || n == 0x20 || n == 0x85 || n == 0xa0 || n == 0x1680 ||
    (0x2000 ≤ n && n ≤ 0x200a) || n == 0x2028 || n == 0x2029 || n == 0x202f || n == 0x205f ||
    n == 0x3000

/-- The characters up to the last one that is no white space. -/
def trimEnd (cs : List Char) : List Char := (cs.reverse.dropWhile isBlank).reverse

theorem trimEnd_cons {c : Char} (h : isBlank c = false) (cs : List Char) :
    trimEnd (c :: cs) = c :: trimEnd cs := by
  unfold trimEnd
  rw [List.reverse_cons, List.dropWhile_append]
  split
  · rename_i hempty
    rw [List.isEmpty_iff.mp hempty]
    simp [h]
  · simp

/-- The characters from the first to the last one that is no white space. -/
def trim (cs : List Char) : List Char := trimEnd (cs.dropWhile isBlank)

/-- The lines of a text. -/
def lines (cs : List Char) : List (List Char) :=
  go cs [] []
where
  /-- `line` is the current line and `done` the lines before it, both last character first. -/
  go : List Char → List Char → List (List Char) → List (List Char)
    | [], [], done => done.reverse
    | [], line, done => (line.reverse :: done).reverse
    | '\n' :: cs, line, done => go cs [] ((withoutReturn line).reverse :: done)
    | c :: cs, line, done => go cs (c :: line) done
  withoutReturn : List Char → List Char
    | '\r' :: line => line
    | line => line

end FormScript
