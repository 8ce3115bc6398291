import FormScript.Text.Position

/-!
# Line tables

A line table is a text together with the offsets at which its lines begin. It answers two
questions: at which line and column an offset lies, and what a given line says. Both are look-ups
in the table, so a table recorded elsewhere can be adopted; `LineTable.ofStarts` puts it in order
first and adds the start of the text, and no entry can then make a look-up fail. An entry may lie
past the end or inside a character: a column is then counted in bytes, and such a line has no text.

Offsets count bytes. `cut?` is the one place where bytes and characters meet: it succeeds exactly
at the offsets that lie between two characters.
-/

namespace FormScript

/-- Bytes that the characters take. -/
def byteLength (cs : List Char) : Nat := cs.foldl (fun n c => n + c.utf8Size) 0

/-- The characters before and after offset `n`, if no character straddles it. -/
def cut? (n : Nat) (cs : List Char) : Option (List Char × List Char) :=
  go n cs []
where
  go : Nat → List Char → List Char → Option (List Char × List Char)
    | 0, cs, before => some (before.reverse, cs)
    | _ + 1, [], _ => none
    | n + 1, c :: cs, before =>
      if c.utf8Size ≤ n + 1 then go (n + 1 - c.utf8Size) cs (c :: before) else none

/-- The characters between two offsets, if both lie between characters of the text. -/
def slice? (a b : Nat) (cs : List Char) : Option (List Char) :=
  if a ≤ b then (cut? a cs).bind fun r => (cut? (b - a) r.2).map Prod.fst else none

/-- A text and the offsets at which its lines begin, in ascending order from zero. -/
structure LineTable where
  source : List Char
  starts : List Nat
deriving DecidableEq, Repr, Inhabited

namespace LineTable

/-- The table of a text: a line begins at zero and behind every newline. -/
def ofSource (source : List Char) : LineTable :=
  ⟨source, (Cursor.start.after source).lineStarts.toList⟩

/-- Adopts recorded line starts, in any order and with repetitions. -/
def ofStarts (source : List Char) (starts : List Nat) : LineTable :=
  ⟨source, ((0 :: starts).mergeSort (· ≤ ·)).eraseReps⟩

/-- Number of lines. -/
def lineCount (t : LineTable) : Nat := t.starts.length

/-- Index of the line that an offset lies on: the last one that begins at or before it. -/
def lineIndex (t : LineTable) (offset : Nat) : Nat :=
  (t.starts.takeWhile (· ≤ offset)).length - 1

/-- Line and column of an offset. Offsets past the end are taken to the end. -/
def positionAt (t : LineTable) (offset : Nat) : Position :=
  let offset := min offset (byteLength t.source)
  let line := t.lineIndex offset
  let lineStart := t.starts.getD line 0
  let column := match slice? lineStart offset t.source with
    | some cs => cs.length
    | none => offset - lineStart
  ⟨offset, line + 1, column + 1⟩

/-- The span between two offsets, if they come in order. -/
def span? (t : LineTable) (a b : Nat) : Option Span :=
  Span.between? (t.positionAt a) (t.positionAt b)

/-- What line `n` says, counted from one and without its newline. -/
def line? (t : LineTable) : Nat → Option (List Char)
  | 0 => none
  | n + 1 => do
    let start ← t.starts[n]?
    let stop := match t.starts[n + 1]? with
      | some next => next - 1
      | none => byteLength t.source
    slice? start stop t.source

/-- Carets that underline a span on its first line: at least one, and none beyond that line. -/
def caretCount (span : Span) (lineWidth : Nat) : Nat :=
  max 1 <|
    if span.start.line = span.stop.line then span.stop.column - span.start.column
    else lineWidth - (span.start.column - 1)

/-- A message with the place it is about, the line there, and carets under the span. -/
def excerpt (t : LineTable) (file : String) (span : Span) (message : String) : String :=
  let place := s!"error: {message}\n  --> {file}:{span.start.text}\n"
  match t.line? span.start.line with
  | none => place
  | some line =>
    let number := toString span.start.line
    let margin := "".pushn ' ' number.length
    let lead := "".pushn ' ' (span.start.column - 1)
    let carets := "".pushn '^' (caretCount span line.length)
    s!"{place} {margin} |\n {number} | {String.ofList line}\n {margin} | {lead}{carets}\n"

end LineTable

end FormScript
