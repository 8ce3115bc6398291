/-!
# Positions and spans

A position is a byte offset together with the line and column a reader would count: lines and
columns start at one, and a column counts characters while an offset counts bytes. The three
numbers are kept in step by `Position.next`, one character at a time, so a position reached by
reading a text never has to be looked up again. `Cursor` adds the offsets at which lines begin,
which is what a later look-up by offset needs.

Lines and columns are counted without bound. Where they are kept in 32 bits (`StoredPosition`), what
is kept is the number modulo `2 ^ 32`, which is the number itself in all but enormous texts.

Spans are half open. A span whose end lies before its start can be written down, because callers
may supply one, but `Span.between?` never makes one.
-/

namespace FormScript

/-- A place in a text: bytes before it, and the line and column of what follows. -/
structure Position where
  offset : Nat
  line : Nat
  column : Nat
deriving DecidableEq, Repr, Inhabited

namespace Position

/-- The place before the first character. -/
def start : Position := ⟨0, 1, 1⟩

/-- The place after one more character. -/
def next (p : Position) (c : Char) : Position :=
  if c = '\n' then ⟨p.offset + c.utf8Size, p.line + 1, 1⟩
  else ⟨p.offset + c.utf8Size, p.line, p.column + 1⟩

/-- The place after some more characters. -/
def after (p : Position) (cs : List Char) : Position := cs.foldl next p

/-- Line and column, as they are shown to a reader. -/
def text (p : Position) : String := s!"{p.line}:{p.column}"

@[simp] theorem after_nil (p : Position) : p.after [] = p := rfl

@[simp] theorem after_cons (p : Position) (c : Char) (cs : List Char) :
    p.after (c :: cs) = (p.next c).after cs := rfl

theorem after_append (p : Position) (cs ds : List Char) :
    p.after (cs ++ ds) = (p.after cs).after ds := List.foldl_append

@[simp] theorem offset_next (p : Position) (c : Char) :
    (p.next c).offset = p.offset + c.utf8Size := by
  unfold next; split <;> rfl

end Position

/-- A place as it is kept: an offset, and a line and a column in 32 bits. -/
structure StoredPosition where
  offset : Nat
  line : UInt32
  column : UInt32
deriving DecidableEq, Repr, Inhabited

namespace Position

/-- What is kept of a place. Numbers that do not fit start over from zero. -/
def stored (p : Position) : StoredPosition := ⟨p.offset, .ofNat p.line, .ofNat p.column⟩

theorem stored_line (p : Position) : p.stored.line.toNat = p.line % UInt32.size :=
  UInt32.toNat_ofNat'

theorem stored_column (p : Position) : p.stored.column.toNat = p.column % UInt32.size :=
  UInt32.toNat_ofNat'

end Position

/-- The text between two places, the second one excluded. -/
structure Span where
  start : Position
  stop : Position
deriving DecidableEq, Repr, Inhabited

namespace Span

/-- The span of a value that no text stands for. -/
def dummy : Span := ⟨.start, .start⟩

/-- The empty span at a place. -/
def point (p : Position) : Span := ⟨p, p⟩

/-- The span from one place to another, if the second does not lie before the first. -/
def between? (a b : Position) : Option Span :=
  if a.offset ≤ b.offset then some ⟨a, b⟩ else none

/-- The smallest span that covers both. At equal offsets the first one's places are kept. -/
def merge (s t : Span) : Span where
  start := if s.start.offset ≤ t.start.offset then s.start else t.start
  stop := if t.stop.offset ≤ s.stop.offset then s.stop else t.stop

/-- Bytes covered; there is no such number if the end lies before the start. -/
def length? (s : Span) : Option Nat :=
  if s.start.offset ≤ s.stop.offset then some (s.stop.offset - s.start.offset) else none

/-- Whether nothing lies between the two places. -/
def isEmpty (s : Span) : Bool := s.start.offset == s.stop.offset

/-- `line:column-column`, or both places in full if the span crosses a line. -/
def text (s : Span) : String :=
  if s.start.line = s.stop.line then s!"{s.start.line}:{s.start.column}-{s.stop.column}"
  else s!"{s.start.text}-{s.stop.text}"

end Span

/-- A reader's place and the offsets of the line starts met so far. -/
structure Cursor where
  position : Position
  lineStarts : Array Nat
deriving DecidableEq, Repr, Inhabited

namespace Cursor

/-- Nothing read; the first line starts at offset zero. -/
def start : Cursor := ⟨.start, #[0]⟩

/-- One character read. A line starts behind every newline. -/
def next (k : Cursor) (c : Char) : Cursor :=
  let p := k.position.next c
  ⟨p, if c = '\n' then k.lineStarts.push p.offset else k.lineStarts⟩

/-- Some more characters read. -/
def after (k : Cursor) (cs : List Char) : Cursor := cs.foldl next k

@[simp] theorem after_nil (k : Cursor) : k.after [] = k := rfl

@[simp] theorem after_cons (k : Cursor) (c : Char) (cs : List Char) :
    k.after (c :: cs) = (k.next c).after cs := rfl

theorem after_append (k : Cursor) (cs ds : List Char) :
    k.after (cs ++ ds) = (k.after cs).after ds := List.foldl_append

@[simp] theorem position_after (k : Cursor) (cs : List Char) :
    (k.after cs).position = k.position.after cs := by
  induction cs generalizing k with
  | nil => rfl
  | cons c cs ih => rw [after_cons, ih]; rfl

end Cursor

end FormScript
