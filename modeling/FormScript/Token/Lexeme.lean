import FormScript.Text.Blank
import FormScript.Text.LineTable
import FormScript.Token
import FormScript.Token.Error

/-!
# Lexemes

A text is read lexeme by lexeme. What the next lexeme is depends on the text that follows and on
nothing before it: `Lexeme.read` is a function of the characters still to come, which is why texts
can be cut apart at a line end and read separately. A lexeme keeps every character it was read
from, so what has been read and what is left always make up the text (`Lexeme.read_eq`), and it is
never empty, so reading comes to an end.

Where no lexeme can be read, a `Fault` says what is wrong and at which of the characters ahead,
counted from the place where the reading started.
-/

namespace FormScript

/-- A stretch of text with a meaning of its own. -/
inductive Lexeme where
  | newline
  | blank (c : Char)
  | number (digits : List Char)
  | string (delimiter body : List Char)
  | lineComment (text : List Char)
  | blockComment (text : List Char) (depth : Nat)
  | ascription (name : List Char)
  | operator (spelling : List Char)
  | keyword (spelling : List Char)
  | pragma (text : List Char) (dialect : Dialect)
  | name (first : List Char) (more : List (List Char))
deriving DecidableEq, Repr

/-- A cause and the characters it concerns: how many come before them, and how many they are. -/
structure Fault where
  cause : LexCause
  skip : Nat
  width : Nat
deriving DecidableEq, Repr

/-- The error that a fault is, for a text that starts at a position. -/
def Fault.errorAt (f : Fault) (p : Position) (text : List Char) : LexError :=
  let start := p.after (text.take f.skip)
  ⟨f.cause, start, start.after ((text.drop f.skip).take f.width)⟩

/-- Letters and the underscore start a word. -/
def isWordStart (c : Char) : Bool := c.isAlpha || c == '_'

/-- Letters, digits and the underscore go on with it. -/
def isWordChar (c : Char) : Bool := c.isAlphanum || c == '_'

/-- A blank or a tab. -/
def isGap (c : Char) : Bool := c == ' ' || c == '\t'

/-- The word a text begins with, and the rest. -/
def word? : List Char → Option (List Char × List Char)
  | [] => none
  | c :: cs => if isWordStart c then some (c :: cs.takeWhile isWordChar, cs.dropWhile isWordChar)
    else none

/-- What stands before the first occurrence of a mark, and what stands behind it. -/
def splitAtMark? (mark : List Char) (cs : List Char) : Option (List Char × List Char) :=
  go cs []
where
  go : List Char → List Char → Option (List Char × List Char)
    | [], _ => none
    | c :: cs, before =>
      if mark.isPrefixOf (c :: cs) then some (before.reverse, (c :: cs).drop mark.length)
      else go cs (c :: before)

namespace Lexeme

/-- The characters that a lexeme was read from. -/
def chars : Lexeme → List Char
  | newline => ['\n']
  | blank c => [c]
  | number digits => digits
  | string delimiter body => delimiter ++ body ++ delimiter
  | lineComment text => text
  | blockComment text _ => text
  | ascription w => ':' :: w
  | operator spelling => spelling
  | keyword spelling => spelling
  | pragma text _ => text
  | name first more => first ++ more.flatMap ('.' :: ·)

/-- Digits, and a fraction if the point is followed by a digit. -/
def readNumber (cs : List Char) : Lexeme × List Char :=
  let whole := cs.takeWhile Char.isDigit
  match cs.dropWhile Char.isDigit with
  | '.' :: d :: rest =>
    if d.isDigit then
      (number (whole ++ '.' :: (d :: rest).takeWhile Char.isDigit), rest.dropWhile Char.isDigit)
    else (number whole, '.' :: d :: rest)
  | rest => (number whole, rest)

/-- What a string is written between: three quotes if the text begins with three, else one. -/
def delimiterOf (quote : Char) (cs : List Char) : List Char :=
  if [quote, quote].isPrefixOf cs then [quote, quote, quote] else [quote]

/-- A string, given its first quote and what follows. It ends where its delimiter next occurs. -/
def readString (quote : Char) (cs : List Char) : Except Fault (Lexeme × List Char) :=
  let delimiter := delimiterOf quote cs
  match splitAtMark? delimiter ((quote :: cs).drop delimiter.length) with
  | none => .error ⟨.unterminatedString, 0, delimiter.length⟩
  | some (body, rest) =>
    if Limits.stringBytes < byteLength body then
      .error ⟨.stringTooLarge (byteLength body), 0, delimiter.length⟩
    else .ok (string delimiter body, rest)

/-- Whether a comment to the end of the line starts here. -/
def startsLineComment : List Char → Bool
  | '/' :: '/' :: _ => true
  | '#' :: c :: _ => isGap c
  | ';' :: _ => true
  | _ => false

/-- A comment up to the newline, which is left. -/
def readLineComment (cs : List Char) : Except Fault (Lexeme × List Char) :=
  let text := cs.takeWhile (· != '\n')
  let size := byteLength text
  if Limits.commentBytes < size then .error ⟨.commentTooLong size, 0, 1⟩
  else .ok (lineComment text, cs.dropWhile (· != '\n'))

/-- How far a block comment has been read: characters and bytes taken, where the comments still
open begin, innermost first and counted in characters, and how many were open at most. -/
structure CommentState where
  chars : Nat
  bytes : Nat
  innermost : Nat
  outer : List Nat
  deepest : Nat
deriving DecidableEq, Repr

/-- Comments open at present. -/
def CommentState.depth (s : CommentState) : Nat := s.outer.length + 1

/-- Reads on until the comment that was opened first is closed. A comment may run up to the limit;
a character that crosses it is taken to do so at its first byte too many. -/
def readBlockComment (s : CommentState) :
    List Char → Except Fault (CommentState × List Char)
  | [] => .error ⟨.unterminatedComment, s.innermost, 2⟩
  | '/' :: '*' :: cs =>
    if Limits.commentDepth ≤ s.depth then
      .error ⟨.commentNestingTooDeep (s.depth + 1), s.chars, 2⟩
    else if Limits.commentBytes < s.bytes + 2 then .error ⟨.commentTooLong (s.bytes + 2), 0, 2⟩
    else readBlockComment
      { chars := s.chars + 2, bytes := s.bytes + 2, innermost := s.chars,
        outer := s.innermost :: s.outer, deepest := max s.deepest (s.depth + 1) } cs
  | '*' :: '/' :: cs =>
    if Limits.commentBytes < s.bytes + 2 then .error ⟨.commentTooLong (s.bytes + 2), 0, 2⟩
    else match s.outer with
      | [] => .ok ({ s with chars := s.chars + 2, bytes := s.bytes + 2 }, cs)
      | next :: outer => readBlockComment
          { s with chars := s.chars + 2, bytes := s.bytes + 2, innermost := next, outer } cs
  | c :: cs =>
    if Limits.commentBytes < s.bytes + c.utf8Size then
      .error ⟨.commentTooLong (Limits.commentBytes + 1), 0, 2⟩
    else readBlockComment { s with chars := s.chars + 1, bytes := s.bytes + c.utf8Size } cs

/-- A block comment, given what follows its first delimiter. -/
def readComment (cs : List Char) : Except Fault (Lexeme × List Char) :=
  match readBlockComment ⟨2, 2, 0, [], 1⟩ cs with
  | .error f => .error f
  | .ok (s, rest) => .ok (blockComment ('/' :: '*' :: cs.take (s.chars - 2)) s.deepest, rest)

/-- A colon and the word behind it. -/
def readAscription (cs : List Char) : Except Fault (Lexeme × List Char) :=
  match word? cs with
  | some (w, rest) => .ok (ascription w, rest)
  | none => .error ⟨.invalidCharacter ':', 0, 1⟩

/-- The text of a pragma that names a dialect, given what follows its hash sign. -/
def readDialect? (cs : List Char) : Option (Lexeme × List Char) := do
  let (w, afterWord) ← word? cs
  if w ≠ "lang".toList then none
  let gap := afterWord.takeWhile isGap
  match afterWord.dropWhile isGap with
  | '=' :: afterEquals =>
    let gap' := afterEquals.takeWhile isGap
    let afterGap := afterEquals.dropWhile isGap
    let isNameChar := fun c => isWordChar c || c == '-'
    let dialectName := afterGap.takeWhile isNameChar
    let dialect ← Dialect.ofName? (String.ofList dialectName)
    some (pragma ('#' :: w ++ gap ++ '=' :: gap' ++ dialectName) dialect,
      afterGap.dropWhile isNameChar)
  | _ => none

/-- A pragma. One that names no dialect is a fault, up to the end of its line. -/
def readPragma (cs : List Char) : Except Fault (Lexeme × List Char) :=
  match readDialect? cs with
  | some r => .ok r
  | none =>
    let text := trimEnd ('#' :: cs.takeWhile (· != '\n'))
    .error ⟨.unknownPragma (String.ofList text), 0, text.length⟩

/-- The first of some words, joined by points, that is too long. -/
def longWord? : List (List Char) → Nat → Option Fault
  | [], _ => none
  | w :: ws, skip =>
    if Limits.nameBytes < w.length then some ⟨.identifierTooLong w.length, skip, w.length⟩
    else longWord? ws (skip + w.length + 1)

theorem word?_eq {cs w rest : List Char} (h : word? cs = some (w, rest)) :
    w ++ rest = cs ∧ w ≠ [] := by
  unfold word? at h
  split at h
  · simp at h
  · split at h
    · simp only [Option.some.injEq, Prod.mk.injEq] at h
      obtain ⟨rfl, rfl⟩ := h
      simp [List.takeWhile_append_dropWhile]
    · simp at h

theorem word?_length {cs w rest : List Char} (h : word? cs = some (w, rest)) :
    rest.length < cs.length := by
  obtain ⟨rfl, hw⟩ := word?_eq h
  have := List.length_pos_iff.mpr hw
  simp only [List.length_append]
  omega

/-- The words that go on with a name: each behind a point, with nothing in between. `words` are
those already read, last one first. -/
def readMore (words : List (List Char)) (cs : List Char) : List (List Char) × List Char :=
  match cs with
  | '.' :: rest =>
    match _ : word? rest with
    | some (w, rest') => readMore (w :: words) rest'
    | none => (words.reverse, '.' :: rest)
  | cs => (words.reverse, cs)
termination_by cs.length
decreasing_by
  have := word?_length ‹word? rest = some _›
  simp only [List.length_cons]
  omega

/-- A name: words joined by points. -/
def readName (cs : List Char) : Except Fault (Lexeme × List Char) :=
  let first := cs.takeWhile isWordChar
  let (more, rest) := readMore [] (cs.dropWhile isWordChar)
  match longWord? (first :: more) 0 with
  | some f => .error f
  | none => .ok (name first more, rest)

/-- The keyword a text begins with. Only the first entry of the table that fits is tried, and it
must not run on into a longer word. -/
def keyword? (cs : List Char) : Option (List Char × List Char) := do
  let w ← firstMatch? keywordSpellings cs
  let rest := cs.drop w.length
  if (rest.head?.map isWordChar).getD false then none else some (w, rest)

/-- What starts with neither an operator nor a keyword. -/
def readOther (c : Char) (cs : List Char) : Except Fault (Lexeme × List Char) :=
  if c = '#' then readPragma cs
  else if isWordStart c then readName (c :: cs)
  else if isGap c then .ok (blank c, cs)
  else .error ⟨.invalidCharacter c, 0, 1⟩

/-- What starts with an operator or a keyword, or with neither. Operators come before blanks, so
that one with blanks around it is found. -/
def readSymbol (c : Char) (cs : List Char) : Except Fault (Lexeme × List Char) :=
  match firstMatch? operatorSpellings (c :: cs) with
  | some w => .ok (operator w, (c :: cs).drop w.length)
  | none =>
    match keyword? (c :: cs) with
    | some (w, rest) => .ok (keyword w, rest)
    | none => readOther c cs

/-- The lexeme that the text `c :: cs` begins with, and the rest of the text. -/
def read (c : Char) (cs : List Char) : Except Fault (Lexeme × List Char) :=
  if c = '\n' then .ok (newline, cs)
  else if c.isDigit then .ok (readNumber (c :: cs))
  else if c = '\x27' ∨ c = '\x22' ∨ c = '\x60' then readString c cs
  else if startsLineComment (c :: cs) then readLineComment (c :: cs)
  else if ['/', '*'].isPrefixOf (c :: cs) then readComment (cs.drop 1)
  else if c = ':' then readAscription cs
  else readSymbol c cs

/-! ## Nothing is lost

Each reader returns a lexeme and a rest that make up what it was given. -/

theorem splitAtMark?_eq {mark cs body rest : List Char}
    (h : splitAtMark? mark cs = some (body, rest)) : body ++ mark ++ rest = cs := by
  suffices ∀ cs before, splitAtMark?.go mark cs before = some (body, rest) →
      body ++ mark ++ rest = before.reverse ++ cs by simpa using this cs [] h
  intro cs
  induction cs with
  | nil => simp [splitAtMark?.go]
  | cons c cs ih =>
    intro before h
    unfold splitAtMark?.go at h
    split at h
    · rename_i hm
      simp only [Option.some.injEq, Prod.mk.injEq] at h
      obtain ⟨rfl, rfl⟩ := h
      obtain ⟨t, ht⟩ := List.isPrefixOf_iff_prefix.mp hm
      simp [← ht]
    · simpa using ih _ h

theorem readNumber_eq (c : Char) (cs : List Char) (hc : c.isDigit) :
    (readNumber (c :: cs)).1.chars ++ (readNumber (c :: cs)).2 = c :: cs ∧
      (readNumber (c :: cs)).1.chars ≠ [] := by
  have hsplit := List.takeWhile_append_dropWhile (p := Char.isDigit) (l := c :: cs)
  have hne : (c :: cs).takeWhile Char.isDigit ≠ [] := by simp [hc]
  generalize hw : (c :: cs).takeWhile Char.isDigit = whole at hsplit hne
  generalize hr : (c :: cs).dropWhile Char.isDigit = tail at hsplit
  unfold readNumber
  simp only [hw, hr]
  split
  · rename_i d rest
    split
    · rename_i hd
      constructor
      · simp only [chars, List.append_assoc, List.cons_append, List.takeWhile_cons, hd, if_true,
          List.takeWhile_append_dropWhile]
        exact hsplit
      · simp [chars]
    · exact ⟨hsplit, hne⟩
  · exact ⟨hsplit, hne⟩

theorem delimiterOf_eq (quote : Char) (cs : List Char) :
    delimiterOf quote cs ++ (quote :: cs).drop (delimiterOf quote cs).length = quote :: cs ∧
      delimiterOf quote cs ≠ [] := by
  unfold delimiterOf
  split
  · rename_i hp
    obtain ⟨t, rfl⟩ := List.isPrefixOf_iff_prefix.mp hp
    simp
  · simp

theorem readString_eq {quote : Char} {cs : List Char} {l : Lexeme} {rest : List Char}
    (h : readString quote cs = .ok (l, rest)) :
    l.chars ++ rest = quote :: cs ∧ l.chars ≠ [] := by
  obtain ⟨hd, hne⟩ := delimiterOf_eq quote cs
  unfold readString at h
  dsimp only at h
  split at h
  · simp at h
  · rename_i body tail hb
    split at h
    · simp at h
    · simp only [Except.ok.injEq, Prod.mk.injEq] at h
      obtain ⟨rfl, rfl⟩ := h
      rw [← splitAtMark?_eq hb] at hd
      exact ⟨by simpa [chars] using hd, by simp [chars, hne]⟩

theorem readLineComment_eq {c : Char} {cs : List Char} {l : Lexeme} {rest : List Char}
    (hc : c ≠ '\n') (h : readLineComment (c :: cs) = .ok (l, rest)) :
    l.chars ++ rest = c :: cs ∧ l.chars ≠ [] := by
  unfold readLineComment at h
  dsimp only at h
  split at h
  · simp at h
  · simp only [Except.ok.injEq, Prod.mk.injEq] at h
    obtain ⟨rfl, rfl⟩ := h
    exact ⟨List.takeWhile_append_dropWhile, by simp [chars, hc]⟩

theorem readBlockComment_eq {s t : CommentState} {cs rest : List Char}
    (h : readBlockComment s cs = .ok (t, rest)) :
    ∃ text, text ++ rest = cs ∧ t.chars = s.chars + text.length := by
  fun_induction readBlockComment s cs with
  | case1 => simp at h
  | case2 => simp at h
  | case3 => simp at h
  | case4 s cs _ _ ih =>
    obtain ⟨text, rfl, ht⟩ := ih h
    exact ⟨'/' :: '*' :: text, rfl, by simp only [ht, List.length_cons]; omega⟩
  | case5 => simp at h
  | case6 s cs _ _ =>
    simp only [Except.ok.injEq, Prod.mk.injEq] at h
    obtain ⟨rfl, rfl⟩ := h
    exact ⟨['*', '/'], rfl, rfl⟩
  | case7 s cs _ next outer _ ih =>
    obtain ⟨text, rfl, ht⟩ := ih h
    exact ⟨'*' :: '/' :: text, rfl, by simp only [ht, List.length_cons]; omega⟩
  | case8 => simp at h
  | case9 s c cs _ _ _ ih =>
    obtain ⟨text, rfl, ht⟩ := ih h
    exact ⟨c :: text, rfl, by simp only [ht, List.length_cons]; omega⟩

theorem readComment_eq {cs : List Char} {l : Lexeme} {rest : List Char}
    (h : readComment cs = .ok (l, rest)) :
    l.chars ++ rest = '/' :: '*' :: cs ∧ l.chars ≠ [] := by
  unfold readComment at h
  split at h
  · simp at h
  · rename_i s tail hs
    simp only [Except.ok.injEq, Prod.mk.injEq] at h
    obtain ⟨rfl, rfl⟩ := h
    obtain ⟨text, rfl, ht⟩ := readBlockComment_eq hs
    have : s.chars - 2 = text.length := by simp only [ht]; omega
    simp [chars, this]

theorem readAscription_eq {cs : List Char} {l : Lexeme} {rest : List Char}
    (h : readAscription cs = .ok (l, rest)) :
    l.chars ++ rest = ':' :: cs ∧ l.chars ≠ [] := by
  unfold readAscription at h
  split at h
  · rename_i w tail hw
    simp only [Except.ok.injEq, Prod.mk.injEq] at h
    obtain ⟨rfl, rfl⟩ := h
    simp [chars, (word?_eq hw).1]
  · simp at h

theorem readDialect?_eq {cs : List Char} {l : Lexeme} {rest : List Char}
    (h : readDialect? cs = some (l, rest)) :
    l.chars ++ rest = '#' :: cs ∧ l.chars ≠ [] := by
  unfold readDialect? at h
  obtain ⟨⟨w, afterWord⟩, hw, h⟩ := Option.bind_eq_some_iff.mp h
  have hw := (word?_eq hw).1
  dsimp only at h
  split at h
  · simp at h
  · simp only [Option.bind_eq_bind] at h
    split at h
    · rename_i afterEquals he
      obtain ⟨d, _, h⟩ := Option.bind_eq_some_iff.mp h
      simp only [Option.some.injEq, Prod.mk.injEq] at h
      obtain ⟨rfl, rfl⟩ := h
      constructor
      · simp only [chars, List.append_assoc, List.cons_append, List.takeWhile_append_dropWhile]
        rw [← he, List.takeWhile_append_dropWhile, hw]
      · simp [chars]
    · simp at h

theorem readPragma_eq {cs : List Char} {l : Lexeme} {rest : List Char}
    (h : readPragma cs = .ok (l, rest)) : l.chars ++ rest = '#' :: cs ∧ l.chars ≠ [] := by
  unfold readPragma at h
  split at h
  · rename_i hd
    simp only [Except.ok.injEq] at h
    exact readDialect?_eq (h ▸ hd)
  · simp at h

theorem readMore_eq (words : List (List Char)) (cs : List Char) :
    (readMore words cs).1.flatMap ('.' :: ·) ++ (readMore words cs).2 =
      words.reverse.flatMap ('.' :: ·) ++ cs := by
  fun_induction readMore words cs with
  | case1 words rest w rest' hw ih =>
    rw [ih, ← (word?_eq hw).1]
    simp
  | case2 => rfl
  | case3 => rfl

theorem readName_eq {c : Char} {cs : List Char} {l : Lexeme} {rest : List Char}
    (hc : isWordStart c) (h : readName (c :: cs) = .ok (l, rest)) :
    l.chars ++ rest = c :: cs ∧ l.chars ≠ [] := by
  unfold readName at h
  dsimp only at h
  split at h
  · simp at h
  · simp only [Except.ok.injEq, Prod.mk.injEq] at h
    obtain ⟨rfl, rfl⟩ := h
    have hword : isWordChar c := by
      simp only [isWordStart, isWordChar, Char.isAlphanum, Bool.or_eq_true] at hc ⊢
      exact hc.imp .inl id
    constructor
    · simp only [chars, List.append_assoc, readMore_eq]
      simp only [List.reverse_nil, List.flatMap_nil, List.nil_append]
      exact List.takeWhile_append_dropWhile
    · simp [chars, hword]

theorem firstMatch?_eq {spellings : List (List Char)} {cs w : List Char}
    (h : firstMatch? spellings cs = some w) : w ++ cs.drop w.length = cs ∧ w ∈ spellings := by
  have hp := List.find?_some h
  obtain ⟨t, rfl⟩ := List.isPrefixOf_iff_prefix.mp hp
  exact ⟨by simp, List.mem_of_find?_eq_some h⟩

theorem ne_nil_of_mem_operatorSpellings : ∀ w ∈ operatorSpellings, w ≠ [] := by decide +kernel

theorem ne_nil_of_mem_keywordSpellings : ∀ w ∈ keywordSpellings, w ≠ [] := by decide +kernel

theorem keyword?_eq {cs w rest : List Char} (h : keyword? cs = some (w, rest)) :
    w ++ rest = cs ∧ w ≠ [] := by
  unfold keyword? at h
  obtain ⟨v, hv, h⟩ := Option.bind_eq_some_iff.mp h
  obtain ⟨hsplit, hmem⟩ := firstMatch?_eq hv
  dsimp only at h
  split at h
  · simp at h
  · simp only [Option.some.injEq, Prod.mk.injEq] at h
    obtain ⟨rfl, rfl⟩ := h
    exact ⟨hsplit, ne_nil_of_mem_keywordSpellings _ hmem⟩

theorem readSymbol_eq {c : Char} {cs : List Char} {l : Lexeme} {rest : List Char}
    (h : readSymbol c cs = .ok (l, rest)) : l.chars ++ rest = c :: cs ∧ l.chars ≠ [] := by
  unfold readSymbol at h
  split at h
  · rename_i w hw
    simp only [Except.ok.injEq, Prod.mk.injEq] at h
    obtain ⟨rfl, rfl⟩ := h
    obtain ⟨hsplit, hmem⟩ := firstMatch?_eq hw
    exact ⟨hsplit, ne_nil_of_mem_operatorSpellings _ hmem⟩
  · split at h
    · rename_i w tail hw
      simp only [Except.ok.injEq, Prod.mk.injEq] at h
      obtain ⟨rfl, rfl⟩ := h
      exact keyword?_eq hw
    · unfold readOther at h
      split at h
      · rename_i hc
        subst hc
        exact readPragma_eq h
      · split at h
        · rename_i hc
          exact readName_eq hc h
        · split at h
          · simp only [Except.ok.injEq, Prod.mk.injEq] at h
            obtain ⟨rfl, rfl⟩ := h
            simp [chars]
          · simp at h

/-- What has been read and what is left make up the text, and something has been read. -/
theorem read_eq {c : Char} {cs : List Char} {l : Lexeme} {rest : List Char}
    (h : read c cs = .ok (l, rest)) : l.chars ++ rest = c :: cs ∧ l.chars ≠ [] := by
  unfold read at h
  split at h
  · rename_i hc
    simp only [Except.ok.injEq, Prod.mk.injEq] at h
    obtain ⟨rfl, rfl⟩ := h
    simp [chars, hc]
  · rename_i hnl
    split at h
    · rename_i hc
      simp only [Except.ok.injEq] at h
      have := readNumber_eq c cs hc
      rwa [h] at this
    · split at h
      · exact readString_eq h
      · split at h
        · exact readLineComment_eq hnl h
        · split at h
          · rename_i hp
            obtain ⟨t, ht⟩ := List.isPrefixOf_iff_prefix.mp hp
            simp only [List.cons_append, List.nil_append, List.cons.injEq] at ht
            obtain ⟨rfl, rfl⟩ := ht
            exact readComment_eq h
          · split at h
            · rename_i hc
              subst hc
              exact readAscription_eq h
            · exact readSymbol_eq h

/-- Reading shortens the text. -/
theorem read_length {c : Char} {cs : List Char} {l : Lexeme} {rest : List Char}
    (h : read c cs = .ok (l, rest)) : rest.length < (c :: cs).length := by
  obtain ⟨heq, hne⟩ := read_eq h
  have := List.length_pos_iff.mpr hne
  rw [← heq, List.length_append]
  omega

end Lexeme

end FormScript
