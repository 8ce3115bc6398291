import FormScript.Proofs.Utf8
import FormScript.Token.Scan

/-!
# Scanning by offsets

`Scan.ofSource` takes a text apart character by character, so it cannot look at a place that is not
there. A scanner that holds a text as bytes and a place as an offset can: an offset may lie behind
the end or inside a character, one offset may be taken from a smaller one, a span may be asked for
with its ends the wrong way round, and a loop that stays where it is does not end.

This module is that scanner. Wherever it looks at the text, subtracts or makes a span, what can go
wrong is an outcome of its own, `Checked.crash`, and its main loop counts its rounds and watches
for a round that does not move. Spans are found by looking the offsets up among the line starts met
so far, and every loop over bytes is one over bytes, not over characters. That none of this ever
goes wrong, and that the result is that of `tokenize`, is proved in `FormScript.Proofs.Progress`.
-/

namespace FormScript

/-- What comes of a computation on offsets: a result, a fault of the text, or a mishap. -/
inductive Checked (α : Type) where
  | crash
  | error (e : LexError)
  | ok (a : α)

namespace Checked

variable {α β : Type}

/-- Goes on with a result. -/
def bind : Checked α → (α → Checked β) → Checked β
  | crash, _ => crash
  | error e, _ => error e
  | ok a, f => f a

instance : Monad Checked where
  pure := ok
  bind := bind

/-- A result that must be there. -/
def of : Option α → Checked α
  | none => crash
  | some a => ok a

@[simp] theorem ok_bind (a : α) (f : α → Checked β) : (ok a >>= f) = f a := rfl

end Checked

namespace Bytewise

/-- A scan by offsets. The annotation that waits is kept with the offsets around it. -/
structure State where
  offset : Nat := 0
  lineStarts : Array Nat := #[0]
  tokens : Array Token := #[]
  pending : Option (String × Nat × Nat) := none
  switches : Array DialectSwitch := #[]
  tally : Tally := {}
  notes : Array ScanNote := #[]

/-! ## Offsets -/

/-- One number less another, which must not be the larger. -/
def minus (a b : Nat) : Checked Nat := if b ≤ a then .ok (a - b) else .crash

section Looking

variable (source : List Char)

/-- The bytes from an offset on, which must not lie behind the end. -/
def bytesFrom (offset : Nat) : Checked (List UInt8) :=
  if offset ≤ byteLength source then .ok ((utf8 source).drop offset) else .crash

/-- The text from an offset on, which must lie between two characters. -/
def textFrom (offset : Nat) : Checked (List Char) := .of ((cut? offset source).map Prod.snd)

/-- The text between two offsets, which must come in order and lie between characters. -/
def textBetween (a b : Nat) : Checked (List Char) := .of (slice? a b source)

/-- Whether there is a byte at an offset that passes a test. -/
def holdsAt (q : Char → Bool) (offset : Nat) : Bool := (utf8 source)[offset]?.any (onByte q)

/-- Where the bytes that pass a test end, from an offset on. -/
def whileAt (q : Char → Bool) (offset : Nat) : Nat :=
  offset + (((utf8 source).drop offset).takeWhile (onByte q)).length

/-- Whether a word is written at an offset. -/
def startsWithAt (w : List Char) (offset : Nat) : Bool :=
  (utf8 w).isPrefixOf ((utf8 source).drop offset)

/-- The first of some words that is written at an offset. -/
def matchAt (words : List (List Char)) (offset : Nat) : Option (List Char) :=
  words.find? (startsWithAt source · offset)

/-- Where the word that begins at an offset ends. -/
def wordEnd (offset : Nat) : Nat :=
  if holdsAt source isWordStart offset then whileAt source isWordChar (offset + 1) else offset

/-- Where the number that begins at an offset ends. A point belongs to it if a digit follows. -/
def numberEnd (offset : Nat) : Nat :=
  let whole := whileAt source Char.isDigit offset
  if holdsAt source (· == '.') whole && holdsAt source Char.isDigit (whole + 1) then
    whileAt source Char.isDigit (whole + 1)
  else whole

/-- The place of an offset, looked up among the line starts met so far. The line must not begin
behind the offset. -/
def place (starts : Array Nat) (offset : Nat) : Checked Position := do
  let table : LineTable := ⟨source, starts.toList⟩
  let offset := min offset (byteLength source)
  let _ ← minus offset (table.starts.getD (table.lineIndex offset) 0)
  .ok (table.positionAt offset)

/-- The span between two offsets, whose places must come in order. -/
def spanAt (starts : Array Nat) (a b : Nat) : Checked Span := do
  let start ← place source starts a
  let stop ← place source starts b
  .of (Span.between? start stop)

end Looking

/-- The offsets behind the newlines of a text that begins at an offset. -/
def lineStartsIn (offset : Nat) : List Char → List Nat
  | [] => []
  | c :: cs =>
    let behind := offset + c.utf8Size
    if c = '\n' then behind :: lineStartsIn behind cs else lineStartsIn behind cs

/-- Notes that a line starts at an offset, if it lies behind the last one. -/
def State.recordLineStart (m : State) (offset : Nat) : State :=
  if m.lineStarts.back?.any (· < offset) then { m with lineStarts := m.lineStarts.push offset }
  else m

/-! ## Reading -/

section Reading

variable (source : List Char) (track : Bool)

/-- Adds a token that covers the text between two offsets. -/
def pushToken (kind : TokenKind) (text : String) (a b : Nat) (m : State) : Checked State := do
  let span ← spanAt source m.lineStarts a b
  if Limits.tokenCount ≤ m.tokens.size then
    .error ⟨.tooManyTokens (m.tokens.size + 1), span⟩
  else
    let t : Token := { kind, text, span, ascription := m.pending.map Prod.fst }
    .ok { m with
      tokens := m.tokens.push t
      pending := none
      tally := m.tally.addToken track t }

/-- Digits, and a point if digits follow it. -/
def number (m : State) : Checked State := do
  let stop := numberEnd source m.offset
  let text ← textBetween source m.offset stop
  pushToken source track .number (String.ofList text) m.offset stop { m with offset := stop }

/-- What a string is written between: three quotes if the bytes begin with three, else one. -/
def delimiterOf (quote : Char) (bytes : List UInt8) : List UInt8 :=
  let triple := utf8 [quote, quote, quote]
  if triple.isPrefixOf bytes then triple else triple.take 1

/-- A string, up to where the bytes of its delimiter occur next. -/
def string (quote : Char) (m : State) : Checked State := do
  let here ← bytesFrom source m.offset
  let delimiter := delimiterOf quote here
  let bodyStart := m.offset + delimiter.length
  let ahead ← bytesFrom source bodyStart
  match findBytes delimiter ahead with
  | none =>
    let span ← spanAt source m.lineStarts m.offset bodyStart
    .error ⟨.unterminatedString, span⟩
  | some relative =>
    let bodyStop := bodyStart + relative
    let stop := bodyStop + delimiter.length
    let size ← minus bodyStop bodyStart
    if Limits.stringBytes < size then
      let span ← spanAt source m.lineStarts m.offset bodyStart
      .error ⟨.stringTooLarge size, span⟩
    else
      let body ← textBetween source bodyStart bodyStop
      let m' := (lineStartsIn bodyStart body).foldl State.recordLineStart m
      let tally := m.tally.addString size
      pushToken source track .string (String.ofList body) m.offset stop { m' with
        offset := stop
        tally
        notes := m.notes.push (.string size tally.longestString) }

/-- Whether a comment to the end of the line starts at an offset. -/
def atLineComment (offset : Nat) : Bool :=
  if holdsAt source (· == '/') offset then holdsAt source (· == '/') (offset + 1)
  else if holdsAt source (· == '#') offset then holdsAt source isGap (offset + 1)
  else holdsAt source (· == ';') offset

/-- A comment to the end of the line. -/
def lineComment (m : State) : Checked State := do
  let text ← textFrom source m.offset
  let stop :=
    if '\n' ∈ text then m.offset + byteLength (text.takeWhile (· != '\n')) else byteLength source
  let length ← minus stop m.offset
  if Limits.commentBytes < length then
    let span ← spanAt source m.lineStarts m.offset (m.offset + 1)
    .error ⟨.commentTooLong length, span⟩
  else .ok { m with offset := stop, tally := m.tally.addComment length 0 }

/-- The check on how far a comment has come, made after every round. -/
def withinLimit (start : Nat) (m : State) (next : Nat → Checked State) : Checked State := do
  let length ← minus m.offset start
  if Limits.commentBytes < length then
    let span ← spanAt source m.lineStarts start (start + 2)
    .error ⟨.commentTooLong length, span⟩
  else next length

/-- The rounds of a block comment that began at `start`, with the offsets at which the comments
still open began, innermost first. A round goes one delimiter or one byte ahead. -/
def blockComment (start : Nat) : (fuel : Nat) → (innermost : Nat) → (outer : List Nat) →
    (deepest : Nat) → (m : State) → Checked State
  | 0, _, _, _, _ => .crash
  | fuel + 1, innermost, outer, deepest, m => do
    let rest ← bytesFrom source m.offset
    if rest.isEmpty then
      let span ← spanAt source m.lineStarts innermost (innermost + 2)
      .error ⟨.unterminatedComment, span⟩
    else if (utf8 ['/', '*']).isPrefixOf rest then
      if Limits.commentDepth ≤ outer.length + 1 then
        let span ← spanAt source m.lineStarts m.offset (m.offset + 2)
        .error ⟨.commentNestingTooDeep (outer.length + 2), span⟩
      else
        let m' := { m with offset := m.offset + 2 }
        withinLimit source start m' fun _ =>
          blockComment start fuel m.offset (innermost :: outer) (max deepest (outer.length + 2)) m'
    else if (utf8 ['*', '/']).isPrefixOf rest then
      let m' := { m with offset := m.offset + 2 }
      withinLimit source start m' fun length =>
        match outer with
        | [] => .ok { m' with tally := m.tally.addComment length deepest }
        | next :: outer => blockComment start fuel next outer deepest m'
    else
      let m' := { m with offset := m.offset + 1 }
      let m' := if rest.head?.any (onByte (· == '\n')) then m'.recordLineStart m'.offset else m'
      withinLimit source start m' fun _ => blockComment start fuel innermost outer deepest m'

/-- A colon and the word behind it. -/
def ascription (m : State) : Checked State := do
  let stop := wordEnd source (m.offset + 1)
  if stop = m.offset + 1 then
    let span ← spanAt source m.lineStarts m.offset (m.offset + 1)
    .error ⟨.invalidCharacter ':', span⟩
  else
    let name ← textBetween source (m.offset + 1) stop
    .ok { m with offset := stop, pending := some (String.ofList name, m.offset, stop) }

/-- The dialect that a pragma at an offset names, and where its name ends. -/
def dialectAt? (offset : Nat) : Checked (Option (Dialect × Nat)) := do
  let wordStop := wordEnd source (offset + 1)
  let word ← textBetween source (offset + 1) wordStop
  let equals := whileAt source isGap wordStop
  if word = "lang".toList ∧ holdsAt source (· == '=') equals = true then
    let nameStart := whileAt source isGap (equals + 1)
    let nameStop := whileAt source (fun c => isWordChar c || c == '-') nameStart
    let name ← textBetween source nameStart nameStop
    .ok ((Dialect.ofName? (String.ofList name)).map (·, nameStop))
  else .ok none

/-- A pragma. -/
def pragma (m : State) : Checked State := do
  match ← dialectAt? source m.offset with
  | some (dialect, stop) =>
    let span ← spanAt source m.lineStarts m.offset stop
    .ok { m with
      offset := stop
      switches := m.switches.push ⟨m.tokens.size, dialect⟩
      tally := { m.tally with switches := m.tally.switches + 1 }
      notes := m.notes.push (.dialect dialect m.tokens.size span.start) }
  | none =>
    let text ← textFrom source m.offset
    let stop := m.offset + byteLength (trimEnd (text.takeWhile (· != '\n')))
    let line ← textBetween source m.offset stop
    let span ← spanAt source m.lineStarts m.offset stop
    .error ⟨.unknownPragma (String.ofList line), span⟩

/-- The words of a name behind one that ends at an offset, each as the offsets around it. -/
def wordsFrom : (fuel : Nat) → (stop : Nat) → Checked (List (Nat × Nat))
  | 0, _ => .crash
  | fuel + 1, stop => do
    let next := wordEnd source (stop + 1)
    if holdsAt source (· == '.') stop = true ∧ next ≠ stop + 1 then
      let more ← wordsFrom fuel next
      .ok ((stop + 1, next) :: more)
    else .ok []

/-- Each of some words must not be too long. -/
def checkWords (starts : Array Nat) : List (Nat × Nat) → Checked Unit
  | [] => .ok ()
  | (a, b) :: words => do
    let length ← minus b a
    if Limits.nameBytes < length then
      let span ← spanAt source starts a b
      .error ⟨.identifierTooLong length, span⟩
    else checkWords starts words

/-- The opening of `n` nested members at an offset. -/
def pushOpenings (offset : Nat) : Nat → State → Checked State
  | 0, m => .ok m
  | n + 1, m => do
    let m ← pushToken source track .operator "(" offset offset m
    let m ← pushToken source track .operator "." offset offset m
    pushOpenings offset n m

/-- The words of a name behind the first, each closed by a parenthesis. -/
def pushMembers : List (Nat × Nat) → State → Checked State
  | [], m => .ok m
  | (a, b) :: words, m => do
    let w ← textBetween source a b
    let m ← pushToken source track .identifier (String.ofList w) a b m
    let m ← pushToken source track .operator ")" b b m
    pushMembers words m

/-- A name: one word, or several joined by points. -/
def name (m : State) : Checked State := do
  let start := m.offset
  let stop := wordEnd source start
  let more ← wordsFrom source (byteLength source + 1) stop
  checkWords source m.lineStarts ((start, stop) :: more)
  let m := { m with offset := ((start, stop) :: more).getLast?.elim start Prod.snd }
  let first ← textBetween source start stop
  let word := String.ofList first
  match more with
  | [] =>
    let kind : TokenKind := if Category.keyword.has word then .keyword else .identifier
    pushToken source track kind word start stop m
  | more =>
    let m ← pushOpenings source track start more.length m
    let m ← pushToken source track .identifier word start stop m
    pushMembers source track more m

/-- What starts with neither an operator nor a keyword. -/
def other (c : Char) (m : State) : Checked State :=
  if c = '#' then pragma source m
  else if isWordStart c then name source track m
  else if isGap c then .ok { m with offset := m.offset + 1 }
  else do
    let span ← spanAt source m.lineStarts m.offset (m.offset + c.utf8Size)
    .error ⟨.invalidCharacter c, span⟩

/-- What starts with an operator or a keyword, or with neither. -/
def symbol (c : Char) (m : State) : Checked State :=
  match matchAt source operatorSpellings m.offset with
  | some w =>
    let stop := m.offset + byteLength w
    pushToken source track .operator (String.ofList (trim w)) m.offset stop
      { m with offset := stop }
  | none =>
    match matchAt source keywordSpellings m.offset with
    | some w =>
      let stop := m.offset + byteLength w
      if holdsAt source isWordChar stop then other source track c m
      else
        pushToken source track .keyword (String.ofList w) m.offset stop { m with offset := stop }
    | none => other source track c m

/-- One round: what begins at the offset is read, and the offset moves behind it. -/
def next (m : State) : Checked State := do
  match ← textFrom source m.offset with
  | [] => .ok m
  | c :: _ =>
    if c = '\n' then .ok ({ m with offset := m.offset + 1 }.recordLineStart (m.offset + 1))
    else if c.isDigit then number source track m
    else if c = '\x27' ∨ c = '\x22' ∨ c = '\x60' then string source track c m
    else if atLineComment source m.offset then lineComment source m
    else if startsWithAt source ['/', '*'] m.offset then
      blockComment source m.offset (byteLength source) m.offset [] 1
        { m with offset := m.offset + 2 }
    else if c = ':' then ascription source m
    else symbol source track c m

/-- Closes the token list. -/
def finish (m : State) : Checked State := do
  let m ← match m.pending with
    | none => .ok m
    | some (w, a, b) => pushToken source track .ascription w a b { m with pending := none }
  let span ← spanAt source m.lineStarts (byteLength source) (byteLength source)
  .ok { m with
    tokens := m.tokens.push (.closing span)
    tally := { m.tally with lines := m.lineStarts.size } }

/-- Refuses a text with a carriage return in it. -/
def checkLineEnds : Checked Unit :=
  if '\r' ∈ source then do
    let index := byteLength (source.takeWhile (· != '\r'))
    let before ← textBetween source 0 index
    let span ← spanAt source (0 :: lineStartsIn 0 before).toArray index (index + 1)
    .error ⟨.carriageReturn, span⟩
  else .ok ()

end Reading

/-- How a scan by offsets ends. -/
inductive Outcome where
  /-- A look, a subtraction or a span went wrong. -/
  | crashed
  /-- A round did not move. -/
  | stuck (offset : Nat)
  /-- The rounds allowed were not enough. -/
  | unfinished
  | done (result : Except LexError (TokenStream × Tally))
deriving Repr

/-- What is left of a computation at the end. -/
def outcome {α : Type} (r : Checked α) (next : α → Outcome) : Outcome :=
  match r with
  | .crash => .crashed
  | .error e => .done (.error e)
  | .ok a => next a

/-- The token stream and the tally of a finished scan. -/
def State.result (m : State) (source : List Char) : TokenStream × Tally :=
  ({ TokenStream.ofTokens m.tokens.toList with
      switches := m.switches.toList
      table := some (.ofStarts source m.lineStarts.toList) }, m.tally)

/-- Round after round until the end of the text is reached. `last` is where the last round began. -/
def rounds (source : List Char) (track : Bool) :
    (fuel : Nat) → (last : Option Nat) → State → Outcome
  | 0, _, _ => .unfinished
  | fuel + 1, last, m =>
    if m.offset < byteLength source then
      if last = some m.offset then .stuck m.offset
      else outcome (next source track m) (rounds source track fuel (some m.offset))
    else outcome (finish source track m) fun m => .done (.ok (m.result source))

/-- Scans a text in at most so many rounds, the last of which closes the token list. -/
def tokenize (source : List Char) (track : Bool) (fuel : Nat) : Outcome :=
  outcome (checkLineEnds source) fun _ => rounds source track fuel none {}

/-! ## What is found between characters

An offset that lies behind some characters of the text is always in order, and what is found there
is what the characters from there on say. -/

theorem minus_of_le {a b : Nat} (h : b ≤ a) : minus a b = .ok (a - b) := if_pos h

theorem minus_byteLength (past cs : List Char) :
    minus (byteLength (past ++ cs)) (byteLength past) = .ok (byteLength cs) := by
  rw [minus_of_le (by rw [byteLength_append]; omega), byteLength_append, Nat.add_sub_cancel_left]

section

variable {source past rest : List Char} (h : past ++ rest = source)
include h

theorem bytesFrom_eq : bytesFrom source (byteLength past) = .ok (utf8 rest) := by
  rw [bytesFrom, ← h, if_pos (by rw [byteLength_append]; omega), drop_utf8]

theorem textFrom_eq : textFrom source (byteLength past) = .ok rest := by
  rw [textFrom, ← h, cut?_append]
  rfl

theorem holdsAt_eq {q : Char → Bool} (hq : Ascii q) :
    holdsAt source q (byteLength past) = rest.head?.any q := by
  rw [holdsAt, ← h, ← Nat.add_zero (byteLength past), ← List.getElem?_drop, drop_utf8,
    ← List.head?_eq_getElem?, head?_utf8 hq]

theorem whileAt_eq {q : Char → Bool} (hq : Ascii q) :
    whileAt source q (byteLength past) = byteLength (past ++ rest.takeWhile q) := by
  rw [whileAt, ← h, drop_utf8, takeWhile_utf8 hq, length_utf8, byteLength_append]

theorem startsWithAt_eq {w : List Char} (hw : ∀ c ∈ w, isAscii c = true) :
    startsWithAt source w (byteLength past) = w.isPrefixOf rest := by
  rw [startsWithAt, ← h, drop_utf8, isPrefixOf_utf8 hw]

theorem matchAt_eq {words : List (List Char)} (hw : ∀ w ∈ words, ∀ c ∈ w, isAscii c = true) :
    matchAt source words (byteLength past) = firstMatch? words rest := by
  induction words with
  | nil => rfl
  | cons w words ih =>
    have ih := ih fun v hv => hw v (List.mem_cons_of_mem _ hv)
    rw [matchAt, firstMatch?] at ih ⊢
    rw [List.find?_cons, List.find?_cons, startsWithAt_eq h (hw w List.mem_cons_self), ih]

end

theorem textBetween_eq {source past mid rest : List Char} (h : past ++ mid ++ rest = source) :
    textBetween source (byteLength past) (byteLength (past ++ mid)) = .ok mid := by
  rw [textBetween, ← h, slice?_append]
  rfl

/-- Line starts that are enough to look up the place behind `past`: those of a text that begins
with it. -/
def Known (starts : Array Nat) (past : List Char) : Prop :=
  ∃ more, starts = (Cursor.start.after (past ++ more)).lineStarts

theorem known_of_append (past more : List Char) :
    Known (Cursor.start.after (past ++ more)).lineStarts past := ⟨more, rfl⟩

theorem known_self (past : List Char) : Known (Cursor.start.after past).lineStarts past :=
  ⟨[], by rw [List.append_nil]⟩

/-- On the line that was read last, the place need not have been read. -/
theorem known_of_no_newline (past : List Char) {ahead : List Char} (h : '\n' ∉ ahead) :
    Known (Cursor.start.after past).lineStarts (past ++ ahead) := by
  refine ⟨[], ?_⟩
  rw [List.append_nil, Cursor.after_append, Cursor.lineStarts_of_no_newline _ h]

theorem place_eq {source past rest : List Char} {starts : Array Nat} (h : past ++ rest = source)
    (hknown : Known starts past) :
    place source starts (byteLength past) = .ok (Position.start.after past) := by
  obtain ⟨more, rfl⟩ := hknown
  let table : LineTable := ⟨source, (Cursor.start.after (past ++ more)).lineStarts.toList⟩
  have hle : byteLength past ≤ byteLength source := by rw [← h, byteLength_append]; omega
  have htracks := Cursor.tracks_after past
  -- Lines that start further on make no difference to the look-up.
  have hstarts : table.starts.takeWhile (· ≤ byteLength past)
      = (Cursor.start.after past).lineStarts.toList := LineTable.takeWhile_starts past more
  have hne : table.starts.takeWhile (· ≤ byteLength past) ≠ [] := by
    intro hnil
    have hfirst := htracks.first
    rw [← hstarts, hnil] at hfirst
    cases hfirst
  have hbefore : table.starts.getD (table.lineIndex (byteLength past)) 0 ≤ byteLength past := by
    refine htracks.reached _ (List.mem_of_getLast? ?_)
    rw [← hstarts, ← LineTable.getD_lineIndex hne]
  have hposition : table.positionAt (byteLength past) = Position.start.after past := by
    rw [← LineTable.positionAt_byteLength past rest]
    exact LineTable.positionAt_congr h.symm hle
      (hstarts.trans (LineTable.takeWhile_starts past rest).symm) hne
  rw [place, Nat.min_eq_left hle, minus_of_le hbefore, Checked.ok_bind, hposition]

/-- Spans between places of the text come out as they are counted along it. -/
theorem spanAt_eq {source past mid rest : List Char} {starts : Array Nat}
    (h : past ++ mid ++ rest = source) (hstart : Known starts past)
    (hstop : Known starts (past ++ mid)) :
    spanAt source starts (byteLength past) (byteLength (past ++ mid))
      = .ok ⟨Position.start.after past, (Position.start.after past).after mid⟩ := by
  have hle : (Position.start.after past).offset ≤ (Position.start.after (past ++ mid)).offset := by
    rw [Position.offset_after, Position.offset_after, byteLength_append]
    omega
  rw [spanAt, place_eq (by rw [← List.append_assoc, h]) hstart, Checked.ok_bind, place_eq h hstop,
    Checked.ok_bind, Span.between?, if_pos hle, ← Position.after_append]
  rfl

theorem spanAt_point {source past rest : List Char} {starts : Array Nat} (h : past ++ rest = source)
    (hknown : Known starts past) :
    spanAt source starts (byteLength past) (byteLength past)
      = .ok (.point (Position.start.after past)) := by
  have hspan := spanAt_eq (show past ++ [] ++ rest = source by rw [List.append_nil, h]) hknown
    (by rwa [List.append_nil])
  rwa [List.append_nil] at hspan

end Bytewise

end FormScript
