import FormScript.Token.Lexeme
import FormScript.Token.Stream
import FormScript.Token.Tally

/-!
# Scanning a text into tokens

The scanner reads one lexeme after the other and turns each into the tokens it stands for: none
for blanks and comments, one for most, several for a name with points. `a.b.c` becomes the tokens
of `(. (. a b) c)`, where the parentheses and points that nobody wrote take up no text.

An annotation is no token: it waits for the next token and rides on it. One that is still waiting
at the end becomes a token after all. A pragma is no token either; it is remembered together with
the number of tokens before it.

A scan that fails returns the error and the scan as far as it got.
-/

namespace FormScript

/-- Something worth telling that happened during a scan. -/
inductive ScanNote where
  | string (bytes longest : Nat)
  | dialect (dialect : Dialect) (tokenIndex : Nat) (position : Position)
deriving DecidableEq, Repr

/-- A scan under way. -/
structure Scan where
  cursor : Cursor := .start
  tokens : Array Token := #[]
  pending : Option (String × Span) := none
  switches : Array DialectSwitch := #[]
  tally : Tally := {}
  notes : Array ScanNote := #[]
deriving Repr, Inhabited

/-- The tokens of the words of a name behind the first, which ends at `p`: each word, closed by a
parenthesis without text. -/
def memberTokens (p : Position) : List (List Char) → List Token
  | [] => []
  | w :: ws =>
    let start := p.next '.'
    let stop := start.after w
    { kind := .identifier, text := String.ofList w, span := ⟨start, stop⟩ } ::
      { kind := .operator, text := ")", span := .point stop } :: memberTokens stop ws

/-- The opening of `n` nested members at a position. -/
def memberOpenings (p : Position) : Nat → List Token
  | 0 => []
  | n + 1 =>
    { kind := .operator, text := "(", span := .point p } ::
      { kind := .operator, text := ".", span := .point p } :: memberOpenings p n

/-- The tokens that a lexeme at a position stands for. -/
def Lexeme.tokens (l : Lexeme) (p : Position) : List Token :=
  let span : Span := ⟨p, p.after l.chars⟩
  match l with
  | number digits => [{ kind := .number, text := String.ofList digits, span }]
  | string _ body => [{ kind := .string, text := String.ofList body, span }]
  | operator spelling => [{ kind := .operator, text := String.ofList (trim spelling), span }]
  | keyword spelling => [{ kind := .keyword, text := String.ofList spelling, span }]
  | name first [] =>
    let word := String.ofList first
    [{ kind := if Category.keyword.has word then .keyword else .identifier, text := word, span }]
  | name first more =>
    let stop := p.after first
    memberOpenings p more.length ++
      { kind := .identifier, text := String.ofList first, span := ⟨p, stop⟩ } ::
        memberTokens stop more
  | _ => []

namespace Scan

/-- Adds a token, with the annotation that is waiting. -/
def push (trackOperators : Bool) (s : Scan) (t : Token) : Except (LexError × Scan) Scan :=
  if Limits.tokenCount ≤ s.tokens.size then
    .error (⟨.tooManyTokens (s.tokens.size + 1), t.span⟩, s)
  else
    let t := { t with ascription := s.pending.map Prod.fst }
    .ok { s with
      tokens := s.tokens.push t
      pending := none
      tally := s.tally.addToken trackOperators t }

/-- What a lexeme changes besides the tokens. -/
def observe (s : Scan) (l : Lexeme) : Scan :=
  match l with
  | .string _ body =>
    let tally := s.tally.addString (byteLength body)
    { s with tally, notes := s.notes.push (.string (byteLength body) tally.longestString) }
  | .lineComment text => { s with tally := s.tally.addComment (byteLength text) 0 }
  | .blockComment text depth => { s with tally := s.tally.addComment (byteLength text) depth }
  | .ascription w =>
    let p := s.cursor.position
    { s with pending := some (String.ofList w, ⟨p, p.after l.chars⟩) }
  | .pragma _ dialect =>
    { s with
      switches := s.switches.push ⟨s.tokens.size, dialect⟩
      tally := { s.tally with switches := s.tally.switches + 1 }
      notes := s.notes.push (.dialect dialect s.tokens.size s.cursor.position) }
  | _ => s

/-- Takes a lexeme in: what it changes, the text it covers, and its tokens. -/
def accept (trackOperators : Bool) (s : Scan) (l : Lexeme) : Except (LexError × Scan) Scan :=
  let tokens := l.tokens s.cursor.position
  let s := s.observe l
  tokens.foldlM (push trackOperators) { s with cursor := s.cursor.after l.chars }

/-- Takes in lexeme after lexeme until nothing is left. -/
def run (trackOperators : Bool) (s : Scan) : List Char → Except (LexError × Scan) Scan
  | [] => .ok s
  | c :: cs =>
    match _ : Lexeme.read c cs with
    | .error f => .error (f.errorAt s.cursor.position (c :: cs), s)
    | .ok (l, rest) =>
      match s.accept trackOperators l with
      | .error e => .error e
      | .ok s => run trackOperators s rest
termination_by cs => cs.length
decreasing_by exact Lexeme.read_length ‹_›

/-- Closes the token list, an annotation that is still waiting becoming its last token but one. -/
def finish (trackOperators : Bool) (s : Scan) : Except (LexError × Scan) Scan := do
  let s ← match s.pending with
    | none => pure s
    | some (w, span) =>
      push trackOperators { s with pending := none } { kind := .ascription, text := w, span }
  pure { s with
    tokens := s.tokens.push (.closing (.point s.cursor.position))
    tally := { s.tally with lines := s.cursor.lineStarts.size } }

/-- The first carriage return of a text, as an error. -/
def carriageReturn? (source : List Char) : Option LexError :=
  let before := source.takeWhile (· != '\r')
  if before.length < source.length then
    some (Fault.errorAt ⟨.carriageReturn, before.length, 1⟩ .start source)
  else none

/-- Scans a text. -/
def ofSource (source : List Char) (trackOperators : Bool := false) :
    Except (LexError × Scan) Scan :=
  match carriageReturn? source with
  | some e => .error (e, {})
  | none => (run trackOperators {} source).bind (finish trackOperators)

/-- The token stream of a finished scan of a text. -/
def stream (s : Scan) (source : List Char) : TokenStream :=
  { TokenStream.ofTokens s.tokens.toList with
    switches := s.switches.toList
    table := some (.ofStarts source s.cursor.lineStarts.toList) }

end Scan

/-- The token stream and the tally of a text, or the error that stopped the scan. -/
def tokenize (source : List Char) (trackOperators : Bool := false) :
    Except LexError (TokenStream × Tally) :=
  match Scan.ofSource source trackOperators with
  | .error (e, _) => .error e
  | .ok s => .ok (s.stream source, s.tally)

/-- The tally that is kept of a scan. A scan that failed leaves an empty one. -/
def keptTally : Except LexError (TokenStream × Tally) → Tally
  | .ok (_, tally) => tally
  | .error _ => {}

end FormScript
