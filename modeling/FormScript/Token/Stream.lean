import FormScript.Text.LineTable
import FormScript.Token

/-!
# Token streams

A stream is a place in a token list that ends in an end of input. Nothing can be read past that
end: looking ahead stops at the last token and moving on stays there, so a reader of tokens never
has to ask whether there is one. Tokens that were passed are not kept, only counted.
-/

namespace FormScript

/-- The token at hand, those behind it, and how many came before. -/
structure TokenStream where
  position : Nat := 0
  current : Token
  ahead : List Token
  switches : List DialectSwitch := []
  table : Option LineTable := none
deriving Repr, Inhabited

/-- Why an expected symbol could not be taken. -/
inductive ExpectError where
  | unexpectedToken (expected found : String) (span : Span)
  | endOfStream (expected : String) (span : Span)
deriving DecidableEq, Repr

namespace ExpectError

/-- Where it happened. -/
def span : ExpectError → Span
  | unexpectedToken _ _ s => s
  | endOfStream _ s => s

/-- What a reader is told. -/
def message : ExpectError → String
  | unexpectedToken expected found span => s!"Expected '{expected}', found {found} at {span.text}"
  | endOfStream expected _ => s!"Expected '{expected}', but reached end of input"

end ExpectError

namespace TokenStream

/-- The end of input that a token list still lacks, at the end of its last token. -/
def missingEnd (tokens : List Token) : List Token :=
  match tokens.getLast? with
  | none => [.closing .dummy]
  | some t => if t.isEof then [] else [.closing (.point t.span.stop)]

/-- The stream over a token list. An end of input is added if the list lacks one. -/
def ofTokens (tokens : List Token) : TokenStream :=
  match tokens with
  | [] => { current := .closing .dummy, ahead := [] }
  | t :: ts => { current := t, ahead := ts ++ missingEnd (t :: ts) }

/-- The tokens not yet passed. -/
def remaining (s : TokenStream) : List Token := s.current :: s.ahead

/-- Number of tokens, the passed ones and the end of input included. -/
def size (s : TokenStream) : Nat := s.position + 1 + s.ahead.length

/-- Whether the stream has the end of input only. -/
def isEmpty (s : TokenStream) : Bool := s.size == 1

/-- The token `n` places further on, or the last one. -/
def lookAhead (s : TokenStream) (n : Nat) : Token := (s.ahead.take n).getLastD s.current

/-- Moves on by one token, unless this is the last. -/
def advance (s : TokenStream) : TokenStream :=
  match s.ahead with
  | [] => s
  | t :: ts => { s with position := s.position + 1, current := t, ahead := ts }

/-- Whether the token at hand is an end of input. -/
def atEnd (s : TokenStream) : Bool := s.current.isEof

/-- The dialect in force at a token: that of the last switch up to it. -/
def dialectAt (s : TokenStream) (index : Nat) : Dialect :=
  match (s.switches.takeWhile (·.tokenIndex ≤ index)).getLast? with
  | some switch => switch.dialect
  | none => .plain

/-- The dialect in force at the token at hand. -/
def dialect (s : TokenStream) : Dialect := s.dialectAt s.position

/-- Takes the keyword or operator of that spelling. -/
def expect (s : TokenStream) (spelling : String) : Except ExpectError (Token × TokenStream) :=
  if s.current.isSymbol spelling then .ok (s.current, s.advance)
  else if s.current.isEof then .error (.endOfStream spelling s.current.span)
  else .error (.unexpectedToken spelling s.current.describe s.current.span)

/-- A message with an excerpt of the source if there is one, else with the place only. -/
def excerpt (s : TokenStream) (file : String) (span : Span) (message : String) : String :=
  match s.table with
  | some t => t.excerpt file span message
  | none => s!"error: {message} at {file}:{span.start.text}"

end TokenStream

end FormScript
