import FormScript.Text.Position
import FormScript.Text.Quoted
import FormScript.Vocabulary

/-!
# Tokens

A token is a class, the text that matters of it, the type annotation written in front of it, and
the span it came from. The text of a string is what stands between its quotes; operators that the
table spells with blanks lose them; everything else is the text as written.
-/

namespace FormScript

/-- The classes of tokens. An annotation is a token of its own only at the end of the input. -/
inductive TokenKind where
  | identifier
  | keyword
  | operator
  | string
  | number
  | ascription
  | eof
deriving DecidableEq, Repr, Inhabited

namespace TokenKind

/-- The name of a class in messages. -/
def text : TokenKind → String
  | identifier => "identifier"
  | keyword => "keyword"
  | operator => "operator"
  | string => "string-literal"
  | number => "number-literal"
  | ascription => "type-annotation"
  | eof => "end-of-stream"

/-- Keywords and operators are spelled in a table. -/
def isSymbol : TokenKind → Bool
  | keyword | operator => true
  | _ => false

end TokenKind

/-- A token with the place it came from. -/
structure Token where
  kind : TokenKind
  text : String
  ascription : Option String := none
  span : Span := .dummy
deriving DecidableEq, Repr, Inhabited

namespace Token

/-- The token that closes every stream. -/
def closing (span : Span) : Token := { kind := .eof, text := "", span }

/-- Whether this is an end of input. -/
def isEof (t : Token) : Bool := t.kind == .eof

/-- Whether this is the keyword or operator of that spelling. -/
def isSymbol (t : Token) (spelling : String) : Bool := t.kind.isSymbol && t.text == spelling

/-- Whether this opens a form. -/
def isOpen (t : Token) : Bool := t.isSymbol "("

/-- Whether this closes a form. -/
def isClose (t : Token) : Bool := t.isSymbol ")"

/-- How a word relates to the tables; other tokens do not. -/
def wordClass? (t : Token) : Option WordClass :=
  match t.kind with
  | .identifier | .keyword => some (classify t.text)
  | _ => none

/-- What a message calls the token. -/
def describe (t : Token) : String :=
  match t.kind with
  | .eof => "end of input"
  | .string => s!"string '{t.text}'"
  | .ascription => s!"type annotation ':{t.text}'"
  | _ => s!"{t.kind.text} '{t.text}'"

/-- The token on a page of its own: its text, and its annotation behind it. -/
def display (t : Token) : String :=
  let bare := match t.kind with
    | .eof => "<EOF>"
    | .string => quoted t.text
    | .ascription => s!":{t.text}"
    | _ => t.text
  match t.ascription with
  | some a => s!"{bare} :{a}"
  | none => bare

end Token

/-- Which forms may stand at the top level: only parenthesized ones, or any. -/
inductive Dialect where
  | plain
  | sexpr
deriving DecidableEq, Repr, Inhabited

namespace Dialect

/-- The dialect that a pragma asks for by this name. -/
def ofName? : String → Option Dialect
  | "nih-sexpr" => some sexpr
  | "nih-c" | "nih" => some plain
  | _ => none

/-- The name of a dialect. -/
def text : Dialect → String
  | plain => "nih-c"
  | sexpr => "nih-sexpr"

end Dialect

/-- The dialect in force from a token on, counted from zero. -/
structure DialectSwitch where
  tokenIndex : Nat
  dialect : Dialect
deriving DecidableEq, Repr, Inhabited

end FormScript
