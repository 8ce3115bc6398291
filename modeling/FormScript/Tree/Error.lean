import FormScript.Code
import FormScript.Limits
import FormScript.Text.Position
import FormScript.Tree.Recipe

/-!
# Why tokens do not make up a tree

A cause says what is wrong, an error adds where. The first cause ends the parse.
-/

namespace FormScript

/-- What is wrong with the tokens. -/
inductive SyntaxCause where
  | unexpectedToken (expected found : String)
  | unexpectedEnd (expected : String)
  | missingClose (head : String) (opened : Position)
  | unknownHead (head : String)
  | emptyList
  | unsupportedDialect (found : String)
  | tooManyChildren (count : Nat)
  | invalidNumber (text : String)
  | nestingTooDeep
deriving DecidableEq, Repr

namespace SyntaxCause

/-- What a reader is told. -/
def message : SyntaxCause → String
  | unexpectedToken expected found => s!"Unexpected token: expected {expected}, found {found}"
  | unexpectedEnd expected => s!"Unexpected end of input: expected {expected}"
  | missingClose head opened =>
    s!"Missing ')' to close '({head}' opened at {opened.text}, reached end of input"
  | unknownHead head => s!"Unknown head symbol '{head}'"
  | emptyList => "Empty list '()' is not a valid form"
  | unsupportedDialect found => s!"Unsupported syntax in the default dialect: found {found}"
  | tooManyChildren count =>
    s!"Too many children in one list: {count} (max {Limits.listChildren})"
  | invalidNumber text => s!"Invalid number literal '{text}'"
  | nestingTooDeep => s!"Maximum nesting depth {Limits.parseDepth} exceeded"

/-- Advice, where there is any. -/
def help? : SyntaxCause → Option String
  | unsupportedDialect _ =>
    some ("only parenthesized forms parse in the default dialect; " ++
      "start the file with '#lang = nih-sexpr'")
  | unknownHead _ => some ("known heads: " ++ " ".intercalate (headRecipes.map Prod.fst))
  | missingClose _ _ | unexpectedEnd _ => some "check for unbalanced parentheses"
  | _ => none

/-- The code of a cause. -/
def code : SyntaxCause → Code
  | unexpectedToken _ _ => .unexpectedToken
  | unexpectedEnd _ => .unexpectedEndOfInput
  | missingClose _ _ => .missingCloseParen
  | unknownHead _ => .unknownHead
  | emptyList => .emptyList
  | unsupportedDialect _ => .unsupportedDialect
  | tooManyChildren _ => .tooManyChildren
  | invalidNumber _ => .invalidNumber
  | nestingTooDeep => .nestingTooDeep

end SyntaxCause

/-- What is wrong with the tokens, and where. -/
structure SyntaxError where
  cause : SyntaxCause
  span : Span
deriving DecidableEq, Repr

end FormScript
