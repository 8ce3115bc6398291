import FormScript.Code
import FormScript.Limits
import FormScript.Text.Position

/-!
# Why a text cannot be cut into tokens

A cause says what is wrong, an error adds where. Every cause ends the scan, so there is at most one
error per source. The wording of each cause, its advice and its code are fixed here and nowhere
else.
-/

namespace FormScript

/-- What is wrong with the text. -/
inductive LexCause where
  | carriageReturn
  | invalidCharacter (c : Char)
  | unterminatedString
  | unterminatedComment
  | identifierTooLong (bytes : Nat)
  | stringTooLarge (bytes : Nat)
  | commentTooLong (bytes : Nat)
  | tooManyTokens (count : Nat)
  | commentNestingTooDeep (depth : Nat)
  | unknownPragma (pragma : String)
deriving DecidableEq, Repr

namespace LexCause

/-- What a reader is told. -/
def message : LexCause → String
  | carriageReturn => "Carriage return in source, only LF line endings are accepted"
  | invalidCharacter c => s!"Invalid character: '{c}'"
  | unterminatedString => "Unterminated string literal"
  | unterminatedComment => "Unterminated block comment"
  | identifierTooLong n => s!"Identifier too long: {n} characters (max {Limits.nameBytes})"
  | stringTooLarge n => s!"String too large: {n} bytes (max {Limits.stringBytes})"
  | commentTooLong n => s!"Comment too long: {n} characters (max {Limits.commentBytes})"
  | tooManyTokens n => s!"Too many tokens: {n} (max {Limits.tokenCount})"
  | commentNestingTooDeep d =>
    s!"Block comments nested too deep: {d} (max {Limits.commentDepth})"
  | unknownPragma p =>
    s!"Unknown pragma '{p}', expected '#lang = nih-sexpr' or '#lang = nih-c'"

/-- Advice, where there is any. -/
def help? : LexCause → Option String
  | carriageReturn => some "convert the file to LF line endings"
  | unterminatedString => some "close the string with the quote that opened it"
  | unterminatedComment => some "every '/*' needs a matching '*/', including nested ones"
  | _ => none

/-- The code of a cause. -/
def code : LexCause → Code
  | carriageReturn => .carriageReturn
  | invalidCharacter _ => .invalidCharacter
  | unterminatedString => .unterminatedString
  | unterminatedComment => .unterminatedComment
  | identifierTooLong _ => .identifierTooLong
  | stringTooLarge _ => .stringTooLarge
  | commentTooLong _ => .commentTooLong
  | tooManyTokens _ => .tooManyTokens
  | commentNestingTooDeep _ => .commentNestingTooDeep
  | unknownPragma _ => .unknownPragma

end LexCause

/-- What is wrong with the text, and where. -/
structure LexError where
  cause : LexCause
  span : Span
deriving DecidableEq, Repr

end FormScript
