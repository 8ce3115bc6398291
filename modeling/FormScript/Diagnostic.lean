import FormScript.Code
import FormScript.Text.Blank
import FormScript.Text.LineTable

/-!
# Diagnostics

A failure as a user is shown it: the code, the message, the place with an excerpt of the source,
and advice where there is any. The text is made once, when the source is at hand.
-/

namespace FormScript

/-- A failure, ready to be shown. -/
structure Diagnostic where
  file : String
  code : Code
  message : String
  span : Option Span := none
  help : Option String := none
  rendered : String
deriving DecidableEq, Repr

namespace Diagnostic

/-- A failure at a place of a source. -/
def atSpan (file : String) (table : LineTable) (code : Code) (message : String) (span : Span)
    (help : Option String) : Diagnostic :=
  let advice := match help with
    | some h => s!"  = help: {h}\n"
    | none => ""
  { file, code, message, span := some span, help
    rendered := table.excerpt file span message ++ advice }

/-- A failure that has no place in a source. -/
def ofFile (file : String) (code : Code) (message : String) : Diagnostic :=
  { file, code, message, rendered := s!"error: {message}\n  --> {file}\n" }

/-- The line of the failure. -/
def line? (d : Diagnostic) : Option Nat := d.span.map (·.start.line)

/-- The column of the failure. -/
def column? (d : Diagnostic) : Option Nat := d.span.map (·.start.column)

/-- The text that is shown. -/
def text (d : Diagnostic) : String := String.ofList (trimEnd d.rendered.toList)

end Diagnostic

end FormScript
