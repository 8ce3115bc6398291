import FormScript.Code
import FormScript.Journal.Keyed
import FormScript.Journal.Level
import FormScript.Json
import FormScript.Limits
import FormScript.Text.Position

/-!
# Events

One entry of a journal: how much it matters, a code, a message, and where known the place and some
facts under keys. A message that is too long is cut at the end of a character, and marked as cut.
The time of an event is no part of it: whoever writes the event down adds the time, if wanted.
-/

namespace FormScript

/-- Something that happened. -/
structure Event where
  level : LogLevel
  code : String
  message : String
  span : Option Span := none
  context : Keyed String := []
deriving DecidableEq, Repr, Inhabited

namespace Event

/-- The longest run of characters from the start that fits into so many bytes. -/
def takeBytes : (budget : Nat) → List Char → List Char
  | _, [] => []
  | budget, c :: cs =>
    if c.utf8Size ≤ budget then c :: takeBytes (budget - c.utf8Size) cs else []

/-- A message, cut if it is too long. -/
def clip (message : String) : String :=
  if message.utf8ByteSize ≤ Limits.messageBytes then message
  else String.ofList (takeBytes Limits.messageBytes message.toList) ++ "..."

/-- An event at some level. -/
def make (level : LogLevel) (code message : String) : Event :=
  { level, code, message := clip message }

/-- A failure. -/
def error (code message : String) : Event := make .error code message

/-- Something odd. -/
def warning (message : String) : Event := make .warning "W000" message

/-- Something worth knowing. -/
def info (message : String) : Event := make .info "I000" message

/-- Something that went well, with a code of its own. -/
def success (code message : String) : Event := make .info code message

/-- A detail. -/
def debug (message : String) : Event := make .debug "D000" message

/-- The same event with a fact added, in place of one under the same key. -/
def note (e : Event) (key value : String) : Event := { e with context := e.context.put key value }

/-- The same event with several facts added. -/
def notes (e : Event) (facts : List (String × String)) : Event :=
  facts.foldl (fun e (k, v) => e.note k v) e

/-- The same event at a place. -/
def atSpan (e : Event) (span : Span) : Event := { e with span := some span }

/-- Whether this is a failure. -/
def isError (e : Event) : Bool := e.level == .error

/-- Whether this is a warning. -/
def isWarning (e : Event) : Bool := e.level == .warning

/-- Whether this is a piece of information. -/
def isInfo (e : Event) : Bool := e.level == .info

/-- The category of the event's code. -/
def category (e : Event) : String := (Code.entryOrDefault e.code).category

/-- What the register advises for the event's code. -/
def action? (e : Event) : Option String := (Code.lookup? e.code).map (·.action)

/-- An event on one line, without its facts. -/
def text (e : Event) : String :=
  let place := match e.span with
    | some s => s!" at {s.start.text}"
    | none => ""
  s!"[{e.level.text}] {e.code} - {e.message}{place}"

/-- An event on one line, with its facts. -/
def consoleText (e : Event) : String :=
  e.context.foldl (fun out (k, v) => s!"{out} {k}={v}") e.text

/-- A position, its fields in the order of their names. -/
def positionJson (p : Position) : Json :=
  .object [("column", .ofNat p.column), ("line", .ofNat p.line), ("offset", .ofNat p.offset)]

/-- An event as a value, all fields in the order of their names. Failures also tell what the
register says about their code. -/
def json (e : Event) (time : Option String := none) : Json :=
  let context := if e.context.isEmpty then [] else
    [("context", Json.object (e.context.map fun (k, v) => (k, .string v)))]
  let details := match e.isError, Code.lookup? e.code with
    | true, some entry =>
      [("error", Json.object [("category", .string entry.category),
        ("recommended_action", .string entry.action), ("requires_halt", .bool entry.halts),
        ("severity", .string entry.severity.text)])]
    | _, _ => []
  let place := match e.span with
    | some s => [("span", Json.object [("end", positionJson s.stop),
        ("start", positionJson s.start)])]
    | none => []
  let stamp := match time with
    | some t => [("timestamp", Json.string t)]
    | none => []
  .object ([("code", .string e.code)] ++ context ++ details ++
    [("level", .string e.level.text), ("message", .string e.message)] ++ place ++ stamp)

end Event

end FormScript
