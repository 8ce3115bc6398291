import FormScript.Text.Lowercase

/-!
# Levels of a journal

Levels are ordered by weight, errors first. A journal kept at some level takes everything up to it.
-/

namespace FormScript

/-- How much an entry of a journal matters. -/
inductive LogLevel where
  | error
  | warning
  | info
  | debug
deriving DecidableEq, Repr, Inhabited

namespace LogLevel

/-- The place of a level, the weightiest being first. -/
def rank : LogLevel → Nat
  | error => 0
  | warning => 1
  | info => 2
  | debug => 3

/-- Whether a journal kept at level `kept` takes an entry. -/
def isKeptAt (entry kept : LogLevel) : Bool := entry.rank ≤ kept.rank

/-- The word for a level in an entry. -/
def text : LogLevel → String
  | error => "ERROR"
  | warning => "WARNING"
  | info => "INFO"
  | debug => "DEBUG"

/-- The word for a level where levels are listed. -/
def shortText : LogLevel → String
  | error => "ERROR"
  | warning => "WARN"
  | info => "INFO"
  | debug => "DEBUG"

/-- The word for a level in a settings file. -/
def settingText : LogLevel → String
  | error => "error"
  | warning => "warning"
  | info => "info"
  | debug => "debug"

/-- The level that a settings file names. -/
def ofSetting? : String → Option LogLevel
  | "error" => some error
  | "warning" => some warning
  | "info" => some info
  | "debug" => some debug
  | _ => none

/-- The level that a user names: by word in any case, or by number. -/
def ofName? (name : String) : Option LogLevel :=
  match lowercase name with
  | "error" | "0" => some error
  | "warning" | "warn" | "1" => some warning
  | "info" | "2" => some info
  | "debug" | "3" => some debug
  | _ => none

end LogLevel

end FormScript
