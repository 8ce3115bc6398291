import FormScript.Journal.Level

/-!
# Preferences

What a user may choose: a number of flags and the level of the journal. None of them decides what
is a program. Each flag has a place in a settings file, a section and a key, and a variable of the
environment that gives its value where the file says nothing. A variable counts only if it is
exactly `true` or `false`.
-/

namespace FormScript

/-- The variables of an environment, with their values. -/
abbrev Environment := List (String × String)

/-- Choices between yes and no. -/
inductive Flag where
  | requireExtension
  | logFileDetails
  | logOtherExtensions
  | detailedTally
  | logStrings
  | trackOperators
  | logDialectSwitches
  | includePrelude
  | docComments
  | structuredLog
  | consoleLog
  | logPerformance
  | finalReport
deriving DecidableEq, Repr, Inhabited

namespace Flag

/-- All flags. -/
def all : List Flag :=
  [requireExtension, logFileDetails, logOtherExtensions, detailedTally, logStrings, trackOperators,
   logDialectSwitches, includePrelude, docComments, structuredLog, consoleLog, logPerformance,
   finalReport]

/-- The section of the settings file that has the flag. -/
def sectionName : Flag → String
  | requireExtension | logFileDetails | logOtherExtensions => "file_processor"
  | detailedTally | logStrings | trackOperators | logDialectSwitches => "lexical"
  | includePrelude | docComments => "emitter"
  | structuredLog | consoleLog | logPerformance | finalReport => "logging"

/-- The key of the flag in its section. -/
def keyName : Flag → String
  | requireExtension => "require_nih_extension"
  | logFileDetails => "enable_performance_logging"
  | logOtherExtensions => "log_non_nih_processing"
  | detailedTally => "collect_detailed_metrics"
  | logStrings => "log_string_statistics"
  | trackOperators => "track_operator_patterns"
  | logDialectSwitches => "log_dialect_switches"
  | includePrelude => "include_library_prelude"
  | docComments => "emit_doc_comments"
  | structuredLog => "use_structured_logging"
  | consoleLog => "enable_console_logging"
  | logPerformance => "log_performance_events"
  | finalReport => "enable_cargo_style_output"

/-- The variable of the environment for the flag. -/
def variableName : Flag → String
  | requireExtension => "NIH_REQUIRE_NIH_EXTENSION"
  | logFileDetails => "NIH_ENABLE_PERFORMANCE_LOGGING"
  | logOtherExtensions => "NIH_LOG_NON_NIH_PROCESSING"
  | detailedTally => "NIH_LEXICAL_DETAILED_METRICS"
  | logStrings => "NIH_LEXICAL_LOG_STRING_STATS"
  | trackOperators => "NIH_LEXICAL_TRACK_OPERATORS"
  | logDialectSwitches => "NIH_LEXICAL_LOG_DIALECT_SWITCHES"
  | includePrelude => "NIH_EMITTER_INCLUDE_PRELUDE"
  | docComments => "NIH_EMITTER_DOC_COMMENTS"
  | structuredLog => "NIH_LOGGING_USE_STRUCTURED"
  | consoleLog => "NIH_LOGGING_ENABLE_CONSOLE"
  | logPerformance => "NIH_LOGGING_LOG_PERFORMANCE"
  | finalReport => "NIH_LOGGING_CARGO_STYLE"

/-- The value of a flag that nobody sets. -/
def default : Flag → Bool
  | logFileDetails | detailedTally | logDialectSwitches | includePrelude | docComments
  | logPerformance | finalReport => true
  | requireExtension | logOtherExtensions | logStrings | trackOperators | structuredLog
  | consoleLog => false

end Flag

/-- The section of the settings file that has the level of the journal. -/
def levelSection : String := "logging"

/-- The key of the level in its section. -/
def levelKey : String := "min_log_level"

/-- The variable of the environment for the level. -/
def levelVariable : String := "NIH_LOGGING_MIN_LEVEL"

/-- What a user has chosen. -/
structure Preferences where
  isOn : Flag → Bool := Flag.default
  level : LogLevel := .info

namespace Preferences

instance : Inhabited Preferences := ⟨{}⟩

/-- The same preferences with one flag set. -/
def set (p : Preferences) (flag : Flag) (value : Bool) : Preferences :=
  { p with isOn := fun f => if f = flag then value else p.isOn f }

/-- The value that a variable gives to a flag. -/
def flagOfText? : String → Option Bool
  | "true" => some true
  | "false" => some false
  | _ => none

/-- The preferences that an environment states, the rest being as if nobody set them. -/
def ofEnvironment (env : Environment) : Preferences where
  isOn flag := ((env.lookup flag.variableName).bind flagOfText?).getD flag.default
  level := ((env.lookup levelVariable).bind LogLevel.ofName?).getD .info

/-- The same preferences, for a run that tells everything it does on the console. -/
def verbose (p : Preferences) : Preferences :=
  { (p.set .structuredLog false |>.set .consoleLog true |>.set .logPerformance true
      |>.set .finalReport true) with level := .debug }

end Preferences

end FormScript
