/-!
# Codes

Everything the compiler reports carries a code. A code stands for one cause or one milestone; the
register gives its category, how grave it is, whether it stops the compilation, and what a user
can do about it. Codes that arrive as text may be unknown: those have no entry, and the few facts
that are asked of any text then take a mild default.
-/

namespace FormScript

/-- Causes of failure, and milestones. -/
inductive Code where
  | internalError
  | initializationFailure
  | configurationError
  | fileNotFound
  | invalidExtension
  | fileTooLarge
  | emptyFile
  | permissionDenied
  | invalidEncoding
  | readFailure
  | invalidPath
  | tooManyLines
  | invalidCharacter
  | unterminatedString
  | unterminatedComment
  | identifierTooLong
  | stringTooLarge
  | carriageReturn
  | commentTooLong
  | tooManyTokens
  | commentNestingTooDeep
  | unknownPragma
  | noProgress
  | unexpectedToken
  | unexpectedEndOfInput
  | missingCloseParen
  | unknownHead
  | emptyList
  | unsupportedDialect
  | tooManyChildren
  | invalidNumber
  | nestingTooDeep
  | unhandledNode
  | statementInExpression
  | emissionTooDeep
  | initialized
  | fileLoaded
  | tokenized
  | dialectSwitched
  | treeBuilt
  | scriptWritten
  | compiled
deriving DecidableEq, Repr

/-- How grave a cause is. -/
inductive Severity where
  | critical
  | high
  | medium
  | low
deriving DecidableEq, Repr

/-- The name of a severity. -/
def Severity.text : Severity → String
  | critical => "Critical"
  | high => "High"
  | medium => "Medium"
  | low => "Low"

/-- What the register says about a code. -/
structure CodeEntry where
  category : String
  severity : Severity
  recoverable : Bool
  halts : Bool
  description : String
  action : String
deriving DecidableEq, Repr

namespace CodeEntry

/-- A compile error: nothing is written. -/
def fatal (category : String) (severity : Severity) (description action : String) : CodeEntry :=
  { category, severity, recoverable := false, halts := true, description, action }

/-- A file that is turned away. -/
def rejected (severity : Severity) (recoverable : Bool) (description action : String) :
    CodeEntry :=
  { category := "FileProcessing", severity, recoverable, halts := false, description, action }

/-- Something that went well. -/
def milestone (category description : String) : CodeEntry :=
  { category, severity := .low, recoverable := true, halts := false, description,
    action := "None" }

end CodeEntry

namespace Code

/-- All codes, in the order of the register. -/
def all : List Code :=
  [internalError, initializationFailure, configurationError,
   fileNotFound, invalidExtension, fileTooLarge, emptyFile, permissionDenied, invalidEncoding,
   readFailure, invalidPath, tooManyLines,
   invalidCharacter, unterminatedString, unterminatedComment, identifierTooLong, stringTooLarge,
   carriageReturn, commentTooLong, tooManyTokens, commentNestingTooDeep, unknownPragma, noProgress,
   unexpectedToken, unexpectedEndOfInput, missingCloseParen, unknownHead, emptyList,
   unsupportedDialect, tooManyChildren, invalidNumber, nestingTooDeep,
   unhandledNode, statementInExpression, emissionTooDeep,
   initialized, fileLoaded, tokenized, dialectSwitched, treeBuilt, scriptWritten, compiled]

/-- The written form of a code. -/
def text : Code → String
  | internalError => "ERR001"
  | initializationFailure => "ERR002"
  | configurationError => "ERR003"
  | fileNotFound => "E005"
  | invalidExtension => "E006"
  | fileTooLarge => "E007"
  | emptyFile => "E008"
  | permissionDenied => "E009"
  | invalidEncoding => "E010"
  | readFailure => "E011"
  | invalidPath => "E012"
  | tooManyLines => "E013"
  | invalidCharacter => "E020"
  | unterminatedString => "E021"
  | unterminatedComment => "E022"
  | identifierTooLong => "E023"
  | stringTooLarge => "E024"
  | carriageReturn => "E025"
  | commentTooLong => "E026"
  | tooManyTokens => "E027"
  | commentNestingTooDeep => "E028"
  | unknownPragma => "E029"
  | noProgress => "E030"
  | unexpectedToken => "E040"
  | unexpectedEndOfInput => "E041"
  | missingCloseParen => "E042"
  | unknownHead => "E043"
  | emptyList => "E044"
  | unsupportedDialect => "E045"
  | tooManyChildren => "E046"
  | invalidNumber => "E047"
  | nestingTooDeep => "E048"
  | unhandledNode => "E060"
  | statementInExpression => "E061"
  | emissionTooDeep => "E062"
  | initialized => "I004"
  | fileLoaded => "I006"
  | tokenized => "I020"
  | dialectSwitched => "I021"
  | treeBuilt => "I040"
  | scriptWritten => "I060"
  | compiled => "I090"

/-- The code of that written form. -/
def ofText? (s : String) : Option Code := all.find? (·.text == s)

/-- What the register says. -/
def entry : Code → CodeEntry
  | internalError => .fatal "System" .critical "Critical internal compiler error"
      "File a bug report with the source that triggered it"
  | initializationFailure => .fatal "System" .critical "Logging or runtime initialization failure"
      "Check the runtime configuration and environment variables"
  | configurationError => .fatal "System" .high "Runtime configuration could not be loaded"
      "Fix the TOML syntax or remove the --config argument"
  | fileNotFound => .rejected .medium false "Source file not found"
      "Verify the file path exists and is spelled correctly"
  | invalidExtension => .rejected .low true "Source file does not have the .nih extension"
      "Rename the file or disable require_nih_extension"
  | fileTooLarge => .rejected .medium false "Source file exceeds the maximum size"
      "Split the program or rebuild with a larger max_file_size"
  | emptyFile => .rejected .low true "Source file is empty" "Add at least one top-level form"
  | permissionDenied => .rejected .medium false "Permission denied reading source file"
      "Check file permissions"
  | invalidEncoding => .rejected .medium false "Source file is not valid UTF-8"
      "Re-save the file as UTF-8"
  | readFailure => .rejected .medium false "I/O error while reading source file"
      "Check disk and file system health"
  | invalidPath => .rejected .medium false "Invalid source path" "Pass a path to a regular file"
  | tooManyLines => .rejected .medium false "Source file has too many lines"
      "Split the program or rebuild with a larger max_line_count"
  | invalidCharacter => .fatal "Lexical" .high "Character is not valid in this position"
      "Remove the character or quote it in a string"
  | unterminatedString => .fatal "Lexical" .high "String literal is not terminated"
      "Close the string with the same quote that opened it"
  | unterminatedComment => .fatal "Lexical" .high "Block comment is not terminated"
      "Balance every /* with a matching */"
  | identifierTooLong => .fatal "Lexical" .medium "Identifier exceeds the maximum length"
      "Use a shorter name"
  | stringTooLarge => .fatal "Lexical" .medium "String literal exceeds the maximum size"
      "Split the string into smaller pieces"
  | carriageReturn => .fatal "Lexical" .high "Carriage return found in source"
      "Convert line endings to LF"
  | commentTooLong => .fatal "Lexical" .medium "Comment exceeds the maximum length"
      "Shorten the comment"
  | tooManyTokens => .fatal "Lexical" .medium "Source produces too many tokens"
      "Split the program into smaller files"
  | commentNestingTooDeep => .fatal "Lexical" .medium "Block comments nested too deeply"
      "Reduce comment nesting"
  | unknownPragma => .fatal "Lexical" .high "Unknown pragma"
      "Use #lang = nih-sexpr or #lang = nih-c"
  | noProgress => .fatal "Lexical" .critical "Tokenizer made no progress"
      "File a bug report with the source that triggered it"
  | unexpectedToken => .fatal "Syntax" .high "Unexpected token"
      "Check the form against its expected shape"
  | unexpectedEndOfInput => .fatal "Syntax" .high "Unexpected end of input"
      "Complete the unfinished form"
  | missingCloseParen => .fatal "Syntax" .high "Missing closing parenthesis"
      "Add the missing ')'"
  | unknownHead => .fatal "Syntax" .high "Unknown head symbol"
      "Use one of the language's built-in forms"
  | emptyList => .fatal "Syntax" .high "Empty list" "Remove the '()' or give it a head symbol"
  | unsupportedDialect => .fatal "Syntax" .high "Construct not supported in the default dialect"
      "Add '#lang = nih-sexpr' at the top of the file"
  | tooManyChildren => .fatal "Syntax" .medium "List has too many children"
      "Split the form into smaller pieces"
  | invalidNumber => .fatal "Syntax" .high "Number literal cannot be represented"
      "Use a smaller literal"
  | nestingTooDeep => .fatal "Syntax" .high "Maximum nesting depth exceeded"
      "Flatten deeply nested forms"
  | unhandledNode => .fatal "Emission" .high "Node cannot be emitted in this position"
      "Use plist, param and type only inside their parent form"
  | statementInExpression => .fatal "Emission" .high
      "Statement used where an expression is required"
      "Move the statement into a do block or function body"
  | emissionTooDeep => .fatal "Emission" .high "Maximum emission depth exceeded"
      "Flatten deeply nested forms"
  | initialized => .milestone "System" "Logging system initialized"
  | fileLoaded => .milestone "FileProcessing" "Source file loaded"
  | tokenized => .milestone "Lexical" "Tokenization completed"
  | dialectSwitched => .milestone "Lexical" "Dialect switched by pragma"
  | treeBuilt => .milestone "Syntax" "AST construction completed"
  | scriptWritten => .milestone "Emission" "JavaScript emission completed"
  | compiled => .milestone "Pipeline" "Compilation completed"

/-- The entry of a code given as text, if it is known. -/
def lookup? (s : String) : Option CodeEntry := (ofText? s).map entry

/-- What is said of a text that is no known code. -/
def unknownEntry : CodeEntry where
  category := "Unknown"
  severity := .medium
  recoverable := true
  halts := false
  description := "Unknown error"
  action := "No specific action available"

/-- The entry of any text. -/
def entryOrDefault (s : String) : CodeEntry := (lookup? s).getD unknownEntry

end Code

end FormScript
