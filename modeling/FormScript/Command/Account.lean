import FormScript.Command.About
import FormScript.Compile
import FormScript.Journal.Event
import FormScript.Source.Load

/-!
# The account of a run

The events that a run leaves in its journal, made from what the stages left behind. Times are
readings of a clock and come from outside, already written.
-/

namespace FormScript

/-- Readings of a clock, as they are written. -/
structure Clock where
  /-- The time on entries of the journal, if they carry one. -/
  time : Option String := none
  /-- Milliseconds that loading took, two places. -/
  loading : String := "0.00"
  /-- Characters loaded in a millisecond. -/
  charRate : String := "0.00"
  /-- Milliseconds that compiling took, three places. -/
  compiling : String := "0.000"
  /-- Tokens compiled in a second. -/
  tokenRate : String := "0"
  /-- Milliseconds that compiling took, two places. -/
  elapsed : String := "0.00"
  /-- Milliseconds that compiling took, as a value. -/
  duration : String := "0.0"
  /-- When compiling was done. -/
  completed : String := ""
deriving DecidableEq, Repr, Inhabited

namespace Account

/-- A truth value as a fact. -/
def yesNo (b : Bool) : String := if b then "true" else "false"

/-- The start of a run: the journal is open and the stages are checked. -/
def opening : List Event :=
  [.success Code.initialized.text "Global logging initialized",
   .debug "Validating pipeline configuration",
   (Event.debug "File processor compile-time configuration loaded").notes
     [("max_file_size", toString Limits.fileBytes),
      ("large_file_threshold", toString Limits.largeFileBytes),
      ("max_line_count", toString Limits.fileLines)],
   (Event.debug "Lexical limits initialized").notes
     [("max_string_size", toString Limits.stringBytes),
      ("max_identifier_length", toString Limits.nameBytes),
      ("max_comment_length", toString Limits.commentBytes),
      ("max_token_count", toString Limits.tokenCount),
      ("max_comment_nesting_depth", toString Limits.commentDepth)],
   (Event.info "Syntax module logging validation completed").note "heads"
     (toString headRecipes.length),
   (Event.success Code.initialized.text "Pipeline validation succeeded").note "stages_validated"
     (toString stages.length)]

/-- What is told about a file before it is read. -/
def factsEvent (f : FileFacts) : Event :=
  (Event.debug "File metadata collected").notes
    [("size_bytes", toString f.size), ("extension", f.extensionText), ("is_nih", yesNo f.isSource)]

/-- What is told about a file that is turned away. A path that is no text is never looked at, and
nothing is told about it here. -/
def refusal (e : FileError) (facts : Option FileFacts) : List Event :=
  let event := fun message facts => [(Event.error e.code.text message).notes facts]
  match e.cause with
  | .emptyPath => event "Empty file path provided" []
  | .unreadablePath => []
  | .notFound => event "File not found" [("path", e.path)]
  | .notAFile => event "Path is not a file" [("path", e.path)]
  | .tooLarge size => event "File exceeds compile-time maximum size limit"
      [("file", e.path), ("size_human", sizeText size), ("limit_human", sizeText Limits.fileBytes)]
  | .empty => event "File is empty" [("file", e.path)]
  | .wrongExtension _ => event "File does not have required .nih extension"
      [("file", e.path), ("extension", (facts.map FileFacts.extensionText).getD "none")]
  | .invalidEncoding => event "Failed to read file"
      [("file", e.path), ("io_error", AccessFault.notText.text)]
  | .tooManyLines lines => event "File exceeds maximum line count"
      [("file", e.path), ("lines", toString lines), ("max_lines", toString Limits.fileLines)]

/-- What is told about a file that was read. -/
def success (p : Preferences) (clock : Clock) (path : String) (l : Loaded) : Event :=
  if p.isOn .logFileDetails then
    (Event.success Code.fileLoaded.text
      "File processed successfully with performance metrics").notes
      [("file", path), ("size_bytes", toString l.facts.size),
       ("size_human", sizeText l.facts.size), ("lines", toString l.lines),
       ("chars", toString l.chars), ("duration_ms", clock.loading),
       ("chars_per_ms", clock.charRate), ("is_large_file", yesNo (isLargeSize l.facts.size))]
  else
    (Event.success Code.fileLoaded.text "File processed successfully").notes
      [("file", path), ("size_bytes", toString l.facts.size), ("lines", toString l.lines)]

/-- The loading of a file. -/
def loading (p : Preferences) (clock : Clock) (path : String) (l : Loading) : List Event :=
  let start := (Event.debug "Starting file processing").note "file" path
  match l with
  | .refused e facts => start :: (facts.map factsEvent).toList ++ refusal e facts
  | .loaded l =>
    let other := if !l.facts.isSource && p.isOn .logOtherExtensions then
      [(Event.debug "Processing non-NIH file").notes
        [("extension", l.facts.extensionText), ("file", path)]] else []
    start :: factsEvent l.facts :: success p clock path l :: other

/-- What happened during a scan, if the user wants to know. -/
def scanNote? (p : Preferences) : ScanNote → Option Event
  | .string bytes longest =>
    if p.isOn .logStrings then
      some ((Event.debug "String literal processed").notes
        [("length", toString bytes), ("max_so_far", toString longest)])
    else none
  | .dialect d index position =>
    if p.isOn .logDialectSwitches then
      some ((Event.success Code.dialectSwitched.text "Dialect switched by pragma").notes
        [("dialect", d.text), ("token_index", toString index), ("at", position.text)])
    else none

/-- A scan up to its end or its failure. -/
def scanStart (p : Preferences) (bytes : Nat) (s : Scan) : List Event :=
  (Event.debug "Starting lexical analysis").notes
    [("source_bytes", toString bytes), ("max_tokens_allowed", toString Limits.tokenCount),
     ("max_string_size_allowed", toString Limits.stringBytes)] ::
    s.notes.toList.filterMap (scanNote? p)

/-- The end of a scan. -/
def scanEnd (p : Preferences) (s : Scan) : List Event :=
  let tokens := ("tokens", toString s.tokens.size)
  let t := s.tally
  [(Event.debug "Token stream created").notes [tokens],
   (Event.success Code.tokenized.text "Tokenization completed").notes
    [tokens, ("lines", toString t.lines), ("dialect_switches", toString t.switches)]] ++
  if p.isOn .detailedTally then
    [(Event.debug "Lexical metrics").notes
      [("keywords", toString t.keywords), ("identifiers", toString t.identifiers),
       ("operators", toString t.operators), ("strings", toString t.strings),
       ("numbers", toString t.numbers), ("comments", toString t.comments),
       ("max_comment_depth", toString t.deepestComment)]]
  else []

/-- A parse up to its end or its failure. -/
def parseStart (s : Scan) (parsing : Parsing) : List Event :=
  let tokens := ("tokens", toString s.tokens.size)
  [(Event.debug "Starting syntax analysis").notes
    [tokens, ("dialect_switches", toString s.switches.size)],
   (Event.debug "Creating parser").notes [tokens]] ++
  parsing.joined.toList.map fun (head, n) =>
    (Event.debug "Joined compound head").notes [("head", head), ("tokens", toString n)]

/-- The end of a parse, and the start of writing. -/
def parseEnd (tree : Node) (parsing : Parsing) : List Event :=
  let nodes := ("nodes", toString tree.count)
  [(Event.success Code.treeBuilt.text "AST construction completed").notes
    [("forms", toString tree.children.length), nodes, ("max_depth", toString parsing.deepest)],
   (Event.debug "Starting emission").notes [nodes]]

/-- The end of a compilation. -/
def compiled (p : Preferences) (clock : Clock) (path : String) (c : Compiled) : List Event :=
  let bytes := toString c.code.utf8ByteSize
  (Event.success Code.scriptWritten.text "JavaScript emission completed").notes
    [("statements", toString c.emitting.tally.statements), ("bytes", bytes),
     ("max_depth", toString c.emitting.tally.deepest)] ::
  if p.isOn .logPerformance then
    [(Event.success Code.compiled.text "Compilation succeeded").notes
      [("duration_ms", clock.compiling), ("file", path), ("tokens", toString c.tokenCount),
       ("forms", toString c.formCount), ("code_bytes", bytes), ("tokens_per_sec", clock.tokenRate),
       ("completed_at", clock.completed)]]
  else []

/-- A failure with its place. -/
def failure (code : Code) (message : String) (span : Span) : Event :=
  (Event.error code.text message).atSpan span

/-- The compilation of a source. -/
def attempt (p : Preferences) (clock : Clock) (path source : String) (a : Attempt) : List Event :=
  let bytes := source.utf8ByteSize
  let start := (Event.info "Compiling").notes [("file", path), ("bytes", toString bytes)]
  start :: match a with
  | .unscanned e s => scanStart p bytes s ++
      [(failure e.cause.code e.cause.message e.span).notes
        [("line", toString e.span.start.line), ("column", toString e.span.start.column)]]
  | .unparsed e s parsing => scanStart p bytes s ++ scanEnd p s ++ parseStart s parsing ++
      [(failure e.cause.code e.cause.message e.span).notes
        [("context", parsing.contextText), ("position", toString parsing.stream.position)]]
  | .unwritten e s parsing tree => scanStart p bytes s ++ scanEnd p s ++ parseStart s parsing ++
      parseEnd tree parsing ++ [failure e.cause.code e.cause.message e.span]
  | .compiled c => scanStart p bytes c.scan ++ scanEnd p c.scan ++ parseStart c.scan c.parsing ++
      parseEnd c.tree c.parsing ++ compiled p clock path c

end Account

end FormScript
