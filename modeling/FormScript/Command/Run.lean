import FormScript.Command.Account
import FormScript.Command.Dump
import FormScript.Command.Options
import FormScript.Journal.Record
import FormScript.Settings

/-!
# A run of the command

A run is a function of what it is given: its arguments, the environment, the files it can see and
the readings of a clock. Its outcome is an exit code, two texts, and at most one file to write.
Arguments that cannot be understood end a run with 2, any other failure with 1.
-/

namespace FormScript

/-- What a run is given. -/
structure World where
  program : String := "nihc"
  arguments : List String := []
  environment : Environment := []
  files : FileView
  clock : Clock := {}

/-- What a run leaves. -/
structure Outcome where
  exit : Nat := 0
  output : String := ""
  errors : String := ""
  write : Option (String × String) := none
deriving DecidableEq, Repr, Inhabited

/-- Why a settings file cannot be used. -/
inductive ConfigError where
  | unreadable (path : String) (fault : AccessFault)
  | invalid
deriving DecidableEq, Repr

/-- What a user is told. -/
def ConfigError.message : ConfigError → String
  | unreadable path fault => s!"Cannot read configuration file {path}: {fault.text}"
  | invalid => "Invalid configuration"

/-- The failure with all that is known about it. -/
def ConfigError.details : ConfigError → String
  | unreadable path fault =>
    s!"Read \x7b path: {quoted path}, source: {fault.details} \x7d"
  | invalid => "Parse"

/-- The preferences that a settings file states. -/
def loadPreferences (env : Environment) (files : FileView) (path : String) :
    Except ConfigError Preferences :=
  match files.look path with
  | .error f => .error (.unreadable path f)
  | .ok .directory => .error (.unreadable path .isDirectory)
  | .ok (.file _ bytes) =>
    match decodeText? bytes with
    | none => .error (.unreadable path .notText)
    | some text =>
      match Preferences.ofText? env text with
      | none => .error .invalid
      | some p => .ok p

namespace Command

/-- Lines, each with its end. -/
def joinLines (lines : List String) : String := lines.foldl (fun out l => out ++ l ++ "\n") ""

/-- The report at the end of a run, if the user wants one. -/
def finalReport (p : Preferences) (j : Journal) : String :=
  if p.isOn .finalReport then j.collector.report ++ "\n" else ""

/-- A run that ends with a diagnostic. -/
def failed (w : World) (o : Options) (p : Preferences) (j : Journal) (path : String)
    (d : Diagnostic) : Outcome :=
  let log := joinLines j.lines.toList
  let output := if o.json then
      (resultJson path false [("diagnostic", d.json)] "0.0" w.clock.completed).pretty "" ++ "\n"
    else ""
  let shown := if o.json then "" else d.text ++ "\n"
  { exit := 1, output, errors := log ++ shown ++ finalReport p j }

/-- What a successful run prints before its result. -/
def dumps (o : Options) (c : Compiled) : String :=
  let tokens := if o.tokens then joinLines (c.tokens.map fun t => t.json.compact) else ""
  let tree := if o.ast && !o.json then c.tree.json.pretty "" ++ "\n" else ""
  tokens ++ tree

/-- A run whose source is compiled. -/
def succeeded (w : World) (o : Options) (p : Preferences) (j : Journal) (path : String)
    (c : Compiled) : Outcome :=
  let log := joinLines j.lines.toList
  let told := if o.verbose then
      s!"Compiled {path} ({c.tokenCount} tokens, {c.formCount} forms, {w.clock.elapsed}ms)\n"
    else ""
  let errors := log ++ told ++ finalReport p j
  let output := dumps o c
  if o.json then
    let result := resultJson path true (c.fields o.ast) w.clock.duration w.clock.completed
    { output := output ++ result.pretty "" ++ "\n", errors }
  else
    match o.out with
    | some out =>
      match w.files.canWrite out with
      | .ok () => { output, errors, write := some (out, c.code) }
      | .error f => { exit := 1, output, errors := log ++ s!"Error: {f.details}\n" }
    | none =>
      { output := if o.tokens || o.ast then output else output ++ c.code, errors }

/-- Loads and compiles a file, and keeps the journal. -/
def compileFile (w : World) (o : Options) (p : Preferences) (path : String) : Outcome :=
  let j := (Journal.ofPreferences p w.clock.time).addAll Account.opening
  let loading := loadFile w.files (p.isOn .requireExtension) path
  let j := j.addAll (Account.loading p w.clock path loading)
  match loading with
  | .refused e _ => failed w o p j path e.diagnostic
  | .loaded l =>
    let source := l.source.toList
    let (result, j) := j.within path fun j =>
      let a := FormScript.attempt p source
      (a.result, j.addAll (Account.attempt p w.clock path l.source a))
    match result with
    | .error e => failed w o p j path (e.diagnostic path source)
    | .ok c => succeeded w o p j path c

/-- A run with options. -/
def runOptions (w : World) (o : Options) : Outcome :=
  if o.help then { output := helpText w.program }
  else
    match o.input with
    | none =>
      { exit := 1, errors := usageLine w.program ++ s!"       {w.program} --help\n" }
    | some path =>
      let preferences : Except ConfigError Preferences := match o.config with
        | none => .ok (Preferences.ofEnvironment w.environment)
        | some config => loadPreferences w.environment w.files config
      match preferences with
      | .error e => { exit := 1, errors := s!"Error: {e.details}\n" }
      | .ok p => compileFile w o (if o.verbose then p.verbose else p) path

/-- A run. -/
def run (w : World) : Outcome :=
  match Options.parse w.arguments with
  | .error e => { exit := 2, errors := s!"Error: {e.message}\n" ++ usageLine w.program }
  | .ok o => runOptions w o

end Command

end FormScript
