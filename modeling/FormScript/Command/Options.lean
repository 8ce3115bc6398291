/-!
# Options of the command line

Arguments are read from left to right: a flag stands alone, an option takes the argument behind it
as a path, whatever that is, and any other argument that does not start with a dash is the input,
of which there is at most one. A later path takes the place of an earlier one.
-/

namespace FormScript

/-- What the command line asks for. -/
structure Options where
  input : Option String := none
  out : Option String := none
  config : Option String := none
  tokens : Bool := false
  ast : Bool := false
  json : Bool := false
  verbose : Bool := false
  help : Bool := false
deriving DecidableEq, Repr, Inhabited

/-- Why a command line cannot be understood. -/
inductive UsageError where
  | outWithoutPath
  | configWithoutPath
  | unknownOption (argument : String)
  | extraInput (argument : String)
deriving DecidableEq, Repr

/-- What a user is told. -/
def UsageError.message : UsageError → String
  | outWithoutPath => "--out requires a path"
  | configWithoutPath => "--config requires a path"
  | unknownOption a => s!"Unknown option '{a}'"
  | extraInput a => s!"Unexpected extra input '{a}'"

namespace Options

/-- Takes in an argument that is neither a flag nor an option with a path. -/
def addInput (o : Options) (argument : String) : Except UsageError Options :=
  if argument.startsWith "-" then .error (.unknownOption argument)
  else
    match o.input with
    | some _ => .error (.extraInput argument)
    | none => .ok { o with input := some argument }

/-- Takes in arguments. -/
def addAll (o : Options) : List String → Except UsageError Options
  | [] => .ok o
  | "--help" :: rest | "-h" :: rest => addAll { o with help := true } rest
  | "--tokens" :: rest => addAll { o with tokens := true } rest
  | "--ast" :: rest => addAll { o with ast := true } rest
  | "--json" :: rest => addAll { o with json := true } rest
  | "--verbose" :: rest | "-v" :: rest => addAll { o with verbose := true } rest
  | ["--out"] | ["-o"] => .error .outWithoutPath
  | "--out" :: path :: rest | "-o" :: path :: rest => addAll { o with out := some path } rest
  | ["--config"] => .error .configWithoutPath
  | "--config" :: path :: rest => addAll { o with config := some path } rest
  | argument :: rest =>
    match o.addInput argument with
    | .error e => .error e
    | .ok o => addAll o rest

/-- Reads a command line. -/
def parse (arguments : List String) : Except UsageError Options := addAll {} arguments

end Options

end FormScript
