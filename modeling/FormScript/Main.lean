import FormScript.Command.Run
import Std.Time

/-!
# The command

Gathers what a run is given, runs it, and does what its outcome says. Of the files only those are
read that the arguments name, so the view of files is exact where the run looks. Whether a file can
be written shows only in writing it. A run is therefore first done as if it could be; if it cannot,
the run is done again with that known, and since nothing was printed before, its outcome is the only
one that shows.

The clock is read once, so that durations come out as zero.
-/

namespace FormScript

/-- The fault that a failure of the system stands for, if it is one that a run can tell of. -/
def faultOf? : IO.Error → Option AccessFault
  | .noFileOrDirectory _ _ _ => some .noEntry
  | .inappropriateType _ code _ => some (if code = 21 then .isDirectory else .notDirectory)
  | .invalidArgument _ _ _ => some .nameTooLong
  | _ => none

/-- What comes of an action, or the fault it ends with. Failures of other kinds go on. -/
def orFault {α : Type} (action : IO α) : IO (Except AccessFault α) := do
  try
    pure (.ok (← action))
  catch e =>
    match faultOf? e with
    | some fault => pure (.error fault)
    | none => throw e

/-- What is at a path. A file goes by the name it has where it really is. -/
def lookAt (path : String) : IO Found := do
  let real ← IO.FS.realPath path
  if ← real.isDir then pure .directory
  else pure (.file (real.fileName.getD path) (← IO.FS.readBinFile path))

/-- The files that arguments name. -/
def viewFiles (arguments : List String) : IO FileView := do
  let paths := match Options.parse arguments with
    | .ok o => o.input.toList ++ o.config.toList
    | .error _ => []
  let seen ← paths.mapM fun path => do pure (path, ← orFault (lookAt path))
  pure {
    look := fun path => (seen.lookup path).getD (.error .noEntry)
    canWrite := fun _ => .ok () }

/-- The variables that preferences can come from. -/
def readEnvironment : IO Environment := do
  let names := levelVariable :: Flag.all.map Flag.variableName
  names.filterMapM fun name => do pure ((← IO.getEnv name).map (name, ·))

/-- The time of day. -/
def readClock : IO Clock := do
  let now ← Std.Time.Timestamp.now
  let text := (Std.Time.DateTime.ofTimestamp now Std.Time.TimeZone.ZoneRules.UTC).toISO8601String
  pure { time := some text, completed := text }

/-- Runs the command and writes its file. -/
def runAndWrite (world : World) : IO Outcome := do
  let outcome := Command.run world
  match outcome.write with
  | none => pure outcome
  | some (path, text) =>
    match ← orFault (IO.FS.writeFile path text) with
    | .ok () => pure outcome
    | .error fault =>
      let files := { world.files with canWrite := fun _ => .error fault }
      pure (Command.run { world with files })

end FormScript

/-- Runs the command on the arguments it is called with. -/
def main (arguments : List String) : IO UInt32 := do
  let files ← FormScript.viewFiles arguments
  let environment ← FormScript.readEnvironment
  let clock ← FormScript.readClock
  let outcome ← FormScript.runAndWrite { arguments, environment, files, clock }
  IO.print outcome.output
  IO.eprint outcome.errors
  pure outcome.exit.toUInt32
