import FormScript.Journal.Event

/-!
# Collecting failures by source

A collector remembers which sources there were and keeps the events of each, up to a limit. The
first event beyond the limit leaves a warning in its place, those after it nothing. So what is kept
of a source depends on the events of that source alone, in their order.

The report lists failures and warnings source by source, and ends with a count.
-/

namespace FormScript

/-- The sources seen, and the events kept of each. -/
structure Collector where
  sources : List String := []
  buckets : Keyed (Array Event) := []
deriving Inhabited

/-- The result of a run in numbers. -/
structure RunSummary where
  total : Nat := 0
  compiled : Nat := 0
  failed : Nat := 0
  errors : Nat := 0
  warnings : Nat := 0
deriving DecidableEq, Repr, Inhabited

/-- Whether anything failed. -/
def RunSummary.hasErrors (s : RunSummary) : Bool := 0 < s.errors

namespace Collector

/-- What stands for the events beyond the limit. -/
def overflow : Event :=
  .warning s!"Further events for this source dropped (limit: {Limits.eventsPerSource})"

/-- Adds an event to those kept of a source. -/
def keep (bucket : Array Event) (e : Event) : Array Event :=
  if bucket.size < Limits.eventsPerSource then bucket.push e
  else if bucket.size = Limits.eventsPerSource then bucket.push overflow
  else bucket

/-- Notes that a source is compiled. -/
def addSource (c : Collector) (source : String) : Collector :=
  if c.sources.contains source then c else { c with sources := source :: c.sources }

/-- Takes in an event of a source. -/
def addEvent (c : Collector) (source : String) (e : Event) : Collector :=
  { c with buckets := c.buckets.change source fun bucket => keep (bucket.getD #[]) e }

/-- The events kept of a source. -/
def eventsFor (c : Collector) (source : String) : List Event :=
  ((c.buckets.lookup source).getD #[]).toList

/-- All sources, each once: those with events and those that were only noted. -/
def names (c : Collector) : List String :=
  c.buckets.map Prod.fst ++ c.sources.filter fun s => (c.buckets.lookup s).isNone

/-- Adds a source to a summary. One with a failure among its events has failed. -/
def count (c : Collector) (s : RunSummary) (source : String) : RunSummary :=
  let events := c.eventsFor source
  let errors := events.countP Event.isError
  { total := s.total + 1
    compiled := if 0 < errors then s.compiled else s.compiled + 1
    failed := if 0 < errors then s.failed + 1 else s.failed
    errors := s.errors + errors
    warnings := s.warnings + events.countP Event.isWarning }

/-- The result in numbers. -/
def summary (c : Collector) : RunSummary := c.names.foldl c.count {}

/-- An event in the report. -/
def eventReport (source : String) (e : Event) : String :=
  let kind := if e.isError then "error" else "warning"
  let place := match e.span with
    | some s => s!"  --> {source}:{s.start.text}\n"
    | none => ""
  let facts := e.context.foldl
    (fun out (k, v) => if k == "source" then out else s!"{out}  = {k}: {v}\n") ""
  let help := match e.isError, e.action? with
    | true, some a => s!"  = help: {a}\n"
    | _, _ => ""
  s!"{kind}[{e.code}]: {e.message}\n{place}{facts}{help}"

/-- A source in the report, if there is anything to tell about it. -/
def sourceReport (source : String) (events : List Event) : String :=
  match events.filter fun e => e.isError || e.isWarning with
  | [] => ""
  | told => told.foldl (fun out e => out ++ eventReport source e) s!"Compiling {source}\n" ++ "\n"

/-- The report of a run. -/
def report (c : Collector) : String :=
  let s := c.summary
  let told := c.buckets.foldl (fun out (n, b) => out ++ sourceReport n b.toList) ""
  let errors := if 0 < s.errors then s!", {s.errors} error(s)" else ""
  let warnings := if 0 < s.warnings then s!", {s.warnings} warning(s)" else ""
  s!"{told}{s.total} source(s): {s.compiled} compiled, {s.failed} failed{errors}{warnings}"

end Collector

end FormScript
