import FormScript.Journal.Collector
import FormScript.Preferences

/-!
# The journal of a run

Events are written down as they come, if the journal is kept at a level that takes them: as lines
for the console, as values one a line, or nowhere but in memory, where only the latest stay. While a
source is compiled every event is marked with it, and its failures and warnings are collected for
the report whatever the level.
-/

namespace FormScript

/-- The latest events, as many as there is room for but at least one. -/
structure Recent where
  capacity : Nat := Limits.logBuffer
  written : Array Event := #[]
deriving Inhabited

namespace Recent

/-- Room for events. -/
def room (r : Recent) : Nat := max 1 r.capacity

/-- Writes an event down. -/
def add (r : Recent) (e : Event) : Recent := { r with written := r.written.push e }

/-- Number of events that are still there. -/
def size (r : Recent) : Nat := min r.room r.written.size

/-- The events that are still there, oldest first. -/
def events (r : Recent) : List Event := (r.written.extract (r.written.size - r.size)).toList

/-- Whether an event with that code is still there. -/
def hasCode (r : Recent) (code : String) : Bool := r.events.any (·.code == code)

end Recent

/-- Where events go. -/
inductive Sink where
  | memory
  | console
  | structured (time : Option String)
deriving DecidableEq, Repr, Inhabited

/-- A journal under way. -/
structure Journal where
  level : LogLevel := .info
  sink : Sink := .memory
  recent : Recent := {}
  lines : Array String := #[]
  collector : Collector := {}
  source : Option String := none
deriving Inhabited

namespace Journal

/-- The journal that a user wants. Entries written as values carry a time if there is one. -/
def ofPreferences (p : Preferences) (time : Option String) : Journal where
  level := p.level
  sink :=
    if p.isOn .consoleLog then if p.isOn .structuredLog then .structured time else .console
    else .memory

/-- Writes an event down, if its level is kept. -/
def write (j : Journal) (e : Event) : Journal :=
  if e.level.isKeptAt j.level then
    match j.sink with
    | .memory => { j with recent := j.recent.add e }
    | .console => { j with lines := j.lines.push e.consoleText }
    | .structured time => { j with lines := j.lines.push (e.json time).compact }
  else j

/-- Keeps a failure or a warning for the report. -/
def collect (j : Journal) (source : String) (e : Event) : Journal :=
  if e.isError || e.isWarning then { j with collector := j.collector.addEvent source e } else j

/-- Takes in an event. -/
def add (j : Journal) (e : Event) : Journal :=
  match j.source with
  | none => j.write e
  | some source =>
    let e := e.note "source" source
    (j.collect source e).write e

/-- Takes in several events. -/
def addAll (j : Journal) (events : List Event) : Journal := events.foldl add j

/-- Runs a step with a source at hand, and puts the former one back. -/
def within {α : Type} (source : String) (step : Journal → α × Journal) (j : Journal) :
    α × Journal :=
  let (a, k) := step { j with collector := j.collector.addSource source, source := some source }
  (a, { k with source := j.source })

end Journal

end FormScript
