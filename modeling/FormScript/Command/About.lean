import FormScript.Limits
import FormScript.Script.Names
import FormScript.Source.Load
import FormScript.Tree.Recipe
import FormScript.Vocabulary

/-!
# What the program says about itself
-/

namespace FormScript

/-- The version. -/
def version : String := "0.1.0"

/-- The name of the set of limits in force. -/
def limitsProfile : String := "development"

/-- Where the limits are written down. -/
def limitsSource : String := s!"Generated from config/{limitsProfile}.toml"

/-- The stages of a compilation. -/
def stages : List String := ["file", "lexical", "syntax", "emission"]

/-- The language of the scripts. -/
def targetLanguage : String := "JavaScript"

/-- What the program can do, line by line. -/
def capabilities : List String :=
  ["NIH Compiler Pipeline:",
   "- Stages: " ++ " -> ".intercalate stages,
   s!"- Target: {targetLanguage}",
   s!"- Max File Size: {Limits.fileBytes / (1024 * 1024)} MB",
   s!"- Max Tokens: {Limits.tokenCount}",
   s!"- Max Parse Depth: {Limits.parseDepth}",
   s!"- Supported Extensions: {sourceExtension}",
   s!"- Head Symbols: {headRecipes.length}",
   s!"- Keywords: {Category.keyword.words.length}",
   s!"- Operators: {Category.operator.words.length}",
   s!"- Limits: {limitsSource}"]

/-- What the program can do. -/
def capabilityReport : String := "\n".intercalate capabilities

/-- What the program is, in a line. -/
def capabilitySummary : String := s!"{stages.length}-stage NIH compiler targeting {targetLanguage}"

/-- Whether the limits are fit for sources that nobody vouches for. -/
def limitsAreConservative : Bool :=
  Limits.stringBytes ≤ 10000000 && Limits.nameBytes ≤ 1000 && Limits.commentBytes ≤ 1000000 &&
    Limits.tokenCount ≤ 5000000 && Limits.commentDepth ≤ 1000

/-- Whether the limits of the journal make sense. -/
def journalLimitsAreValid : Bool :=
  100 ≤ Limits.logBuffer && Limits.logBuffer ≤ 100000 &&
    Limits.eventsPerSource ≤ Limits.logBuffer && 16 ≤ Limits.messageBytes

/-- Whether every code is in the register. -/
def codesAreRegistered : Bool := Code.all.all fun c => (Code.lookup? c.text).isSome

/-- The line that tells how to call the program. -/
def usageLine (program : String) : String := s!"Usage: {program} <input.nih> [options]\n"

/-- The help text. -/
def helpText (program : String) : String :=
  let lines :=
    [s!"NIH Compiler v{version}",
     "Compiles NIH S-expression sources to JavaScript",
     "",
     "USAGE:",
     s!"    {program} <input.nih> [options]",
     "",
     "OPTIONS:",
     "    -o, --out <file>    Write JavaScript to a file instead of stdout",
     "    --config <file>     Load runtime preferences from a TOML file",
     "    --tokens            Print the token stream, one JSON object per line",
     "    --ast               Print the syntax tree as JSON",
     "    --json              Print a JSON summary instead of writing a file",
     "    -v, --verbose       Report timing and the collected log summary",
     "    -h, --help          Show this help message",
     "",
     "EXAMPLES:",
     s!"    {program} demos/mandelbrot.nih",
     s!"    {program} hello.nih | node",
     s!"    {program} hello.nih --out hello.js --verbose",
     "",
     "PIPELINE CAPABILITIES:"]
  (lines ++ capabilities.map ("    " ++ ·)).foldl (fun out l => out ++ l ++ "\n") ""

end FormScript
