import FormScript.Diagnostic
import FormScript.Preferences
import FormScript.Script.Write
import FormScript.Token.Scan
import FormScript.Tree.Parse

/-!
# Compiling a source

A source is scanned into tokens, the tokens are parsed into a tree, and the tree is written as a
script. The first stage that fails ends the attempt. An `Attempt` keeps what every stage that was
reached left behind, also the one that failed, so that an account of the attempt can be given
afterwards; `Attempt.result` is what came of it.
-/

namespace FormScript

/-- Why a source has no script. -/
inductive CompileError where
  | lexical (error : LexError)
  | syntactic (error : SyntaxError)
  | emission (error : EmitError)
deriving DecidableEq, Repr

namespace CompileError

/-- Where the source is at fault. -/
def span : CompileError → Span
  | lexical e => e.span
  | syntactic e => e.span
  | emission e => e.span

/-- What a reader is told. -/
def message : CompileError → String
  | lexical e => e.cause.message
  | syntactic e => e.cause.message
  | emission e => e.cause.message

/-- Advice, where there is any. -/
def help? : CompileError → Option String
  | lexical e => e.cause.help?
  | syntactic e => e.cause.help?
  | emission e => e.cause.help?

/-- The code of the failure. -/
def code : CompileError → Code
  | lexical e => e.cause.code
  | syntactic e => e.cause.code
  | emission e => e.cause.code

/-- The stage that failed. -/
def stage : CompileError → String
  | lexical _ => "lexical"
  | syntactic _ => "syntax"
  | emission _ => "emission"

/-- The failure as a user is shown it. -/
def diagnostic (e : CompileError) (file : String) (source : List Char) : Diagnostic :=
  .atSpan file (.ofSource source) e.code e.message e.span e.help?

end CompileError

/-- All that a successful attempt produced. -/
structure Compiled where
  scan : Scan
  parsing : Parsing
  tree : Node
  emitting : Emitting
  code : String

namespace Compiled

/-- The tokens, the end of input included. -/
def tokens (c : Compiled) : List Token := c.scan.tokens.toList

/-- Number of tokens, the end of input apart. -/
def tokenCount (c : Compiled) : Nat := c.tokens.countP (!·.isEof)

/-- Number of forms at the top level. -/
def formCount (c : Compiled) : Nat := c.tree.children.length

end Compiled

/-- What was reached in compiling a source. -/
inductive Attempt where
  | unscanned (error : LexError) (scan : Scan)
  | unparsed (error : SyntaxError) (scan : Scan) (parsing : Parsing)
  | unwritten (error : EmitError) (scan : Scan) (parsing : Parsing) (tree : Node)
  | compiled (compiled : Compiled)

namespace Attempt

/-- What came of an attempt. -/
def result : Attempt → Except CompileError Compiled
  | unscanned e _ => .error (.lexical e)
  | unparsed e _ _ => .error (.syntactic e)
  | unwritten e _ _ _ => .error (.emission e)
  | compiled c => .ok c

end Attempt

/-- How scripts are written under the given preferences. -/
def Preferences.scriptOptions (p : Preferences) : ScriptOptions where
  includePrelude := p.isOn .includePrelude
  docComments := p.isOn .docComments

/-- Compiles a source as far as it goes. -/
def attempt (p : Preferences) (source : List Char) : Attempt :=
  match Scan.ofSource source (p.isOn .trackOperators) with
  | .error (e, scan) => .unscanned e scan
  | .ok scan =>
    match parseProgram (scan.stream source) with
    | .error e parsing => .unparsed e scan parsing
    | .ok tree parsing =>
      match writeScript p.scriptOptions tree with
      | .error e _ => .unwritten e scan parsing tree
      | .ok code emitting => .compiled { scan, parsing, tree, emitting, code }

/-- Compiles a source. -/
def compile (p : Preferences) (source : List Char) : Except CompileError Compiled :=
  (attempt p source).result

/-- What is compiled is what the stages one after the other give. -/
theorem compile_eq_ok_iff {p : Preferences} {source : List Char} {c : Compiled} :
    compile p source = .ok c ↔
      Scan.ofSource source (p.isOn .trackOperators) = .ok c.scan ∧
      parseProgram (c.scan.stream source) = .ok c.tree c.parsing ∧
      writeScript p.scriptOptions c.tree = .ok c.code c.emitting := by
  constructor
  · intro h
    unfold compile attempt at h
    split at h
    · cases h
    · rename_i hscan
      split at h
      · cases h
      · rename_i hparse
        split at h
        · cases h
        · rename_i hwrite
          cases h
          exact ⟨hscan, hparse, hwrite⟩
  · rintro ⟨hscan, hparse, hwrite⟩
    unfold compile attempt
    rw [hscan]
    dsimp only
    rw [hparse]
    dsimp only
    rw [hwrite]
    rfl

end FormScript
