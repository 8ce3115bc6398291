import FormScript.Json
import FormScript.Number.Shortest
import FormScript.Script.Error
import FormScript.Script.Names
import FormScript.Text.Blank
import FormScript.Tree.Node

/-!
# Writing a tree as a script

A node is written as a statement or as an expression, depending on where it stands. A statement is
whole lines at the current indentation; an expression is text that can be put into any other
expression, since every operation is in parentheses. Some constructs are statements only, and
asking for their value is an error.

Names are declared where they are first given a value. The writer keeps a stack of scopes with the
names declared in each. The body of a function, and the program, are function scopes; other blocks
are not. A first assignment inside such a block declares the name in the function around it, so
that it is still known after the block: the name is added to a declaration at the start of the
function's body, which is written last.

The recursion counts down the depth that is left, `Limits.emitDepth` at first: `Writer` is what can
be written with so much room. The state is returned on failure as on success.
-/

namespace FormScript

/-- The names of a block. Those in `hoisted` are declared at its start, in that order. -/
structure Scope where
  names : List String := []
  hoisted : List String := []
  isFunction : Bool := false
deriving DecidableEq, Repr, Inhabited

/-- What has been written so far, in numbers. -/
structure EmitTally where
  statements : Nat := 0
  expressions : Nat := 0
  bindings : Nat := 0
  rebindings : Nat := 0
  deepest : Nat := 0
deriving DecidableEq, Repr, Inhabited

/-- The state of a writer: open scopes, innermost first, and how deep it is. -/
structure Emitting where
  scopes : List Scope := []
  indent : Nat := 0
  depth : Nat := 0
  tally : EmitTally := {}
deriving DecidableEq, Repr, Inhabited

/-- A step of writing. -/
abbrev Emit := EStateM EmitError Emitting

/-! ## Scopes -/

/-- Adds a name, once. -/
def Scope.declare (s : Scope) (name : String) : Scope :=
  if s.names.contains name then s else { s with names := name :: s.names }

/-- Adds a name and a declaration of it at the start. -/
def Scope.hoist (s : Scope) (name : String) : Scope :=
  { s.declare name with hoisted := s.hoisted ++ [name] }

/-- Hoists a name in the innermost function scope. -/
def hoistIn (name : String) : List Scope → List Scope
  | [] => []
  | s :: outer => if s.isFunction then s.hoist name :: outer else s :: hoistIn name outer

namespace Emitting

/-- Whether some open scope has the name. -/
def isBound (s : Emitting) (name : String) : Bool := s.scopes.any (·.names.contains name)

/-- Whether the innermost scope has the name. -/
def isDeclaredHere (s : Emitting) (name : String) : Bool :=
  match s.scopes with
  | [] => false
  | scope :: _ => scope.names.contains name

/-- Whether the innermost scope is a function scope. -/
def inFunctionScope (s : Emitting) : Bool :=
  match s.scopes with
  | [] => false
  | scope :: _ => scope.isFunction

/-- Adds a name to the innermost scope. -/
def declare (s : Emitting) (name : String) : Emitting :=
  match s.scopes with
  | [] => s
  | scope :: outer => { s with scopes := scope.declare name :: outer }

/-- Hoists a name in the innermost function scope. -/
def hoist (s : Emitting) (name : String) : Emitting :=
  { s with scopes := hoistIn name s.scopes }

/-- One more name bound. -/
def countBinding (s : Emitting) : Emitting :=
  { s with tally := { s.tally with bindings := s.tally.bindings + 1 } }

/-- One more name bound again. -/
def countRebinding (s : Emitting) : Emitting :=
  { s with tally := { s.tally with rebindings := s.tally.rebindings + 1 } }

/-- One more statement. -/
def countStatement (s : Emitting) : Emitting :=
  { s with tally := { s.tally with statements := s.tally.statements + 1 } }

/-- One more expression. -/
def countExpression (s : Emitting) : Emitting :=
  { s with tally := { s.tally with expressions := s.tally.expressions + 1 } }

end Emitting

namespace Script

/-! ## Text -/

/-- Blanks in front of a line. -/
def margin (indent : Nat) : String := "".pushn ' ' (indent * Limits.indentWidth)

/-- A line. -/
def lineAt (indent : Nat) (text : String) : String := margin indent ++ text ++ "\n"

/-- The declaration of hoisted names, if there are any. -/
def hoistLine (indent : Nat) (names : List String) : String :=
  if names.isEmpty then "" else lineAt indent ("let " ++ Json.commaJoin ", " names ++ ";")

/-- Numbers are written with the fewest digits that read back and never with an exponent. -/
def numberLayout : NumberLayout where
  tie := .up
  maxWhole := none
  maxLeading := none
  wholeFraction := false

/-- A number. One with a sign is put in parentheses. -/
def numberText (x : Binary64) : String :=
  if x.isNegative then s!"({numberLayout.write x})" else numberLayout.write x

/-- The lines of a comment. -/
def docLines (indent : Nat) (text : String) : String :=
  (lines text.toList).foldl
    (fun out l => out ++ lineAt indent (String.ofList (trimEnd ("// ".toList ++ l)))) ""

/-- An operation with two operands. -/
def binary (op : BinaryOp) (left right : String) : String :=
  match op with
  | .pow => s!"Math.pow({left}, {right})"
  | op => s!"({left} {op.scriptText} {right})"

/-! ## Steps -/

/-- Stops the writing. -/
def fail {α : Type} (cause : EmitCause) (span : Span) : Emit α :=
  fun s => .error ⟨cause, span⟩ s

/-- Writes a line at the current indentation. -/
def line (text : String) : Emit String := fun s => .ok (lineAt s.indent text) s

/-- The name that a node is, where a name must stand. -/
def bindingName (n : Node) : Emit String :=
  match n.name? with
  | some name => pure name
  | none => fail (.unhandledNode n.tag) n.span

/-- A name as a value. A built-in has another name in the script, unless the program binds it. -/
def identifier (name : String) : Emit String := fun s =>
  .ok (if s.isBound name then name else (builtin? name).getD name) s

/-- What stands for the names of a parameter list. -/
def paramNames : List Node → Emit (List String)
  | [] => pure []
  | .param _ name :: rest => do
    let first ← bindingName name
    let others ← paramNames rest
    pure (first :: others)
  | n :: _ => fail (.unhandledNode n.tag) n.span

/-- Gives a name a value where it may have one in this very block already. -/
def declaration (name value : String) : Emit String := fun s =>
  if s.isDeclaredHere name then line s!"{name} = {value};" s.countRebinding
  else line s!"let {name} = {value};" (s.declare name).countBinding

/-- Gives a name a value where it may have one in any block around. -/
def assignment (name value : String) : Emit String := fun s =>
  if s.isBound name then line s!"{name} = {value};" s.countRebinding
  else if s.inFunctionScope then line s!"let {name} = {value};" (s.declare name).countBinding
  else line s!"{name} = {value};" (s.hoist name).countBinding

/-- Runs a step one level deeper, whether it succeeds or not. -/
def nested {α : Type} (step : Emit α) : Emit α := fun s =>
  let depth := s.depth + 1
  match step { s with depth, tally := { s.tally with deepest := max s.tally.deepest depth } } with
  | .ok a s => .ok a { s with depth := s.depth - 1 }
  | .error e s => .error e { s with depth := s.depth - 1 }

/-- Runs a step in a new scope, one indentation further in, and puts the declaration of what was
hoisted there in front. The scope is closed whether the step succeeds or not. -/
def inScope (isFunction : Bool) (bound : List String) (step : Emit String) : Emit String :=
  fun s =>
    let scope := bound.foldl Scope.declare { isFunction }
    match step { s with scopes := scope :: s.scopes, indent := s.indent + 1 } with
    | .ok out s =>
      let hoisted := match s.scopes with
        | [] => []
        | scope :: _ => scope.hoisted
      .ok (hoistLine s.indent hoisted ++ out)
        { s with scopes := s.scopes.tail, indent := s.indent - 1 }
    | .error e s => .error e { s with scopes := s.scopes.tail, indent := s.indent - 1 }

/-- What each node is written as, one behind the other. -/
def sequence (write : Node → Emit String) : List Node → String → Emit String
  | [], out => pure out
  | n :: ns, out => do
    let text ← write n
    sequence write ns (out ++ text)

/-- What each node is written as. -/
def each (write : Node → Emit String) : List Node → List String → Emit (List String)
  | [], done => pure done.reverse
  | n :: ns, done => do
    let text ← write n
    each write ns (text :: done)

/-- What can be written with some room left for nesting. -/
structure Writer where
  stmt : Node → Emit String
  expr : Node → Emit String

/-- Statements in a block of their own. -/
def block (below : Writer) (isFunction : Bool) (bound : List String) (body : List Node) :
    Emit String :=
  inScope isFunction bound (sequence below.stmt body "")

/-- The statements of a branch or of a loop's body. A lone statement stands for itself. -/
def bodyOf : Node → List Node
  | .block _ statements => statements
  | n => [n]

/-- A function as a value. -/
def function (below : Writer) (params : Node) (body : List Node) : Emit String := do
  match params with
  | .params _ params => do
    let names ← paramNames params
    let text ← block below true names body
    let s ← get
    pure ("((" ++ Json.commaJoin ", " names ++ ") => \x7b\n" ++ text ++ margin s.indent ++ "\x7d)")
  | n => fail (.unhandledNode n.tag) n.span

/-- An expression. -/
def exprBody (below : Writer) : Node → Emit String
  | .str _ value => pure (Json.quote value)
  | .num _ value _ => pure (numberText value)
  | .ident _ name => identifier name
  | .unary _ op operand => do
    let operand ← below.expr operand
    pure s!"({op.scriptText}{operand})"
  | .binary _ op left right => do
    let left ← below.expr left
    let right ← below.expr right
    pure (binary op left right)
  | .function _ params body => function below params body
  | .call _ callee args => do
    let callee ← below.expr callee
    let args ← each below.expr args []
    pure (callee ++ "(" ++ Json.commaJoin ", " args ++ ")")
  | .cast _ value target => do
    let value ← below.expr value
    let target := match target with
      | .type _ name => name
      | _ => ""
    pure (castText target value)
  | .branch _ condition yes no => do
    let condition ← below.expr condition
    let yes ← below.expr yes
    let no ← match no with
      | some no => below.expr no
      | none => pure "undefined"
    pure s!"({condition} ? {yes} : {no})"
  | .choice _ condition yes no => do
    let condition ← below.expr condition
    let yes ← below.expr yes
    let no ← below.expr no
    pure s!"({condition} ? {yes} : {no})"
  | .member _ object property => do
    let object ← below.expr object
    pure (object ++ "." ++ property.name?.getD "")
  | n@(.params ..) | n@(.param ..) | n@(.type ..) => fail (.unhandledNode n.tag) n.span
  | n => fail (.statementInExpression n.tag) n.span

/-- A statement. Comments are left out unless `docs` says to keep them. -/
def stmtBody (docs : Bool) (below : Writer) : Node → Emit String
  | .program _ forms => sequence below.stmt forms ""
  | .block _ statements => sequence below.stmt statements ""
  | .doc _ text => fun s =>
    match docs, text with
    | true, .str _ value => .ok (docLines s.indent value) s
    | _, _ => .ok "" s
  | .declare _ name value => do
    let value ← below.expr value
    let name ← bindingName name
    declaration name value
  | .assign _ name value => do
    let value ← below.expr value
    let name ← bindingName name
    assignment name value
  | .increment _ name => do
    let name ← bindingName name
    line s!"{name} += 1;"
  | .result _ value => do
    let value ← below.expr value
    line s!"return {value};"
  | .forLess _ var start stop body => do
    let v ← bindingName var
    let start ← below.expr start
    let stop ← below.expr stop
    let opening ← line s!"for (let {v} = {start}; {v} < {stop}; {v}++) \x7b"
    let body ← block below false [v] body
    let closing ← line "\x7d"
    pure (opening ++ body ++ closing)
  | .doWhile _ body condition => do
    let opening ← line "do \x7b"
    let body ← block below false [] (bodyOf body)
    let condition ← below.expr condition
    let closing ← line s!"\x7d while ({condition});"
    pure (opening ++ body ++ closing)
  | .branch _ condition yes no => do
    let condition ← below.expr condition
    let opening ← line s!"if ({condition}) \x7b"
    let yes ← block below false [] (bodyOf yes)
    let no ← match no with
      | none => pure ""
      | some no => do
        let opening ← line "\x7d else \x7b"
        let no ← block below false [] (bodyOf no)
        pure (opening ++ no)
    let closing ← line "\x7d"
    pure (opening ++ yes ++ no ++ closing)
  | n@(.params ..) | n@(.param ..) | n@(.type ..) => fail (.unhandledNode n.tag) n.span
  | n => do
    let text ← below.expr n
    line s!"{text};"

/-- Refuses a node for which there is no room. -/
def tooDeep (n : Node) : Emit String := fail .tooDeep n.span

/-- What can be written with no room left. -/
def Writer.none : Writer := ⟨tooDeep, tooDeep⟩

/-- What can be written with room for one more level. -/
def Writer.above (docs : Bool) (below : Writer) : Writer where
  stmt n := nested do
    modify Emitting.countStatement
    stmtBody docs below n
  expr n := nested do
    modify Emitting.countExpression
    exprBody below n

/-- What can be written with room for so many levels. -/
def writer (docs : Bool) : (room : Nat) → Writer
  | 0 => .none
  | room + 1 => (writer docs room).above docs

/-- The forms of a program at the top level, with the declaration of what was hoisted there. -/
def program (docs : Bool) (n : Node) : Emit String := do
  let out ← match n with
    | .program _ forms => sequence (writer docs Limits.emitDepth).stmt forms ""
    | n => (writer docs Limits.emitDepth).stmt n
  let s ← get
  match s.scopes.getLast? with
  | some scope => pure (hoistLine 0 scope.hoisted ++ out)
  | none => pure out

end Script

/-- How a script is written. -/
structure ScriptOptions where
  includePrelude : Bool := true
  docComments : Bool := true
deriving DecidableEq, Repr, Inhabited

/-- The script of a program, or the error that stopped the writing, with the writer's state. -/
def writeScript (options : ScriptOptions) (n : Node) :
    EStateM.Result EmitError Emitting String :=
  match Script.program options.docComments n { scopes := [{ isFunction := true }] } with
  | .ok body s => .ok (if options.includePrelude then prelude ++ body else body) s
  | .error e s => .error e s

end FormScript
