import FormScript.Number.Reading
import FormScript.Token.Stream
import FormScript.Tree.Error
import FormScript.Tree.Node

/-!
# Parsing tokens into a tree

A program is a sequence of forms. A form is an atom or a list; a list starts with a head, whose
recipe says which slots follow. Parsing goes slot by slot and looks ahead by at most two tokens.

Two limits bound the recursion, and they are what it counts down. A list may hold lists down to a
depth of `Limits.parseDepth`: `Level` is what can be parsed with so much room left, and the level
with no room at all refuses every list. The open-ended part of a list may have
`Limits.listChildren` elements. Only the sequence of top-level forms is unbounded; there every form
takes up at least one token.

The state is returned on failure as on success.
-/

namespace FormScript

/-- A parse under way. Heads of open forms are listed innermost first; heads that were put together
from several tokens are recorded with the number of tokens. -/
structure Parsing where
  stream : TokenStream
  depth : Nat := 0
  deepest : Nat := 0
  context : List String := []
  joined : Array (String × Nat) := #[]
deriving Repr, Inhabited

/-- The forms around the place a parse has come to. -/
def Parsing.contextText (s : Parsing) : String :=
  " > ".intercalate ("module" :: s.context.reverse)

/-- A step of a parse. -/
abbrev Parse := EStateM SyntaxError Parsing

/-- The head of a form and where the form was opened. -/
structure FormHead where
  name : String
  opened : Position
deriving DecidableEq, Repr

namespace Parse

/-! ## Tokens -/

/-- The token at hand. -/
def current : Parse Token := fun s => .ok s.stream.current s

/-- The token behind it. -/
def following : Parse Token := fun s => .ok (s.stream.lookAhead 1) s

/-- Takes the token at hand. -/
def advance : Parse Token :=
  fun s => .ok s.stream.current { s with stream := s.stream.advance }

/-- Stops the parse. -/
def fail {α : Type} (cause : SyntaxCause) (span : Span) : Parse α :=
  fun s => .error ⟨cause, span⟩ s

/-- Stops at a token other than the expected one. -/
def unexpected {α : Type} (expected : String) (t : Token) : Parse α :=
  if t.isEof then fail (.unexpectedEnd expected) t.span
  else fail (.unexpectedToken expected t.describe) t.span

/-- The mark of a node that is one token. -/
def markOf (t : Token) : Mark := ⟨t.span, t.ascription⟩

/-! ## Atoms -/

/-- The number that a text spells, which must be finite. -/
def number (text : String) (span : Span) : Parse Binary64 :=
  match Binary64.ofDecimal? text.toList with
  | some x => if x.isFinite then pure x else fail (.invalidNumber text) span
  | none => fail (.invalidNumber text) span

/-- A minus sign and the number that follows it without a gap. -/
def negative (minus : Token) : Parse Node := do
  let _ ← advance
  let digits ← advance
  let text := "-" ++ digits.text
  let span := minus.span.merge digits.span
  let x ← number text span
  pure (.num ⟨span, minus.ascription <|> digits.ascription⟩ x text)

/-- Whether the token behind a minus sign is a number that belongs to it. -/
def belongsToMinus (minus next : Token) : Bool :=
  next.kind == .number && next.span.start.offset == minus.span.stop.offset

/-- An atom, or what `list` parses. -/
def expr (list : Parse Node) (expected : String) : Parse Node := do
  let t ← current
  match t.kind with
  | .string => do
    let _ ← advance
    pure (.str (markOf t) t.text)
  | .number => do
    let _ ← advance
    let x ← number t.text t.span
    pure (.num (markOf t) x t.text)
  | .identifier => do
    let _ ← advance
    pure (.ident (markOf t) t.text)
  | .operator =>
    if t.isOpen then list
    else do
      let next ← following
      if t.text == "-" && belongsToMinus t next then negative t else unexpected expected t
  | _ => unexpected expected t

/-- An identifier. -/
def ident : Parse Node := do
  let t ← current
  if t.kind == .identifier then do
    let _ ← advance
    pure (.ident (markOf t) t.text)
  else unexpected "identifier" t

/-- A string. -/
def str : Parse Node := do
  let t ← current
  if t.kind == .string then do
    let _ ← advance
    pure (.str (markOf t) t.text)
  else unexpected "string literal" t

/-- A type: a name, or the one ascribed to the closing parenthesis, which is left. -/
def type : Parse Node := do
  let t ← current
  if t.kind == .identifier then do
    let _ ← advance
    pure (.type ⟨t.span, none⟩ t.text)
  else
    match t.isClose, t.ascription with
    | true, some a => pure (.type ⟨t.span, none⟩ a)
    | _, _ => unexpected "type name" t

/-! ## The ends of forms -/

/-- Whether the form ends here. The input must not. -/
def atFormEnd (head : FormHead) : Parse Bool := do
  let t ← current
  if t.isClose then pure true
  else if t.isEof then fail (.missingClose head.name head.opened) t.span
  else pure false

/-- The closing parenthesis. -/
def close (head : FormHead) : Parse Token := do
  let t ← current
  if t.isClose then advance
  else if t.isEof then fail (.missingClose head.name head.opened) t.span
  else unexpected "')'" t

/-- What `item` parses, over and over until the form ends. `done` are the items so far, last one
first, and `room` says how many more may follow. -/
def items (item : Parse Node) (head : FormHead) : (room : Nat) → (done : List Node) →
    Parse (List Node)
  | 0, done => do
    if ← atFormEnd head then pure done.reverse
    else do
      let t ← current
      fail (.tooManyChildren (Limits.listChildren + 1)) t.span
  | room + 1, done => do
    if ← atFormEnd head then pure done.reverse
    else do
      let n ← item
      items item head room (n :: done)

/-! ## Heads -/

/-- Words and operators, parentheses apart, can be part of a head. -/
def isJoinable (t : Token) : Bool :=
  (t.kind == .identifier || t.kind == .keyword || t.kind == .operator) && !t.isOpen && !t.isClose

/-- The spelling and the span of tokens that stand together without a gap. -/
def join? : List Token → Option (String × Span)
  | [] => none
  | [t] => if isJoinable t then some (t.text, t.span) else none
  | t :: u :: rest =>
    if isJoinable t && u.span.start.offset == t.span.stop.offset then
      (join? (u :: rest)).map fun (text, span) => (t.text ++ text, t.span.merge span)
    else none

/-- A head of several tokens at the start of some tokens: its length, spelling and span. The
longest one is taken. -/
def compound? (tokens : List Token) : Option (Nat × String × Span) :=
  [longestHead, 2].findSome? fun n => do
    let (text, span) ← join? (tokens.take n)
    if (recipe? text).isSome then some (n, text, span) else none

/-- Moves on by some tokens. -/
def skip : Nat → Parse Unit
  | 0 => pure ()
  | n + 1 => do
    let _ ← advance
    skip n

/-- The head of a form: spelling, span, and the type ascribed to its first token. -/
def head : Parse (String × Span × Option String) := do
  let t ← current
  if !isJoinable t then
    fail (.unknownHead (if t.kind == .string then s!"'{t.text}'" else t.text)) t.span
  else
    let found := compound? (← get).stream.remaining
    match found with
    | some (n, text, span) => do
      skip n
      modify fun s => { s with joined := s.joined.push (text, n) }
      pure (text, span, t.ascription)
    | none => do
      let _ ← advance
      pure (t.text, t.span, t.ascription)

/-! ## Lists -/

/-- What can be parsed with some room left for nesting: a form in parentheses, and a sequence of
statements in parentheses without a head. Both start at the opening parenthesis. -/
structure Level where
  list : Parse Node
  bare : Parse Node

/-- A form that must have a certain head. -/
def headed (below : Level) (head : String) : Parse Node := do
  let t ← current
  let next ← following
  if t.isOpen && next.isSymbol head then below.list
  else unexpected s!"({head} ...)" t

/-- A block: statements in parentheses with or without a head, or one form, which is wrapped. -/
def block (below : Level) : Parse Node := do
  let t ← current
  let next ← following
  if t.isEof then fail (.unexpectedEnd "block") t.span
  else if !t.isOpen then fail (.unexpectedToken "block '( ... )'" t.describe) t.span
  else if next.isOpen then below.bare
  else do
    let form ← below.list
    match form with
    | .block _ _ => pure form
    | form => pure (.block ⟨form.span, none⟩ [form])

/-- The slots of a form. The result still lacks the mark of the whole form. -/
def slots (below : Level) (head : FormHead) : Recipe → Parse (Mark → Node)
  | .doc => do
    let text ← str
    pure (.doc · text)
  | .declare => do
    let name ← ident
    let value ← expr below.list "expression"
    pure (.declare · name value)
  | .assign => do
    let name ← ident
    let value ← expr below.list "expression"
    pure (.assign · name value)
  | .increment => do
    let name ← ident
    pure (.increment · name)
  | .result => do
    let value ← expr below.list "expression"
    pure (.result · value)
  | .cast => do
    let value ← expr below.list "expression"
    let target ← type
    pure (.cast · value target)
  | .param => do
    let name ← ident
    -- The type next to the name goes before one on the parentheses.
    pure fun m => .param ⟨m.span, name.mark.ascription <|> m.ascription⟩ name
  | .choice => do
    let condition ← expr below.list "expression"
    let yes ← expr below.list "expression"
    let no ← expr below.list "expression"
    pure (.choice · condition yes no)
  | .member => do
    let object ← expr below.list "expression"
    let property ← ident
    pure (.member · object property)
  | .doWhile => do
    let body ← block below
    let condition ← expr below.list "expression"
    pure (.doWhile · body condition)
  | .binary op => do
    let left ← expr below.list "expression"
    let right ← expr below.list "expression"
    pure (.binary · op left right)
  | .sign one two => do
    let left ← expr below.list "expression"
    if ← atFormEnd head then pure (.unary · one left)
    else do
      let right ← expr below.list "expression"
      pure (.binary · two left right)
  | .unary op => do
    let operand ← expr below.list "expression"
    pure (.unary · op operand)
  | .branch => do
    let condition ← expr below.list "expression"
    let yes ← expr below.list "expression"
    if ← atFormEnd head then pure (.branch · condition yes none)
    else do
      let no ← expr below.list "expression"
      pure (.branch · condition yes (some no))
  | .call => do
    let callee ← expr below.list "expression"
    let args ← items (expr below.list "expression or ')'") head Limits.listChildren []
    pure (.call · callee args)
  | .block => do
    let statements ← items (expr below.list "expression or ')'") head Limits.listChildren []
    pure (.block · statements)
  | .function => do
    let params ← headed below "plist"
    let body ← items (expr below.list "expression or ')'") head Limits.listChildren []
    pure (.function · params body)
  | .params => do
    let params ← items (headed below "param") head Limits.listChildren []
    pure (.params · params)
  | .forLess => do
    let var ← ident
    let start ← expr below.list "expression"
    let stop ← expr below.list "expression"
    let body ← items (expr below.list "expression or ')'") head Limits.listChildren []
    pure (.forLess · var start stop body)

/-- Runs a step inside a form, which is left again whether the step succeeds or not. -/
def inContext {α : Type} (name : String) (step : Parse α) : Parse α := fun s =>
  match step { s with context := name :: s.context } with
  | .ok a s => .ok a { s with context := s.context.tail }
  | .error e s => .error e { s with context := s.context.tail }

/-- Runs a step one parenthesis deeper, whether it succeeds or not. -/
def nested {α : Type} (step : Parse α) : Parse α := fun s =>
  match step { s with depth := s.depth + 1, deepest := max s.deepest (s.depth + 1) } with
  | .ok a s => .ok a { s with depth := s.depth - 1 }
  | .error e s => .error e { s with depth := s.depth - 1 }

/-- A form in parentheses: head, slots, and the end. Its type is ascribed to the opening
parenthesis, else to the head, else to the closing parenthesis. -/
def listBody (below : Level) : Parse Node := do
  let opening ← advance
  let t ← current
  if t.isClose then do
    let _ ← advance
    fail .emptyList (opening.span.merge t.span)
  else if t.isEof then fail (.missingClose "" opening.span.start) t.span
  else do
    let (name, headSpan, headType) ← head
    match recipe? name with
    | none => fail (.unknownHead name) headSpan
    | some recipe => do
      let form : FormHead := ⟨name, opening.span.start⟩
      let make ← inContext name (slots below form recipe)
      let closing ← close form
      pure (make ⟨opening.span.merge closing.span,
        opening.ascription <|> headType <|> closing.ascription⟩)

/-- Statements in parentheses without a head. -/
def bareBody (below : Level) : Parse Node := do
  let opening ← advance
  let form : FormHead := ⟨"do", opening.span.start⟩
  let statements ← items (expr below.list "expression or ')'") form Limits.listChildren []
  let closing ← close form
  pure (.block ⟨opening.span.merge closing.span, opening.ascription <|> closing.ascription⟩
    statements)

/-- Refuses a parenthesis for which there is no room. -/
def tooDeep : Parse Node := do
  let t ← current
  fail .nestingTooDeep t.span

/-- What can be parsed with no room left. -/
def Level.none : Level := ⟨tooDeep, tooDeep⟩

/-- What can be parsed with room for one more parenthesis. -/
def Level.above (below : Level) : Level := ⟨nested (listBody below), nested (bareBody below)⟩

/-- What can be parsed with room for so many nested parentheses. -/
def level : (room : Nat) → Level
  | 0 => .none
  | room + 1 => (level room).above

/-! ## Programs -/

/-- A form at the top level. Atoms need the dialect for them. -/
def topForm (top : Level) : Parse Node := do
  let t ← current
  match (← get).stream.dialect with
  | .sexpr => expr top.list "top-level form"
  | .plain =>
    if t.isOpen then top.list else fail (.unsupportedDialect t.describe) t.span

/-- Forms up to the end of the input. Every form takes up a token, so there are no more forms than
`room`, the number of tokens. -/
def forms (top : Level) : (room : Nat) → (done : List Node) → Parse (List Node)
  | 0, done => pure done.reverse
  | room + 1, done => do
    let t ← current
    if t.isEof then pure done.reverse
    else do
      let n ← topForm top
      forms top room (n :: done)

/-- A program: all forms of the input. -/
def program : Parse Node := do
  let first ← current
  let all ← forms (level Limits.parseDepth) (← get).stream.remaining.length []
  let last ← current
  pure (.program ⟨first.span.merge last.span, none⟩ all)

end Parse

/-- Parses what is left of a token stream, from the token at hand on. -/
def parseProgram (stream : TokenStream) : EStateM.Result SyntaxError Parsing Node :=
  Parse.program { stream }

end FormScript
