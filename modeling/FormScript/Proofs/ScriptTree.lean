import FormScript.Compile

/-!
# Scripts as trees

The writer puts texts together, and a text does not show which of its names is meant by what. Here
the same walk over the tree of a program builds the script as a tree instead (`ScriptTree.ofNode`),
with blocks, declarations and assignments as what they are, and **writing is building followed by
rendering** (`writeScript_eq`). Both walks take the same steps on the same state, so the proof only
has to follow the text of the two side by side: `RendersAt` relates a step that writes to a step
that builds, and passes through sequencing.

A tree is rendered by rules of its own. Lines, the declaration of hoisted names, parameter lists,
operations and conversions are spelled out anew, and nothing is taken from the writer but the texts
of numbers, strings, operators and built-in names. So what a tree declares is what the script says.
The equations between the two spellings (`lineAt_eq`, `hoistLine_eq` and so on) stand in front of
the comparison of the two walks.

Wherever a name is written as a value or given a new one, the tree also notes the level of the scope
that had the name at that moment, counted from the program outwards in. The text does not depend on
more than whether there was one.
-/

namespace FormScript

open Script (line lineAt margin hoistLine docLines numberText bindingName paramNames fail nested
  bodyOf)

/-- The level of the innermost scope that has a name: how many scopes are around it. -/
def foundAt (name : String) : List Scope → Option Nat
  | [] => none
  | s :: outer => if s.names.contains name then some outer.length else foundAt name outer

theorem isBound_eq (s : Emitting) (name : String) :
    s.isBound name = (foundAt name s.scopes).isSome := by
  unfold Emitting.isBound
  induction s.scopes with
  | nil => rfl
  | cons scope outer ih =>
    rw [List.any_cons, ih, foundAt]
    cases scope.names.contains name <;> rfl

namespace ScriptTree

/-! ## Trees -/

mutual

/-- An expression of a script. -/
inductive Expr where
  | str (value : String)
  | num (value : Binary64)
  | undefined
  | name (name : String) (found : Option Nat)
  | unary (op : UnaryOp) (operand : Expr)
  | binary (op : BinaryOp) (left right : Expr)
  | function (params : List String) (body : Block)
  | call (callee : Expr) (args : List Expr)
  | cast (target : String) (value : Expr)
  | choice (condition yes no : Expr)
  | member (object : Expr) (property : String)

/-- A statement of a script. -/
inductive Stmt where
  | comment (text : String)
  | declare (name : String) (value : Expr)
  | assign (name : String) (found : Option Nat) (value : Expr)
  | increment (name : String) (found : Option Nat)
  | result (value : Expr)
  | forLess (var : String) (start stop : Expr) (body : Block)
  | doWhile (body : Block) (condition : Expr)
  | branch (condition : Expr) (yes : Block)
  | branchElse (condition : Expr) (yes no : Block)
  | expr (value : Expr)

/-- Statements in a block, behind a declaration of the names hoisted there. -/
inductive Block where
  | mk (hoisted : List String) (body : List Stmt)

end

/-! ## Their texts -/

/-- The blanks in front of a line. -/
def blanks (indent : Nat) : String := "".pushn ' ' (Limits.indentWidth * indent)

/-- A line at this indentation. -/
def lineText (indent : Nat) (text : String) : String := blanks indent ++ text ++ "\n"

/-- One `let` for all hoisted names, on a line of its own, and nothing if there are none. -/
def hoistedText (indent : Nat) : List String → String
  | [] => ""
  | name :: more => lineText indent ("let " ++ ", ".intercalate (name :: more) ++ ";")

/-- The lines of a comment. -/
def commentText (indent : Nat) (text : String) : String :=
  String.join ((lines text.toList).map fun l =>
    lineText indent (String.ofList (trimEnd ("// ".toList ++ l))))

/-- What an operation begins with, and what stands between its operands. -/
def binaryText : BinaryOp → String × String
  | .pow => ("Math.pow(", ", ")
  | op => ("(", " " ++ op.scriptText ++ " ")

/-- What a conversion puts in front of a value and behind it. -/
def castAround (target : String) : String × String :=
  if integerTypes.contains target then ("Math.trunc(Number(", "))")
  else if floatTypes.contains target then ("Number(", ")")
  else if target = "string" then ("String(", ")")
  else if target = "bool" then ("Boolean(", ")")
  else ("(", ")")

mutual

/-- The text of an expression that stands in a line with this indentation. -/
def Expr.text (indent : Nat) : Expr → String
  | .str value => Json.quote value
  | .num value => numberText value
  | .undefined => "undefined"
  | .name name found => if found.isSome then name else (builtin? name).getD name
  | .unary op operand => s!"({op.scriptText}{operand.text indent})"
  | .binary op left right =>
    (binaryText op).1 ++ left.text indent ++ (binaryText op).2 ++ right.text indent ++ ")"
  | .function params body =>
    "((" ++ ", ".intercalate params ++ ") => \x7b\n" ++ body.text (indent + 1)
      ++ blanks indent ++ "\x7d)"
  | .call callee args => callee.text indent ++ "(" ++ ", ".intercalate (texts indent args) ++ ")"
  | .cast target value => (castAround target).1 ++ value.text indent ++ (castAround target).2
  | .choice condition yes no =>
    s!"({condition.text indent} ? {yes.text indent} : {no.text indent})"
  | .member object property => object.text indent ++ "." ++ property

/-- The texts of expressions. -/
def texts (indent : Nat) : List Expr → List String
  | [] => []
  | e :: es => e.text indent :: texts indent es

/-- The lines of a statement. -/
def Stmt.text (indent : Nat) : Stmt → String
  | .comment text => commentText indent text
  | .declare name value => lineText indent s!"let {name} = {value.text indent};"
  | .assign name _ value => lineText indent s!"{name} = {value.text indent};"
  | .increment name _ => lineText indent s!"{name} += 1;"
  | .result value => lineText indent s!"return {value.text indent};"
  | .forLess var start stop body =>
    lineText indent
        s!"for (let {var} = {start.text indent}; {var} < {stop.text indent}; {var}++) \x7b"
      ++ body.text (indent + 1) ++ lineText indent "\x7d"
  | .doWhile body condition =>
    lineText indent "do \x7b" ++ body.text (indent + 1)
      ++ lineText indent s!"\x7d while ({condition.text indent});"
  | .branch condition yes =>
    lineText indent s!"if ({condition.text indent}) \x7b" ++ yes.text (indent + 1)
      ++ lineText indent "\x7d"
  | .branchElse condition yes no =>
    lineText indent s!"if ({condition.text indent}) \x7b" ++ yes.text (indent + 1)
      ++ (lineText indent "\x7d else \x7b" ++ no.text (indent + 1)) ++ lineText indent "\x7d"
  | .expr value => lineText indent s!"{value.text indent};"

/-- The lines of a block, without the lines around it. -/
def Block.text (indent : Nat) : Block → String
  | .mk hoisted body => hoistedText indent hoisted ++ bodyText indent body

/-- The lines of statements. -/
def bodyText (indent : Nat) : List Stmt → String
  | [] => ""
  | t :: ts => t.text indent ++ bodyText indent ts

end

theorem bodyText_append (indent : Nat) (ts us : List Stmt) :
    bodyText indent (ts ++ us) = bodyText indent ts ++ bodyText indent us := by
  induction ts with
  | nil => simp [bodyText]
  | cons t ts ih => rw [List.cons_append, bodyText, ih, bodyText, String.append_assoc]

theorem bodyText_singleton (indent : Nat) (t : Stmt) : bodyText indent [t] = t.text indent := by
  simp [bodyText]

/-! ## Building -/

/-- A name as a value. -/
def identifier (name : String) : Emit Expr := fun s => .ok (.name name (foundAt name s.scopes)) s

/-- Gives a name a value where it may have one in this very block already. -/
def declaration (name : String) (value : Expr) : Emit (List Stmt) := fun s =>
  if s.isDeclaredHere name then
    .ok [.assign name (foundAt name s.scopes) value] s.countRebinding
  else .ok [.declare name value] (s.declare name).countBinding

/-- Gives a name a value where it may have one in any block around. -/
def assignment (name : String) (value : Expr) : Emit (List Stmt) := fun s =>
  if s.isBound name then .ok [.assign name (foundAt name s.scopes) value] s.countRebinding
  else if s.inFunctionScope then .ok [.declare name value] (s.declare name).countBinding
  else .ok [.assign name (foundAt name s.scopes) value] (s.hoist name).countBinding

/-- Adds one to a name. -/
def increment (name : String) : Emit (List Stmt) := fun s =>
  .ok [.increment name (foundAt name s.scopes)] s

/-- Builds a block in a new scope. The scope is closed whether that succeeds or not. -/
def inScope (isFunction : Bool) (bound : List String) (step : Emit (List Stmt)) : Emit Block :=
  fun s =>
    let scope := bound.foldl Scope.declare { isFunction }
    match step { s with scopes := scope :: s.scopes, indent := s.indent + 1 } with
    | .ok body s =>
      let hoisted := match s.scopes with
        | [] => []
        | scope :: _ => scope.hoisted
      .ok (.mk hoisted body) { s with scopes := s.scopes.tail, indent := s.indent - 1 }
    | .error e s => .error e { s with scopes := s.scopes.tail, indent := s.indent - 1 }

/-- What each node becomes, one behind the other. -/
def sequence (build : Node → Emit (List Stmt)) : List Node → Emit (List Stmt)
  | [] => pure []
  | n :: ns => do
    let first ← build n
    let more ← sequence build ns
    pure (first ++ more)

/-- What each node becomes. -/
def each (build : Node → Emit Expr) : List Node → Emit (List Expr)
  | [] => pure []
  | n :: ns => do
    let first ← build n
    let more ← each build ns
    pure (first :: more)

/-- What can be built with some room left for nesting. -/
structure Builder where
  stmt : Node → Emit (List Stmt)
  expr : Node → Emit Expr

/-- Statements in a block of their own. -/
def block (below : Builder) (isFunction : Bool) (bound : List String) (body : List Node) :
    Emit Block :=
  inScope isFunction bound (sequence below.stmt body)

/-- A function as a value. -/
def function (below : Builder) (params : Node) (body : List Node) : Emit Expr := do
  match params with
  | .params _ params => do
    let names ← paramNames params
    let body ← block below true names body
    pure (.function names body)
  | n => fail (.unhandledNode n.tag) n.span

/-- An expression. -/
def exprBody (below : Builder) : Node → Emit Expr
  | .str _ value => pure (.str value)
  | .num _ value _ => pure (.num value)
  | .ident _ name => identifier name
  | .unary _ op operand => do
    let operand ← below.expr operand
    pure (.unary op operand)
  | .binary _ op left right => do
    let left ← below.expr left
    let right ← below.expr right
    pure (.binary op left right)
  | .function _ params body => function below params body
  | .call _ callee args => do
    let callee ← below.expr callee
    let args ← each below.expr args
    pure (.call callee args)
  | .cast _ value target => do
    let value ← below.expr value
    let target := match target with
      | .type _ name => name
      | _ => ""
    pure (.cast target value)
  | .branch _ condition yes no => do
    let condition ← below.expr condition
    let yes ← below.expr yes
    let no ← match no with
      | some no => below.expr no
      | none => pure .undefined
    pure (.choice condition yes no)
  | .choice _ condition yes no => do
    let condition ← below.expr condition
    let yes ← below.expr yes
    let no ← below.expr no
    pure (.choice condition yes no)
  | .member _ object property => do
    let object ← below.expr object
    pure (.member object (property.name?.getD ""))
  | n@(.params ..) | n@(.param ..) | n@(.type ..) => fail (.unhandledNode n.tag) n.span
  | n => fail (.statementInExpression n.tag) n.span

/-- A statement. It may come to none, or to several. -/
def stmtBody (docs : Bool) (below : Builder) : Node → Emit (List Stmt)
  | .program _ forms => sequence below.stmt forms
  | .block _ statements => sequence below.stmt statements
  | .doc _ text =>
    match docs, text with
    | true, .str _ value => pure [.comment value]
    | _, _ => pure []
  | .declare _ name value => do
    let value ← below.expr value
    let name ← bindingName name
    declaration name value
  | .assign _ name value => do
    let value ← below.expr value
    let name ← bindingName name
    assignment name value
  | .increment _ name => do
    let name ← bindingName name
    increment name
  | .result _ value => do
    let value ← below.expr value
    pure [.result value]
  | .forLess _ var start stop body => do
    let v ← bindingName var
    let start ← below.expr start
    let stop ← below.expr stop
    let body ← block below false [v] body
    pure [.forLess v start stop body]
  | .doWhile _ body condition => do
    let body ← block below false [] (bodyOf body)
    let condition ← below.expr condition
    pure [.doWhile body condition]
  | .branch _ condition yes no => do
    let condition ← below.expr condition
    let yes ← block below false [] (bodyOf yes)
    match no with
    | none => pure [.branch condition yes]
    | some no => do
      let no ← block below false [] (bodyOf no)
      pure [.branchElse condition yes no]
  | n@(.params ..) | n@(.param ..) | n@(.type ..) => fail (.unhandledNode n.tag) n.span
  | n => do
    let value ← below.expr n
    pure [.expr value]

/-- What can be built with no room left. -/
def Builder.none : Builder := ⟨fun n => fail .tooDeep n.span, fun n => fail .tooDeep n.span⟩

/-- What can be built with room for one more level. -/
def Builder.above (docs : Bool) (below : Builder) : Builder where
  stmt n := nested do
    modify Emitting.countStatement
    stmtBody docs below n
  expr n := nested do
    modify Emitting.countExpression
    exprBody below n

/-- What can be built with room for so many levels. -/
def builder (docs : Bool) : (room : Nat) → Builder
  | 0 => .none
  | room + 1 => (builder docs room).above docs

/-- The outermost block, which declares in front what was hoisted there. -/
def close (body : List Stmt) : Emit Block := do
  let s ← get
  match s.scopes.getLast? with
  | some scope => pure (.mk scope.hoisted body)
  | none => pure (.mk [] body)

/-- The forms of a program, as the block that the script is. -/
def program (docs : Bool) (n : Node) : Emit Block := do
  let body ← match n with
    | .program _ forms => sequence (builder docs Limits.emitDepth).stmt forms
    | n => (builder docs Limits.emitDepth).stmt n
  close body

theorem close_ok {s : Emitting} {scope : Scope} (h : s.scopes.getLast? = some scope)
    (body : List Stmt) : close body s = .ok (.mk scope.hoisted body) s := by
  change (match s.scopes.getLast? with
    | some scope => pure (.mk scope.hoisted body)
    | none => pure (.mk [] body) : Emit Block) s = _
  rw [h]
  rfl

/-- The script of a program as a tree, or the error that stopped the building. -/
def ofNode (options : ScriptOptions) (n : Node) : EStateM.Result EmitError Emitting Block :=
  program options.docComments n { scopes := [{ isFunction := true }] }

/-! ## The writer's own texts -/

theorem margin_eq (indent : Nat) : margin indent = blanks indent := by
  rw [margin, blanks, Nat.mul_comm]

theorem lineAt_eq (indent : Nat) (text : String) : lineAt indent text = lineText indent text := by
  rw [lineAt, lineText, margin_eq]

theorem commaJoin_eq (separator : String) (ts : List String) :
    Json.commaJoin separator ts = separator.intercalate ts := by
  cases ts with
  | nil => rfl
  | cons t ts =>
    rw [Json.commaJoin]
    induction ts generalizing t with
    | nil => rw [List.foldl_nil, String.intercalate_singleton]
    | cons u ts ih =>
      -- The first two texts have become one, which is as good as joining them.
      rw [List.foldl_cons, ih, String.intercalate_cons_append, String.intercalate_cons_cons]

theorem hoistLine_eq (indent : Nat) (names : List String) :
    hoistLine indent names = hoistedText indent names := by
  cases names with
  | nil => rfl
  | cons name more =>
    rw [hoistLine, hoistedText, lineAt_eq, commaJoin_eq]
    rfl

theorem docLines_eq (indent : Nat) (text : String) :
    docLines indent text = commentText indent text := by
  rw [docLines, commentText, String.join, List.foldl_map]
  simp only [lineAt_eq]

theorem binary_eq (op : BinaryOp) (left right : String) : Script.binary op left right
    = (binaryText op).1 ++ left ++ (binaryText op).2 ++ right ++ ")" := by
  unfold Script.binary binaryText
  cases op <;> simp [toString, String.append_assoc]

theorem castText_eq (target value : String) :
    castText target value = (castAround target).1 ++ value ++ (castAround target).2 := by
  unfold castText castAround
  split
  · rfl
  split
  · rfl
  split
  · rfl
  split
  · rfl
  · rfl

/-! ## Rendering what is built is what is written -/

variable {α β γ δ : Type} {i : Nat}

/-- From every state with this indentation, both steps come to the same, and what the first one
writes is the text of what the second one builds. -/
def RendersAt (i : Nat) (text : α → β) (p : Emit β) (q : Emit α) : Prop :=
  ∀ s : Emitting, s.indent = i →
    match q s with
    | .ok a s' => p s = .ok (text a) s' ∧ s'.indent = i
    | .error e s' => p s = .error e s'

theorem RendersAt.bind {text : α → β} {text' : γ → δ} {p : Emit β} {q : Emit α} {f : β → Emit δ}
    {g : α → Emit γ} (hp : RendersAt i text p q)
    (hf : ∀ a, RendersAt i text' (f (text a)) (g a)) :
    RendersAt i text' (p >>= f) (q >>= g) := by
  intro s hs
  have h := hp s hs
  rw [show (p >>= f) s = EStateM.bind p f s from rfl,
    show (q >>= g) s = EStateM.bind q g s from rfl, EStateM.bind, EStateM.bind]
  split at h
  · rename_i a s' heq
    rw [heq, h.1]
    exact hf a s' h.2
  · rename_i heq
    rw [heq, h]

theorem rendersAt_pure {text : α → β} {b : β} {a : α} (h : text a = b) :
    RendersAt i text (pure b) (pure a) := fun _ hs => ⟨h ▸ rfl, hs⟩

theorem rendersAt_fail {text : α → β} {cause : EmitCause} {span : Span} :
    RendersAt i text (fail cause span) (fail cause span) := fun _ _ => rfl

/-- A line is written where nothing is built. -/
theorem RendersAt.line_bind {text : α → β} {l : String} {f : String → Emit β} {q : Emit α}
    (hf : RendersAt i text (f (lineText i l)) q) : RendersAt i text (line l >>= f) q := by
  intro s hs
  have h := hf s hs
  rw [← hs, ← lineAt_eq] at h
  exact hs ▸ h

theorem RendersAt.pure_bind {text : α → β} {c : γ} {f : γ → Emit β} {q : Emit α}
    (hf : RendersAt i text (f c) q) : RendersAt i text (pure c >>= f) q := hf

/-- A last line is written, with what is built in it. -/
theorem rendersAt_line {text : α → String} {l : String} {a : α} (h : text a = lineText i l) :
    RendersAt i text (line l) (pure a) := by
  intro s hs
  exact ⟨by rw [h, ← hs, ← lineAt_eq]; rfl, hs⟩

theorem RendersAt.map {text : α → β} {text' : γ → β} {p : Emit β} {q : Emit α} {g : α → γ}
    (h : RendersAt i text p q) (hg : ∀ a, text' (g a) = text a) :
    RendersAt i text' p (do let a ← q; pure (g a)) := by
  have := h.bind (f := pure) (g := fun a => pure (g a)) fun a => rendersAt_pure (hg a)
  rwa [bind_pure] at this

theorem RendersAt.nested {text : α → β} {p : Emit β} {q : Emit α} (h : RendersAt i text p q) :
    RendersAt i text (nested p) (nested q) := by
  intro s hs
  have := h { s with
    depth := s.depth + 1
    tally := { s.tally with deepest := max s.tally.deepest (s.depth + 1) } } hs
  unfold Script.nested
  dsimp only
  split at this
  · rename_i heq
    rw [heq, this.1]
    exact ⟨rfl, this.2⟩
  · rename_i heq
    rw [heq, this]

theorem RendersAt.inScope {p : Emit String} {q : Emit (List Stmt)}
    (h : RendersAt (i + 1) (bodyText (i + 1)) p q) (isFunction : Bool) (bound : List String) :
    RendersAt i (Block.text (i + 1)) (Script.inScope isFunction bound p)
      (ScriptTree.inScope isFunction bound q) := by
  intro s hs
  have := h { s with
    scopes := bound.foldl Scope.declare { isFunction } :: s.scopes
    indent := s.indent + 1 } (by rw [← hs])
  unfold Script.inScope ScriptTree.inScope
  dsimp only
  split at this
  · rename_i heq
    rw [heq, this.1]
    dsimp only
    -- What was hoisted is known now, and goes in front of the statements on both sides.
    rw [this.2, Block.text, hoistLine_eq]
    exact ⟨rfl, rfl⟩
  · rename_i heq
    rw [heq, this]

theorem rendersAt_bindingName (n : Node) : RendersAt i id (bindingName n) (bindingName n) := by
  unfold Script.bindingName
  split
  · exact rendersAt_pure rfl
  · exact rendersAt_fail

theorem rendersAt_paramNames (ns : List Node) : RendersAt i id (paramNames ns) (paramNames ns) := by
  induction ns with
  | nil => exact rendersAt_pure rfl
  | cons n ns ih =>
    cases n with
    | param m name =>
      exact (rendersAt_bindingName name).bind fun _ => ih.bind fun _ => rendersAt_pure rfl
    | _ => exact rendersAt_fail

theorem rendersAt_identifier (name : String) :
    RendersAt i (Expr.text i) (Script.identifier name) (identifier name) := by
  intro s hs
  refine ⟨?_, hs⟩
  rw [Script.identifier, isBound_eq, Expr.text]

theorem indent_declare (s : Emitting) (name : String) : (s.declare name).indent = s.indent := by
  unfold Emitting.declare
  split <;> rfl

/-- A statement that is one line, with the line. -/
theorem line_eq {t : Stmt} {l : String} {s : Emitting} (hs : s.indent = i)
    (h : t.text i = lineText i l) : line l s = .ok (bodyText i [t]) s ∧ s.indent = i := by
  refine ⟨?_, hs⟩
  rw [bodyText_singleton, h, ← hs, ← lineAt_eq]
  rfl

theorem rendersAt_declaration (name : String) (value : Expr) :
    RendersAt i (bodyText i) (Script.declaration name (value.text i)) (declaration name value) := by
  intro s hs
  unfold Script.declaration declaration
  cases s.isDeclaredHere name with
  | true => exact line_eq (s := s.countRebinding) hs (by rw [Stmt.text])
  | false =>
    exact line_eq (s := (s.declare name).countBinding) ((indent_declare s name).trans hs)
      (by rw [Stmt.text])

theorem rendersAt_assignment (name : String) (value : Expr) :
    RendersAt i (bodyText i) (Script.assignment name (value.text i)) (assignment name value) := by
  intro s hs
  unfold Script.assignment assignment
  cases s.isBound name with
  | true => exact line_eq (s := s.countRebinding) hs (by rw [Stmt.text])
  | false =>
    cases s.inFunctionScope with
    | true =>
      exact line_eq (s := (s.declare name).countBinding) ((indent_declare s name).trans hs)
        (by rw [Stmt.text])
    | false => exact line_eq (s := (s.hoist name).countBinding) hs (by rw [Stmt.text])

theorem rendersAt_increment (name : String) :
    RendersAt i (bodyText i) (line s!"{name} += 1;") (increment name) :=
  fun _ hs => line_eq hs (by rw [Stmt.text])

theorem rendersAt_sequence {write : Node → Emit String} {build : Node → Emit (List Stmt)}
    (h : ∀ n, RendersAt i (bodyText i) (write n) (build n)) (ns : List Node) (out : String) :
    RendersAt i (out ++ bodyText i ·) (Script.sequence write ns out) (sequence build ns) := by
  induction ns generalizing out with
  | nil => exact rendersAt_pure (by simp [bodyText])
  | cons n ns ih =>
    refine (h n).bind fun first => ?_
    refine (ih _).map fun more => ?_
    rw [bodyText_append, String.append_assoc]

theorem rendersAt_statements {write : Node → Emit String} {build : Node → Emit (List Stmt)}
    (h : ∀ n, RendersAt i (bodyText i) (write n) (build n)) (ns : List Node) :
    RendersAt i (bodyText i) (Script.sequence write ns "") (sequence build ns) := by
  simpa only [String.empty_append] using rendersAt_sequence h ns ""

theorem rendersAt_each {write : Node → Emit String} {build : Node → Emit Expr}
    (h : ∀ n, RendersAt i (Expr.text i) (write n) (build n)) (ns : List Node)
    (done : List String) :
    RendersAt i (done.reverse ++ texts i ·) (Script.each write ns done) (each build ns) := by
  induction ns generalizing done with
  | nil => exact rendersAt_pure (by simp [texts])
  | cons n ns ih =>
    refine (h n).bind fun first => ?_
    refine (ih _).map fun more => ?_
    simp [texts]

/-- With the same room, what is written is the text of what is built. -/
structure Matching (w : Script.Writer) (b : Builder) : Prop where
  stmt : ∀ i n, RendersAt i (bodyText i) (w.stmt n) (b.stmt n)
  expr : ∀ i n, RendersAt i (Expr.text i) (w.expr n) (b.expr n)

section Bodies

variable {w : Script.Writer} {b : Builder}

theorem rendersAt_block (h : Matching w b) (isFunction : Bool) (bound : List String)
    (body : List Node) :
    RendersAt i (Block.text (i + 1)) (Script.block w isFunction bound body)
      (block b isFunction bound body) :=
  (rendersAt_statements (h.stmt (i + 1)) body).inScope isFunction bound

theorem rendersAt_function (h : Matching w b) (params : Node) (body : List Node) :
    RendersAt i (Expr.text i) (Script.function w params body) (function b params body) := by
  cases params with
  | params _ params =>
    refine (rendersAt_paramNames params).bind fun names => ?_
    refine (rendersAt_block h true names body).bind fun block => ?_
    intro s hs
    refine ⟨?_, hs⟩
    rw [Expr.text, ← hs, ← margin_eq, ← commaJoin_eq]
    rfl
  | _ => exact rendersAt_fail

theorem rendersAt_exprBody (h : Matching w b) (n : Node) :
    RendersAt i (Expr.text i) (Script.exprBody w n) (exprBody b n) := by
  have hexpr := h.expr i
  cases n with
  | str | num => exact rendersAt_pure (by rw [Expr.text])
  | ident _ name => exact rendersAt_identifier name
  | unary _ op a => exact (hexpr a).bind fun _ => rendersAt_pure (by rw [Expr.text])
  | binary _ op a c =>
    refine (hexpr a).bind fun _ => (hexpr c).bind fun _ => rendersAt_pure ?_
    rw [Expr.text, binary_eq]
  | function _ params body => exact rendersAt_function h params body
  | call _ callee args =>
    refine (hexpr callee).bind fun _ => ?_
    refine (rendersAt_each hexpr args []).bind fun _ => rendersAt_pure ?_
    rw [Expr.text, ← commaJoin_eq]
    rfl
  | cast _ value target =>
    refine (hexpr value).bind fun _ => rendersAt_pure ?_
    cases target <;> rw [Expr.text, castText_eq]
  | branch _ a c d =>
    refine (hexpr a).bind fun _ => (hexpr c).bind fun _ => ?_
    cases d with
    | none =>
      have hundefined : Expr.text i .undefined = "undefined" := by rw [Expr.text]
      exact (rendersAt_pure hundefined).bind fun _ => rendersAt_pure (by rw [Expr.text])
    | some d => exact (hexpr d).bind fun _ => rendersAt_pure (by rw [Expr.text])
  | choice _ a c d =>
    refine (hexpr a).bind fun _ => (hexpr c).bind fun _ => ?_
    exact (hexpr d).bind fun _ => rendersAt_pure (by rw [Expr.text])
  | member _ object property =>
    exact (hexpr object).bind fun _ => rendersAt_pure (by rw [Expr.text])
  | params | param | type => exact rendersAt_fail
  | program | doc | declare | assign | increment | doWhile | result | forLess | block =>
    exact rendersAt_fail

theorem rendersAt_stmtBody (docs : Bool) (h : Matching w b) (n : Node) :
    RendersAt i (bodyText i) (Script.stmtBody docs w n) (stmtBody docs b n) := by
  have hexpr := h.expr i
  have hvalue : RendersAt i (bodyText i) (do let text ← w.expr n; line s!"{text};")
      (do let value ← b.expr n; pure [.expr value]) :=
    (hexpr n).bind fun _ => rendersAt_line (by rw [bodyText_singleton, Stmt.text])
  cases n with
  | program _ ns | block _ ns =>
    exact rendersAt_statements (h.stmt i) ns
  | doc _ text =>
    intro s hs
    cases docs with
    | false => exact ⟨rfl, hs⟩
    | true =>
      cases text with
      | str => exact ⟨by rw [bodyText_singleton, Stmt.text, ← hs, ← docLines_eq]; rfl, hs⟩
      | _ => exact ⟨rfl, hs⟩
  | declare _ name value =>
    refine (hexpr value).bind fun value => (rendersAt_bindingName name).bind fun name => ?_
    exact rendersAt_declaration name value
  | assign _ name value =>
    refine (hexpr value).bind fun value => (rendersAt_bindingName name).bind fun name => ?_
    exact rendersAt_assignment name value
  | increment _ name => exact (rendersAt_bindingName name).bind rendersAt_increment
  | result _ value =>
    exact (hexpr value).bind fun _ => rendersAt_line (by rw [bodyText_singleton, Stmt.text])
  | forLess _ var start stop body =>
    refine (rendersAt_bindingName var).bind fun v => ?_
    refine (hexpr start).bind fun _ => (hexpr stop).bind fun _ => .line_bind ?_
    refine (rendersAt_block h false [v] body).bind fun _ => .line_bind (rendersAt_pure ?_)
    rw [bodyText_singleton, Stmt.text]
    rfl
  | doWhile _ body condition =>
    refine .line_bind ((rendersAt_block h false [] (bodyOf body)).bind fun _ => ?_)
    refine (hexpr condition).bind fun _ => .line_bind (rendersAt_pure ?_)
    rw [bodyText_singleton, Stmt.text]
  | branch _ condition yes no =>
    refine (hexpr condition).bind fun _ => .line_bind ?_
    refine (rendersAt_block h false [] (bodyOf yes)).bind fun _ => ?_
    cases no with
    | none =>
      refine .pure_bind (.line_bind (rendersAt_pure ?_))
      rw [bodyText_singleton, Stmt.text, String.append_empty]
    | some no =>
      refine .line_bind ((rendersAt_block h false [] (bodyOf no)).bind fun _ => ?_)
      refine .pure_bind (.line_bind (rendersAt_pure ?_))
      rw [bodyText_singleton, Stmt.text]
  | params | param | type => exact rendersAt_fail
  | str | num | ident | unary | binary | function | call | cast | choice | member => exact hvalue

end Bodies

theorem matching (docs : Bool) (room : Nat) :
    Matching (Script.writer docs room) (builder docs room) := by
  induction room with
  | zero => exact ⟨fun _ _ => rendersAt_fail, fun _ _ => rendersAt_fail⟩
  | succ room ih =>
    constructor
    · intro i n
      exact RendersAt.nested fun s hs => rendersAt_stmtBody docs ih n s.countStatement hs
    · intro i n
      exact RendersAt.nested fun s hs => rendersAt_exprBody ih n s.countExpression hs

theorem rendersAt_program (docs : Bool) (n : Node) :
    RendersAt 0 (Block.text 0) (Script.program docs n) (program docs n) := by
  have hmatching := matching docs Limits.emitDepth
  have hget : RendersAt 0 id (get : Emit Emitting) get := fun _ hs => ⟨rfl, hs⟩
  have hhoist : ∀ body, RendersAt 0 (Block.text 0)
      (do
        let s ← get
        match s.scopes.getLast? with
        | some scope => pure (hoistLine 0 scope.hoisted ++ bodyText 0 body)
        | none => pure (bodyText 0 body))
      (close body) := by
    intro body
    refine hget.bind fun s => ?_
    dsimp only [id]
    cases s.scopes.getLast? with
    | none => exact rendersAt_pure (by rw [Block.text]; simp [hoistedText])
    | some scope => exact rendersAt_pure (by rw [Block.text, hoistLine_eq])
  cases n with
  | program _ forms => exact (rendersAt_statements (hmatching.stmt 0) forms).bind hhoist
  | _ => exact (hmatching.stmt 0 _).bind hhoist

end ScriptTree

/-- What stands in front of a script. -/
def ScriptOptions.front (options : ScriptOptions) : String :=
  if options.includePrelude then prelude else ""

/-- **Writing is building and then rendering.** -/
theorem writeScript_eq (options : ScriptOptions) (n : Node) :
    writeScript options n = match ScriptTree.ofNode options n with
      | .ok code s => .ok (options.front ++ code.text 0) s
      | .error e s => .error e s := by
  have h := ScriptTree.rendersAt_program options.docComments n
    { scopes := [{ isFunction := true }] } rfl
  unfold writeScript ScriptTree.ofNode ScriptOptions.front
  split at h
  · rename_i heq
    rw [heq, h.1]
    cases options.includePrelude <;> simp
  · rename_i heq
    rw [heq, h]

/-- A script that is written has a tree. -/
theorem exists_tree_of_writeScript {options : ScriptOptions} {n : Node} {text : String}
    {s : Emitting} (h : writeScript options n = .ok text s) :
    ∃ code, ScriptTree.ofNode options n = .ok code s ∧ text = options.front ++ code.text 0 := by
  rw [writeScript_eq] at h
  split at h
  · rename_i code s' heq
    cases h
    exact ⟨code, heq, rfl⟩
  · cases h

end FormScript
