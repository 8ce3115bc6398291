import FormScript.Proofs.Refusal
import FormScript.Proofs.Wording

/-!
# What the writer makes up, and why it never does

Three constructs are written even if a part of theirs is not what it should be: a member access
without a name for the property gets an empty one, a conversion without a type gets an empty target,
and a comment without a text is skipped. A parsed tree gives no occasion for any of it. To say so of
the writer and not of the tree only, it is compared with a wary one, which stops at such a node with
whatever error it is told. On parsed trees the two agree, in the script as in every error, so no run
of the writer comes across such a node.

The comparison rests on what the writing of a node depends on: the nodes inside it, as listed by
`Node.inside`, and nothing else that two writers could differ in (`exprBody_congr`,
`stmtBody_congr`).
-/

namespace FormScript

/-- Whether something would have to be made up to write a node. -/
def Node.fallsBack : Node → Bool
  | member _ _ property => property.name?.isNone
  | cast _ _ target => target.tag != .type
  | doc _ text => text.tag != .str
  | _ => false

theorem Node.Shaped.fallsBack {n : Node} (h : n.Shaped) : n.fallsBack = false := by
  cases n with
  | member _ _ property =>
    cases property with
    | ident => rfl
    | unary _ op _ | binary _ op _ _ => cases op <;> cases h
    | _ => cases h
  | cast _ _ target => exact bne_eq_false_iff_eq.mpr h
  | doc _ text => exact bne_eq_false_iff_eq.mpr h
  | _ => rfl

namespace Script

/-! ## Writers that agree -/

section Congr

variable {α β : Type} {w w' : Writer} {n : Node}

/-- Steps in sequence that agree one by one. -/
theorem bind_eq {p p' : Emit α} {f f' : α → Emit β} (hp : p = p') (hf : ∀ a, f a = f' a) :
    p >>= f = p' >>= f' := by
  rw [hp, funext hf]

theorem sequence_congr {write write' : Node → Emit String} {ns : List Node}
    (h : ∀ n ∈ ns, write n = write' n) (out : String) :
    sequence write ns out = sequence write' ns out := by
  induction ns generalizing out with
  | nil => rfl
  | cons n ns ih =>
    refine bind_eq (h n List.mem_cons_self) fun text => ?_
    exact ih (fun m hm => h m (List.mem_cons_of_mem _ hm)) _

theorem each_congr {write write' : Node → Emit String} {ns : List Node}
    (h : ∀ n ∈ ns, write n = write' n) (done : List String) :
    each write ns done = each write' ns done := by
  induction ns generalizing done with
  | nil => rfl
  | cons n ns ih =>
    refine bind_eq (h n List.mem_cons_self) fun text => ?_
    exact ih (fun m hm => h m (List.mem_cons_of_mem _ hm)) _

theorem block_congr (isFunction : Bool) (bound : List String) {body : List Node}
    (h : ∀ c ∈ body, w.stmt c = w'.stmt c) :
    block w isFunction bound body = block w' isFunction bound body := by
  rw [block, block, sequence_congr h]

theorem function_congr (params : Node) {body : List Node} (h : ∀ c ∈ body, w.stmt c = w'.stmt c) :
    function w params body = function w' params body := by
  unfold function
  split
  · exact bind_eq rfl fun names => bind_eq (block_congr true names h) fun _ => rfl
  · rfl

/-- How an expression is written depends on how what is inside it is written. -/
theorem exprBody_congr (h : ∀ c ∈ n.inside .expression, w.write c.1 c.2 = w'.write c.1 c.2) :
    exprBody w n = exprBody w' n := by
  have hexpr : ∀ a, (.expression, a) ∈ n.inside .expression → w.expr a = w'.expr a :=
    fun a ha => h _ ha
  cases n with
  | unary _ op a | cast _ a _ | member _ a _ =>
    exact bind_eq (hexpr a (by simp [Node.inside, Node.operands])) fun _ => rfl
  | binary _ op a b =>
    refine bind_eq (hexpr a (by simp [Node.inside, Node.operands])) fun _ => ?_
    exact bind_eq (hexpr b (by simp [Node.inside, Node.operands])) fun _ => rfl
  | function _ params body =>
    refine function_congr params fun c hc => h (.statement, c) ?_
    simp [Node.inside, Node.operands, hc]
  | call _ callee args =>
    refine bind_eq (hexpr callee (by simp [Node.inside, Node.operands])) fun _ => ?_
    refine bind_eq (each_congr (fun c hc => hexpr c ?_) []) fun _ => rfl
    simp [Node.inside, Node.operands, hc]
  | branch _ a b d =>
    refine bind_eq (hexpr a (by simp [Node.inside])) fun _ => ?_
    refine bind_eq (hexpr b (by simp [Node.inside])) fun _ => ?_
    cases d with
    | none => rfl
    | some d => exact bind_eq (hexpr d (by simp [Node.inside])) fun _ => rfl
  | choice _ a b d =>
    refine bind_eq (hexpr a (by simp [Node.inside, Node.operands])) fun _ => ?_
    refine bind_eq (hexpr b (by simp [Node.inside, Node.operands])) fun _ => ?_
    exact bind_eq (hexpr d (by simp [Node.inside, Node.operands])) fun _ => rfl
  | _ => rfl

/-- How a statement is written depends on how what is inside it is written. -/
theorem stmtBody_congr (docs : Bool)
    (h : ∀ c ∈ n.inside .statement, w.write c.1 c.2 = w'.write c.1 c.2) :
    stmtBody docs w n = stmtBody docs w' n := by
  have hexpr : ∀ a, (.expression, a) ∈ n.inside .statement → w.expr a = w'.expr a :=
    fun a ha => h _ ha
  have hstmt : ∀ a, (.statement, a) ∈ n.inside .statement → w.stmt a = w'.stmt a :=
    fun a ha => h _ ha
  cases n with
  | program _ ns | block _ ns =>
    exact sequence_congr (fun c hc => hstmt c (by simp [Node.inside, hc])) ""
  | declare _ _ value | assign _ _ value | result _ value =>
    exact bind_eq (hexpr value (by simp [Node.inside])) fun _ => rfl
  | forLess _ _ start stop body =>
    refine bind_eq rfl fun v => ?_
    refine bind_eq (hexpr start (by simp [Node.inside])) fun _ => ?_
    refine bind_eq (hexpr stop (by simp [Node.inside])) fun _ => bind_eq rfl fun _ => ?_
    refine bind_eq (block_congr false [v] fun c hc => hstmt c ?_) fun _ => rfl
    simp [Node.inside, hc]
  | doWhile _ body condition =>
    refine bind_eq rfl fun _ => bind_eq (block_congr false [] fun c hc => hstmt c ?_) fun _ => ?_
    · simp [Node.inside, hc]
    · exact bind_eq (hexpr condition (by simp [Node.inside])) fun _ => rfl
  | branch _ condition yes no =>
    refine bind_eq (hexpr condition (by simp [Node.inside])) fun _ => bind_eq rfl fun _ => ?_
    refine bind_eq (block_congr false [] fun c hc => hstmt c ?_) fun _ => ?_
    · simp [Node.inside, hc]
    cases no with
    | none => rfl
    | some no =>
      refine bind_eq rfl fun _ => bind_eq (block_congr false [] fun c hc => hstmt c ?_) fun _ => rfl
      simp [Node.inside, hc]
  | doc | increment | params | param | type => rfl
  | str | num | ident | unary | binary | function | call | cast | choice | member =>
    exact bind_eq (hexpr _ (by simp [Node.inside])) fun _ => rfl

end Congr

/-! ## The wary writer -/

/-- A writer that stops with this error where something would have to be made up. -/
def Writer.wary (stop : EmitError) (w : Writer) : Writer where
  stmt n := if n.fallsBack then fail stop.cause stop.span else w.stmt n
  expr n := if n.fallsBack then fail stop.cause stop.span else w.expr n

/-- What the wary writer can write with room for so many levels. -/
def waryWriter (stop : EmitError) (docs : Bool) : (room : Nat) → Writer
  | 0 => .none
  | room + 1 => ((waryWriter stop docs room).above docs).wary stop

/-- The script of a program, as some writer writes it. -/
def scriptBy (w : Writer) (includePrelude : Bool) (n : Node) :
    EStateM.Result EmitError Emitting String :=
  let whole : Emit String := do
    let out ← match n with
      | .program _ forms => sequence w.stmt forms ""
      | n => w.stmt n
    let s ← get
    match s.scopes.getLast? with
    | some scope => pure (hoistLine 0 scope.hoisted ++ out)
    | none => pure out
  match whole { scopes := [{ isFunction := true }] } with
  | .ok body s => .ok (if includePrelude then prelude ++ body else body) s
  | .error e s => .error e s

theorem writeScript_eq_scriptBy (options : ScriptOptions) (n : Node) :
    writeScript options n
      = scriptBy (writer options.docComments Limits.emitDepth) options.includePrelude n := rfl

/-- Where nothing has to be made up, being wary makes no difference. -/
theorem waryWriter_write (stop : EmitError) (docs : Bool) (room : Nat) (role : Role) {n : Node}
    (h : n.Everywhere fun m => m.fallsBack = false) :
    (waryWriter stop docs room).write role n = (writer docs room).write role n := by
  induction room generalizing role n with
  | zero => rfl
  | succ room ih =>
    have hinside : ∀ c ∈ n.inside role,
        (waryWriter stop docs room).write c.1 c.2 = (writer docs room).write c.1 c.2 :=
      fun c hc => ih c.1 (h.inside hc)
    have habove : ∀ w : Writer, (w.wary stop).write role n = w.write role n := by
      intro w
      cases role <;> exact if_neg (by rw [h.here]; exact Bool.false_ne_true)
    refine (habove _).trans ?_
    cases role with
    | statement => exact congrArg nested (bind_eq rfl fun _ => stmtBody_congr docs hinside)
    | expression => exact congrArg nested (bind_eq rfl fun _ => exprBody_congr hinside)

end Script

/-! ## Parsed programs -/

section

variable {mark : Mark} {forms : List Node}

/-- The wary writer writes the script of a well-shaped program, and fails as the writer does. -/
theorem scriptBy_waryWriter (stop : EmitError) (options : ScriptOptions)
    (hshaped : (Node.program mark forms).Everywhere Node.Shaped) :
    Script.scriptBy (Script.waryWriter stop options.docComments Limits.emitDepth)
      options.includePrelude (.program mark forms) = writeScript options (.program mark forms) := by
  have hforms : ∀ n ∈ forms,
      (Script.waryWriter stop options.docComments Limits.emitDepth).stmt n
        = (Script.writer options.docComments Limits.emitDepth).stmt n := by
    intro n hn
    refine Script.waryWriter_write stop options.docComments Limits.emitDepth .statement ?_
    exact fun m hm => (hshaped.below n hn m hm).fallsBack
  rw [Script.writeScript_eq_scriptBy, Script.scriptBy, Script.scriptBy]
  simp only [Script.sequence_congr hforms]

/-- Only parameters and their lists are ever found astray. -/
theorem tag_of_unhandledNode (hregular : (Node.program mark forms).Everywhere Node.Regular)
    {options : ScriptOptions} {e : EmitError} {s : Emitting} {tag : Tag}
    (h : writeScript options (.program mark forms) = .error e s)
    (hcause : e.cause = .unhandledNode tag) : tag = .params ∨ tag = .param := by
  have hreports := writeScript_reports options mark forms
    fun n hn m hm => (hregular.below n hn m hm).shaped
  simp only [h] at hreports
  obtain ⟨v, hv, hrefusal⟩ := List.exists_of_findSome?_eq_some hreports
  have htype := (tag_ne_of_mem_programVisits hregular v hv).2
  unfold Visit.refusal? at hrefusal
  split at hrefusal
  · cases hrefusal
    cases hcause
  · split at hrefusal
    · rename_i hpart
      cases hrefusal
      cases hcause
      cases htag : v.node.tag <;> simp_all [Tag.isPart]
    · split at hrefusal
      · cases hrefusal
        cases hcause
      · cases hrefusal

end

/-- **Parsed trees have the shape that the writer counts on.** Whatever is parsed, all its slots
hold what belongs there, types stand in casts only and programs nowhere inside, names and
annotations are words and numbers are finite. So the writer never makes anything up: it agrees with
a wary one, whatever that one would say, and the only parts it finds astray are parameters and their
lists. -/
theorem parsed_program_suits_writer {source : List Char} {track : Bool} {stream : TokenStream}
    {tally : Tally} {tree : Node} {s : Parsing}
    (htokens : tokenize source track = .ok (stream, tally))
    (hparse : parseProgram stream = .ok tree s) :
    tree.tag = .program ∧ (tree.Everywhere fun n => n.Regular ∧ n.Worded) ∧
      ∀ options : ScriptOptions,
        (∀ stop, Script.scriptBy (Script.waryWriter stop options.docComments Limits.emitDepth)
          options.includePrelude tree = writeScript options tree) ∧
        ∀ e s' tag, writeScript options tree = .error e s' → e.cause = .unhandledNode tag →
          tag = .params ∨ tag = .param := by
  obtain ⟨scan, hscan, rfl, -⟩ := Scan.ofSource_of_tokenize htokens
  obtain ⟨mark, forms, rfl, hregular⟩ := parse_regular hscan hparse
  have hworded := parse_worded hscan hparse
  refine ⟨rfl, fun n hn => ⟨hregular n hn, hworded n hn⟩, fun options => ⟨fun stop => ?_, ?_⟩⟩
  · exact scriptBy_waryWriter stop options fun n hn => (hregular n hn).shaped
  · exact fun e s' tag => tag_of_unhandledNode hregular

/-- A comment, a conversion and a member access. -/
def slottedSource : List Char := "(doc 'sum') (let total (cast (. cart total) :int))".toList

/-- It is parsed, so its script is written without making anything up. -/
theorem slottedSource_suits_writer :
    ∃ stream tally tree s, tokenize slottedSource = .ok (stream, tally) ∧
      parseProgram stream = .ok tree s ∧ (tree.Everywhere fun n => n.Regular ∧ n.Worded) ∧
      ∀ stop, Script.scriptBy (Script.waryWriter stop true Limits.emitDepth) true tree
        = writeScript {} tree := by
  have hparses : ((tokenize slottedSource).toOption.bind
      fun r => EStateM.run' Parse.program { stream := r.1 }).isSome = true := by
    decide +kernel
  cases htokens : tokenize slottedSource with
  | error e =>
    rw [htokens] at hparses
    cases hparses
  | ok scanned =>
    obtain ⟨stream, tally⟩ := scanned
    rw [htokens] at hparses
    change (EStateM.run' Parse.program { stream }).isSome = true at hparses
    cases hparse : parseProgram stream with
    | error e s =>
      change Parse.program { stream } = _ at hparse
      delta EStateM.run' EStateM.run at hparses
      rw [hparse] at hparses
      cases hparses
    | ok tree s =>
      obtain ⟨-, hall, hscript⟩ := parsed_program_suits_writer htokens hparse
      exact ⟨stream, tally, tree, s, rfl, hparse, hall, (hscript {}).1⟩

end FormScript
