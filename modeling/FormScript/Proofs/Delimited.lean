import FormScript.Proofs.Brackets
import FormScript.Proofs.Scoping

/-!
# What is written holds together

The writer puts expressions into lines and into one another without a thought for what binds more
tightly. That is sound since the text of every expression is self-delimiting. Here the writer is
followed through all its steps (`Script.Yields`): expressions come out self-delimiting and
statements balanced, if all names are words, which they are in every tree that is parsed.

The declaration of hoisted names is written when the block around it ends, so names are carried in
the state until then. What is known of the state is that the names hoisted in the innermost scopes
are fit to be written, for as many scopes as one likes to look at. An expression may therefore be
written in any state whatever.
-/

namespace FormScript

open Bracketing

namespace Script

/-! ## Texts with holes -/

section Templates

variable {name value left right : String}

theorem selfDelimiting_unary (op : UnaryOp) (h : SelfDelimiting value) :
    SelfDelimiting s!"({op.scriptText}{value})" := by
  have hop : Balanced op.scriptText := by cases op <;> decide
  have hinner := (hop.append h.balanced).parens
  rw [← String.append_assoc] at hinner
  exact hinner

theorem selfDelimiting_binary (op : BinaryOp) (h : SelfDelimiting left)
    (h' : SelfDelimiting right) : SelfDelimiting (binary op left right) := by
  -- With blanks around it, the slash of a division begins no comment.
  have hop : Balanced (" " ++ op.scriptText ++ " ") := by cases op <;> decide
  have hcomma : Balanced ", " := by decide
  unfold binary
  split
  · have hargs : Balanced (left ++ ", " ++ right) :=
      (h.balanced.append hcomma).append h'.balanced
    have hinner : SelfDelimiting ("Math.pow(" ++ (left ++ ", " ++ right) ++ ")") :=
      hargs.between (c := ')') (d := []) (by decide) (by decide)
    simp only [← String.append_assoc] at hinner
    exact hinner
  · have hinner := ((h.balanced.append hop).append h'.balanced).parens
    simp only [← String.append_assoc] at hinner
    exact hinner

theorem selfDelimiting_choice (h : SelfDelimiting value) (hleft : SelfDelimiting left)
    (hright : SelfDelimiting right) : SelfDelimiting s!"({value} ? {left} : {right})" := by
  have hquestion : Balanced (value ++ " ? ") := h.balanced.append (by decide)
  have hcolon : Balanced (left ++ " : ") := hleft.balanced.append (by decide)
  have hinner := ((hquestion.append hcolon).append hright.balanced).parens
  simp only [← String.append_assoc] at hinner
  exact hinner

/-- Arguments in parentheses may be put behind anything that holds together. -/
theorem selfDelimiting_call {args : List String} (h : SelfDelimiting value)
    (hargs : ∀ arg ∈ args, SelfDelimiting arg) :
    SelfDelimiting (value ++ "(" ++ Json.commaJoin ", " args ++ ")") := by
  have hjoined : Balanced (Json.commaJoin ", " args) :=
    .commaJoin fun arg harg => (hargs arg harg).balanced
  have hcall := h.append hjoined.parens
  simp only [← String.append_assoc] at hcall
  exact hcall

theorem selfDelimiting_castText (target : String) (h : SelfDelimiting value) :
    SelfDelimiting (castText target value) := by
  unfold castText
  split
  · exact h.balanced.between (c := ')') (d := [')']) (by decide) (by decide)
  split
  · exact h.balanced.between (c := ')') (d := []) (by decide) (by decide)
  split
  · exact h.balanced.between (c := ')') (d := []) (by decide) (by decide)
  split
  · exact h.balanced.between (c := ')') (d := []) (by decide) (by decide)
  · exact h.balanced.parens

/-- The body of a function stands in two kinds of brackets. -/
theorem selfDelimiting_function {names : List String} (h : ∀ name ∈ names, SelfDelimiting name)
    {body : String} (hbody : Balanced body) (indent : Nat) :
    SelfDelimiting ("((" ++ Json.commaJoin ", " names ++ ") => \x7b\n" ++ body ++ margin indent
      ++ "\x7d)") := by
  have hnames : Balanced (Json.commaJoin ", " names) :=
    .commaJoin fun name hname => (h name hname).balanced
  have hhead : Leads isJoint {} ("((" ++ Json.commaJoin ", " names ++ ") => \x7b\n")
      ⟨.code, ['\x7d', ')']⟩ :=
    hnames.between (c := ')') (d := [')']) (by decide) (by decide)
  have hmargin : Balanced (margin indent) := shifts_margin indent []
  have hclose : Leads isJoint ⟨.code, ['\x7d', ')']⟩ "\x7d)" {} := by decide
  exact ((hhead.append hbody.inside).append hmargin.inside).append hclose

/-- A name given a value, on a line of its own or in the head of a loop. -/
theorem balanced_assign (hname : SelfDelimiting name) (hvalue : SelfDelimiting value) :
    Balanced (name ++ " = " ++ value) := by
  have heq : Balanced " = " := by decide
  exact (hname.balanced.append heq).append hvalue.balanced

/-! Lines that open or close a block. -/

theorem shifts_forHead (hname : SelfDelimiting name) (hleft : SelfDelimiting left)
    (hright : SelfDelimiting right) :
    Shifts []
      s!"for (let {name} = {left}; {name} < {right}; {name}++) \x7b" ['\x7d'] := by
  have hcondition : Balanced (name ++ " < " ++ right) :=
    (hname.balanced.append (by decide)).append hright.balanced
  have hstart : Balanced (name ++ " = " ++ left ++ "; ") :=
    (balanced_assign hname hleft).append (by decide)
  have hinner := ((hstart.append hcondition).append (by decide : Balanced "; ")).append
    hname.balanced
  have hhead : Shifts [] ("for (let " ++ (name ++ " = " ++ left ++ "; "
      ++ (name ++ " < " ++ right) ++ "; " ++ name) ++ "++) \x7b") ['\x7d'] :=
    hinner.between (c := ')') (d := []) (by decide) (by decide)
  simp only [← String.append_assoc] at hhead
  exact hhead

theorem shifts_ifHead (h : SelfDelimiting value) :
    Shifts [] s!"if ({value}) \x7b" ['\x7d'] :=
  h.balanced.between (c := ')') (d := []) (by decide) (by decide)

theorem shifts_whileTail (h : SelfDelimiting value) :
    Shifts ['\x7d'] s!"\x7d while ({value});" [] :=
  h.balanced.between (c := ')') (d := []) (by decide) (by decide)

end Templates

/-! ## Steps -/

/-- The names hoisted in the innermost scopes, so many of them, are fit to be written. -/
def Tidy (k : Nat) (s : Emitting) : Prop :=
  ∀ scope ∈ s.scopes.take k, ∀ name ∈ scope.hoisted, SelfDelimiting name

/-- From a tidy state, a step that succeeds has a value of this kind and leaves a tidy state. -/
def Yields {α : Type} (k : Nat) (Q : α → Prop) (p : Emit α) : Prop :=
  ∀ s, Tidy k s →
    match p s with
    | .ok a s' => Q a ∧ Tidy k s'
    | .error .. => True

section Steps

variable {α β : Type} {k : Nat} {Q : α → Prop} {R : β → Prop}

theorem Yields.bind {p : Emit α} {f : α → Emit β} (hp : Yields k Q p)
    (hf : ∀ a, Q a → Yields k R (f a)) : Yields k R (p >>= f) := by
  intro s hs
  have h := hp s hs
  change match EStateM.bind p f s with
    | .ok a s' => R a ∧ Tidy k s'
    | .error .. => True
  unfold EStateM.bind
  split at h
  · rename_i a s' hrun
    rw [hrun]
    exact hf a h.1 s' h.2
  · rename_i hrun
    rw [hrun]
    trivial

theorem yields_pure {a : α} (h : Q a) : Yields k Q (pure a) := fun _ hs => ⟨h, hs⟩

theorem yields_fail {cause : EmitCause} {span : Span} : Yields k Q (fail cause span) :=
  fun _ _ => trivial

theorem yields_modify {count : Emitting → Emitting} (h : ∀ s, (count s).scopes = s.scopes) :
    Yields k (fun _ => True) (modify count : Emit Unit) := by
  intro s hs
  refine ⟨trivial, ?_⟩
  unfold Tidy
  rw [h]
  exact hs

/-- A line leads where its text leads. -/
theorem yields_line {text : String} {closers closers' : List Char}
    (h : Shifts closers text closers') :
    Yields k (fun out => Shifts closers out closers') (line text) :=
  fun _ hs => ⟨h.lineAt, hs⟩

theorem yields_balanced_line {text : String} (h : Balanced text) : Yields k Balanced (line text) :=
  yields_line h

theorem Yields.nested {p : Emit α} (h : Yields k Q p) : Yields k Q (nested p) := by
  intro s hs
  have hinner := h { s with
    depth := s.depth + 1
    tally := { s.tally with deepest := max s.tally.deepest (s.depth + 1) } } hs
  unfold Script.nested
  dsimp only
  split at hinner
  · rename_i hrun
    rw [hrun]
    exact hinner
  · rename_i hrun
    rw [hrun]
    trivial

/-- A block begins with nothing hoisted, and what is hoisted in it is declared in front. -/
theorem Yields.inScope {p : Emit String} (h : Yields (k + 1) Balanced p) (isFunction : Bool)
    (bound : List String) : Yields k Balanced (inScope isFunction bound p) := by
  intro s hs
  have hopened : Tidy (k + 1) { s with
      scopes := bound.foldl Scope.declare { isFunction } :: s.scopes
      indent := s.indent + 1 } := by
    unfold Tidy
    rw [List.take_succ_cons, List.forall_mem_cons, opened_hoisted]
    exact ⟨List.forall_mem_nil _, hs⟩
  have hinner := h _ hopened
  unfold Script.inScope
  dsimp only
  split at hinner
  · rename_i out s' hrun
    rw [hrun]
    obtain ⟨hout, htidy⟩ := hinner
    unfold Tidy at htidy
    dsimp only
    -- The scope is closed now, and its names are written in front of the statements.
    cases hscopes : s'.scopes with
    | nil => exact ⟨(balanced_hoistLine (List.forall_mem_nil _)).append hout, by simp [Tidy]⟩
    | cons scope outer =>
      rw [hscopes, List.take_succ_cons, List.forall_mem_cons] at htidy
      exact ⟨(balanced_hoistLine htidy.1).append hout, htidy.2⟩
  · rename_i hrun
    rw [hrun]
    trivial

end Steps

/-! ## Names -/

section Names

variable {k : Nat} {name value : String} {s : Emitting}

theorem Tidy.declare (h : Tidy k s) (name : String) : Tidy k (s.declare name) := by
  unfold Emitting.declare
  split
  · exact h
  · rename_i scope outer hscopes
    unfold Tidy at h ⊢
    cases k with
    | zero => simp
    | succ k =>
      rw [hscopes, List.take_succ_cons, List.forall_mem_cons] at h
      rw [List.take_succ_cons, List.forall_mem_cons, Scope.declare_hoisted]
      exact h

theorem Tidy.hoist (h : Tidy k s) (hname : SelfDelimiting name) : Tidy k (s.hoist name) := by
  unfold Tidy Emitting.hoist at *
  dsimp only
  generalize s.scopes = scopes at h ⊢
  induction scopes generalizing k with
  | nil => exact h
  | cons scope outer ih =>
    cases k with
    | zero => simp
    | succ k =>
      rw [List.take_succ_cons, List.forall_mem_cons] at h
      rw [hoistIn]
      split
      · rw [List.take_succ_cons, List.forall_mem_cons]
        refine ⟨?_, h.2⟩
        unfold Scope.hoist
        exact List.forall_mem_append.mpr ⟨h.1, by simpa using hname⟩
      · rw [List.take_succ_cons, List.forall_mem_cons]
        exact ⟨h.1, ih h.2⟩

theorem yields_bindingName {n : Node} (h : n.Everywhere Node.Worded) :
    Yields k SelfDelimiting (bindingName n) := by
  cases n with
  | ident m name =>
    have hword : IsName name := h.here.named
    exact yields_pure (selfDelimiting_of_isWord hword.1)
  | _ => exact yields_fail

theorem yields_paramNames {ns : List Node} (h : ∀ n ∈ ns, n.Everywhere Node.Worded) :
    Yields k (fun names => ∀ name ∈ names, SelfDelimiting name) (paramNames ns) := by
  fun_induction paramNames ns with
  | case1 => exact yields_pure (List.forall_mem_nil _)
  | case2 m name rest ih =>
    rw [List.forall_mem_cons] at h
    have hname : name.Everywhere Node.Worded := h.1.below name (by simp [Node.children])
    refine (yields_bindingName hname).bind fun first hfirst => ?_
    refine (ih h.2).bind fun others hothers => yields_pure ?_
    exact List.forall_mem_cons.mpr ⟨hfirst, hothers⟩
  | case3 => exact yields_fail

theorem yields_identifier (h : IsWord name.toList) :
    Yields k SelfDelimiting (identifier name) := by
  intro s hs
  have hname : SelfDelimiting (if s.isBound name then name else (builtin? name).getD name) := by
    split
    · exact selfDelimiting_of_isWord h
    · exact selfDelimiting_builtin h
  exact ⟨hname, hs⟩

theorem yields_assign (hname : SelfDelimiting name) (hvalue : SelfDelimiting value) :
    Yields k Balanced (line s!"{name} = {value};") := by
  have hend : Balanced ";" := by decide
  exact yields_balanced_line ((balanced_assign hname hvalue).append hend)

theorem yields_let (hname : SelfDelimiting name) (hvalue : SelfDelimiting value) :
    Yields k Balanced (line s!"let {name} = {value};") := by
  have hlet : Balanced "let " := by decide
  have hend : Balanced ";" := by decide
  have hline := (hlet.append (balanced_assign hname hvalue)).append hend
  simp only [← String.append_assoc] at hline
  exact yields_balanced_line hline

theorem yields_declaration (hname : SelfDelimiting name) (hvalue : SelfDelimiting value) :
    Yields k Balanced (declaration name value) := by
  intro s hs
  unfold declaration
  cases s.isDeclaredHere name with
  | true => exact yields_assign hname hvalue s.countRebinding hs
  | false => exact yields_let hname hvalue (s.declare name).countBinding (hs.declare name)

theorem yields_assignment (hname : SelfDelimiting name) (hvalue : SelfDelimiting value) :
    Yields k Balanced (assignment name value) := by
  intro s hs
  unfold assignment
  cases s.isBound name with
  | true => exact yields_assign hname hvalue s.countRebinding hs
  | false =>
    cases s.inFunctionScope with
    | true => exact yields_let hname hvalue (s.declare name).countBinding (hs.declare name)
    | false => exact yields_assign hname hvalue (s.hoist name).countBinding (hs.hoist hname)

end Names

/-! ## Nodes -/

section Lists

variable {k : Nat} {write : Node → Emit String} {ns : List Node}

theorem yields_sequence (h : ∀ n ∈ ns, Yields k Balanced (write n)) {out : String}
    (hout : Balanced out) : Yields k Balanced (sequence write ns out) := by
  induction ns generalizing out with
  | nil => exact yields_pure hout
  | cons n ns ih =>
    rw [List.forall_mem_cons] at h
    exact h.1.bind fun text htext => ih h.2 (hout.append htext)

theorem yields_each (h : ∀ n ∈ ns, Yields k SelfDelimiting (write n)) {done : List String}
    (hdone : ∀ text ∈ done, SelfDelimiting text) :
    Yields k (fun texts => ∀ text ∈ texts, SelfDelimiting text) (each write ns done) := by
  induction ns generalizing done with
  | nil => exact yields_pure fun text htext => hdone text (List.mem_reverse.mp htext)
  | cons n ns ih =>
    rw [List.forall_mem_cons] at h
    exact h.1.bind fun text htext => ih h.2 (List.forall_mem_cons.mpr ⟨htext, hdone⟩)

end Lists

/-- In a tree in which all names are words, expressions are written to hold together, and the
brackets of statements match. -/
structure Delimits (w : Writer) : Prop where
  stmt : ∀ (k : Nat) {n : Node}, n.Everywhere Node.Worded → Yields k Balanced (w.stmt n)
  expr : ∀ (k : Nat) {n : Node}, n.Everywhere Node.Worded → Yields k SelfDelimiting (w.expr n)

section Bodies

variable {w : Writer} {k : Nat} {n : Node}

theorem Delimits.block (h : Delimits w) (isFunction : Bool) (bound : List String) {ns : List Node}
    (hns : ∀ n ∈ ns, n.Everywhere Node.Worded) :
    Yields k Balanced (block w isFunction bound ns) :=
  (yields_sequence (fun n hn => h.stmt (k + 1) (hns n hn)) balanced_empty).inScope isFunction bound

theorem worded_bodyOf (h : n.Everywhere Node.Worded) :
    ∀ c ∈ bodyOf n, c.Everywhere Node.Worded := by
  unfold bodyOf
  split
  · exact h.below
  · exact List.forall_mem_singleton.mpr h

theorem Delimits.function (h : Delimits w) {params : Node} {body : List Node}
    (hparams : params.Everywhere Node.Worded) (hbody : ∀ n ∈ body, n.Everywhere Node.Worded) :
    Yields k SelfDelimiting (function w params body) := by
  cases params with
  | params m ps =>
    refine (yields_paramNames hparams.below).bind fun names hnames => ?_
    refine (h.block true names hbody).bind fun text htext => ?_
    exact fun s hs => ⟨selfDelimiting_function hnames htext s.indent, hs⟩
  | _ => exact yields_fail

/-- Expressions hold together. Each form is one text with holes. -/
theorem Delimits.exprBody (h : Delimits w) (hn : n.Everywhere Node.Worded) :
    Yields k SelfDelimiting (exprBody w n) := by
  have hbelow := hn.below
  have hexpr : ∀ c ∈ n.children, Yields k SelfDelimiting (w.expr c) :=
    fun c hc => h.expr k (hbelow c hc)
  cases n with
  | str m value => exact yields_pure (selfDelimiting_quote value)
  | num m value text => exact yields_pure (selfDelimiting_numberText value)
  | ident m name =>
    have hword : IsName name := hn.here.named
    exact yields_identifier hword.1
  | unary m op a =>
    refine (hexpr a (by simp [Node.children])).bind fun _ ha => yields_pure ?_
    exact selfDelimiting_unary op ha
  | binary m op a b =>
    refine (hexpr a (by simp [Node.children])).bind fun _ ha => ?_
    refine (hexpr b (by simp [Node.children])).bind fun _ hb => yields_pure ?_
    exact selfDelimiting_binary op ha hb
  | function m params body =>
    refine h.function (hbelow params (by simp [Node.children])) fun c hc => ?_
    exact hbelow c (by simp [Node.children, hc])
  | call m a args =>
    refine (hexpr a (by simp [Node.children])).bind fun _ ha => ?_
    have hargs : ∀ c ∈ args, Yields k SelfDelimiting (w.expr c) :=
      fun c hc => hexpr c (by simp [Node.children, hc])
    refine (yields_each hargs (List.forall_mem_nil _)).bind fun _ hargs => yields_pure ?_
    exact selfDelimiting_call ha hargs
  | cast m a b =>
    refine (hexpr a (by simp [Node.children])).bind fun _ ha => yields_pure ?_
    exact selfDelimiting_castText _ ha
  | branch m a b no =>
    refine (hexpr a (by cases no <;> simp [Node.children])).bind fun _ ha => ?_
    refine (hexpr b (by cases no <;> simp [Node.children])).bind fun _ hb => ?_
    cases no with
    | none =>
      have hundefined : SelfDelimiting "undefined" := by decide
      exact yields_pure (selfDelimiting_choice ha hb hundefined)
    | some c =>
      refine (hexpr c (by simp [Node.children])).bind fun _ hc => yields_pure ?_
      exact selfDelimiting_choice ha hb hc
  | choice m a b c =>
    refine (hexpr a (by simp [Node.children])).bind fun _ ha => ?_
    refine (hexpr b (by simp [Node.children])).bind fun _ hb => ?_
    refine (hexpr c (by simp [Node.children])).bind fun _ hc => yields_pure ?_
    exact selfDelimiting_choice ha hb hc
  | member m a b =>
    have hdot : SelfDelimiting "." := by decide
    refine (hexpr a (by simp [Node.children])).bind fun _ ha => yields_pure ?_
    refine (ha.append hdot).append ?_
    -- A property without a name would leave the dot at the end, which does no harm here.
    cases b with
    | ident m name =>
      have hword : IsName name := (hbelow (.ident m name) (by simp [Node.children])).here.named
      exact selfDelimiting_of_isWord hword.1
    | _ => exact (rfl : SelfDelimiting "")
  | params | param | type => exact yields_fail
  | program | doc | declare | assign | increment | doWhile | result | forLess | block =>
    exact yields_fail

theorem Delimits.body (h : Delimits w) (hn : n.Everywhere Node.Worded) :
    Yields k Balanced (Script.block w false [] (bodyOf n)) :=
  h.block false [] (worded_bodyOf hn)

/-- Statements are lines in which all brackets match. The lines of a block match as a whole. -/
theorem Delimits.stmtBody (h : Delimits w) (docs : Bool) (hn : n.Everywhere Node.Worded) :
    Yields k Balanced (stmtBody docs w n) := by
  have hbelow := hn.below
  have hexpr : ∀ c ∈ n.children, Yields k SelfDelimiting (w.expr c) :=
    fun c hc => h.expr k (hbelow c hc)
  have hend : Balanced ";" := by decide
  have hvalue : Yields k Balanced (do let text ← w.expr n; line s!"{text};") :=
    (h.expr k hn).bind fun text htext => yields_balanced_line (htext.balanced.append hend)
  have hclosing : Yields k (fun out => Shifts ['\x7d'] out []) (line "\x7d") :=
    yields_line (by decide)
  cases n with
  | program m ns | block m ns =>
    exact yields_sequence (fun c hc => h.stmt k (hbelow c hc)) balanced_empty
  | doc m a =>
    intro s hs
    cases docs with
    | false => exact ⟨balanced_empty, hs⟩
    | true =>
      cases a with
      | str m value => exact ⟨balanced_docLines s.indent value, hs⟩
      | _ => exact ⟨balanced_empty, hs⟩
  | declare m a b =>
    refine (hexpr b (by simp [Node.children])).bind fun value hvalue => ?_
    refine (yields_bindingName (hbelow a (by simp [Node.children]))).bind fun name hname => ?_
    exact yields_declaration hname hvalue
  | assign m a b =>
    refine (hexpr b (by simp [Node.children])).bind fun value hvalue => ?_
    refine (yields_bindingName (hbelow a (by simp [Node.children]))).bind fun name hname => ?_
    exact yields_assignment hname hvalue
  | increment m a =>
    have hmore : Balanced " += 1;" := by decide
    refine (yields_bindingName (hbelow a (by simp [Node.children]))).bind fun name hname => ?_
    exact yields_balanced_line (hname.balanced.append hmore)
  | result m a =>
    have hreturn : Balanced "return " := by decide
    refine (hexpr a (by simp [Node.children])).bind fun value hvalue => ?_
    exact yields_balanced_line ((hreturn.append hvalue.balanced).append hend)
  | forLess m a b c body =>
    refine (yields_bindingName (hbelow a (by simp [Node.children]))).bind fun name hname => ?_
    refine (hexpr b (by simp [Node.children])).bind fun start hstart => ?_
    refine (hexpr c (by simp [Node.children])).bind fun stop hstop => ?_
    refine (yields_line (shifts_forHead hname hstart hstop)).bind fun opening hopen => ?_
    have hbody : ∀ d ∈ body, d.Everywhere Node.Worded :=
      fun d hd => hbelow d (by simp [Node.children, hd])
    refine (h.block false [name] hbody).bind fun text htext => ?_
    refine hclosing.bind fun closing hclose => yields_pure ?_
    exact htext.between hopen hclose
  | doWhile m a b =>
    have hdo : Shifts [] "do \x7b" ['\x7d'] := by decide
    refine (yields_line hdo).bind fun opening hopen => ?_
    refine (h.body (hbelow a (by simp [Node.children]))).bind fun text htext => ?_
    refine (hexpr b (by simp [Node.children])).bind fun value hvalue => ?_
    refine (yields_line (shifts_whileTail hvalue)).bind fun closing hclose => yields_pure ?_
    exact htext.between hopen hclose
  | branch m a b no =>
    refine (hexpr a (by cases no <;> simp [Node.children])).bind fun value hvalue => ?_
    refine (yields_line (shifts_ifHead hvalue)).bind fun opening hopen => ?_
    refine (h.body (hbelow b (by cases no <;> simp [Node.children]))).bind fun yes hyes => ?_
    have hthen := hopen.append hyes.inside
    cases no with
    | none =>
      refine hclosing.bind fun closing hclose => yields_pure ?_
      rw [String.append_empty]
      exact hthen.append hclose
    | some c =>
      have hline : Shifts ['\x7d'] "\x7d else \x7b" ['\x7d'] := by decide
      refine (yields_line hline).bind fun between hbetween => ?_
      refine (h.body (hbelow c (by simp [Node.children]))).bind fun no hno => ?_
      refine hclosing.bind fun closing hclose => yields_pure ?_
      exact (hthen.append (hbetween.append hno.inside)).append hclose
  | params | param | type => exact yields_fail
  | str | num | ident | unary | binary | function | call | cast | choice | member => exact hvalue

end Bodies

/-- **The writer delimits what it writes**, with whatever room there is. -/
theorem delimits_writer (docs : Bool) (room : Nat) : Delimits (writer docs room) := by
  induction room with
  | zero => exact ⟨fun _ _ _ => yields_fail, fun _ _ _ => yields_fail⟩
  | succ room ih =>
    constructor
    · intro k n hn
      have hcount := @yields_modify k Emitting.countStatement fun _ => rfl
      exact (hcount.bind fun _ _ => ih.stmtBody docs hn).nested
    · intro k n hn
      have hcount := @yields_modify k Emitting.countExpression fun _ => rfl
      exact (hcount.bind fun _ _ => ih.exprBody hn).nested

end Script

theorem tidy_start (k : Nat) : Script.Tidy k { scopes := [{ isFunction := true }] } := by
  intro scope hscope name hname
  have hmem : scope = { isFunction := true } := List.mem_singleton.mp (List.mem_of_mem_take hscope)
  subst hmem
  cases hname

/-- A script is balanced, with the declarations that were hoisted to its start. -/
theorem balanced_program {docs : Bool} {mark : Mark} {forms : List Node}
    (h : ∀ n ∈ forms, n.Everywhere Node.Worded) {text : String} {s : Emitting}
    (hprogram : Script.program docs (.program mark forms) { scopes := [{ isFunction := true }] }
      = .ok text s) : Balanced text := by
  have hwriter := Script.delimits_writer docs Limits.emitDepth
  have hforms := fun k => Script.yields_sequence (fun n hn => hwriter.stmt k (h n hn))
    balanced_empty _ (tidy_start k)
  unfold Script.program at hprogram
  change EStateM.bind (Script.sequence _ forms "") _ _ = _ at hprogram
  unfold EStateM.bind at hprogram
  split at hprogram
  · rename_i out s' hrun
    rw [hrun] at hforms
    dsimp only [bind, EStateM.bind, get, getThe, MonadStateOf.get, EStateM.get] at hprogram
    cases hlast : s'.scopes.getLast? with
    | none =>
      rw [hlast] at hprogram
      cases hprogram
      exact (hforms 0).1
    | some scope =>
      rw [hlast] at hprogram
      cases hprogram
      -- The state is tidy as far as one looks, so the outermost scope is as well.
      have htidy := (hforms s.scopes.length).2
      unfold Script.Tidy at htidy
      rw [List.take_length] at htidy
      have hhoisted := htidy scope (List.mem_of_getLast? hlast)
      exact (balanced_hoistLine hhoisted).append (hforms 0).1
  · cases hprogram

/-- **Expressions hold together and programs are balanced.** Of a source that compiles, every node
that has a text as an expression has a self-delimiting one, in whatever state it is written, and all
brackets of the script are nested properly. -/
theorem compiled_text_delimited (p : Preferences) (source : List Char) (c : Compiled)
    (h : compile p source = .ok c) :
    (∀ n ∈ c.tree.preorder, ∀ (docs : Bool) (room : Nat) (s s' : Emitting) (text : String),
      (Script.writer docs room).expr n s = .ok text s' → SelfDelimiting text) ∧
    Balanced c.code := by
  obtain ⟨hscan, hparse, hwrite⟩ := compile_eq_ok_iff.mp h
  have hworded := parse_worded hscan hparse
  constructor
  · intro n hn docs room s s' text htext
    have hbelow : n.Everywhere Node.Worded := Node.Everywhere.of_mem hworded hn
    have hyields := (Script.delimits_writer docs room).expr 0 hbelow s (by simp [Script.Tidy])
    rw [htext] at hyields
    exact hyields.1
  · obtain ⟨span, forms, htree, -⟩ := parse_stems hscan hparse
    rw [htree] at hwrite hworded
    unfold writeScript at hwrite
    split at hwrite
    · rename_i body s hprogram
      have hbody := balanced_program (Node.Everywhere.below hworded) hprogram
      have hcode : c.code = if p.scriptOptions.includePrelude then prelude ++ body else body :=
        (EStateM.Result.ok.inj hwrite).1.symm
      rw [hcode]
      split
      · exact balanced_prelude.append hbody
      · exact hbody
    · cases hwrite

/-- A function that is called in a condition, with a comment that opens a bracket, and a string that
closes one. -/
def bracketingSource : List Char :=
  ("(if (== (call (fn (plist) (doc 'opens ( only') (return (/ n -2)))) 1) " ++
    "(let s '\x7d'))").toList

/-- The condition holds together over all its lines, and the script is balanced. -/
theorem bracketingSource_delimited : ∃ c n text s, compile {} bracketingSource = .ok c ∧
    n ∈ c.tree.preorder ∧ (Script.writer true 8).expr n {} = .ok text s ∧
    text = "((() => \x7b\n  // opens ( only\n  return (n / (-2));\n\x7d)() === 1)" ∧
    SelfDelimiting text ∧ Balanced c.code := by
  have hcheck : ((compile {} bracketingSource).toOption.any fun c => c.tree.children.any fun form =>
      form.children.any fun n => (EStateM.run' ((Script.writer true 8).expr n) {}).any fun text =>
        text == "((() => \x7b\n  // opens ( only\n  return (n / (-2));\n\x7d)() === 1)")
      = true := by
    decide +kernel
  cases hc : compile {} bracketingSource with
  | error e =>
    rw [hc] at hcheck
    cases hcheck
  | ok c =>
    rw [hc, Except.toOption, Option.any_some, List.any_eq_true] at hcheck
    obtain ⟨form, hform, hcheck⟩ := hcheck
    obtain ⟨n, hn, hcheck⟩ := List.any_eq_true.mp hcheck
    have hmem : n ∈ c.tree.preorder := by
      rw [Node.preorder_eq]
      refine List.mem_cons_of_mem _ (List.mem_flatMap.mpr ⟨form, hform, ?_⟩)
      rw [Node.preorder_eq]
      refine List.mem_cons_of_mem _ (List.mem_flatMap.mpr ⟨n, hn, ?_⟩)
      rw [Node.preorder_eq]
      exact List.mem_cons_self
    obtain ⟨hexprs, hcode⟩ := compiled_text_delimited {} bracketingSource c hc
    delta EStateM.run' EStateM.run at hcheck
    cases htext : (Script.writer true 8).expr n {} with
    | error e s =>
      rw [htext] at hcheck
      cases hcheck
    | ok text s =>
      rw [htext] at hcheck
      exact ⟨c, n, text, s, rfl, hmem, htext, eq_of_beq hcheck,
        hexprs n hmem true 8 {} s text htext, hcode⟩

end FormScript
