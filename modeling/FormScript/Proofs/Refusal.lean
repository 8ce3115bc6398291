import FormScript.Proofs.Regular

/-!
# Which trees cannot be written as scripts

Writing a tree visits its nodes in order, each as a statement or as an expression, and stops at the
first node that it refuses. The visits can be told from the tree alone: `Node.inside` is the table
of what is written inside a node, in which role and in which order, and `Node.visits` walks it,
counting how deep it goes. Names, parameter lists and types are not visited, and neither is a block
that is a branch or the body of a loop, whose statements stand for it.

A visited node is refused if it is too deep, if it is a part of another construct that has gone
astray, or if it is a statement where a value is needed (`Visit.refusal?`). **`Reports`** says of a
step of writing which refusal stops it, if any, and passes through sequencing; so the first refusal
among the visits is the error, and if there is none the writing succeeds.
-/

namespace FormScript

open Script (bodyOf)

/-! ## Visits -/

/-- How a node is written. -/
inductive Role where
  | statement
  | expression
deriving DecidableEq, Repr

/-- A node as it comes to be written: in which role, and at which depth. -/
structure Visit where
  node : Node
  role : Role
  depth : Nat

namespace Node

/-- What is written inside an expression. -/
def operands : Node → List (Role × Node)
  | unary _ _ a => [(.expression, a)]
  | binary _ _ a b => [(.expression, a), (.expression, b)]
  | function _ _ body => body.map (.statement, ·)
  | call _ callee args => (.expression, callee) :: args.map (.expression, ·)
  | cast _ value _ => [(.expression, value)]
  | choice _ a b c => [(.expression, a), (.expression, b), (.expression, c)]
  | member _ object _ => [(.expression, object)]
  | _ => []

/-- What is written inside a node, in the order of writing. An expression that stands as a statement
has itself inside, as an expression. -/
def inside (role : Role) : Node → List (Role × Node)
  | program _ ns | block _ ns => ns.map (.statement, ·)
  | declare _ _ value | assign _ _ value | result _ value => [(.expression, value)]
  | forLess _ _ start stop body =>
    (.expression, start) :: (.expression, stop) :: body.map (.statement, ·)
  | doWhile _ body condition => (bodyOf body).map (.statement, ·) ++ [(.expression, condition)]
  | branch _ condition yes no => (.expression, condition) :: match role with
    | .statement => (bodyOf yes ++ no.toList.flatMap bodyOf).map (.statement, ·)
    | .expression => (yes :: no.toList).map (.expression, ·)
  | doc .. | increment .. | params .. | param .. | type .. => []
  | n => match role with
    | .statement => [(.expression, n)]
    | .expression => n.operands

/-- The children of a node, the parameter list of a function and the type of a cast apart. -/
def forms : Node → List Node
  | function _ _ body => body
  | cast _ value _ => [value]
  | n => n.children

theorem mem_values_of_mem_forms {n c : Node} (h : c ∈ n.forms) : c ∈ n.values := by
  cases n with
  | function _ params body => exact List.mem_cons_of_mem _ h
  | _ => exact h

theorem mem_children_of_mem_forms {n c : Node} (h : c ∈ n.forms) : c ∈ n.children := by
  cases n with
  | function _ params body => exact List.mem_cons_of_mem _ h
  | cast _ value target => exact List.mem_of_mem_head? (List.mem_singleton.mp h ▸ rfl)
  | _ => exact h

theorem mem_forms_of_mem_operands {role : Role} {n c : Node} (h : (role, c) ∈ n.operands) :
    c ∈ n.forms := by
  cases n with
  | function _ _ ns | call _ _ ns =>
    simp only [operands, forms, children, List.mem_map, List.mem_cons, Prod.mk.injEq] at h ⊢
    grind
  | unary | binary | cast | choice | member =>
    simp only [operands, forms, children, List.mem_cons, Prod.mk.injEq, List.not_mem_nil] at h ⊢
    grind
  | _ => cases h

/-- What is inside a node is one of its forms, or a statement of a block that is, or the node itself
in its second role. -/
theorem of_mem_inside {role role' : Role} {n c : Node} (h : (role', c) ∈ n.inside role) :
    (c ∈ n.forms ∨ ∃ b ∈ n.forms, b.tag = .block ∧ c ∈ b.forms ∧ role' = .statement) ∨
      c = n ∧ role = .statement ∧ role' = .expression := by
  -- A block that is a branch or a loop's body is passed over, its statements come instead.
  have hbody : ∀ b ∈ n.forms, c ∈ bodyOf b → role' = .statement →
      c ∈ n.forms ∨ ∃ b ∈ n.forms, b.tag = .block ∧ c ∈ b.forms ∧ role' = .statement := by
    intro b hb hc hrole
    unfold Script.bodyOf at hc
    split at hc
    · exact .inr ⟨_, hb, rfl, hc, hrole⟩
    · rw [List.mem_singleton.mp hc]
      exact .inl hb
  cases n with
  | program | block | declare | assign | result | forLess =>
    left; left
    simp only [inside, forms, children, List.mem_map, List.mem_cons, Prod.mk.injEq,
      List.not_mem_nil] at h ⊢
    grind
  | doWhile _ body condition =>
    simp only [inside, List.mem_append, List.mem_map, List.mem_singleton, Prod.mk.injEq] at h
    rcases h with ⟨d, hd, hrole, rfl⟩ | ⟨-, rfl⟩
    · exact .inl (hbody body (by simp [forms, children]) hd hrole.symm)
    · exact .inl (.inl (by simp [forms, children]))
  | branch _ condition yes no =>
    rcases List.mem_cons.mp h with h | h
    · rw [(Prod.mk.inj h).2]
      exact .inl (.inl (by cases no <;> simp [forms, children]))
    cases role with
    | statement =>
      simp only [List.mem_map, List.mem_append, List.mem_flatMap, Prod.mk.injEq] at h
      obtain ⟨d, hd | ⟨b, hb, hd⟩, hrole, rfl⟩ := h
      · exact .inl (hbody yes (by cases no <;> simp [forms, children]) hd hrole.symm)
      · rw [Option.mem_toList] at hb
        subst hb
        exact .inl (hbody b (by simp [forms, children]) hd hrole.symm)
    | expression =>
      simp only [List.mem_map, List.mem_cons, Prod.mk.injEq] at h
      obtain ⟨d, hd, -, rfl⟩ := h
      left; left
      cases no with
      | none => simpa [forms, children] using Or.inr (by simpa using hd)
      | some b => simpa [forms, children] using Or.inr (by simpa using hd)
  | doc | increment | params | param | type => cases h
  | str | num | ident | unary | binary | function | call | cast | choice | member =>
    cases role with
    | statement =>
      rw [inside, List.mem_singleton, Prod.mk.injEq] at h
      · exact .inr ⟨h.2, rfl, h.1⟩
      all_goals nofun
    | expression =>
      rw [inside] at h
      · exact .inl (.inl (mem_forms_of_mem_operands h))
      all_goals nofun

theorem Everywhere.inside {P : Node → Prop} {role role' : Role} {n c : Node} (h : n.Everywhere P)
    (hc : (role', c) ∈ n.inside role) : c.Everywhere P := by
  rcases of_mem_inside hc with (hc | ⟨b, hb, -, hc, -⟩) | ⟨rfl, -, -⟩
  · exact h.below c (mem_children_of_mem_forms hc)
  · exact (h.below b (mem_children_of_mem_forms hb)).below c (mem_children_of_mem_forms hc)
  · exact h

/-- What gets smaller on the way in: the node, or else its role becomes that of an expression. -/
noncomputable def weight (role : Role) (n : Node) : Nat :=
  2 * sizeOf n + if role = .statement then 1 else 0

theorem weight_lt_of_mem_inside {role role' : Role} {n c : Node} (h : (role', c) ∈ n.inside role) :
    weight role' c < weight role n := by
  have hsmaller : sizeOf c < sizeOf n → weight role' c < weight role n := by
    intro hlt
    unfold weight
    split <;> omega
  have hform : ∀ {m d : Node}, d ∈ m.forms → sizeOf d < sizeOf m :=
    fun hd => sizeOf_lt_of_mem_children (mem_children_of_mem_forms hd)
  rcases of_mem_inside h with (hc | ⟨b, hb, -, hc, -⟩) | ⟨rfl, rfl, rfl⟩
  · exact hsmaller (hform hc)
  · exact hsmaller (Nat.lt_trans (hform hc) (hform hb))
  · simp [weight]

/-- The visits that writing a node in a role takes, from a depth on. -/
def visits (role : Role) (depth : Nat) (n : Node) : List Visit :=
  ⟨n, role, depth⟩ :: (n.inside role).attach.flatMap fun c => visits c.1.1 (depth + 1) c.1.2
termination_by n.weight role
decreasing_by exact weight_lt_of_mem_inside c.2

theorem visits_eq (role : Role) (depth : Nat) (n : Node) :
    n.visits role depth
      = ⟨n, role, depth⟩ :: (n.inside role).flatMap fun c => c.2.visits c.1 (depth + 1) := by
  rw [visits, List.flatMap_subtype (g := fun c => c.2.visits c.1 (depth + 1)) fun _ _ => rfl,
    List.unattach_attach]

/-- What holds of a node, and passes on to all that is inside, holds of every node visited. -/
theorem forall_visits {P : Node → Prop}
    (hinside : ∀ {role role' m c}, P m → (role', c) ∈ m.inside role → P c) {role : Role}
    {depth : Nat}
    {n : Node} (hn : P n) : ∀ v ∈ n.visits role depth, P v.node := by
  intro v hv
  rw [visits_eq] at hv
  rcases List.mem_cons.mp hv with rfl | hv
  · exact hn
  · obtain ⟨c, hc, hv⟩ := List.mem_flatMap.mp hv
    exact forall_visits hinside (hinside hn hc) v hv
termination_by n.weight role
decreasing_by exact weight_lt_of_mem_inside hc

theorem mem_visits_of_mem_inside {role role' : Role} {depth : Nat} {n c : Node} {v : Visit}
    (hc : (role', c) ∈ n.inside role) (hv : v ∈ c.visits role' (depth + 1)) :
    v ∈ n.visits role depth := by
  rw [visits_eq]
  exact List.mem_cons_of_mem _ (List.mem_flatMap.mpr ⟨_, hc, hv⟩)

end Node

/-- The visits that writing a program takes. -/
def programVisits (forms : List Node) : List Visit := forms.flatMap (·.visits .statement 1)

/-! ## Refusals -/

namespace Tag

/-- Parts of other constructs. -/
def isPart : Tag → Bool
  | params | param | type => true
  | _ => false

/-- Constructs without a value. -/
def isStatementOnly : Tag → Bool
  | program | doc | declare | assign | increment | doWhile | result | forLess | block => true
  | _ => false

end Tag

/-- Why a node is not written, if it is not: there is no room for it, or it is a part that has gone
astray, or it has no value where one is needed. -/
def Visit.refusal? (v : Visit) : Option EmitError :=
  if Limits.emitDepth < v.depth then some ⟨.tooDeep, v.node.span⟩
  else if v.node.tag.isPart then some ⟨.unhandledNode v.node.tag, v.node.span⟩
  else if v.role = .expression ∧ v.node.tag.isStatementOnly then
    some ⟨.statementInExpression v.node.tag, v.node.span⟩
  else none

theorem Visit.refusal?_eq_none_iff {v : Visit} :
    v.refusal? = none ↔ v.depth ≤ Limits.emitDepth ∧ v.node.tag.isPart = false ∧
      (v.role = .expression → v.node.tag.isStatementOnly = false) := by
  unfold refusal?
  split
  · simp; omega
  · split
    · simp_all
    · split <;> simp_all

namespace Script

variable {α β : Type}

/-- A step of writing succeeds, or stops with the error given, whatever was written before. -/
def Reports (p : Emit α) (error? : Option EmitError) : Prop :=
  ∀ s : Emitting,
    match p s with
    | .ok _ _ => error? = none
    | .error e _ => error? = some e

theorem Reports.bind {p : Emit α} {f : α → Emit β} {e e' : Option EmitError} (hp : Reports p e)
    (hf : ∀ a, Reports (f a) e') : Reports (p >>= f) (e.or e') := by
  intro s
  have h := hp s
  rw [show (p >>= f) s = EStateM.bind p f s from rfl, EStateM.bind]
  split at h
  · rename_i a s' heq
    rw [heq, h, Option.none_or]
    exact hf a s'
  · rename_i heq
    rw [heq, h]
    rfl

/-- A step that never fails does not change what is reported behind it. -/
theorem Reports.then {p : Emit α} {f : α → Emit β} {e : Option EmitError} (hp : Reports p none)
    (hf : ∀ a, Reports (f a) e) : Reports (p >>= f) e := by
  simpa using hp.bind hf

/-- A step that is followed by steps that never fail. -/
theorem Reports.before {p : Emit α} {f : α → Emit β} {e : Option EmitError} (hp : Reports p e)
    (hf : ∀ a, Reports (f a) none) : Reports (p >>= f) e := by
  simpa using hp.bind hf

theorem reports_pure {a : α} : Reports (pure a : Emit α) none := fun _ => rfl

theorem reports_line {text : String} : Reports (line text) none := fun _ => rfl

theorem reports_fail {cause : EmitCause} {span : Span} :
    Reports (fail cause span : Emit α) (some ⟨cause, span⟩) := fun _ => rfl

theorem Reports.nested {p : Emit α} {e : Option EmitError} (h : Reports p e) :
    Reports (nested p) e := by
  intro s
  have := h { s with
    depth := s.depth + 1
    tally := { s.tally with deepest := max s.tally.deepest (s.depth + 1) } }
  unfold Script.nested
  dsimp only
  split at this
  · rename_i heq
    rw [heq]
    exact this
  · rename_i heq
    rw [heq]
    exact this

theorem Reports.inScope {step : Emit String} {e : Option EmitError} (h : Reports step e)
    (isFunction : Bool) (bound : List String) : Reports (inScope isFunction bound step) e := by
  intro s
  have := h { s with
    scopes := bound.foldl Scope.declare { isFunction } :: s.scopes
    indent := s.indent + 1 }
  unfold Script.inScope
  dsimp only
  split at this
  · rename_i heq
    rw [heq]
    exact this
  · rename_i heq
    rw [heq]
    exact this

theorem reports_bindingName {n : Node} (h : n.tag = .ident) : Reports (bindingName n) none := by
  cases n with
  | ident => exact reports_pure
  | unary _ op _ | binary _ op _ _ => cases op <;> cases h
  | _ => cases h

theorem reports_declaration {name value : String} : Reports (declaration name value) none := by
  intro s
  unfold declaration
  cases s.isDeclaredHere name <;> exact rfl

theorem reports_assignment {name value : String} : Reports (assignment name value) none := by
  intro s
  unfold assignment
  cases s.isBound name
  · cases s.inFunctionScope <;> exact rfl
  · exact rfl

theorem findSome?_cons_or {f : α → Option β} {a : α} {as : List α} :
    (a :: as).findSome? f = (f a).or (as.findSome? f) := by
  rw [List.findSome?_cons]
  cases f a <;> rfl

theorem reports_sequence {write : Node → Emit String} {error? : Node → Option EmitError}
    {ns : List Node} (h : ∀ n ∈ ns, Reports (write n) (error? n)) (out : String) :
    Reports (sequence write ns out) (ns.findSome? error?) := by
  induction ns generalizing out with
  | nil => exact reports_pure
  | cons n ns ih =>
    rw [findSome?_cons_or]
    exact (h n List.mem_cons_self).bind fun text =>
      ih (fun m hm => h m (List.mem_cons_of_mem _ hm)) _

theorem reports_each {write : Node → Emit String} {error? : Node → Option EmitError}
    {ns : List Node} (h : ∀ n ∈ ns, Reports (write n) (error? n)) (done : List String) :
    Reports (each write ns done) (ns.findSome? error?) := by
  induction ns generalizing done with
  | nil => exact reports_pure
  | cons n ns ih =>
    rw [findSome?_cons_or]
    exact (h n List.mem_cons_self).bind fun text =>
      ih (fun m hm => h m (List.mem_cons_of_mem _ hm)) _

theorem reports_paramNames {ns : List Node} (h : ∀ n ∈ ns, n.tag = .param ∧ n.Shaped) :
    Reports (paramNames ns) none := by
  induction ns with
  | nil => exact reports_pure
  | cons n ns ih =>
    obtain ⟨htag, hshaped⟩ := h n List.mem_cons_self
    cases n with
    | param m name =>
      refine (reports_bindingName hshaped).then fun _ => ?_
      exact (ih fun n hn => h n (List.mem_cons_of_mem _ hn)).then fun _ => reports_pure
    | unary _ op _ | binary _ op _ _ => cases op <;> cases htag
    | _ => cases htag

/-- Writes a node in a role. -/
def Writer.write (w : Writer) : Role → Node → Emit String
  | .statement => w.stmt
  | .expression => w.expr

section Bodies

variable {below : Writer} {error? : Role × Node → Option EmitError} {n : Node}

theorem reports_block (isFunction : Bool) (bound : List String) {body : List Node}
    (h : ∀ c ∈ body, Reports (below.stmt c) (error? (.statement, c))) :
    Reports (block below isFunction bound body)
      ((body.map (Role.statement, ·)).findSome? error?) := by
  rw [List.findSome?_map]
  exact (reports_sequence h "").inScope isFunction bound

theorem reports_function {params : Node} {body : List Node} (hparams : params.tag = .params)
    (hnames : ∀ c ∈ params.children, c.tag = .param ∧ c.Shaped)
    (h : ∀ c ∈ body, Reports (below.stmt c) (error? (.statement, c))) :
    Reports (function below params body) ((body.map (Role.statement, ·)).findSome? error?) := by
  unfold function
  split
  · refine (reports_paramNames hnames).then fun names => ?_
    exact (reports_block true names h).before fun _ =>
      Reports.then (fun _ => rfl) fun _ => reports_pure
  · rename_i hother
    cases params with
    | params m ns => exact absurd rfl (hother m ns)
    | unary _ op _ | binary _ op _ _ => cases op <;> cases hparams
    | _ => cases hparams

/-- The first of some nodes is written, then the others. -/
theorem Reports.cons {p : Emit α} {f : α → Emit β} {c : Role × Node} {cs : List (Role × Node)}
    (hp : Reports p (error? c)) (hf : ∀ a, Reports (f a) (cs.findSome? error?)) :
    Reports (p >>= f) ((c :: cs).findSome? error?) := by
  rw [findSome?_cons_or]
  exact hp.bind hf

/-- Some nodes are written, then others. -/
theorem Reports.append {p : Emit α} {f : α → Emit β} {cs ds : List (Role × Node)}
    (hp : Reports p (cs.findSome? error?)) (hf : ∀ a, Reports (f a) (ds.findSome? error?)) :
    Reports (p >>= f) ((cs ++ ds).findSome? error?) := by
  rw [List.findSome?_append]
  exact hp.bind hf

/-- A node that has a value reports what its operands report, in their order. -/
theorem reports_exprBody (hshaped : n.Everywhere Node.Shaped) (hpart : n.tag.isPart = false)
    (hvalue : n.tag.isStatementOnly = false)
    (h : ∀ c ∈ n.inside .expression, Reports (below.write c.1 c.2) (error? c)) :
    Reports (exprBody below n) ((n.inside .expression).findSome? error?) := by
  have hexpr : ∀ a, (.expression, a) ∈ n.inside .expression →
      Reports (below.expr a) (error? (.expression, a)) := fun a ha => h _ ha
  cases n with
  | str | num => exact reports_pure
  | ident => exact fun _ => rfl
  | unary _ op a =>
    exact (hexpr a (by simp [Node.inside, Node.operands])).cons fun _ => reports_pure
  | binary _ op a b =>
    refine (hexpr a (by simp [Node.inside, Node.operands])).cons fun _ => ?_
    exact (hexpr b (by simp [Node.inside, Node.operands])).cons fun _ => reports_pure
  | function _ params body =>
    obtain ⟨hparams, hnames⟩ := hshaped.here
    refine reports_function hparams (fun c hc => ⟨hnames c hc, ?_⟩) fun c hc => ?_
    · exact ((hshaped.below params (by simp [Node.children])).below c hc).here
    · exact h (.statement, c) (by simp [Node.inside, Node.operands, hc])
  | call _ callee args =>
    refine (hexpr callee (by simp [Node.inside, Node.operands])).cons fun _ => ?_
    rw [List.findSome?_map]
    refine (reports_each (fun c hc => hexpr c ?_) []).before fun _ => reports_pure
    simp [Node.inside, Node.operands, hc]
  | cast _ value target =>
    exact (hexpr value (by simp [Node.inside, Node.operands])).cons fun _ => reports_pure
  | branch _ a b d =>
    refine (hexpr a (by simp [Node.inside])).cons fun _ => ?_
    refine (hexpr b (by simp [Node.inside])).cons fun _ => ?_
    cases d with
    | none => exact reports_pure.then fun _ => reports_pure
    | some d => exact (hexpr d (by simp [Node.inside])).cons fun _ => reports_pure
  | choice _ a b d =>
    refine (hexpr a (by simp [Node.inside, Node.operands])).cons fun _ => ?_
    refine (hexpr b (by simp [Node.inside, Node.operands])).cons fun _ => ?_
    exact (hexpr d (by simp [Node.inside, Node.operands])).cons fun _ => reports_pure
  | member _ object property =>
    exact (hexpr object (by simp [Node.inside, Node.operands])).cons fun _ => reports_pure
  | params | param | type => cases hpart
  | program | doc | declare | assign | increment | doWhile | result | forLess | block =>
    cases hvalue

/-- A node that stands as a statement reports what is inside it, in the order of writing. -/
theorem reports_stmtBody (docs : Bool) (hshaped : n.Everywhere Node.Shaped)
    (hpart : n.tag.isPart = false)
    (h : ∀ c ∈ n.inside .statement, Reports (below.write c.1 c.2) (error? c)) :
    Reports (stmtBody docs below n) ((n.inside .statement).findSome? error?) := by
  have hexpr : ∀ a, (.expression, a) ∈ n.inside .statement →
      Reports (below.expr a) (error? (.expression, a)) := fun a ha => h _ ha
  have hstmt : ∀ a, (.statement, a) ∈ n.inside .statement →
      Reports (below.stmt a) (error? (.statement, a)) := fun a ha => h _ ha
  have hvalue : (.expression, n) ∈ n.inside .statement →
      Reports (do let text ← below.expr n; line s!"{text};")
        ([(Role.expression, n)].findSome? error?) :=
    fun hn => (hexpr n hn).cons fun _ => reports_line
  cases n with
  | program _ ns | block _ ns =>
    rw [Node.inside, List.findSome?_map]
    exact reports_sequence (fun c hc => hstmt c (by simp [Node.inside, hc])) ""
  | doc _ text =>
    intro s
    cases docs <;> cases text <;> exact rfl
  | declare _ name value =>
    refine (hexpr value (by simp [Node.inside])).cons fun _ => ?_
    exact (reports_bindingName hshaped.here).then fun _ => reports_declaration
  | assign _ name value =>
    refine (hexpr value (by simp [Node.inside])).cons fun _ => ?_
    exact (reports_bindingName hshaped.here).then fun _ => reports_assignment
  | increment _ name => exact (reports_bindingName hshaped.here).then fun _ => reports_line
  | result _ value => exact (hexpr value (by simp [Node.inside])).cons fun _ => reports_line
  | forLess _ var start stop body =>
    refine (reports_bindingName hshaped.here).then fun v => ?_
    refine (hexpr start (by simp [Node.inside])).cons fun _ => ?_
    refine (hexpr stop (by simp [Node.inside])).cons fun _ => reports_line.then fun _ => ?_
    refine (reports_block false [v] fun c hc => hstmt c ?_).before fun _ => ?_
    · simp [Node.inside, hc]
    · exact reports_line.then fun _ => reports_pure
  | doWhile _ body condition =>
    refine reports_line.then fun _ => ?_
    refine (reports_block false [] fun c hc => hstmt c ?_).append fun _ => ?_
    · simp [Node.inside, hc]
    · refine (hexpr condition (by simp [Node.inside])).cons fun _ => ?_
      exact reports_line.then fun _ => reports_pure
  | branch _ condition yes no =>
    refine (hexpr condition (by simp [Node.inside])).cons fun _ => reports_line.then fun _ => ?_
    dsimp only
    rw [List.map_append]
    refine (reports_block false [] fun c hc => hstmt c ?_).append fun _ => ?_
    · simp [Node.inside, hc]
    have hclose : ∀ out : String, Reports (do
        let closing ← line "\x7d"
        pure (out ++ closing)) none := fun _ => reports_line.then fun _ => reports_pure
    cases no with
    | none => exact reports_pure.then fun _ => hclose _
    | some no =>
      rw [Option.toList_some, List.flatMap_singleton]
      refine reports_line.then fun _ => ?_
      refine (reports_block false [] fun c hc => hstmt c ?_).before fun _ => ?_
      · simp [Node.inside, hc]
      · exact reports_pure.then fun _ => hclose _
  | params | param | type => cases hpart
  | str | num | ident | unary | binary | function | call | cast | choice | member =>
    exact hvalue (by simp [Node.inside])

theorem reports_part (docs : Bool) (hpart : n.tag.isPart = true) :
    Reports (stmtBody docs below n) (some ⟨.unhandledNode n.tag, n.span⟩) ∧
      Reports (exprBody below n) (some ⟨.unhandledNode n.tag, n.span⟩) := by
  cases n with
  | params | param | type => exact ⟨reports_fail, reports_fail⟩
  | unary _ op _ | binary _ op _ _ => cases op <;> cases hpart
  | _ => cases hpart

theorem reports_statementOnly (hvalue : n.tag.isStatementOnly = true) :
    Reports (exprBody below n) (some ⟨.statementInExpression n.tag, n.span⟩) := by
  cases n with
  | program | doc | declare | assign | increment | doWhile | result | forLess | block =>
    exact reports_fail
  | unary _ op _ | binary _ op _ _ => cases op <;> cases hvalue
  | _ => cases hvalue

end Bodies

theorem findSome?_flatMap {γ : Type} {f : β → Option γ} {g : α → List β} {as : List α} :
    (as.flatMap g).findSome? f = as.findSome? fun a => (g a).findSome? f := by
  induction as with
  | nil => rfl
  | cons a as ih => rw [List.flatMap_cons, List.findSome?_append, ih, findSome?_cons_or]

/-- **Writing a node stops at the first visit that is refused**, and with its refusal. The depth of
the node and the room that is left make up the limit, and one more. -/
theorem reports_write (docs : Bool) {room depth : Nat} (role : Role) {n : Node}
    (hroom : depth + room = Limits.emitDepth + 1) (hshaped : n.Everywhere Node.Shaped) :
    Reports ((writer docs room).write role n) ((n.visits role depth).findSome? Visit.refusal?) := by
  induction room generalizing role depth n with
  | zero =>
    -- Whatever the node is, there is no room for it.
    have hdeep : Visit.refusal? ⟨n, role, depth⟩ = some ⟨.tooDeep, n.span⟩ := by
      rw [Visit.refusal?, if_pos (by dsimp only; omega)]
    rw [Node.visits_eq, findSome?_cons_or, hdeep]
    cases role <;> exact reports_fail
  | succ room ih =>
    have hfits : ¬ Limits.emitDepth < depth := by omega
    rw [Node.visits_eq, findSome?_cons_or, findSome?_flatMap]
    -- What is inside the node has one level less.
    have hinside : ∀ c ∈ n.inside role, Reports ((writer docs room).write c.1 c.2)
        ((c.2.visits c.1 (depth + 1)).findSome? Visit.refusal?) := by
      intro c hc
      exact ih c.1 (by omega) (hshaped.inside hc)
    have hcount : ∀ count : Emitting → Emitting, Reports (modify count : Emit Unit) none :=
      fun _ _ => rfl
    by_cases hpart : n.tag.isPart = true
    · have hrefused : Visit.refusal? ⟨n, role, depth⟩ = some ⟨.unhandledNode n.tag, n.span⟩ := by
        rw [Visit.refusal?, if_neg hfits, if_pos hpart]
      obtain ⟨hstmt, hexpr⟩ := @reports_part (writer docs room) n docs hpart
      rw [hrefused]
      cases role with
      | statement => exact ((hcount _).then fun _ => hstmt).nested
      | expression => exact ((hcount _).then fun _ => hexpr).nested
    rw [Bool.not_eq_true] at hpart
    have hpasses : (role = .expression → n.tag.isStatementOnly = false) →
        Visit.refusal? ⟨n, role, depth⟩ = none :=
      fun hvalue => Visit.refusal?_eq_none_iff.mpr ⟨Nat.le_of_not_lt hfits, hpart, hvalue⟩
    cases role with
    | statement =>
      rw [hpasses (fun hrole => by cases hrole), Option.none_or]
      exact ((hcount _).then fun _ => reports_stmtBody docs hshaped hpart hinside).nested
    | expression =>
      by_cases hvalue : n.tag.isStatementOnly = true
      · have hrefused : Visit.refusal? ⟨n, .expression, depth⟩
            = some ⟨.statementInExpression n.tag, n.span⟩ := by
          rw [Visit.refusal?, if_neg hfits, if_neg (by simp [hpart]), if_pos ⟨rfl, hvalue⟩]
        rw [hrefused]
        exact ((hcount _).then fun _ => reports_statementOnly hvalue).nested
      · rw [Bool.not_eq_true] at hvalue
        rw [hpasses fun _ => hvalue, Option.none_or]
        exact ((hcount _).then fun _ => reports_exprBody hshaped hpart hvalue hinside).nested

theorem reports_program (docs : Bool) (mark : Mark) {forms : List Node}
    (hshaped : ∀ n ∈ forms, n.Everywhere Node.Shaped) :
    Reports (program docs (.program mark forms))
      ((programVisits forms).findSome? Visit.refusal?) := by
  unfold programVisits
  rw [findSome?_flatMap]
  refine Reports.before (reports_sequence (fun n hn => ?_) "") fun out => ?_
  · exact reports_write docs .statement (Nat.add_comm 1 _) (hshaped n hn)
  · refine Reports.then (fun _ => rfl) fun s => ?_
    cases s.scopes.getLast? <;> exact reports_pure

end Script

/-! ## Trees of the shape that is parsed -/

namespace Node

/-- Among the children of a node, only the first one of a function is a parameter list, and only
those of a parameter list are parameters. -/
structure KeepsParams (n : Node) : Prop where
  lists : ∀ c ∈ n.children.drop (if n.tag = .function then 1 else 0), c.tag ≠ .params
  single : n.tag ≠ .params → ∀ c ∈ n.children, c.tag ≠ .param

variable {n c : Node}

theorem mem_drop_of_mem_forms (h : c ∈ n.forms) :
    c ∈ n.children.drop (if n.tag = .function then 1 else 0) := by
  cases n with
  | function => exact h
  | cast _ value target =>
    rw [List.mem_singleton.mp h]
    exact List.mem_cons_self
  | unary _ op _ | binary _ op _ _ => cases op <;> exact h
  | _ => exact h

theorem forms_or_slot (h : c ∈ n.children) :
    c ∈ n.forms ∨ (∃ m body, n = .function m c body) ∨ ∃ m value, n = .cast m value c := by
  cases n with
  | function m params body =>
    rcases List.mem_cons.mp h with rfl | h
    · exact .inr (.inl ⟨m, body, rfl⟩)
    · exact .inl h
  | cast m value target =>
    simp only [children, List.mem_cons, List.not_mem_nil, or_false] at h
    rcases h with rfl | rfl
    · exact .inl List.mem_cons_self
    · exact .inr (.inr ⟨m, value, rfl⟩)
  | _ => exact .inl h

/-- Where parameters stand only in their lists, the forms of a node are none of the parts. -/
theorem isPart_of_mem_forms (hregular : n.Regular) (hkeeps : n.KeepsParams)
    (hn : n.tag.isPart = false) (hc : c ∈ n.forms) : c.tag.isPart = false := by
  have hlist : n.tag ≠ .params := by
    intro heq
    rw [heq] at hn
    cases hn
  have hparams := hkeeps.lists c (mem_drop_of_mem_forms hc)
  have hparam := hkeeps.single hlist c (mem_children_of_mem_forms hc)
  have htype := hregular.typed c (mem_values_of_mem_forms hc)
  unfold Tag.isPart
  split <;> simp_all

/-- So a part is never visited. -/
theorem isPart_of_mem_visits {role : Role} {depth : Nat} (hregular : n.Everywhere Regular)
    (hkeeps : n.Everywhere KeepsParams) (hn : n.tag.isPart = false) :
    ∀ v ∈ n.visits role depth, v.node.tag.isPart = false := by
  have hall := @forall_visits (fun m => (m.Everywhere Regular ∧ m.Everywhere KeepsParams) ∧
    m.tag.isPart = false) (fun {role role' m c} hm hc => ?_) role depth n ⟨⟨hregular, hkeeps⟩, hn⟩
  · exact fun v hv => (hall v hv).2
  · obtain ⟨⟨hregular, hkeeps⟩, hpart⟩ := hm
    refine ⟨⟨hregular.inside hc, hkeeps.inside hc⟩, ?_⟩
    rcases of_mem_inside hc with (hc | ⟨b, hb, hblock, hc, -⟩) | ⟨rfl, -, -⟩
    · exact isPart_of_mem_forms hregular.here hkeeps.here hpart hc
    · have hbelow := mem_children_of_mem_forms hb
      exact isPart_of_mem_forms (hregular.below b hbelow).here (hkeeps.below b hbelow).here
        (hblock ▸ rfl) hc
    · exact hpart

/-- A tag that the forms of a regular node do not have is never visited. -/
theorem tag_ne_of_mem_visits {tag : Tag} {role : Role} {depth : Nat}
    (hforms : ∀ {m c : Node}, m.Regular → c ∈ m.forms → c.tag ≠ tag)
    (hregular : n.Everywhere Regular) (hn : n.tag ≠ tag) :
    ∀ v ∈ n.visits role depth, v.node.tag ≠ tag := by
  have hall := @forall_visits (fun m => m.Everywhere Regular ∧ m.tag ≠ tag)
    (fun {role role' m c} hm hc => ?_) role depth n ⟨hregular, hn⟩
  · exact fun v hv => (hall v hv).2
  · refine ⟨hm.1.inside hc, ?_⟩
    rcases of_mem_inside hc with (hc | ⟨b, hb, -, hc, -⟩) | ⟨rfl, -, -⟩
    · exact hforms hm.1.here hc
    · exact hforms (hm.1.below b (mem_children_of_mem_forms hb)).here hc
    · exact hm.2

/-- Writing the node, in some role and from some depth on, visits no part. -/
def PartFree (n : Node) : Prop :=
  ∃ role depth, ∀ v ∈ n.visits role depth, v.node.tag.isPart = false

theorem PartFree.here (h : n.PartFree) : n.tag.isPart = false := by
  obtain ⟨role, depth, h⟩ := h
  refine h ⟨n, role, depth⟩ ?_
  rw [visits_eq]
  exact List.mem_cons_self

theorem PartFree.tag_ne (h : n.PartFree) : n.tag ≠ .params ∧ n.tag ≠ .param := by
  have hpart := h.here
  constructor <;> intro htag <;> simp [htag, Tag.isPart] at hpart

theorem PartFree.inside {role role' : Role} {depth : Nat}
    (h : ∀ v ∈ n.visits role depth, v.node.tag.isPart = false)
    (hc : (role', c) ∈ n.inside role) : c.PartFree :=
  ⟨role', depth + 1, fun v hv => h v (mem_visits_of_mem_inside hc hv)⟩

/-- An expression, be it visited as one or as a statement. -/
theorem PartFree.operand {role : Role} (h : n.PartFree) (hc : (role, c) ∈ n.operands)
    (hoperands : n.inside .expression = n.operands)
    (hself : n.inside .statement = [(.expression, n)]) : c.PartFree := by
  obtain ⟨role', depth, h⟩ := h
  rw [← hoperands] at hc
  cases role' with
  | statement =>
    have hn : (.expression, n) ∈ n.inside .statement := hself ▸ List.mem_cons_self
    exact .inside (fun v hv => h v (mem_visits_of_mem_inside hn hv)) hc
  | expression => exact .inside h hc

/-- A block in a branch or in a loop, which is not visited but stands for its statements. -/
theorem PartFree.body (depth : Nat) (h : ∀ b ∈ bodyOf n,
    ∀ v ∈ b.visits .statement (depth + 1), v.node.tag.isPart = false) : n.PartFree := by
  unfold bodyOf at h
  split at h
  · rename_i m statements
    refine ⟨.statement, depth, fun v hv => ?_⟩
    rw [visits_eq] at hv
    rcases List.mem_cons.mp hv with rfl | hv
    · rfl
    · obtain ⟨c, hc, hv⟩ := List.mem_flatMap.mp hv
      obtain ⟨b, hb, rfl⟩ := List.mem_map.mp hc
      exact h b hb v hv
  · exact ⟨.statement, depth + 1, h n List.mem_cons_self⟩

/-- The forms of a node that visits no part are names and texts, or visit no part themselves. -/
theorem PartFree.form (h : n.PartFree) (hshaped : n.Shaped) (hc : c ∈ n.forms) :
    c.tag = .ident ∨ c.tag = .str ∨ c.PartFree := by
  have hpart := h.here
  have hoperand : ∀ role, (role, c) ∈ n.operands → n.inside .expression = n.operands →
      n.inside .statement = [(.expression, n)] → c.tag = .ident ∨ c.tag = .str ∨ c.PartFree :=
    fun _ hc hoperands hself => .inr (.inr (h.operand hc hoperands hself))
  obtain ⟨role, depth, hvisits⟩ := h
  have hinside : ∀ role', (role', c) ∈ n.inside role →
      c.tag = .ident ∨ c.tag = .str ∨ c.PartFree := fun _ hc => .inr (.inr (.inside hvisits hc))
  cases n with
  | str | num | ident => cases hc
  | params | param | type => cases hpart
  | program _ ns | block _ ns => exact hinside .statement (List.mem_map_of_mem hc)
  | doc _ a =>
    rw [List.mem_singleton.mp hc]
    exact .inr (.inl hshaped)
  | increment _ a =>
    rw [List.mem_singleton.mp hc]
    exact .inl hshaped
  | declare _ a b | assign _ a b =>
    simp only [forms, children, List.mem_cons, List.not_mem_nil, or_false] at hc
    rcases hc with rfl | rfl
    · exact .inl hshaped
    · exact hinside .expression List.mem_cons_self
  | result _ a => exact hinside .expression (List.mem_singleton.mp hc ▸ List.mem_cons_self)
  | forLess _ a b d ns =>
    simp only [forms, children, List.mem_cons] at hc
    rcases hc with rfl | rfl | rfl | hc
    · exact .inl hshaped
    · exact hinside .expression (by simp [Node.inside])
    · exact hinside .expression (by simp [Node.inside])
    · exact hinside .statement (by simp [Node.inside, hc])
  | doWhile _ a b =>
    simp only [forms, children, List.mem_cons, List.not_mem_nil, or_false] at hc
    rcases hc with rfl | rfl
    · refine .inr (.inr (.body depth fun b hb v hv => hvisits v ?_))
      exact mem_visits_of_mem_inside (c := b) (by simp [Node.inside, hb]) hv
    · exact hinside .expression (by simp [Node.inside])
  | branch _ a b d =>
    have hc' : c = a ∨ c = b ∨ d = some c := by
      cases d <;> simpa [forms, children, eq_comm] using hc
    rcases hc' with rfl | hc
    · exact hinside .expression List.mem_cons_self
    -- The branches are bodies if the node is visited as a statement, and operands otherwise.
    cases role with
    | statement =>
      refine .inr (.inr (.body depth fun e he v hv => hvisits v ?_))
      refine mem_visits_of_mem_inside (c := e) ?_ hv
      rcases hc with rfl | rfl <;> simp [Node.inside, he]
    | expression =>
      refine hinside .expression ?_
      rcases hc with rfl | rfl <;> simp [Node.inside]
  | unary | binary | cast | choice =>
    refine hoperand .expression ?_ rfl rfl
    simpa [forms, children, operands] using hc
  | member _ a b =>
    simp only [forms, children, List.mem_cons, List.not_mem_nil, or_false] at hc
    rcases hc with rfl | rfl
    · exact hoperand .expression List.mem_cons_self rfl rfl
    · exact .inl hshaped
  | function _ _ ns => exact hoperand .statement (List.mem_map_of_mem hc) rfl rfl
  | call _ _ ns =>
    refine hoperand .expression ?_ rfl rfl
    simpa [forms, children, operands] using hc

theorem children_eq_nil_of_tag (h : n.tag = .ident ∨ n.tag = .str ∨ n.tag = .type) :
    n.children = [] := by
  cases n with
  | str | num | ident | type => rfl
  | unary _ op _ | binary _ op _ _ => cases op <;> simp [tag, UnaryOp.tag, BinaryOp.tag] at h
  | _ => simp [tag] at h

theorem everywhere_of_children_eq_nil {P : Node → Prop} (h : n.children = []) (hn : P n) :
    n.Everywhere P :=
  .intro hn fun c hc => by simp [h] at hc

theorem keepsParams_of_children_eq_nil (h : n.children = []) : n.Everywhere KeepsParams :=
  everywhere_of_children_eq_nil h ⟨by simp [h], by simp [h]⟩

/-- The parameter list of a function is in order. -/
theorem keepsParams_params (hregular : n.Everywhere Regular) (hn : n.tag = .params)
    (hparams : ∀ c ∈ n.children, c.tag = .param) : n.Everywhere KeepsParams := by
  refine .intro ⟨fun c hc => ?_, fun h => absurd hn h⟩ fun c hc => ?_
  · rw [hparams c (List.mem_of_mem_drop hc)]
    nofun
  have hshaped := (hregular.below c hc).here.shaped
  have htag := hparams c hc
  cases c with
  | param m name =>
    have hname : name.tag = .ident := hshaped
    refine .intro ⟨?_, ?_⟩ ?_
    · simp [children, show (Node.param m name).tag ≠ .function by nofun, hname]
    · simp [children, hname]
    · intro d hd
      rw [List.mem_singleton.mp hd]
      exact keepsParams_of_children_eq_nil (children_eq_nil_of_tag (.inl hname))
  | unary _ op _ | binary _ op _ _ => cases op <;> cases htag
  | _ => cases htag

/-- If no part is visited, parameters stand only in their lists. -/
theorem PartFree.keepsParams (h : n.PartFree) (hregular : n.Everywhere Regular) :
    n.Everywhere KeepsParams := by
  induction n using Node.induct with
  | _ n ih =>
    have hform : ∀ c ∈ n.forms, (c.tag ≠ .params ∧ c.tag ≠ .param) ∧ c.Everywhere KeepsParams := by
      intro c hc
      have hbelow := mem_children_of_mem_forms hc
      rcases h.form hregular.here.shaped hc with htag | htag | hfree
      · exact ⟨by simp [htag], keepsParams_of_children_eq_nil (children_eq_nil_of_tag (.inl htag))⟩
      · exact ⟨by simp [htag],
          keepsParams_of_children_eq_nil (children_eq_nil_of_tag (.inr (.inl htag)))⟩
      · exact ⟨hfree.tag_ne, ih c hbelow hfree (hregular.below c hbelow)⟩
    -- A child that is no form is a parameter list or a type, and stands where it belongs.
    have hshaped := hregular.here.shaped
    refine .intro ⟨fun c hc => ?_, fun _ c hc => ?_⟩ fun c hc => ?_
    · rcases forms_or_slot (List.mem_of_mem_drop hc) with hc | ⟨m, body, rfl⟩ | ⟨m, value, rfl⟩
      · exact (hform c hc).1.1
      · exact (hform c hc).1.1
      · rw [show c.tag = .type from hshaped]
        nofun
    · rcases forms_or_slot hc with hc | ⟨m, body, rfl⟩ | ⟨m, value, rfl⟩
      · exact (hform c hc).1.2
      · rw [show c.tag = .params from hshaped.1]
        nofun
      · rw [show c.tag = .type from hshaped]
        nofun
    · have hbelow := hregular.below c hc
      rcases forms_or_slot hc with hc | ⟨m, body, rfl⟩ | ⟨m, value, rfl⟩
      · exact (hform c hc).2
      · exact keepsParams_params hbelow hshaped.1 hshaped.2
      · exact keepsParams_of_children_eq_nil (children_eq_nil_of_tag (.inr (.inr hshaped)))

end Node

/-! ## When a program can be written -/

/-- The constructs without a value that can stand inside a program. -/
def statementTags : List Tag :=
  [.doc, .declare, .assign, .increment, .doWhile, .result, .forLess, .block]

theorem isStatementOnly_eq_false_iff {t : Tag} (h : t ≠ .program) :
    t.isStatementOnly = false ↔ t ∉ statementTags := by
  cases t <;> simp_all [Tag.isStatementOnly, statementTags]

section

variable {mark : Mark} {forms : List Node}

/-- No part is visited if and only if parameters stand only in their lists. -/
theorem keepsParams_iff_visits (hregular : (Node.program mark forms).Everywhere Node.Regular) :
    (Node.program mark forms).Everywhere Node.KeepsParams ↔
      ∀ v ∈ programVisits forms, v.node.tag.isPart = false := by
  have hform : ∀ n ∈ forms, n.Everywhere Node.Regular := hregular.below
  constructor
  · intro hkeeps v hv
    obtain ⟨n, hn, hv⟩ := List.mem_flatMap.mp hv
    have hpart := Node.isPart_of_mem_forms hregular.here hkeeps.here rfl hn
    exact Node.isPart_of_mem_visits (hform n hn) (hkeeps.below n hn) hpart v hv
  · intro hvisits
    have hfree : ∀ n ∈ forms, n.PartFree := fun n hn =>
      ⟨.statement, 1, fun v hv => hvisits v (List.mem_flatMap.mpr ⟨n, hn, hv⟩)⟩
    refine .intro ⟨?_, fun _ n hn => (hfree n hn).tag_ne.2⟩ ?_
    · exact fun n hn => (hfree n (List.mem_of_mem_drop hn)).tag_ne.1
    · exact fun n hn => (hfree n hn).keepsParams (hform n hn)

/-- Neither programs nor types are visited. -/
theorem tag_ne_of_mem_programVisits
    (hregular : (Node.program mark forms).Everywhere Node.Regular) :
    ∀ v ∈ programVisits forms, v.node.tag ≠ .program ∧ v.node.tag ≠ .type := by
  intro v hv
  obtain ⟨n, hn, hv⟩ := List.mem_flatMap.mp hv
  have hform := hregular.below n hn
  refine ⟨Node.tag_ne_of_mem_visits ?_ hform (hregular.here.inner n hn) v hv,
    Node.tag_ne_of_mem_visits ?_ hform (hregular.here.typed n hn) v hv⟩
  · exact fun hm hc => hm.inner _ (Node.mem_children_of_mem_forms hc)
  · exact fun hm hc => hm.typed _ (Node.mem_values_of_mem_forms hc)

/-- No visit is refused if and only if the program keeps to the rules. -/
theorem forall_refusal?_eq_none_iff
    (hregular : (Node.program mark forms).Everywhere Node.Regular) :
    (∀ v ∈ programVisits forms, v.refusal? = none) ↔
      (Node.program mark forms).Everywhere Node.KeepsParams ∧
      (∀ v ∈ programVisits forms, v.role = .expression → v.node.tag ∉ statementTags) ∧
      ∀ v ∈ programVisits forms, v.depth ≤ Limits.emitDepth := by
  have hinner := fun v hv => (tag_ne_of_mem_programVisits hregular v hv).1
  rw [keepsParams_iff_visits hregular]
  constructor
  · intro hnone
    have hpasses := fun v hv => Visit.refusal?_eq_none_iff.mp (hnone v hv)
    refine ⟨fun v hv => (hpasses v hv).2.1, fun v hv hrole => ?_, fun v hv => (hpasses v hv).1⟩
    exact (isStatementOnly_eq_false_iff (hinner v hv)).mp ((hpasses v hv).2.2 hrole)
  · rintro ⟨hparts, hvalues, hdepth⟩ v hv
    refine Visit.refusal?_eq_none_iff.mpr ⟨hdepth v hv, hparts v hv, fun hrole => ?_⟩
    exact (isStatementOnly_eq_false_iff (hinner v hv)).mpr (hvalues v hv hrole)

end

/-- Writing a program comes down to its visits. -/
theorem writeScript_reports (options : ScriptOptions) (mark : Mark) (forms : List Node)
    (hshaped : ∀ n ∈ forms, n.Everywhere Node.Shaped) :
    match writeScript options (.program mark forms) with
    | .ok _ _ => (programVisits forms).findSome? Visit.refusal? = none
    | .error e _ => (programVisits forms).findSome? Visit.refusal? = some e := by
  have h := Script.reports_program options.docComments mark hshaped
    { scopes := [{ isFunction := true }] }
  unfold writeScript
  split at h
  · rename_i heq
    rw [heq]
    exact h
  · rename_i heq
    rw [heq]
    exact h

/-- **Exactly when a program can be written, and what is reported when it cannot.** Of a tree of the
shape that is parsed (`parse_regular`), a script is written if and only if parameters and their
lists stand only where they belong, no construct without a value is visited as an expression, and no
visit is too deep. Otherwise the error is the refusal of the first visit that is refused. -/
theorem writeScript_ok_iff (options : ScriptOptions) (mark : Mark) (forms : List Node)
    (hregular : (Node.program mark forms).Everywhere Node.Regular) :
    ((∃ text s, writeScript options (.program mark forms) = .ok text s) ↔
      (Node.program mark forms).Everywhere Node.KeepsParams ∧
      (∀ v ∈ programVisits forms, v.role = .expression → v.node.tag ∉ statementTags) ∧
      ∀ v ∈ programVisits forms, v.depth ≤ Limits.emitDepth) ∧
    ∀ e s, writeScript options (.program mark forms) = .error e s →
      ∃ before v after, programVisits forms = before ++ v :: after ∧
        (∀ w ∈ before, w.refusal? = none) ∧ v.refusal? = some e := by
  have hshaped : ∀ n ∈ forms, n.Everywhere Node.Shaped :=
    fun n hn m hm => (hregular.below n hn m hm).shaped
  have hreports := writeScript_reports options mark forms hshaped
  constructor
  · rw [← forall_refusal?_eq_none_iff hregular, ← List.findSome?_eq_none_iff]
    constructor
    · rintro ⟨text, s, hok⟩
      simpa only [hok] using hreports
    · intro hnone
      split at hreports
      · exact ⟨_, _, by assumption⟩
      · rw [hnone] at hreports
        cases hreports
  · intro e s herror
    simp only [herror] at hreports
    obtain ⟨before, v, after, hvisits, hv, hbefore⟩ := List.findSome?_eq_some_iff.mp hreports
    exact ⟨before, v, after, hvisits, hbefore, hv⟩

/-- `(if c (do (set! f (fn (plist (param a)) (return a)))) (call f c))`, in which a block and a
parameter list stand in their places. -/
def branchTree : Node :=
  .branch {} (.ident {} "c")
    (.block {} [.assign {} (.ident {} "f")
      (.function {} (.params {} [.param {} (.ident {} "a")]) [.result {} (.ident {} "a")])])
    (some (.call {} (.ident {} "f") [.ident {} "c"]))

/-- The script of the branch is written, so the branch keeps to the rules. -/
theorem writeScript_branchTree :
    (Node.program {} [branchTree]).Everywhere Node.Regular ∧
    (∃ text s, writeScript {} (.program {} [branchTree]) = .ok text s) ∧
    (Node.program {} [branchTree]).Everywhere Node.KeepsParams ∧
    (∀ v ∈ programVisits [branchTree], v.role = .expression → v.node.tag ∉ statementTags) ∧
    ∀ v ∈ programVisits [branchTree], v.depth ≤ Limits.emitDepth := by
  have hregular : (Node.program {} [branchTree]).Everywhere Node.Regular := by
    unfold Node.Everywhere
    decide +kernel
  have hok : ∃ text s, writeScript {} (.program {} [branchTree]) = .ok text s := by
    have hwritten : (match writeScript {} (.program {} [branchTree]) with
        | .ok .. => true
        | .error .. => false) = true := by decide +kernel
    cases hresult : writeScript {} (.program {} [branchTree]) with
    | ok text s => exact ⟨text, s, rfl⟩
    | error e s =>
      rw [hresult] at hwritten
      cases hwritten
  exact ⟨hregular, hok, (writeScript_ok_iff {} {} [branchTree] hregular).1.mp hok⟩

end FormScript
