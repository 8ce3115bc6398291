import FormScript.Proofs.Scoping

/-!
# What the names of a script refer to

Two facts about every script. Its declarations are in order (`script_declarations`): what is
assigned to is declared around, and no block declares a name twice. And a name that the writer found
in a scope refers to the declaration that belongs to that scope, with two exceptions
(`compiled_names_resolve`): a `let` that follows in a block further in takes the name away from that
scope, and so does the variable of a loop in the bounds of the loop. The first exception is a fault
of the way scripts are written: `captured_assignment` is a program in which it shows.

Both facts are proved with each step of building. `Takes` says what a step leaves behind, `Step`
what is asked of statements: the stack has grown by their declarations, and their parts are in order
in whatever frames suit the stack that they leave.
-/

namespace FormScript
namespace ScriptTree

open Script (bindingName paramNames fail nested bodyOf)

variable {α β : Type} {σ σ' σ'' : List Scope}

/-! ## Steps and their stacks -/

/-- From a state with this stack, the step leads to results and stacks as stated, if it succeeds. -/
def Takes (q : Emit α) (σ : List Scope) (Q : α → List Scope → Prop) : Prop :=
  ∀ s a s', s.scopes = σ → q s = .ok a s' → Q a s'.scopes

theorem Takes.bind {q : Emit α} {g : α → Emit β} {P : α → List Scope → Prop}
    {Q : β → List Scope → Prop} (hq : Takes q σ P)
    (hg : ∀ a σ', P a σ' → Takes (g a) σ' Q) : Takes (q >>= g) σ Q := by
  intro s b s'' hs hrun
  rw [show (q >>= g) s = EStateM.bind q g s from rfl, EStateM.bind] at hrun
  split at hrun
  · rename_i a s' heq
    exact hg a s'.scopes (hq s a s' hs heq) s' b s'' rfl hrun
  · cases hrun

theorem takes_pure {a : α} {Q : α → List Scope → Prop} (h : Q a σ) : Takes (pure a) σ Q := by
  intro s b s' hs hrun
  cases hrun
  exact hs ▸ h

theorem takes_fail {cause : EmitCause} {span : Span} {Q : α → List Scope → Prop} :
    Takes (fail cause span : Emit α) σ Q := by
  intro s b s' _ hrun
  cases hrun

theorem Takes.nested {q : Emit α} {Q : α → List Scope → Prop} (h : Takes q σ Q) :
    Takes (nested q) σ Q := by
  intro s a s' hs hrun
  unfold Script.nested at hrun
  dsimp only at hrun
  split at hrun
  · rename_i heq
    cases hrun
    have hstep := fun hscopes => h _ _ _ hscopes heq
    exact hstep hs
  · cases hrun

theorem takes_bindingName (n : Node) : Takes (bindingName n) σ fun _ σ' => σ' = σ := by
  unfold Script.bindingName
  split
  · exact takes_pure rfl
  · exact takes_fail

theorem takes_paramNames (ns : List Node) : Takes (paramNames ns) σ fun _ σ' => σ' = σ := by
  induction ns with
  | nil => exact takes_pure rfl
  | cons n ns ih =>
    cases n with
    | param m name =>
      refine (takes_bindingName name).bind ?_
      rintro _ _ rfl
      refine ih.bind ?_
      rintro _ _ rfl
      exact takes_pure rfl
    | _ => exact takes_fail

/-! ## Parts in order -/

/-- What is asked of a part of a script. -/
def Part.InOrder : Part → Prop
  | .use name found env => ∀ k, found = some k → Resolves name k env
  | .assign name found env =>
    (∃ f ∈ env, f.level ≠ none ∧ name ∈ f.ready) ∧ ∀ k, found = some k → Resolves name k env
  | .block bound hoisted lets => (hoisted ++ lets).Nodup ∧ ∀ x ∈ hoisted ++ lets, x ∉ bound

/-- The parts are in order in whatever frames suit the stack. -/
def InOrderAt (σ : List Scope) (parts : List Frame → List Part) : Prop :=
  ∀ env, Suits σ env → ∀ p ∈ parts env, p.InOrder

namespace InOrderAt

variable {P Q : List Frame → List Part}

theorem nil : InOrderAt σ fun _ => [] := by
  intro _ _ p hp
  cases hp

theorem append (hP : InOrderAt σ P) (hQ : InOrderAt σ Q) :
    InOrderAt σ fun env => P env ++ Q env := by
  intro env hsuits p hp
  rcases List.mem_append.mp hp with hp | hp
  · exact hP env hsuits p hp
  · exact hQ env hsuits p hp

/-- What was in order stays so when more is written behind it. -/
theorem before (h : InOrderAt σ P) (hgrown : Grown [] σ σ') : InOrderAt σ' P :=
  fun env hsuits => h env (hsuits.back_outer hgrown)

theorem head (h : InOrderAt σ P) (ready later : List String) :
    InOrderAt σ fun env => P (⟨none, ready, later⟩ :: env) :=
  fun _ hsuits => h _ (.head hsuits)

end InOrderAt

/-- A use of a name. -/
theorem inOrderAt_use (name : String) :
    InOrderAt σ fun env => [.use name (foundAt name σ) env] := by
  intro _ hsuits p hp
  rw [List.mem_singleton.mp hp]
  exact fun k hk => hsuits.resolves hk

/-- Statements of a block lead from one stack to another. -/
structure Step (σ : List Scope) (ts : List Stmt) (σ' : List Scope) : Prop where
  grown : Grown (lets ts) σ σ'
  inOrder : ∀ f env, f.level ≠ none → (∀ x ∈ lets ts, x ∉ f.ready) →
    Suits σ' (f.pass (lets ts) :: env) → ∀ p ∈ bodyParts env f ts, p.InOrder

theorem Step.nil (σ : List Scope) : Step σ [] σ where
  grown := .refl σ
  inOrder := by simp [bodyParts]

theorem lets_append (ts us : List Stmt) : lets (ts ++ us) = lets ts ++ lets us :=
  List.flatMap_append

theorem lets_singleton (t : Stmt) : lets [t] = t.lets :=
  List.flatMap_singleton ..

theorem Step.append {ts us : List Stmt} (h : Step σ ts σ') (h' : Step σ' us σ'') :
    Step σ (ts ++ us) σ'' := by
  have hgrown := h.grown.trans h'.grown
  rw [← lets_append] at hgrown
  refine ⟨hgrown, fun f env hlevel hnew hsuits p hp => ?_⟩
  have hnodup := hgrown.nodup
  rw [lets_append, List.nodup_append] at hnodup
  rw [lets_append] at hnew hsuits
  rw [f.pass_append] at hsuits
  -- The second statements are seen from behind the first ones.
  have hnew' : ∀ x ∈ lets us, x ∉ (f.pass (lets ts)).ready := by
    intro x hx hready
    rcases List.mem_append.mp hready with hready | hready
    · exact hnew x (List.mem_append_right _ hx) hready
    · exact hnodup.2.2 x hready x hx rfl
  rw [bodyParts_append] at hp
  rcases List.mem_append.mp hp with hp | hp
  · exact h.inOrder f env hlevel (fun x hx => hnew x (List.mem_append_left _ hx))
      (hsuits.back hlevel h'.grown hnew') p hp
  · exact h'.inOrder (f.pass (lets ts)) env hlevel hnew' hsuits p hp

/-- A single statement. -/
theorem Step.single {t : Stmt} (hgrown : Grown t.lets σ σ')
    (h : ∀ f env, f.level ≠ none → (∀ x ∈ t.lets, x ∉ f.ready) →
      Suits σ' (f.pass t.lets :: env) → ∀ p ∈ t.parts (f :: env), p.InOrder) : Step σ [t] σ' := by
  refine ⟨lets_singleton t ▸ hgrown, ?_⟩
  rw [lets_singleton]
  intro f env hlevel hnew hsuits p hp
  rw [bodyParts, bodyParts, List.append_nil] at hp
  exact h f env hlevel hnew hsuits p hp

/-- A single statement without a `let`. -/
theorem Step.plain {t : Stmt} (hlets : t.lets = []) (hgrown : Grown [] σ σ')
    (h : InOrderAt σ' (Stmt.parts · t)) : Step σ [t] σ' := by
  refine .single (hlets ▸ hgrown) ?_
  intro f env _ _ hsuits
  rw [hlets, f.pass_nil] at hsuits
  exact h (f :: env) hsuits

/-! ## Declarations and assignments -/

/-- A `let`. Its value is seen from in front of it. -/
theorem step_declare {s : Scope} {outer : List Scope} {name : String} {value : Expr}
    (hname : name ∉ s.names) (hvalue : InOrderAt (s :: outer) (Expr.parts · value)) :
    Step (s :: outer) [.declare name value] (s.declare name :: outer) := by
  refine .single (grown_declare hname outer) ?_
  intro f env hlevel hnew hsuits p hp
  rw [Stmt.parts] at hp
  exact hvalue _ (hsuits.back hlevel (grown_declare hname outer) hnew) p hp

/-- An assignment to a name that some scope has. -/
theorem step_assign {name : String} {value : Expr} (hname : Bound σ name)
    (hvalue : InOrderAt σ (Expr.parts · value)) :
    Step σ [.assign name (foundAt name σ) value] σ := by
  refine .plain rfl (.refl σ) ?_
  simp only [Stmt.parts]
  refine hvalue.append fun env hsuits p hp => ?_
  rw [List.mem_singleton.mp hp]
  exact ⟨hsuits.declares hname, fun k hk => hsuits.resolves hk⟩

/-- An assignment to a name that is hoisted for it. -/
theorem step_hoist {name : String} {value : Expr} (hname : ¬ Bound σ name) (hσ : Rooted σ)
    (hvalue : InOrderAt σ (Expr.parts · value)) :
    Step σ [.assign name (foundAt name σ) value] (hoistIn name σ) := by
  refine .plain rfl (grown_hoistIn hname) ?_
  simp only [Stmt.parts]
  refine (hvalue.before (grown_hoistIn hname)).append fun env hsuits p hp => ?_
  rw [List.mem_singleton.mp hp]
  refine ⟨hsuits.declares (bound_hoistIn name hσ), fun k hk => ?_⟩
  exact absurd (bound_of_foundAt hk).1 hname

theorem isDeclaredHere_iff {s : Emitting} {scope : Scope} {outer : List Scope} {name : String}
    (hs : s.scopes = scope :: outer) : s.isDeclaredHere name = true ↔ name ∈ scope.names := by
  unfold Emitting.isDeclaredHere
  rw [hs]
  exact List.contains_iff_mem

theorem scopes_declare {s : Emitting} {scope : Scope} {outer : List Scope}
    (hs : s.scopes = scope :: outer) (name : String) :
    (s.declare name).scopes = scope.declare name :: outer := by
  unfold Emitting.declare
  rw [hs]

theorem takes_declaration {name : String} {value : Expr} (hσ : Rooted σ)
    (hvalue : InOrderAt σ (Expr.parts · value)) : Takes (declaration name value) σ (Step σ) := by
  intro s ts s' hs hrun
  obtain ⟨scope, outer, rfl⟩ := hσ.exists_cons
  unfold declaration at hrun
  split at hrun
  · rename_i hhere
    cases hrun
    rw [isDeclaredHere_iff hs] at hhere
    change Step _ _ s.scopes
    rw [hs]
    exact step_assign (bound_cons.mpr (.inl hhere)) hvalue
  · rename_i hhere
    cases hrun
    rw [isDeclaredHere_iff hs] at hhere
    change Step _ _ (s.declare name).scopes
    rw [scopes_declare hs]
    exact step_declare hhere hvalue

theorem takes_assignment {name : String} {value : Expr} (hσ : Rooted σ)
    (hvalue : InOrderAt σ (Expr.parts · value)) : Takes (assignment name value) σ (Step σ) := by
  intro s ts s' hs hrun
  unfold assignment at hrun
  split at hrun
  · rename_i hbound
    cases hrun
    rw [isBound_iff, hs] at hbound
    change Step _ _ s.scopes
    rw [hs]
    exact step_assign hbound hvalue
  rename_i hbound
  rw [isBound_iff, hs] at hbound
  split at hrun
  · cases hrun
    obtain ⟨scope, outer, rfl⟩ := hσ.exists_cons
    rw [bound_cons, not_or] at hbound
    change Step _ _ (s.declare name).scopes
    rw [scopes_declare hs]
    exact step_declare hbound.1 hvalue
  · cases hrun
    subst hs
    exact step_hoist hbound hσ hvalue

/-! ## Blocks -/

theorem takes_sequence {build : Node → Emit (List Stmt)}
    (h : ∀ n σ, Rooted σ → Takes (build n) σ (Step σ)) (ns : List Node) (hσ : Rooted σ) :
    Takes (sequence build ns) σ (Step σ) := by
  induction ns generalizing σ with
  | nil => exact takes_pure (.nil σ)
  | cons n ns ih =>
    refine (h n σ hσ).bind fun first σ' hfirst => ?_
    refine (ih (hfirst.grown.rooted hσ)).bind fun more σ'' hmore => ?_
    exact takes_pure (hfirst.append hmore)

/-- What is asked of a block: the stack behind it, and its parts. -/
structure BlockStep (isFunction : Bool) (bound : List String) (σ : List Scope) (b : Block)
    (σ' : List Scope) : Prop where
  grown : Grown [] σ σ'
  closed : isFunction = true → σ' = σ
  inOrder : InOrderAt σ' (Block.parts · bound b)

/-- **A block is closed with a stack that suits its frame.** All that its scope has by then is bound
from outside, hoisted or declared in it, and so it is with the frame at the end of the block. -/
theorem Step.block {bound : List String} {s : Scope} {body : List Stmt}
    (h : Step (s :: σ) body σ'') (hbound : ∀ x, x ∈ s.names ↔ x ∈ bound)
    (hempty : s.hoisted = []) :
    ∃ scope σ', σ'' = scope :: σ' ∧
      BlockStep s.isFunction bound σ (.mk scope.hoisted body) σ' := by
  obtain ⟨hs, scope, σ', rfl, hscope, hout, hclosed⟩ := h.grown.exists_scope
  have hhoisted : scope.hoisted = hs := by rw [hscope.hoisted, hempty, List.nil_append]
  have hfresh : ∀ x ∈ hs ++ lets body, x ∉ bound := by
    intro x hx
    rw [← hbound]
    exact hscope.fresh x hx
  refine ⟨scope, σ', rfl, hout, hclosed, fun env hsuits p hp => ?_⟩
  simp only [Block.parts, hhoisted] at hp
  rcases List.mem_cons.mp hp with rfl | hp
  · exact ⟨hscope.nodup, hfresh⟩
  -- At the end of the block, scope and frame have the same names.
  have hends : ∀ x, x ∈ scope.names ↔ x ∈ bound ++ hs ++ lets body := by
    intro x
    rw [hscope.names, hbound, List.append_assoc, List.mem_append, List.mem_append]
  refine h.inOrder _ env (by simp) (fun x hx => ?_) ?_ p hp
  · have hnodup := (List.nodup_append.mp hscope.nodup).2.2
    simp only [List.mem_append, not_or]
    exact ⟨hfresh x (List.mem_append_right _ hx), fun hhs => hnodup x hhs x hx rfl⟩
  · refine .scope (congrArg some hsuits.scopeCount_eq) (fun x hx => (hends x).mp hx) ?_ hsuits
    exact fun x hx => .inl ((hends x).mpr hx)

theorem takes_inScope {isFunction : Bool} {bound : List String} {build : Emit (List Stmt)}
    (h : ∀ scope : Scope, Takes build (scope :: σ) (Step (scope :: σ))) :
    Takes (inScope isFunction bound build) σ (BlockStep isFunction bound σ) := by
  intro s b s' hs hrun
  unfold inScope at hrun
  dsimp only at hrun
  split at hrun
  · rename_i body s₁ heq
    have hstep := h (bound.foldl Scope.declare { isFunction }) _ _ _ (by rw [hs]) heq
    have hnames : ∀ x, x ∈ (bound.foldl Scope.declare { isFunction }).names ↔ x ∈ bound := by
      simp [mem_names_opened]
    obtain ⟨scope, σ', hscopes, hblock⟩ := hstep.block hnames (opened_hoisted bound _)
    rw [hscopes] at hrun
    dsimp only at hrun
    cases hrun
    rwa [opened_isFunction] at hblock
  · cases hrun

/-! ## Expressions and statements -/

/-- What is asked of an expression: the stack is as it was, and the parts are in order. -/
structure ExprStep (σ : List Scope) (e : Expr) (σ' : List Scope) : Prop where
  unchanged : σ' = σ
  inOrder : InOrderAt σ (Expr.parts · e)

/-- An expression is built, and then what it is part of, with the same stack. -/
theorem Takes.operand {q : Emit Expr} {g : Expr → Emit β} {Q : β → List Scope → Prop}
    (hq : Takes q σ (ExprStep σ))
    (hg : ∀ e, InOrderAt σ (Expr.parts · e) → Takes (g e) σ Q) : Takes (q >>= g) σ Q := by
  refine hq.bind ?_
  rintro e _ ⟨rfl, he⟩
  exact hg e he

/-- What is asked of a builder. -/
structure Builder.InOrder (b : Builder) : Prop where
  stmt : ∀ n σ, Rooted σ → Takes (b.stmt n) σ (Step σ)
  expr : ∀ n σ, Rooted σ → Takes (b.expr n) σ (ExprStep σ)

section Bodies

variable {b : Builder}

theorem takes_block (h : b.InOrder) (isFunction : Bool) (bound : List String) (body : List Node)
    (hσ : Rooted σ) : Takes (block b isFunction bound body) σ (BlockStep isFunction bound σ) := by
  refine takes_inScope fun scope => takes_sequence h.stmt body ?_
  obtain ⟨t, ht, hfunction⟩ := hσ
  exact ⟨t, List.mem_cons_of_mem _ ht, hfunction⟩

theorem takes_function (h : b.InOrder) (params : Node) (body : List Node) (hσ : Rooted σ) :
    Takes (function b params body) σ (ExprStep σ) := by
  cases params with
  | params _ params =>
    refine (takes_paramNames params).bind ?_
    rintro names _ rfl
    refine (takes_block h true names body hσ).bind fun block σ' hblock => takes_pure ?_
    refine ⟨hblock.closed rfl, ?_⟩
    simp only [Expr.parts]
    exact hblock.closed rfl ▸ hblock.inOrder
  | _ => exact takes_fail

theorem takes_each (h : b.InOrder) (ns : List Node) (hσ : Rooted σ) :
    Takes (each b.expr ns) σ fun es σ' => σ' = σ ∧ InOrderAt σ (argParts · es) := by
  induction ns with
  | nil =>
    refine takes_pure ⟨rfl, ?_⟩
    simp only [argParts]
    exact .nil
  | cons n ns ih =>
    refine (h.expr n σ hσ).operand fun first hfirst => ?_
    refine ih.bind ?_
    rintro more _ ⟨rfl, hmore⟩
    refine takes_pure ⟨rfl, ?_⟩
    simp only [argParts]
    exact hfirst.append hmore

theorem exprStep_choice {a c d : Expr} (ha : InOrderAt σ (Expr.parts · a))
    (hc : InOrderAt σ (Expr.parts · c)) (hd : InOrderAt σ (Expr.parts · d)) :
    ExprStep σ (.choice a c d) σ := by
  refine ⟨rfl, ?_⟩
  simp only [Expr.parts]
  exact (ha.append hc).append hd

/-- An expression leaves the stack as it was, since whatever is hoisted inside it is hoisted in the
body of a function. -/
theorem takes_exprBody (h : b.InOrder) (n : Node) (hσ : Rooted σ) :
    Takes (exprBody b n) σ (ExprStep σ) := by
  have hexpr := fun n => h.expr n σ hσ
  cases n with
  | str | num =>
    refine takes_pure ⟨rfl, ?_⟩
    simp only [Expr.parts]
    exact .nil
  | ident _ name =>
    intro s e s' hs hrun
    cases hrun
    subst hs
    refine ⟨rfl, ?_⟩
    simp only [Expr.parts]
    exact inOrderAt_use name
  | unary _ _ a | cast _ a _ | member _ a _ =>
    refine (hexpr a).operand fun a ha => ?_
    refine takes_pure ⟨rfl, ?_⟩
    simpa only [Expr.parts] using ha
  | binary _ op a c =>
    refine (hexpr a).operand fun a ha => ?_
    refine (hexpr c).operand fun c hc => ?_
    refine takes_pure ⟨rfl, ?_⟩
    simp only [Expr.parts]
    exact ha.append hc
  | function _ params body => exact takes_function h params body hσ
  | call _ callee args =>
    refine (hexpr callee).operand fun callee hcallee => ?_
    refine (takes_each h args hσ).bind ?_
    rintro args _ ⟨rfl, hargs⟩
    refine takes_pure ⟨rfl, ?_⟩
    simp only [Expr.parts]
    exact hcallee.append hargs
  | branch _ a c d =>
    refine (hexpr a).operand fun a ha => ?_
    refine (hexpr c).operand fun c hc => ?_
    cases d with
    | none =>
      refine takes_pure (exprStep_choice ha hc ?_)
      simp only [Expr.parts]
      exact .nil
    | some d =>
      refine (hexpr d).operand fun d hd => ?_
      exact takes_pure (exprStep_choice ha hc hd)
  | choice _ a c d =>
    refine (hexpr a).operand fun a ha => ?_
    refine (hexpr c).operand fun c hc => ?_
    refine (hexpr d).operand fun d hd => ?_
    exact takes_pure (exprStep_choice ha hc hd)
  | params | param | type => exact takes_fail
  | program | doc | declare | assign | increment | doWhile | result | forLess | block =>
    exact takes_fail

theorem takes_stmtBody (docs : Bool) (h : b.InOrder) (n : Node) (hσ : Rooted σ) :
    Takes (stmtBody docs b n) σ (Step σ) := by
  have hexpr := fun n => h.expr n σ hσ
  have hvalue : Takes (do let value ← b.expr n; pure [.expr value]) σ (Step σ) := by
    refine (hexpr n).operand fun value hvalue => ?_
    refine takes_pure (.plain rfl (.refl _) ?_)
    simpa only [Stmt.parts] using hvalue
  cases n with
  | program _ ns | block _ ns => exact takes_sequence h.stmt ns hσ
  | doc _ text =>
    have hcomment : ∀ text, Step σ [.comment text] σ := by
      intro text
      refine .plain rfl (.refl σ) ?_
      simp only [Stmt.parts]
      exact .nil
    cases docs with
    | false => exact takes_pure (.nil σ)
    | true =>
      cases text with
      | str => exact takes_pure (hcomment _)
      | _ => exact takes_pure (.nil σ)
  | declare _ name value =>
    refine (hexpr value).operand fun value hvalue => ?_
    refine (takes_bindingName name).bind ?_
    rintro name _ rfl
    exact takes_declaration hσ hvalue
  | assign _ name value =>
    refine (hexpr value).operand fun value hvalue => ?_
    refine (takes_bindingName name).bind ?_
    rintro name _ rfl
    exact takes_assignment hσ hvalue
  | increment _ name =>
    refine (takes_bindingName name).bind ?_
    rintro name _ rfl
    intro s ts s' hs hrun
    cases hrun
    subst hs
    refine .plain rfl (.refl _) ?_
    simp only [Stmt.parts]
    exact inOrderAt_use name
  | result _ value =>
    refine (hexpr value).operand fun value hvalue => ?_
    refine takes_pure (.plain rfl (.refl _) ?_)
    simpa only [Stmt.parts] using hvalue
  | forLess _ var start stop body =>
    refine (takes_bindingName var).bind ?_
    rintro v _ rfl
    refine (hexpr start).operand fun start hstart => ?_
    refine (hexpr stop).operand fun stop hstop => ?_
    refine (takes_block h false [v] body hσ).bind fun body σ' hbody => ?_
    refine takes_pure (.plain rfl hbody.grown ?_)
    simp only [Stmt.parts]
    -- The bounds were built before the body, with the variable not yet in the stack.
    have hbounds := (hstart.head [] [v]).append (hstop.head [v] [])
    exact (hbounds.before hbody.grown).append hbody.inOrder
  | doWhile _ body condition =>
    refine (takes_block h false [] (bodyOf body) hσ).bind fun body σ' hbody => ?_
    refine (h.expr condition σ' (hbody.grown.rooted hσ)).operand fun condition hcondition => ?_
    refine takes_pure (.plain rfl hbody.grown ?_)
    simp only [Stmt.parts]
    exact hbody.inOrder.append hcondition
  | branch _ condition yes no =>
    refine (hexpr condition).operand fun condition hcondition => ?_
    refine (takes_block h false [] (bodyOf yes) hσ).bind fun yes σ' hyes => ?_
    have hfirst := (hcondition.before hyes.grown).append hyes.inOrder
    cases no with
    | none =>
      refine takes_pure (.plain rfl hyes.grown ?_)
      simpa only [Stmt.parts] using hfirst
    | some no =>
      refine (takes_block h false [] (bodyOf no) (hyes.grown.rooted hσ)).bind fun no σ'' hno => ?_
      refine takes_pure (.plain rfl (hyes.grown.trans hno.grown) ?_)
      simp only [Stmt.parts]
      exact (hfirst.before hno.grown).append hno.inOrder
  | params | param | type => exact takes_fail
  | str | num | ident | unary | binary | function | call | cast | choice | member => exact hvalue

end Bodies

theorem builder_inOrder (docs : Bool) (room : Nat) : (builder docs room).InOrder := by
  induction room with
  | zero => exact ⟨fun _ _ _ => takes_fail, fun _ _ _ => takes_fail⟩
  | succ room ih =>
    constructor
    · intro n σ hσ
      refine Takes.nested fun s ts s' hs hrun => ?_
      exact takes_stmtBody docs ih n hσ s.countStatement ts s' hs hrun
    · intro n σ hσ
      refine Takes.nested fun s e s' hs hrun => ?_
      exact takes_exprBody ih n hσ s.countExpression e s' hs hrun

/-- **Every part of a script is in order.** The program is the outermost block. -/
theorem takes_program (docs : Bool) (n : Node) :
    Takes (program docs n) [{ isFunction := true }]
      fun code _ => ∀ p ∈ code.parts [] [], p.InOrder := by
  have hbuilder := builder_inOrder docs Limits.emitDepth
  have hroot : Rooted [{ isFunction := true }] := ⟨_, List.mem_cons_self, rfl⟩
  have hclose : ∀ body σ', Step [{ isFunction := true }] body σ' → Takes (close body) σ'
      fun code _ => ∀ p ∈ code.parts [] [], p.InOrder := by
    intro body σ' hstep
    obtain ⟨scope, outer, rfl, hblock⟩ := @Step.block _ _ [] _ _ hstep (fun _ => Iff.rfl) rfl
    obtain rfl : outer = [] := hblock.closed rfl
    intro s code s' hs hrun
    have hlast : s.scopes.getLast? = some scope := by rw [hs]; rfl
    rw [close_ok hlast] at hrun
    cases hrun
    exact hblock.inOrder [] .nil
  cases n with
  | program _ forms => exact (takes_sequence hbuilder.stmt forms hroot).bind hclose
  | _ => exact (hbuilder.stmt _ _ hroot).bind hclose

theorem inOrder_of_ofNode {options : ScriptOptions} {n : Node} {code : Block} {s : Emitting}
    (h : ofNode options n = .ok code s) : ∀ p ∈ code.parts [] [], p.InOrder :=
  takes_program options.docComments n _ code s rfl h

/-- A tree that is built and passes a test, found by running the builder. -/
theorem exists_ofNode {options : ScriptOptions} {n : Node} {test : Block → Bool}
    (h : ((program options.docComments n).run' { scopes := [{ isFunction := true }] }).any test) :
    ∃ code s, ofNode options n = .ok code s ∧ test code = true := by
  unfold EStateM.run' EStateM.run at h
  cases hcode : ofNode options n with
  | error e s =>
    unfold ofNode at hcode
    rw [hcode] at h
    cases h
  | ok code s =>
    unfold ofNode at hcode
    rw [hcode] at h
    exact ⟨code, s, rfl, h⟩

end ScriptTree

/-- **The declarations of a script are in order.** The script is the text of a tree, in which each
block begins with one `let` for the names hoisted there. Every assignment stands in a scope that has
declared the name by then: by a `let` in front of it, by a hoisted `let`, as a loop's variable or as
a parameter. No block declares a name twice, be it hoisted or not, and none declares again what is
bound from outside, the parameters of a function or a loop's variable. -/
theorem script_declarations (options : ScriptOptions) (n : Node) (text : String) (s : Emitting)
    (h : writeScript options n = .ok text s) :
    ∃ code, ScriptTree.ofNode options n = .ok code s ∧ text = options.front ++ code.text 0 ∧
      (∀ name found env, .assign name found env ∈ code.parts [] [] →
        ∃ f ∈ env, f.level ≠ none ∧ name ∈ f.ready) ∧
      ∀ bound hoisted lets, .block bound hoisted lets ∈ code.parts [] [] →
        (hoisted ++ lets).Nodup ∧ ∀ x ∈ hoisted ++ lets, x ∉ bound := by
  obtain ⟨code, hcode, htext⟩ := exists_tree_of_writeScript h
  have hparts := ScriptTree.inOrder_of_ofNode hcode
  refine ⟨code, hcode, htext, ?_, ?_⟩
  · intro name found env hmem
    exact (hparts _ hmem).1
  · intro bound hoisted lets hmem
    exact hparts _ hmem

/-- `(if c (set! y 1))` and `(call print y)`: the name is hoisted out of the block. -/
def hoistingTree : Node :=
  .program {} [
    .branch {} (.ident {} "c")
      (.assign {} (.ident {} "y") (.num {} ((Binary64.ofDecimal? ['1']).getD default) "1")) none,
    .call {} (.ident {} "print") [.ident {} "y"]]

/-- The hoisted declaration is the one that the assignment in the block stands under. -/
theorem script_declarations_hoisted : ∃ text s, ∃ code : ScriptTree.Block,
    writeScript {} hoistingTree = .ok text s ∧
    code.text 0 = "let y;\nif (c) \x7b\n  y = 1;\n\x7d\nnih_print(y);\n" ∧
    .assign "y" none [⟨some 1, [], []⟩, ⟨some 0, ["y"], []⟩] ∈ code.parts [] [] ∧
    (∀ name found env, .assign name found env ∈ code.parts [] [] →
      ∃ f ∈ env, f.level ≠ none ∧ name ∈ f.ready) ∧
    ∀ bound hoisted lets, .block bound hoisted lets ∈ code.parts [] [] →
      (hoisted ++ lets).Nodup ∧ ∀ x ∈ hoisted ++ lets, x ∉ bound := by
  obtain ⟨code, s, hcode, hcheck⟩ := @ScriptTree.exists_ofNode {} hoistingTree
    (fun code => code.text 0 = "let y;\nif (c) \x7b\n  y = 1;\n\x7d\nnih_print(y);\n" ∧
      .assign "y" none [⟨some 1, [], []⟩, ⟨some 0, ["y"], []⟩] ∈ code.parts [] [])
    (by decide +kernel)
  have hwrite := writeScript_eq {} hoistingTree
  rw [hcode] at hwrite
  obtain ⟨code', hcode', -, hassigned, hblocks⟩ := script_declarations {} hoistingTree _ s hwrite
  obtain rfl : code' = code := by
    rw [hcode] at hcode'
    cases hcode'
    rfl
  obtain ⟨htext, hmem⟩ := of_decide_eq_true hcheck
  exact ⟨_, s, code', hwrite, htext, hmem, hassigned, hblocks⟩

theorem writeScript_of_compile {p : Preferences} {source : List Char} {c : Compiled}
    (h : compile p source = .ok c) : writeScript p.scriptOptions c.tree = .ok c.code c.emitting :=
  (compile_eq_ok_iff.mp h).2.2

/-- **What names refer to.** In the script of a source that compiles, a name that the writer found
in a scope refers to the declaration that belongs to that scope, which has been made when the name
is reached, unless another one further in takes its place: a `let` that is yet to be made, or the
variable of a loop in whose head the name stands. -/
theorem compiled_names_resolve (p : Preferences) (source : List Char) (c : Compiled)
    (h : compile p source = .ok c) :
    ∃ code, ScriptTree.ofNode p.scriptOptions c.tree = .ok code c.emitting ∧
      c.code = p.scriptOptions.front ++ code.text 0 ∧
      ∀ name k env, (.use name (some k) env ∈ code.parts [] [] ∨
          .assign name (some k) env ∈ code.parts [] []) →
        ScriptTree.refers name env = some (some k, true) ∨
        (∃ j, k < j ∧ ScriptTree.refers name env = some (some j, false)) ∨
        ∃ made, ScriptTree.refers name env = some (none, made) := by
  obtain ⟨code, hcode, htext⟩ := exists_tree_of_writeScript (writeScript_of_compile h)
  have hparts := ScriptTree.inOrder_of_ofNode hcode
  refine ⟨code, hcode, htext, ?_⟩
  rintro name k env (hmem | hmem)
  · exact hparts _ hmem k rfl
  · exact (hparts _ hmem).2 k rfl

/-- `(let x 1)` and `(if c (do (set! x 2) (let x 3)))`: behind the assignment, its block has a `let`
of the same name. -/
def capturingSource : List Char :=
  "#lang = nih-sexpr\n(let x 1)\n(if c (do (set! x 2) (let x 3)))".toList

/-- The assignment, found at the level of the program, as seen from where it stands. -/
def capturedPart : ScriptTree.Part :=
  .assign "x" (some 0) [⟨some 1, [], ["x"]⟩, ⟨some 0, ["x"], []⟩]

theorem capturedPart_mem : ∃ c code, compile {} capturingSource = .ok c ∧
    ScriptTree.ofNode ({} : Preferences).scriptOptions c.tree = .ok code c.emitting ∧
    code.text 0 = "let x = 1;\nif (c) \x7b\n  x = 2;\n  let x = 3;\n\x7d\n" ∧
    capturedPart ∈ code.parts [] [] := by
  have hcheck : ((compile {} capturingSource).toOption.any fun c =>
      ((ScriptTree.program ({} : Preferences).scriptOptions.docComments c.tree).run'
        { scopes := [{ isFunction := true }] }).any fun code =>
          code.text 0 = "let x = 1;\nif (c) \x7b\n  x = 2;\n  let x = 3;\n\x7d\n" ∧
            capturedPart ∈ code.parts [] []) = true := by decide +kernel
  cases hc : compile {} capturingSource with
  | error e =>
    rw [hc] at hcheck
    cases hcheck
  | ok c =>
    rw [hc, Except.toOption, Option.any_some] at hcheck
    obtain ⟨code, s, hcode, hcheck⟩ := ScriptTree.exists_ofNode hcheck
    obtain ⟨code', hcode', -⟩ := exists_tree_of_writeScript (writeScript_of_compile hc)
    rw [hcode] at hcode'
    cases hcode'
    exact ⟨c, code, rfl, hcode, of_decide_eq_true hcheck⟩

/-- The assignment refers to a declaration further in, which is yet to be made. -/
theorem capturing_names_resolve : ∃ c code, compile {} capturingSource = .ok c ∧
    ScriptTree.ofNode ({} : Preferences).scriptOptions c.tree = .ok code c.emitting ∧
    ∀ name k env, (.use name (some k) env ∈ code.parts [] [] ∨
        .assign name (some k) env ∈ code.parts [] []) →
      ScriptTree.refers name env = some (some k, true) ∨
      (∃ j, k < j ∧ ScriptTree.refers name env = some (some j, false)) ∨
      ∃ made, ScriptTree.refers name env = some (none, made) := by
  obtain ⟨c, -, hc, -, -, -⟩ := capturedPart_mem
  obtain ⟨code, hcode, -, hresolves⟩ := compiled_names_resolve {} capturingSource c hc
  exact ⟨c, code, hc, hcode, hresolves⟩

/-- **A name is not always taken from where the writer found it.** The assignment to `x` was found
in the program's own scope, and it refers to the `let` that follows it in its block. -/
theorem captured_assignment : ¬ ∀ (p : Preferences) (source : List Char) (c : Compiled)
    (code : ScriptTree.Block) (s : Emitting), compile p source = .ok c →
    ScriptTree.ofNode p.scriptOptions c.tree = .ok code s →
    ∀ name k env, (.use name (some k) env ∈ code.parts [] [] ∨
        .assign name (some k) env ∈ code.parts [] []) →
      ScriptTree.refers name env = some (some k, true) := by
  intro h
  obtain ⟨c, code, hc, hcode, -, hmem⟩ := capturedPart_mem
  have hrefers := h {} capturingSource c code c.emitting hc hcode "x" 0
    [⟨some 1, [], ["x"]⟩, ⟨some 0, ["x"], []⟩] (.inr hmem)
  have hinner : ScriptTree.refers "x" [⟨some 1, [], ["x"]⟩, ⟨some 0, ["x"], []⟩]
      = some (some 1, false) := by decide
  rw [hinner] at hrefers
  cases hrefers

end FormScript
