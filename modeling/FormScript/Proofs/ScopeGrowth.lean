import FormScript.Proofs.Scoping

/-!
# What writing does to the writer's state

While a node is written, scopes are opened and closed, and indentation and depth go up and down.
When it has been written, or has turned out to be impossible to write, all that is as it was. What
remains is names: those declared in the innermost scope, and those hoisted in the nearest function
scope.

The scopes around a node change in two ways only (`Enlarged`): a name is declared in the innermost
one, or a name that none of them has is hoisted. A block takes its own scope away with it, so that
of the scopes around it only hoisting is seen, and not even that if the block is the body of a
function (`Enlarged.outside`). Functions are the only blocks in an expression, so an expression
leaves all scopes as they were. Both facts are proved together, from one level of nesting to the
next (`Script.steady_writer`). What they say about a single scope is `Scope.Gains`.
-/

namespace FormScript

/-! ## Stacks that have grown -/

/-- The stack has become another one: some names were hoisted, each of them bound nowhere at the
time, and some were declared in the innermost scope if that is the statements' own. -/
inductive Enlarged (own : Bool) (σ : List Scope) : List Scope → Prop
  | refl : Enlarged own σ σ
  | declare {s : Scope} {outer : List Scope} (name : String) (h : own = true)
      (before : Enlarged own σ (s :: outer)) : Enlarged own σ (s.declare name :: outer)
  | hoist {σ' : List Scope} {name : String} (fresh : ¬ Bound σ' name)
      (before : Enlarged own σ σ') : Enlarged own σ (hoistIn name σ')

namespace Enlarged

variable {own : Bool} {σ σ' σ'' : List Scope}

theorem trans (h : Enlarged own σ σ') (h' : Enlarged own σ' σ'') : Enlarged own σ σ'' := by
  induction h' with
  | refl => exact h
  | declare name hown _ ih => exact .declare name hown ih
  | hoist fresh _ ih => exact .hoist fresh ih

theorem of_outside (h : Enlarged false σ σ') : Enlarged own σ σ' := by
  induction h with
  | refl => exact .refl
  | declare name hown => cases hown
  | hoist fresh _ ih => exact .hoist fresh ih

/-- **What is seen of a block from outside** is hoisting, and nothing at all if its scope is a
function's. -/
theorem outside {s : Scope} (h : Enlarged own (s :: σ) σ'') :
    ∃ s' σ', σ'' = s' :: σ' ∧ s'.isFunction = s.isFunction ∧ Enlarged false σ σ' ∧
      (s.isFunction = true → σ' = σ) := by
  induction h with
  | refl => exact ⟨s, σ, rfl, rfl, .refl, fun _ => rfl⟩
  | declare name hown _ ih =>
    obtain ⟨s', σ', heq, hkind, houter, hclosed⟩ := ih
    obtain ⟨rfl, rfl⟩ := List.cons.inj heq
    exact ⟨_, _, rfl, (Scope.declare_isFunction _ name).trans hkind, houter, hclosed⟩
  | @hoist _ name fresh _ ih =>
    obtain ⟨s', σ', rfl, hkind, houter, hclosed⟩ := ih
    rw [hoistIn]
    -- A function keeps the name to itself, and a block passes it on to the scopes around it.
    split
    · exact ⟨_, _, rfl, (s'.declare_isFunction name).trans hkind, houter, hclosed⟩
    · rename_i hblock
      rw [bound_cons, not_or] at fresh
      refine ⟨_, _, rfl, hkind, .hoist fresh.2 houter, fun hs => ?_⟩
      exact absurd (hkind.trans hs) hblock

end Enlarged

/-! ## Steps -/

namespace Script

variable {α β : Type}

/-- The state that is left, by success as by failure. -/
def stateOf : EStateM.Result EmitError Emitting α → Emitting
  | .ok _ s => s
  | .error _ s => s

/-- Nothing but counts and scopes has changed, and of the scopes only what `R` allows. -/
structure Kept (R : List Scope → List Scope → Prop) (s s' : Emitting) : Prop where
  indent : s'.indent = s.indent
  depth : s'.depth = s.depth
  scopes : R s.scopes s'.scopes

/-- Whether the step succeeds or not, it keeps the state but for such scopes. -/
def Keeps (R : List Scope → List Scope → Prop) (q : Emit α) : Prop := ∀ s, Kept R s (stateOf (q s))

theorem Keeps.bind {R : List Scope → List Scope → Prop} {q : Emit α} {f : α → Emit β}
    (htrans : ∀ {σ σ' σ''}, R σ σ' → R σ' σ'' → R σ σ'') (hq : Keeps R q)
    (hf : ∀ a, Keeps R (f a)) : Keeps R (q >>= f) := by
  intro s
  have hfirst := hq s
  change Kept R s (stateOf (EStateM.bind q f s))
  unfold EStateM.bind
  cases hrun : q s with
  | ok a s' =>
    rw [hrun] at hfirst
    have hrest := hf a s'
    exact ⟨hrest.indent.trans hfirst.indent, hrest.depth.trans hfirst.depth,
      htrans hfirst.scopes hrest.scopes⟩
  | error e s' =>
    rw [hrun] at hfirst
    exact hfirst

/-- The step leaves the scopes as they were. -/
abbrev Still (q : Emit α) : Prop := Keeps Eq q

/-- The step may declare names and hoist names. -/
abbrev Steady (q : Emit α) : Prop := Keeps (Enlarged true) q

theorem Still.andThen {q : Emit α} {f : α → Emit β} (hq : Still q) (hf : ∀ a, Still (f a)) :
    Still (q >>= f) :=
  hq.bind Eq.trans hf

theorem Steady.andThen {q : Emit α} {f : α → Emit β} (hq : Steady q) (hf : ∀ a, Steady (f a)) :
    Steady (q >>= f) :=
  hq.bind Enlarged.trans hf

theorem Still.steady {q : Emit α} (h : Still q) : Steady q := fun s =>
  ⟨(h s).indent, (h s).depth, (h s).scopes ▸ .refl⟩

theorem still_pure {a : α} : Still (pure a) := fun _ => ⟨rfl, rfl, rfl⟩

theorem still_fail {cause : EmitCause} {span : Span} : Still (fail cause span : Emit α) :=
  fun _ => ⟨rfl, rfl, rfl⟩

theorem still_line {text : String} : Still (line text) := fun _ => ⟨rfl, rfl, rfl⟩

theorem still_get : Still (get : Emit Emitting) := fun _ => ⟨rfl, rfl, rfl⟩

theorem still_identifier {name : String} : Still (identifier name) := fun _ => ⟨rfl, rfl, rfl⟩

theorem still_bindingName (n : Node) : Still (bindingName n) := by
  unfold bindingName
  split
  · exact still_pure
  · exact still_fail

theorem still_paramNames (ns : List Node) : Still (paramNames ns) := by
  induction ns with
  | nil => exact still_pure
  | cons n rest ih =>
    cases n with
    | param m name =>
      exact (still_bindingName name).andThen fun _ => ih.andThen fun _ => still_pure
    | _ => exact still_fail

theorem kept_declare (s : Emitting) (name : String) :
    Kept (Enlarged true) s (s.declare name).countBinding := by
  unfold Emitting.declare
  split
  · exact ⟨rfl, rfl, .refl⟩
  · rename_i scope outer hscopes
    refine ⟨rfl, rfl, ?_⟩
    rw [hscopes]
    exact .declare name rfl .refl

theorem steady_declaration (name value : String) : Steady (declaration name value) := by
  intro s
  unfold declaration
  split
  · exact ⟨rfl, rfl, .refl⟩
  · exact kept_declare s name

theorem steady_assignment (name value : String) : Steady (assignment name value) := by
  intro s
  unfold assignment
  split
  · exact ⟨rfl, rfl, .refl⟩
  · rename_i hbound
    split
    · exact kept_declare s name
    · exact ⟨rfl, rfl, .hoist (fun h => hbound (isBound_iff.mpr h)) .refl⟩

/-! ## Going in and coming out -/

theorem Keeps.nested {R : List Scope → List Scope → Prop} {step : Emit α} (h : Keeps R step) :
    Keeps R (nested step) := by
  intro s
  obtain ⟨hindent, hdepth, hscopes⟩ := h { s with
    depth := s.depth + 1
    tally := { s.tally with deepest := max s.tally.deepest (s.depth + 1) } }
  have hback : ∀ s' : Emitting, s'.depth = s.depth + 1 → s'.depth - 1 = s.depth := by omega
  unfold Script.nested
  dsimp only
  split <;> rename_i hrun <;> rw [hrun] at hindent hdepth hscopes <;>
    exact ⟨hindent, hback _ hdepth, hscopes⟩

theorem stateOf_inScope (isFunction : Bool) (bound : List String) (step : Emit String)
    (s : Emitting) :
    let inner := stateOf (step { s with
      scopes := bound.foldl Scope.declare { isFunction } :: s.scopes
      indent := s.indent + 1 })
    stateOf (inScope isFunction bound step s) =
      { inner with scopes := inner.scopes.tail, indent := inner.indent - 1 } := by
  unfold inScope
  dsimp only
  split <;> rename_i hrun <;> rw [hrun] <;> rfl

/-- The scope that was opened is closed again, and outside nothing is seen but hoisting. -/
theorem Steady.inScope {step : Emit String} (h : Steady step) (isFunction : Bool)
    (bound : List String) (s : Emitting) :
    let s' := stateOf (inScope isFunction bound step s)
    s'.indent = s.indent ∧ s'.depth = s.depth ∧ Enlarged false s.scopes s'.scopes ∧
      (isFunction = true → s.scopes = s'.scopes) := by
  obtain ⟨hindent, hdepth, hscopes⟩ := h { s with
    scopes := bound.foldl Scope.declare { isFunction } :: s.scopes
    indent := s.indent + 1 }
  obtain ⟨scope, σ, heq, -, houter, hclosed⟩ := hscopes.outside
  rw [opened_isFunction] at hclosed
  rw [stateOf_inScope]
  dsimp only
  rw [heq, hindent]
  exact ⟨rfl, hdepth, houter, fun h => (hclosed h).symm⟩

theorem Steady.inFunction {step : Emit String} (h : Steady step) (bound : List String) :
    Still (Script.inScope true bound step) := fun s =>
  have ⟨hindent, hdepth, _, hclosed⟩ := h.inScope true bound s
  ⟨hindent, hdepth, hclosed rfl⟩

theorem Steady.inBlock {step : Emit String} (h : Steady step) (bound : List String) :
    Steady (Script.inScope false bound step) := fun s =>
  have ⟨hindent, hdepth, houter, _⟩ := h.inScope false bound s
  ⟨hindent, hdepth, houter.of_outside⟩

theorem steady_sequence {write : Node → Emit String} (h : ∀ n, Steady (write n))
    (ns : List Node) (out : String) : Steady (sequence write ns out) := by
  induction ns generalizing out with
  | nil => exact still_pure.steady
  | cons n ns ih => exact (h n).andThen fun text => ih _

theorem still_each {write : Node → Emit String} (h : ∀ n, Still (write n))
    (ns : List Node) (done : List String) : Still (each write ns done) := by
  induction ns generalizing done with
  | nil => exact still_pure
  | cons n ns ih => exact (h n).andThen fun text => ih _

/-! ## Every node -/

/-- Statements change names only, and expressions not even those. -/
structure Writer.Steady (w : Writer) : Prop where
  stmt : ∀ n, Script.Steady (w.stmt n)
  expr : ∀ n, Still (w.expr n)

theorem steady_block {below : Writer} (h : below.Steady) (bound : List String) (body : List Node) :
    Steady (block below false bound body) :=
  (steady_sequence h.stmt body "").inBlock bound

theorem still_function {below : Writer} (h : below.Steady) (params : Node) (body : List Node) :
    Still (function below params body) := by
  unfold function
  split
  · rename_i m params
    refine (still_paramNames params).andThen fun names => ?_
    refine ((steady_sequence h.stmt body "").inFunction names).andThen fun text => ?_
    exact still_get.andThen fun _ => still_pure
  · exact still_fail

theorem still_exprBody {below : Writer} (h : below.Steady) (n : Node) :
    Still (exprBody below n) := by
  cases n with
  | str | num => exact still_pure
  | ident => exact still_identifier
  | unary _ op a => exact (h.expr a).andThen fun _ => still_pure
  | binary _ op a b =>
    exact (h.expr a).andThen fun _ => (h.expr b).andThen fun _ => still_pure
  | function _ params body => exact still_function h params body
  | call _ callee args =>
    refine (h.expr callee).andThen fun _ => ?_
    exact (still_each h.expr args []).andThen fun _ => still_pure
  | cast _ value target => exact (h.expr value).andThen fun _ => still_pure
  | branch _ a b d =>
    refine (h.expr a).andThen fun _ => (h.expr b).andThen fun _ => ?_
    cases d with
    | none => exact still_pure.andThen fun _ => still_pure
    | some d => exact (h.expr d).andThen fun _ => still_pure
  | choice _ a b d =>
    refine (h.expr a).andThen fun _ => (h.expr b).andThen fun _ => ?_
    exact (h.expr d).andThen fun _ => still_pure
  | member _ object property => exact (h.expr object).andThen fun _ => still_pure
  | params | param | type | program | doc | declare | assign | increment | doWhile | result
  | forLess | block => exact still_fail

theorem steady_stmtBody {docs : Bool} {below : Writer} (h : below.Steady) (n : Node) :
    Steady (stmtBody docs below n) := by
  have hexpr : ∀ n, Steady (below.expr n) := fun n => (h.expr n).steady
  have hname : ∀ n, Steady (bindingName n) := fun n => (still_bindingName n).steady
  have hline : ∀ text, Steady (line text) := fun _ => still_line.steady
  have hpure : ∀ out : String, Steady (pure out) := fun _ => still_pure.steady
  have hvalue : Steady (do let text ← below.expr n; line s!"{text};") :=
    (hexpr n).andThen fun _ => hline _
  cases n with
  | program _ ns | block _ ns => exact steady_sequence h.stmt ns ""
  | doc _ text =>
    intro s
    cases docs <;> cases text <;> exact ⟨rfl, rfl, .refl⟩
  | declare _ name value =>
    exact (hexpr value).andThen fun _ => (hname name).andThen fun _ => steady_declaration _ _
  | assign _ name value =>
    exact (hexpr value).andThen fun _ => (hname name).andThen fun _ => steady_assignment _ _
  | increment _ name => exact (hname name).andThen fun _ => hline _
  | result _ value => exact (hexpr value).andThen fun _ => hline _
  | forLess _ var start stop body =>
    refine (hname var).andThen fun v => (hexpr start).andThen fun _ => ?_
    refine (hexpr stop).andThen fun _ => ?_
    refine (hline _).andThen fun _ => (steady_block h [v] body).andThen fun _ => ?_
    exact (hline _).andThen fun _ => hpure _
  | doWhile _ body condition =>
    refine (hline _).andThen fun _ => (steady_block h [] (bodyOf body)).andThen fun _ => ?_
    exact (hexpr condition).andThen fun _ => (hline _).andThen fun _ => hpure _
  | branch _ condition yes no =>
    refine (hexpr condition).andThen fun _ => (hline _).andThen fun _ => ?_
    refine (steady_block h [] (bodyOf yes)).andThen fun _ => ?_
    cases no with
    | none => exact (hpure _).andThen fun _ => (hline _).andThen fun _ => hpure _
    | some no =>
      refine (hline _).andThen fun _ => (steady_block h [] (bodyOf no)).andThen fun _ => ?_
      exact (hpure _).andThen fun _ => (hline _).andThen fun _ => hpure _
  | params | param | type => exact still_fail.steady
  | str | num | ident | unary | binary | function | call | cast | choice | member => exact hvalue

/-- **Writing is steady**, however deep the nodes are nested. -/
theorem steady_writer (docs : Bool) (room : Nat) : (writer docs room).Steady := by
  -- Statements contain expressions, and functions contain statements: both are needed below.
  induction room with
  | zero => exact ⟨fun _ => still_fail.steady, fun _ => still_fail⟩
  | succ room ih =>
    refine ⟨fun n => Keeps.nested ?_, fun n => Keeps.nested ?_⟩
    · exact Steady.andThen (fun s => ⟨rfl, rfl, .refl⟩) fun _ => steady_stmtBody ih n
    · exact Still.andThen (fun s => ⟨rfl, rfl, rfl⟩) fun _ => still_exprBody ih n

end Script

/-! ## Scope by scope -/

theorem getElem?_hoistIn (name : String) (σ : List Scope) (i : Nat) :
    (hoistIn name σ)[i]? =
      if i = σ.findIdx (·.isFunction) then σ[i]?.map (·.hoist name) else σ[i]? := by
  induction σ generalizing i with
  | nil => simp [hoistIn]
  | cons s outer ih =>
    rw [hoistIn, List.findIdx_cons]
    cases hs : s.isFunction with
    | true => cases i <;> simp
    | false => cases i <;> simp [ih]

theorem map_isFunction_hoistIn (name : String) (σ : List Scope) :
    (hoistIn name σ).map (·.isFunction) = σ.map (·.isFunction) := by
  induction σ with
  | nil => rfl
  | cons s outer ih =>
    rw [hoistIn]
    split
    · rw [List.map_cons, List.map_cons]
      exact congrArg (· :: _) (s.declare_isFunction name)
    · rw [List.map_cons, List.map_cons, ih]

/-- What has become of scope number `i` of a stack: some more names are hoisted. -/
structure Scope.Gains (σ : List Scope) (i : Nat) (s s' : Scope) (more : List String) : Prop where
  /-- No name is lost. -/
  names : ∀ x ∈ s.names, x ∈ s'.names
  /-- Nothing changes but in the innermost scope and in the nearest function scope. -/
  elsewhere : i ≠ 0 → i ≠ σ.findIdx (·.isFunction) → s' = s
  hoisted : s'.hoisted = s.hoisted ++ more
  isFunction : more ≠ [] → s.isFunction = true
  nodup : more.Nodup
  unbound : ∀ x ∈ more, ¬ Bound σ x
  declared : ∀ x ∈ more, x ∈ s'.names

namespace Scope.Gains

variable {σ : List Scope} {i : Nat} {s t : Scope} {more : List String}

theorem refl (σ : List Scope) (i : Nat) (s : Scope) : Gains σ i s s [] where
  names _ h := h
  elsewhere _ _ := rfl
  hoisted := (List.append_nil _).symm
  isFunction h := absurd rfl h
  nodup := List.nodup_nil
  unbound := by simp
  declared := by simp

theorem declare (h : Gains σ 0 s t more) (name : String) : Gains σ 0 s (t.declare name) more where
  names x hx := mem_names_declare.mpr (.inl (h.names x hx))
  elsewhere h := absurd rfl h
  hoisted := (t.declare_hoisted name).trans h.hoisted
  isFunction := h.isFunction
  nodup := h.nodup
  unbound := h.unbound
  declared x hx := mem_names_declare.mpr (.inl (h.declared x hx))

theorem hoist {name : String} (h : Gains σ i s t more) (hi : i = σ.findIdx (·.isFunction))
    (hs : s.isFunction = true) (hfresh : ¬ Bound σ name) (hnew : name ∉ t.names) :
    Gains σ i s (t.hoist name) (more ++ [name]) where
  names x hx := mem_names_declare.mpr (.inl (h.names x hx))
  elsewhere _ hne := absurd hi hne
  hoisted := by rw [Scope.hoist, h.hoisted, List.append_assoc]
  isFunction _ := hs
  nodup := by
    refine List.nodup_append.mpr ⟨h.nodup, List.pairwise_singleton _ _, fun x hx y hy => ?_⟩
    rintro rfl
    -- What was hoisted before is a name of the scope by now.
    exact hnew (List.mem_singleton.mp hy ▸ h.declared x hx)
  unbound x hx := by
    rcases List.mem_append.mp hx with hx | hx
    · exact h.unbound x hx
    · exact List.mem_singleton.mp hx ▸ hfresh
  declared x hx := by
    rcases List.mem_append.mp hx with hx | hx
    · exact mem_names_declare.mpr (.inl (h.declared x hx))
    · exact mem_names_declare.mpr (.inr (List.mem_singleton.mp hx))

end Scope.Gains

namespace Enlarged

variable {own : Bool} {σ σ' : List Scope}

theorem kinds (h : Enlarged own σ σ') : σ'.map (·.isFunction) = σ.map (·.isFunction) := by
  induction h with
  | refl => rfl
  | @declare s outer name _ _ ih =>
    rw [← ih, List.map_cons, List.map_cons, s.declare_isFunction]
  | hoist _ _ ih => rw [map_isFunction_hoistIn, ih]

theorem findIdx_eq (h : Enlarged own σ σ') :
    σ'.findIdx (·.isFunction) = σ.findIdx (·.isFunction) := by
  have := congrArg (List.findIdx id) h.kinds
  rwa [List.findIdx_map, List.findIdx_map] at this

theorem bound (h : Enlarged own σ σ') {x : String} (hx : Bound σ x) : Bound σ' x := by
  induction h with
  | refl => exact hx
  | declare name _ _ ih =>
    rw [bound_cons] at ih ⊢
    exact ih.imp_left fun h => Scope.mem_names_declare.mpr (.inl h)
  | hoist fresh _ ih => exact (grown_hoistIn fresh).bound ih

/-- **One scope of a stack that has grown.** -/
theorem gains (h : Enlarged own σ σ') {i : Nat} {s s' : Scope} (hs : σ[i]? = some s)
    (hs' : σ'[i]? = some s') : ∃ more, Scope.Gains σ i s s' more := by
  induction h generalizing s' with
  | refl =>
    obtain rfl : s = s' := Option.some.inj (hs.symm.trans hs')
    exact ⟨[], .refl σ i s⟩
  | @declare t outer name _ _ ih =>
    cases i with
    | zero =>
      obtain rfl : t.declare name = s' := Option.some.inj hs'
      obtain ⟨more, hmore⟩ := ih rfl
      exact ⟨more, hmore.declare name⟩
    | succ i => exact ih hs'
  | hoist fresh before ih =>
    rw [getElem?_hoistIn, before.findIdx_eq] at hs'
    split at hs'
    · rename_i hi
      obtain ⟨t, ht, rfl⟩ := Option.map_eq_some_iff.mp hs'
      obtain ⟨more, hmore⟩ := ih ht
      have hfunction : s.isFunction = true := by
        obtain ⟨hlt, rfl⟩ := List.getElem?_eq_some_iff.mp hs
        subst hi
        exact List.findIdx_getElem
      refine ⟨_, hmore.hoist hi hfunction (fun h => fresh (before.bound h)) fun h => ?_⟩
      exact fresh ⟨t, List.mem_of_getElem? ht, h⟩
    · exact ih hs'

end Enlarged

/-- What is hoisted in a scope is among its names, and nothing is hoisted twice. -/
structure Scope.Tidy (s : Scope) : Prop where
  hoisted_mem : ∀ x ∈ s.hoisted, x ∈ s.names
  nodup : s.hoisted.Nodup

theorem Scope.Gains.tidy {σ : List Scope} {i : Nat} {s s' : Scope} {more : List String}
    (h : Gains σ i s s' more) (hs : s ∈ σ) (htidy : s.Tidy) : s'.Tidy := by
  have hdisjoint : ∀ x ∈ s.hoisted, x ∉ more := fun x hx hmore =>
    h.unbound x hmore ⟨s, hs, htidy.hoisted_mem x hx⟩
  constructor
  · intro x hx
    rw [h.hoisted] at hx
    rcases List.mem_append.mp hx with hx | hx
    · exact h.names x (htidy.hoisted_mem x hx)
    · exact h.declared x hx
  · rw [h.hoisted]
    refine List.nodup_append.mpr ⟨htidy.nodup, h.nodup, fun x hx y hy => ?_⟩
    rintro rfl
    exact hdisjoint x hx hy

/-- The frame that is kept when a node is written. -/
structure Framed (s s' : Emitting) : Prop where
  indent : s'.indent = s.indent
  depth : s'.depth = s.depth
  /-- There are as many scopes, of the same kinds. -/
  kinds : s'.scopes.map (·.isFunction) = s.scopes.map (·.isFunction)
  scope : ∀ (i : Nat) (scope scope' : Scope),
    s.scopes[i]? = some scope → s'.scopes[i]? = some scope' →
      (∃ more, Scope.Gains s.scopes i scope scope' more) ∧ (scope.Tidy → scope'.Tidy)

theorem framed_of_kept {s s' : Emitting} (h : Script.Kept (Enlarged true) s s') : Framed s s' where
  indent := h.indent
  depth := h.depth
  kinds := h.scopes.kinds
  scope i scope scope' hscope hscope' := by
    obtain ⟨more, hmore⟩ := h.scopes.gains hscope hscope'
    exact ⟨⟨more, hmore⟩, hmore.tidy (List.mem_of_getElem? hscope)⟩

open Script

/-- **Writing a node keeps the frame**, with any room for nesting, from any state and whether it
succeeds or not. An expression does not even add names. -/
theorem writing_keeps_frame (docs : Bool) (room : Nat) (n : Node) (s : Emitting) :
    Framed s (stateOf ((writer docs room).stmt n s)) ∧
      Framed s (stateOf ((writer docs room).expr n s)) ∧
      (stateOf ((writer docs room).expr n s)).scopes = s.scopes := by
  have hwriter := steady_writer docs room
  refine ⟨framed_of_kept (hwriter.stmt n s), framed_of_kept ((hwriter.expr n).steady s), ?_⟩
  exact (hwriter.expr n s).scopes.symm

-- A branch assigns a name and then fails: its scope is gone, the name stays with the function.
example :
    let name : Node := .ident {} "x"
    let body : Node := .block {} [.assign {} name (.str {} "v"), .type {} "t"]
    (stateOf ((writer true 4).stmt (.branch {} name body none)
      { scopes := [{ names := ["y"] }, { isFunction := true }] })).scopes =
      [{ names := ["y"] }, { names := ["x"], hoisted := ["x"], isFunction := true }] := by
  decide +kernel

end FormScript
