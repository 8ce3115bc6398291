import FormScript.Proofs.ScriptTree

/-!
# Scopes of a script, and scopes of its writer

In a script a `let` is in scope in the whole of its block, also in front of it. The writer works
with less: a stack of the names declared so far. Both views of a place in the script are related
here. A place is seen from inside as a list of frames (`Frame`), one for each scope around it, each
with the names that are declared for the place already and those that are declared further on; what
a name refers to is told by the innermost frame that has it (`refers`). `Block.parts` takes a script
apart into its blocks, its assignments and its uses of names, each with the frames around it.

**The relation `Suits` runs backwards.** What is hoisted in a block stands at its start but is known
only at its end, so the frames at a place cannot be built along with the stack. But a block is
closed with a stack that suits its frames by definition, and what happens in between only adds to
the stack (`Grown`), so from the end of a block `Suits` is carried back to every place in it
(`Suits.back`). At each place it says what a name refers to that the writer finds in the stack
(`Suits.resolves`), and that a name in the stack is declared (`Suits.declares`).
-/

namespace FormScript

/-! ## The stack of names -/

/-- Some scope has the name. -/
def Bound (σ : List Scope) (name : String) : Prop := ∃ s ∈ σ, name ∈ s.names

theorem bound_cons {s : Scope} {outer : List Scope} {name : String} :
    Bound (s :: outer) name ↔ name ∈ s.names ∨ Bound outer name := by
  simp [Bound]

theorem bound_of_foundAt {σ : List Scope} {name : String} {k : Nat}
    (h : foundAt name σ = some k) : Bound σ name ∧ k < σ.length := by
  induction σ with
  | nil => cases h
  | cons s outer ih =>
    rw [foundAt] at h
    split at h
    · rename_i hs
      cases h
      exact ⟨bound_cons.mpr (.inl (List.contains_iff_mem.mp hs)), Nat.lt_succ_self _⟩
    · obtain ⟨hbound, hlt⟩ := ih h
      exact ⟨bound_cons.mpr (.inr hbound), Nat.lt_succ_of_lt hlt⟩

theorem isBound_iff {s : Emitting} {name : String} :
    s.isBound name = true ↔ Bound s.scopes name := by
  simp [Emitting.isBound, Bound]

/-- What becomes of a scope: the names `hs` are hoisted in it, and the names `xs` are declared in it
by `let`. -/
structure Scope.Grown (outer : List Scope) (hs xs : List String) (s s' : Scope) : Prop where
  isFunction : s'.isFunction = s.isFunction
  hoisted : s'.hoisted = s.hoisted ++ hs
  names : ∀ x, x ∈ s'.names ↔ x ∈ s.names ∨ x ∈ hs ∨ x ∈ xs
  nodup : (hs ++ xs).Nodup
  fresh : ∀ x ∈ hs ++ xs, x ∉ s.names
  unbound : ∀ x ∈ hs, ¬ Bound outer x

/-- What becomes of a stack of scopes when statements are written that declare some names by `let`
in the innermost one. No name is hoisted that some scope has, and none is hoisted out of a
function. -/
inductive Grown : List String → List Scope → List Scope → Prop
  | nil : Grown [] [] []
  | cons {hs xs : List String} {s s' : Scope} {outer outer' : List Scope}
      (scope : Scope.Grown outer hs xs s s') (outside : Grown [] outer outer')
      (closed : s.isFunction = true → outer' = outer) : Grown xs (s :: outer) (s' :: outer')

theorem Scope.Grown.refl (outer : List Scope) (s : Scope) : Scope.Grown outer [] [] s s where
  isFunction := rfl
  hoisted := (List.append_nil _).symm
  names := by simp
  nodup := List.nodup_nil
  fresh := by simp
  unbound := by simp

theorem Scope.Grown.trans {outer outer' : List Scope} {hs hs' xs ys : List String}
    {s s' s'' : Scope} (h : Scope.Grown outer hs xs s s') (h' : Scope.Grown outer' hs' ys s' s'')
    (hbound : ∀ x, Bound outer x → Bound outer' x) :
    Scope.Grown outer (hs ++ hs') (xs ++ ys) s s'' where
  isFunction := h'.isFunction.trans h.isFunction
  hoisted := by rw [h'.hoisted, h.hoisted, List.append_assoc]
  names := by
    intro x
    rw [h'.names, h.names, List.mem_append, List.mem_append]
    grind
  nodup := by
    have hnodup := h.nodup
    have hnodup' := h'.nodup
    have hfresh : ∀ x, x ∈ hs' ∨ x ∈ ys → x ∉ hs ∧ x ∉ xs := by
      intro x hx
      have := h'.fresh x (List.mem_append.mpr hx)
      rw [h.names] at this
      grind
    simp only [List.nodup_append, List.mem_append] at hnodup hnodup' ⊢
    grind
  fresh := by
    intro x hx hold
    have hnew : x ∈ s'.names := (h.names x).mpr (.inl hold)
    have hx' : x ∈ hs ++ xs ∨ x ∈ hs' ++ ys := by
      simp only [List.mem_append] at hx ⊢
      grind
    rcases hx' with hx' | hx'
    · exact h.fresh x hx' hold
    · exact h'.fresh x hx' hnew
  unbound := by
    intro x hx
    rcases List.mem_append.mp hx with hx | hx
    · exact h.unbound x hx
    · exact fun hout => h'.unbound x hx (hbound x hout)

namespace Grown

variable {σ σ' σ'' : List Scope} {xs ys : List String}

theorem refl : (σ : List Scope) → Grown [] σ σ
  | [] => .nil
  | s :: outer => .cons (.refl outer s) (refl outer) fun _ => rfl

theorem bound (h : Grown xs σ σ') {x : String} (hx : Bound σ x) : Bound σ' x := by
  induction h with
  | nil => exact hx
  | cons scope _ _ ih =>
    rw [bound_cons] at hx ⊢
    rcases hx with hx | hx
    · exact .inl ((scope.names x).mpr (.inl hx))
    · exact .inr (ih hx)

theorem trans (h : Grown xs σ σ') (h' : Grown ys σ' σ'') : Grown (xs ++ ys) σ σ'' := by
  induction h generalizing ys σ'' with
  | nil =>
    cases h'
    exact .nil
  | cons scope outside closed ih =>
    cases h' with
    | cons scope' outside' closed' =>
      refine .cons (scope.trans scope' fun x hx => outside.bound hx) (ih outside') fun hs => ?_
      rw [closed' (scope.isFunction.trans hs), closed hs]

theorem exists_scope {s : Scope} {outer : List Scope} (h : Grown xs (s :: outer) σ') :
    ∃ hs s' outer', σ' = s' :: outer' ∧ Scope.Grown outer hs xs s s' ∧ Grown [] outer outer' ∧
      (s.isFunction = true → outer' = outer) := by
  cases h with
  | cons scope outside closed => exact ⟨_, _, _, rfl, scope, outside, closed⟩

theorem length_eq (h : Grown xs σ σ') : σ'.length = σ.length := by
  induction h with
  | nil => rfl
  | cons _ _ _ ih => rw [List.length_cons, List.length_cons, ih]

theorem nodup (h : Grown xs σ σ') : xs.Nodup := by
  cases h with
  | nil => exact List.nodup_nil
  | cons scope _ _ => exact (List.nodup_append.mp scope.nodup).2.1

end Grown

/-- There is a function scope to hoist into. -/
def Rooted (σ : List Scope) : Prop := ∃ s ∈ σ, s.isFunction = true

theorem Rooted.exists_cons {σ : List Scope} (h : Rooted σ) : ∃ s outer, σ = s :: outer := by
  obtain ⟨s, hs, -⟩ := h
  exact List.exists_cons_of_ne_nil (List.ne_nil_of_mem hs)

theorem Grown.rooted {xs : List String} {σ σ' : List Scope} (h : Grown xs σ σ') (hσ : Rooted σ) :
    Rooted σ' := by
  induction h with
  | nil => exact hσ
  | cons scope _ _ ih =>
    obtain ⟨t, ht, hfunction⟩ := hσ
    rcases List.mem_cons.mp ht with rfl | ht
    · exact ⟨_, List.mem_cons_self, scope.isFunction.trans hfunction⟩
    · obtain ⟨u, hu, hfunction⟩ := ih ⟨t, ht, hfunction⟩
      exact ⟨u, List.mem_cons_of_mem _ hu, hfunction⟩

theorem Scope.mem_names_declare {s : Scope} {name x : String} :
    x ∈ (s.declare name).names ↔ x ∈ s.names ∨ x = name := by
  unfold Scope.declare
  split
  · rename_i h
    have := List.contains_iff_mem.mp h
    constructor
    · exact .inl
    · rintro (h | rfl)
      · exact h
      · exact this
  · rw [List.mem_cons]
    exact Or.comm

theorem Scope.declare_hoisted (s : Scope) (name : String) :
    (s.declare name).hoisted = s.hoisted := by
  unfold Scope.declare
  split <;> rfl

theorem Scope.declare_isFunction (s : Scope) (name : String) :
    (s.declare name).isFunction = s.isFunction := by
  unfold Scope.declare
  split <;> rfl

/-- A `let` of a name that its scope does not have. -/
theorem grown_declare {s : Scope} {name : String} (h : name ∉ s.names) (outer : List Scope) :
    Grown [name] (s :: outer) (s.declare name :: outer) := by
  have hscope : Scope.Grown outer [] [name] s (s.declare name) :=
    { isFunction := s.declare_isFunction name
      hoisted := by rw [s.declare_hoisted, List.append_nil]
      names := by simp [Scope.mem_names_declare]
      nodup := by simp
      fresh := by simpa using h
      unbound := by simp }
  exact .cons hscope (.refl outer) fun _ => rfl

/-- A name that no scope has is hoisted. -/
theorem grown_hoistIn {σ : List Scope} {name : String} (h : ¬ Bound σ name) :
    Grown [] σ (hoistIn name σ) := by
  induction σ with
  | nil => exact .nil
  | cons s outer ih =>
    rw [bound_cons, not_or] at h
    rw [hoistIn]
    split
    · have hscope : Scope.Grown outer [name] [] s (s.hoist name) :=
        { isFunction := s.declare_isFunction name
          hoisted := rfl
          names := by simp [Scope.hoist, Scope.mem_names_declare]
          nodup := by simp
          fresh := by simpa using h.1
          unbound := by simpa using h.2 }
      exact .cons hscope (.refl outer) fun _ => rfl
    · rename_i hs
      exact .cons (.refl outer s) (ih h.2) fun hfunction => absurd hfunction hs

theorem bound_hoistIn {σ : List Scope} (name : String) (h : Rooted σ) :
    Bound (hoistIn name σ) name := by
  induction σ with
  | nil =>
    obtain ⟨s, hs, -⟩ := h
    cases hs
  | cons s outer ih =>
    rw [hoistIn]
    split
    · exact bound_cons.mpr (.inl (Scope.mem_names_declare.mpr (.inr rfl)))
    · rename_i hs
      obtain ⟨t, ht, hfunction⟩ := h
      rcases List.mem_cons.mp ht with rfl | ht
      · exact absurd hfunction hs
      · exact bound_cons.mpr (.inr (ih ⟨t, ht, hfunction⟩))

/-- A new scope has the names it is opened with and no others. -/
theorem mem_names_opened {bound : List String} {s : Scope} {x : String} :
    x ∈ (bound.foldl Scope.declare s).names ↔ x ∈ s.names ∨ x ∈ bound := by
  induction bound generalizing s with
  | nil => simp
  | cons name bound ih =>
    rw [List.foldl_cons, ih, Scope.mem_names_declare, List.mem_cons, or_assoc]

theorem opened_hoisted (bound : List String) (s : Scope) :
    (bound.foldl Scope.declare s).hoisted = s.hoisted := by
  induction bound generalizing s with
  | nil => rfl
  | cons name bound ih => rw [List.foldl_cons, ih, s.declare_hoisted]

theorem opened_isFunction (bound : List String) (s : Scope) :
    (bound.foldl Scope.declare s).isFunction = s.isFunction := by
  induction bound generalizing s with
  | nil => rfl
  | cons name bound ih => rw [List.foldl_cons, ih, s.declare_isFunction]

namespace ScriptTree

/-! ## What names refer to -/

/-- A scope of the script, seen from a place inside it. The names in `ready` have been declared when
the place is reached, those in `later` are declared further on. The level is that of the writer's
scope. The head of a loop, where its variable is in scope too, is in no scope of the writer. -/
structure Frame where
  level : Option Nat
  ready : List String
  later : List String
deriving DecidableEq, Repr

/-- The frame behind statements that declare these names. -/
def Frame.pass (f : Frame) (lets : List String) : Frame where
  level := f.level
  ready := f.ready ++ lets
  later := f.later.drop lets.length

theorem Frame.pass_nil (f : Frame) : f.pass [] = f := by
  simp [pass]

theorem Frame.pass_append (f : Frame) (xs ys : List String) :
    f.pass (xs ++ ys) = (f.pass xs).pass ys := by
  simp [pass]

/-- What a name refers to at a place, given the frames around it, innermost first: the level of the
frame, and whether the name has been declared when the place is reached. -/
def refers (name : String) : List Frame → Option (Option Nat × Bool)
  | [] => none
  | f :: env =>
    if name ∈ f.ready then some (f.level, true)
    else if name ∈ f.later then some (f.level, false)
    else refers name env

/-- How many of the frames are scopes of the writer. -/
def scopeCount (env : List Frame) : Nat := env.countP (·.level.isSome)

/-- The names that a statement declares in its own block. -/
def Stmt.lets : Stmt → List String
  | .declare name _ => [name]
  | _ => []

/-- The names that statements declare in their own block. -/
def lets (ts : List Stmt) : List String := ts.flatMap Stmt.lets

/-- A part of a script that has to do with names: a use or an assignment, with the level of the
scope in which the writer found the name and the frames around, or a block, with the names bound
from outside, the names hoisted in it and the names of its own declarations. -/
inductive Part where
  | use (name : String) (found : Option Nat) (env : List Frame)
  | assign (name : String) (found : Option Nat) (env : List Frame)
  | block (bound hoisted lets : List String)
deriving DecidableEq, Repr

mutual

/-- The parts of an expression. -/
def Expr.parts (env : List Frame) : Expr → List Part
  | .str _ | .num _ | .undefined => []
  | .name name found => [.use name found env]
  | .unary _ operand => operand.parts env
  | .binary _ left right => left.parts env ++ right.parts env
  | .function params body => body.parts env params
  | .call callee args => callee.parts env ++ argParts env args
  | .cast _ value => value.parts env
  | .choice condition yes no => condition.parts env ++ yes.parts env ++ no.parts env
  | .member object _ => object.parts env

/-- The parts of expressions. -/
def argParts (env : List Frame) : List Expr → List Part
  | [] => []
  | e :: es => e.parts env ++ argParts env es

/-- The parts of a statement. In the head of a loop its variable is in scope, but it has no value
before the first bound. -/
def Stmt.parts (env : List Frame) : Stmt → List Part
  | .comment _ => []
  | .declare _ value | .result value | .expr value => value.parts env
  | .assign name found value => value.parts env ++ [.assign name found env]
  | .increment name found => [.use name found env]
  | .forLess var start stop body =>
    start.parts (⟨none, [], [var]⟩ :: env) ++ stop.parts (⟨none, [var], []⟩ :: env)
      ++ body.parts env [var]
  | .doWhile body condition => body.parts env [] ++ condition.parts env
  | .branch condition yes => condition.parts env ++ yes.parts env []
  | .branchElse condition yes no => condition.parts env ++ yes.parts env [] ++ no.parts env []

/-- The parts of a block with some names bound from outside: parameters, or a loop's variable. -/
def Block.parts (env : List Frame) (bound : List String) : Block → List Part
  | .mk hoisted body =>
    .block bound hoisted (lets body)
      :: bodyParts env ⟨some (scopeCount env), bound ++ hoisted, lets body⟩ body

/-- The parts of statements, each seen from where the ones in front have left the frame. -/
def bodyParts (env : List Frame) (f : Frame) : List Stmt → List Part
  | [] => []
  | t :: ts => t.parts (f :: env) ++ bodyParts env (f.pass t.lets) ts

end

theorem bodyParts_append (env : List Frame) (f : Frame) (ts us : List Stmt) :
    bodyParts env f (ts ++ us) = bodyParts env f ts ++ bodyParts env (f.pass (lets ts)) us := by
  induction ts generalizing f with
  | nil => simp [bodyParts, lets, f.pass_nil]
  | cons t ts ih =>
    rw [List.cons_append, bodyParts, ih, bodyParts, List.append_assoc, ← f.pass_append]
    rfl

/-! ## Frames that suit a stack -/

/-- The frames around a place suit the stack with which the writer comes to it. Every scope has its
frame: a name of the scope has been declared, and a name that has been declared but is not in the
scope yet is one that will be hoisted, so no scope around has it. -/
inductive Suits : List Scope → List Frame → Prop
  | nil : Suits [] []
  | head {σ : List Scope} {env : List Frame} {ready later : List String} (inside : Suits σ env) :
      Suits σ (⟨none, ready, later⟩ :: env)
  | scope {s : Scope} {outer : List Scope} {f : Frame} {env : List Frame}
      (level : f.level = some outer.length) (known : ∀ x ∈ s.names, x ∈ f.ready)
      (fresh : ∀ x ∈ f.ready, x ∈ s.names ∨ ¬ Bound (s :: outer) x) (outside : Suits outer env) :
      Suits (s :: outer) (f :: env)

namespace Suits

variable {σ σ' : List Scope} {f : Frame} {env : List Frame} {name : String}

theorem scopeCount_eq (h : Suits σ env) : scopeCount env = σ.length := by
  unfold scopeCount
  induction h with
  | nil => rfl
  | head _ ih => simpa using ih
  | scope level _ _ _ ih => simp [level, ih]

/-- One scope on the way back: names that are declared in between are not declared before. -/
theorem scope_back {outer outer' : List Scope} {hs xs ready : List String} {s s' : Scope}
    (hgrown : Scope.Grown outer hs xs s s') (hbound : ∀ x, Bound outer x → Bound outer' x)
    (hnew : ∀ x ∈ xs, x ∉ ready) (known : ∀ x ∈ s'.names, x ∈ ready ++ xs)
    (fresh : ∀ x ∈ ready ++ xs, x ∈ s'.names ∨ ¬ Bound (s' :: outer') x) :
    (∀ x ∈ s.names, x ∈ ready) ∧ ∀ x ∈ ready, x ∈ s.names ∨ ¬ Bound (s :: outer) x := by
  constructor
  · intro x hx
    rcases List.mem_append.mp (known x ((hgrown.names x).mpr (.inl hx))) with h | h
    · exact h
    · exact absurd hx (hgrown.fresh x (List.mem_append_right _ h))
  · intro x hx
    rcases fresh x (List.mem_append_left _ hx) with h | h
    · -- The name was there before, or it was hoisted in between, or declared.
      rcases (hgrown.names x).mp h with h | h | h
      · exact .inl h
      · right
        rw [bound_cons, not_or]
        exact ⟨hgrown.fresh x (List.mem_append_left _ h), hgrown.unbound x h⟩
      · exact absurd hx (hnew x h)
    · right
      intro hout
      refine h (bound_cons.mpr ?_)
      rcases bound_cons.mp hout with hout | hout
      · exact .inl ((hgrown.names x).mpr (.inl hout))
      · exact .inr (hbound x hout)

/-- What suits the stack behind a place suits the one in front, unless a `let` is in between. -/
theorem back_outer (h : Suits σ' env) (hgrown : Grown [] σ σ') : Suits σ env := by
  induction h generalizing σ with
  | nil =>
    cases hgrown
    exact .nil
  | head _ ih => exact .head (ih hgrown)
  | scope level known fresh outside ih =>
    cases hgrown with
    | cons grown outgrown closed =>
      obtain ⟨hknown, hfresh⟩ := scope_back grown (fun x hx => outgrown.bound hx) (by simp)
        (by simpa using known) (by simpa using fresh)
      exact .scope (level.trans (by rw [outgrown.length_eq])) hknown hfresh (ih outgrown)

/-- **From the end of some statements back to their start.** -/
theorem back {xs : List String} (h : Suits σ' (f.pass xs :: env)) (hlevel : f.level ≠ none)
    (hgrown : Grown xs σ σ') (hnew : ∀ x ∈ xs, x ∉ f.ready) : Suits σ (f :: env) := by
  generalize hf : f.pass xs = f' at h
  cases h with
  | head => exact absurd (congrArg Frame.level hf) hlevel
  | scope level known fresh outside =>
    subst hf
    cases hgrown with
    | cons grown outgrown closed =>
      obtain ⟨hknown, hfresh⟩ :=
        scope_back grown (fun x hx => outgrown.bound hx) hnew known fresh
      exact .scope (level.trans (by rw [outgrown.length_eq])) hknown hfresh
        (outside.back_outer outgrown)

/-- A name of the stack has been declared. -/
theorem declares (h : Suits σ env) (hname : Bound σ name) :
    ∃ f ∈ env, f.level ≠ none ∧ name ∈ f.ready := by
  induction h with
  | nil =>
    obtain ⟨s, hs, -⟩ := hname
    cases hs
  | head _ ih =>
    obtain ⟨f, hf, hready⟩ := ih hname
    exact ⟨f, List.mem_cons_of_mem _ hf, hready⟩
  | @scope s outer f env level known fresh outside ih =>
    rcases bound_cons.mp hname with hname | hname
    · exact ⟨f, List.mem_cons_self, by simp [level], known name hname⟩
    · obtain ⟨g, hg, hready⟩ := ih hname
      exact ⟨g, List.mem_cons_of_mem _ hg, hready⟩

end Suits

/-- What a name refers to at a place, if the writer found it at some level: the declaration at that
level, which has been made; or a declaration further in that is yet to be made; or the variable of a
loop in whose head the place is. -/
def Resolves (name : String) (k : Nat) (env : List Frame) : Prop :=
  refers name env = some (some k, true) ∨
    (∃ j, k < j ∧ refers name env = some (some j, false)) ∨
    ∃ made, refers name env = some (none, made)

/-- **A name of the stack refers to no declaration further in that has been made**, loop heads
apart: such a name would have been hoisted, and no name is hoisted that a scope around has. -/
theorem Suits.resolves {σ : List Scope} {env : List Frame} {name : String} {k : Nat}
    (h : Suits σ env) (hfound : foundAt name σ = some k) : Resolves name k env := by
  induction h with
  | nil => cases hfound
  | @head _ env ready later _ ih =>
    unfold Resolves at ih ⊢
    rw [refers]
    split
    · exact .inr (.inr ⟨true, rfl⟩)
    · split
      · exact .inr (.inr ⟨false, rfl⟩)
      · exact ih hfound
  | @scope s outer f env level known fresh outside ih =>
    unfold Resolves at ih ⊢
    rw [foundAt] at hfound
    rw [refers, level]
    split at hfound
    · rename_i hs
      cases hfound
      rw [if_pos (known name (List.contains_iff_mem.mp hs))]
      exact .inl rfl
    · rename_i hs
      rw [List.contains_iff_mem] at hs
      obtain ⟨hbound, hlt⟩ := bound_of_foundAt hfound
      split
      · -- Declared here, but not in the scope yet: it will be hoisted, so it is bound nowhere.
        rename_i hready
        rcases fresh name hready with h | h
        · exact absurd h hs
        · exact absurd (bound_cons.mpr (.inr hbound)) h
      · split
        · exact .inr (.inl ⟨outer.length, hlt, rfl⟩)
        · exact ih hfound

end ScriptTree
end FormScript
