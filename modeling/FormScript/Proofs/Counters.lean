import FormScript.Proofs.Regular
import FormScript.Proofs.Unclosed

/-!
# What a parse counts

A parse keeps two counters and a list beside the stream: how many parentheses are open, how many
were open at most, and the heads of the forms around the place it has come to. They are changed in
two places, where a parenthesis is entered and where the slots of a form are read, and both put back
what they changed, whether what is inside succeeds or fails. So whatever happens, nothing is left
open at the end of a parse.

That is a statement about every step of the parser, and so is the comparison of two parsers that
have different room for nesting. Both are relations that go from parts to wholes, and the parser is
gone through once for all such relations (**`Congruent`**).

How deep a parse got is compared with the tokens by varying the room. With as much room as the parse
took, the parser does the same (`agrees_level`), and as it accepts nothing that needs more room, the
tokens are nested no deeper. With as much room as the tokens need, the parser still accepts them, so
the parse took no more than that.
-/

namespace FormScript

/-- Two states of a stream tell which tokens lie between them. -/
theorem TokenStream.Passes.unique {s s' : TokenStream} {ts us : List Token} (h : s.Passes ts s')
    (h' : s.Passes us s') : us = ts := by
  have heq := h.remaining
  rw [h'.remaining] at heq
  exact List.append_cancel_right heq

namespace Parse

open Grammar

variable {α β : Type}

/-! ## Relations between steps -/

theorem bind_ok {p : Parse α} {f : α → Parse β} {s s'' : Parsing} {b : β}
    (h : (p >>= f) s = .ok b s'') : ∃ a s', p s = .ok a s' ∧ f a s' = .ok b s'' := by
  change EStateM.bind p f s = _ at h
  unfold EStateM.bind at h
  cases hp : p s with
  | ok a s' =>
    rw [hp] at h
    exact ⟨a, s', rfl, h⟩
  | error e s' =>
    rw [hp] at h
    cases h

theorem bind_error {p : Parse α} {f : α → Parse β} {s s'' : Parsing} {e : SyntaxError}
    (h : (p >>= f) s = .error e s'') :
    p s = .error e s'' ∨ ∃ a s', p s = .ok a s' ∧ f a s' = .error e s'' := by
  change EStateM.bind p f s = _ at h
  unfold EStateM.bind at h
  cases hp : p s with
  | ok a s' =>
    rw [hp] at h
    exact .inr ⟨a, s', rfl, h⟩
  | error e' s' =>
    rw [hp] at h
    cases h
    exact .inl rfl

theorem bind_of_ok {p : Parse α} {s s' : Parsing} {a : α} (h : p s = .ok a s')
    (f : α → Parse β) : (p >>= f) s = f a s' := by
  show EStateM.bind p f s = _
  unfold EStateM.bind
  rw [h]

theorem bind_of_error {p : Parse α} {s s' : Parsing} {e : SyntaxError} (h : p s = .error e s')
    (f : α → Parse β) : (p >>= f) s = .error e s' := by
  show EStateM.bind p f s = _
  unfold EStateM.bind
  rw [h]

/-- A relation between steps that goes from parts to wholes: steps that are put together in the same
way from related steps are related. Inside a form nothing fails for the dialect, so a relation need
not say anything of that. A property of a single step is such a relation as well. -/
structure Congruent (R : {α : Type} → Parse α → Parse α → Prop) : Prop where
  pure {α : Type} (a : α) : R (pure a) (pure a)
  bind {α β : Type} {p q : Parse α} {f g : α → Parse β} (first : R p q)
    (more : ∀ a, R (f a) (g a)) : R (p >>= f) (q >>= g)
  get : R get get
  current : R current current
  following : R following following
  advance : R advance advance
  record (entry : String × Nat) : R (modify fun s => { s with joined := s.joined.push entry })
    (modify fun s => { s with joined := s.joined.push entry })
  fail {α : Type} {cause : SyntaxCause} (span : Span)
    (h : ∀ found, cause ≠ .unsupportedDialect found) :
    R (fail cause span : Parse α) (fail cause span)
  inContext {α : Type} {p q : Parse α} (name : String) (h : R p q) :
    R (inContext name p) (inContext name q)

namespace Congruent

variable {R : {α : Type} → Parse α → Parse α → Prop} (h : Congruent R)

include h

theorem unexpected (expected : String) (t : Token) :
    R (unexpected expected t : Parse α) (unexpected expected t) := by
  unfold Parse.unexpected
  split
  · exact h.fail _ (by simp)
  · exact h.fail _ (by simp)

theorem number (text : String) (span : Span) : R (number text span) (number text span) := by
  unfold Parse.number
  split
  · split
    · exact h.pure _
    · exact h.fail _ (by simp)
  · exact h.fail _ (by simp)

theorem negative (minus : Token) : R (negative minus) (negative minus) :=
  h.bind h.advance fun _ => h.bind h.advance fun _ => h.bind (h.number _ _) fun _ => h.pure _

theorem expr {list list' : Parse Node} (hlist : R list list') (expected : String) :
    R (expr list expected) (expr list' expected) := by
  refine h.bind h.current fun t => ?_
  cases t.kind with
  | string => exact h.bind h.advance fun _ => h.pure _
  | number => exact h.bind h.advance fun _ => h.bind (h.number _ _) fun _ => h.pure _
  | identifier => exact h.bind h.advance fun _ => h.pure _
  | operator =>
    dsimp only
    by_cases hopen : t.isOpen = true
    · rw [if_pos hopen, if_pos hopen]
      exact hlist
    · rw [if_neg hopen, if_neg hopen]
      refine h.bind h.following fun next => ?_
      split
      · exact h.negative t
      · exact h.unexpected expected t
  | keyword => exact h.unexpected expected t
  | ascription => exact h.unexpected expected t
  | eof => exact h.unexpected expected t

theorem oneOf (test : Token → Bool) (make : Token → Node) (expected : String) :
    R (do
        let t ← Parse.current
        if test t then do
          let _ ← Parse.advance
          Pure.pure (make t)
        else Parse.unexpected expected t)
      (do
        let t ← Parse.current
        if test t then do
          let _ ← Parse.advance
          Pure.pure (make t)
        else Parse.unexpected expected t) := by
  refine h.bind h.current fun t => ?_
  split
  · exact h.bind h.advance fun _ => h.pure _
  · exact h.unexpected expected t

theorem ident : R ident ident := h.oneOf (·.kind == .identifier) _ _

theorem str : R str str := h.oneOf (·.kind == .string) _ _

theorem type : R type type := by
  refine h.bind h.current fun t => ?_
  split
  · exact h.bind h.advance fun _ => h.pure _
  · split
    · exact h.pure _
    · exact h.unexpected _ t

theorem atFormEnd (form : FormHead) : R (atFormEnd form) (atFormEnd form) := by
  refine h.bind h.current fun t => ?_
  split
  · exact h.pure _
  · split
    · exact h.fail _ (by simp)
    · exact h.pure _

theorem close (form : FormHead) : R (close form) (close form) := by
  refine h.bind h.current fun t => ?_
  split
  · exact h.advance
  · split
    · exact h.fail _ (by simp)
    · exact h.unexpected _ t

theorem items {item item' : Parse Node} (hitem : R item item') (form : FormHead) (room : Nat)
    (done : List Node) : R (items item form room done) (items item' form room done) := by
  induction room generalizing done with
  | zero =>
    refine h.bind (h.atFormEnd form) fun atEnd => ?_
    cases atEnd with
    | true => exact h.pure _
    | false => exact h.bind h.current fun t => h.fail _ (by simp)
  | succ room ih =>
    refine h.bind (h.atFormEnd form) fun atEnd => ?_
    cases atEnd with
    | true => exact h.pure _
    | false => exact h.bind hitem fun n => ih (n :: done)

theorem skip (n : Nat) : R (skip n) (skip n) := by
  induction n with
  | zero => exact h.pure _
  | succ n ih => exact h.bind h.advance fun _ => ih

theorem head : R head head := by
  refine h.bind h.current fun t => ?_
  split
  · exact h.fail _ (by simp)
  · refine h.bind h.get fun s => ?_
    dsimp only
    split
    · exact h.bind (h.skip _) fun _ => h.bind (h.record _) fun _ => h.pure _
    · exact h.bind h.advance fun _ => h.pure _

section Below

variable {below below' : Level} (hlist : R below.list below'.list)
  (hbare : R below.bare below'.bare)

include hlist

theorem headed (name : String) : R (headed below name) (headed below' name) := by
  refine h.bind h.current fun t => h.bind h.following fun next => ?_
  by_cases hopen : (t.isOpen && next.isSymbol name) = true
  · rw [if_pos hopen, if_pos hopen]
    exact hlist
  · rw [if_neg hopen, if_neg hopen]
    exact h.unexpected _ t

include hbare

theorem block : R (block below) (block below') := by
  refine h.bind h.current fun t => h.bind h.following fun next => ?_
  by_cases heof : t.isEof = true
  · rw [if_pos heof, if_pos heof]
    exact h.fail _ (by simp)
  rw [if_neg heof, if_neg heof]
  by_cases hopen : (!t.isOpen) = true
  · rw [if_pos hopen, if_pos hopen]
    exact h.fail _ (by simp)
  rw [if_neg hopen, if_neg hopen]
  by_cases hnext : next.isOpen = true
  · rw [if_pos hnext, if_pos hnext]
    exact hbare
  · rw [if_neg hnext, if_neg hnext]
    refine h.bind hlist fun form => ?_
    split
    · exact h.pure _
    · exact h.pure _

/-- **The slots of a form**, whatever the recipe. -/
theorem slots (form : FormHead) (recipe : Recipe) :
    R (slots below form recipe) (slots below' form recipe) := by
  have hexpr := h.expr hlist "expression"
  have hrest := h.items (h.expr hlist "expression or ')'") form Limits.listChildren []
  cases recipe with
  | doc => exact h.bind h.str fun _ => h.pure _
  | declare | assign => exact h.bind h.ident fun _ => h.bind hexpr fun _ => h.pure _
  | increment | param => exact h.bind h.ident fun _ => h.pure _
  | result | unary => exact h.bind hexpr fun _ => h.pure _
  | cast => exact h.bind hexpr fun _ => h.bind h.type fun _ => h.pure _
  | choice => exact h.bind hexpr fun _ => h.bind hexpr fun _ => h.bind hexpr fun _ => h.pure _
  | member => exact h.bind hexpr fun _ => h.bind h.ident fun _ => h.pure _
  | doWhile => exact h.bind (h.block hlist hbare) fun _ => h.bind hexpr fun _ => h.pure _
  | binary => exact h.bind hexpr fun _ => h.bind hexpr fun _ => h.pure _
  | sign =>
    refine h.bind hexpr fun _ => h.bind (h.atFormEnd form) fun atEnd => ?_
    cases atEnd with
    | true => exact h.pure _
    | false => exact h.bind hexpr fun _ => h.pure _
  | branch =>
    refine h.bind hexpr fun _ => h.bind hexpr fun _ => h.bind (h.atFormEnd form) fun atEnd => ?_
    cases atEnd with
    | true => exact h.pure _
    | false => exact h.bind hexpr fun _ => h.pure _
  | call => exact h.bind hexpr fun _ => h.bind hrest fun _ => h.pure _
  | block => exact h.bind hrest fun _ => h.pure _
  | function => exact h.bind (h.headed hlist _) fun _ => h.bind hrest fun _ => h.pure _
  | params => exact h.bind (h.items (h.headed hlist _) form _ _) fun _ => h.pure _
  | forLess =>
    exact h.bind h.ident fun _ => h.bind hexpr fun _ => h.bind hexpr fun _ =>
      h.bind hrest fun _ => h.pure _

variable (below below') in
theorem listBody : R (listBody below) (listBody below') := by
  refine h.bind h.advance fun opening => h.bind h.current fun t => ?_
  by_cases hclose : t.isClose = true
  · rw [if_pos hclose, if_pos hclose]
    exact h.bind h.advance fun _ => h.fail _ (by simp)
  rw [if_neg hclose, if_neg hclose]
  by_cases heof : t.isEof = true
  · rw [if_pos heof, if_pos heof]
    exact h.fail _ (by simp)
  rw [if_neg heof, if_neg heof]
  refine h.bind h.head fun found => ?_
  obtain ⟨name, span, type⟩ := found
  dsimp only
  cases recipe? name with
  | none => exact h.fail _ (by simp)
  | some recipe =>
    exact h.bind (h.inContext name (h.slots hlist hbare _ recipe)) fun _ =>
      h.bind (h.close _) fun _ => h.pure _

variable (below below') in
omit hbare in
theorem bareBody : R (bareBody below) (bareBody below') :=
  h.bind h.advance fun _ =>
    h.bind (h.items (h.expr hlist _) _ _ _) fun _ => h.bind (h.close _) fun _ => h.pure _

end Below

section Top

variable (top top' : Level) (hlist : R top.list top'.list)
  (hfail : ∀ (found : String) (span : Span),
    R (Parse.fail (.unsupportedDialect found) span : Parse Node)
      (Parse.fail (.unsupportedDialect found) span))

include hlist hfail

/-- Outside of forms the dialect is asked for, so what happens then has to be related as well. -/
theorem topForm : R (topForm top) (topForm top') := by
  refine h.bind h.current fun t => h.bind h.get fun s => ?_
  cases s.stream.dialect with
  | sexpr => exact h.expr hlist _
  | plain =>
    dsimp only
    by_cases hopen : t.isOpen = true
    · rw [if_pos hopen, if_pos hopen]
      exact hlist
    · rw [if_neg hopen, if_neg hopen]
      exact hfail _ _

theorem forms (count : Nat) (done : List Node) :
    R (forms top count done) (forms top' count done) := by
  induction count generalizing done with
  | zero => exact h.pure _
  | succ count ih =>
    refine h.bind h.current fun t => ?_
    by_cases heof : t.isEof = true
    · rw [if_pos heof, if_pos heof]
      exact h.pure _
    · rw [if_neg heof, if_neg heof]
      exact h.bind (h.topForm top top' hlist hfail) fun n => ih (n :: done)

end Top

end Congruent

/-- A step with something done to the state in front of it and behind it. -/
def around (enter leave : Parsing → Parsing) (p : Parse α) : Parse α := fun s =>
  match p (enter s) with
  | .ok a s' => .ok a (leave s')
  | .error e s' => .error e (leave s')

theorem around_ok {enter leave : Parsing → Parsing} {p : Parse α} {s t : Parsing} {a : α} :
    around enter leave p s = .ok a t ↔ ∃ s', p (enter s) = .ok a s' ∧ t = leave s' := by
  unfold around
  constructor
  · intro h
    cases hp : p (enter s) with
    | ok b s' =>
      rw [hp] at h
      cases h
      exact ⟨s', rfl, rfl⟩
    | error e s' =>
      rw [hp] at h
      cases h
  · rintro ⟨s', hp, rfl⟩
    rw [hp]

theorem around_error {enter leave : Parsing → Parsing} {p : Parse α} {s t : Parsing}
    {e : SyntaxError} :
    around enter leave p s = .error e t ↔ ∃ s', p (enter s) = .error e s' ∧ t = leave s' := by
  unfold around
  constructor
  · intro h
    cases hp : p (enter s) with
    | ok b s' =>
      rw [hp] at h
      cases h
    | error e' s' =>
      rw [hp] at h
      cases h
      exact ⟨s', rfl, rfl⟩
  · rintro ⟨s', hp, rfl⟩
    rw [hp]

theorem inContext_eq_around (name : String) (p : Parse α) :
    inContext name p = around (fun s => { s with context := name :: s.context })
      (fun s => { s with context := s.context.tail }) p := rfl

theorem nested_eq_around (p : Parse α) :
    nested p = around
      (fun s => { s with depth := s.depth + 1, deepest := max s.deepest (s.depth + 1) })
      (fun s => { s with depth := s.depth - 1 }) p := rfl

/-! ## What is put back -/

/-- What a step leaves of the counters, with room for so many more parentheses: depth and context
are what they were, and the greatest depth has not risen beyond the room. -/
structure Restored (room : Nat) (s s' : Parsing) : Prop where
  depth : s'.depth = s.depth
  context : s'.context = s.context
  rises : s.deepest ≤ s'.deepest
  within : s'.deepest ≤ max s.deepest (s.depth + room)

section Restored

variable {room : Nat} {s s' s'' : Parsing}

theorem Restored.of_same (hdepth : s'.depth = s.depth) (hcontext : s'.context = s.context)
    (hdeepest : s'.deepest = s.deepest) : Restored room s s' :=
  ⟨hdepth, hcontext, by omega, by omega⟩

theorem Restored.trans (h : Restored room s s') (h' : Restored room s' s'') :
    Restored room s s'' := by
  have hdepth := h.depth
  have hdepth' := h'.depth
  have hrises := h.rises
  have hrises' := h'.rises
  have hwithin := h.within
  have hwithin' := h'.within
  exact ⟨by omega, h'.context.trans h.context, by omega, by omega⟩

/-- The step puts the counters back, whether it succeeds or fails. -/
structure Restores (room : Nat) (p : Parse α) : Prop where
  ok : ∀ {s a s'}, p s = .ok a s' → Restored room s s'
  error : ∀ {s e s'}, p s = .error e s' → Restored room s s'

theorem Restores.of_ok {p : Parse α} {value : Parsing → α} {next : Parsing → Parsing}
    (hrun : ∀ s, p s = .ok (value s) (next s)) (hnext : ∀ s, Restored room s (next s)) :
    Restores room p := by
  constructor
  · intro s a s' h
    rw [hrun] at h
    cases h
    exact hnext s
  · intro s e s' h
    rw [hrun] at h
    cases h

theorem restores_fail (cause : SyntaxCause) (span : Span) :
    Restores room (fail cause span : Parse α) := by
  constructor
  · intro s a s' h
    cases h
  · intro s e s' h
    cases h
    exact .of_same rfl rfl rfl

theorem Restores.around {room' : Nat} {p : Parse α} {enter leave : Parsing → Parsing}
    (hp : Restores room p)
    (h : ∀ {s s'}, Restored room (enter s) s' → Restored room' s (leave s')) :
    Restores room' (around enter leave p) := by
  constructor
  · intro s a t hrun
    obtain ⟨s', hinner, rfl⟩ := around_ok.mp hrun
    exact h (hp.ok hinner)
  · intro s e t hrun
    obtain ⟨s', hinner, rfl⟩ := around_error.mp hrun
    exact h (hp.error hinner)

theorem Restores.bind {p : Parse α} {f : α → Parse β} (hp : Restores room p)
    (hf : ∀ a, Restores room (f a)) : Restores room (p >>= f) := by
  constructor
  · intro s b s'' h
    obtain ⟨a, s', hfirst, hmore⟩ := bind_ok h
    exact (hp.ok hfirst).trans ((hf a).ok hmore)
  · intro s e s'' h
    rcases bind_error h with hfirst | ⟨a, s', hfirst, hmore⟩
    · exact hp.error hfirst
    · exact (hp.ok hfirst).trans ((hf a).error hmore)

theorem Restores.inContext {p : Parse α} (name : String) (h : Restores room p) :
    Restores room (inContext name p) := by
  rw [inContext_eq_around]
  refine h.around fun {s s'} hinner => ?_
  refine ⟨hinner.depth, ?_, hinner.rises, hinner.within⟩
  show s'.context.tail = s.context
  rw [hinner.context]
  rfl

/-- **Every step puts the counters back** if its parts do. -/
theorem congruent_restores (room : Nat) : Congruent fun p _ => Restores room p where
  pure _ := .of_ok (fun _ => rfl) fun _ => .of_same rfl rfl rfl
  bind hp hf := hp.bind hf
  get := .of_ok (fun _ => rfl) fun _ => .of_same rfl rfl rfl
  current := .of_ok (fun _ => rfl) fun _ => .of_same rfl rfl rfl
  following := .of_ok (fun _ => rfl) fun _ => .of_same rfl rfl rfl
  advance := .of_ok (fun _ => rfl) fun _ => .of_same rfl rfl rfl
  record _ := .of_ok (fun _ => rfl) fun _ => .of_same rfl rfl rfl
  fail _ _ := restores_fail _ _
  inContext name h := h.inContext name

/-- Inside a parenthesis there is one less of room, and on the way out the depth comes down
again. -/
theorem Restores.nested {p : Parse α} (h : Restores room p) : Restores (room + 1) (nested p) := by
  rw [nested_eq_around]
  refine h.around fun {s s'} hinner => ?_
  have hdepth : s'.depth = s.depth + 1 := hinner.depth
  have hrises : max s.deepest (s.depth + 1) ≤ s'.deepest := hinner.rises
  have hwithin : s'.deepest ≤ max (max s.deepest (s.depth + 1)) (s.depth + 1 + room) :=
    hinner.within
  refine ⟨?_, hinner.context, ?_, ?_⟩
  · show s'.depth - 1 = s.depth
    omega
  · show s.deepest ≤ s'.deepest
    omega
  · show s'.deepest ≤ max s.deepest (s.depth + (room + 1))
    omega

/-- Forms and blocks without a head put the counters back. -/
theorem restores_level (room : Nat) :
    Restores room (level room).list ∧ Restores room (level room).bare := by
  induction room with
  | zero =>
    have hdeep : Restores 0 tooDeep :=
      (congruent_restores 0).current.bind fun _ => restores_fail _ _
    exact ⟨hdeep, hdeep⟩
  | succ room ih =>
    obtain ⟨hlist, hbare⟩ := ih
    have hcongruent := congruent_restores room
    exact ⟨(hcongruent.listBody _ (level room) hlist hbare).nested,
      (hcongruent.bareBody _ (level room) hlist).nested⟩

theorem restores_forms (room count : Nat) (done : List Node) :
    Restores room (forms (level room) count done) :=
  (congruent_restores room).forms (level room) (level room) (restores_level room).1
    (fun _ _ => restores_fail _ _) count done

theorem restores_program : Restores Limits.parseDepth program := by
  have h := congruent_restores Limits.parseDepth
  exact h.current.bind fun _ => h.get.bind fun _ => (restores_forms _ _ _).bind fun _ =>
    h.current.bind fun _ => h.pure _

end Restored

/-! ## Parsing with other room -/

/-- The second step, which has room for `k` more parentheses, does what the first one does as long
as that gets along with the same room. -/
structure Agrees (room k : Nat) (p q : Parse α) : Prop where
  restores : Restores room p
  same : ∀ {s a s'}, p s = .ok a s' → s'.deepest ≤ s.depth + k → q s = .ok a s'

section Agrees

variable {room k : Nat}

theorem Restores.agrees {p : Parse α} (h : Restores room p) : Agrees room k p p :=
  ⟨h, fun hrun _ => hrun⟩

theorem congruent_agrees (room k : Nat) : Congruent fun p q => Agrees room k p q where
  pure a := ((congruent_restores room).pure a).agrees
  bind {_ _ p q f g} hp hf := by
    refine ⟨hp.restores.bind fun a => (hf a).restores, ?_⟩
    intro s b s'' h hdeepest
    obtain ⟨a, s', hfirst, hmore⟩ := bind_ok h
    -- The greatest depth only rises, so the first step got along with the room too.
    have hrises := ((hf a).restores.ok hmore).rises
    have hdepth := (hp.restores.ok hfirst).depth
    have hq : q s = .ok a s' := hp.same hfirst (by omega)
    rw [bind_of_ok hq]
    exact (hf a).same hmore (by omega)
  get := (congruent_restores room).get.agrees
  current := (congruent_restores room).current.agrees
  following := (congruent_restores room).following.agrees
  advance := (congruent_restores room).advance.agrees
  record entry := ((congruent_restores room).record entry).agrees
  fail span _ := (restores_fail _ span).agrees
  inContext name h := by
    refine ⟨h.restores.inContext name, ?_⟩
    intro s a t hrun hdeepest
    rw [inContext_eq_around] at hrun ⊢
    obtain ⟨s', hinner, rfl⟩ := around_ok.mp hrun
    exact around_ok.mpr ⟨s', h.same hinner hdeepest, rfl⟩

theorem Agrees.nested {p q : Parse α} (h : Agrees room k p q) :
    Agrees (room + 1) (k + 1) (nested p) (nested q) := by
  refine ⟨h.restores.nested, ?_⟩
  intro s a t hrun hdeepest
  rw [nested_eq_around] at hrun ⊢
  obtain ⟨s', hinner, rfl⟩ := around_ok.mp hrun
  have hle : s'.deepest ≤ s.depth + 1 + k := by
    have : s'.deepest ≤ s.depth + (k + 1) := hdeepest
    omega
  exact around_ok.mpr ⟨s', h.same hinner hle, rfl⟩

/-- A parenthesis takes up room. -/
theorem Restores.lt_deepest {p : Parse α} (h : Restores room p) {s t : Parsing} {a : α}
    (hrun : Parse.nested p s = .ok a t) : s.depth < t.deepest := by
  rw [nested_eq_around] at hrun
  obtain ⟨s', hinner, rfl⟩ := around_ok.mp hrun
  have hrises : max s.deepest (s.depth + 1) ≤ s'.deepest := (h.ok hinner).rises
  show s.depth < s'.deepest
  omega

/-- **Room that is not used does not matter.** The induction is on the room of the first parser;
where the second one has none left, the first has already gone deeper than it may. -/
theorem agrees_level (room k : Nat) : Agrees room k (level room).list (level k).list ∧
    Agrees room k (level room).bare (level k).bare := by
  induction room generalizing k with
  | zero =>
    have hdeep : ∀ q, Agrees 0 k tooDeep q := by
      refine fun q => ⟨(restores_level 0).1, ?_⟩
      intro s a s' h
      cases h
    exact ⟨hdeep _, hdeep _⟩
  | succ room ih =>
    have hcongruent := congruent_restores room
    obtain ⟨hlist, hbare⟩ := restores_level room
    cases k with
    | zero =>
      have hnone : ∀ {p : Parse Node} (q : Parse Node), Restores room p →
          Agrees (room + 1) 0 (Parse.nested p) q := by
        intro p q hp
        refine ⟨hp.nested, ?_⟩
        intro s a s' hrun hdeepest
        have hlt := hp.lt_deepest hrun
        omega
      exact ⟨hnone _ (hcongruent.listBody _ (level room) hlist hbare),
        hnone _ (hcongruent.bareBody _ (level room) hlist)⟩
    | succ k =>
      obtain ⟨hlist', hbare'⟩ := ih k
      have hcongruent' := congruent_agrees room k
      exact ⟨(hcongruent'.listBody _ _ hlist' hbare').nested,
        (hcongruent'.bareBody _ _ hlist').nested⟩

theorem agrees_forms (room k count : Nat) (done : List Node) :
    Agrees room k (forms (level room) count done) (forms (level k) count done) :=
  (congruent_agrees room k).forms (level room) (level k) (agrees_level room k).1
    (fun _ _ => (restores_fail _ _).agrees) count done

end Agrees

/-! ## The loop over forms -/

/-- What may stand at the top level: any expression in one dialect, a form in the other. -/
def topLang : Dialect → Lang Node
  | .sexpr => exprLang
  | .plain => formLang

section Forms

variable {room k count : Nat} {s s' t : Parsing} {n : Node} {done ns : List Node}

theorem recognizesAt_topLang (room : Nat) (hs : s.stream.Ended) :
    RecognizesAt s (topForm (level room)) ((topLang s.stream.dialect).Within room) := by
  cases hdialect : s.stream.dialect with
  | sexpr => exact recognizesAt_topForm_sexpr hs hdialect
  | plain => exact recognizesAt_topForm_plain hs hdialect

theorem topLang_balanced {dialect : Dialect} {ts rest : List Token}
    (h : topLang dialect ts rest n) : Balanced ts := by
  cases dialect with
  | sexpr => exact Expr.balanced h
  | plain => exact Form.balanced h

/-- A form takes a token, and does not begin with the end of input. -/
theorem topLang_starts {dialect : Dialect} {ts rest : List Token}
    (h : topLang dialect ts rest n) : Starts ts := by
  cases dialect with
  | sexpr => exact (Item.expr h).starts
  | plain =>
    obtain ⟨opening, _, us, rfl, hopen, -⟩ := Form.first h
    exact starts_of_isOpen _ hopen

theorem forms_eq (top : Level) (count : Nat) (done : List Node) (s : Parsing) :
    forms top (count + 1) done s =
      if s.stream.current.isEof then .ok done.reverse s
      else (topForm top >>= fun n => forms top count (n :: done)) s := by
  change (if s.stream.current.isEof then pure done.reverse
    else topForm top >>= fun n => forms top count (n :: done)) s = _
  split
  · rfl
  · rfl

/-- The tokens that the loop passes, and that it comes to the end of the input if its count allows
for as many forms as there are tokens. -/
theorem forms_passes (hs : s.stream.Ended)
    (h : forms (level room) count done s = .ok ns s') :
    ∃ ts, s.stream.Passes ts s'.stream ∧ Balanced ts ∧ nesting ts ≤ room ∧
      (s.stream.remaining.length ≤ count → s'.stream.current.isEof = true) := by
  induction count generalizing s done with
  | zero =>
    cases h
    exact ⟨[], TokenStream.passes_nil _, balanced_nil, Nat.zero_le _, fun hcount => by cases hcount⟩
  | succ count ih =>
    rw [forms_eq] at h
    by_cases heof : s.stream.current.isEof = true
    · rw [if_pos heof] at h
      cases h
      exact ⟨[], TokenStream.passes_nil _, balanced_nil, Nat.zero_le _, fun _ => heof⟩
    · rw [if_neg heof] at h
      obtain ⟨n, s'', hform, hmore⟩ := bind_ok h
      obtain ⟨ts, hpasses, hn, hroom⟩ := (recognizesAt_topLang room hs).sound hform
      obtain ⟨us, hpasses', hus, hroom', hends⟩ := ih (hs.of_passes hpasses) hmore
      have hts := topLang_balanced hn
      refine ⟨ts ++ us, hpasses.append hpasses', hts.append hus, ?_, fun hcount => hends ?_⟩
      · rw [hts.nesting_append]
        omega
      · obtain ⟨t, vs, rfl, -⟩ := topLang_starts hn
        rw [hpasses.remaining, List.length_append, List.length_cons] at hcount
        omega

/-- **Other room for the loop.** If the tokens that were passed are nested no deeper than `k`, then
the loop goes through with room for that, whatever the counters are at its start. -/
theorem forms_shallow (hs : s.stream.Ended) (h : forms (level room) count done s = .ok ns s')
    (hk : ∀ ts, s.stream.Passes ts s'.stream → nesting ts ≤ k) (hst : s.stream.Passes [] t.stream) :
    ∃ t', forms (level k) count done t = .ok ns t' := by
  induction count generalizing s t done with
  | zero =>
    cases h
    exact ⟨t, rfl⟩
  | succ count ih =>
    have hcurrent : t.stream.current = s.stream.current :=
      (List.cons.inj hst.remaining).1.symm
    rw [forms_eq] at h ⊢
    rw [hcurrent]
    by_cases heof : s.stream.current.isEof = true
    · rw [if_pos heof] at h ⊢
      cases h
      exact ⟨t, rfl⟩
    rw [if_neg heof] at h ⊢
    obtain ⟨n, s₁, hform, hmore⟩ := bind_ok h
    obtain ⟨ts, hpasses, hn, -⟩ := (recognizesAt_topLang room hs).sound hform
    have hts := topLang_balanced hn
    have hs₁ := hs.of_passes hpasses
    obtain ⟨us, hpasses', -⟩ := forms_passes hs₁ hmore
    -- The first form fits into the room, so it is parsed in the same way.
    have hdialect : t.stream.dialect = s.stream.dialect := by
      unfold TokenStream.dialect TokenStream.dialectAt
      rw [hst.switches, hst.position]
      rfl
    have hroom : nesting ts ≤ k := by
      have hall := hk _ (hpasses.append hpasses')
      rw [hts.nesting_append] at hall
      omega
    have htop := recognizesAt_topLang k (hs.of_passes hst)
    rw [hdialect] at htop
    obtain ⟨t₁, hform', hpasses_t⟩ := htop.complete ⟨hn, hroom⟩ (List.cons_ne_nil _ _)
      (hst.remaining.symm.trans hpasses.remaining)
    -- Behind it both parsers see the same tokens again.
    have hst₁ : s₁.stream.Passes [] t₁.stream := by
      have heq := hst.remaining
      rw [hpasses.remaining, hpasses_t.remaining] at heq
      refine ⟨List.append_cancel_left heq, ?_, ?_⟩
      · have hposition := hst.position
        have hposition_s := hpasses.position
        have hposition_t := hpasses_t.position
        simp only [List.length_nil, Nat.add_zero] at hposition ⊢
        omega
      · rw [hpasses_t.switches, hst.switches, hpasses.switches]
    have hk₁ : ∀ vs, s₁.stream.Passes vs s'.stream → nesting vs ≤ k := by
      intro vs hvs
      have hall := hk _ (hpasses.append hvs)
      rw [hts.nesting_append] at hall
      omega
    obtain ⟨t', hmore'⟩ := ih hs₁ hmore hk₁ hst₁
    exact ⟨t', (bind_of_ok hform' _).trans hmore'⟩

/-- **How deep the loop gets** is how deep the tokens are nested that it passes. -/
theorem deepest_of_forms (hs : s.stream.Ended) (hdepth : s.depth = 0) (hdeepest : s.deepest = 0)
    (h : forms (level room) count done s = .ok ns s') :
    ∃ ts, s.stream.Passes ts s'.stream ∧ s'.deepest = nesting ts := by
  obtain ⟨ts, hpasses, -, hroom, -⟩ := forms_passes hs h
  refine ⟨ts, hpasses, Nat.le_antisymm ?_ ?_⟩
  · -- The loop goes through with as much room as the tokens need, and then does the same.
    have hk : ∀ us, s.stream.Passes us s'.stream → nesting us ≤ nesting ts := by
      intro us hus
      exact Nat.le_of_eq (congrArg nesting (hpasses.unique hus))
    obtain ⟨t', hrun⟩ := forms_shallow hs h hk s.stream.passes_nil
    have hwithin := ((restores_forms _ _ _).ok hrun).within
    have hsame := (agrees_forms (nesting ts) room count done).same hrun (by omega)
    rw [h] at hsame
    cases hsame
    omega
  · -- With as much room as the loop took it does the same, so the tokens need no more.
    have hsame := (agrees_forms room s'.deepest count done).same h (by omega)
    obtain ⟨us, hpasses', -, hroom', -⟩ := forms_passes hs hsame
    rw [← hpasses.unique hpasses']
    exact hroom'

end Forms

end Parse

/-! ## Running depth -/

/-- How many more parentheses are opened than closed in some tokens. -/
def runningDepth (ts : List Token) : Int :=
  (ts.countP Token.isOpen : Int) - ts.countP Token.isClose

section RunningDepth

variable {depth depth' peak : Nat} {t : Token} {ts : List Token}

theorem runningDepth_open (h : t.isOpen = true) : runningDepth (t :: ts) = runningDepth ts + 1 := by
  have hclose : t.isClose = false := by
    by_cases hclose : t.isClose = true
    · rw [Grammar.isOpen_of_isClose hclose] at h
      cases h
    · exact Bool.not_eq_true _ ▸ hclose
  simp only [runningDepth, List.countP_cons, h, hclose]
  simp only [if_true, Bool.false_eq_true, if_false]
  omega

theorem runningDepth_close (h : t.isClose = true) :
    runningDepth (t :: ts) = runningDepth ts - 1 := by
  simp only [runningDepth, List.countP_cons, h, Grammar.isOpen_of_isClose h]
  simp only [if_true, Bool.false_eq_true, if_false]
  omega

theorem runningDepth_plain (hopen : t.isOpen = false) (hclose : t.isClose = false) :
    runningDepth (t :: ts) = runningDepth ts := by
  simp only [runningDepth, List.countP_cons, hopen, hclose]
  simp only [Bool.false_eq_true, if_false, Nat.add_zero]

/-- With so many parentheses open in front of the tokens, `peak` is the greatest number that is
open at any place among them: no beginning of the tokens leads to more, and some beginning leads
to it. -/
structure PeaksAt (depth : Nat) (ts : List Token) (peak : Nat) : Prop where
  bound : ∀ before, before <+: ts → depth + runningDepth before ≤ peak
  reached : ∃ before, before <+: ts ∧ depth + runningDepth before = peak

theorem peaksAt_nil (depth : Nat) : PeaksAt depth [] depth := by
  have hnone : (depth : Int) + runningDepth [] = depth := by simp [runningDepth]
  refine ⟨?_, [], List.prefix_rfl, hnone⟩
  intro before hbefore
  exact Int.le_of_eq (by rw [List.prefix_nil.mp hbefore, hnone])

theorem PeaksAt.cons (h : PeaksAt depth' ts peak)
    (hstep : ∀ us, depth + runningDepth (t :: us) = depth' + runningDepth us) :
    PeaksAt depth (t :: ts) (max depth peak) := by
  have hnone : runningDepth [] = 0 := rfl
  constructor
  · intro before hbefore
    rcases List.prefix_cons_iff.mp hbefore with rfl | ⟨us, rfl, hus⟩
    · rw [hnone]
      omega
    · have hbound := h.bound us hus
      have := hstep us
      omega
  · obtain ⟨us, hus, hpeak⟩ := h.reached
    have := hstep us
    by_cases hle : peak ≤ depth
    · exact ⟨[], List.nil_prefix, by rw [hnone]; omega⟩
    · exact ⟨t :: us, List.prefix_cons_iff.mpr (.inr ⟨us, rfl, hus⟩), by omega⟩

/-- **The nesting is the greatest running depth**, if nothing is closed that was never opened. -/
theorem peaksAt_deepest {stack after : List Token} (h : unclosed? stack ts = some after) :
    PeaksAt stack.length ts (Grammar.deepest stack.length ts) := by
  induction stack, ts using unclosed_induction with
  | nil stack => exact peaksAt_nil _
  | opening stack t ts hopen ih =>
    rw [unclosed?_open hopen] at h
    rw [Grammar.deepest, if_pos hopen]
    refine (ih h).cons fun us => ?_
    rw [runningDepth_open hopen, List.length_cons]
    omega
  | closing opening outer t ts hclose ih =>
    rw [unclosed?_close hclose] at h
    rw [Grammar.deepest, Grammar.isOpen_of_isClose hclose, if_neg Bool.false_ne_true, if_pos hclose]
    refine (ih h).cons fun us => ?_
    rw [runningDepth_close hclose, List.length_cons]
    omega
  | unmatched t ts hclose =>
    rw [unclosed?_close_nil hclose] at h
    cases h
  | plain stack t ts hopen hclose ih =>
    rw [unclosed?_plain hopen hclose] at h
    rw [Grammar.deepest, hopen, hclose, if_neg Bool.false_ne_true, if_neg Bool.false_ne_true]
    refine (ih h).cons fun us => ?_
    rw [runningDepth_plain hopen hclose]

end RunningDepth

/-- **What a finished parse has counted.** It has come to the end of input, the parentheses of the
stream are closed again, and it got as deep as they are nested. -/
theorem parseProgram_counts {stream : TokenStream} {tree : Node} {s : Parsing} (hs : stream.Ended)
    (h : parseProgram stream = .ok tree s) :
    ∃ body last, stream.Passes body s.stream ∧ s.stream.remaining = [last] ∧ last.isEof = true ∧
      unclosed? [] stream.remaining = some [] ∧ PeaksAt 0 stream.remaining s.deepest := by
  obtain ⟨all, hforms, -⟩ := parseProgram_ok h
  obtain ⟨body, hpasses, hbalanced, -, hends⟩ := Parse.forms_passes hs hforms
  have heof : s.stream.current.isEof = true := hends (Nat.le_refl _)
  have hrest : s.stream.remaining = [s.stream.current] := by
    rw [TokenStream.remaining, (hs.of_passes hpasses).ahead_eq_nil.mp heof]
  -- The end of input is no parenthesis, so the counts are those of the tokens in front of it.
  have hkind : s.stream.current.kind = .eof := by simpa [Token.isEof] using heof
  obtain ⟨hopen, hclose⟩ := Grammar.not_paren_of_kind (t := s.stream.current) (by rw [hkind]; rfl)
  have hclosed : unclosed? [] stream.remaining = some [] := by
    obtain ⟨ts, hpasses', hts⟩ := (Parse.tracksAt_forms _ _ [] hs).ok hforms
    rw [hpasses.unique hpasses'] at hts
    rw [hpasses.remaining, hrest]
    exact unclosed?_trans hts (unclosed?_single hopen hclose)
  have hdeepest : s.deepest = Grammar.deepest 0 stream.remaining := by
    obtain ⟨ts, hpasses', hnesting⟩ := Parse.deepest_of_forms hs rfl rfl hforms
    rw [hpasses.unique hpasses'] at hnesting
    rw [hnesting, hpasses.remaining, hrest]
    show _ = Grammar.nesting (body ++ [s.stream.current])
    rw [hbalanced.nesting_append]
    have hnone : Grammar.nesting [s.stream.current] = 0 := Grammar.deepest_plain 0 [] hopen hclose
    omega
  refine ⟨body, s.stream.current, hpasses, hrest, heof, hclosed, ?_⟩
  rw [hdeepest]
  exact peaksAt_deepest hclosed

/-- **Depth follows the parentheses.** Let a stream have no end of input but its last token. However
its parse ends, no form is left open, and at no time were more forms open than the limit allows. If
it succeeds, then the parentheses of the stream are balanced, every token in front of the end of
input has been taken, and the greatest depth met is the greatest number of parentheses that are open
at any place of the stream. So a stream with more of them open at some place than the limit allows
is not parsed. -/
theorem depth_follows_parentheses (tokens : List Token) (switches : List DialectSwitch)
    (table : Option LineTable) (stream : TokenStream)
    (hstream : stream = { TokenStream.ofTokens tokens with switches, table })
    (hinterior : ∀ t ∈ tokens.dropLast, t.isEof = false) :
    (∀ s, ((∃ tree, parseProgram stream = .ok tree s) ∨ ∃ e, parseProgram stream = .error e s) →
      s.depth = 0 ∧ s.context = [] ∧ s.deepest ≤ Limits.parseDepth) ∧
    (∀ tree s, parseProgram stream = .ok tree s →
      parensBalanced 0 stream.remaining = true ∧
      (∃ body last, stream.remaining = body ++ [last] ∧ last.isEof = true ∧
        s.stream.remaining = [last] ∧ s.stream.position = body.length) ∧
      PeaksAt 0 stream.remaining s.deepest) ∧
    ∀ before, before <+: stream.remaining → Limits.parseDepth < runningDepth before →
      ∃ e s, parseProgram stream = .error e s := by
  obtain ⟨last, hsplit, hlast⟩ := TokenStream.remaining_ofTokens hinterior
  have hbody : ∀ t ∈ tokens.takeWhile (!·.isEof), t.isEof = false := by
    intro t ht
    have := List.all_eq_true.mp List.all_takeWhile t ht
    simpa using this
  have hremaining : stream.remaining = tokens.takeWhile (!·.isEof) ++ [last] := by
    rw [hstream]
    exact hsplit
  have hended := TokenStream.ended_of_remaining hremaining hbody hlast
  have hposition : stream.position = 0 := by
    rw [hstream]
    cases tokens with
    | nil => rfl
    | cons t ts => rfl
  have hrestored : ∀ s, ((∃ tree, parseProgram stream = .ok tree s) ∨
      ∃ e, parseProgram stream = .error e s) → Parse.Restored Limits.parseDepth { stream } s := by
    rintro s (⟨tree, h⟩ | ⟨e, h⟩)
    · exact Parse.restores_program.ok h
    · exact Parse.restores_program.error h
  have hlimit : ∀ s, ((∃ tree, parseProgram stream = .ok tree s) ∨
      ∃ e, parseProgram stream = .error e s) → s.deepest ≤ Limits.parseDepth := by
    intro s h
    have hwithin := (hrestored s h).within
    simpa using hwithin
  refine ⟨fun s h => ⟨(hrestored s h).depth, (hrestored s h).context, hlimit s h⟩, ?_, ?_⟩
  · intro tree s h
    obtain ⟨body, last, hpasses, hrest, heof, hclosed, hpeak⟩ := parseProgram_counts hended h
    have hpassed := hpasses.position
    rw [hposition, Nat.zero_add] at hpassed
    exact ⟨(parensBalanced_iff [] _).mpr hclosed,
      ⟨body, last, by rw [hpasses.remaining, hrest], heof, hrest, hpassed⟩, hpeak⟩
  · intro before hbefore hdeep
    cases h : parseProgram stream with
    | error e s => exact ⟨e, s, rfl⟩
    | ok tree s =>
      obtain ⟨_, _, _, _, _, _, hpeak⟩ := parseProgram_counts hended h
      have hbound := hpeak.bound before hbefore
      have hle := hlimit s (.inl ⟨tree, h⟩)
      omega

/-- A loop whose body is a block without a head gets three parentheses deep. -/
theorem loop_depth : ∃ tree s, parseProgram (streamOf loopTokens) = .ok tree s ∧
    s.depth = 0 ∧ s.context = [] ∧ s.deepest = 3 ∧
    parensBalanced 0 (streamOf loopTokens).remaining = true := by
  obtain ⟨hended, hcounts, -⟩ := depth_follows_parentheses loopTokens [⟨0, .sexpr⟩] none
    (streamOf loopTokens) rfl (by decide)
  have hsome : (EStateM.run' Parse.program { stream := streamOf loopTokens }).isSome = true := by
    decide +kernel
  cases hrun : parseProgram (streamOf loopTokens) with
  | error e s =>
    change Parse.program { stream := streamOf loopTokens } = _ at hrun
    delta EStateM.run' EStateM.run at hsome
    rw [hrun] at hsome
    exact absurd hsome Bool.false_ne_true
  | ok tree s =>
    obtain ⟨hdepth, hcontext, -⟩ := hended s (.inl ⟨tree, hrun⟩)
    obtain ⟨hbalanced, -, hpeak⟩ := hcounts tree s hrun
    refine ⟨tree, s, rfl, hdepth, hcontext, ?_, hbalanced⟩
    have hbound := hpeak.bound (loopTokens.take 6) ⟨_, rfl⟩
    obtain ⟨before, hbefore, hreached⟩ := hpeak.reached
    have hall : ∀ n < 15, runningDepth ((streamOf loopTokens).remaining.take n) ≤ 3 := by
      decide +kernel
    rw [List.prefix_iff_eq_take.mp hbefore] at hreached
    have := hall before.length (Nat.lt_succ_of_le hbefore.length_le)
    have hthree : runningDepth (loopTokens.take 6) = 3 := by decide +kernel
    omega

end FormScript
