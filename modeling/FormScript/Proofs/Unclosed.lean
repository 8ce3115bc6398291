import FormScript.Proofs.Acceptance
import FormScript.Token.Tally

/-!
# Errors at the end of the input

Two errors say that the input ended too early: something was expected and nothing came, or a form
was never closed. Both are met in many places of the parser, which keeps no list of the open
parentheses: they are on its call stack, where each form knows of its own and of no other.

For tokens alone such a list is easy to keep (`unclosed?`), and **`Parse.TracksAt`** says of a step
that the two agree. A step that succeeds takes tokens that lead from the parentheses open before it
to those open behind it; a step that fails at the end of the input does so with a parenthesis still
open, and if it names one, it is the innermost; and a step that fails elsewhere is about tokens that
are no end of input. Steps in sequence track if each does, so the parser is gone through once, and
`end_of_input_blames_innermost` is what comes out for whole streams.
-/

namespace FormScript

/-! ## Open parentheses -/

/-- The parentheses that are open behind some tokens, innermost first, if those of `stack` are open
in front. There is no answer if one is closed that was never opened. -/
def unclosed? (stack : List Token) : List Token → Option (List Token)
  | [] => some stack
  | t :: ts =>
    if t.isOpen then unclosed? (t :: stack) ts
    else if t.isClose then
      match stack with
      | [] => none
      | _ :: outer => unclosed? outer ts
    else unclosed? stack ts

section Unclosed

variable {stack mid after ts us : List Token} {t : Token}

theorem unclosed?_open (h : t.isOpen = true) :
    unclosed? stack (t :: ts) = unclosed? (t :: stack) ts := by
  show (if t.isOpen then unclosed? (t :: stack) ts else _) = _
  exact if_pos h

theorem unclosed?_close (h : t.isClose = true) (opening : Token) :
    unclosed? (opening :: stack) (t :: ts) = unclosed? stack ts := by
  show (if t.isOpen then _ else if t.isClose then unclosed? stack ts else _) = _
  rw [Grammar.isOpen_of_isClose h, if_neg Bool.false_ne_true, if_pos h]

theorem unclosed?_close_nil (h : t.isClose = true) : unclosed? [] (t :: ts) = none := by
  show (if t.isOpen then _ else if t.isClose then none else _) = _
  rw [Grammar.isOpen_of_isClose h, if_neg Bool.false_ne_true, if_pos h]

theorem unclosed?_plain (hopen : t.isOpen = false) (hclose : t.isClose = false) :
    unclosed? stack (t :: ts) = unclosed? stack ts := by
  show (if t.isOpen then _ else if t.isClose then _ else unclosed? stack ts) = _
  rw [hopen, hclose, if_neg Bool.false_ne_true, if_neg Bool.false_ne_true]

/-- A token that is no parenthesis. -/
theorem unclosed?_single (hopen : t.isOpen = false) (hclose : t.isClose = false) :
    unclosed? stack [t] = some stack :=
  unclosed?_plain hopen hclose

/-- Induction along the tokens, with the parentheses that are open in front of each: one more is
opened, the innermost one is closed, none is there to be closed, or the token is another one. -/
@[elab_as_elim]
theorem unclosed_induction {motive : List Token → List Token → Prop} (stack ts : List Token)
    (nil : ∀ stack, motive stack [])
    (opening : ∀ stack t ts, t.isOpen = true → motive (t :: stack) ts → motive stack (t :: ts))
    (closing : ∀ opening outer t ts, t.isClose = true → motive outer ts →
      motive (opening :: outer) (t :: ts))
    (unmatched : ∀ t ts, t.isClose = true → motive [] (t :: ts))
    (plain : ∀ stack t ts, t.isOpen = false → t.isClose = false → motive stack ts →
      motive stack (t :: ts)) : motive stack ts := by
  induction ts generalizing stack with
  | nil => exact nil stack
  | cons t ts ih =>
    by_cases hopen : t.isOpen = true
    · exact opening stack t ts hopen (ih (t :: stack))
    by_cases hclose : t.isClose = true
    · cases stack with
      | nil => exact unmatched t ts hclose
      | cons u outer => exact closing u outer t ts hclose (ih outer)
    rw [Bool.not_eq_true] at hopen hclose
    exact plain stack t ts hopen hclose (ih stack)

theorem unclosed?_append (stack ts us : List Token) :
    unclosed? stack (ts ++ us) = (unclosed? stack ts).bind (unclosed? · us) := by
  induction stack, ts using unclosed_induction with
  | nil => rfl
  | opening stack t ts hopen ih =>
    rw [List.cons_append, unclosed?_open hopen, unclosed?_open hopen, ih]
  | closing opening outer t ts hclose ih =>
    rw [List.cons_append, unclosed?_close hclose, unclosed?_close hclose, ih]
  | unmatched t ts hclose =>
    rw [List.cons_append, unclosed?_close_nil hclose, unclosed?_close_nil hclose]
    rfl
  | plain stack t ts hopen hclose ih =>
    rw [List.cons_append, unclosed?_plain hopen hclose, unclosed?_plain hopen hclose, ih]

/-- One list of tokens behind another. -/
theorem unclosed?_trans (h : unclosed? stack ts = some mid) (h' : unclosed? mid us = some after) :
    unclosed? stack (ts ++ us) = some after := by
  rw [unclosed?_append, h]
  exact h'

/-- What was open further out does not matter. -/
theorem unclosed?_outer (h : unclosed? stack ts = some mid) (outer : List Token) :
    unclosed? (stack ++ outer) ts = some (mid ++ outer) := by
  induction stack, ts using unclosed_induction with
  | nil =>
    cases h
    rfl
  | opening stack t ts hopen ih =>
    rw [unclosed?_open hopen] at h ⊢
    exact ih h
  | closing opening stack t ts hclose ih =>
    rw [unclosed?_close hclose] at h
    rw [List.cons_append, unclosed?_close hclose]
    exact ih h
  | unmatched t ts hclose =>
    rw [unclosed?_close_nil hclose] at h
    cases h
  | plain stack t ts hopen hclose ih =>
    rw [unclosed?_plain hopen hclose] at h ⊢
    exact ih h

/-- Counting the open parentheses is enough to see whether all get closed. -/
theorem parensBalanced_iff (stack ts : List Token) :
    parensBalanced stack.length ts = true ↔ unclosed? stack ts = some [] := by
  induction stack, ts using unclosed_induction with
  | nil stack =>
    show _ ↔ some stack = some []
    simp [parensBalanced]
  | opening stack t ts hopen ih =>
    rw [unclosed?_open hopen, parensBalanced.eq_def]
    simpa only [hopen, if_true, List.length_cons] using ih
  | closing opening outer t ts hclose ih =>
    rw [unclosed?_close hclose, parensBalanced.eq_def]
    simpa only [Grammar.isOpen_of_isClose hclose, hclose, if_true, Bool.false_eq_true, if_false,
      List.length_cons] using ih
  | unmatched t ts hclose =>
    rw [unclosed?_close_nil hclose]
    simp [parensBalanced, Grammar.isOpen_of_isClose hclose, hclose]
  | plain stack t ts hopen hclose ih =>
    rw [unclosed?_plain hopen hclose, parensBalanced.eq_def]
    simpa only [hopen, hclose, Bool.false_eq_true, if_false] using ih

/-- The innermost open parenthesis is among the tokens, with all that were opened behind it closed
again; or it was open before, and the tokens close those further in. -/
theorem exists_of_unclosed? {outer : List Token} (h : unclosed? stack ts = some (t :: outer)) :
    (∃ before after, ts = before ++ t :: after ∧ t.isOpen = true ∧ unclosed? [] after = some []) ∨
      ∃ inner, stack = inner ++ t :: outer ∧ unclosed? inner ts = some [] := by
  induction stack, ts using unclosed_induction with
  | nil =>
    cases h
    exact .inr ⟨[], rfl, rfl⟩
  | opening stack u ts hopen ih =>
    rw [unclosed?_open hopen] at h
    rcases ih h with ⟨before, after, rfl, ht, hafter⟩ | ⟨inner, hstack, hinner⟩
    · exact .inl ⟨u :: before, after, rfl, ht, hafter⟩
    · cases inner with
      | nil =>
        -- The parenthesis opened here is the one that stays open.
        obtain ⟨rfl, -⟩ := List.cons.inj hstack
        exact .inl ⟨[], ts, rfl, hopen, hinner⟩
      | cons v inner =>
        obtain ⟨rfl, rfl⟩ := List.cons.inj hstack
        exact .inr ⟨inner, rfl, by rw [unclosed?_open hopen, hinner]⟩
  | closing opening stack u ts hclose ih =>
    rw [unclosed?_close hclose] at h
    rcases ih h with ⟨before, after, rfl, ht, hafter⟩ | ⟨inner, rfl, hinner⟩
    · exact .inl ⟨u :: before, after, rfl, ht, hafter⟩
    · exact .inr ⟨opening :: inner, rfl, by rw [unclosed?_close hclose, hinner]⟩
  | unmatched u ts hclose =>
    rw [unclosed?_close_nil hclose] at h
    cases h
  | plain stack u ts hopen hclose ih =>
    rw [unclosed?_plain hopen hclose] at h
    rcases ih h with ⟨before, after, rfl, ht, hafter⟩ | ⟨inner, rfl, hinner⟩
    · exact .inl ⟨u :: before, after, rfl, ht, hafter⟩
    · exact .inr ⟨inner, rfl, by rw [unclosed?_plain hopen hclose, hinner]⟩

/-- Where all parentheses get closed, each has one that closes it, with those in between paired. -/
theorem exists_close_of_unclosed? {inner outer : List Token}
    (h : unclosed? (inner ++ t :: outer) ts = some []) :
    ∃ between close rest, ts = between ++ close :: rest ∧ close.isClose = true ∧
      unclosed? inner between = some [] := by
  induction ts generalizing inner with
  | nil => exact absurd (Option.some.inj h) (by simp)
  | cons u ts ih =>
    by_cases hopen : u.isOpen = true
    · rw [unclosed?_open hopen, ← List.cons_append] at h
      obtain ⟨between, close, rest, rfl, hclose, hbetween⟩ := ih h
      exact ⟨u :: between, close, rest, rfl, hclose, by rw [unclosed?_open hopen, hbetween]⟩
    by_cases hclose : u.isClose = true
    · cases inner with
      | nil => exact ⟨[], u, ts, rfl, hclose, rfl⟩
      | cons v inner =>
        rw [List.cons_append, unclosed?_close hclose] at h
        obtain ⟨between, close, rest, rfl, hclose', hbetween⟩ := ih h
        exact ⟨u :: between, close, rest, rfl, hclose', by rw [unclosed?_close hclose, hbetween]⟩
    rw [Bool.not_eq_true] at hopen hclose
    rw [unclosed?_plain hopen hclose] at h
    obtain ⟨between, close, rest, rfl, hclose', hbetween⟩ := ih h
    exact ⟨u :: between, close, rest, rfl, hclose', by rw [unclosed?_plain hopen hclose, hbetween]⟩

end Unclosed

/-- An opening parenthesis in front of some tokens that none of them closes: behind no stretch with
paired parentheses there is a closing one. -/
def Token.IsUnclosed (t : Token) (after : List Token) : Prop :=
  t.isOpen = true ∧ ∀ (between : List Token) (close : Token) (rest : List Token),
    after = between ++ close :: rest → parensBalanced 0 between = true → close.isClose = false

/-- The last parenthesis of some tokens that is never closed. -/
def IsLastUnclosed (tokens : List Token) (t : Token) : Prop :=
  ∃ before after, tokens = before ++ t :: after ∧ t.IsUnclosed after ∧
    ∀ (between : List Token) (u : Token) (rest : List Token),
      after = between ++ u :: rest → ¬ u.IsUnclosed rest

theorem isLastUnclosed_of_balanced {before after : List Token} {t : Token} (hopen : t.isOpen = true)
    (hafter : unclosed? [] after = some []) : IsLastUnclosed (before ++ t :: after) t := by
  refine ⟨before, after, rfl, ⟨hopen, ?_⟩, ?_⟩
  · rintro between close rest rfl hbetween
    rw [unclosed?_append, (parensBalanced_iff [] between).mp hbetween] at hafter
    by_cases hclose : close.isClose = true
    · rw [Option.bind_some, unclosed?_close_nil hclose] at hafter
      cases hafter
    · rwa [Bool.not_eq_true] at hclose
  · rintro between u rest rfl ⟨hu, hunclosed⟩
    rw [unclosed?_append] at hafter
    obtain ⟨stack, -, hrest⟩ := Option.bind_eq_some_iff.mp hafter
    rw [unclosed?_open hu] at hrest
    obtain ⟨inner, close, more, rfl, hclose, hinner⟩ := @exists_close_of_unclosed? _ u [] _ hrest
    rw [hunclosed inner close more rfl ((parensBalanced_iff [] inner).mpr hinner)] at hclose
    cases hclose

/-! ## Errors and the tokens they are about -/

/-- Whether the input ended too early. -/
def SyntaxCause.isAtEnd : SyntaxCause → Bool
  | unexpectedEnd _ | missingClose _ _ => true
  | _ => false

/-- The error is about one of the tokens, which is no end of input, or about it and the next. -/
def SyntaxError.IsAmong (e : SyntaxError) (tokens : List Token) : Prop :=
  ∃ (before : List Token) (t : Token) (after : List Token),
    tokens = before ++ t :: after ∧ t.isEof = false ∧ (e.span = t.span ∨
      ∃ (u : Token) (rest : List Token),
        after = u :: rest ∧ u.isEof = false ∧ e.span = t.span.merge u.span)

/-- The error is what the tokens call for, in front of which the parentheses of `stack` are open: at
the end of the input there is still one open, and if one is named, it is the innermost. -/
structure SyntaxError.Justified (stack tokens : List Token) (e : SyntaxError) : Prop where
  atEnd : e.cause.isAtEnd = true → ∃ body last t outer, tokens = body ++ [last] ∧
    last.isEof = true ∧ e.span = last.span ∧ unclosed? stack body = some (t :: outer) ∧
    ∀ head opened, e.cause = .missingClose head opened → opened = t.span.start
  elsewhere : e.cause.isAtEnd = false → e.IsAmong tokens

/-- Tokens in front make no difference. -/
theorem SyntaxError.Justified.behind {stack mid ts us : List Token} {e : SyntaxError}
    (h : e.Justified mid us) (hts : unclosed? stack ts = some mid) :
    e.Justified stack (ts ++ us) where
  atEnd hcause := by
    obtain ⟨body, last, t, outer, rfl, hlast, hspan, hbody, hopened⟩ := h.atEnd hcause
    exact ⟨ts ++ body, last, t, outer, (List.append_assoc _ _ _).symm, hlast, hspan,
      unclosed?_trans hts hbody, hopened⟩
  elsewhere hcause := by
    obtain ⟨before, t, after, rfl, ht, hspan⟩ := h.elsewhere hcause
    exact ⟨ts ++ before, t, after, (List.append_assoc _ _ _).symm, ht, hspan⟩

namespace Parse

open Grammar

variable {α β : Type} {s : Parsing} {p : Parse α} {f : α → Parse β}
  {stack mid after outer : List Token} {opening : Token}

/-- From this state, in which the parentheses of `before` are open, a step leads to one in which
those of `after` are, or it stops with an error that the tokens call for. -/
structure TracksAt (s : Parsing) (before after : List Token) (p : Parse α) : Prop where
  ok : ∀ {a s'}, p s = .ok a s' →
    ∃ ts, s.stream.Passes ts s'.stream ∧ unclosed? before ts = some after
  error : ∀ {e s'}, p s = .error e s' → e.Justified before s.stream.remaining

namespace TracksAt

theorem of_ok {a : α} {ts : List Token} (s' : Parsing) (hrun : p s = .ok a s')
    (hpasses : s.stream.Passes ts s'.stream) (hts : unclosed? stack ts = some after) :
    TracksAt s stack after p := by
  constructor
  · intro b s'' hok
    rw [hrun] at hok
    cases hok
    exact ⟨ts, hpasses, hts⟩
  · intro e s'' herror
    rw [hrun] at herror
    cases herror

theorem of_error {e : SyntaxError} {s' : Parsing} (hrun : p s = .error e s')
    (h : e.Justified stack s.stream.remaining) : TracksAt s stack after p := by
  constructor
  · intro a s'' hok
    rw [hrun] at hok
    cases hok
  · intro e' s'' herror
    rw [hrun] at herror
    cases herror
    exact h

theorem pure (a : α) : TracksAt s stack stack (pure a) :=
  of_ok s rfl s.stream.passes_nil rfl

/-- **Steps in sequence.** -/
theorem bind (hp : TracksAt s stack mid p)
    (hf : ∀ {a s' ts}, s.stream.Passes ts s'.stream → TracksAt s' mid after (f a)) :
    TracksAt s stack after (p >>= f) := by
  have hrun : (p >>= f) s = EStateM.bind p f s := rfl
  unfold EStateM.bind at hrun
  cases hfirst : p s with
  | error e s' =>
    rw [hfirst] at hrun
    exact of_error hrun (hp.error hfirst)
  | ok a s' =>
    rw [hfirst] at hrun
    dsimp only at hrun
    obtain ⟨ts, hpasses, hts⟩ := hp.ok hfirst
    have hnext : TracksAt s' mid after (f a) := hf hpasses
    constructor
    · intro b s'' hok
      obtain ⟨us, hpasses', hus⟩ := hnext.ok (hrun.symm.trans hok)
      exact ⟨ts ++ us, hpasses.append hpasses', unclosed?_trans hts hus⟩
    · intro e s'' herror
      rw [hpasses.remaining]
      exact (hnext.error (hrun.symm.trans herror)).behind hts

/-- Looking at the token at hand takes nothing. -/
theorem current_bind {f : Token → Parse β} (h : TracksAt s stack after (f s.stream.current)) :
    TracksAt s stack after (current >>= f) :=
  ⟨h.ok, h.error⟩

theorem following_bind {f : Token → Parse β}
    (h : TracksAt s stack after (f (s.stream.lookAhead 1))) :
    TracksAt s stack after (following >>= f) :=
  ⟨h.ok, h.error⟩

theorem get_bind {f : Parsing → Parse β} (h : TracksAt s stack after (f s)) :
    TracksAt s stack after (get >>= f) :=
  ⟨h.ok, h.error⟩

/-- A step that runs another and changes nothing but what is kept beside the stream. -/
theorem around {q : Parse α} {inner : Parsing} (leave : Parsing → Parsing)
    (h : TracksAt inner stack after p) (henter : inner.stream = s.stream)
    (hleave : ∀ s', (leave s').stream = s'.stream)
    (hok : ∀ a s', p inner = .ok a s' → q s = .ok a (leave s'))
    (herror : ∀ e s', p inner = .error e s' → q s = .error e (leave s')) :
    TracksAt s stack after q := by
  cases hp : p inner with
  | ok a s' =>
    obtain ⟨ts, hpasses, hts⟩ := h.ok hp
    rw [henter, ← hleave s'] at hpasses
    exact of_ok (leave s') (hok a s' hp) hpasses hts
  | error e s' =>
    have hjustified := h.error hp
    rw [henter] at hjustified
    exact of_error (herror e s' hp) hjustified

theorem inContext (name : String) (h : ∀ s' : Parsing, s'.stream = s.stream →
    TracksAt s' stack after p) : TracksAt s stack after (inContext name p) := by
  refine (h { s with context := name :: s.context } rfl).around
    (fun s' => { s' with context := s'.context.tail }) rfl (fun _ => rfl) ?_ ?_
  · intro a s' hp
    rw [Parse.inContext, hp]
  · intro e s' hp
    rw [Parse.inContext, hp]

theorem nested (h : ∀ s' : Parsing, s'.stream = s.stream → TracksAt s' stack after p) :
    TracksAt s stack after (nested p) := by
  refine (h { s with depth := s.depth + 1, deepest := max s.deepest (s.depth + 1) } rfl).around
    (fun s' => { s' with depth := s'.depth - 1 }) rfl (fun _ => rfl) ?_ ?_
  · intro a s' hp
    rw [Parse.nested, hp]
  · intro e s' hp
    rw [Parse.nested, hp]

/-! ## Stopping and moving on -/

/-- Stopping at a token that is no end of input. -/
theorem fail_here {cause : SyntaxCause} (hcause : cause.isAtEnd = false)
    (h : s.stream.current.isEof = false) :
    TracksAt s stack after (fail cause s.stream.current.span : Parse α) := by
  refine of_error rfl ⟨fun hend => ?_, fun _ => ?_⟩
  · rw [hcause] at hend
    cases hend
  · exact ⟨[], s.stream.current, s.stream.ahead, rfl, h, .inl rfl⟩

/-- Stopping at the end of the input, inside a form. -/
theorem fail_end {cause : SyntaxCause} (hs : s.stream.Ended)
    (hcause : cause.isAtEnd = true)
    (hopened : ∀ head opened, cause = .missingClose head opened → opened = opening.span.start)
    (h : s.stream.current.isEof = true) :
    TracksAt s (opening :: outer) after (fail cause s.stream.current.span : Parse α) := by
  refine of_error rfl ⟨fun _ => ?_, fun hend => ?_⟩
  · refine ⟨[], s.stream.current, opening, outer, ?_, h, rfl, rfl, hopened⟩
    rw [TokenStream.remaining, hs.ahead_eq_nil.mp h]
    rfl
  · rw [hcause] at hend
    cases hend

/-- Another token than the expected one. Outside of all forms it must not be the end of input. -/
theorem unexpected (hs : s.stream.Ended) (expected : String)
    (h : s.stream.current.isEof = true → ∃ opening outer, stack = opening :: outer) :
    TracksAt s stack after (unexpected expected s.stream.current : Parse α) := by
  unfold Parse.unexpected
  by_cases heof : s.stream.current.isEof = true
  · obtain ⟨opening, outer, rfl⟩ := h heof
    rw [if_pos heof]
    exact fail_end hs rfl (fun _ _ hcause => by cases hcause) heof
  · rw [if_neg heof]
    exact fail_here rfl (Bool.not_eq_true _ ▸ heof)

/-- Taking the token at hand, which may be a parenthesis. -/
theorem advance_bind {f : Token → Parse β} (hs : s.stream.Ended)
    (heof : s.stream.current.isEof = false)
    (hmid : unclosed? stack [s.stream.current] = some mid)
    (h : ∀ s' : Parsing, s'.stream.Ended → s.stream.Passes [s.stream.current] s'.stream →
      TracksAt s' mid after (f s.stream.current)) : TracksAt s stack after (advance >>= f) := by
  have hpasses := hs.passes_advance heof
  have hnext := h { s with stream := s.stream.advance } (hs.of_passes hpasses) hpasses
  constructor
  · intro b s' hok
    obtain ⟨ts, hpasses', hts⟩ := hnext.ok hok
    exact ⟨_, hpasses.append hpasses', unclosed?_trans hmid hts⟩
  · intro e s' herror
    rw [hpasses.remaining]
    exact (hnext.error herror).behind hmid

/-- Taking an atom, which is all that a slot has to do. -/
theorem atom {n : Node} (hs : s.stream.Ended) (heof : s.stream.current.isEof = false)
    (hkind : s.stream.current.kind.isSymbol = false) :
    TracksAt s stack stack (do
      let _ ← advance
      Pure.pure n) := by
  obtain ⟨hopen, hclose⟩ := not_paren_of_kind hkind
  exact advance_bind hs heof (unclosed?_single hopen hclose) fun _ _ _ => pure n

end TracksAt

/-! ## Atoms -/

theorem number_cases (text : String) (span : Span) (s : Parsing) :
    (∃ x, number text span s = .ok x s) ∨
      number text span s = .error ⟨.invalidNumber text, span⟩ s := by
  unfold number
  cases Binary64.ofDecimal? text.toList with
  | none => exact .inr rfl
  | some x =>
    dsimp only
    by_cases hfinite : x.isFinite = true
    · rw [if_pos hfinite]
      exact .inl ⟨x, rfl⟩
    · rw [if_neg hfinite]
      exact .inr rfl

/-- A step that takes tokens and then looks at the number they spell. One that is not finite is
refused when its tokens have been passed already. -/
theorem tracksAt_number {p : Parse Node} {s' : Parsing} {ts : List Token} {text : String}
    {span : Span} {make : Binary64 → Node}
    (hrun : p s = (number text span >>= fun x => pure (make x)) s')
    (hpasses : s.stream.Passes ts s'.stream) (hts : unclosed? stack ts = some stack)
    (hspan : SyntaxError.IsAmong ⟨.invalidNumber text, span⟩ s.stream.remaining) :
    TracksAt s stack stack p := by
  rcases number_cases text span s' with ⟨x, hx⟩ | hx
  · have hok : p s = .ok (make x) s' := by
      rw [hrun]
      simp only [bind, EStateM.bind, hx]
      rfl
    exact .of_ok s' hok hpasses hts
  · have herror : p s = .error ⟨.invalidNumber text, span⟩ s' := by
      rw [hrun]
      simp only [bind, EStateM.bind, hx]
    exact .of_error herror ⟨(fun hend => by cases hend), fun _ => hspan⟩

theorem tracksAt_numeral (hs : s.stream.Ended) (hkind : s.stream.current.kind = .number)
    (text : String) (make : Binary64 → Node) :
    TracksAt s stack stack (do
      let _ ← advance
      let x ← number text s.stream.current.span
      pure (make x)) := by
  have heof : s.stream.current.isEof = false := by rw [Token.isEof, hkind]; rfl
  obtain ⟨hopen, hclose⟩ := not_paren_of_kind (t := s.stream.current) (by rw [hkind]; rfl)
  exact @tracksAt_number _ _ _ { s with stream := s.stream.advance } _ _ _ make rfl
    (hs.passes_advance heof) (unclosed?_single hopen hclose)
    ⟨[], s.stream.current, s.stream.ahead, rfl, heof, .inl rfl⟩

theorem tracksAt_negative (hs : s.stream.Ended) (hkind : s.stream.current.kind = .operator)
    (htext : s.stream.current.text = "-")
    (hnext : belongsToMinus s.stream.current (s.stream.lookAhead 1) = true) :
    TracksAt s stack stack (negative s.stream.current) := by
  have heof : s.stream.current.isEof = false := by rw [Token.isEof, hkind]; rfl
  obtain ⟨digits, rest, hahead⟩ := hs.exists_ahead heof
  have hlook : s.stream.lookAhead 1 = digits := by rw [TokenStream.lookAhead, hahead]; rfl
  rw [hlook, belongsToMinus, Bool.and_eq_true, beq_iff_eq] at hnext
  have heof' : digits.isEof = false := by rw [Token.isEof, hnext.1]; rfl
  have hpasses := hs.passes_advance heof
  have hcurrent : s.stream.advance.current = digits := by rw [TokenStream.advance, hahead]
  have hpasses' := (hs.of_passes hpasses).passes_advance (hcurrent ▸ heof')
  rw [hcurrent] at hpasses'
  have hboth : unclosed? stack ([s.stream.current] ++ [digits]) = some stack := by
    obtain ⟨hopen, hclose⟩ := not_paren_of_kind (t := digits) (by rw [hnext.1]; rfl)
    refine unclosed?_trans (unclosed?_single ?_ ?_) (unclosed?_single hopen hclose)
    · simp [Token.isOpen, Token.isSymbol, htext]
    · simp [Token.isClose, Token.isSymbol, htext]
  have hrun : negative s.stream.current s
      = (number ("-" ++ digits.text) (s.stream.current.span.merge digits.span) >>= fun x =>
        pure (.num ⟨s.stream.current.span.merge digits.span,
          s.stream.current.ascription <|> digits.ascription⟩ x ("-" ++ digits.text)))
        { s with stream := s.stream.advance.advance } := by
    rw [← hcurrent]
    rfl
  exact tracksAt_number hrun (hpasses.append hpasses') hboth
    ⟨[], s.stream.current, s.stream.ahead, rfl, heof, .inr ⟨digits, rest, hahead, heof', rfl⟩⟩

/-- **Expressions**, which may stand outside of all forms if there is one at hand. -/
theorem tracksAt_expr {list : Parse Node} (expected : String) (hs : s.stream.Ended)
    (hlist : s.stream.current.isOpen = true → TracksAt s stack stack list)
    (hinside : s.stream.current.isEof = true → ∃ opening outer, stack = opening :: outer) :
    TracksAt s stack stack (expr list expected) := by
  refine TracksAt.current_bind ?_
  split
  case h_1 hkind => exact .atom hs (by rw [Token.isEof, hkind]; rfl) (by rw [hkind]; rfl)
  case h_2 hkind => exact tracksAt_numeral hs hkind _ _
  case h_3 hkind => exact .atom hs (by rw [Token.isEof, hkind]; rfl) (by rw [hkind]; rfl)
  case h_4 hkind =>
    by_cases hopen : s.stream.current.isOpen = true
    · rw [if_pos hopen]
      exact hlist hopen
    · rw [if_neg hopen]
      refine TracksAt.following_bind ?_
      split
      · rename_i hminus
        rw [Bool.and_eq_true, beq_iff_eq] at hminus
        exact tracksAt_negative hs hkind hminus.1 hminus.2
      · exact .unexpected hs expected hinside
  case h_5 => exact .unexpected hs expected hinside

/-! ## Inside a form

Here at least one parenthesis is open. A step tracks there if it does from every stream. -/

/-- A step inside a form, all of whose tokens are paired. -/
def Tracks (opening : Token) (outer : List Token) (p : Parse α) : Prop :=
  ∀ s : Parsing, s.stream.Ended → TracksAt s (opening :: outer) (opening :: outer) p

/-- Both parsers of a level track, whatever is open. -/
structure Level.Tracked (below : Level) : Prop where
  list : ∀ (s : Parsing) (stack : List Token), s.stream.Ended → s.stream.current.isOpen = true →
    TracksAt s stack stack below.list
  bare : ∀ (s : Parsing) (stack : List Token), s.stream.Ended → s.stream.current.isOpen = true →
    TracksAt s stack stack below.bare

section Form

variable {below : Level} {form : FormHead}

theorem Tracks.bind (hp : Tracks opening outer p) (hf : ∀ a, Tracks opening outer (f a)) :
    Tracks opening outer (p >>= f) :=
  fun s hs => (hp s hs).bind fun {a s' _} hpasses => hf a s' (hs.of_passes hpasses)

theorem tracks_pure (a : α) : Tracks opening outer (pure a : Parse α) := fun _ _ => .pure a

/-- A slot for one token of a kind that is no symbol. -/
theorem tracks_oneOf (kind : TokenKind) (hkind : kind.isSymbol = false) (heof : kind ≠ .eof)
    (make : Token → Node) (expected : String) :
    Tracks opening outer (do
      let t ← current
      if t.kind == kind then do
        let _ ← advance
        pure (make t)
      else unexpected expected t) := by
  intro s hs
  refine TracksAt.current_bind ?_
  split
  · rename_i h
    rw [beq_iff_eq] at h
    exact .atom hs (by simpa [Token.isEof, h] using heof) (by rw [h]; exact hkind)
  · exact .unexpected hs expected fun _ => ⟨_, _, rfl⟩

theorem tracks_ident : Tracks opening outer ident :=
  tracks_oneOf .identifier rfl (by decide) _ _

theorem tracks_str : Tracks opening outer str :=
  tracks_oneOf .string rfl (by decide) _ _

theorem tracks_type : Tracks opening outer type := by
  intro s hs
  refine TracksAt.current_bind ?_
  split
  · rename_i h
    rw [beq_iff_eq] at h
    exact .atom hs (by rw [Token.isEof, h]; rfl) (by rw [h]; rfl)
  · split
    · exact .pure _
    · exact .unexpected hs _ fun _ => ⟨_, _, rfl⟩

theorem Level.Tracked.expr (h : below.Tracked) (expected : String) :
    Tracks opening outer (expr below.list expected) :=
  fun s hs => tracksAt_expr expected hs (h.list s _ hs) fun _ => ⟨_, _, rfl⟩

/-- Whether the form ends is told by the token at hand; the end of the input leaves it open. -/
theorem TracksAt.atFormEnd_bind {f : Bool → Parse β} (hs : s.stream.Ended)
    (hform : form.opened = opening.span.start)
    (hclose : TracksAt s (opening :: outer) after (f true))
    (hmore : s.stream.current.isEof = false → TracksAt s (opening :: outer) after (f false)) :
    TracksAt s (opening :: outer) after (atFormEnd form >>= f) := by
  have hrun : (atFormEnd form >>= f) s = EStateM.bind (atFormEnd form) f s := rfl
  unfold EStateM.bind at hrun
  by_cases hc : s.stream.current.isClose = true
  · rw [atFormEnd_of_isClose hc] at hrun
    exact ⟨fun hok => hclose.ok (hrun.symm.trans hok),
      fun herror => hclose.error (hrun.symm.trans herror)⟩
  rw [Bool.not_eq_true] at hc
  by_cases he : s.stream.current.isEof = true
  · have hend : TracksAt s (opening :: outer) after
        (fail (.missingClose form.name form.opened) s.stream.current.span : Parse β) := by
      refine .fail_end hs rfl ?_ he
      intro head opened hcause
      cases hcause
      exact hform
    rw [atFormEnd_of_isEof hc he] at hrun
    exact .of_error hrun (hend.error rfl)
  · rw [Bool.not_eq_true] at he
    rw [atFormEnd_of_other hc he] at hrun
    exact ⟨fun hok => (hmore he).ok (hrun.symm.trans hok),
      fun herror => (hmore he).error (hrun.symm.trans herror)⟩

theorem tracks_atFormEnd_bind {f : Bool → Parse β} (hform : form.opened = opening.span.start)
    (hf : ∀ atEnd, Tracks opening outer (f atEnd)) :
    Tracks opening outer (atFormEnd form >>= f) :=
  fun s hs => .atFormEnd_bind hs hform (hf true s hs) fun _ => hf false s hs

theorem tracks_items {item : Parse Node} (hform : form.opened = opening.span.start)
    (hitem : Tracks opening outer item) (room : Nat) (done : List Node) :
    Tracks opening outer (items item form room done) := by
  induction room generalizing done with
  | zero =>
    intro s hs
    refine .atFormEnd_bind hs hform (.pure _) fun heof => ?_
    exact TracksAt.current_bind (.fail_here rfl heof)
  | succ room ih =>
    refine tracks_atFormEnd_bind hform fun atEnd => ?_
    cases atEnd with
    | true => exact tracks_pure _
    | false => exact hitem.bind fun n => ih (n :: done)

theorem tracks_headed (h : below.Tracked) (name : String) :
    Tracks opening outer (headed below name) := by
  intro s hs
  refine TracksAt.current_bind (TracksAt.following_bind ?_)
  split
  · rename_i hopen
    exact h.list s _ hs (Bool.and_eq_true_iff.mp hopen).1
  · exact .unexpected hs _ fun _ => ⟨_, _, rfl⟩

theorem tracks_block (h : below.Tracked) : Tracks opening outer (block below) := by
  intro s hs
  refine TracksAt.current_bind (TracksAt.following_bind ?_)
  by_cases heof : s.stream.current.isEof = true
  · rw [if_pos heof]
    exact .fail_end hs rfl (fun _ _ hcause => by cases hcause) heof
  rw [if_neg heof]
  rw [Bool.not_eq_true] at heof
  by_cases hopen : s.stream.current.isOpen = true
  · rw [hopen, if_neg (by decide)]
    split
    · exact h.bare s _ hs hopen
    · refine (h.list s _ hs hopen).bind fun {n s' _} _ => ?_
      split
      · exact .pure _
      · exact .pure _
  · rw [Bool.not_eq_true] at hopen
    rw [hopen]
    exact .fail_here rfl heof

/-- **The slots of a form**, whatever the recipe: all their parentheses are paired. -/
theorem tracks_slots (h : below.Tracked) (hform : form.opened = opening.span.start)
    (recipe : Recipe) : Tracks opening outer (slots below form recipe) := by
  have hrest : Tracks opening outer
      (items (expr below.list "expression or ')'") form Limits.listChildren []) :=
    tracks_items hform (h.expr _) _ _
  cases recipe with
  | doc => exact tracks_str.bind fun _ => tracks_pure _
  | declare | assign => exact tracks_ident.bind fun _ => (h.expr _).bind fun _ => tracks_pure _
  | increment | param => exact tracks_ident.bind fun _ => tracks_pure _
  | result | unary => exact (h.expr _).bind fun _ => tracks_pure _
  | cast => exact (h.expr _).bind fun _ => tracks_type.bind fun _ => tracks_pure _
  | choice =>
    exact (h.expr _).bind fun _ => (h.expr _).bind fun _ => (h.expr _).bind fun _ => tracks_pure _
  | member => exact (h.expr _).bind fun _ => tracks_ident.bind fun _ => tracks_pure _
  | doWhile => exact (tracks_block h).bind fun _ => (h.expr _).bind fun _ => tracks_pure _
  | binary => exact (h.expr _).bind fun _ => (h.expr _).bind fun _ => tracks_pure _
  | sign =>
    refine (h.expr _).bind fun _ => tracks_atFormEnd_bind hform fun atEnd => ?_
    cases atEnd with
    | true => exact tracks_pure _
    | false => exact (h.expr _).bind fun _ => tracks_pure _
  | branch =>
    refine (h.expr _).bind fun _ => (h.expr _).bind fun _ =>
      tracks_atFormEnd_bind hform fun atEnd => ?_
    cases atEnd with
    | true => exact tracks_pure _
    | false => exact (h.expr _).bind fun _ => tracks_pure _
  | call => exact (h.expr _).bind fun _ => hrest.bind fun _ => tracks_pure _
  | block => exact hrest.bind fun _ => tracks_pure _
  | function => exact (tracks_headed h _).bind fun _ => hrest.bind fun _ => tracks_pure _
  | params => exact (tracks_items hform (tracks_headed h _) _ _).bind fun _ => tracks_pure _
  | forLess =>
    exact tracks_ident.bind fun _ => (h.expr _).bind fun _ => (h.expr _).bind fun _ =>
      hrest.bind fun _ => tracks_pure _

/-- The closing parenthesis leads out of the form. -/
theorem tracksAt_close (hs : s.stream.Ended) (hform : form.opened = opening.span.start) :
    TracksAt s (opening :: outer) outer (close form) := by
  refine TracksAt.current_bind ?_
  by_cases hclose : s.stream.current.isClose = true
  · rw [if_pos hclose]
    exact .of_ok { s with stream := s.stream.advance } rfl
      (hs.passes_advance (isEof_of_isSymbol hclose)) (unclosed?_close hclose opening)
  rw [if_neg hclose]
  by_cases heof : s.stream.current.isEof = true
  · rw [if_pos heof]
    refine .fail_end hs rfl ?_ heof
    intro head opened hcause
    cases hcause
    exact hform
  · rw [if_neg heof]
    exact .unexpected hs _ fun h => absurd h heof

/-! ## Forms -/

/-- A head takes no parenthesis, and one without a recipe is a single token. -/
theorem tracksAt_head_bind {f : String × Span × Option String → Parse β} (hs : s.stream.Ended)
    (heof : s.stream.current.isEof = false)
    (h : ∀ {v s' ts}, s.stream.Passes ts s'.stream → (recipe? v.1).isSome = true →
      TracksAt s' stack after (f v))
    (hnone : ∀ {v s'}, v.2.1 = s.stream.current.span → recipe? v.1 = none →
      ∃ s'', f v s' = .error ⟨.unknownHead v.1, v.2.1⟩ s'') :
    TracksAt s stack after (head >>= f) := by
  have hhere : ∀ shown, SyntaxError.Justified stack s.stream.remaining
      ⟨.unknownHead shown, s.stream.current.span⟩ := fun shown =>
    ⟨(fun hend => by cases hend), fun _ =>
      ⟨[], s.stream.current, s.stream.ahead, rfl, heof, .inl rfl⟩⟩
  have hrun : (head >>= f) s = EStateM.bind head f s := rfl
  unfold EStateM.bind at hrun
  by_cases hjoinable : Joinable s.stream.current
  · obtain ⟨n, v, s', hhead, hpasses, hlength, hjoin, -⟩ := head_ok hs hjoinable
    rw [hhead] at hrun
    dsimp only at hrun
    have hplain : unclosed? stack (s.stream.remaining.take n) = some stack := by
      have hword := hlength.joined.joinable
      generalize s.stream.remaining.take n = run at hword
      induction run with
      | nil => rfl
      | cons t run ih =>
        obtain ⟨-, hopen, hclose⟩ := hword t List.mem_cons_self
        rw [unclosed?_plain hopen hclose]
        exact ih fun u hu => hword u (List.mem_cons_of_mem _ hu)
    by_cases hsome : (recipe? v.1).isSome = true
    · have hnext : TracksAt s' stack after (f v) := h hpasses hsome
      constructor
      · intro b s'' hok
        obtain ⟨us, hpasses', hus⟩ := hnext.ok (hrun.symm.trans hok)
        exact ⟨_, hpasses.append hpasses', unclosed?_trans hplain hus⟩
      · intro e s'' herror
        rw [hpasses.remaining]
        exact (hnext.error (hrun.symm.trans herror)).behind hplain
    · -- Several tokens make a head only if they have a recipe together.
      have hone : n = 1 := by
        have hpos := hlength.pos
        have hnamed := hlength.named
        rw [← (oneWord_of_join? hjoin).2] at hnamed
        by_cases hlt : 1 < n
        · exact absurd (hnamed hlt) hsome
        · omega
      subst hone
      have hspan : s.stream.current.span = v.2.1 := by
        have hsingle : join? [s.stream.current] = some (v.1, v.2.1) := hjoin
        rw [join?, if_pos (isJoinable_iff.mpr hjoinable)] at hsingle
        exact congrArg Prod.snd (Option.some.inj hsingle)
      obtain ⟨s'', hfail⟩ := @hnone v s' hspan.symm (Option.not_isSome_iff_eq_none.mp hsome)
      refine .of_error (hrun.trans hfail) ?_
      rw [← hspan]
      exact hhere v.1
  · have hnot : isJoinable s.stream.current = false := by
      rw [← Bool.not_eq_true, isJoinable_iff]
      exact hjoinable
    have hfail : head s = .error ⟨.unknownHead (if s.stream.current.kind == .string then
        s!"'{s.stream.current.text}'" else s.stream.current.text), s.stream.current.span⟩ s := by
      simp only [head, bind, EStateM.bind, current, hnot]
      rfl
    rw [hfail] at hrun
    exact .of_error hrun (hhere _)

/-- **A form in parentheses.** What is open behind it is what was open in front of it. -/
theorem tracksAt_listBody (h : below.Tracked) (hs : s.stream.Ended)
    (hopen : s.stream.current.isOpen = true) : TracksAt s stack stack (listBody below) := by
  have heof := isEof_of_isSymbol hopen
  by_cases hempty : s.stream.advance.current.isClose = true
  · -- An empty pair is refused when both parentheses have been passed.
    obtain ⟨next, rest, hahead⟩ := hs.exists_ahead heof
    have hnext : s.stream.advance.current = next := by rw [TokenStream.advance, hahead]
    have hrun : listBody below s = .error ⟨.emptyList, s.stream.current.span.merge next.span⟩
        { s with stream := s.stream.advance.advance } := by
      rw [← hnext]
      simp only [listBody, bind, EStateM.bind, advance, current, hempty]
      rfl
    refine .of_error hrun ⟨?_, fun _ => ?_⟩
    · intro hend
      cases hend
    rw [hnext] at hempty
    exact ⟨[], s.stream.current, s.stream.ahead, rfl, heof,
      .inr ⟨next, rest, hahead, isEof_of_isSymbol hempty, rfl⟩⟩
  · refine .advance_bind hs heof (unclosed?_open hopen) fun s' hs' hpasses => ?_
    have hnext : s'.stream.current = s.stream.advance.current := by
      have hsame := hpasses.remaining.symm.trans (hs.passes_advance heof).remaining
      exact (List.cons.inj (List.append_cancel_left hsame)).1
    refine TracksAt.current_bind ?_
    rw [hnext, if_neg hempty]
    rw [← hnext] at hempty ⊢
    by_cases hend : s'.stream.current.isEof = true
    · rw [if_pos hend]
      refine .fail_end hs' rfl ?_ hend
      intro head opened hcause
      cases hcause
      rfl
    rw [if_neg hend]
    refine tracksAt_head_bind hs' (Bool.not_eq_true _ ▸ hend) ?_ ?_
    · rintro ⟨name, span, type⟩ s'' ts hpasses' hsome
      obtain ⟨recipe, hrecipe⟩ := Option.isSome_iff_exists.mp hsome
      dsimp only at hrecipe ⊢
      rw [hrecipe]
      have hs'' := hs'.of_passes hpasses'
      have hslots : TracksAt s'' (s.stream.current :: stack) (s.stream.current :: stack)
          (inContext name (slots below ⟨name, s.stream.current.span.start⟩ recipe)) :=
        .inContext name fun s₁ hstream => tracks_slots h rfl recipe s₁ (hstream ▸ hs'')
      refine hslots.bind fun {make s₂ us} hus => ?_
      exact (tracksAt_close (hs''.of_passes hus) rfl).bind fun _ => .pure _
    · rintro ⟨name, span, type⟩ s'' hspan hnone
      dsimp only at hnone ⊢
      rw [hnone]
      exact ⟨_, rfl⟩

theorem tracksAt_bareBody (h : below.Tracked) (hs : s.stream.Ended)
    (hopen : s.stream.current.isOpen = true) : TracksAt s stack stack (bareBody below) := by
  refine .advance_bind hs (isEof_of_isSymbol hopen) (unclosed?_open hopen) fun s' hs' _ => ?_
  refine TracksAt.bind (tracks_items rfl (h.expr _) _ _ s' hs') fun {body s'' ts} hpasses => ?_
  exact (tracksAt_close (hs'.of_passes hpasses) rfl).bind fun _ => .pure _

/-- Every level tracks: the induction is on the room that is left for nesting. -/
theorem tracked_level (room : Nat) : (level room).Tracked := by
  induction room with
  | zero =>
    have hdeep : ∀ (s : Parsing) (stack : List Token), s.stream.Ended →
        s.stream.current.isOpen = true → TracksAt s stack stack tooDeep :=
      fun s stack _ hopen => TracksAt.current_bind (.fail_here rfl (isEof_of_isSymbol hopen))
    exact ⟨hdeep, hdeep⟩
  | succ room ih =>
    constructor
    · intro s stack hs hopen
      refine TracksAt.nested fun s' hstream => ?_
      exact tracksAt_listBody ih (by rwa [hstream]) (by rwa [hstream])
    · intro s stack hs hopen
      refine TracksAt.nested fun s' hstream => ?_
      exact tracksAt_bareBody ih (by rwa [hstream]) (by rwa [hstream])

end Form

/-! ## Programs -/

theorem tracksAt_topForm (room : Nat) (hs : s.stream.Ended)
    (heof : s.stream.current.isEof = false) :
    TracksAt s [] [] (topForm (level room)) := by
  have hlevel := tracked_level room
  refine TracksAt.current_bind (TracksAt.get_bind ?_)
  split
  · refine tracksAt_expr _ hs (hlevel.list s [] hs) fun hend => ?_
    rw [heof] at hend
    cases hend
  · by_cases hopen : s.stream.current.isOpen = true
    · rw [if_pos hopen]
      exact hlevel.list s [] hs hopen
    · rw [if_neg hopen]
      exact .fail_here rfl heof

theorem tracksAt_forms (room count : Nat) (done : List Node) (hs : s.stream.Ended) :
    TracksAt s [] [] (forms (level room) count done) := by
  induction count generalizing s done with
  | zero => exact .pure _
  | succ count ih =>
    refine TracksAt.current_bind ?_
    by_cases heof : s.stream.current.isEof = true
    · rw [if_pos heof]
      exact .pure _
    · rw [if_neg heof]
      refine TracksAt.bind (tracksAt_topForm room hs (Bool.not_eq_true _ ▸ heof)) ?_
      exact fun hpasses => ih _ (hs.of_passes hpasses)

/-- **An error of a parse** is one that the tokens call for. -/
theorem justified_of_parseProgram {stream : TokenStream} (hs : stream.Ended) {e : SyntaxError}
    {s : Parsing} (h : parseProgram stream = .error e s) : e.Justified [] stream.remaining := by
  have hprogram : TracksAt { stream } [] [] program := by
    refine TracksAt.current_bind (TracksAt.get_bind ?_)
    refine TracksAt.bind (tracksAt_forms _ _ _ hs) fun _ => ?_
    exact TracksAt.current_bind (.pure _)
  exact hprogram.error h

end Parse

/-- **Errors at the end of the input blame the innermost open form.** Let a stream have an end of
input as its last token and nowhere else, and let its parse fail; `passed` are the tokens of the
stream in front of those that are parsed. If the error says that the input ended, then the
parentheses of the stream are not balanced, the error is at the end of input, and if it names the
opening parenthesis of a form, then that is the last one of the stream that is never closed. Any
other error is about a token that is no end of input, or about two such tokens in a row. -/
theorem end_of_input_blames_innermost {stream : TokenStream} (hended : stream.Ended)
    {e : SyntaxError} {s : Parsing} (h : parseProgram stream = .error e s) (passed : List Token) :
    (e.cause.isAtEnd = true →
      parensBalanced 0 (passed ++ stream.remaining) = false ∧
      (∃ last, stream.remaining.getLast? = some last ∧ last.isEof = true ∧ e.span = last.span) ∧
      ∀ head opened, e.cause = .missingClose head opened →
        ∃ t, IsLastUnclosed (passed ++ stream.remaining) t ∧ opened = t.span.start) ∧
    (e.cause.isAtEnd = false → e.IsAmong stream.remaining) := by
  have hjustified := Parse.justified_of_parseProgram hended h
  refine ⟨fun hcause => ?_, hjustified.elsewhere⟩
  obtain ⟨body, last, t, outer, hsplit, hlast, hspan, hbody, hopened⟩ := hjustified.atEnd hcause
  -- The end of input is no parenthesis, so what is open in front of it is open at the end.
  have hplain : ∀ stack, unclosed? stack [last] = some stack := by
    have hkind : last.kind = .eof := by simpa [Token.isEof] using hlast
    obtain ⟨hopen, hclose⟩ := Grammar.not_paren_of_kind (t := last) (by rw [hkind]; rfl)
    exact fun stack => unclosed?_single hopen hclose
  have hall := unclosed?_trans hbody (hplain _)
  rw [hsplit]
  refine ⟨?_, ⟨last, List.getLast?_concat, hlast, hspan⟩, ?_⟩
  · rw [← Bool.not_eq_true, show (0 : Nat) = ([] : List Token).length from rfl, parensBalanced_iff,
      unclosed?_append]
    intro hbalanced
    obtain ⟨stack, -, hrest⟩ := Option.bind_eq_some_iff.mp hbalanced
    have houter := unclosed?_outer hall stack
    rw [List.nil_append, hrest] at houter
    cases houter
  · intro head opened hmissing
    refine ⟨t, ?_, hopened head opened hmissing⟩
    rcases exists_of_unclosed? hall with ⟨before, after, htokens, ht, hafter⟩ | ⟨inner, hnil, -⟩
    · rw [htokens, ← List.append_assoc]
      exact isLastUnclosed_of_balanced ht hafter
    · cases inner <;> cases hnil

/-- The error that a parse ends with. -/
def syntaxError? (stream : TokenStream) : Option SyntaxError :=
  match parseProgram stream with
  | .ok _ _ => none
  | .error e _ => some e

theorem exists_of_syntaxError? {stream : TokenStream} {e : SyntaxError}
    (h : syntaxError? stream = some e) : ∃ s, parseProgram stream = .error e s := by
  unfold syntaxError? at h
  cases hrun : parseProgram stream with
  | ok m s =>
    rw [hrun] at h
    cases h
  | error e' s =>
    rw [hrun] at h
    cases h
    exact ⟨s, rfl⟩

/-- The tokens of `(do (call f (call g)`. The innermost form is closed, the one around it is not. -/
def unclosedTokens : List Token :=
  [tokenAt .operator "(" 0 1, tokenAt .keyword "do" 1 3, tokenAt .operator "(" 4 5,
   tokenAt .keyword "call" 5 9, tokenAt .identifier "f" 10 11, tokenAt .operator "(" 12 13,
   tokenAt .keyword "call" 13 17, tokenAt .identifier "g" 18 19, tokenAt .operator ")" 19 20]

/-- It is the call of `f` that lacks its parenthesis, and not the block around it. -/
theorem unclosedTokens_blame :
    syntaxError? (streamOf unclosedTokens)
      = some ⟨.missingClose "call" ⟨4, 1, 5⟩, .point ⟨20, 1, 21⟩⟩ ∧
    parensBalanced 0 (streamOf unclosedTokens).remaining = false ∧
    ∃ t, IsLastUnclosed (streamOf unclosedTokens).remaining t ∧ t.span.start = ⟨4, 1, 5⟩ := by
  have hended : (streamOf unclosedTokens).Ended :=
    @TokenStream.ended_of_remaining _ unclosedTokens (.closing (.point ⟨20, 1, 21⟩)) rfl
      (by decide) rfl
  have herror : syntaxError? (streamOf unclosedTokens)
      = some ⟨.missingClose "call" ⟨4, 1, 5⟩, .point ⟨20, 1, 21⟩⟩ := by decide +kernel
  obtain ⟨s, hrun⟩ := exists_of_syntaxError? herror
  obtain ⟨hatEnd, -⟩ := end_of_input_blames_innermost hended hrun []
  obtain ⟨hbalanced, -, hopened⟩ := hatEnd rfl
  obtain ⟨t, hlast, ht⟩ := hopened _ _ rfl
  exact ⟨herror, hbalanced, t, hlast, ht.symm⟩

end FormScript
