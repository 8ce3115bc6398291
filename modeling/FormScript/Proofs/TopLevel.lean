import FormScript.Proofs.Counters
import FormScript.Proofs.Pragmas

/-!
# Tokens outside of forms

The parser asks for the dialect at the top level and nowhere else. So an error about the dialect is
about a token outside of forms that opens none where only forms may stand (`TokenStream.Misplaced`).
It is about the first such token, and it is there whenever the parser comes so far, since no form
runs past a misplaced token: up to its last token a form has a parenthesis open
(`Form.unclosed_of_append`), and the two tokens of a negative number, which touch, are under the
same dialect.
-/

namespace FormScript

/-! ## Forms and the parentheses they leave open -/

namespace Grammar

variable {opens : Token → Bool} {ts us before more : List Token} {t : Token} {n : Node}

/-- How many parentheses are open behind some tokens, with so many open in front of them. -/
def leftOpen (depth : Nat) : List Token → Nat
  | [] => depth
  | t :: ts =>
    leftOpen (if t.isOpen then depth + 1 else if t.isClose then depth - 1 else depth) ts

theorem deepest_append (depth : Nat) (ts us : List Token) :
    deepest depth (ts ++ us) = max (deepest depth ts) (deepest (leftOpen depth ts) us) := by
  induction ts generalizing depth with
  | nil =>
    have := le_deepest depth us
    simp only [List.nil_append, deepest, leftOpen]
    omega
  | cons t ts ih =>
    rw [List.cons_append, deepest, deepest, leftOpen, ih]
    omega

theorem deepest_replicate (h : t.isOpen = true) (depth k : Nat) :
    deepest depth (List.replicate k t) = depth + k := by
  induction k generalizing depth with
  | zero => rfl
  | succ k ih =>
    rw [List.replicate_succ, deepest, if_pos h, ih]
    omega

/-- Behind balanced tokens as many parentheses are open as in front. Otherwise enough opening
parentheses behind them would show the difference. -/
theorem Balanced.leftOpen_eq (h : Balanced ts) (depth : Nat) : leftOpen depth ts = depth := by
  have hopen : (tokenAt .operator "(" 0 1).isOpen = true := by decide
  have hdeep := h depth
    (List.replicate (deepest depth ts + nesting ts + 1) (tokenAt .operator "(" 0 1))
  rw [deepest_append, deepest_replicate hopen, deepest_replicate hopen] at hdeep
  omega

theorem leftOpen_of_unclosed? {stack after : List Token} (h : unclosed? stack ts = some after) :
    leftOpen stack.length ts = after.length := by
  induction stack, ts using unclosed_induction with
  | nil stack =>
    cases h
    rfl
  | opening stack t ts hopen ih =>
    rw [unclosed?_open hopen] at h
    rw [leftOpen, if_pos hopen]
    exact ih h
  | closing opening outer t ts hclose ih =>
    rw [unclosed?_close hclose] at h
    rw [leftOpen, isOpen_of_isClose hclose, if_neg Bool.false_ne_true, if_pos hclose]
    exact ih h
  | unmatched t ts hclose =>
    rw [unclosed?_close_nil hclose] at h
    cases h
  | plain stack t ts hopen hclose ih =>
    rw [unclosed?_plain hopen hclose] at h
    rw [leftOpen, hopen, hclose, if_neg Bool.false_ne_true, if_neg Bool.false_ne_true]
    exact ih h

/-- If a parenthesis is closed that was never opened, then one more in front makes no difference. -/
theorem leftOpen_succ_of_unclosed? {stack : List Token} (h : unclosed? stack ts = none) :
    leftOpen (stack.length + 1) ts = leftOpen stack.length ts := by
  induction stack, ts using unclosed_induction with
  | nil stack => cases h
  | opening stack t ts hopen ih =>
    rw [unclosed?_open hopen] at h
    rw [leftOpen, leftOpen, if_pos hopen, if_pos hopen]
    exact ih h
  | closing opening outer t ts hclose ih =>
    rw [unclosed?_close hclose] at h
    rw [leftOpen, leftOpen, isOpen_of_isClose hclose, if_neg Bool.false_ne_true,
      if_neg Bool.false_ne_true, if_pos hclose, if_pos hclose]
    exact ih h
  | unmatched t ts hclose =>
    rw [leftOpen, leftOpen, isOpen_of_isClose hclose, if_neg Bool.false_ne_true,
      if_neg Bool.false_ne_true, if_pos hclose, if_pos hclose]
    rfl
  | plain stack t ts hopen hclose ih =>
    rw [unclosed?_plain hopen hclose] at h
    rw [leftOpen, leftOpen, hopen, hclose, if_neg Bool.false_ne_true, if_neg Bool.false_ne_true,
      if_neg Bool.false_ne_true, if_neg Bool.false_ne_true]
    exact ih h

/-- Balanced tokens close what they open, and nothing else. -/
theorem Balanced.unclosed?_eq (h : Balanced ts) : unclosed? [] ts = some [] := by
  cases hstack : unclosed? [] ts with
  | none =>
    have := leftOpen_succ_of_unclosed? hstack
    rw [h.leftOpen_eq, h.leftOpen_eq] at this
    cases this
  | some after =>
    have := leftOpen_of_unclosed? hstack
    rw [h.leftOpen_eq] at this
    rw [List.eq_nil_of_length_eq_zero this.symm]

/-- **Up to its last token a form has a parenthesis open.** -/
theorem Form.unclosed_of_append (h : Form opens (before ++ t :: more) n) (hne : before ≠ []) :
    unclosed? [] before ≠ some [] := by
  generalize hts : before ++ t :: more = all at h
  obtain ⟨opened, head, slots, -, -⟩ := h
  rename_i opening closing run us _ _
  obtain ⟨u, inner, rfl⟩ := List.exists_cons_of_ne_nil hne
  have hinner : inner ++ t :: more = run ++ us ++ [closing] := (List.cons.inj hts).2
  obtain rfl : u = opening := (List.cons.inj hts).1
  -- What stands between the parentheses is balanced, and so closes nothing outside of it.
  have hclosed := (head.joined.balanced.1.append slots.balanced).unclosed?_eq
  have hle : inner.length ≤ (run ++ us).length := by
    have := congrArg List.length hinner
    simp only [List.length_append, List.length_cons, List.length_nil] at this ⊢
    omega
  obtain ⟨rest, hrest⟩ :=
    List.prefix_of_prefix_length_le ⟨t :: more, hinner⟩ (List.prefix_append _ [closing]) hle
  rw [← hrest, unclosed?_append] at hclosed
  obtain ⟨mid, hmid, -⟩ := Option.bind_eq_some_iff.mp hclosed
  have houter := unclosed?_outer hmid [u]
  rw [unclosed?_open opened]
  rw [List.nil_append] at houter
  rw [houter]
  intro hnil
  cases mid <;> cases hnil

/-- An expression goes on behind balanced tokens only if these are a minus sign and the number
follows. -/
theorem Expr.minus_of_append (h : Expr opens (before ++ t :: more) n) (hne : before ≠ [])
    (hclosed : unclosed? [] before = some []) :
    ∃ minus, before = [minus] ∧ minus.kind = .operator ∧ minus.isOpen = false ∧
      t.kind = .number ∧ Adjacent minus t := by
  obtain ⟨u, us, rfl⟩ := List.exists_cons_of_ne_nil hne
  generalize hts : u :: us ++ t :: more = all at h
  have hsingle : ∀ v, u :: us ++ t :: more ≠ [v] := by
    intro v hv
    have := congrArg List.length hv
    simp only [List.length_append, List.length_cons, List.length_nil] at this
    omega
  cases h with
  | str kind => exact absurd hts (hsingle _)
  | num kind value => exact absurd hts (hsingle _)
  | ident kind => exact absurd hts (hsingle _)
  | @negative minus digits _ sign text kind adjacent value =>
    have hrest : us ++ t :: more = [digits] := (List.cons.inj hts).2
    obtain rfl : u = minus := (List.cons.inj hts).1
    cases us with
    | nil =>
      obtain rfl : t = digits := (List.cons.inj hrest).1
      refine ⟨u, rfl, sign, ?_, kind, adjacent⟩
      simp [Token.isOpen, Token.isSymbol, text]
    | cons v vs =>
      have := congrArg List.length hrest
      simp only [List.length_append, List.length_cons, List.length_nil] at this
      omega
  | form kind form =>
    rw [← hts] at form
    exact absurd hclosed (form.unclosed_of_append hne)

end Grammar

/-! ## Tokens outside of forms -/

namespace TokenStream

variable {s s' : TokenStream} {ts before : List Token} {t : Token}

/-- A token that is not to be where it is: it stands outside of all forms, opens none, and the
dialect that is in force there asks for forms. -/
structure Misplaced (stream : TokenStream) (before : List Token) (t : Token) : Prop where
  there : before ++ [t] <+: stream.remaining
  outside : parensBalanced 0 before = true
  atom : t.isOpen = false
  inner : t.isEof = false
  plain : stream.dialectAt (stream.position + before.length) = .plain

/-- What the streams of a scan have in common as far as the dialect is concerned: the end of input
comes last, operators open forms, and a number has the dialect of the sign that it touches. -/
structure Orderly (stream : TokenStream) : Prop where
  ended : stream.Ended
  operators : ∀ t ∈ stream.remaining, t.isOpen = true → t.kind = .operator
  steady : ∀ (before : List Token) (t u : Token) (after : List Token),
    stream.remaining = before ++ t :: u :: after → t.kind = .operator → u.kind = .number →
    Grammar.Adjacent t u →
    stream.dialectAt (stream.position + before.length + 1)
      = stream.dialectAt (stream.position + before.length)

theorem Passes.dialectAt (h : s.Passes ts s') (i : Nat) : s'.dialectAt i = s.dialectAt i := by
  unfold TokenStream.dialectAt
  rw [h.switches]

theorem Orderly.of_passes (hs : s.Orderly) (h : s.Passes ts s') : s'.Orderly where
  ended := hs.ended.of_passes h
  operators := by
    intro t ht
    refine hs.operators t ?_
    rw [h.remaining]
    exact List.mem_append_right _ ht
  steady := by
    intro before t u after hsplit hoperator hnumber hadjacent
    have hsame := hs.steady (ts ++ before) t u after
      (by rw [h.remaining, hsplit, List.append_assoc]) hoperator hnumber hadjacent
    rw [List.length_append, ← Nat.add_assoc, ← h.position] at hsame
    rw [h.dialectAt, h.dialectAt]
    exact hsame

/-- Behind closed forms the same tokens are misplaced. -/
theorem Passes.misplaced_iff (h : s.Passes ts s') (hts : unclosed? [] ts = some []) :
    s.Misplaced (ts ++ before) t ↔ s'.Misplaced before t := by
  have hthere : ts ++ before ++ [t] <+: s.remaining ↔ before ++ [t] <+: s'.remaining := by
    rw [h.remaining, List.append_assoc, List.prefix_append_right_inj]
  have houtside : parensBalanced 0 (ts ++ before) = true ↔ parensBalanced 0 before = true := by
    rw [show (0 : Nat) = ([] : List Token).length from rfl, parensBalanced_iff, parensBalanced_iff,
      unclosed?_append, hts]
    rfl
  have hplain : s.dialectAt (s.position + (ts ++ before).length) = .plain ↔
      s'.dialectAt (s'.position + before.length) = .plain := by
    rw [h.dialectAt, h.position, List.length_append, Nat.add_assoc]
  constructor
  · rintro ⟨there, outside, atom, inner, plain⟩
    exact ⟨hthere.mp there, houtside.mp outside, atom, inner, hplain.mp plain⟩
  · rintro ⟨there, outside, atom, inner, plain⟩
    exact ⟨hthere.mpr there, houtside.mpr outside, atom, inner, hplain.mpr plain⟩

/-- Unless it is misplaced, the token at hand opens a form or is under the dialect for atoms. -/
theorem allowed_of_not_misplaced (heof : s.current.isEof = false)
    (h : ¬ s.Misplaced [] s.current) : s.current.isOpen = true ∨ s.dialect = .sexpr := by
  by_cases hopen : s.current.isOpen = true
  · exact .inl hopen
  · refine .inr ?_
    cases hdialect : s.dialect with
    | sexpr => rfl
    | plain =>
      exact absurd ⟨⟨s.ahead, rfl⟩, rfl, Bool.not_eq_true _ ▸ hopen, heof, hdialect⟩ h

theorem isOpen_of_allowed (h : s.current.isOpen = true ∨ s.dialect = .sexpr)
    (hplain : s.dialect = .plain) : s.current.isOpen = true := by
  refine h.resolve_right fun hsexpr => ?_
  rw [hplain] at hsexpr
  cases hsexpr

/-- Of the tokens that are misplaced, one comes first. -/
theorem exists_first_misplaced (h : s.Misplaced before t) :
    ∃ before t, s.Misplaced before t ∧
      ∀ earlier u, earlier.length < before.length → ¬ s.Misplaced earlier u := by
  induction hlength : before.length using Nat.strongRecOn generalizing before t with
  | ind n ih =>
    by_cases hearlier : ∃ earlier u, earlier.length < n ∧ s.Misplaced earlier u
    · obtain ⟨earlier, u, hlt, hu⟩ := hearlier
      exact ih earlier.length hlt hu rfl
    · refine ⟨before, t, h, fun earlier u hlt hu => hearlier ⟨earlier, u, ?_, hu⟩⟩
      rwa [hlength] at hlt

end TokenStream

namespace Parse

open Grammar

variable {α : Type} {room count : Nat} {s s' : Parsing} {e : SyntaxError} {n : Node}
  {ts us before : List Token} {t : Token}

/-- A step that does not fail for the dialect. -/
def IgnoresDialect (p : Parse α) : Prop :=
  ∀ s e s', p s = .error e s' → ∀ found, e.cause ≠ .unsupportedDialect found

theorem IgnoresDialect.of_ok {p : Parse α} (h : ∀ s, ∃ a s', p s = .ok a s') :
    IgnoresDialect p := by
  intro s e s' hrun
  obtain ⟨a, s'', hok⟩ := h s
  rw [hok] at hrun
  cases hrun

theorem IgnoresDialect.around {p : Parse α} {enter leave : Parsing → Parsing}
    (h : IgnoresDialect p) : IgnoresDialect (around enter leave p) := by
  intro s e t hrun
  obtain ⟨s', hinner, -⟩ := around_error.mp hrun
  exact h _ _ _ hinner

theorem congruent_ignoresDialect : Congruent fun p _ => IgnoresDialect p where
  pure _ := .of_ok fun s => ⟨_, s, rfl⟩
  bind hp hf := by
    intro s e s'' h
    rcases bind_error h with hfirst | ⟨a, s', -, hmore⟩
    · exact hp _ _ _ hfirst
    · exact hf a _ _ _ hmore
  get := .of_ok fun s => ⟨_, s, rfl⟩
  current := .of_ok fun s => ⟨_, s, rfl⟩
  following := .of_ok fun s => ⟨_, s, rfl⟩
  advance := .of_ok fun s => ⟨_, _, rfl⟩
  record _ := .of_ok fun s => ⟨_, _, rfl⟩
  fail span hcause := by
    intro s e s' h
    cases h
    exact hcause
  inContext name h := by
    rw [inContext_eq_around]
    exact h.around

/-- **Inside of forms the dialect does not matter.** -/
theorem ignoresDialect_level (room : Nat) :
    IgnoresDialect (level room).list ∧ IgnoresDialect (level room).bare := by
  induction room with
  | zero =>
    have hdeep : IgnoresDialect tooDeep := by
      intro s e s' h
      cases h
      simp
    exact ⟨hdeep, hdeep⟩
  | succ room ih =>
    have h := congruent_ignoresDialect
    exact ⟨(h.listBody _ (level room) ih.1 ih.2).around, (h.bareBody _ (level room) ih.1).around⟩

theorem topForm_of_sexpr (top : Level) (h : s.stream.dialect = .sexpr) :
    topForm top s = expr top.list "top-level form" s := by
  unfold topForm
  rw [bind_of_ok (rfl : current s = .ok s.stream.current s),
    bind_of_ok (rfl : (get : Parse Parsing) s = .ok s s), h]

theorem topForm_of_plain (top : Level) (h : s.stream.dialect = .plain) :
    topForm top s = if s.stream.current.isOpen then top.list s
      else .error ⟨.unsupportedDialect s.stream.current.describe, s.stream.current.span⟩ s := by
  unfold topForm
  rw [bind_of_ok (rfl : current s = .ok s.stream.current s),
    bind_of_ok (rfl : (get : Parse Parsing) s = .ok s s), h]
  dsimp only
  split
  · rfl
  · rfl

theorem topForm_misplaced (h : s.stream.Misplaced [] s.stream.current) :
    topForm (level room) s
      = .error ⟨.unsupportedDialect s.stream.current.describe, s.stream.current.span⟩ s := by
  rw [topForm_of_plain _ h.plain, h.atom, if_neg Bool.false_ne_true]

/-- At the top level it does not matter either for a token that is not misplaced. -/
theorem topForm_error (hallowed : s.stream.current.isOpen = true ∨ s.stream.dialect = .sexpr)
    (h : topForm (level room) s = .error e s') : ∀ found, e.cause ≠ .unsupportedDialect found := by
  have hlist := (ignoresDialect_level room).1
  cases hdialect : s.stream.dialect with
  | sexpr =>
    rw [topForm_of_sexpr _ hdialect] at h
    exact @Congruent.expr _ congruent_ignoresDialect (level room).list (level room).list hlist
      "top-level form" _ _ _ h
  | plain =>
    have hopen := TokenStream.isOpen_of_allowed hallowed hdialect
    rw [topForm_of_plain _ hdialect, if_pos hopen] at h
    exact hlist _ _ _ h

/-- Where no token is misplaced, both dialects take expressions. -/
theorem recognizesAt_topForm_allowed (room : Nat) (hs : s.stream.Orderly)
    (hallowed : s.stream.current.isOpen = true ∨ s.stream.dialect = .sexpr) :
    RecognizesAt s (topForm (level room)) (exprLang.Within room) := by
  refine (recognizesAt_topLang room hs.ended).congr fun ts rest n _ hsplit => ?_
  refine and_congr_left fun _ => ?_
  cases hdialect : s.stream.dialect with
  | sexpr => exact Iff.rfl
  | plain =>
    have hopen := TokenStream.isOpen_of_allowed hallowed hdialect
    have hoperator := hs.operators _ List.mem_cons_self hopen
    cases ts with
    | nil =>
      refine iff_of_false (fun hform => ?_) not_expr_nil
      obtain ⟨opening, t, us, hnil, -⟩ := Form.first hform
      cases hnil
    | cons t us =>
      obtain rfl := eq_current hsplit rfl
      exact (expr_open hoperator hopen).symm

/-- Tokens that are forms, one behind the other, and not nested too deep. -/
def FormsWithin (room : Nat) (ts : List Token) : Prop :=
  (∃ ns, Items Token.isOpen none ts ns) ∧ nesting ts ≤ room

/-- A form that is parsed is the first of the forms that stand there. -/
theorem formsWithin_append_iff {rest : List Token}
    (htop : RecognizesAt s (topForm (level room)) (exprLang.Within room))
    (hform : topForm (level room) s = .ok n s') (hpasses : s.stream.Passes ts s'.stream)
    (hsplit : s.stream.remaining = ts ++ us ++ rest) (hrest : rest ≠ []) :
    FormsWithin room (ts ++ us) ↔ FormsWithin room us := by
  obtain ⟨ts', hpasses', hn, hroom⟩ := htop.sound hform
  obtain rfl := hpasses.unique hpasses'
  have hnesting := (Expr.balanced hn).nesting_append us
  constructor
  · rintro ⟨⟨ns, hitems⟩, hdeep⟩
    refine ⟨?_, by omega⟩
    generalize htokens : ts' ++ us = all at hitems
    cases hitems with
    | nil =>
      rw [(List.append_eq_nil_iff.mp htokens).1] at hn
      exact absurd hn not_expr_nil
    | @cons _ vs ws m ms first more =>
      -- The first item is parsed as well, so it is the form.
      obtain ⟨hm⟩ := first
      rw [htokens, (Expr.balanced hm).nesting_append] at hdeep
      rw [htokens, List.append_assoc] at hsplit
      obtain ⟨s'', hform', hpasses''⟩ :=
        htop.complete ⟨hm, by omega⟩ (by simp [hrest]) hsplit
      rw [hform] at hform'
      cases hform'
      rw [hpasses.unique hpasses''] at htokens
      rw [List.append_cancel_left htokens]
      exact ⟨ms, more⟩
  · rintro ⟨⟨ns, hitems⟩, hdeep⟩
    exact ⟨⟨n :: ns, .cons (.expr hn) hitems⟩, by omega⟩

theorem topForm_of_formsWithin {rest : List Token}
    (htop : RecognizesAt s (topForm (level room)) (exprLang.Within room))
    (h : FormsWithin room ts) (hne : ts ≠ []) (hsplit : s.stream.remaining = ts ++ rest)
    (hrest : rest ≠ []) : ∃ n s', topForm (level room) s = .ok n s' := by
  obtain ⟨⟨ns, hitems⟩, hdeep⟩ := h
  cases hitems with
  | nil => exact absurd rfl hne
  | cons first more =>
    obtain ⟨hn⟩ := first
    rw [(Expr.balanced hn).nesting_append] at hdeep
    rw [List.append_assoc] at hsplit
    obtain ⟨s', hform, -⟩ := htop.complete ⟨hn, by omega⟩ (by simp [hrest]) hsplit
    exact ⟨_, s', hform⟩

/-- **No form runs past a misplaced token**, unless it begins with one. -/
theorem exists_behind_form {after rest : List Token} (hs : s.stream.Orderly)
    (ht : s.stream.Misplaced before t) (hne : before ≠ [])
    (hfirst : ∀ u, ¬ s.stream.Misplaced [] u) (hn : Expr Token.isOpen ts n)
    (hremaining : s.stream.remaining = before ++ t :: after)
    (hcut : before ++ t :: after = ts ++ rest) :
    ∃ us, before = ts ++ us ∧ rest = us ++ t :: after := by
  rcases List.append_eq_append_iff.mp hcut with ⟨x, hts, hrest⟩ | ⟨us, hbefore, hrest⟩
  · cases x with
    | nil => exact ⟨[], by rw [hts, List.append_nil, List.append_nil], hrest.symm⟩
    | cons v vs =>
      obtain rfl : t = v := (List.cons.inj hrest).1
      rw [hts] at hn
      have hclosed := (parensBalanced_iff [] before).mp ht.outside
      obtain ⟨minus, rfl, hoperator, hopen, hnumber, hadjacent⟩ := hn.minus_of_append hne hclosed
      -- The sign has the dialect of its number, so it is misplaced as well.
      have hdialect := hs.steady [] minus t after hremaining hoperator hnumber hadjacent
      refine absurd ⟨?_, rfl, hopen, ?_, hdialect.symm.trans ht.plain⟩ (hfirst minus)
      · rw [hremaining]
        exact List.prefix_append _ _
      · rw [Token.isEof, hoperator]
        rfl
  · exact ⟨us, hbefore, hrest⟩

/-- **The loop over forms stops at the first misplaced token**, if it comes so far. The induction is
on the forms in front of the token. -/
theorem forms_misplaced (hs : s.stream.Orderly) (hcount : s.stream.remaining.length ≤ count)
    (ht : s.stream.Misplaced before t)
    (hfirst : ∀ earlier u, earlier.length < before.length → ¬ s.stream.Misplaced earlier u)
    (done : List Node) :
    ∃ e s', forms (level room) count done s = .error e s' ∧
      (FormsWithin room before → e = ⟨.unsupportedDialect t.describe, t.span⟩) ∧
      (¬ FormsWithin room before → ∀ found, e.cause ≠ .unsupportedDialect found) := by
  induction count generalizing s before done with
  | zero => cases hcount
  | succ count ih =>
    obtain ⟨after, hsplit⟩ := ht.there
    rw [List.append_assoc, List.singleton_append] at hsplit
    by_cases hne : before = []
    · subst hne
      obtain rfl : t = s.stream.current := (List.cons.inj hsplit).1
      rw [forms_eq, ht.inner, if_neg Bool.false_ne_true]
      refine ⟨_, _, bind_of_error (topForm_misplaced ht) _, fun _ => rfl, fun hnone => ?_⟩
      exact absurd ⟨⟨[], .nil⟩, Nat.zero_le _⟩ hnone
    have hzero : ∀ u, ¬ s.stream.Misplaced [] u :=
      fun u => hfirst [] u (List.length_pos_iff.mpr hne)
    have heof : s.stream.current.isEof = false := by
      obtain ⟨u, us, rfl⟩ := List.exists_cons_of_ne_nil hne
      have hlast := hs.ended [] u (us ++ t :: after) hsplit.symm
      rw [← (List.cons.inj hsplit).1, ← Bool.not_eq_true, hlast]
      simp
    rw [forms_eq, heof, if_neg Bool.false_ne_true]
    have hallowed := TokenStream.allowed_of_not_misplaced heof (hzero _)
    have htop := recognizesAt_topForm_allowed room hs hallowed
    cases hform : topForm (level room) s with
    | error e s' =>
      refine ⟨e, s', bind_of_error hform _, fun hforms => ?_, fun _ => topForm_error hallowed hform⟩
      obtain ⟨n, s'', hok⟩ :=
        topForm_of_formsWithin htop hforms hne hsplit.symm (List.cons_ne_nil _ _)
      rw [hform] at hok
      cases hok
    | ok n s' =>
      obtain ⟨ts, hpasses, hn, -⟩ := htop.sound hform
      have hclosed := (Expr.balanced hn).unclosed?_eq
      obtain ⟨us, rfl, hrest⟩ := exists_behind_form hs ht hne hzero hn hsplit.symm
        (hsplit.trans hpasses.remaining)
      have hiff := formsWithin_append_iff htop hform hpasses hsplit.symm (List.cons_ne_nil _ _)
      have hcount' : s'.stream.remaining.length ≤ count := by
        obtain ⟨v, vs, rfl, -⟩ := (Item.expr hn).starts
        rw [hpasses.remaining, List.length_append, List.length_cons] at hcount
        omega
      obtain ⟨e, s'', hrun, hforms, hnone⟩ := ih (hs.of_passes hpasses) hcount'
        ((hpasses.misplaced_iff hclosed).mp ht)
        (fun earlier u hlt hu => hfirst (ts ++ earlier) u
          (by rw [List.length_append, List.length_append]; omega)
          ((hpasses.misplaced_iff hclosed).mpr hu))
        (n :: done)
      exact ⟨e, s'', (bind_of_ok hform _).trans hrun, fun h => hforms (hiff.mp h),
        fun h => hnone fun h' => h (hiff.mpr h')⟩

/-- Without misplaced tokens the dialect is never what is wrong. -/
theorem forms_ignoresDialect (hs : s.stream.Orderly)
    (hnone : ∀ before t, ¬ s.stream.Misplaced before t)
    (done : List Node) (h : forms (level room) count done s = .error e s') :
    ∀ found, e.cause ≠ .unsupportedDialect found := by
  induction count generalizing s done with
  | zero => cases h
  | succ count ih =>
    rw [forms_eq] at h
    by_cases heof : s.stream.current.isEof = true
    · rw [if_pos heof] at h
      cases h
    rw [if_neg heof] at h
    have hallowed :=
      TokenStream.allowed_of_not_misplaced (Bool.not_eq_true _ ▸ heof) (hnone [] _)
    rcases bind_error h with hform | ⟨n, s'', hform, hmore⟩
    · exact topForm_error hallowed hform
    · obtain ⟨ts, hpasses, hn, -⟩ := (recognizesAt_topForm_allowed room hs hallowed).sound hform
      have hclosed := (Expr.balanced hn).unclosed?_eq
      refine ih (hs.of_passes hpasses) (fun before t ht => ?_) (n :: done) hmore
      exact hnone (ts ++ before) t ((hpasses.misplaced_iff hclosed).mpr ht)

end Parse

/-- A parse fails as its loop over forms does. -/
theorem parseProgram_error_iff {stream : TokenStream} {e : SyntaxError} {s : Parsing} :
    parseProgram stream = .error e s ↔
      Parse.forms (Parse.level Limits.parseDepth) stream.remaining.length [] { stream }
        = .error e s := by
  have hrun : parseProgram stream = EStateM.bind
      (Parse.forms (Parse.level Limits.parseDepth) stream.remaining.length []) (fun all s' =>
        .ok (.program ⟨stream.current.span.merge s'.stream.current.span, none⟩ all) s')
      { stream } := rfl
  rw [hrun]
  constructor
  · intro h
    rcases Parse.bind_error h with hforms | ⟨all, s', -, hmore⟩
    · exact hforms
    · cases hmore
  · intro h
    exact Parse.bind_of_error h _

/-- **A parse fails at the first misplaced token**, if it does not fail before. -/
theorem parseProgram_misplaced {stream : TokenStream} {before : List Token} {t : Token}
    (hs : stream.Orderly) (ht : stream.Misplaced before t)
    (hfirst : ∀ earlier u, earlier.length < before.length → ¬ stream.Misplaced earlier u) :
    ∃ e s, parseProgram stream = .error e s ∧
      (Parse.FormsWithin Limits.parseDepth before →
        e = ⟨.unsupportedDialect t.describe, t.span⟩) ∧
      (¬ Parse.FormsWithin Limits.parseDepth before →
        ∀ found, e.cause ≠ .unsupportedDialect found) := by
  obtain ⟨e, s, hrun, hforms, hnone⟩ :=
    Parse.forms_misplaced (s := { stream }) hs (Nat.le_refl _) ht hfirst []
  exact ⟨e, s, parseProgram_error_iff.mpr hrun, hforms, hnone⟩

theorem Scan.orderly_stream {track : Bool} {source : List Char} {s : Scan}
    {pragmas : List (Nat × Dialect)} (h : ofSource source track = .ok s)
    (hfollows : (s.stream source).FollowsPragmas pragmas) : (s.stream source).Orderly where
  ended := stream_ended h
  operators := by
    rw [stream_remaining h]
    exact operator_of_ofSource h
  steady := by
    intro before t u after hsplit hoperator hnumber hadjacent
    have hsign := hfollows before t (u :: after) hsplit (by rw [hoperator]; decide) _ (.inr rfl)
    have hdigits := hfollows (before ++ [t]) u after (by rw [hsplit, List.append_assoc]; rfl)
      (by rw [hnumber]; decide) _ (.inl rfl)
    rw [List.length_append, ← Nat.add_assoc] at hdigits
    rw [hsign, ← hadjacent]
    exact hdigits

/-- **The dialect in force follows the pragmas.** Let a text be tokenized; it is read as lexemes,
and those that are pragmas say `#lang` and name a dialect. A token that is no annotation left over
at the end is under the dialect that the last pragma names that ends at its start or before, or
under the plain one if there is none.

So if the parse succeeds, every token outside of forms that opens none has the pragma for it. If
there are such tokens without it, then the parse fails: at the first of them and because of the
dialect, if what stands in front of it are forms that are not nested too deep, and else for another
reason. If there are none, then the dialect is not the reason of any failure. -/
theorem dialect_follows_pragmas {source : List Char} {track : Bool} {stream : TokenStream}
    {tally : Tally} (h : tokenize source track = .ok (stream, tally)) :
    ∃ ls, Reads source ls ∧ (∀ text dialect, .pragma text dialect ∈ ls → IsPragma text dialect) ∧
      stream.position = 0 ∧
      (∀ (before : List Token) (t : Token) (after : List Token),
        stream.remaining = before ++ t :: after → t.kind ≠ .ascription →
          stream.dialectAt before.length
            = dialectUpTo t.span.start.offset (pragmasFrom 0 ls)) ∧
      (∀ tree s, parseProgram stream = .ok tree s →
        ∀ (before : List Token) (t : Token) (after : List Token),
          stream.remaining = before ++ t :: after → t.kind ≠ .ascription →
          parensBalanced 0 before = true → t.isOpen = false → t.isEof = false →
            dialectUpTo t.span.start.offset (pragmasFrom 0 ls) = .sexpr) ∧
      (∀ before t, stream.Misplaced before t →
        (∀ earlier u, earlier.length < before.length → ¬ stream.Misplaced earlier u) →
          ∃ e s, parseProgram stream = .error e s ∧
            (Parse.FormsWithin Limits.parseDepth before →
              e = ⟨.unsupportedDialect t.describe, t.span⟩) ∧
            (¬ Parse.FormsWithin Limits.parseDepth before →
              ∀ found, e.cause ≠ .unsupportedDialect found)) ∧
      ((∀ before t, ¬ stream.Misplaced before t) →
        ∀ e s, parseProgram stream = .error e s →
          ∀ found, e.cause ≠ .unsupportedDialect found) := by
  obtain ⟨scan, hscan, rfl, -⟩ := Scan.ofSource_of_tokenize h
  obtain ⟨ls, hreads, hfollows⟩ := Scan.followsPragmas hscan
  have hposition := scan.position_stream source
  have horderly := Scan.orderly_stream hscan hfollows
  have hdialect : ∀ (before : List Token) (t : Token) (after : List Token),
      (scan.stream source).remaining = before ++ t :: after → t.kind ≠ .ascription →
        (scan.stream source).dialectAt before.length
          = dialectUpTo t.span.start.offset (pragmasFrom 0 ls) := by
    intro before t after hsplit hkind
    have hlookup := hfollows before t after hsplit hkind _ (.inl rfl)
    rwa [hposition, Nat.zero_add] at hlookup
  refine ⟨ls, hreads, ?_, hposition, hdialect, ?_, ?_, ?_⟩
  · intro text dialect hmem
    obtain ⟨-, rest, hfits⟩ := hreads.lexemes _ hmem
    exact hfits.1
  · intro tree s hok before t after hsplit hkind houtside hopen heof
    rw [← hdialect before t after hsplit hkind]
    cases hplain : (scan.stream source).dialectAt before.length with
    | sexpr => rfl
    | plain =>
      -- The token would be misplaced, and then the parse would have failed.
      have ht : (scan.stream source).Misplaced before t :=
        ⟨⟨after, by rw [hsplit, List.append_assoc]; rfl⟩, houtside, hopen, heof,
          by rw [hposition, Nat.zero_add]; exact hplain⟩
      obtain ⟨before', t', ht', hfirst⟩ := TokenStream.exists_first_misplaced ht
      obtain ⟨e, s', herror, -⟩ := parseProgram_misplaced horderly ht' hfirst
      rw [herror] at hok
      cases hok
  · intro before t ht hfirst
    exact parseProgram_misplaced horderly ht hfirst
  · intro hnone e s herror
    exact Parse.forms_ignoresDialect (s := { stream := scan.stream source }) horderly hnone []
      (parseProgram_error_iff.mp herror)

/-- In `#lang=nih-sexpr "a" #lang=nih "b"` the first string is under the first pragma, and the
second string, which is under the second one, is not to be there. -/
theorem second_string_misplaced : ∃ stream tally s,
    tokenize "#lang=nih-sexpr \"a\" #lang=nih \"b\"".toList = .ok (stream, tally) ∧
    parseProgram stream
      = .error ⟨.unsupportedDialect "string 'b'", ⟨⟨30, 1, 31⟩, ⟨33, 1, 34⟩⟩⟩ s := by
  have hreads : Reads "#lang=nih-sexpr \"a\" #lang=nih \"b\"".toList
      [.pragma "#lang=nih-sexpr".toList .sexpr, .blank ' ', .string ['\x22'] ['a'], .blank ' ',
        .pragma "#lang=nih".toList .plain, .blank ' ', .string ['\x22'] ['b']] :=
    .cons (by rfl) (.cons (by rfl) (.cons (by rfl) (.cons (by rfl) (.cons (by rfl)
      (.cons (by rfl) (.cons (by rfl) .nil))))))
  have htokenize := Scan.tokenize_of_ofSource
    ((@Scan.ofSource_of_reads false _ _ (by decide) hreads).trans rfl)
  obtain ⟨-, -, -, -, -, -, hfails, -⟩ := dialect_follows_pragmas htokenize
  obtain ⟨e, s, herror, hforms, -⟩ := hfails [_] _ ⟨⟨_, rfl⟩, rfl, rfl, rfl, rfl⟩ (by
    intro earlier u hlt hu
    rw [List.eq_nil_of_length_eq_zero (Nat.lt_one_iff.mp hlt)] at hu
    cases hu.plain)
  rw [hforms ⟨⟨_, .cons (.expr (.str rfl)) .nil⟩, Nat.zero_le _⟩] at herror
  exact ⟨_, _, s, htokenize, herror⟩

end FormScript
