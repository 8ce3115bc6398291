import FormScript.Tree.Parse
import FormScript.Proofs.Grammar

/-!
# Which tokens a parser step takes

A parser step is compared with a language: a relation between the tokens it takes, the tokens it
leaves and the value it returns. `Parse.Recognizes` says that the two agree in both directions, from
every stream that ends in an end of input. Steps in sequence recognize languages in sequence
(`Recognizes.bind`), so the language of a long step is put together from those of its parts, and the
only work left is to see that the result is what the grammar says.

Room for nesting is spread over a sequence in the same way (`Within`), which is where it matters
that the parentheses of each part are balanced.
-/

namespace FormScript

namespace TokenStream

/-- The stream has moved on past these tokens. -/
structure Passes (s : TokenStream) (ts : List Token) (s' : TokenStream) : Prop where
  remaining : s.remaining = ts ++ s'.remaining
  position : s'.position = s.position + ts.length
  switches : s'.switches = s.switches

/-- An end of input comes last, and nowhere else. -/
def Ended (s : TokenStream) : Prop :=
  ∀ ts t us, s.remaining = ts ++ t :: us → (t.isEof = true ↔ us = [])

theorem passes_nil (s : TokenStream) : s.Passes [] s := ⟨rfl, rfl, rfl⟩

theorem Passes.append {s s' s'' : TokenStream} {ts us : List Token} (h : s.Passes ts s')
    (h' : s'.Passes us s'') : s.Passes (ts ++ us) s'' where
  remaining := by rw [h.remaining, h'.remaining, List.append_assoc]
  position := by rw [h'.position, h.position, List.length_append, Nat.add_assoc]
  switches := h'.switches.trans h.switches

theorem Ended.of_passes {s s' : TokenStream} {ts : List Token} (hs : s.Ended)
    (h : s.Passes ts s') : s'.Ended := by
  intro us t vs hsplit
  refine hs (ts ++ us) t vs ?_
  rw [h.remaining, hsplit, List.append_assoc]

/-- Only at the end of the input is there nothing ahead. -/
theorem Ended.ahead_eq_nil {s : TokenStream} (hs : s.Ended) :
    s.current.isEof = true ↔ s.ahead = [] :=
  hs [] s.current s.ahead rfl

theorem Ended.exists_ahead {s : TokenStream} (hs : s.Ended) (h : s.current.isEof = false) :
    ∃ t ts, s.ahead = t :: ts := by
  refine List.exists_cons_of_ne_nil fun hnil => ?_
  rw [hs.ahead_eq_nil.mpr hnil] at h
  cases h

theorem Ended.passes_advance {s : TokenStream} (hs : s.Ended) (h : s.current.isEof = false) :
    s.Passes [s.current] s.advance := by
  obtain ⟨t, ts, hahead⟩ := hs.exists_ahead h
  unfold advance
  rw [hahead]
  exact ⟨by rw [remaining, hahead]; rfl, rfl, rfl⟩

theorem lookAhead_one {s : TokenStream} {t u : Token} {us : List Token}
    (h : s.remaining = t :: u :: us) : s.current = t ∧ s.lookAhead 1 = u := by
  obtain ⟨hcurrent, hahead⟩ := List.cons.inj h
  exact ⟨hcurrent, by rw [lookAhead, hahead]; rfl⟩

end TokenStream

/-- Tokens that are taken, tokens that are left, and the value returned. -/
abbrev Lang (α : Type) := List Token → List Token → α → Prop

namespace Lang

variable {α β : Type}

/-- One language behind another, which may depend on the value of the first. -/
def seq (G : Lang α) (H : α → Lang β) : Lang β := fun ts rest b =>
  ∃ ts₁ ts₂ a, ts = ts₁ ++ ts₂ ∧ G ts₁ (ts₂ ++ rest) a ∧ H a ts₂ rest b

/-- A language whose values are changed. -/
def map (f : α → β) (G : Lang α) : Lang β := fun ts rest b => ∃ a, G ts rest a ∧ b = f a

/-- A language with room for so many nested parentheses. -/
def Within (room : Nat) (G : Lang α) : Lang α := fun ts rest a =>
  G ts rest a ∧ Grammar.nesting ts ≤ room

end Lang

namespace Parse

variable {α β : Type} {s : Parsing} {p q : Parse α} {f : α → Parse β} {G G' : Lang α}
  {H : α → Lang β}

/-- From this state, a step takes tokens as the language says and only so. -/
structure RecognizesAt (s : Parsing) (p : Parse α) (G : Lang α) : Prop where
  sound : ∀ {a s'}, p s = .ok a s' →
    ∃ ts, s.stream.Passes ts s'.stream ∧ G ts s'.stream.remaining a
  complete : ∀ {ts rest a}, G ts rest a → rest ≠ [] → s.stream.remaining = ts ++ rest →
    ∃ s', p s = .ok a s' ∧ s.stream.Passes ts s'.stream

/-- A step takes tokens as the language says, from every stream with an end of input. -/
def Recognizes (p : Parse α) (G : Lang α) : Prop :=
  ∀ s : Parsing, s.stream.Ended → RecognizesAt s p G

namespace RecognizesAt

/-- The language may be said in another way, for the tokens that are there. -/
theorem congr (h : RecognizesAt s p G) (hiff : ∀ ts rest a, rest ≠ [] →
    s.stream.remaining = ts ++ rest → (G ts rest a ↔ G' ts rest a)) : RecognizesAt s p G' where
  sound := by
    intro a s' hrun
    obtain ⟨ts, hpasses, hG⟩ := h.sound hrun
    exact ⟨ts, hpasses, (hiff ts _ a (List.cons_ne_nil _ _) hpasses.remaining).mp hG⟩
  complete := by
    intro ts rest a hG hrest hsplit
    exact h.complete ((hiff ts rest a hrest hsplit).mpr hG) hrest hsplit

/-- Only the run from this state matters. -/
theorem of_eq (heq : p s = q s) (h : RecognizesAt s q G) : RecognizesAt s p G where
  sound hrun := h.sound (heq.symm.trans hrun)
  complete hG hrest hsplit := by
    rw [heq]
    exact h.complete hG hrest hsplit

/-- The same for languages that always take the token at hand. -/
theorem congr_cons (h : RecognizesAt s p G) (hG : ∀ rest a, ¬ G [] rest a)
    (hG' : ∀ rest a, ¬ G' [] rest a)
    (hiff : ∀ us rest a, G (s.stream.current :: us) rest a ↔ G' (s.stream.current :: us) rest a) :
    RecognizesAt s p G' := by
  refine h.congr fun ts rest a _ hsplit => ?_
  cases ts with
  | nil => exact iff_of_false (hG rest a) (hG' rest a)
  | cons t us =>
    obtain rfl : s.stream.current = t := (List.cons.inj hsplit).1
    exact hiff us rest a

theorem pure {a : α} : RecognizesAt s (pure a) fun ts _ b => ts = [] ∧ b = a where
  sound := by
    rintro b s' ⟨⟩
    exact ⟨[], s.stream.passes_nil, rfl, rfl⟩
  complete := by
    rintro ts rest b ⟨rfl, rfl⟩ - -
    exact ⟨s, rfl, s.stream.passes_nil⟩

/-- A step that stops takes nothing, if nothing is what the language has here. -/
theorem of_error {e : SyntaxError} {s' : Parsing} (hrun : p s = .error e s')
    (h : ∀ ts rest a, s.stream.remaining = ts ++ rest → ¬ G ts rest a) : RecognizesAt s p G where
  sound := by
    intro a s'' hok
    rw [hrun] at hok
    cases hok
  complete := by
    rintro ts rest a hG - hsplit
    exact absurd hG (h ts rest a hsplit)

theorem fail {cause : SyntaxCause} {span : Span}
    (h : ∀ ts rest a, s.stream.remaining = ts ++ rest → ¬ G ts rest a) :
    RecognizesAt s (fail cause span) G :=
  of_error rfl h

theorem unexpected {expected : String} {t : Token}
    (h : ∀ ts rest a, s.stream.remaining = ts ++ rest → ¬ G ts rest a) :
    RecognizesAt s (unexpected expected t) G := by
  unfold Parse.unexpected
  split
  · exact fail h
  · exact fail h

/-- **Steps in sequence.** -/
theorem bind (hp : RecognizesAt s p G)
    (hf : ∀ {a s' ts}, s.stream.Passes ts s'.stream → G ts s'.stream.remaining a →
      RecognizesAt s' (f a) (H a)) : RecognizesAt s (p >>= f) (G.seq H) where
  sound := by
    intro b s'' hrun
    change EStateM.bind p f s = _ at hrun
    unfold EStateM.bind at hrun
    cases hfirst : p s with
    | error e s' =>
      rw [hfirst] at hrun
      cases hrun
    | ok a s' =>
      rw [hfirst] at hrun
      obtain ⟨ts₁, hpasses₁, hG⟩ := hp.sound hfirst
      obtain ⟨ts₂, hpasses₂, hH⟩ := (hf hpasses₁ hG).sound hrun
      refine ⟨ts₁ ++ ts₂, hpasses₁.append hpasses₂, ts₁, ts₂, a, rfl, ?_, hH⟩
      rwa [← hpasses₂.remaining]
  complete := by
    rintro ts rest b ⟨ts₁, ts₂, a, rfl, hG, hH⟩ hrest hsplit
    rw [List.append_assoc] at hsplit
    obtain ⟨s', hfirst, hpasses₁⟩ :=
      hp.complete hG (List.append_ne_nil_of_right_ne_nil _ hrest) hsplit
    have hleft : s'.stream.remaining = ts₂ ++ rest :=
      List.append_cancel_left (hpasses₁.remaining.symm.trans hsplit)
    obtain ⟨s'', hsecond, hpasses₂⟩ := (hf hpasses₁ (hleft ▸ hG)).complete hH hrest hleft
    refine ⟨s'', ?_, hpasses₁.append hpasses₂⟩
    change EStateM.bind p f s = _
    unfold EStateM.bind
    rw [hfirst]
    exact hsecond

/-- Looking at the token at hand takes nothing. -/
theorem current_bind {f : Token → Parse β} {H : Lang β}
    (h : RecognizesAt s (f s.stream.current) H) : RecognizesAt s (current >>= f) H :=
  ⟨h.sound, h.complete⟩

theorem following_bind {f : Token → Parse β} {H : Lang β}
    (h : RecognizesAt s (f (s.stream.lookAhead 1)) H) : RecognizesAt s (following >>= f) H :=
  ⟨h.sound, h.complete⟩

theorem get_bind {f : Parsing → Parse β} {H : Lang β} (h : RecognizesAt s (f s) H) :
    RecognizesAt s (get >>= f) H :=
  ⟨h.sound, h.complete⟩

/-- Taking the token at hand, which must not be the end of input. -/
theorem advance_bind {f : Token → Parse β} {H : Lang β} (hs : s.stream.Ended)
    (ht : s.stream.current.isEof = false)
    (h : ∀ s' : Parsing, s'.stream.Ended → s.stream.Passes [s.stream.current] s'.stream →
      RecognizesAt s' (f s.stream.current) H) :
    RecognizesAt s (advance >>= f) fun ts rest b =>
      ∃ us, ts = s.stream.current :: us ∧ H us rest b := by
  have hpasses := hs.passes_advance ht
  have hnext := h { s with stream := s.stream.advance } (hs.of_passes hpasses) hpasses
  refine ⟨?_, ?_⟩
  · intro b s' hrun
    obtain ⟨us, hus, hH⟩ := hnext.sound hrun
    exact ⟨_, hpasses.append hus, us, rfl, hH⟩
  · rintro ts rest b ⟨us, rfl, hH⟩ hrest hsplit
    have hleft : s.stream.advance.remaining = us ++ rest := by
      rw [hpasses.remaining] at hsplit
      exact List.append_cancel_left hsplit
    obtain ⟨s', hrun, hus⟩ := hnext.complete hH hrest hleft
    exact ⟨s', hrun, hpasses.append hus⟩

end RecognizesAt

namespace Recognizes

theorem congr (h : Recognizes p G)
    (hiff : ∀ ts rest a, rest ≠ [] → (G ts rest a ↔ G' ts rest a)) : Recognizes p G' :=
  fun s hs => (h s hs).congr fun ts rest a hrest _ => hiff ts rest a hrest

theorem bind (hp : Recognizes p G) (hf : ∀ a, Recognizes (f a) (H a)) :
    Recognizes (p >>= f) (G.seq H) :=
  fun s hs => (hp s hs).bind fun {a s' _} hpasses _ => hf a s' (hs.of_passes hpasses)

/-- **Steps in sequence share the room** that there is for nesting, as the tokens of the first one
leave the depth as it was. -/
theorem bind_within {room : Nat} (hp : Recognizes p (G.Within room))
    (hG : ∀ {ts rest a}, G ts rest a → Grammar.Balanced ts)
    (hf : ∀ a, Recognizes (f a) ((H a).Within room)) :
    Recognizes (p >>= f) ((G.seq H).Within room) := by
  refine (hp.bind hf).congr fun ts rest b _ => ?_
  constructor
  · rintro ⟨ts₁, ts₂, a, rfl, ⟨hg, hroom₁⟩, hh, hroom₂⟩
    refine ⟨⟨ts₁, ts₂, a, rfl, hg, hh⟩, ?_⟩
    rw [(hG hg).nesting_append]
    omega
  · rintro ⟨⟨ts₁, ts₂, a, rfl, hg, hh⟩, hroom⟩
    rw [(hG hg).nesting_append] at hroom
    exact ⟨ts₁, ts₂, a, rfl, ⟨hg, by omega⟩, hh, by omega⟩

/-- A step whose value is changed at the end. -/
theorem map_within {room : Nat} (hp : Recognizes p (G.Within room)) (g : α → β) :
    Recognizes (p >>= fun a => Pure.pure (g a)) ((G.map g).Within room) := by
  refine (hp.bind fun a => fun s _ => RecognizesAt.pure).congr fun ts rest b _ => ?_
  constructor
  · rintro ⟨ts₁, _, a, rfl, ⟨hg, hroom⟩, rfl, rfl⟩
    rw [List.append_nil]
    exact ⟨⟨a, hg, rfl⟩, hroom⟩
  · rintro ⟨⟨a, hg, rfl⟩, hroom⟩
    exact ⟨ts, [], a, (List.append_nil ts).symm, ⟨hg, hroom⟩, rfl, rfl⟩

end Recognizes

/-! ## Atoms -/

open Grammar

theorem isJoinable_iff {t : Token} : isJoinable t = true ↔ Joinable t := by
  simp [isJoinable, Joinable, or_assoc, and_assoc]

/-- Only the token at hand can come first. -/
theorem eq_current {ts us rest : List Token} {t : Token} (h : s.stream.remaining = ts ++ rest)
    (hts : ts = t :: us) : t = s.stream.current := by
  rw [hts] at h
  exact (List.cons.inj h).1.symm

theorem recognizesAt_number (text : String) (span : Span) :
    RecognizesAt s (number text span) fun ts _ x => ts = [] ∧ Spells text x := by
  unfold number
  split
  · rename_i x hx
    split
    · rename_i hfinite
      refine RecognizesAt.pure.congr fun ts rest y _ _ => and_congr_right fun _ => ?_
      constructor
      · rintro rfl
        exact ⟨hx, hfinite⟩
      · rintro ⟨hy, -⟩
        exact Option.some.inj (hy.symm.trans hx)
    · rename_i hinfinite
      refine RecognizesAt.fail ?_
      rintro ts rest y - ⟨-, hy, hfinite⟩
      obtain rfl := Option.some.inj (hy.symm.trans hx)
      exact hinfinite hfinite
  · rename_i hnone
    refine RecognizesAt.fail ?_
    rintro ts rest y - ⟨-, hy, -⟩
    rw [hnone] at hy
    cases hy

/-- One token of a kind, and the value made of it. -/
def oneOf (kind : TokenKind) (make : Token → α) : Lang α := fun ts _ a =>
  ∃ t, t.kind = kind ∧ ts = [t] ∧ a = make t

theorem not_oneOf_nil {kind : TokenKind} {make : Token → α} {rest : List Token} {a : α} :
    ¬ oneOf kind make [] rest a := by
  rintro ⟨t, -, hts, -⟩
  cases hts

theorem oneOf_cons {kind : TokenKind} {make : Token → α} {t : Token} {us rest : List Token}
    {a : α} :
    oneOf kind make (t :: us) rest a ↔ t.kind = kind ∧ us = [] ∧ a = make t := by
  constructor
  · rintro ⟨u, hkind, hts, rfl⟩
    obtain ⟨rfl, rfl⟩ := List.cons.inj hts
    exact ⟨hkind, rfl, rfl⟩
  · rintro ⟨hkind, rfl, rfl⟩
    exact ⟨t, hkind, rfl, rfl⟩

theorem nesting_singleton {t : Token} (h : t.kind.isSymbol = false) : nesting [t] = 0 := by
  obtain ⟨hopen, hclose⟩ := not_paren_of_kind h
  exact deepest_plain 0 [] hopen hclose

theorem balanced_of_oneOf {kind : TokenKind} {make : Token → α} (hsymbol : kind.isSymbol = false)
    {ts rest : List Token} {a : α} (h : oneOf kind make ts rest a) : Balanced ts := by
  obtain ⟨t, rfl, rfl, -⟩ := h
  obtain ⟨hopen, hclose⟩ := not_paren_of_kind hsymbol
  exact balanced_singleton hopen hclose

/-- Taking one token of a kind. -/
theorem recognizesAt_oneOf {kind : TokenKind} (make : Token → α) (room : Nat) (hs : s.stream.Ended)
    (hkind : s.stream.current.kind = kind) (hsymbol : kind.isSymbol = false) (heof : kind ≠ .eof) :
    RecognizesAt s (advance >>= fun _ => pure (make s.stream.current))
      ((oneOf kind make).Within room) := by
  have hlast : s.stream.current.isEof = false := by
    simpa [Token.isEof, hkind] using heof
  have hstep := RecognizesAt.advance_bind (f := fun _ => pure (make s.stream.current)) hs hlast
    fun _ _ _ => .pure
  refine hstep.congr fun ts rest a _ hsplit => ?_
  constructor
  · rintro ⟨_, rfl, rfl, rfl⟩
    refine ⟨⟨s.stream.current, hkind, rfl, rfl⟩, ?_⟩
    rw [nesting_singleton (by rw [hkind]; exact hsymbol)]
    exact Nat.zero_le _
  · rintro ⟨⟨t, -, hts, rfl⟩, -⟩
    obtain rfl := eq_current hsplit hts
    exact ⟨[], hts, rfl, rfl⟩

theorem recognizes_ident (room : Nat) :
    Recognizes ident ((oneOf .identifier identOf).Within room) := by
  intro s hs
  refine RecognizesAt.current_bind ?_
  split
  · rename_i hkind
    exact recognizesAt_oneOf identOf room hs (beq_iff_eq.mp hkind) rfl (by simp)
  · rename_i hkind
    refine RecognizesAt.unexpected ?_
    rintro ts rest n hsplit ⟨⟨t, ht, hts, -⟩, -⟩
    obtain rfl := eq_current hsplit hts
    exact hkind (beq_iff_eq.mpr ht)

theorem recognizes_str (room : Nat) : Recognizes str ((oneOf .string strOf).Within room) := by
  intro s hs
  refine RecognizesAt.current_bind ?_
  split
  · rename_i hkind
    exact recognizesAt_oneOf strOf room hs (beq_iff_eq.mp hkind) rfl (by simp)
  · rename_i hkind
    refine RecognizesAt.unexpected ?_
    rintro ts rest n hsplit ⟨⟨t, ht, hts, -⟩, -⟩
    obtain rfl := eq_current hsplit hts
    exact hkind (beq_iff_eq.mpr ht)

/-- A type: an identifier, or the annotation of the closing parenthesis behind it. -/
def typeLang : Lang Node := fun ts rest n =>
  oneOf .identifier (fun t => .type ⟨t.span, none⟩ t.text) ts rest n ∨
    ∃ next more a, ts = [] ∧ rest = next :: more ∧ next.isClose = true ∧
      next.ascription = some a ∧ n = .type ⟨next.span, none⟩ a

theorem recognizes_type (room : Nat) : Recognizes type (typeLang.Within room) := by
  intro s hs
  refine RecognizesAt.current_bind ?_
  split
  · rename_i hkind
    have hkind := beq_iff_eq.mp hkind
    have hname := recognizesAt_oneOf (fun t => Node.type ⟨t.span, none⟩ t.text) room hs hkind rfl
      (by simp)
    refine hname.congr fun ts rest n _ hsplit => ?_
    refine and_congr_left fun _ => ⟨.inl, ?_⟩
    rintro (h | ⟨next, more, a, rfl, rfl, hclose, -, -⟩)
    · exact h
    · obtain rfl : s.stream.current = next := (List.cons.inj hsplit).1
      rw [(not_paren_of_kind (by rw [hkind]; rfl)).2] at hclose
      cases hclose
  · rename_i hkind
    have hident : ∀ {ts rest n}, s.stream.remaining = ts ++ rest →
        ¬ oneOf .identifier (fun t => Node.type ⟨t.span, none⟩ t.text) ts rest n := by
      rintro ts rest n hsplit ⟨t, ht, hts, -⟩
      obtain rfl := eq_current hsplit hts
      exact hkind (beq_iff_eq.mpr ht)
    split
    · -- The parenthesis has an annotation and is left where it is.
      rename_i a hclose hascription
      refine RecognizesAt.pure.congr fun ts rest n _ hsplit => ?_
      constructor
      · rintro ⟨rfl, rfl⟩
        refine ⟨.inr ⟨s.stream.current, s.stream.ahead, a, rfl, hsplit.symm, hclose, hascription,
          rfl⟩, Nat.zero_le _⟩
      · rintro ⟨h | ⟨next, more, b, rfl, rfl, -, hb, rfl⟩, -⟩
        · exact absurd h (hident hsplit)
        · obtain rfl : s.stream.current = next := (List.cons.inj hsplit).1
          obtain rfl := Option.some.inj (hb.symm.trans hascription)
          exact ⟨rfl, rfl⟩
    · rename_i hother
      refine RecognizesAt.unexpected ?_
      rintro ts rest n hsplit ⟨h | ⟨next, more, b, rfl, rfl, hclose, hb, rfl⟩, -⟩
      · exact hident hsplit h
      · obtain rfl : s.stream.current = next := (List.cons.inj hsplit).1
        exact hother b hclose hb

/-! ## Expressions -/

/-- The tokens of an expression. -/
def exprLang : Lang Node := fun ts _ n => Expr Token.isOpen ts n

/-- The tokens of a form. -/
def formLang : Lang Node := fun ts _ n => Form Token.isOpen ts n

/-- The tokens of a block without a head. -/
def bareLang : Lang Node := fun ts _ n =>
  ∃ opening closing us body, ts = opening :: us ++ [closing] ∧ opening.isOpen = true ∧
    Items Token.isOpen none us body ∧ body.length ≤ Limits.listChildren ∧
    closing.isClose = true ∧ n = .block ⟨opening.span.merge closing.span,
      opening.ascription <|> closing.ascription⟩ body

/-- A level takes forms and blocks with room for so many nested parentheses. -/
structure Level.Recognized (room : Nat) (below : Level) : Prop where
  list : ∀ s : Parsing, s.stream.Ended → s.stream.current.isOpen = true →
    RecognizesAt s below.list (formLang.Within room)
  bare : ∀ s : Parsing, s.stream.Ended → s.stream.current.isOpen = true →
    RecognizesAt s below.bare (bareLang.Within room)

variable {room : Nat} {below : Level}

/-- A minus sign, and the number behind it. -/
theorem recognizesAt_negative (hs : s.stream.Ended) (hminus : s.stream.current.kind = .operator)
    (hnext : belongsToMinus s.stream.current (s.stream.lookAhead 1) = true) :
    RecognizesAt s (negative s.stream.current) fun ts _ n => ∃ digits x,
      ts = [s.stream.current, digits] ∧ digits.kind = .number ∧
        Adjacent s.stream.current digits ∧ Spells ("-" ++ digits.text) x ∧
        n = .num ⟨s.stream.current.span.merge digits.span,
          s.stream.current.ascription <|> digits.ascription⟩ x ("-" ++ digits.text) := by
  have hlast : s.stream.current.isEof = false := by simp [Token.isEof, hminus]
  obtain ⟨digits, more, hahead⟩ := hs.exists_ahead hlast
  obtain ⟨-, hlook⟩ := TokenStream.lookAhead_one
    (show s.stream.remaining = s.stream.current :: digits :: more by rw [← hahead]; rfl)
  rw [hlook] at hnext
  obtain ⟨hnumber, hadjacent⟩ : digits.kind = .number ∧ Adjacent s.stream.current digits := by
    simpa [belongsToMinus, Adjacent] using hnext
  have hboth : RecognizesAt s (negative s.stream.current) fun ts _ n => ∃ us,
      ts = s.stream.current :: us ∧ ∃ x, us = [digits] ∧ Spells ("-" ++ digits.text) x ∧
        n = .num ⟨s.stream.current.span.merge digits.span,
          s.stream.current.ascription <|> digits.ascription⟩ x ("-" ++ digits.text) := by
    refine RecognizesAt.advance_bind hs hlast fun s' hs' hpasses => ?_
    obtain rfl : digits = s'.stream.current := by
      have hremaining := hpasses.remaining
      rw [TokenStream.remaining, hahead] at hremaining
      exact (List.cons.inj (List.cons.inj hremaining).2).1
    refine RecognizesAt.congr (RecognizesAt.advance_bind hs' (by simp [Token.isEof, hnumber])
      fun s'' _ _ => (recognizesAt_number _ _).bind fun _ _ => .pure) ?_
    intro ts rest n _ _
    constructor
    · rintro ⟨_, rfl, _, _, x, rfl, ⟨rfl, hx⟩, rfl, rfl⟩
      exact ⟨x, rfl, hx, rfl⟩
    · rintro ⟨x, rfl, hx, rfl⟩
      exact ⟨[], rfl, [], [], x, rfl, ⟨rfl, hx⟩, rfl, rfl⟩
  refine hboth.congr fun ts rest n _ hsplit => ?_
  constructor
  · rintro ⟨_, rfl, x, rfl, hx, rfl⟩
    exact ⟨digits, x, rfl, hnumber, hadjacent, hx, rfl⟩
  · rintro ⟨u, x, rfl, -, -, hx, rfl⟩
    rw [TokenStream.remaining, hahead] at hsplit
    obtain rfl : digits = u := (List.cons.inj (List.cons.inj hsplit).2).1
    exact ⟨[digits], rfl, x, rfl, hx, rfl⟩

theorem not_within_exprLang_nil (rest : List Token) (n : Node) :
    ¬ exprLang.Within room [] rest n :=
  fun h => not_expr_nil h.1

/-- A number is an expression of one token. -/
theorem recognizesAt_numeral (room : Nat) (hs : s.stream.Ended)
    (hkind : s.stream.current.kind = .number) :
    RecognizesAt s (do
        let _ ← advance
        let x ← number s.stream.current.text s.stream.current.span
        pure (.num (markOf s.stream.current) x s.stream.current.text))
      (exprLang.Within room) := by
  have hlast : s.stream.current.isEof = false := by simp [Token.isEof, hkind]
  refine RecognizesAt.congr_cons (RecognizesAt.advance_bind hs hlast
    fun s' _ _ => (recognizesAt_number _ _).bind fun _ _ => .pure) ?_ not_within_exprLang_nil ?_
  · rintro rest n ⟨us, hts, -⟩
    cases hts
  · intro us rest n
    rw [Lang.Within, exprLang, expr_number hkind]
    constructor
    · rintro ⟨_, hts, _, _, x, rfl, ⟨rfl, hx⟩, rfl, rfl⟩
      obtain ⟨-, rfl⟩ := List.cons.inj hts
      refine ⟨⟨rfl, x, hx, rfl⟩, ?_⟩
      rw [List.append_nil, nesting_singleton (by rw [hkind]; rfl)]
      exact Nat.zero_le _
    · rintro ⟨⟨rfl, x, hx, rfl⟩, -⟩
      exact ⟨[], rfl, [], [], x, rfl, ⟨rfl, hx⟩, rfl, rfl⟩

/-- At an operator that opens nothing, an expression is a minus sign with the number that touches
it, or there is none. -/
theorem recognizesAt_operator (room : Nat) (expected : String) (hs : s.stream.Ended)
    (hkind : s.stream.current.kind = .operator) (hopen : s.stream.current.isOpen = false) :
    RecognizesAt s
      (if s.stream.current.text == "-"
          && belongsToMinus s.stream.current (s.stream.lookAhead 1) then
        negative s.stream.current
      else unexpected expected s.stream.current)
      (exprLang.Within room) := by
  split
  · rename_i hminus
    obtain ⟨htext, hnext⟩ : s.stream.current.text = "-" ∧
        belongsToMinus s.stream.current (s.stream.lookAhead 1) = true := by
      simpa using hminus
    refine (recognizesAt_negative hs hkind hnext).congr_cons ?_ not_within_exprLang_nil
      fun us rest n => ?_
    · rintro rest n ⟨_, _, hts, -⟩
      cases hts
    · rw [Lang.Within, exprLang, expr_minus hkind hopen]
      constructor
      · rintro ⟨digits, x, hts, hdigits⟩
        obtain ⟨-, rfl⟩ := List.cons.inj hts
        refine ⟨⟨htext, digits, x, rfl, hdigits⟩, ?_⟩
        have hclose : s.stream.current.isClose = false := by
          simp [Token.isClose, Token.isSymbol, htext]
        have hzero : nesting [digits] = 0 := nesting_singleton (by rw [hdigits.1]; rfl)
        rw [nesting, deepest_plain 0 _ hopen hclose]
        exact Nat.le_trans (Nat.le_of_eq hzero) (Nat.zero_le _)
      · rintro ⟨⟨-, digits, x, rfl, hdigits⟩, -⟩
        exact ⟨digits, x, rfl, hdigits⟩
  · rename_i hminus
    refine RecognizesAt.unexpected ?_
    rintro ts rest n hsplit ⟨hexpr, -⟩
    cases ts with
    | nil => exact not_expr_nil hexpr
    | cons t us =>
      -- A derivation would have the number that the parser has not seen.
      obtain rfl := eq_current hsplit rfl
      obtain ⟨htext, digits, x, rfl, hdigits, hadjacent, -⟩ := (expr_minus hkind hopen).mp hexpr
      obtain ⟨-, hlook⟩ := TokenStream.lookAhead_one hsplit
      refine hminus ?_
      rw [hlook]
      simpa [htext, belongsToMinus, hdigits, Adjacent] using hadjacent

/-- **Expressions.** Which rule applies is told by the token at hand. -/
theorem recognizes_expr (hbelow : below.Recognized room) (expected : String) :
    Recognizes (expr below.list expected) (exprLang.Within room) := by
  intro s hs
  refine RecognizesAt.current_bind ?_
  split
  · -- A string.
    rename_i hkind
    refine (recognizesAt_oneOf strOf room hs hkind rfl (by simp)).congr_cons
      (fun _ _ h => not_oneOf_nil h.1) not_within_exprLang_nil fun us rest n =>
        and_congr_left fun _ => ?_
    rw [exprLang, expr_string hkind, oneOf_cons, and_iff_right hkind]
  · -- A number.
    rename_i hkind
    exact recognizesAt_numeral room hs hkind
  · -- A name.
    rename_i hkind
    refine (recognizesAt_oneOf identOf room hs hkind rfl (by simp)).congr_cons
      (fun _ _ h => not_oneOf_nil h.1) not_within_exprLang_nil fun us rest n =>
        and_congr_left fun _ => ?_
    rw [exprLang, expr_identifier hkind, oneOf_cons, and_iff_right hkind]
  · -- An operator: a parenthesis hands over to the level below.
    rename_i hkind
    split
    · rename_i hopen
      refine (hbelow.list s hs hopen).congr_cons ?_ not_within_exprLang_nil fun us rest n => ?_
      · rintro rest n ⟨hform, -⟩
        obtain ⟨_, _, _, hts, -⟩ := hform.first
        cases hts
      · exact and_congr_left fun _ => (expr_open hkind hopen).symm
    · rename_i hopen
      rw [Bool.not_eq_true] at hopen
      exact RecognizesAt.following_bind (recognizesAt_operator room expected hs hkind hopen)
  · -- No expression begins with any other token.
    rename_i hstring hnumber hident hoperator
    refine RecognizesAt.unexpected ?_
    rintro ts rest n hsplit ⟨hexpr, -⟩
    cases ts with
    | nil => exact not_expr_nil hexpr
    | cons t us =>
      obtain rfl := eq_current hsplit rfl
      rcases hexpr.kind_mem with h | h | h | h
      · exact hstring h
      · exact hnumber h
      · exact hident h
      · exact hoperator h

/-! ## Lists of items -/

/-- The closing parenthesis comes next. -/
def ClosesNext (rest : List Token) : Prop := ∃ next more, rest = next :: more ∧ next.isClose = true

theorem atFormEnd_of_isClose {head : FormHead} (h : s.stream.current.isClose = true) :
    atFormEnd head s = .ok true s := by
  simp [atFormEnd, current, h, bind, EStateM.bind, pure, EStateM.pure]

theorem atFormEnd_of_isEof {head : FormHead} (h : s.stream.current.isClose = false)
    (heof : s.stream.current.isEof = true) :
    atFormEnd head s
      = .error ⟨.missingClose head.name head.opened, s.stream.current.span⟩ s := by
  simp [atFormEnd, current, h, heof, bind, EStateM.bind, fail]

theorem atFormEnd_of_other {head : FormHead} (h : s.stream.current.isClose = false)
    (heof : s.stream.current.isEof = false) : atFormEnd head s = .ok false s := by
  simp [atFormEnd, current, h, heof, bind, EStateM.bind, pure, EStateM.pure]

/-- Whether the form ends is told by the token at hand; at the end of the input nothing goes on. -/
theorem RecognizesAt.atFormEnd_bind {head : FormHead} {f : Bool → Parse β} {H : Lang β}
    (hclose : s.stream.current.isClose = true → RecognizesAt s (f true) H)
    (hmore : s.stream.current.isClose = false → s.stream.current.isEof = false →
      RecognizesAt s (f false) H)
    (hend : s.stream.current.isClose = false → s.stream.current.isEof = true →
      ∀ ts rest b, s.stream.remaining = ts ++ rest → ¬ H ts rest b) :
    RecognizesAt s (atFormEnd head >>= f) H := by
  by_cases hc : s.stream.current.isClose = true
  · refine of_eq ?_ (hclose hc)
    show EStateM.bind (atFormEnd head) f s = _
    rw [EStateM.bind, atFormEnd_of_isClose hc]
  rw [Bool.not_eq_true] at hc
  by_cases he : s.stream.current.isEof = true
  · have hrun : (atFormEnd head >>= f) s
        = .error ⟨.missingClose head.name head.opened, s.stream.current.span⟩ s := by
      show EStateM.bind (atFormEnd head) f s = _
      rw [EStateM.bind, atFormEnd_of_isEof hc he]
    exact of_error hrun (hend hc he)
  · rw [Bool.not_eq_true] at he
    refine of_eq ?_ (hmore hc he)
    show EStateM.bind (atFormEnd head) f s = _
    rw [EStateM.bind, atFormEnd_of_other hc he]

/-- The tokens of an item. -/
def itemLang (head : Option String) : Lang Node := fun ts _ n => Item Token.isOpen head ts n

/-- The tokens of at most so many items in front of a closing parenthesis. -/
def itemsLang (head : Option String) (limit : Nat) : Lang (List Node) := fun ts rest ns =>
  Items Token.isOpen head ts ns ∧ ns.length ≤ limit ∧ ClosesNext rest

/-- No items are taken at a closing parenthesis. -/
theorem itemsLang_of_isClose {head : Option String} {limit : Nat} {ts rest : List Token}
    {ns : List Node} (h : s.stream.current.isClose = true)
    (hsplit : s.stream.remaining = ts ++ rest) :
    itemsLang head limit ts rest ns ↔ ts = [] ∧ ns = [] := by
  constructor
  · rintro ⟨hitems, -, -⟩
    cases hitems with
    | nil => exact ⟨rfl, rfl⟩
    | cons first _ =>
      obtain ⟨t, us, rfl, hclose, -⟩ := first.starts
      obtain rfl := eq_current hsplit rfl
      rw [h] at hclose
      cases hclose
  · rintro ⟨rfl, rfl⟩
    exact ⟨.nil, Nat.zero_le _, s.stream.current, s.stream.ahead, hsplit.symm, h⟩

/-- Elsewhere a first item is taken, for which there must be room. -/
theorem itemsLang_of_not_isClose {head : Option String} {limit : Nat} {ts rest : List Token}
    {ns : List Node} (h : s.stream.current.isClose = false)
    (hsplit : s.stream.remaining = ts ++ rest) :
    itemsLang head limit ts rest ns ↔ ∃ us vs n ms, ts = us ++ vs ∧ ns = n :: ms ∧
      Item Token.isOpen head us n ∧ 0 < limit ∧ itemsLang head (limit - 1) vs rest ms := by
  constructor
  · rintro ⟨hitems, hlimit, hclose⟩
    cases hitems with
    | nil =>
      obtain ⟨next, more, rfl, hnext⟩ := hclose
      obtain rfl : s.stream.current = next := (List.cons.inj hsplit).1
      rw [h] at hnext
      cases hnext
    | cons first more =>
      rw [List.length_cons] at hlimit
      exact ⟨_, _, _, _, rfl, rfl, first, by omega, more, by omega, hclose⟩
  · rintro ⟨us, vs, n, ms, rfl, rfl, first, hlimit, more, hms, hclose⟩
    refine ⟨.cons first more, ?_, hclose⟩
    rw [List.length_cons]
    omega

theorem not_itemsLang_of_isEof {head : Option String} {limit : Nat} {ts rest : List Token}
    {ns : List Node} (h : s.stream.current.isClose = false) (heof : s.stream.current.isEof = true)
    (hsplit : s.stream.remaining = ts ++ rest) : ¬ itemsLang head limit ts rest ns := by
  intro hitems
  obtain ⟨us, vs, n, ms, rfl, -, first, -⟩ := (itemsLang_of_not_isClose h hsplit).mp hitems
  obtain ⟨t, us, rfl, -, hnot⟩ := first.starts
  obtain rfl := eq_current hsplit rfl
  rw [heof] at hnot
  cases hnot

/-- At the closing parenthesis the items are complete. -/
theorem recognizesAt_done {head : Option String} (limit : Nat) (done : List Node)
    (h : s.stream.current.isClose = true) : RecognizesAt s (pure done.reverse)
      (((itemsLang head limit).map (done.reverse ++ ·)).Within room) := by
  refine RecognizesAt.pure.congr fun ts rest ns _ hsplit => ?_
  constructor
  · rintro ⟨rfl, rfl⟩
    exact ⟨⟨[], (itemsLang_of_isClose h hsplit).mpr ⟨rfl, rfl⟩, (List.append_nil _).symm⟩,
      Nat.zero_le _⟩
  · rintro ⟨⟨ms, hms, rfl⟩, -⟩
    obtain ⟨rfl, rfl⟩ := (itemsLang_of_isClose h hsplit).mp hms
    exact ⟨rfl, List.append_nil _⟩

/-- **Items, over and over.** The induction is on the room for items; those already there are
carried along, last one first. -/
theorem recognizes_items {head : Option String} {item : Parse Node}
    (hitem : Recognizes item ((itemLang head).Within room)) (form : FormHead) (limit : Nat)
    (done : List Node) : Recognizes (items item form limit done)
      (((itemsLang head limit).map (done.reverse ++ ·)).Within room) := by
  induction limit generalizing done with
  | zero =>
    intro s hs
    refine RecognizesAt.atFormEnd_bind (recognizesAt_done 0 done) (fun hc _ => ?_) ?_
    · refine RecognizesAt.current_bind (RecognizesAt.fail ?_)
      rintro ts rest ns hsplit ⟨⟨ms, hms, -⟩, -⟩
      obtain ⟨_, _, _, _, -, -, -, hlimit, -⟩ := (itemsLang_of_not_isClose hc hsplit).mp hms
      exact Nat.lt_irrefl 0 hlimit
    · rintro hc he ts rest ns hsplit ⟨⟨ms, hms, -⟩, -⟩
      exact not_itemsLang_of_isEof hc he hsplit hms
  | succ limit ih =>
    intro s hs
    refine RecognizesAt.atFormEnd_bind (recognizesAt_done (limit + 1) done) (fun hc _ => ?_) ?_
    · have hnext : Recognizes (item >>= fun n => items item form limit (n :: done)) _ :=
        hitem.bind_within (fun h => h.balanced) fun n => ih (n :: done)
      have hcons : ∀ n ms, (n :: done).reverse ++ ms = done.reverse ++ n :: ms := by simp
      refine (hnext s hs).congr fun ts rest ns _ hsplit => and_congr_left fun _ => ?_
      constructor
      · rintro ⟨us, vs, n, rfl, first, ms, hms, rfl⟩
        exact ⟨n :: ms, (itemsLang_of_not_isClose hc hsplit).mpr
          ⟨us, vs, n, ms, rfl, rfl, first, Nat.succ_pos _, hms⟩, hcons n ms⟩
      · rintro ⟨ms, hms, rfl⟩
        obtain ⟨us, vs, n, ms, rfl, rfl, first, -, hms⟩ :=
          (itemsLang_of_not_isClose hc hsplit).mp hms
        exact ⟨us, vs, n, rfl, first, ms, hms, (hcons n ms).symm⟩
    · rintro hc he ts rest ns hsplit ⟨⟨ms, hms, -⟩, -⟩
      exact not_itemsLang_of_isEof hc he hsplit hms

/-- All items of a form. -/
theorem recognizes_all_items {head : Option String} {item : Parse Node}
    (hitem : Recognizes item ((itemLang head).Within room)) (form : FormHead) :
    Recognizes (items item form Limits.listChildren [])
      ((itemsLang head Limits.listChildren).Within room) := by
  refine (recognizes_items hitem form Limits.listChildren []).congr fun ts rest ns _ =>
    and_congr_left fun _ => ?_
  constructor
  · rintro ⟨ms, hms, rfl⟩
    exact hms
  · intro hns
    exact ⟨ns, hns, rfl⟩

/-- Expressions as items. -/
theorem recognizes_exprs (hbelow : below.Recognized room) (expected : String) (form : FormHead) :
    Recognizes (items (expr below.list expected) form Limits.listChildren [])
      ((itemsLang none Limits.listChildren).Within room) := by
  refine recognizes_all_items ((recognizes_expr hbelow expected).congr fun ts rest n _ =>
    and_congr_left fun _ => ⟨.expr, ?_⟩) form
  rintro ⟨hexpr⟩
  exact hexpr

theorem recognizes_headed (hbelow : below.Recognized room) (head : String) :
    Recognizes (headed below head) ((itemLang (some head)).Within room) := by
  intro s hs
  refine RecognizesAt.current_bind (RecognizesAt.following_bind ?_)
  -- The two tokens in front are those of every form that can be taken here.
  have hfirst : ∀ {ts rest n}, s.stream.remaining = ts ++ rest → Form Token.isOpen ts n →
      ∃ us, ts = s.stream.current :: s.stream.lookAhead 1 :: us ∧
        s.stream.current.isOpen = true := by
    intro ts rest n hsplit hform
    obtain ⟨opening, t, us, rfl, hopen, -⟩ := hform.first
    obtain ⟨hcurrent, hlook⟩ := TokenStream.lookAhead_one hsplit
    rw [hcurrent, hlook]
    exact ⟨us, rfl, hopen⟩
  split
  · rename_i h
    obtain ⟨hopen, hsymbol⟩ := Bool.and_eq_true_iff.mp h
    refine (hbelow.list s hs hopen).congr fun ts rest n _ hsplit => and_congr_left fun _ => ?_
    constructor
    · intro hform
      obtain ⟨us, rfl, -⟩ := hfirst hsplit hform
      exact .headed hsymbol hform
    · rintro ⟨⟩
      assumption
  · rename_i h
    refine RecognizesAt.unexpected ?_
    rintro ts rest n hsplit ⟨hitem, -⟩
    cases hitem with
    | headed hsymbol hform =>
      obtain ⟨us, hts, hopen⟩ := hfirst hsplit hform
      rw [(List.cons.inj (List.cons.inj hts).2).1] at hsymbol
      exact h (Bool.and_eq_true_iff.mpr ⟨hopen, hsymbol⟩)

/-! ## Blocks -/

/-- The tokens of a block. -/
def blockLang : Lang Node := fun ts _ n => Block Token.isOpen ts n

theorem headD_eq {opening opening' closing t : Token} {vs us : List Token}
    (h : opening :: vs ++ [closing] = opening' :: t :: us) :
    (vs ++ [closing]).headD closing = t := by
  have htail : vs ++ [closing] = t :: us := (List.cons.inj h).2
  rw [htail]
  rfl

/-- Blocks without a head are those with a parenthesis as second token. -/
theorem block_iff_bareLang {ts rest : List Token} {n : Node} {opening t : Token} {us : List Token}
    (hts : ts = opening :: t :: us) (hnext : t.isOpen = true) :
    blockLang ts rest n ↔ bareLang ts rest n := by
  constructor
  · intro h
    cases h with
    | bare opened _ items few closed => exact ⟨_, _, _, _, rfl, opened, items, few, closed, rfl⟩
    | form form _ =>
      obtain ⟨_, u, _, hts', -, -, hopen, -⟩ := form.first
      obtain ⟨-, htail⟩ := List.cons.inj (hts.symm.trans hts')
      rw [(List.cons.inj htail).1, hopen] at hnext
      cases hnext
  · rintro ⟨opening, closing, vs, body, rfl, opened, items, few, closed, rfl⟩
    refine .bare opened ?_ items few closed
    rwa [headD_eq hts]

/-- The other blocks are forms. -/
theorem block_iff_form {ts rest : List Token} {n : Node} {opening t : Token} {us : List Token}
    (hts : ts = opening :: t :: us) (hnext : t.isOpen = false) :
    blockLang ts rest n ↔ ∃ form, Form Token.isOpen ts form ∧ n = asBlock form := by
  constructor
  · intro h
    cases h with
    | bare _ first =>
      rw [headD_eq hts, hnext] at first
      cases first
    | form form node => exact ⟨_, form, node.symm⟩
  · rintro ⟨form, hform, rfl⟩
    exact .form hform rfl

theorem recognizes_block (hbelow : below.Recognized room) :
    Recognizes (block below) (blockLang.Within room) := by
  intro s hs
  refine RecognizesAt.current_bind (RecognizesAt.following_bind ?_)
  have hfirst : ∀ {ts rest n}, s.stream.remaining = ts ++ rest → blockLang ts rest n →
      ∃ us, ts = s.stream.current :: s.stream.lookAhead 1 :: us ∧
        s.stream.current.isOpen = true := by
    intro ts rest n hsplit hblock
    obtain ⟨opening, t, us, rfl, hopen⟩ := hblock.first
    obtain ⟨hcurrent, hlook⟩ := TokenStream.lookAhead_one hsplit
    rw [hcurrent, hlook]
    exact ⟨us, rfl, hopen⟩
  by_cases hopen : s.stream.current.isOpen = true
  · rw [if_neg (by simp [isEof_of_isSymbol hopen]), if_neg (by simp [hopen])]
    split
    · -- Another parenthesis: the block has no head.
      rename_i hnext
      refine (hbelow.bare s hs hopen).congr fun ts rest n _ hsplit => and_congr_left fun _ => ?_
      constructor
      · intro hbare
        obtain ⟨opening, closing, vs, body, hts, -⟩ := id hbare
        obtain ⟨t, us, htail⟩ := List.exists_cons_of_ne_nil
          (List.append_ne_nil_of_right_ne_nil vs (List.cons_ne_nil closing []))
        rw [List.cons_append, htail] at hts
        obtain ⟨-, hlook⟩ := TokenStream.lookAhead_one (hts ▸ hsplit)
        exact (block_iff_bareLang hts (hlook ▸ hnext)).mpr hbare
      · intro hblock
        obtain ⟨us, hts, -⟩ := hfirst hsplit hblock
        exact (block_iff_bareLang hts hnext).mp hblock
    · -- Anything else: the block is a form, made into a block if it is not one.
      rename_i hnext
      rw [Bool.not_eq_true] at hnext
      refine RecognizesAt.congr (RecognizesAt.bind (hbelow.list s hs hopen)
        (H := fun form ts _ n => ts = [] ∧ n = asBlock form) fun {form _ _} _ _ => ?_) ?_
      · split
        · exact .pure
        · rename_i hother
          refine RecognizesAt.pure.congr fun ts rest n _ _ => and_congr_right fun _ => ?_
          rw [asBlock]
          exact hother
      · intro ts rest n _ hsplit
        constructor
        · rintro ⟨us, _, form, rfl, ⟨hform, hroom⟩, rfl, rfl⟩
          rw [List.append_nil] at hsplit ⊢
          exact ⟨.form hform rfl, hroom⟩
        · rintro ⟨hblock, hroom⟩
          obtain ⟨us, hts, -⟩ := hfirst hsplit hblock
          obtain ⟨form, hform, rfl⟩ := (block_iff_form hts hnext).mp hblock
          exact ⟨ts, [], form, (List.append_nil _).symm, ⟨hform, hroom⟩, rfl, rfl⟩
  · -- Nothing but a parenthesis opens a block.
    have hnone : ∀ ts rest n,
        s.stream.remaining = ts ++ rest → ¬ blockLang.Within room ts rest n := by
      rintro ts rest n hsplit ⟨hblock, -⟩
      obtain ⟨us, -, hyes⟩ := hfirst hsplit hblock
      exact hopen hyes
    split
    · exact RecognizesAt.fail hnone
    · rw [if_pos (by simpa using hopen)]
      exact RecognizesAt.fail hnone

end Parse

end FormScript
