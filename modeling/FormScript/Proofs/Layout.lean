import FormScript.Proofs.Reading
import FormScript.Proofs.Gap

/-!
# Nothing is lost between tokens

The tokens of a text and the gaps between them make up the text, and each token is spelled by the
stretch of text it covers. `Laid` says so as a walk: past a gap, past a token, past the next gap.
A gap is made up of blanks, newlines, comments, annotations and pragmas (`Gap`), and a token
carries the last annotation of the gap in front of it.

Two kinds of token stand out. A dotted name `a.b` becomes the tokens of `(. a b)`, of which the
parentheses and the point cover no text while the written point is the gap between two words. And
an annotation that no token follows becomes a token itself; it carries no annotation, also if there
is another one in front of it (`trailing_ascription_unannotated`).
-/

namespace FormScript

/-! ## Tokens and the text they cover -/

/-- The text goes on with a dotted name. -/
def DottedAhead (after : List Char) : Prop :=
  ∃ w w' rest, IsWord w ∧ IsWord w' ∧ after = w ++ '.' :: w' ++ rest

/-- A dotted name ends here. -/
def DottedBehind (before : List Char) : Prop :=
  ∃ rest w w', IsWord w ∧ IsWord w' ∧ before = rest ++ w ++ '.' :: w'

/-- How the text that a token covers spells it, given what stands before and behind. -/
def Token.SpelledBy (t : Token) (before slice after : List Char) : Prop :=
  match t.kind with
  | .identifier | .keyword | .number => slice = t.text.toList ∧ slice ≠ []
  | .string => ∃ d, IsDelimiter d ∧ slice = d ++ t.text.toList ++ d ∧ ¬ d <:+: t.text.toList
  | .ascription => slice = ':' :: t.text.toList
  | .eof => slice = [] ∧ after = []
  | .operator =>
    slice ≠ [] ∧ t.text.toList = trim slice ∨
      slice = [] ∧ ((t.text = "(" ∨ t.text = ".") ∧ DottedAhead after ∨
        t.text = ")" ∧ DottedBehind before)

/-- What stands between a token and the one before it, which ends where `past` does: pieces of a
gap, whose last annotation the token carries, or the point inside a dotted name. -/
structure Token.Follows (t : Token) (past gap rest : List Char) : Prop where
  between : (∃ names, Gap gap rest names) ∨ gap = ['.'] ∧ t.kind = .identifier ∧
    (∃ before w, IsWord w ∧ past = before ++ w) ∧ ∃ w after, IsWord w ∧ rest = w ++ after
  carries : ∀ names, Gap gap rest names →
    t.ascription = if t.kind = .ascription then none else names.getLast?
  dotted : gap = ['.'] → t.ascription = none

theorem not_gap_dot {rest : List Char} {names : List String} : ¬ Gap ['.'] rest names := by
  generalize hgap : ['.'] = gap
  rintro (_ | ⟨first, -⟩)
  · cases hgap
  · cases first <;> grind [isGap, IsPragma, IsLineCommentMark]

/-- As gaps are read in one way, one reading tells what the token carries. -/
theorem Token.follows_of_gap {t : Token} {past gap rest : List Char} {names : List String}
    (h : Gap gap rest names)
    (hcarries : t.ascription = if t.kind = .ascription then none else names.getLast?) :
    t.Follows past gap rest where
  between := .inl ⟨names, h⟩
  carries names' h' := by rw [hcarries, h.unique h' rfl]
  dotted := by
    rintro rfl
    exact absurd h not_gap_dot

/-- The tokens come one behind the other through the text, from the end of `past` on, and the last
of them ends where `upto` does. -/
inductive Laid (source : List Char) : List Char → List Token → List Char → Prop
  | nil {past : List Char} : Laid source past [] past
  | cons {past gap slice after upto : List Char} {t : Token} {ts : List Token}
      (split : past ++ gap ++ slice ++ after = source)
      (span : t.span
        = ⟨Position.start.after (past ++ gap), Position.start.after (past ++ gap ++ slice)⟩)
      (spelled : t.SpelledBy (past ++ gap) slice after)
      (follows : t.Follows past gap (slice ++ after))
      (more : Laid source (past ++ gap ++ slice) ts upto) : Laid source past (t :: ts) upto

namespace Laid

variable {source : List Char}

theorem append {a b c : List Char} {ts us : List Token} (h : Laid source a ts b)
    (h' : Laid source b us c) : Laid source a (ts ++ us) c := by
  induction h with
  | nil => exact h'
  | cons split span spelled follows _ ih => exact .cons split span spelled follows (ih h')

/-- A token that covers no text, where the token before it ends. -/
theorem point {past : List Char} (after : List Char) {upto : List Char} {t : Token}
    {ts : List Token}
    (split : past ++ after = source) (span : t.span = .point (Position.start.after past))
    (ascription : t.ascription = none) (spelled : t.SpelledBy past [] after)
    (more : Laid source past ts upto) : Laid source past (t :: ts) upto := by
  refine @Laid.cons source past [] [] after upto t ts ?_ ?_ ?_ (Token.follows_of_gap .nil ?_) ?_
  · simpa using split
  · simpa [Span.point] using span
  · simpa using spelled
  · simp [ascription]
  · simpa using more

/-- The words of a dotted name behind the first, each with the parenthesis that closes it. The walk
goes from word to word, so what was read always ends in a word. -/
theorem memberTokens (past after : List Char) {ws : List (List Char)}
    (hpast : ∃ before w, IsWord w ∧ past = before ++ w) (hws : ∀ w ∈ ws, IsWord w)
    (hsplit : past ++ ws.flatMap ('.' :: ·) ++ after = source) :
    Laid source past (memberTokens (Position.start.after past) ws)
      (past ++ ws.flatMap ('.' :: ·)) := by
  induction ws generalizing past with
  | nil =>
    rw [List.flatMap_nil, List.append_nil]
    exact .nil
  | cons w ws ih =>
    have hw : IsWord w := hws w List.mem_cons_self
    have hsplit' : past ++ '.' :: w ++ (ws.flatMap ('.' :: ·) ++ after) = source := by
      rw [← hsplit, List.flatMap_cons]
      simp only [List.append_assoc]
    have hdot : (Position.start.after past).next '.' = Position.start.after (past ++ ['.']) := by
      rw [Position.after_append]
      rfl
    have hword : ((Position.start.after past).next '.').after w
        = Position.start.after (past ++ ['.'] ++ w) := by
      rw [hdot, ← Position.after_append]
    have hmore := ih (past ++ ['.'] ++ w) ⟨past ++ ['.'], w, hw, rfl⟩
      (fun v hv => hws v (List.mem_cons_of_mem _ hv)) (by simpa using hsplit')
    obtain ⟨before, v, hv, hbefore⟩ := hpast
    unfold FormScript.memberTokens
    dsimp only
    rw [hword, hdot, show past ++ (w :: ws).flatMap ('.' :: ·)
      = past ++ ['.'] ++ w ++ ws.flatMap ('.' :: ·) by simp]
    refine @Laid.cons source past ['.'] w (ws.flatMap ('.' :: ·) ++ after) _ _ _ ?_ rfl ?_ ?_ ?_
    · simpa using hsplit'
    · exact ⟨by simp, hw.ne_nil⟩
    · exact ⟨.inr ⟨rfl, rfl, ⟨before, v, hv, hbefore⟩, w, _, hw, rfl⟩,
        fun names h => absurd h not_gap_dot, fun _ => rfl⟩
    · refine Laid.point (ws.flatMap ('.' :: ·) ++ after) ?_ rfl rfl ?_ hmore
      · simpa using hsplit'
      · refine .inr ⟨rfl, .inr ⟨rfl, before, v, w, hv, hw, ?_⟩⟩
        rw [hbefore]
        simp

/-- The parentheses and points that open a dotted name. -/
theorem memberOpenings {past after upto : List Char} {ts : List Token} (n : Nat)
    (hsplit : past ++ after = source) (hahead : DottedAhead after)
    (more : Laid source past ts upto) :
    Laid source past (memberOpenings (Position.start.after past) n ++ ts) upto := by
  induction n with
  | zero => exact more
  | succ n ih =>
    refine Laid.point _ hsplit rfl rfl (.inr ⟨rfl, .inl ⟨.inl rfl, hahead⟩⟩) ?_
    exact Laid.point _ hsplit rfl rfl (.inr ⟨rfl, .inl ⟨.inr rfl, hahead⟩⟩) ih

end Laid

/-! ## Lexemes with tokens -/

variable {source : List Char}

/-- A lexeme that is one token covers all of it. -/
theorem laid_single {past gap slice after : List Char} {names : List String} {t : Token}
    (hsplit : past ++ gap ++ slice ++ after = source) (hgap : Gap gap (slice ++ after) names)
    (hspan : t.span = ⟨Position.start.after (past ++ gap),
      (Position.start.after (past ++ gap)).after slice⟩)
    (hkind : t.kind ≠ .ascription)
    (hspelled : ∀ waiting,
      ({ t with ascription := waiting } : Token).SpelledBy (past ++ gap) slice after) :
    Laid source past [{ t with ascription := names.getLast? }] (past ++ gap ++ slice) := by
  refine .cons hsplit ?_ (hspelled _) (Token.follows_of_gap hgap ?_) .nil
  · rw [Position.after_append _ (past ++ gap) slice]
    exact hspan
  · rw [if_neg hkind]

/-- **The tokens of a dotted name.** The parentheses and dots that open it have no text of their own
and stand where the name begins; only the first of them carries the annotation that waits. -/
theorem laid_dotted {past gap after first w : List Char} {ws : List (List Char)}
    {names : List String}
    (hsplit : past ++ gap ++ (Lexeme.name first (w :: ws)).chars ++ after = source)
    (hfits : (Lexeme.name first (w :: ws)).Fits after)
    (hgap : Gap gap ((Lexeme.name first (w :: ws)).chars ++ after) names) :
    Laid source past
      (carry names.getLast?
        ((Lexeme.name first (w :: ws)).tokens (Position.start.after (past ++ gap))))
      (past ++ gap ++ (Lexeme.name first (w :: ws)).chars) := by
  obtain ⟨hfirst, hmore, -, -⟩ := hfits
  have hchars : (Lexeme.name first (w :: ws)).chars = first ++ (w :: ws).flatMap ('.' :: ·) := rfl
  rw [hchars] at hsplit hgap ⊢
  have hahead : DottedAhead (first ++ (w :: ws).flatMap ('.' :: ·) ++ after) :=
    ⟨first, w, ws.flatMap ('.' :: ·) ++ after, hfirst, hmore w List.mem_cons_self, by simp⟩
  have hstart : past ++ gap ++ (first ++ (w :: ws).flatMap ('.' :: ·) ++ after) = source := by
    rw [← hsplit]
    simp only [List.append_assoc]
  -- Behind the first parenthesis no annotation waits any more.
  have hwords : Laid source (past ++ gap ++ first)
      (memberTokens (Position.start.after (past ++ gap ++ first)) (w :: ws))
      (past ++ gap ++ first ++ (w :: ws).flatMap ('.' :: ·)) := by
    refine Laid.memberTokens _ after ⟨past ++ gap, first, hfirst, rfl⟩ hmore ?_
    rw [← hsplit]
    simp only [List.append_assoc]
  have hinner := Laid.memberOpenings ws.length hstart hahead
    (@Laid.cons source (past ++ gap) [] first ((w :: ws).flatMap ('.' :: ·) ++ after)
      (past ++ gap ++ first ++ (w :: ws).flatMap ('.' :: ·))
      { kind := .identifier, text := String.ofList first,
        span := ⟨Position.start.after (past ++ gap),
          Position.start.after (past ++ gap ++ first)⟩ }
      (memberTokens (Position.start.after (past ++ gap ++ first)) (w :: ws))
      (by rw [← hsplit]; simp) (by simp) ⟨by simp, hfirst.ne_nil⟩
      (Token.follows_of_gap .nil (by simp))
      (by rwa [List.append_nil]))
  have htokens : (Lexeme.name first (w :: ws)).tokens (Position.start.after (past ++ gap))
      = { kind := .operator, text := "(", span := .point (Position.start.after (past ++ gap)) }
        :: { kind := .operator, text := ".", span := .point (Position.start.after (past ++ gap)) }
        :: (memberOpenings (Position.start.after (past ++ gap)) ws.length
          ++ { kind := .identifier, text := String.ofList first,
               span := ⟨Position.start.after (past ++ gap),
                 Position.start.after (past ++ gap ++ first)⟩ }
            :: memberTokens (Position.start.after (past ++ gap ++ first)) (w :: ws)) := by
    rw [Position.after_append Position.start (past ++ gap) first]
    rfl
  have hcarry := @carry_none ((Lexeme.name first (w :: ws)).tokens
    (Position.start.after (past ++ gap))).tail fun t ht =>
      (Lexeme.tokens_ascription (List.mem_of_mem_tail ht)).1
  rw [htokens] at hcarry ⊢
  rw [List.tail_cons] at hcarry
  rw [carry, hcarry]
  refine @Laid.cons source past gap [] (first ++ (w :: ws).flatMap ('.' :: ·) ++ after) _ _ _
    ?_ ?_ (.inr ⟨rfl, .inl ⟨.inl rfl, hahead⟩⟩) (Token.follows_of_gap ?_ rfl) ?_
  · rw [List.append_nil, hstart]
  · rw [List.append_nil]
    rfl
  · exact hgap
  · rw [List.append_nil]
    refine Laid.point _ hstart rfl rfl (.inr ⟨rfl, .inl ⟨.inr rfl, hahead⟩⟩) ?_
    rwa [← List.append_assoc]

/-- **The tokens of a lexeme** cover it, and the first of them carries the annotation that waits. -/
theorem Lexeme.laid {l : Lexeme} {past gap after : List Char} {names : List String}
    (hsplit : past ++ gap ++ l.chars ++ after = source) (hfits : l.Fits after)
    (hne : l.chars ≠ []) (hgap : Gap gap (l.chars ++ after) names)
    (htokens : l.tokens (Position.start.after (past ++ gap)) ≠ []) :
    Laid source past
      (carry names.getLast? (l.tokens (Position.start.after (past ++ gap))))
      (past ++ gap ++ l.chars) := by
  cases l with
  | newline | blank | lineComment | blockComment | ascription | pragma =>
    exact absurd rfl htokens
  | number digits =>
    refine laid_single hsplit hgap rfl (by simp) fun _ => ?_
    exact ⟨by simp [Lexeme.chars], hne⟩
  | string d body =>
    refine laid_single hsplit hgap rfl (by simp) fun _ => ?_
    exact ⟨d, hfits.1, by simp [Lexeme.chars], by simpa using hfits.2.1⟩
  | operator spelling =>
    refine laid_single hsplit hgap rfl (by simp) fun _ => ?_
    exact .inl ⟨hne, by simp [Lexeme.chars]⟩
  | keyword spelling =>
    refine laid_single hsplit hgap rfl (by simp) fun _ => ?_
    exact ⟨by simp [Lexeme.chars], hne⟩
  | name first more =>
    cases more with
    | nil =>
      have hspelled : ∀ kind : TokenKind, (kind = .keyword ∨ kind = .identifier) → ∀ waiting span,
          ({ kind, text := String.ofList first, ascription := waiting, span } : Token).SpelledBy
            (past ++ gap) (name first []).chars after := by
        rintro kind (rfl | rfl) waiting span
        · exact ⟨by simp [Lexeme.chars], hne⟩
        · exact ⟨by simp [Lexeme.chars], hne⟩
      unfold Lexeme.tokens
      dsimp only
      split
      · exact laid_single hsplit hgap rfl (by simp) fun _ => hspelled _ (.inl rfl) _ _
      · exact laid_single hsplit hgap rfl (by simp) fun _ => hspelled _ (.inr rfl) _ _
    | cons w ws => exact laid_dotted hsplit hfits hgap

/-! ## The whole text -/

/-- How far the walk has come when `before` has been read: tokens up to the end of `past`, then a
gap whose last annotation waits. The annotation that waits stands somewhere in the gap, and none
follows it there. -/
structure Scan.Walked (source before cs : List Char) (s : Scan) : Prop where
  split : before ++ cs = source
  cursor : s.cursor = Cursor.start.after before
  plain : ∀ t ∈ s.tokens.toList, t.kind ≠ .ascription
  walk : ∃ past gap names, before = past ++ gap ∧ Laid source [] s.tokens.toList past ∧
    Gap gap cs names ∧ s.waiting = names.getLast? ∧
    ∀ w span, s.pending = some (w, span) → ∃ gap₁ v gap₂ names₁,
      w = String.ofList v ∧ gap = gap₁ ++ (':' :: v) ++ gap₂ ∧
      span = ⟨Position.start.after (past ++ gap₁),
        Position.start.after (past ++ gap₁ ++ ':' :: v)⟩ ∧
      Gap gap₁ ((':' :: v) ++ gap₂ ++ cs) names₁ ∧ Gap gap₂ cs []

namespace Scan

theorem walked_start (source : List Char) : Walked source [] source {} :=
  ⟨rfl, rfl, by simp, [], [], [], rfl, .nil, .nil, rfl, by simp⟩

theorem Walked.position {before cs : List Char} {s : Scan} (h : Walked source before cs s) :
    s.cursor.position = Position.start.after before := by
  rw [h.cursor, Cursor.position_after]
  rfl

/-- The annotation that waits after a lexeme is the lexeme, if that is an annotation. -/
theorem observe_waiting (s : Scan) (l : Lexeme) :
    (s.observe l).waiting = l.names.getLast?.or s.waiting := by
  cases l <;> rfl

/-- **One lexeme further.** A lexeme without tokens makes the gap longer; one with tokens ends the
gap, and a new one begins behind it. -/
theorem Walked.accept {track : Bool} {before : List Char} {c : Char} {cs rest : List Char}
    {l : Lexeme} {s s' : Scan} (h : Walked source before (c :: cs) s)
    (hread : Lexeme.read c cs = .ok (l, rest)) (haccept : s.accept track l = .ok s') :
    Walked source (before ++ l.chars) rest s' := by
  obtain ⟨hcursor, htokens, hpending⟩ := accept_ok haccept
  obtain ⟨hchars, hne⟩ := Lexeme.read_eq hread
  have hfits := Lexeme.fits_of_read hread
  have hposition := h.position
  have hsplit : before ++ l.chars ++ rest = source := by
    rw [List.append_assoc, hchars, h.split]
  have hplain : ∀ t ∈ s'.tokens.toList, t.kind ≠ .ascription := by
    intro t ht
    rw [htokens, List.mem_append] at ht
    rcases ht with ht | ht
    · exact h.plain t ht
    · obtain ⟨u, hu, hkind, -⟩ := mem_carry ht
      rw [hkind]
      exact (Lexeme.tokens_ascription hu).2.1
  refine ⟨hsplit, by rw [hcursor, h.cursor, Cursor.after_append], hplain, ?_⟩
  obtain ⟨past, gap, names, rfl, hlaid, hgap, hwaiting, hspan⟩ := h.walk
  rw [← hchars] at hgap
  by_cases hsilent : l.tokens s.cursor.position = []
  · -- The gap goes on.
    rw [if_pos hsilent] at hpending
    refine ⟨past, gap ++ l.chars, names ++ l.names, by simp, ?_, hgap.snoc hfits hsilent, ?_, ?_⟩
    · rw [htokens, hsilent]
      simpa [carry] using hlaid
    · rw [waiting, hpending]
      exact (observe_waiting s l).trans (by rw [List.getLast?_append, hwaiting])
    · intro w span hw
      rw [hpending] at hw
      by_cases hname : l.names = []
      · -- The annotation waited before, and the lexeme stands behind it.
        have hold : s.pending = some (w, span) := by
          rcases observe_pending s l with hsame | ⟨v, rfl, -⟩
          · rwa [← hsame]
          · cases hname
        obtain ⟨gap₁, v, gap₂, names₁, rfl, rfl, hv, hgap₁, hgap₂⟩ := hspan _ _ hold
        rw [← hchars] at hgap₁ hgap₂
        refine ⟨gap₁, v, gap₂ ++ l.chars, names₁, rfl, by simp, hv, ?_, ?_⟩
        · simpa using hgap₁
        · have hmore := hgap₂.snoc hfits hsilent
          rwa [hname] at hmore
      · -- The lexeme is the annotation.
        obtain ⟨v, rfl⟩ : ∃ v, l = .ascription v := by
          cases l with
          | ascription v => exact ⟨v, rfl⟩
          | _ => exact absurd rfl hname
        obtain ⟨rfl, rfl⟩ : String.ofList v = w ∧
            (⟨s.cursor.position, s.cursor.position.after (':' :: v)⟩ : Span) = span := by
          simpa [observe, Lexeme.chars] using hw
        refine ⟨gap, v, [], names, rfl, by simp [Lexeme.chars], ?_, ?_, .nil⟩
        · rw [hposition, ← Position.after_append]
        · simpa [Lexeme.chars] using hgap
  · -- The gap ends here: its last annotation goes to the first token, and none waits any more.
    rw [if_neg hsilent] at hpending
    have hname : l.names = [] := by
      cases l with
      | ascription v => exact absurd rfl hsilent
      | _ => rfl
    have hcarried : (s.observe l).waiting = names.getLast? := by
      rw [observe_waiting, hname, hwaiting]
      rfl
    refine ⟨past ++ gap ++ l.chars, [], [], by simp, ?_, .nil, ?_, ?_⟩
    · rw [htokens, hcarried, hposition]
      rw [hposition] at hsilent
      exact hlaid.append (Lexeme.laid hsplit hfits hne hgap hsilent)
    · rw [waiting, hpending]
      rfl
    · intro w span hw
      rw [hpending] at hw
      cases hw

/-- **The tokens of a whole text**, the last of which is the end of input. -/
theorem laid_of_ofSource {track : Bool} {s : Scan} (h : ofSource source track = .ok s) :
    Laid source [] s.tokens.toList source ∧ ∃ ts us,
      s.tokens.toList = ts ++ us ++ [Token.closing (.point (Position.start.after source))] ∧
        (∀ t ∈ ts, t.kind ≠ .ascription) ∧ us.length ≤ 1 := by
  obtain ⟨s', hrun, hfinish⟩ := ofSource_ok h
  have hwalked : Walked source ([] ++ source) [] s' :=
    run_invariant (fun h hread haccept => h.accept hread haccept) (walked_start source) hrun
  obtain ⟨-, -, htokens⟩ := finish_ok hfinish
  rw [htokens]
  have hposition := hwalked.position
  obtain ⟨past, gap, names, heq, hlaid, hgap, hwaiting, hspan⟩ := hwalked.walk
  rw [List.nil_append] at heq hposition
  -- The end of input stands behind the last piece of the gap.
  have hend : ∀ past' gap', past' ++ gap' = source → Gap gap' [] [] →
      Laid source past' [.closing (.point s'.cursor.position)] source := by
    intro past' gap' hsplit hgap'
    have hclosing := @Laid.cons source past' gap' [] [] _
      (.closing (.point s'.cursor.position)) [] ?_ ?_ ⟨rfl, rfl⟩
      (Token.follows_of_gap hgap' rfl) .nil
    · rwa [List.append_nil, hsplit] at hclosing
    · rw [List.append_nil, List.append_nil, hsplit]
    · rw [List.append_nil, hsplit, hposition]
      rfl
  refine ⟨?_, _, _, by rw [hposition], hwalked.plain, Option.length_toList_le⟩
  rw [List.append_assoc]
  refine hlaid.append ?_
  cases hpending : s'.pending with
  | none =>
    have hnames : names = [] := by
      rw [← List.getLast?_eq_none_iff, ← hwaiting, waiting, hpending]
      rfl
    rw [hnames] at hgap
    exact hend past gap heq.symm hgap
  | some pending =>
    obtain ⟨w, span⟩ := pending
    obtain ⟨gap₁, v, gap₂, names₁, rfl, rfl, rfl, hgap₁, hgap₂⟩ := hspan w span hpending
    have hsplit : past ++ gap₁ ++ (':' :: v) ++ gap₂ = source := by
      rw [heq]
      simp only [List.append_assoc]
    rw [List.append_nil] at hgap₁
    exact .cons hsplit rfl (by simp [Token.SpelledBy]) (Token.follows_of_gap hgap₁ rfl)
      (hend _ gap₂ hsplit hgap₂)

end Scan

/-! ## Order, spelling and gaps -/

/-- Where the last of some tokens ends. -/
def tokensEnd (ts : List Token) : Nat := (ts.getLast?.map (·.span.stop.offset)).getD 0

namespace Laid

theorem offset_start_after (cs : List Char) : (Position.start.after cs).offset = byteLength cs := by
  rw [Position.offset_after]
  exact Nat.zero_add _

/-- A walk over two lists of tokens is one over the first and one over the second. -/
theorem split {a c : List Char} {ts us : List Token} (h : Laid source a (ts ++ us) c) :
    ∃ b, Laid source a ts b ∧ Laid source b us c := by
  induction ts generalizing a with
  | nil => exact ⟨a, .nil, h⟩
  | cons t ts ih =>
    obtain _ | ⟨split, span, spelled, follows, more⟩ := h
    obtain ⟨b, hts, hus⟩ := ih more
    exact ⟨b, .cons split span spelled follows hts, hus⟩

theorem byteLength_eq {a b : List Char} {ts : List Token} (h : Laid source a ts b) :
    byteLength b = (ts.getLast?.map (·.span.stop.offset)).getD (byteLength a) := by
  induction h with
  | nil => rfl
  | @cons past gap slice after upto t ts split span _ _ _ ih =>
    rw [ih, List.getLast?_cons]
    cases ts.getLast? with
    | none => simp [span, offset_start_after]
    | some u => rfl

/-- Each token starts behind the walk's start, and ends behind its own. -/
theorem ascending {a b : List Char} {ts : List Token} (h : Laid source a ts b) :
    (∀ t ∈ ts, byteLength a ≤ t.span.start.offset ∧ t.span.start.offset ≤ t.span.stop.offset) ∧
      ts.Pairwise fun t u => t.span.stop.offset ≤ u.span.start.offset := by
  induction h with
  | nil => simp
  | @cons past gap slice after upto t ts split span _ _ _ ih =>
    obtain ⟨hle, hpairs⟩ := ih
    have hstart : t.span.start.offset = byteLength past + byteLength gap := by
      rw [span, offset_start_after, byteLength_append]
    have hstop : t.span.stop.offset = byteLength past + byteLength gap + byteLength slice := by
      rw [span, offset_start_after, byteLength_append, byteLength_append]
    simp only [byteLength_append] at hle
    refine ⟨?_, List.pairwise_cons.mpr ⟨?_, hpairs⟩⟩
    · intro u hu
      rcases List.mem_cons.mp hu with rfl | hu
      · omega
      · have := hle u hu
        omega
    · intro u hu
      have := (hle u hu).1
      omega

end Laid

/-- What it means for tokens to account for a text: they stand in order and apart, the last one is
the end of input where the text ends, each is spelled by the text it covers, and what stands between
it and the token before it is a gap, whose last annotation it carries, or the point inside a dotted
name. -/
structure AccountsFor (source : List Char) (tokens : List Token) : Prop where
  upright : ∀ t ∈ tokens, t.span.start.offset ≤ t.span.stop.offset
  ordered : tokens.Pairwise fun t u => t.span.stop.offset ≤ u.span.start.offset
  closed : tokens.getLast? = some (.closing (.point (Position.start.after source)))
  trailing : ∀ ts t us, tokens = ts ++ t :: us → t.kind = .ascription → us.length = 1
  covers : ∀ ts t us, tokens = ts ++ t :: us →
    ∃ past gap slice after, past ++ gap ++ slice ++ after = source ∧
      byteLength past = tokensEnd ts ∧
      t.span = ⟨Position.start.after (past ++ gap), Position.start.after (past ++ gap ++ slice)⟩ ∧
      t.SpelledBy (past ++ gap) slice after ∧ t.Follows past gap (slice ++ after)

/-- **Nothing is lost between tokens.** -/
theorem tokens_account_for_source {source : List Char} {track : Bool} {stream : TokenStream}
    {tally : Tally} (h : tokenize source track = .ok (stream, tally)) :
    AccountsFor source stream.remaining := by
  obtain ⟨s, hs, rfl, -⟩ := Scan.ofSource_of_tokenize h
  obtain ⟨hlaid, ts₀, us₀, htokens, hplain, hlength⟩ := Scan.laid_of_ofSource hs
  rw [Scan.stream_remaining hs]
  refine ⟨fun t ht => (hlaid.ascending.1 t ht).2, hlaid.ascending.2, ?_, ?_, ?_⟩
  · rw [htokens, List.getLast?_concat]
  · intro ts t us heq hkind
    rw [htokens, List.append_assoc, List.append_eq_append_iff] at heq
    have hplace : ∃ c,
        us₀ ++ [Token.closing (.point (Position.start.after source))] = c ++ t :: us := by
      rcases heq with ⟨c, -, hc⟩ | ⟨c, hts, hc⟩
      · exact ⟨c, hc⟩
      · cases c with
        | nil => exact ⟨[], hc.symm⟩
        | cons u c =>
          obtain ⟨rfl, -⟩ := List.cons.inj hc
          exact absurd hkind (hplain t (by simp [hts]))
    obtain ⟨c, hc⟩ := hplace
    have hlast : us ≠ [] := by
      rintro rfl
      have hclosing := congrArg List.getLast? hc
      rw [List.getLast?_concat, List.getLast?_concat] at hclosing
      cases hclosing
      cases hkind
    have hus := List.length_pos_iff.mpr hlast
    have hsum := congrArg List.length hc
    simp only [List.length_append, List.length_cons, List.length_nil] at hsum
    omega
  intro ts t us heq
  rw [heq] at hlaid
  obtain ⟨past, hbefore, hrest⟩ := hlaid.split
  obtain _ | ⟨split, span, spelled, follows, -⟩ := hrest
  exact ⟨past, _, _, _, split, hbefore.byteLength_eq, span, spelled, follows⟩

/-- An annotation in front of a dotted name, with a comment behind it. -/
theorem tokens_account_for_dotted_name :
    ∃ stream tally,
      tokenize [':', 't', ' ', 'a', '.', 'b', ' ', '/', '/', ' ', 'c'] = .ok (stream, tally) ∧
        AccountsFor [':', 't', ' ', 'a', '.', 'b', ' ', '/', '/', ' ', 'c'] stream.remaining := by
  have hname : Lexeme.read 'a' ['.', 'b', ' ', '/', '/', ' ', 'c']
      = .ok (.name ['a'] [['b']], [' ', '/', '/', ' ', 'c']) := by
    have hmore : Lexeme.readMore [] ['.', 'b', ' ', '/', '/', ' ', 'c']
        = ([['b']], [' ', '/', '/', ' ', 'c']) :=
      (Lexeme.readMore_dot [] rfl).trans (Lexeme.readMore_of_ends [['b']] (ends_cons.mpr rfl))
    show Lexeme.readName ['a', '.', 'b', ' ', '/', '/', ' ', 'c'] = _
    unfold Lexeme.readName
    rw [show List.dropWhile isWordChar ['a', '.', 'b', ' ', '/', '/', ' ', 'c']
      = ['.', 'b', ' ', '/', '/', ' ', 'c'] from rfl, hmore]
    rfl
  have hreads : Reads [':', 't', ' ', 'a', '.', 'b', ' ', '/', '/', ' ', 'c']
      [.ascription ['t'], .blank ' ', .name ['a'] [['b']], .blank ' ',
        .lineComment ['/', '/', ' ', 'c']] :=
    .cons (by rfl) (.cons (by rfl) (.cons hname (.cons (by rfl) (.cons (by rfl) .nil))))
  have htokenize := Scan.tokenize_of_ofSource
    ((@Scan.ofSource_of_reads false _ _ (by decide) hreads).trans rfl)
  exact ⟨_, _, htokenize, tokens_account_for_source htokenize⟩

/-- **The exception.** Not every token carries the last annotation of the gap in front of it: an
annotation that no token follows becomes a token, and of two such the second carries nothing. -/
theorem trailing_ascription_unannotated :
    ¬ ∀ source track stream tally, tokenize source track = .ok (stream, tally) →
      ∀ ts t us, stream.remaining = ts ++ t :: us →
        ∀ past gap rest names, past ++ gap ++ rest = source → byteLength past = tokensEnd ts →
          t.span.start.offset = byteLength (past ++ gap) → Gap gap rest names →
            t.ascription = names.getLast? := by
  intro h
  have hreads :
      Reads [':', 'a', ' ', ':', 'b'] [.ascription ['a'], .blank ' ', .ascription ['b']] :=
    .cons (by rfl) (.cons (by rfl) (.cons (by rfl) .nil))
  have htokenize := Scan.tokenize_of_ofSource
    ((@Scan.ofSource_of_reads false _ _ (by decide) hreads).trans rfl)
  have hgap : Gap ([':', 'a'] ++ ([' '] ++ [])) [':', 'b'] (["a"] ++ ([] ++ [])) :=
    .cons (.ascription ⟨by decide, by simp⟩ (ends_cons.mpr (by decide)))
      (.cons (.blank (by decide)) .nil)
  have hcarries := h _ _ _ _ htokenize [] _ _ rfl [] _ _ _ rfl rfl rfl hgap
  cases hcarries

end FormScript
