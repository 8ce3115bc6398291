import FormScript.Proofs.Layout
import FormScript.Proofs.Spelling
import FormScript.Proofs.Utf8

/-!
# Words are never split

Letters, digits and underscores that stand together are one word, and tokens take words whole: no
such character follows an identifier or a keyword, and none stands in front of it unless a number
ends there (`1x` is two tokens). What has to be seen for this is which characters a lexeme may end
with (`Lexeme.ends_of_fits`).

Whether a word is a keyword is settled by the table, although only the first entry that fits is
tried: no entry is the beginning of a later one (`keyword?_of_mem`). So when a name has been read
and the table is asked a second time, the answer is no. The words of a dotted name are not looked
up at all, and they are identifiers whatever they spell. They are told from other words by the
tokens without text that come with them (`Token.IsSegment`).
-/

namespace FormScript

/-! ## Keywords -/

theorem has_keyword_iff (w : List Char) :
    Category.keyword.has (String.ofList w) = true ↔ w ∈ keywordSpellings := by
  have hwords : Category.keyword.has (String.ofList w) = keywordWords.contains (String.ofList w) :=
    rfl
  rw [hwords, List.contains_iff_mem, keywordSpellings, List.mem_map]
  constructor
  · intro h
    exact ⟨_, h, String.toList_ofList⟩
  · rintro ⟨k, hk, rfl⟩
    rwa [String.ofList_toList]

/-- No keyword is the beginning of a later one. Each begins as a word does, and where one is the
beginning of another, more of a word follows there. -/
theorem keywordSpellings_spec :
    keywordSpellings.Pairwise (fun k k' => k.isPrefixOf k' = false) ∧
    ∀ k ∈ keywordSpellings, k.head?.any isWordChar = true ∧ ∀ k' ∈ keywordSpellings,
      k.isPrefixOf k' = true → k = k' ∨ (k'.drop k.length).head?.any isWordChar = true := by
  decide +kernel

theorem firstMatch?_keyword {k rest : List Char} (hk : k ∈ keywordSpellings)
    (hrest : Ends isWordChar rest) : firstMatch? keywordSpellings (k ++ rest) = some k := by
  have hmatch : k.isPrefixOf (k ++ rest) = true :=
    List.isPrefixOf_iff_prefix.mpr (List.prefix_append k rest)
  cases hfirst : firstMatch? keywordSpellings (k ++ rest) with
  | none => exact absurd hmatch (List.find?_eq_none.mp hfirst k hk)
  | some w =>
    obtain ⟨hsplit, hw⟩ := Lexeme.firstMatch?_eq hfirst
    rcases List.prefix_or_prefix_of_prefix ⟨_, hsplit⟩ (List.prefix_append k rest) with h | h
    · -- A shorter entry stands behind the longer one in the table, which fits as well.
      obtain ⟨-, before, after, htable, hbefore⟩ := List.find?_eq_some_iff_append.mp hfirst
      have hpairwise := keywordSpellings_spec.1
      rw [htable] at hk hpairwise
      rcases List.mem_append.mp hk with hk | hk
      · have hno := hbefore k hk
        rw [hmatch] at hno
        cases hno
      rcases List.mem_cons.mp hk with rfl | hk
      · rfl
      · have hno := List.rel_of_pairwise_cons (List.pairwise_append.mp hpairwise).2.1 hk
        rw [List.isPrefixOf_iff_prefix.mpr h] at hno
        cases hno
    · -- A longer entry goes on with a word, and the text does not.
      rcases (keywordSpellings_spec.2 k hk).2 w hw (List.isPrefixOf_iff_prefix.mpr h) with
        rfl | hmore
      · rfl
      obtain ⟨more, rfl⟩ := h
      rw [List.append_assoc, List.append_cancel_left_eq] at hsplit
      rw [List.drop_left] at hmore
      cases more with
      | nil => cases hmore
      | cons c more =>
        rw [← hsplit] at hrest
        have hc : isWordChar c = true := hmore
        rw [ends_cons.mp hrest] at hc
        cases hc

/-- **A keyword is found** wherever no word goes on behind it. -/
theorem keyword?_of_mem {k rest : List Char} (hk : k ∈ keywordSpellings)
    (hrest : Ends isWordChar rest) : Lexeme.keyword? (k ++ rest) = some (k, rest) := by
  have hends : ¬ (rest.head?.map isWordChar).getD false = true := by
    cases rest with
    | nil => exact Bool.false_ne_true
    | cons c rest => exact Bool.eq_false_iff.mp (ends_cons.mp hrest)
  rw [Lexeme.keyword?, firstMatch?_keyword hk hrest]
  show (if (((k ++ rest).drop k.length).head?.map isWordChar).getD false = true then none
    else some (k, (k ++ rest).drop k.length)) = _
  rw [List.drop_left, if_neg hends]

/-- **A name without points is no keyword**, so the second look at the table is for nothing. -/
theorem Lexeme.not_keyword_of_read {c : Char} {cs word rest : List Char}
    (h : read c cs = .ok (name word [], rest)) :
    Category.keyword.has (String.ofList word) = false := by
  obtain ⟨hword, -, -, hends⟩ := fits_of_read h
  have hchars : word ++ rest = c :: cs := by
    have := (read_eq h).1
    rwa [chars, List.flatMap_nil, List.append_nil] at this
  have hstart : isWordStart c = true := by
    cases word with
    | nil => exact hword.elim
    | cons d word =>
      rw [← (List.cons.inj hchars).1]
      exact hword.1
  by_cases hkeyword : Category.keyword.has (String.ofList word) = true
  · have hfound := keyword?_of_mem ((has_keyword_iff word).mp hkeyword) hends
    rw [read_of_isWordStart cs hstart, ← hchars, hfound] at h
    cases h
  · rwa [Bool.not_eq_true] at hkeyword

/-! ## The last characters of lexemes -/

theorem getLast?_of_closesComments {n : Nat} {cs : List Char} (hn : n ≠ 0)
    (h : closesComments n cs = true) : cs.getLast? = some '/' := by
  fun_induction closesComments n cs with
  | case1 => exact absurd rfl hn
  | case2 => cases h
  | case3 n cs ih =>
    rw [List.getLast?_cons, List.getLast?_cons, ih (Nat.succ_ne_zero _) h]
    rfl
  | case4 n cs ih =>
    -- Behind the last closing mark there is nothing.
    cases n with
    | zero =>
      cases cs with
      | nil => rfl
      | cons c cs => cases h
    | succ n =>
      rw [List.getLast?_cons, List.getLast?_cons, ih (Nat.succ_ne_zero _) h]
      rfl
  | case5 n c cs _ _ ih =>
    rw [List.getLast?_cons, ih (Nat.succ_ne_zero _) h]
    rfl

theorem not_isWordChar_of_getLast?_operator : ∀ w ∈ operatorSpellings,
    w.getLast?.any isWordChar = false := by decide +kernel

theorem isWordChar_of_isGap {c : Char} (h : isGap c = true) : isWordChar c = false := by
  rw [isGap, Bool.or_eq_true, beq_iff_eq, beq_iff_eq] at h
  rcases h with rfl | rfl
  · decide
  · decide

/-- **A lexeme that ends like a word ends with it**, unless it is a number. -/
theorem Lexeme.ends_of_fits {l : Lexeme} {rest : List Char} (h : l.Fits rest)
    (hlast : l.chars.getLast?.any isWordChar = true) :
    Ends isWordChar rest ∨ ∃ digits, l = number digits := by
  cases l with
  | newline => cases hlast
  | blank c =>
    have hc : isWordChar c = true := hlast
    rw [isWordChar_of_isGap h] at hc
    cases hc
  | number digits => exact .inr ⟨digits, rfl⟩
  | string delimiter body =>
    obtain ⟨⟨quote, hquote, hdelimiter⟩, -⟩ := h
    have hend : (delimiter ++ body ++ delimiter).getLast? = some quote := by
      rcases hdelimiter with rfl | rfl
      · rw [List.getLast?_concat]
      · rw [List.getLast?_append]
        rfl
    rw [chars, hend] at hlast
    rcases hquote with rfl | rfl | rfl <;> exact absurd hlast (by decide)
  | lineComment text =>
    refine .inl fun c hc => ?_
    have hnewline := h.2.2 c hc
    rw [bne_eq_false_iff_eq] at hnewline
    rw [hnewline]
    decide
  | blockComment text depth =>
    obtain ⟨body, rfl, hcloses⟩ := h
    rw [chars, List.getLast?_cons, List.getLast?_cons,
      getLast?_of_closesComments (Nat.succ_ne_zero 0) hcloses] at hlast
    exact absurd hlast (by decide)
  | ascription w => exact .inl h.2
  | operator spelling =>
    rw [chars, not_isWordChar_of_getLast?_operator spelling h] at hlast
    cases hlast
  | keyword spelling => exact .inl h.2
  | pragma text dialect => exact .inl fun c hc => (Bool.or_eq_false_iff.mp (h.2 c hc)).1
  | name first more => exact .inl h.2.2.2

/-! ## Words as tokens -/

/-- A word of a text, as a token: what stands before and behind it, and that no word goes on. -/
structure WordAt (source : List Char) (t : Token) (past after : List Char) : Prop where
  split : past ++ t.text.toList ++ after = source
  span : t.span = ⟨Position.start.after past, Position.start.after (past ++ t.text.toList)⟩
  starts : t.text.toList.head?.any isWordChar = true
  ends : Ends isWordChar after

/-- A token without text that tells a word from others: the point in front of the first word of a
dotted name, or the parenthesis behind one of the other words. -/
def Token.Marks (u t : Token) : Prop :=
  u.isSymbol "." = true ∧ u.span = .point t.span.start ∨
    u.isClose = true ∧ u.span = .point t.span.stop

/-- The token is a word of a dotted name. -/
def Token.IsSegment (tokens : List Token) (t : Token) : Prop := ∃ u ∈ tokens, u.Marks t

theorem WordAt.offsets {source past after : List Char} {t : Token}
    (h : WordAt source t past after) :
    t.span.start.offset = byteLength past ∧
      t.span.stop.offset = byteLength past + byteLength t.text.toList ∧
      t.span.start.offset < t.span.stop.offset := by
  have hpos : 0 < byteLength t.text.toList := by
    cases htext : t.text.toList with
    | nil =>
      have := h.starts
      rw [htext] at this
      cases this
    | cons c cs =>
      have := c.utf8Size_pos
      rw [byteLength_cons]
      omega
  have hstart : t.span.start.offset = byteLength past := by
    rw [h.span, Laid.offset_start_after]
  have hstop : t.span.stop.offset = byteLength past + byteLength t.text.toList := by
    rw [h.span, Laid.offset_start_after, byteLength_append]
  exact ⟨hstart, hstop, by omega⟩

theorem head?_of_isWord {w : List Char} (h : IsWord w) : w.head?.any isWordChar = true := by
  cases w with
  | nil => exact h.elim
  | cons c w => exact isWordChar_of_isWordStart h.1

section Lexeme

variable {source : List Char}

/-- The words of a dotted name behind the first: a point stands in front of each, and a parenthesis
without text behind. -/
theorem wordAt_of_mem_memberTokens {past after : List Char} {ws : List (List Char)}
    (hws : ∀ w ∈ ws, IsWord w) (hafter : Ends isWordChar after)
    (hsplit : past ++ ws.flatMap ('.' :: ·) ++ after = source) {t : Token}
    (ht : t ∈ memberTokens (Position.start.after past) ws) :
    (t.kind = .identifier ∧
      (∃ past' after', WordAt source t past' after' ∧ past'.getLast? = some '.') ∧
      ∃ u ∈ memberTokens (Position.start.after past) ws, u.Marks t) ∨
    t.kind = .operator := by
  induction ws generalizing past with
  | nil => exact absurd ht List.not_mem_nil
  | cons w ws ih =>
    have hw := hws w List.mem_cons_self
    have hdot : (Position.start.after past).next '.' = Position.start.after (past ++ ['.']) := by
      rw [Position.after_append]
      rfl
    have hword : (Position.start.after (past ++ ['.'])).after w
        = Position.start.after (past ++ ['.'] ++ w) := by
      rw [← Position.after_append]
    have hsplit' : past ++ ['.'] ++ w ++ (ws.flatMap ('.' :: ·) ++ after) = source := by
      rw [← hsplit, List.flatMap_cons]
      simp
    have hends : Ends isWordChar (ws.flatMap ('.' :: ·) ++ after) := by
      cases ws with
      | nil => exact hafter
      | cons v ws => exact ends_cons.mpr (by decide)
    unfold memberTokens at ht ⊢
    dsimp only at ht ⊢
    rw [hdot, hword] at ht ⊢
    rcases List.mem_cons.mp ht with rfl | ht
    · refine .inl ⟨rfl,
        ⟨past ++ ['.'], ws.flatMap ('.' :: ·) ++ after, ?_, List.getLast?_concat⟩, ?_⟩
      · refine ⟨?_, ?_, ?_, hends⟩
        · rw [String.toList_ofList]
          exact hsplit'
        · rw [String.toList_ofList]
        · rw [String.toList_ofList]
          exact head?_of_isWord hw
      · exact ⟨_, List.mem_cons_of_mem _ List.mem_cons_self, .inr ⟨rfl, rfl⟩⟩
    rcases List.mem_cons.mp ht with rfl | ht
    · exact .inr rfl
    · rw [← List.append_assoc] at hsplit'
      refine (ih (fun v hv => hws v (List.mem_cons_of_mem _ hv)) hsplit' ht).imp_left ?_
      rintro ⟨hkind, hat, u, hu, hmarks⟩
      exact ⟨hkind, hat, u, List.mem_cons_of_mem _ (List.mem_cons_of_mem _ hu), hmarks⟩

/-- The token takes a word from a lexeme behind `before`, which has the tokens `ts`: a word of a
dotted name, or one that is all of the lexeme. -/
def Token.TakesWord (source before : List Char) (ts : List Token) (t : Token) : Prop :=
  ∃ past after, WordAt source t past after ∧ (past = before ∨ past.getLast? = some '.') ∧
    ((∃ u ∈ ts, u.Marks t) ∧ t.kind = .identifier ∧
        (after.head? = some '.' ∨ past.getLast? = some '.') ∨
      past = before ∧ ts = [t] ∧ (t.kind = .keyword ↔ Category.keyword.has t.text = true))

theorem takesWord_single {before rest w : List Char} {kind : TokenKind} {t : Token}
    (hsplit : before ++ w ++ rest = source) (hstart : w.head?.any isWordChar = true)
    (hends : Ends isWordChar rest)
    (hkind : kind = .keyword ↔ Category.keyword.has (String.ofList w) = true)
    (ht : t = { kind := kind, text := String.ofList w, span :=
      ⟨Position.start.after before, (Position.start.after before).after w⟩ }) :
    t.TakesWord source before [t] := by
  subst ht
  refine ⟨before, rest, ⟨?_, ?_, ?_, hends⟩, .inl rfl, .inr ⟨rfl, rfl, hkind⟩⟩
  · rwa [String.toList_ofList]
  · rw [String.toList_ofList, Position.after_append]
  · rwa [String.toList_ofList]

theorem memberOpenings_kind {p : Position} {n : Nat} {t : Token} (h : t ∈ memberOpenings p n) :
    t.kind = .operator ∧ t.isClose = false := by
  induction n with
  | zero => exact absurd h List.not_mem_nil
  | succ n ih =>
    rcases List.mem_cons.mp h with rfl | h
    · exact ⟨rfl, rfl⟩
    rcases List.mem_cons.mp h with rfl | h
    · exact ⟨rfl, rfl⟩
    · exact ih h

theorem takesWord_dotted {before rest first w : List Char} {ws : List (List Char)}
    (hsplit : before ++ (Lexeme.name first (w :: ws)).chars ++ rest = source)
    (hfits : (Lexeme.name first (w :: ws)).Fits rest) {t : Token}
    (ht : t ∈ (Lexeme.name first (w :: ws)).tokens (Position.start.after before))
    (hkind : t.kind = .identifier ∨ t.kind = .keyword) :
    t.TakesWord source before
      ((Lexeme.name first (w :: ws)).tokens (Position.start.after before)) := by
  obtain ⟨hfirst, hmore, -, hends⟩ := hfits
  have hsplit' : before ++ first ++ (w :: ws).flatMap ('.' :: ·) ++ rest = source := by
    rw [← hsplit, Lexeme.chars]
    simp only [List.append_assoc]
  have htokens : (Lexeme.name first (w :: ws)).tokens (Position.start.after before)
      = memberOpenings (Position.start.after before) (ws.length + 1) ++
        { kind := .identifier, text := String.ofList first,
          span := ⟨Position.start.after before, Position.start.after (before ++ first)⟩ } ::
          memberTokens (Position.start.after (before ++ first)) (w :: ws) := by
    rw [Position.after_append]
    rfl
  have hno : t.kind ≠ .operator := by
    rcases hkind with hkind | hkind <;> rw [hkind] <;> decide
  rw [htokens] at ht ⊢
  rcases List.mem_append.mp ht with ht | ht
  · exact absurd (memberOpenings_kind ht).1 hno
  rcases List.mem_cons.mp ht with rfl | ht
  · have hpoint : (
        { kind := .operator, text := ".", span := .point (Position.start.after before) } :
        Token) ∈ memberOpenings (Position.start.after before) (ws.length + 1) :=
      List.mem_cons_of_mem _ List.mem_cons_self
    refine ⟨before, (w :: ws).flatMap ('.' :: ·) ++ rest, ⟨?_, ?_, ?_, ?_⟩, .inl rfl,
      .inl ⟨⟨_, List.mem_append_left _ hpoint, .inl ⟨rfl, rfl⟩⟩, rfl, .inl rfl⟩⟩
    · rw [String.toList_ofList, ← hsplit']
      simp only [List.append_assoc]
    · rw [String.toList_ofList]
    · rw [String.toList_ofList]
      exact head?_of_isWord hfirst
    · exact ends_cons.mpr (by decide)
  · rcases wordAt_of_mem_memberTokens hmore hends hsplit' ht with
      ⟨hident, ⟨past, after, hat, hdot⟩, u, hu, hmarks⟩ | hsymbol
    · exact ⟨past, after, hat, .inr hdot,
        .inl ⟨⟨u, List.mem_append_right _ (List.mem_cons_of_mem _ hu), hmarks⟩, hident, .inr hdot⟩⟩
    · exact absurd hsymbol hno

/-- **The words of a lexeme.** -/
theorem takesWord_of_read {l : Lexeme} {before rest : List Char} {c : Char} {cs : List Char}
    (hread : Lexeme.read c cs = .ok (l, rest)) (hsplit : before ++ l.chars ++ rest = source)
    {t : Token} (ht : t ∈ l.tokens (Position.start.after before))
    (hkind : t.kind = .identifier ∨ t.kind = .keyword) :
    t.TakesWord source before (l.tokens (Position.start.after before)) := by
  have hfits := Lexeme.fits_of_read hread
  cases l with
  | newline | blank | lineComment | blockComment | ascription | pragma =>
    exact absurd ht List.not_mem_nil
  | number | string | operator =>
    obtain rfl := List.mem_singleton.mp ht
    rcases hkind with hkind | hkind <;> cases hkind
  | keyword w =>
    obtain rfl := List.mem_singleton.mp ht
    refine takesWord_single hsplit (keywordSpellings_spec.2 w hfits.1).1 hfits.2 ?_ rfl
    exact iff_of_true rfl ((has_keyword_iff w).mpr hfits.1)
  | name first more =>
    cases more with
    | nil =>
      have hno := Lexeme.not_keyword_of_read hread
      rw [Lexeme.chars, List.flatMap_nil, List.append_nil] at hsplit
      have htokens : (Lexeme.name first []).tokens (Position.start.after before)
          = [{ kind := .identifier, text := String.ofList first, span :=
            ⟨Position.start.after before, (Position.start.after before).after first⟩ }] := by
        unfold Lexeme.tokens
        dsimp only
        rw [hno, Lexeme.chars, List.flatMap_nil, List.append_nil]
        rfl
      rw [htokens, List.mem_singleton] at ht
      rw [htokens, ← ht]
      refine takesWord_single hsplit (head?_of_isWord hfits.1) hfits.2.2.2 ?_ ht
      rw [hno]
      exact iff_of_false (by decide) Bool.false_ne_true
    | cons w ws => exact takesWord_dotted hsplit hfits ht hkind

end Lexeme

/-! ## Places of marks -/

theorem memberTokens_places {p : Position} {ws : List (List Char)} {u : Token}
    (h : u ∈ memberTokens p ws) :
    u.isSymbol "." = false ∧ p.offset < u.span.stop.offset := by
  induction ws generalizing p with
  | nil => exact absurd h List.not_mem_nil
  | cons w ws ih =>
    have hstop : p.offset < ((p.next '.').after w).offset := by
      rw [Position.offset_after, Position.offset_next]
      have := Char.utf8Size_pos '.'
      omega
    rcases List.mem_cons.mp h with rfl | h
    · exact ⟨rfl, hstop⟩
    rcases List.mem_cons.mp h with rfl | h
    · exact ⟨rfl, hstop⟩
    · obtain ⟨hdot, hlt⟩ := ih h
      exact ⟨hdot, Nat.lt_trans hstop hlt⟩

/-- A point among the tokens of a lexeme stands where the lexeme starts, and a closing parenthesis
ends behind that place. -/
theorem Lexeme.tokens_places {l : Lexeme} {p : Position} (hne : l.chars ≠ []) {u : Token}
    (h : u ∈ l.tokens p) :
    (u.isSymbol "." = true → u.span.start = p) ∧
      (u.isClose = true → p.offset < u.span.stop.offset) := by
  have hbeyond : p.offset < (p.after l.chars).offset := by
    obtain ⟨c, cs, hchars⟩ := List.exists_cons_of_ne_nil hne
    have := c.utf8Size_pos
    rw [hchars, Position.offset_after, byteLength_cons]
    omega
  unfold Lexeme.tokens at h
  dsimp only at h
  split at h
  case h_6 first more _ =>
    rcases List.mem_append.mp h with h | h
    · refine ⟨fun _ => by rw [memberOpenings_span h]; rfl, fun hclose => ?_⟩
      rw [(memberOpenings_kind h).2] at hclose
      cases hclose
    rcases List.mem_cons.mp h with rfl | h
    · exact ⟨fun _ => rfl, fun hclose => by cases hclose⟩
    · obtain ⟨hdot, hlt⟩ := memberTokens_places h
      rw [Position.offset_after] at hlt
      refine ⟨fun hpoint => ?_, fun _ => by omega⟩
      rw [hdot] at hpoint
      cases hpoint
  case h_7 => exact absurd h List.not_mem_nil
  all_goals
    rw [List.mem_singleton] at h
    subst h
    exact ⟨fun _ => rfl, fun _ => hbeyond⟩

/-! ## Whole texts -/

/-- What is said of a word token, among all tokens of a text. -/
def Token.IsWhole (source : List Char) (tokens : List Token) (t : Token) : Prop :=
  ∃ past after, WordAt source t past after ∧
    (past.getLast?.any isWordChar = true →
      ∃ u ∈ tokens, u.kind = .number ∧ u.span.stop = t.span.start) ∧
    (t.IsSegment tokens → t.kind = .identifier ∧
      (after.head? = some '.' ∨ past.getLast? = some '.')) ∧
    (¬ t.IsSegment tokens → (t.kind = .keyword ↔ Category.keyword.has t.text = true))

/-- Tokens that are added later change nothing, if the word is not marked by them. -/
theorem Token.IsWhole.append {source : List Char} {old new : List Token} {t : Token}
    (h : t.IsWhole source old) (hnew : ∀ u ∈ new, ¬ u.Marks t) : t.IsWhole source (old ++ new) := by
  obtain ⟨past, after, hat, hnumber, hsegment, hplain⟩ := h
  have hiff : t.IsSegment (old ++ new) ↔ t.IsSegment old := by
    constructor
    · rintro ⟨u, hu, hmarks⟩
      rcases List.mem_append.mp hu with hu | hu
      · exact ⟨u, hu, hmarks⟩
      · exact absurd hmarks (hnew u hu)
    · rintro ⟨u, hu, hmarks⟩
      exact ⟨u, List.mem_append_left _ hu, hmarks⟩
  refine ⟨past, after, hat, fun hword => ?_, fun h => hsegment (hiff.mp h), fun h => ?_⟩
  · obtain ⟨u, hu, hends⟩ := hnumber hword
    exact ⟨u, List.mem_append_left _ hu, hends⟩
  · exact hplain fun hold => h (hiff.mpr hold)

theorem exists_mem_carry_of_mem (waiting : Option String) {ts : List Token} {u : Token}
    (h : u ∈ ts) : ∃ a, { u with ascription := a } ∈ carry waiting ts := by
  induction ts generalizing waiting with
  | nil => exact absurd h List.not_mem_nil
  | cons t ts ih =>
    rcases List.mem_cons.mp h with rfl | h
    · exact ⟨waiting, List.mem_cons_self⟩
    · obtain ⟨a, ha⟩ := ih none h
      exact ⟨a, List.mem_cons_of_mem _ ha⟩

namespace Scan

variable {source : List Char}

/-- The words taken so far are whole, and where the last lexeme ends like a word, no word goes on or
a number ends. The tokens lie within what has been read, points strictly. -/
structure WordsWhole (source before cs : List Char) (s : Scan) : Prop where
  split : before ++ cs = source
  cursor : s.cursor = Cursor.start.after before
  edge : before.getLast?.any isWordChar = true → Ends isWordChar cs ∨
    ∃ u ∈ s.tokens.toList, u.kind = .number ∧ u.span.stop = Position.start.after before
  within : ∀ u ∈ s.tokens.toList, u.span.stop.offset ≤ byteLength before ∧
    (u.isSymbol "." = true → u.span.start.offset < byteLength before)
  words : ∀ t ∈ s.tokens.toList, t.kind = .identifier ∨ t.kind = .keyword →
    t.IsWhole source s.tokens.toList

theorem wordsWhole_start (source : List Char) : WordsWhole source [] source {} :=
  ⟨rfl, rfl, (absurd · Bool.false_ne_true), List.forall_mem_nil _, List.forall_mem_nil _⟩

/-- The tokens of a lexeme mark no word that has been taken before. -/
theorem WordsWhole.not_marks_new {before : List Char} {l : Lexeme} (hne : l.chars ≠ [])
    {t u : Token}
    (ht : t.span.start.offset < t.span.stop.offset ∧ t.span.stop.offset ≤ byteLength before)
    (hu : u ∈ l.tokens (Position.start.after before)) : ¬ u.Marks t := by
  obtain ⟨hdot, hclose⟩ := Lexeme.tokens_places hne hu
  rw [Laid.offset_start_after] at hclose
  rintro (⟨hsymbol, hspan⟩ | ⟨hsymbol, hspan⟩)
  · have hstart := congrArg (·.start.offset) hspan
    simp only [Span.point, hdot hsymbol, Laid.offset_start_after] at hstart
    omega
  · have hlt := hclose hsymbol
    have hstop := congrArg (·.stop.offset) hspan
    simp only [Span.point] at hstop
    omega

/-- A word of the lexeme at hand. -/
theorem WordsWhole.isWhole_new {before : List Char} {c : Char} {cs : List Char} {s : Scan}
    (h : WordsWhole source before (c :: cs) s) {ts : List Token} {waiting : Option String}
    {t : Token} {a : Option String} (hword : t.TakesWord source before ts)
    (ht : t ∈ ts) :
    ({ t with ascription := a } : Token).IsWhole source (s.tokens.toList ++ carry waiting ts) := by
  obtain ⟨past, after, hat, hpast, hsort⟩ := hword
  obtain ⟨hstart, -, hlt⟩ := hat.offsets
  refine ⟨past, after, ⟨hat.split, hat.span, hat.starts, hat.ends⟩, fun hlast => ?_, ?_⟩
  · rcases hpast with rfl | hpast
    · rcases h.edge hlast with hends | ⟨u, hu, hnumber, hstop⟩
      · -- The word would go on with the lexeme.
        have htext : t.text.toList ++ after = c :: cs := by
          have hsame := hat.split.trans h.split.symm
          rw [List.append_assoc] at hsame
          exact List.append_cancel_left hsame
        have hstarts := hat.starts
        cases hchars : t.text.toList with
        | nil =>
          rw [hchars] at hstarts
          cases hstarts
        | cons d ds =>
          rw [hchars] at hstarts htext
          have hd : isWordChar d = true := hstarts
          rw [(List.cons.inj htext).1, ends_cons.mp hends] at hd
          cases hd
      · refine ⟨u, List.mem_append_left _ hu, hnumber, ?_⟩
        rw [hstop]
        exact congrArg Span.start hat.span.symm
    · rw [hpast] at hlast
      exact absurd hlast (by decide)
  · rcases hsort with ⟨⟨u, hu, hmarks⟩, hident, hdot⟩ | ⟨rfl, rfl, hiff⟩
    · have hsegment : ({ t with ascription := a } : Token).IsSegment
          (s.tokens.toList ++ carry waiting ts) := by
        obtain ⟨b, hb⟩ := exists_mem_carry_of_mem waiting hu
        exact ⟨_, List.mem_append_right _ hb, hmarks⟩
      exact ⟨fun _ => ⟨hident, hdot⟩, fun hno => absurd hsegment hno⟩
    · have hno : ¬ ({ t with ascription := a } : Token).IsSegment
          (s.tokens.toList ++ carry waiting [t]) := by
        rintro ⟨u, hu, hmarks⟩
        have hplace : u.isSymbol "." = true ∧ u.span.start.offset = t.span.start.offset ∨
            u.span.stop.offset = t.span.stop.offset := by
          rcases hmarks with ⟨hsymbol, hspan⟩ | ⟨-, hspan⟩
          · exact .inl ⟨hsymbol, by rw [hspan]; rfl⟩
          · exact .inr (by rw [hspan]; rfl)
        have hpoint : u.span.start.offset = u.span.stop.offset := by
          rcases hmarks with ⟨-, hspan⟩ | ⟨-, hspan⟩ <;> rw [hspan] <;> rfl
        rcases List.mem_append.mp hu with hu | hu
        · -- Tokens of earlier lexemes end where the word starts, at the latest.
          obtain ⟨hstop, hdot⟩ := h.within u hu
          rcases hplace with ⟨hsymbol, hsame⟩ | hsame
          · have := hdot hsymbol
            omega
          · omega
        · obtain rfl := List.mem_singleton.mp hu
          exact absurd hpoint (Nat.ne_of_lt hlt)
      exact ⟨fun hsegment => absurd hsegment hno, fun _ => hiff⟩

/-- **One lexeme further.** -/
theorem WordsWhole.accept {track : Bool} {before : List Char} {c : Char} {cs rest : List Char}
    {l : Lexeme} {s s' : Scan} (h : WordsWhole source before (c :: cs) s)
    (hread : Lexeme.read c cs = .ok (l, rest)) (haccept : s.accept track l = .ok s') :
    WordsWhole source (before ++ l.chars) rest s' := by
  obtain ⟨hcursor, htokens, -⟩ := accept_ok haccept
  obtain ⟨hchars, hne⟩ := Lexeme.read_eq hread
  have hfits := Lexeme.fits_of_read hread
  have hsplit : before ++ l.chars ++ rest = source := by
    rw [List.append_assoc, hchars, h.split]
  have hposition : s.cursor.position = Position.start.after before := by
    rw [h.cursor, Cursor.position_after]
    rfl
  rw [hposition] at htokens
  generalize (s.observe l).waiting = waiting at htokens
  refine ⟨hsplit, by rw [hcursor, h.cursor, Cursor.after_append], ?edge, ?within, ?words⟩
  case edge =>
    intro hlast
    rw [List.getLast?_append, List.getLast?_eq_some_getLast hne, Option.some_or,
      ← List.getLast?_eq_some_getLast hne] at hlast
    refine (Lexeme.ends_of_fits hfits hlast).imp_right ?_
    rintro ⟨digits, rfl⟩
    refine ⟨{ kind := .number, text := String.ofList digits, ascription := waiting, span :=
      ⟨Position.start.after before, (Position.start.after before).after digits⟩ }, ?_, rfl, ?_⟩
    · rw [htokens]
      exact List.mem_append_right _ List.mem_cons_self
    · rw [Position.after_append]
      rfl
  case within =>
    intro u hu
    rw [htokens, List.mem_append] at hu
    rw [byteLength_append]
    rcases hu with hu | hu
    · obtain ⟨hstop, hdot⟩ := h.within u hu
      exact ⟨by omega, fun hsymbol => by have := hdot hsymbol; omega⟩
    · obtain ⟨v, hv, a, -, rfl⟩ := exists_of_mem_carry hu
      obtain ⟨b, b', -, ⟨more, hmore⟩, hspan⟩ := Lexeme.tokens_span hv
      have hstart := (Lexeme.tokens_places hne hv).1
      have hpos : 0 < byteLength l.chars := by
        obtain ⟨d, ds, hds⟩ := List.exists_cons_of_ne_nil hne
        have := d.utf8Size_pos
        rw [hds, byteLength_cons]
        omega
      have hlength : byteLength b' + byteLength more = byteLength l.chars := by
        rw [← byteLength_append, hmore]
      constructor
      · show v.span.stop.offset ≤ _
        rw [hspan, Position.offset_after, Laid.offset_start_after]
        omega
      · intro hsymbol
        show v.span.start.offset < _
        rw [hstart hsymbol, Laid.offset_start_after]
        omega
  case words =>
    intro t ht hkind
    rw [htokens] at ht ⊢
    rcases List.mem_append.mp ht with ht | ht
    · have hwhole := h.words t ht hkind
      refine hwhole.append fun u hu => ?_
      obtain ⟨v, hv, a, -, rfl⟩ := exists_of_mem_carry hu
      obtain ⟨past, after, hat, -⟩ := hwhole
      intro hmarks
      exact not_marks_new hne ⟨hat.offsets.2.2, (h.within t ht).1⟩ hv hmarks
    · obtain ⟨v, hv, a, -, rfl⟩ := exists_of_mem_carry ht
      exact h.isWhole_new (takesWord_of_read hread hsplit hv hkind) hv

theorem isWhole_of_ofSource {track : Bool} {s : Scan} (h : ofSource source track = .ok s) :
    ∀ t ∈ s.tokens.toList, t.kind = .identifier ∨ t.kind = .keyword →
      t.IsWhole source s.tokens.toList := by
  obtain ⟨s', hrun, hfinish⟩ := ofSource_ok h
  have hwhole : WordsWhole source ([] ++ source) [] s' :=
    run_invariant (fun h hread haccept => h.accept hread haccept) (wordsWhole_start source) hrun
  obtain ⟨-, -, htokens⟩ := finish_ok hfinish
  rw [List.append_assoc] at htokens
  -- What is added at the end is neither a word nor a symbol.
  have hlast : ∀ u ∈ (s'.pending.map fun w =>
      { kind := .ascription, text := w.1, span := w.2 : Token }).toList
        ++ [Token.closing (.point s'.cursor.position)], u.kind = .ascription ∨ u.kind = .eof := by
    intro u hu
    rcases List.mem_append.mp hu with hu | hu
    · obtain ⟨w, -, rfl⟩ := Option.map_eq_some_iff.mp (Option.mem_toList.mp hu)
      exact .inl rfl
    · rw [List.mem_singleton.mp hu]
      exact .inr rfl
  intro t ht hkind
  rw [htokens] at ht ⊢
  rcases List.mem_append.mp ht with ht | ht
  · refine (hwhole.words t ht hkind).append fun u hu => ?_
    rintro (⟨hsymbol, -⟩ | ⟨hsymbol, -⟩) <;> rcases hlast u hu with hu | hu <;>
      simp [Token.isClose, Token.isSymbol, hu, TokenKind.isSymbol] at hsymbol
  · rcases hlast t ht with ht | ht <;> rcases hkind with hkind | hkind <;> rw [ht] at hkind <;>
      cases hkind

end Scan

/-- **Words are never split and keywords are recognised exactly.** Let a text be tokenized, and let
one of the tokens be an identifier or a keyword. Then its text is the slice of the source that it
covers, the byte behind it is no word byte, and the byte in front of it is none unless a number ends
there. A word of a dotted name is an identifier, with a point right in front of it or right behind;
any other word is a keyword exactly if the table has it. In particular the table does not have a
name without points, which is read only when no keyword has been found. -/
theorem words_whole {source : List Char} {track : Bool} {stream : TokenStream} {tally : Tally}
    (h : tokenize source track = .ok (stream, tally)) {t : Token} (ht : t ∈ stream.remaining)
    (hkind : t.kind = .identifier ∨ t.kind = .keyword) :
    ((utf8 source).take t.span.stop.offset).drop t.span.start.offset = utf8 t.text.toList ∧
    ((utf8 source).drop t.span.stop.offset).head?.any (onByte isWordChar) = false ∧
    (((utf8 source).take t.span.start.offset).getLast?.any (onByte isWordChar) = true →
      ∃ u ∈ stream.remaining, u.kind = .number ∧ u.span.stop = t.span.start) ∧
    (t.IsSegment stream.remaining → t.kind = .identifier ∧
      (((utf8 source).drop t.span.stop.offset).head?.any (onByte (· == '.')) = true ∨
        ((utf8 source).take t.span.start.offset).getLast?.any (onByte (· == '.')) = true)) ∧
    (¬ t.IsSegment stream.remaining →
      (t.kind = .keyword ↔ Category.keyword.has t.text = true)) ∧
    ∀ c cs word rest, Lexeme.read c cs = .ok (.name word [], rest) →
      Category.keyword.has (String.ofList word) = false := by
  obtain ⟨s, hs, rfl, -⟩ := Scan.ofSource_of_tokenize h
  rw [Scan.stream_remaining hs] at ht ⊢
  obtain ⟨past, after, hat, hnumber, hsegment, hplain⟩ := Scan.isWhole_of_ofSource hs t ht hkind
  obtain ⟨hstart, hstop, -⟩ := hat.offsets
  have htake : (utf8 source).take t.span.start.offset = utf8 past := by
    rw [hstart, ← hat.split, List.append_assoc, utf8_append, ← length_utf8, List.take_left]
  have htakeAll : (utf8 source).take t.span.stop.offset = utf8 past ++ utf8 t.text.toList := by
    rw [hstop, ← byteLength_append, ← hat.split, utf8_append _ after, ← length_utf8,
      List.take_left, utf8_append]
  have hdrop : (utf8 source).drop t.span.stop.offset = utf8 after := by
    rw [hstop, ← byteLength_append, ← hat.split, drop_utf8]
  have hpoint : Ascii (· == '.') := ascii_eq (by decide)
  rw [htake, htakeAll, hdrop, head?_utf8 ascii_isWordChar, getLast?_utf8 ascii_isWordChar,
    head?_utf8 hpoint, getLast?_utf8 hpoint, hstart, ← length_utf8, List.drop_left]
  refine ⟨rfl, ?_, hnumber, fun hs => ?_, hplain, fun _ _ _ _ => Lexeme.not_keyword_of_read⟩
  · cases after with
    | nil => rfl
    | cons c after => exact ends_cons.mp hat.ends
  · obtain ⟨hident, hdot⟩ := hsegment hs
    refine ⟨hident, hdot.imp (fun h => ?_) fun h => ?_⟩ <;> rw [h] <;> decide

/-- In `1do a.if` a keyword follows a number without a gap, and another one is part of a name. -/
theorem words_whole_behind_number : ∃ stream tally t u,
    tokenize ['1', 'd', 'o', ' ', 'a', '.', 'i', 'f'] = .ok (stream, tally) ∧
    t ∈ stream.remaining ∧ t.kind = .keyword ∧ t.text = "do" ∧
    (u ∈ stream.remaining ∧ u.kind = .number ∧ u.span.stop = t.span.start) := by
  have hname : Lexeme.read 'a' ['.', 'i', 'f'] = .ok (.name ['a'] [['i', 'f']], []) :=
    @Lexeme.read_dotted 'a' [] [] [['i', 'f']] ⟨by decide, List.forall_mem_nil _⟩
      (List.forall_mem_singleton.mpr ⟨by decide, List.forall_mem_singleton.mpr (by decide)⟩)
      (by decide) (by decide +kernel) ends_nil ends_nil
  have hreads : Reads ['1', 'd', 'o', ' ', 'a', '.', 'i', 'f']
      [.number ['1'], .keyword ['d', 'o'], .blank ' ', .name ['a'] [['i', 'f']]] :=
    .cons rfl (.cons rfl (.cons rfl (.cons hname .nil)))
  obtain ⟨stream, tally, htokenize, hmem⟩ : ∃ stream tally,
      tokenize ['1', 'd', 'o', ' ', 'a', '.', 'i', 'f'] = .ok (stream, tally) ∧
      { kind := .keyword, text := "do", span := ⟨⟨1, 1, 2⟩, ⟨3, 1, 4⟩⟩ } ∈ stream.remaining :=
    ⟨_, _, Scan.tokenize_of_ofSource
      ((@Scan.ofSource_of_reads false _ _ (by decide) hreads).trans rfl),
      List.mem_cons_of_mem _ List.mem_cons_self⟩
  obtain ⟨u, hu⟩ := (words_whole htokenize hmem (.inr rfl)).2.2.1 (by decide +kernel)
  exact ⟨stream, tally, _, u, htokenize, hmem, rfl, rfl, hu⟩

end FormScript
