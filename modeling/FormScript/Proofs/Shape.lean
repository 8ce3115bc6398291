import FormScript.Token.Lexeme

/-!
# What lexemes look like

`Lexeme.Fits` says of each kind of lexeme what its characters are, and where it matters what cannot
come next: a word stops only before something that is no part of a word, a comment to the end of
the line only at the end of a line. **`Lexeme.fits_of_read`** is all that later proofs need to know
of the readers. The description is not the reader again: it mentions neither the order in which
kinds are tried nor how far any of them looks ahead.
-/

namespace FormScript

/-- Nothing that satisfies `p` comes next. -/
def Ends (p : Char → Bool) (rest : List Char) : Prop := ∀ c ∈ rest.head?, p c = false

theorem ends_nil {p : Char → Bool} : Ends p [] := by simp [Ends]

theorem ends_cons {p : Char → Bool} {c : Char} {rest : List Char} :
    Ends p (c :: rest) ↔ p c = false := by simp [Ends]

theorem ends_dropWhile (p : Char → Bool) (cs : List Char) : Ends p (cs.dropWhile p) := by
  intro c hc
  have := List.head?_dropWhile_not p cs
  rw [Option.mem_def.mp hc] at this
  exact this

/-- A letter or underscore, and letters, digits and underscores behind it. -/
def IsWord : List Char → Prop
  | [] => False
  | c :: cs => isWordStart c = true ∧ ∀ d ∈ cs, isWordChar d = true

theorem isWordChar_of_isWordStart {c : Char} (h : isWordStart c = true) : isWordChar c = true := by
  simp only [isWordStart, isWordChar, Char.isAlphanum, Bool.or_eq_true] at h ⊢
  exact h.imp .inl id

theorem IsWord.isWordChar {w : List Char} (h : IsWord w) : ∀ c ∈ w, isWordChar c = true := by
  cases w with
  | nil => exact h.elim
  | cons c w =>
    intro d hd
    rcases List.mem_cons.mp hd with rfl | hd
    · exact isWordChar_of_isWordStart h.1
    · exact h.2 d hd

theorem IsWord.ne_nil {w : List Char} (h : IsWord w) : w ≠ [] := by
  rintro rfl
  exact h

/-- One quote, or the same quote three times. -/
def IsDelimiter (d : List Char) : Prop :=
  ∃ quote, (quote = '\x27' ∨ quote = '\x22' ∨ quote = '\x60') ∧
    (d = [quote] ∨ d = [quote, quote, quote])

/-- Reading the marks `/*` and `*/` from left to right, with so many comments open at first, the
last of them is closed at the very end of the text and not before. -/
def closesComments : Nat → List Char → Bool
  | 0, cs => cs.isEmpty
  | _ + 1, [] => false
  | n + 1, '/' :: '*' :: cs => closesComments (n + 2) cs
  | n + 1, '*' :: '/' :: cs => closesComments n cs
  | n + 1, _ :: cs => closesComments (n + 1) cs

/-- What may be part of a dialect's name. -/
def isDialectChar (c : Char) : Bool := isWordChar c || c == '-'

/-- A pragma that asks for a dialect by its name. -/
def IsPragma (text : List Char) (dialect : Dialect) : Prop :=
  ∃ gap gap' name : List Char,
    text = "#lang".toList ++ gap ++ '=' :: gap' ++ name ∧
      (∀ c ∈ gap, isGap c = true) ∧ (∀ c ∈ gap', isGap c = true) ∧
      (∀ c ∈ name, isDialectChar c = true) ∧ Dialect.ofName? (String.ofList name) = some dialect

/-- Digits, with or without a point and digits behind it. -/
def IsNumeral (text : List Char) : Prop :=
  ∃ whole fraction : List Char, whole ≠ [] ∧ (∀ c ∈ whole, c.isDigit = true) ∧
    (∀ c ∈ fraction, c.isDigit = true) ∧
    (text = whole ∨ fraction ≠ [] ∧ text = whole ++ '.' :: fraction)

/-- A numeral, with or without a minus sign. -/
def IsSignedNumeral (text : List Char) : Prop :=
  IsNumeral text ∨ ∃ digits, text = '-' :: digits ∧ IsNumeral digits

namespace Lexeme

/-- What a lexeme in front of `rest` looks like. -/
def Fits (rest : List Char) : Lexeme → Prop
  | newline => True
  | blank c => isGap c = true
  | number digits => IsNumeral digits ∧ Ends Char.isDigit rest
  | string delimiter body =>
    IsDelimiter delimiter ∧ ¬ delimiter <:+: body ∧ byteLength body ≤ Limits.stringBytes
  | lineComment text =>
    startsLineComment text = true ∧ '\n' ∉ text ∧ Ends (· != '\n') rest
  | blockComment text _ => ∃ body, text = '/' :: '*' :: body ∧ closesComments 1 body = true
  | ascription w => IsWord w ∧ Ends isWordChar rest
  | operator spelling => spelling ∈ operatorSpellings
  | keyword spelling => spelling ∈ keywordSpellings ∧ Ends isWordChar rest
  | pragma text dialect => IsPragma text dialect ∧ Ends isDialectChar rest
  | name first more =>
    IsWord first ∧ (∀ w ∈ more, IsWord w) ∧ (∀ w ∈ first :: more, w.length ≤ Limits.nameBytes) ∧
      Ends isWordChar rest

/-! ## Words -/

theorem isWord_takeWhile {c : Char} (cs : List Char) (hc : isWordStart c = true) :
    IsWord ((c :: cs).takeWhile isWordChar) := by
  rw [List.takeWhile_cons_of_pos (isWordChar_of_isWordStart hc)]
  exact ⟨hc, fun d hd => List.all_eq_true.mp List.all_takeWhile d hd⟩

theorem word?_isWord {cs w rest : List Char} (h : word? cs = some (w, rest)) :
    IsWord w ∧ Ends isWordChar rest := by
  unfold word? at h
  split at h
  · cases h
  · rename_i c cs
    split at h
    · rename_i hc
      cases h
      exact ⟨⟨hc, fun d hd => List.all_eq_true.mp List.all_takeWhile d hd⟩, ends_dropWhile _ _⟩
    · cases h

theorem readMore_dot (words : List (List Char)) {cs w rest : List Char}
    (h : word? cs = some (w, rest)) : readMore words ('.' :: cs) = readMore (w :: words) rest := by
  rw [readMore]
  split
  · rename_i hw
    rw [h] at hw
    cases hw
    rfl
  · rename_i hw
    rw [h] at hw
    cases hw

theorem readMore_of_ends (words : List (List Char)) {cs : List Char} (h : Ends (· == '.') cs) :
    readMore words cs = (words.reverse, cs) := by
  unfold readMore
  split
  · exact absurd (ends_cons.mp h) (by decide)
  · rfl

theorem readMore_isWord (words : List (List Char)) (cs : List Char)
    (hwords : ∀ w ∈ words, IsWord w) (hcs : Ends isWordChar cs) :
    (∀ w ∈ (readMore words cs).1, IsWord w) ∧ Ends isWordChar (readMore words cs).2 := by
  fun_induction readMore words cs with
  | case1 words rest w rest' hw ih =>
    obtain ⟨hword, hends⟩ := word?_isWord hw
    refine ih ?_ hends
    intro v hv
    rcases List.mem_cons.mp hv with rfl | hv
    · exact hword
    · exact hwords v hv
  | case2 words rest => exact ⟨by simpa using hwords, hcs⟩
  | case3 words cs => exact ⟨by simpa using hwords, hcs⟩

theorem length_le_of_longWord? {ws : List (List Char)} {skip : Nat} (h : longWord? ws skip = none) :
    ∀ w ∈ ws, w.length ≤ Limits.nameBytes := by
  induction ws generalizing skip with
  | nil => simp
  | cons w ws ih =>
    rw [longWord?] at h
    split at h
    · cases h
    · rename_i hle
      intro v hv
      rcases List.mem_cons.mp hv with rfl | hv
      · exact Nat.le_of_not_lt hle
      · exact ih h v hv

theorem fits_readName {c : Char} {cs rest : List Char} {l : Lexeme} (hc : isWordStart c = true)
    (h : readName (c :: cs) = .ok (l, rest)) : l.Fits rest := by
  unfold readName at h
  dsimp only at h
  split at h
  · cases h
  · rename_i hlong
    cases h
    obtain ⟨hmore, hends⟩ := readMore_isWord [] ((c :: cs).dropWhile isWordChar) (by simp)
      (ends_dropWhile _ _)
    exact ⟨isWord_takeWhile cs hc, hmore, length_le_of_longWord? hlong, hends⟩

/-! ## Numbers and strings -/

theorem fits_readNumber {c : Char} (cs : List Char) (hc : c.isDigit = true) :
    (readNumber (c :: cs)).1.Fits (readNumber (c :: cs)).2 := by
  have hne : (c :: cs).takeWhile Char.isDigit ≠ [] := by simp [hc]
  have hdigits : ∀ d ∈ (c :: cs).takeWhile Char.isDigit, d.isDigit = true :=
    fun d hd => List.all_eq_true.mp List.all_takeWhile d hd
  have hends := ends_dropWhile Char.isDigit (c :: cs)
  unfold readNumber
  dsimp only
  generalize (c :: cs).takeWhile Char.isDigit = whole at hne hdigits
  generalize (c :: cs).dropWhile Char.isDigit = tail at hends
  split
  · rename_i d rest
    split
    · rename_i hd
      refine ⟨⟨whole, (d :: rest).takeWhile Char.isDigit, hne, hdigits, ?_, .inr ⟨?_, rfl⟩⟩, ?_⟩
      · exact fun e he => List.all_eq_true.mp List.all_takeWhile e he
      · simp [hd]
      · exact ends_dropWhile _ _
    · exact ⟨⟨whole, [], hne, hdigits, by simp, .inl rfl⟩, hends⟩
  · exact ⟨⟨whole, [], hne, hdigits, by simp, .inl rfl⟩, hends⟩

/-- The mark is found where it occurs first. -/
theorem not_infix_of_splitAtMark? {mark cs body rest : List Char} (hmark : mark ≠ [])
    (h : splitAtMark? mark cs = some (body, rest)) : ¬ mark <:+: body := by
  -- Going through the text, the part already passed holds no mark that is followed by the rest.
  suffices ∀ cs before, splitAtMark?.go mark cs before = some (body, rest) →
      (∀ a b, before.reverse ++ cs = a ++ mark ++ b → before.length ≤ a.length) →
      ∀ a b, body ++ mark ++ rest = a ++ mark ++ b → body.length ≤ a.length by
    intro hinfix
    obtain ⟨a, b, hab⟩ := hinfix
    have hle := this cs [] h (by simp) a (b ++ mark ++ rest) (by rw [← hab]; simp)
    rw [← hab] at hle
    have hpos := List.length_pos_iff.mpr hmark
    simp only [List.length_append] at hle
    omega
  intro cs
  induction cs with
  | nil =>
    intro before h
    simp [splitAtMark?.go] at h
  | cons c cs ih =>
    intro before h hfirst
    unfold splitAtMark?.go at h
    split at h
    · rename_i hprefix
      cases h
      obtain ⟨t, ht⟩ := List.isPrefixOf_iff_prefix.mp hprefix
      intro a b hab
      have hlen := hfirst a b ?_
      · simpa using hlen
      · rw [← hab, ← ht]
        simp
    · rename_i hprefix
      refine ih (c :: before) h ?_
      intro a b hab
      have hle := hfirst a b (by rw [← hab]; simp)
      refine Nat.lt_of_le_of_ne hle ?_
      -- Were the mark here, it would have been found here.
      intro heq
      apply hprefix
      rw [List.reverse_cons, List.append_assoc, List.append_assoc] at hab
      obtain ⟨-, htail⟩ := List.append_inj hab (by simpa using heq)
      rw [List.isPrefixOf_iff_prefix]
      exact ⟨b, by simpa using htail.symm⟩

theorem fits_readString {quote : Char} {cs rest : List Char} {l : Lexeme}
    (hquote : quote = '\x27' ∨ quote = '\x22' ∨ quote = '\x60')
    (h : readString quote cs = .ok (l, rest)) : l.Fits rest := by
  have hdelimiter : IsDelimiter (delimiterOf quote cs) := by
    refine ⟨quote, hquote, ?_⟩
    unfold delimiterOf
    split
    · exact .inr rfl
    · exact .inl rfl
  unfold readString at h
  dsimp only at h
  split at h
  · cases h
  · rename_i body tail hsplit
    split at h
    · cases h
    · rename_i hsize
      cases h
      refine ⟨hdelimiter, not_infix_of_splitAtMark? ?_ hsplit, Nat.le_of_not_lt hsize⟩
      exact (delimiterOf_eq quote cs).2

/-! ## Comments -/

theorem fits_readLineComment {cs rest : List Char} {l : Lexeme}
    (hstart : startsLineComment cs = true) (h : readLineComment cs = .ok (l, rest)) :
    l.Fits rest := by
  unfold readLineComment at h
  dsimp only at h
  split at h
  · cases h
  · cases h
    refine ⟨?_, ?_, ends_dropWhile _ _⟩
    · unfold startsLineComment at hstart ⊢
      split at hstart
      · simp
      · rename_i c cs _
        have hc : c ≠ '\n' := by
          rintro rfl
          simp [isGap] at hstart
        simpa [hc] using hstart
      · simp
      · cases hstart
    · intro hmem
      have := List.all_eq_true.mp List.all_takeWhile _ hmem
      simp at this

theorem closesComments_readBlockComment {s t : CommentState} {cs rest : List Char}
    (h : readBlockComment s cs = .ok (t, rest)) :
    ∃ text, text ++ rest = cs ∧ t.chars = s.chars + text.length ∧
      closesComments s.depth text = true := by
  fun_induction readBlockComment s cs with
  | case1 => cases h
  | case2 => cases h
  | case3 => cases h
  | case4 s cs _ _ ih =>
    obtain ⟨text, rfl, hchars, hcloses⟩ := ih h
    refine ⟨'/' :: '*' :: text, rfl, by simp only [hchars, List.length_cons]; omega, ?_⟩
    rw [CommentState.depth, closesComments]
    exact hcloses
  | case5 => cases h
  | case6 s cs _ houter =>
    cases h
    exact ⟨['*', '/'], rfl, rfl, by rw [CommentState.depth, houter]; rfl⟩
  | case7 s cs _ next outer houter ih =>
    obtain ⟨text, rfl, hchars, hcloses⟩ := ih h
    refine ⟨'*' :: '/' :: text, rfl, by simp only [hchars, List.length_cons]; omega, ?_⟩
    rw [CommentState.depth, houter, List.length_cons, closesComments]
    exact hcloses
  | case8 => cases h
  | case9 s c cs hopen hclose _ ih =>
    obtain ⟨text, rfl, hchars, hcloses⟩ := ih h
    refine ⟨c :: text, rfl, by simp only [hchars, List.length_cons]; omega, ?_⟩
    -- A mark across the end of the text would be a mark of the text that follows.
    change closesComments (s.outer.length + 1) text = true at hcloses
    show closesComments (s.outer.length + 1) (c :: text) = true
    rw [closesComments]
    · exact hcloses
    · rintro text' rfl rfl
      exact hopen _ rfl rfl
    · rintro text' rfl rfl
      exact hclose _ rfl rfl

theorem fits_readComment {cs rest : List Char} {l : Lexeme}
    (h : readComment cs = .ok (l, rest)) : l.Fits rest := by
  unfold readComment at h
  split at h
  · cases h
  · rename_i s tail hs
    cases h
    obtain ⟨text, rfl, hchars, hcloses⟩ := closesComments_readBlockComment hs
    refine ⟨text, ?_, hcloses⟩
    have hlen : s.chars - 2 = text.length := by
      rw [hchars]
      show 2 + text.length - 2 = text.length
      omega
    rw [hlen, List.take_left]

/-! ## Annotations, pragmas and symbols -/

theorem fits_readAscription {cs rest : List Char} {l : Lexeme}
    (h : readAscription cs = .ok (l, rest)) : l.Fits rest := by
  unfold readAscription at h
  split at h
  · rename_i w tail hw
    cases h
    exact word?_isWord hw
  · cases h

theorem fits_readDialect? {cs rest : List Char} {l : Lexeme}
    (h : readDialect? cs = some (l, rest)) : l.Fits rest := by
  unfold readDialect? at h
  obtain ⟨⟨w, afterWord⟩, -, h⟩ := Option.bind_eq_some_iff.mp h
  dsimp only at h
  split at h
  · cases h
  · rename_i hlang
    simp only [Option.bind_eq_bind] at h
    split at h
    · rename_i afterEquals _
      obtain ⟨d, hd, h⟩ := Option.bind_eq_some_iff.mp h
      cases h
      rw [Decidable.not_not] at hlang
      subst hlang
      refine ⟨⟨afterWord.takeWhile isGap, afterEquals.takeWhile isGap, _, rfl, ?_, ?_, ?_, hd⟩, ?_⟩
      · exact fun c hc => List.all_eq_true.mp List.all_takeWhile c hc
      · exact fun c hc => List.all_eq_true.mp List.all_takeWhile c hc
      · exact fun c hc => List.all_eq_true.mp List.all_takeWhile c hc
      · exact ends_dropWhile isDialectChar _
    · cases h

theorem fits_readPragma {cs rest : List Char} {l : Lexeme}
    (h : readPragma cs = .ok (l, rest)) : l.Fits rest := by
  unfold readPragma at h
  split at h
  · rename_i r hr
    cases h
    exact fits_readDialect? hr
  · cases h

theorem fits_keyword? {cs w rest : List Char} (h : keyword? cs = some (w, rest)) :
    (keyword w).Fits rest := by
  unfold keyword? at h
  obtain ⟨v, hv, h⟩ := Option.bind_eq_some_iff.mp h
  dsimp only at h
  split at h
  · cases h
  · rename_i hends
    cases h
    refine ⟨(firstMatch?_eq hv).2, ?_⟩
    intro c hc
    rw [Option.mem_def.mp hc] at hends
    simpa using hends

theorem fits_readSymbol {c : Char} {cs rest : List Char} {l : Lexeme}
    (h : readSymbol c cs = .ok (l, rest)) : l.Fits rest := by
  unfold readSymbol at h
  split at h
  · rename_i w hw
    cases h
    exact (firstMatch?_eq hw).2
  split at h
  · rename_i w tail hw
    cases h
    exact fits_keyword? hw
  unfold readOther at h
  split at h
  · exact fits_readPragma h
  split at h
  · rename_i hc
    exact fits_readName hc h
  split at h
  · rename_i hc
    cases h
    exact hc
  · cases h

/-- **What is read looks like a lexeme of its kind**, in front of what is left. -/
theorem fits_of_read {c : Char} {cs rest : List Char} {l : Lexeme}
    (h : read c cs = .ok (l, rest)) : l.Fits rest := by
  unfold read at h
  split at h
  · cases h
    exact trivial
  split at h
  · rename_i hc
    have := fits_readNumber cs hc
    rwa [Except.ok.inj h] at this
  split at h
  · rename_i hc
    exact fits_readString hc h
  split at h
  · rename_i hc
    exact fits_readLineComment hc h
  split at h
  · exact fits_readComment h
  split at h
  · exact fits_readAscription h
  · exact fits_readSymbol h

end Lexeme

end FormScript
