import FormScript.Proofs.Reading
import FormScript.Proofs.Shape
import FormScript.Tree.Recipe

/-!
# Texts that are read back

`Lexeme.fits_of_read` says what a lexeme looks like that has been read. Here is the other direction,
for the lexemes that a tree is written with: a text that looks like a name, a numeral, a string or a
head, in front of a blank or a parenthesis, is read as just that.

The work is in the tables. The first operator that fits is taken, not the longest, so a head like
`<=` comes apart (`headLexemes`); the first keyword that fits is the only one tried, so it has to be
seen that a word which merely begins with a keyword is still a name (`keyword?_eq_none`); and the
operators with blanks around them come before the blank itself, so a blank is only read as one if
what follows does not complete such an operator (`Solid`).
-/

namespace FormScript

/-- A blank or a closing parenthesis comes next, or nothing. -/
def Separated (rest : List Char) : Prop := ∀ c ∈ rest.head?, c = ' ' ∨ c = ')'

theorem separated_nil : Separated [] := by simp [Separated]

theorem separated_blank (cs : List Char) : Separated (' ' :: cs) := by simp [Separated]

theorem separated_close (cs : List Char) : Separated (')' :: cs) := by simp [Separated]

/-- What neither a blank nor a parenthesis satisfies does not come next. -/
theorem Separated.ends {rest : List Char} (h : Separated rest) {p : Char → Bool}
    (hblank : p ' ' = false) (hclose : p ')' = false) : Ends p rest := by
  intro c hc
  rcases h c hc with rfl | rfl
  · exact hblank
  · exact hclose

/-- Not a sign with a blank behind it: with a blank in front it would be an operator. -/
def Solid (cs : List Char) : Prop := ∀ sign ∈ ['+', '-', '*', '/', '%'], ¬ [sign, ' '] <+: cs

theorem solid_cons {c : Char} (cs : List Char) (hc : c ∉ ['+', '-', '*', '/', '%']) :
    Solid (c :: cs) := by
  rintro sign hsign ⟨t, ht⟩
  exact hc ((List.cons.inj ht).1 ▸ hsign)

/-- What satisfies something that no sign satisfies is no sign. -/
theorem not_mem_signs {p : Char → Bool} (h : ['+', '-', '*', '/', '%'].any p = false) {c : Char}
    (hc : p c = true) : c ∉ ['+', '-', '*', '/', '%'] := by
  intro hmem
  have := List.any_eq_true.mpr ⟨c, hmem, hc⟩
  rw [h] at this
  exact Bool.false_ne_true this

theorem solid_cons_cons (c : Char) {d : Char} (cs : List Char) (hd : d ≠ ' ') :
    Solid (c :: d :: cs) := by
  rintro sign - ⟨t, ht⟩
  obtain ⟨-, ht⟩ := List.cons.inj ht
  exact hd (List.cons.inj ht).1.symm

/-- A run of characters is taken whole if none comes next. -/
theorem takeWhile_of_ends {p : Char → Bool} {run rest : List Char} (hrun : ∀ c ∈ run, p c = true)
    (hrest : Ends p rest) : (run ++ rest).takeWhile p = run := by
  rw [List.takeWhile_append_of_pos hrun]
  cases rest with
  | nil => simp
  | cons c rest =>
    rw [List.takeWhile_cons_of_neg (by rw [ends_cons.mp hrest]; exact Bool.false_ne_true),
      List.append_nil]

theorem dropWhile_of_ends {p : Char → Bool} {run rest : List Char} (hrun : ∀ c ∈ run, p c = true)
    (hrest : Ends p rest) : (run ++ rest).dropWhile p = rest := by
  have hsplit := @List.takeWhile_append_dropWhile _ p (run ++ rest)
  rw [takeWhile_of_ends hrun hrest] at hsplit
  exact List.append_cancel_left hsplit

theorem IsNumeral.exists_cons {text : List Char} (h : IsNumeral text) :
    ∃ d ds, text = d :: ds ∧ d.isDigit = true := by
  obtain ⟨whole, fraction, hne, hwhole, -, rfl | ⟨-, rfl⟩⟩ := h
  · obtain ⟨d, ds, rfl⟩ := List.exists_cons_of_ne_nil hne
    exact ⟨d, ds, rfl, hwhole d List.mem_cons_self⟩
  · obtain ⟨d, ds, rfl⟩ := List.exists_cons_of_ne_nil hne
    exact ⟨d, ds ++ '.' :: fraction, rfl, hwhole d List.mem_cons_self⟩

namespace Lexeme

/-! ## Strings and numerals -/

/-- A mark is found where it stands, if it does not begin earlier. -/
theorem splitAtMark?_first {mark body rest : List Char} (hmark : mark ≠ [])
    (h : ∀ a b, body = a ++ b → b ≠ [] → ¬ mark <+: b ++ (mark ++ rest)) :
    splitAtMark? mark (body ++ (mark ++ rest)) = some (body, rest) := by
  suffices ∀ before, splitAtMark?.go mark (body ++ (mark ++ rest)) before
      = some (before.reverse ++ body, rest) from this []
  induction body with
  | nil =>
    intro before
    obtain ⟨c, cs, rfl⟩ := List.exists_cons_of_ne_nil hmark
    have hprefix : (c :: cs).isPrefixOf (c :: (cs ++ rest)) = true :=
      List.isPrefixOf_iff_prefix.mpr (List.prefix_append (c :: cs) rest)
    rw [List.nil_append, List.cons_append, splitAtMark?.go, if_pos hprefix]
    simp
  | cons c body ih =>
    intro before
    have hne : ¬ mark.isPrefixOf (c :: (body ++ (mark ++ rest))) = true := fun hprefix =>
      h [] (c :: body) rfl (List.cons_ne_nil c body) (List.isPrefixOf_iff_prefix.mp hprefix)
    rw [List.cons_append, splitAtMark?.go, if_neg hne,
      ih fun a b hbody => h (c :: a) b (by rw [hbody, List.cons_append])]
    simp

/-- What a string is written between, given a text and what follows: one quote that does not occur
in the text, or three that do not occur in it and that its end does not make four. With nothing
between single quotes the second must not be followed by a third, or the three would be one
delimiter. -/
inductive Encloses (quote : Char) (body rest : List Char) : List Char → Prop
  | one (apart : quote ∉ body) (next : body = [] → rest.head? ≠ some quote) :
      Encloses quote body rest [quote]
  | three (apart : ¬ [quote, quote, quote] <:+: body) (last : body.getLast? ≠ some quote) :
      Encloses quote body rest [quote, quote, quote]

theorem Encloses.splitAtMark? {quote : Char} {body rest delimiter : List Char}
    (h : Encloses quote body rest delimiter) :
    splitAtMark? delimiter (body ++ (delimiter ++ rest)) = some (body, rest) := by
  cases h with
  | one apart =>
    refine splitAtMark?_first (List.cons_ne_nil _ _) fun a b hbody hb hprefix => apart ?_
    obtain ⟨c, b, rfl⟩ := List.exists_cons_of_ne_nil hb
    obtain ⟨t, ht⟩ := hprefix
    rw [hbody, (List.cons.inj ht).1]
    simp
  | three apart last =>
    refine splitAtMark?_first (List.cons_ne_nil _ _) fun a b hbody hb hprefix => ?_
    obtain ⟨t, ht⟩ := hprefix
    -- What the text ends with is too short to hold the mark, or it holds it.
    rcases b with _ | ⟨x, _ | ⟨y, _ | ⟨z, b⟩⟩⟩
    · exact hb rfl
    · exact last (by simp [hbody, (List.cons.inj ht).1])
    · exact last (by simp [hbody, (List.cons.inj (List.cons.inj ht).2).1])
    · simp only [List.cons_append, List.cons.injEq] at ht
      obtain ⟨rfl, rfl, rfl, -⟩ := ht
      exact apart ⟨a, b, by simp [hbody]⟩

/-- The text begins with the delimiter that its first characters are taken for. -/
theorem Encloses.exists_delimiterOf {quote : Char} {body rest delimiter : List Char}
    (h : Encloses quote body rest delimiter) : ∃ cs,
      delimiter ++ body ++ delimiter ++ rest = quote :: cs ∧ delimiterOf quote cs = delimiter := by
  cases h with
  | one apart next =>
    refine ⟨body ++ [quote] ++ rest, by simp, if_neg fun hprefix => ?_⟩
    obtain ⟨t, ht⟩ := List.isPrefixOf_iff_prefix.mp hprefix
    cases body with
    | nil =>
      obtain rfl : quote :: t = rest := (List.cons.inj ht).2
      exact next rfl rfl
    | cons c body => exact apart ((List.cons.inj ht).1 ▸ List.mem_cons_self)
  | three => exact ⟨_, rfl, if_pos (by simp)⟩

/-- **A string is read back**, whichever quotes it stands between. -/
theorem exists_read_string {quote : Char} (hquote : quote ∈ ['\x27', '\x22', '\x60'])
    {body rest delimiter : List Char} (hsize : byteLength body ≤ Limits.stringBytes)
    (h : Encloses quote body rest delimiter) : ∃ cs,
      delimiter ++ body ++ delimiter ++ rest = quote :: cs ∧
      read quote cs = .ok (string delimiter body, rest) := by
  obtain ⟨cs, hcs, hdelimiter⟩ := h.exists_delimiterOf
  have hread : read quote cs = readString quote cs := by
    simp only [List.mem_cons, List.not_mem_nil, or_false] at hquote
    rcases hquote with rfl | rfl | rfl <;> rfl
  have hbody : (quote :: cs).drop delimiter.length = body ++ (delimiter ++ rest) := by
    rw [← hcs]
    simp
  refine ⟨cs, hcs, ?_⟩
  rw [hread]
  unfold readString
  dsimp only
  rw [hdelimiter, hbody, h.splitAtMark?]
  exact if_neg (Nat.not_lt.mpr hsize)

/-- A string between single quotes, in front of a blank or a parenthesis. -/
theorem read_string {body rest : List Char} (hquote : '\x27' ∉ body)
    (hsize : byteLength body ≤ Limits.stringBytes) (hrest : Separated rest) :
    read '\x27' (body ++ '\x27' :: rest) = .ok (string ['\x27'] body, rest) := by
  have hnext : rest.head? ≠ some '\x27' := fun hhead => by
    rcases hrest _ hhead with h | h <;> cases h
  obtain ⟨cs, hcs, hread⟩ := exists_read_string (by simp) hsize (.one hquote fun _ => hnext)
  obtain rfl : body ++ '\x27' :: rest = cs := by simpa using hcs
  exact hread

theorem readNumber_numeral {text rest : List Char} (h : IsNumeral text)
    (hdigit : Ends Char.isDigit rest) (hpoint : Ends (· == '.') rest) :
    readNumber (text ++ rest) = (number text, rest) := by
  obtain ⟨whole, fraction, hne, hwhole, hfraction, rfl | ⟨hpos, rfl⟩⟩ := h
  · unfold readNumber
    rw [takeWhile_of_ends hwhole hdigit, dropWhile_of_ends hwhole hdigit]
    dsimp only
    split
    · exact absurd (ends_cons.mp hpoint) (by decide)
    · rfl
  · obtain ⟨d, ds, rfl⟩ := List.exists_cons_of_ne_nil hpos
    have hends : Ends Char.isDigit ('.' :: (d :: ds ++ rest)) := ends_cons.mpr (by decide)
    have hd := hfraction d List.mem_cons_self
    have hds : ∀ c ∈ ds, c.isDigit = true := fun c hc => hfraction c (List.mem_cons_of_mem _ hc)
    unfold readNumber
    rw [List.append_assoc, List.cons_append, takeWhile_of_ends hwhole hends,
      dropWhile_of_ends hwhole hends]
    show (if d.isDigit = true then
      (number (whole ++ '.' :: (d :: ds ++ rest).takeWhile Char.isDigit),
        (ds ++ rest).dropWhile Char.isDigit) else _) = _
    rw [if_pos hd, takeWhile_of_ends hfraction hdigit, dropWhile_of_ends hds hdigit]

/-- A numeral in front of a blank or a parenthesis. -/
theorem read_number {c : Char} {cs rest : List Char} (h : IsNumeral (c :: cs))
    (hrest : Separated rest) : read c (cs ++ rest) = .ok (number (c :: cs), rest) := by
  have hc : c.isDigit = true := by
    obtain ⟨d, ds, htext, hd⟩ := h.exists_cons
    rwa [(List.cons.inj htext).1]
  have hnewline : c ≠ '\n' := by
    rintro rfl
    exact absurd hc (by decide)
  unfold read
  rw [if_neg hnewline, if_pos hc, ← List.cons_append,
    readNumber_numeral h (hrest.ends (by decide) (by decide)) (hrest.ends (by decide) (by decide))]

/-! ## Names -/

/-- What can begin a word begins nothing else. -/
theorem isWordStart_apart {c : Char} (h : isWordStart c = true) :
    c ≠ '\n' ∧ c.isDigit = false ∧ ¬ (c = '\x27' ∨ c = '\x22' ∨ c = '\x60') ∧
      (c ≠ '/' ∧ c ≠ ';') ∧ c ≠ ':' ∧ c ≠ '#' := by
  have hne : ∀ d, isWordStart d = false → c ≠ d := by
    rintro d hd rfl
    rw [h] at hd
    exact absurd hd.symm Bool.false_ne_true
  have hdigit : c.isDigit = false := by
    rw [Bool.eq_false_iff]
    intro hdigit
    delta isWordStart Char.isAlpha Char.isUpper Char.isLower at h
    delta Char.isDigit at hdigit
    simp only [Bool.or_eq_true, Bool.and_eq_true, decide_eq_true_eq, beq_iff_eq] at h hdigit
    rcases h with (h | h) | rfl
    · exact absurd (UInt32.le_trans h.1 hdigit.2) (by decide)
    · exact absurd (UInt32.le_trans h.1 hdigit.2) (by decide)
    · exact absurd hdigit (by decide)
  refine ⟨hne _ (by decide), hdigit, ?_, ⟨hne _ (by decide), hne _ (by decide)⟩, hne _ (by decide),
    hne _ (by decide)⟩
  rintro (hc | hc | hc)
  · exact hne _ (by decide) hc
  · exact hne _ (by decide) hc
  · exact hne _ (by decide) hc

/-- What can begin a word begins no operator. -/
theorem firstMatch?_operator_of_isWordStart {c : Char} (cs : List Char)
    (hc : isWordStart c = true) :
    firstMatch? operatorSpellings (c :: cs) = none := by
  have htable : ∀ w ∈ operatorSpellings, w.head?.map isWordStart = some false := by
    decide +kernel
  refine List.find?_eq_none.mpr fun w hw hprefix => ?_
  obtain ⟨t, ht⟩ := List.isPrefixOf_iff_prefix.mp hprefix
  obtain ⟨d, w, rfl⟩ := List.exists_cons_of_ne_nil (ne_nil_of_mem_operatorSpellings w hw)
  have hd : isWordStart d = false := Option.some.inj (htable _ hw)
  rw [(List.cons.inj ht).1, hc] at hd
  exact absurd hd.symm Bool.false_ne_true

/-- What keywords are made of. -/
def isKeywordChar (c : Char) : Bool := isWordChar c || c == '!'

theorem isKeywordChar_of_mem : ∀ k ∈ keywordSpellings, k.all isKeywordChar = true := by
  decide +kernel

/-- A word that is no keyword is not taken for one, though it may begin with one. -/
theorem keyword?_eq_none {w rest : List Char} (hw : ∀ c ∈ w, isWordChar c = true)
    (hkeyword : w ∉ keywordSpellings) (hrest : Ends isKeywordChar rest) :
    keyword? (w ++ rest) = none := by
  cases hfirst : firstMatch? keywordSpellings (w ++ rest) with
  | none => rw [keyword?, hfirst]; rfl
  | some k =>
    obtain ⟨hsplit, hmem⟩ := firstMatch?_eq hfirst
    have hprefix : k <+: w ++ rest := ⟨_, hsplit⟩
    -- The keyword is not longer than the word, as what follows can be no part of one.
    have hshort : k <+: w := by
      rcases List.prefix_or_prefix_of_prefix hprefix (List.prefix_append w rest)
        with h | ⟨more, rfl⟩
      · exact h
      · cases more with
        | nil => simp
        | cons c more =>
          have hc : isKeywordChar c = true :=
            List.all_eq_true.mp (isKeywordChar_of_mem _ hmem) c (by simp)
          rw [List.append_assoc, List.append_cancel_left_eq] at hsplit
          rw [hrest c (by rw [← hsplit]; rfl)] at hc
          cases hc
    obtain ⟨more, rfl⟩ := hshort
    cases more with
    | nil => exact absurd hmem (by simpa using hkeyword)
    | cons c more =>
      have hdrop : (k ++ c :: more ++ rest).drop k.length = c :: (more ++ rest) := by simp
      rw [keyword?, hfirst]
      show (if (((k ++ c :: more ++ rest).drop k.length).head?.map isWordChar).getD false = true
        then none else _) = none
      rw [hdrop]
      exact if_pos (hw c (by simp))

/-- **What starts like a word** is a keyword or a name, whatever follows. -/
theorem read_of_isWordStart {c : Char} (cs : List Char) (h : isWordStart c = true) :
    read c cs = ((keyword? (c :: cs)).map fun (w, rest) => Except.ok (keyword w, rest)).getD
      (readName (c :: cs)) := by
  obtain ⟨hnewline, hdigit, hquote, ⟨hslash, hsemicolon⟩, hcolon, hhash⟩ := isWordStart_apart h
  have hline : ¬ startsLineComment (c :: cs) = true := by
    unfold startsLineComment
    split <;> simp_all
  have hblock : ¬ ['/', '*'].isPrefixOf (c :: cs) = true := by
    intro hprefix
    obtain ⟨t, ht⟩ := List.isPrefixOf_iff_prefix.mp hprefix
    exact hslash (List.cons.inj ht).1.symm
  unfold read
  rw [if_neg hnewline, if_neg (Bool.eq_false_iff.mp hdigit), if_neg hquote, if_neg hline,
    if_neg hblock, if_neg hcolon, readSymbol, firstMatch?_operator_of_isWordStart _ h]
  cases keyword? (c :: cs) with
  | some found => rfl
  | none =>
    show readOther c cs = readName (c :: cs)
    rw [readOther, if_neg hhash, if_pos h]

theorem word?_append {w rest : List Char} (hw : IsWord w) (hrest : Ends isWordChar rest) :
    word? (w ++ rest) = some (w, rest) := by
  cases w with
  | nil => exact hw.elim
  | cons c w =>
    rw [List.cons_append, word?, if_pos hw.1, takeWhile_of_ends hw.2 hrest,
      dropWhile_of_ends hw.2 hrest]

/-- Words behind points are read one after the other, as far as they go. -/
theorem readMore_words (words : List (List Char)) {ws : List (List Char)} {rest : List Char}
    (hws : ∀ w ∈ ws, IsWord w) (hrest : Ends isWordChar rest) (hdot : Ends (· == '.') rest) :
    readMore words (ws.flatMap ('.' :: ·) ++ rest) = (words.reverse ++ ws, rest) := by
  induction ws generalizing words with
  | nil =>
    rw [List.append_nil]
    exact readMore_of_ends words hdot
  | cons w ws ih =>
    have hends : Ends isWordChar (ws.flatMap ('.' :: ·) ++ rest) := by
      cases ws with
      | nil => exact hrest
      | cons v ws => exact ends_cons.mpr (by decide)
    have hword := word?_append (hws w List.mem_cons_self) hends
    rw [List.flatMap_cons, List.append_assoc, List.cons_append, readMore_dot words hword,
      ih (w :: words) fun v hv => hws v (List.mem_cons_of_mem _ hv), List.reverse_cons,
      List.append_assoc, List.singleton_append]

theorem longWord?_eq_none {ws : List (List Char)} (h : ∀ w ∈ ws, w.length ≤ Limits.nameBytes)
    (skip : Nat) : longWord? ws skip = none := by
  induction ws generalizing skip with
  | nil => rfl
  | cons w ws ih =>
    rw [longWord?, if_neg (Nat.not_lt.mpr (h w List.mem_cons_self))]
    exact ih (fun v hv => h v (List.mem_cons_of_mem _ hv)) _

/-- **Words joined by points**, the first of which is no keyword. -/
theorem read_dotted {c : Char} {cs rest : List Char} {ws : List (List Char)}
    (hword : IsWord (c :: cs)) (hws : ∀ w ∈ ws, IsWord w)
    (hlength : ∀ w ∈ (c :: cs) :: ws, w.length ≤ Limits.nameBytes)
    (hkeyword : c :: cs ∉ keywordSpellings) (hrest : Ends isKeywordChar rest)
    (hdot : Ends (· == '.') rest) :
    read c (cs ++ (ws.flatMap ('.' :: ·) ++ rest)) = .ok (name (c :: cs) ws, rest) := by
  have hchars := hword.isWordChar
  have hends : Ends isWordChar rest := fun d hd => (Bool.or_eq_false_iff.mp (hrest d hd)).1
  have hmore : Ends isKeywordChar (ws.flatMap ('.' :: ·) ++ rest) := by
    cases ws with
    | nil => exact hrest
    | cons w ws => exact ends_cons.mpr (by decide)
  have hmoreWord : Ends isWordChar (ws.flatMap ('.' :: ·) ++ rest) :=
    fun d hd => (Bool.or_eq_false_iff.mp (hmore d hd)).1
  rw [read_of_isWordStart _ hword.1, ← List.cons_append, keyword?_eq_none hchars hkeyword hmore]
  show readName _ = _
  rw [readName, takeWhile_of_ends hchars hmoreWord, dropWhile_of_ends hchars hmoreWord,
    readMore_words [] hws hends hdot]
  dsimp only [List.reverse_nil, List.nil_append]
  rw [longWord?_eq_none hlength]

/-- A word in front of a blank or a parenthesis, if it is no keyword. -/
theorem read_name {c : Char} {cs rest : List Char} (hword : IsWord (c :: cs))
    (hlength : (c :: cs).length ≤ Limits.nameBytes) (hkeyword : c :: cs ∉ keywordSpellings)
    (hrest : Separated rest) : read c (cs ++ rest) = .ok (name (c :: cs) [], rest) :=
  read_dotted hword (List.forall_mem_nil _) (List.forall_mem_singleton.mpr hlength) hkeyword
    (hrest.ends (by decide) (by decide)) (hrest.ends (by decide) (by decide))

/-! ## Blanks and signs -/

theorem read_blank {cs : List Char} (h : Solid cs) : read ' ' cs = .ok (blank ' ', cs) := by
  have htable : ∀ w ∈ operatorSpellings, w.head? = some ' ' →
      w ∈ ['+', '-', '*', '/', '%'].map fun sign => [' ', sign, ' '] := by decide +kernel
  have hnone : firstMatch? operatorSpellings (' ' :: cs) = none := by
    refine List.find?_eq_none.mpr fun w hw hprefix => ?_
    obtain ⟨t, ht⟩ := List.isPrefixOf_iff_prefix.mp hprefix
    obtain ⟨b, w, rfl⟩ := List.exists_cons_of_ne_nil (ne_nil_of_mem_operatorSpellings w hw)
    obtain ⟨sign, hsign, hspaced⟩ :=
      List.mem_map.mp (htable _ hw (by rw [(List.cons.inj ht).1]; rfl))
    rw [← hspaced] at ht
    exact h sign hsign ⟨t, (List.cons.inj ht).2⟩
  have hread : read ' ' cs = readSymbol ' ' cs := rfl
  rw [hread, readSymbol, hnone]
  rfl

/-- A minus sign right in front of a digit. -/
theorem read_minus {d : Char} (cs : List Char) (hd : d.isDigit = true) :
    read '-' (d :: cs) = .ok (operator ['-'], d :: cs) := by
  have htable : ∀ w ∈ operatorSpellings, w.head? = some '-' → w = ['-', '='] ∨ w = ['-'] := by
    decide +kernel
  have hfirst : firstMatch? operatorSpellings ('-' :: d :: cs) = some ['-'] := by
    cases h : firstMatch? operatorSpellings ('-' :: d :: cs) with
    | none =>
      have := List.find?_eq_none.mp h ['-'] (by decide +kernel)
      exact absurd (by simp) this
    | some w =>
      obtain ⟨ht, hw⟩ := firstMatch?_eq h
      obtain ⟨b, w, rfl⟩ := List.exists_cons_of_ne_nil (ne_nil_of_mem_operatorSpellings w hw)
      rcases htable _ hw (by rw [(List.cons.inj ht).1]; rfl) with hw | hw
      · rw [hw] at ht
        obtain ⟨-, ht⟩ := List.cons.inj ht
        rw [← (List.cons.inj ht).1] at hd
        exact absurd hd (by decide)
      · rw [hw]
  have hread : read '-' (d :: cs) = readSymbol '-' (d :: cs) := rfl
  rw [hread, readSymbol, hfirst]
  rfl

/-- The line that asks for the dialect in which every form may stand at the top level. -/
theorem read_pragma (cs : List Char) :
    read '#' ("lang = nih-sexpr\n".toList ++ cs)
      = .ok (pragma "#lang = nih-sexpr".toList .sexpr, '\n' :: cs) := rfl

end Lexeme

/-- **A text behind a pragma** without other pragmas and without annotations is tokenized into the
tokens of its lexemes and an end of input, all under the dialect that the pragma asks for. -/
theorem tokenize_under_pragma (track : Bool) {cs : List Char} {ls : List Lexeme} (h : Reads cs ls)
    (hreturn : '\r' ∉ cs) (hquiet : ∀ l ∈ ls, l.isQuiet = true)
    (hroom : ∀ p, (tokensFrom p ls).length ≤ Limits.tokenCount) :
    ∃ stream tally p last,
      tokenize ("#lang = nih-sexpr\n".toList ++ cs) track = .ok (stream, tally) ∧
      stream.remaining = tokensFrom p ls ++ [last] ∧ last.isEof = true ∧
      stream.switches = [⟨0, .sexpr⟩] := by
  obtain ⟨s₀, haccept⟩ := @Scan.accept_of_le track {} (.pragma "#lang = nih-sexpr".toList .sexpr)
    (Nat.zero_le _)
  obtain ⟨-, htokens₀, hpending₀⟩ := Scan.accept_ok haccept
  have hswitches₀ := Scan.accept_switches haccept
  change s₀.tokens.toList = [] at htokens₀
  -- The first line leaves no token, only the dialect; `s₀` is where the other lexemes begin.
  have hsize₀ : s₀.tokens.size = 0 := by
    rw [← Array.length_toList, htokens₀, List.length_nil]
  have hroom₀ : s₀.tokens.size + (tokensFrom s₀.cursor.position (.newline :: ls)).length
      ≤ Limits.tokenCount := by
    rw [hsize₀, tokensFrom, List.length_append]
    show 0 + (0 + _) ≤ _
    have := hroom (s₀.cursor.position.after Lexeme.newline.chars)
    omega
  -- Nothing waits at the end, and the dialect stays.
  obtain ⟨s₁, hfold, hpending₁, hswitches₁, htokens₁⟩ := @Scan.foldlM_accept_of_isQuiet track
    (.newline :: ls) (List.forall_mem_cons.mpr ⟨rfl, hquiet⟩) s₀ hpending₀ hroom₀
  obtain ⟨s, hfinish⟩ := @Scan.finish_of_pending track s₁ hpending₁
  obtain ⟨-, hswitches, htokens⟩ := Scan.finish_ok hfinish
  have hsource : Scan.ofSource ("#lang = nih-sexpr\n".toList ++ cs) track = .ok s := by
    have hline : '\r' ∉ "#lang = nih-sexpr\n".toList := by simp
    have hnewline : Reads ('\n' :: cs) (.newline :: ls) := .cons rfl h
    rw [Scan.ofSource_of_reads (fun hmem => (List.mem_append.mp hmem).elim hline hreturn)
      (.cons (Lexeme.read_pragma cs) hnewline), List.foldlM_cons, haccept]
    show Except.bind (List.foldlM (Scan.accept track) s₀ _) _ = _
    rw [hfold]
    exact hfinish
  refine ⟨_, _, s₀.cursor.position.after ['\n'], .closing (.point s₁.cursor.position),
    Scan.tokenize_of_ofSource hsource, ?_, rfl, ?_⟩
  · rw [Scan.stream_remaining hsource, htokens, htokens₁, htokens₀, hpending₁, List.nil_append,
      Option.map_none, Option.toList_none, List.append_nil]
    rfl
  · show s.switches.toList = _
    rw [hswitches, hswitches₁, hswitches₀]
    rfl

/-! ## Heads -/

/-- The lexemes that a head is read as. Most heads are one lexeme; those with a minus sign come
apart, and so do those of which the table of operators lists a beginning first. -/
def headLexemes (head : String) : List Lexeme :=
  match head with
  | "do-while" => [.keyword ['d', 'o'], .operator ['-'], .keyword ['w', 'h', 'i', 'l', 'e']]
  | "for-lt" => [.keyword ['f', 'o', 'r'], .operator ['-'], .name ['l', 't'] []]
  | "<=" => [.operator ['<'], .operator ['=']]
  | ">=" => [.operator ['>'], .operator ['=']]
  | "^^" => [.operator ['^'], .operator ['^']]
  | "cast" => [.name ['c', 'a', 's', 't'] []]
  | _ =>
    if Category.keyword.has head then [.keyword head.toList] else [.operator head.toList]

/-- A word or an operator, but no parenthesis: what heads are made of. -/
def Lexeme.isPart : Lexeme → Bool
  | operator w => trim w == w && w != ['('] && w != [')']
  | keyword w | name w [] => w != ['('] && w != [')']
  | _ => false

/-- The lexemes of a head are parts that make up its text, at least one and not too many. -/
theorem headLexemes_spec : ∀ e ∈ headRecipes, (∀ l ∈ headLexemes e.1, l.isPart = true) ∧
    (headLexemes e.1).flatMap Lexeme.chars = e.1.toList ∧
    0 < (headLexemes e.1).length ∧ (headLexemes e.1).length ≤ longestHead := by
  decide +kernel

/-- A head in front of a blank, or of a parenthesis if it needs no slots, is read as its lexemes. -/
theorem reads_head {head : String} {recipe : Recipe} (h : (head, recipe) ∈ headRecipes) {c : Char}
    {cs : List Char} {ls : List Lexeme}
    (hc : c = ' ' ∨ c = ')' ∧ (recipe = .block ∨ recipe = .params)) (hmore : Reads (c :: cs) ls) :
    Reads (head.toList ++ c :: cs) (headLexemes head ++ ls) := by
  simp only [headRecipes, List.mem_cons, Prod.mk.injEq, List.not_mem_nil, or_false] at h
  rcases hc with rfl | ⟨rfl, rfl | rfl⟩
  · have hcast := @Lexeme.read_name 'c' ['a', 's', 't'] (' ' :: cs) (by simp [IsWord]; decide)
      (by decide) (by decide +kernel) (separated_blank cs)
    have hlt := @Lexeme.read_name 'l' ['t'] (' ' :: cs) (by simp [IsWord]; decide) (by decide)
      (by decide +kernel) (separated_blank cs)
    -- The table is gone through: the characters of a head decide, whatever stands behind the blank.
    rcases h with ⟨rfl, -⟩ | ⟨rfl, -⟩ | ⟨rfl, -⟩ | ⟨rfl, -⟩ | ⟨rfl, -⟩ | ⟨rfl, -⟩ | ⟨rfl, -⟩ |
      ⟨rfl, -⟩ | ⟨rfl, -⟩ | ⟨rfl, -⟩ | ⟨rfl, -⟩ | ⟨rfl, -⟩ | ⟨rfl, -⟩ | ⟨rfl, -⟩ | ⟨rfl, -⟩ |
      ⟨rfl, -⟩ | ⟨rfl, -⟩ | ⟨rfl, -⟩ | ⟨rfl, -⟩ | ⟨rfl, -⟩ | ⟨rfl, -⟩ | ⟨rfl, -⟩ | ⟨rfl, -⟩ |
      ⟨rfl, -⟩ | ⟨rfl, -⟩ | ⟨rfl, -⟩ | ⟨rfl, -⟩ | ⟨rfl, -⟩ | ⟨rfl, -⟩ | ⟨rfl, -⟩ | ⟨rfl, -⟩ |
      ⟨rfl, -⟩ | ⟨rfl, -⟩ | ⟨rfl, -⟩ | ⟨rfl, -⟩
    all_goals first
      | exact .cons rfl hmore
      | exact .cons hcast hmore
      | exact .cons rfl (.cons rfl hmore)
      | exact .cons rfl (.cons rfl (.cons rfl hmore))
      | exact .cons rfl (.cons rfl (.cons hlt hmore))
  · obtain rfl : head = "do" := by simpa using h
    exact .cons rfl hmore
  · obtain rfl : head = "plist" := by simpa using h
    exact .cons rfl hmore

end FormScript
