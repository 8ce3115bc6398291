import FormScript.Proofs.Shape

/-!
# Reading does not look past the end of a line

What the next lexeme is depends on the characters ahead, and some readers look far ahead: for the
quote that closes a string, for the end of a comment, for a longer operator.
**`Lexeme.read_append`** says that none of them is misled by what comes later: if a lexeme can be
read from a text in which a newline is still to come, then the same lexeme is read however the text
goes on.

The readers fall into two kinds. Those of words, numbers, operators and pragmas stop at the newline
at the latest, because no character they take is one; for them nothing needs to be known but that
there is a newline. Those of strings and block comments run over newlines, but they find what they
look for inside the text, so it does not matter what else there would have been to find.
-/

namespace FormScript

variable {cs : List Char}

/-! ## Runs of characters -/

theorem takeWhile_append_of_mem {p : Char → Bool} {e : Char} (he : e ∈ cs) (hp : p e = false)
    (more : List Char) : (cs ++ more).takeWhile p = cs.takeWhile p := by
  induction cs with
  | nil => cases he
  | cons c cs ih =>
    by_cases hc : p c = true
    · have hmem : e ∈ cs := by
        rcases List.mem_cons.mp he with rfl | he
        · rw [hp] at hc
          cases hc
        · exact he
      rw [List.cons_append, List.takeWhile_cons_of_pos hc, List.takeWhile_cons_of_pos hc, ih hmem]
    · rw [List.cons_append, List.takeWhile_cons_of_neg hc, List.takeWhile_cons_of_neg hc]

theorem mem_dropWhile_of_mem {p : Char → Bool} {e : Char} (he : e ∈ cs) (hp : p e = false) :
    e ∈ cs.dropWhile p := by
  rw [← List.takeWhile_append_dropWhile (p := p) (l := cs), List.mem_append] at he
  rcases he with he | he
  · have := List.all_eq_true.mp List.all_takeWhile e he
    rw [hp] at this
    cases this
  · exact he

theorem dropWhile_append_of_mem {p : Char → Bool} {e : Char} (he : e ∈ cs) (hp : p e = false)
    (more : List Char) : (cs ++ more).dropWhile p = cs.dropWhile p ++ more := by
  have hsplit := List.takeWhile_append_dropWhile (p := p) (l := cs ++ more)
  rw [takeWhile_append_of_mem he hp] at hsplit
  have hsame : cs.takeWhile p ++ (cs ++ more).dropWhile p
      = cs.takeWhile p ++ (cs.dropWhile p ++ more) := by
    rw [hsplit, ← List.append_assoc, List.takeWhile_append_dropWhile]
  exact List.append_cancel_left hsame

theorem isPrefixOf_append_of_mem {w : List Char} (hw : '\n' ∉ w) (h : '\n' ∈ cs)
    (more : List Char) : w.isPrefixOf (cs ++ more) = w.isPrefixOf cs := by
  induction w generalizing cs with
  | nil => rw [List.isPrefixOf, List.isPrefixOf]
  | cons d w ih =>
    cases cs with
    | nil => cases h
    | cons c cs =>
      rw [List.cons_append, List.isPrefixOf, List.isPrefixOf]
      by_cases hd : d = c
      · -- The newline is not among the characters compared, so it is still to come.
        have hmem : '\n' ∈ cs := by
          rcases List.mem_cons.mp h with hc | hmem
          · exact absurd (List.mem_cons.mpr (.inl (hc.trans hd.symm))) hw
          · exact hmem
        rw [ih (fun hmem => hw (List.mem_cons_of_mem _ hmem)) hmem]
      · rw [beq_eq_false_iff_ne.mpr hd, Bool.false_and, Bool.false_and]

/-- A text that is long enough shows whether it begins with a mark. -/
theorem isPrefixOf_append_of_length {w : List Char} (h : w.length ≤ cs.length)
    (more : List Char) : w.isPrefixOf (cs ++ more) = w.isPrefixOf cs := by
  induction w generalizing cs with
  | nil => rw [List.isPrefixOf, List.isPrefixOf]
  | cons d w ih =>
    cases cs with
    | nil => cases h
    | cons c cs =>
      rw [List.cons_append, List.isPrefixOf, List.isPrefixOf, ih (Nat.le_of_succ_le_succ h)]

theorem firstMatch?_append {spellings : List (List Char)} (hspellings : ∀ w ∈ spellings, '\n' ∉ w)
    (h : '\n' ∈ cs) (more : List Char) :
    firstMatch? spellings (cs ++ more) = firstMatch? spellings cs := by
  induction spellings with
  | nil => rfl
  | cons w ws ih =>
    unfold firstMatch? at ih ⊢
    rw [List.find?_cons, List.find?_cons,
      isPrefixOf_append_of_mem (hspellings w List.mem_cons_self) h,
      ih fun v hv => hspellings v (List.mem_cons_of_mem _ hv)]

theorem newline_not_mem_operatorSpellings : ∀ w ∈ operatorSpellings, '\n' ∉ w := by decide +kernel

theorem newline_not_mem_keywordSpellings : ∀ w ∈ keywordSpellings, '\n' ∉ w := by decide +kernel

/-! ## Words -/

theorem IsWord.newline_not_mem {w : List Char} (h : IsWord w) : '\n' ∉ w :=
  fun hmem => absurd (h.isWordChar _ hmem) (by decide)

theorem word?_append (h : '\n' ∈ cs) (more : List Char) :
    word? (cs ++ more) = (word? cs).map fun r => (r.1, r.2 ++ more) := by
  cases cs with
  | nil => cases h
  | cons c cs =>
    rw [List.cons_append, word?, word?]
    by_cases hc : isWordStart c = true
    · have hmem : '\n' ∈ cs := by
        rcases List.mem_cons.mp h with rfl | hmem
        · exact absurd hc (by decide)
        · exact hmem
      rw [if_pos hc, if_pos hc, takeWhile_append_of_mem hmem (by decide),
        dropWhile_append_of_mem hmem (by decide)]
      rfl
    · rw [if_neg hc, if_neg hc]
      rfl

theorem newline_mem_of_word? {w rest : List Char} (h : '\n' ∈ cs)
    (hw : word? cs = some (w, rest)) : '\n' ∈ rest := by
  rw [← (Lexeme.word?_eq hw).1, List.mem_append] at h
  exact h.resolve_left (Lexeme.word?_isWord hw).1.newline_not_mem

namespace Lexeme

theorem readMore_append (words : List (List Char)) (h : '\n' ∈ cs) (more : List Char) :
    readMore words (cs ++ more)
      = ((readMore words cs).1, (readMore words cs).2 ++ more) := by
  fun_induction readMore words cs with
  | case1 words rest w rest' hw ih =>
    have hmem : '\n' ∈ rest := (List.mem_cons.mp h).resolve_left (by decide)
    have hw' : word? (rest ++ more) = some (w, rest' ++ more) := by
      rw [word?_append hmem, hw]
      rfl
    rw [List.cons_append, readMore_dot words hw', ih (newline_mem_of_word? hmem hw)]
  | case2 words rest hw =>
    have hmem : '\n' ∈ rest := (List.mem_cons.mp h).resolve_left (by decide)
    have hw' : word? (rest ++ more) = none := by
      rw [word?_append hmem, hw]
      rfl
    rw [List.cons_append, readMore]
    split
    · rename_i hsome
      rw [hw'] at hsome
      cases hsome
    · rfl
  | case3 words cs hdot =>
    refine readMore_of_ends words ?_
    cases cs with
    | nil => cases h
    | cons c cs =>
      rw [List.cons_append, ends_cons]
      refine beq_eq_false_iff_ne.mpr ?_
      rintro rfl
      exact hdot cs rfl

theorem readName_append {l : Lexeme} {rest : List Char} (h : '\n' ∈ cs)
    (hread : readName cs = .ok (l, rest)) (more : List Char) :
    readName (cs ++ more) = .ok (l, rest ++ more) := by
  have hmem : '\n' ∈ cs.dropWhile isWordChar := mem_dropWhile_of_mem h (by decide)
  unfold readName at hread ⊢
  rw [takeWhile_append_of_mem h (by decide), dropWhile_append_of_mem h (by decide),
    readMore_append [] hmem]
  dsimp only at hread ⊢
  split at hread
  · cases hread
  · cases hread
    rfl

theorem keyword?_append (h : '\n' ∈ cs) (more : List Char) :
    keyword? (cs ++ more) = (keyword? cs).map fun r => (r.1, r.2 ++ more) := by
  unfold keyword?
  rw [firstMatch?_append newline_not_mem_keywordSpellings h]
  cases hfirst : firstMatch? keywordSpellings cs with
  | none => rfl
  | some w =>
    obtain ⟨hsplit, hw⟩ := firstMatch?_eq hfirst
    -- The keyword lies before the newline, so something is left to look at behind it.
    have hmem : '\n' ∈ cs.drop w.length := by
      rw [← hsplit, List.mem_append] at h
      exact h.resolve_left (newline_not_mem_keywordSpellings w hw)
    have hlength : w.length ≤ cs.length := by
      rw [← hsplit, List.length_append]
      exact Nat.le_add_right _ _
    simp only [Option.bind_eq_bind, Option.bind_some, List.drop_append_of_le_length hlength]
    cases hrest : cs.drop w.length with
    | nil =>
      rw [hrest] at hmem
      cases hmem
    | cons c rest =>
      by_cases hc : isWordChar c = true
      · simp [hc]
      · simp [hc]

/-! ## Numbers and strings -/

theorem readNumber_append (h : '\n' ∈ cs) (more : List Char) :
    readNumber (cs ++ more) = ((readNumber cs).1, (readNumber cs).2 ++ more) := by
  have hmem : '\n' ∈ cs.dropWhile Char.isDigit := mem_dropWhile_of_mem h (by decide)
  unfold readNumber
  rw [takeWhile_append_of_mem h (by decide), dropWhile_append_of_mem h (by decide)]
  generalize cs.takeWhile Char.isDigit = whole
  generalize cs.dropWhile Char.isDigit = tail at hmem
  dsimp only
  split
  · rename_i d rest heq
    -- The point and the character behind it lie before the newline or are not both there.
    obtain ⟨rest, rfl, rfl⟩ : ∃ rest', tail = '.' :: d :: rest' ∧ rest = rest' ++ more := by
      match tail, hmem, heq with
      | [_], hmem, heq =>
        cases heq
        exact absurd hmem (by decide)
      | _ :: _ :: rest', _, heq =>
        cases heq
        exact ⟨rest', rfl, rfl⟩
    by_cases hd : d.isDigit = true
    · have hrest : '\n' ∈ rest := by
        rcases List.mem_cons.mp ((List.mem_cons.mp hmem).resolve_left (by decide)) with rfl | hrest
        · exact absurd hd (by decide)
        · exact hrest
      simp only [if_pos hd, List.takeWhile_cons_of_pos hd,
        takeWhile_append_of_mem hrest (show Char.isDigit '\n' = false by decide),
        dropWhile_append_of_mem hrest (show Char.isDigit '\n' = false by decide)]
    · simp only [if_neg hd, List.cons_append]
  · rename_i hpoint
    split
    · rename_i d rest
      exact absurd rfl (hpoint d (rest ++ more))
    · rfl

theorem splitAtMark?_append {mark body rest : List Char}
    (h : splitAtMark? mark cs = some (body, rest)) (more : List Char) :
    splitAtMark? mark (cs ++ more) = some (body, rest ++ more) := by
  suffices ∀ cs before, splitAtMark?.go mark cs before = some (body, rest) →
      mark.length ≤ cs.length ∧
        splitAtMark?.go mark (cs ++ more) before = some (body, rest ++ more) from (this cs [] h).2
  intro cs
  induction cs with
  | nil =>
    intro before h
    cases h
  | cons c cs ih =>
    intro before h
    rw [splitAtMark?.go] at h
    rw [List.cons_append, splitAtMark?.go, ← List.cons_append]
    split at h
    · rename_i hmark
      have hlength : mark.length ≤ (c :: cs).length :=
        (List.isPrefixOf_iff_prefix.mp hmark).length_le
      cases h
      rw [isPrefixOf_append_of_length hlength, if_pos hmark,
        List.drop_append_of_le_length hlength]
      exact ⟨hlength, rfl⟩
    · -- The mark is found further on, so there is room for it here as well.
      rename_i hmark
      obtain ⟨hlength, hgo⟩ := ih _ h
      have hlength' : mark.length ≤ (c :: cs).length := Nat.le_succ_of_le hlength
      rw [isPrefixOf_append_of_length hlength', if_neg hmark]
      exact ⟨hlength', hgo⟩

theorem readString_append {quote : Char} {l : Lexeme} {rest : List Char} (hquote : quote ≠ '\n')
    (h : '\n' ∈ cs) (hread : readString quote cs = .ok (l, rest)) (more : List Char) :
    readString quote (cs ++ more) = .ok (l, rest ++ more) := by
  have hdelimiter : delimiterOf quote (cs ++ more) = delimiterOf quote cs := by
    unfold delimiterOf
    rw [isPrefixOf_append_of_mem (by simpa using hquote.symm) h]
  have hlength : (delimiterOf quote cs).length ≤ (quote :: cs).length := by
    rw [← (delimiterOf_eq quote cs).1, List.length_append]
    exact Nat.le_add_right _ _
  unfold readString at hread ⊢
  dsimp only at hread ⊢
  rw [hdelimiter, ← List.cons_append, List.drop_append_of_le_length hlength]
  split at hread
  · cases hread
  · rename_i body tail hsplit
    rw [splitAtMark?_append hsplit]
    dsimp only
    split at hread
    · cases hread
    · rename_i hsize
      cases hread
      rw [if_neg hsize]

/-! ## Comments -/

theorem readLineComment_append {l : Lexeme} {rest : List Char} (h : '\n' ∈ cs)
    (hread : readLineComment cs = .ok (l, rest)) (more : List Char) :
    readLineComment (cs ++ more) = .ok (l, rest ++ more) := by
  unfold readLineComment at hread ⊢
  rw [takeWhile_append_of_mem h (by decide), dropWhile_append_of_mem h (by decide)]
  dsimp only at hread ⊢
  split at hread
  · cases hread
  · rename_i hsize
    cases hread
    rw [if_neg hsize]

theorem readBlockComment_append {s t : CommentState} {rest : List Char}
    (h : readBlockComment s cs = .ok (t, rest)) (more : List Char) :
    readBlockComment s (cs ++ more) = .ok (t, rest ++ more) := by
  fun_induction readBlockComment s cs with
  | case1 => cases h
  | case2 => cases h
  | case3 => cases h
  | case4 s cs hdepth hsize ih =>
    rw [List.cons_append, List.cons_append, readBlockComment, if_neg hdepth, if_neg hsize]
    exact ih h
  | case5 => cases h
  | case6 s cs hsize houter =>
    cases h
    rw [List.cons_append, List.cons_append, readBlockComment, if_neg hsize, houter]
  | case7 s cs hsize next outer houter ih =>
    rw [List.cons_append, List.cons_append, readBlockComment, if_neg hsize, houter]
    exact ih h
  | case8 => cases h
  | case9 s c cs hopen hclose hsize ih =>
    -- The comment is not closed here, so there is a character more to look at.
    cases cs with
    | nil => cases h
    | cons d cs =>
      rw [List.cons_append, readBlockComment, if_neg hsize]
      · exact ih h
      · rintro cs' rfl heq
        rw [List.cons_append, List.cons.injEq] at heq
        exact hopen cs rfl (by rw [heq.1])
      · rintro cs' rfl heq
        rw [List.cons_append, List.cons.injEq] at heq
        exact hclose cs rfl (by rw [heq.1])

theorem readComment_append {l : Lexeme} {rest : List Char} (hread : readComment cs = .ok (l, rest))
    (more : List Char) : readComment (cs ++ more) = .ok (l, rest ++ more) := by
  unfold readComment at hread ⊢
  split at hread
  · cases hread
  · rename_i s tail hs
    cases hread
    obtain ⟨text, htext, hchars⟩ := readBlockComment_eq hs
    have hlength : s.chars - 2 ≤ cs.length := by
      rw [hchars, ← htext, List.length_append]
      show 2 + text.length - 2 ≤ _
      omega
    rw [readBlockComment_append hs]
    dsimp only
    rw [List.take_append_of_le_length hlength]

/-! ## Annotations, pragmas and symbols -/

theorem readAscription_append {l : Lexeme} {rest : List Char} (h : '\n' ∈ cs)
    (hread : readAscription cs = .ok (l, rest)) (more : List Char) :
    readAscription (cs ++ more) = .ok (l, rest ++ more) := by
  unfold readAscription at hread ⊢
  rw [word?_append h]
  split at hread
  · rename_i w tail hw
    cases hread
    rw [hw]
    rfl
  · cases hread

theorem readDialect?_append {l : Lexeme} {rest : List Char} (h : '\n' ∈ cs)
    (hread : readDialect? cs = some (l, rest)) (more : List Char) :
    readDialect? (cs ++ more) = some (l, rest ++ more) := by
  unfold readDialect? at hread ⊢
  obtain ⟨⟨w, afterWord⟩, hw, hread⟩ := Option.bind_eq_some_iff.mp hread
  have hmem : '\n' ∈ afterWord := newline_mem_of_word? h hw
  rw [word?_append h, hw]
  simp only [Option.map_some, Option.bind_eq_bind, Option.bind_some] at hread ⊢
  split at hread
  · cases hread
  · rename_i hlang
    rw [if_neg hlang, takeWhile_append_of_mem hmem (by decide),
      dropWhile_append_of_mem hmem (by decide)]
    have hmem' : '\n' ∈ afterWord.dropWhile isGap := mem_dropWhile_of_mem hmem (by decide)
    split at hread
    · rename_i afterEquals heq
      rw [heq] at hmem' ⊢
      -- Behind the equals sign the gap and the name stop at the newline like those before.
      have hmem₁ : '\n' ∈ afterEquals := (List.mem_cons.mp hmem').resolve_left (by decide)
      have hmem₂ : '\n' ∈ afterEquals.dropWhile isGap := mem_dropWhile_of_mem hmem₁ (by decide)
      obtain ⟨d, hd, hread⟩ := Option.bind_eq_some_iff.mp hread
      cases hread
      simp only [List.cons_append,
        takeWhile_append_of_mem hmem₁ (show isGap '\n' = false by decide),
        dropWhile_append_of_mem hmem₁ (show isGap '\n' = false by decide)]
      rw [takeWhile_append_of_mem hmem₂ (by decide), dropWhile_append_of_mem hmem₂ (by decide), hd]
      rfl
    · cases hread

theorem readPragma_append {l : Lexeme} {rest : List Char} (h : '\n' ∈ cs)
    (hread : readPragma cs = .ok (l, rest)) (more : List Char) :
    readPragma (cs ++ more) = .ok (l, rest ++ more) := by
  unfold readPragma at hread ⊢
  split at hread
  · rename_i r hr
    cases hread
    rw [readDialect?_append h hr]
  · cases hread

theorem readSymbol_append {c : Char} {l : Lexeme} {rest : List Char} (h : '\n' ∈ cs)
    (hread : readSymbol c cs = .ok (l, rest)) (more : List Char) :
    readSymbol c (cs ++ more) = .ok (l, rest ++ more) := by
  have hmem : '\n' ∈ c :: cs := List.mem_cons_of_mem _ h
  unfold readSymbol at hread ⊢
  rw [← List.cons_append, firstMatch?_append newline_not_mem_operatorSpellings hmem,
    keyword?_append hmem]
  split at hread
  · rename_i w hw
    cases hread
    have hlength : w.length ≤ (c :: cs).length := by
      rw [← (firstMatch?_eq hw).1, List.length_append]
      exact Nat.le_add_right _ _
    rw [List.drop_append_of_le_length hlength]
  · split at hread
    · rename_i hw
      cases hread
      rw [hw]
      rfl
    · rename_i hw
      rw [hw]
      dsimp only [Option.map_none]
      unfold readOther at hread ⊢
      split at hread
      · rename_i hc
        rw [if_pos hc]
        exact readPragma_append h hread more
      · rename_i hc
        rw [if_neg hc]
        split at hread
        · rename_i hstart
          rw [if_pos hstart]
          exact readName_append hmem hread more
        · rename_i hstart
          rw [if_neg hstart]
          split at hread
          · rename_i hgap
            cases hread
            rw [if_pos hgap]
          · cases hread

theorem startsLineComment_append {c : Char} (h : '\n' ∈ cs) (more : List Char) :
    startsLineComment (c :: (cs ++ more)) = startsLineComment (c :: cs) := by
  cases cs with
  | nil => cases h
  | cons d cs =>
    rw [List.cons_append]
    unfold startsLineComment
    split <;> split <;> simp_all

/-- **What is read before a newline is read however the text goes on.** -/
theorem read_append {c : Char} {l : Lexeme} {rest : List Char} (h : '\n' ∈ c :: cs)
    (hread : read c cs = .ok (l, rest)) (more : List Char) :
    read c (cs ++ more) = .ok (l, rest ++ more) := by
  unfold read at hread ⊢
  by_cases hnewline : c = '\n'
  · rw [if_pos hnewline] at hread ⊢
    cases hread
    rfl
  rw [if_neg hnewline] at hread ⊢
  have hmem : '\n' ∈ cs := (List.mem_cons.mp h).resolve_left (Ne.symm hnewline)
  split at hread
  · rename_i hdigit
    have hnumber := Except.ok.inj hread
    rw [if_pos hdigit, ← List.cons_append, readNumber_append h, hnumber]
  rename_i hdigit
  rw [if_neg hdigit]
  split at hread
  · rename_i hquote
    rw [if_pos hquote]
    exact readString_append hnewline hmem hread more
  rename_i hquote
  rw [if_neg hquote, startsLineComment_append hmem]
  split at hread
  · rename_i hcomment
    rw [if_pos hcomment]
    exact readLineComment_append h hread more
  rename_i hcomment
  rw [if_neg hcomment, ← List.cons_append, isPrefixOf_append_of_mem (by decide) h]
  split at hread
  · rename_i hblock
    rw [if_pos hblock, List.drop_append_of_le_length (List.length_pos_of_mem hmem)]
    exact readComment_append hread more
  rename_i hblock
  rw [if_neg hblock]
  split at hread
  · rename_i hcolon
    rw [if_pos hcolon]
    exact readAscription_append hmem hread more
  · rename_i hcolon
    rw [if_neg hcolon]
    exact readSymbol_append hmem hread more

end Lexeme

end FormScript
