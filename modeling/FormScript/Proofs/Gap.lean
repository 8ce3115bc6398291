import FormScript.Token.Scan
import FormScript.Proofs.Shape

/-!
# Gaps

What stands between two tokens is made up of blanks, newlines, comments, annotations and pragmas
(`Gap`). Which pieces these are is a matter of the text and not of a choice: a comment to the end
of the line goes up to the newline, a word as far as it can, and a comment between marks up to the
mark that closes it. **`Gap.unique`** says so for the annotations in a gap, which are all that the
rest of the program sees of it.
-/

namespace FormScript

/-- What starts a comment to the end of the line. -/
def IsLineCommentMark (mark : List Char) : Prop :=
  mark = ['/', '/'] ∨ mark = ['#', ' '] ∨ mark = ['#', '\t'] ∨ mark = [';']

/-- One piece of a gap, in front of `rest`, and the annotation that it is. -/
inductive GapPiece : List Char → List Char → List String → Prop
  | newline {rest : List Char} : GapPiece ['\n'] rest []
  | blank {c : Char} {rest : List Char} (h : isGap c = true) : GapPiece [c] rest []
  | lineComment {mark text rest : List Char} (hmark : IsLineCommentMark mark) (inLine : '\n' ∉ text)
      (ends : Ends (· != '\n') rest) : GapPiece (mark ++ text) rest []
  | blockComment {body rest : List Char} (closes : closesComments 1 body = true) :
      GapPiece ('/' :: '*' :: body) rest []
  | pragma {text rest : List Char} {dialect : Dialect} (h : IsPragma text dialect)
      (ends : Ends isDialectChar rest) : GapPiece text rest []
  | ascription {w rest : List Char} (h : IsWord w) (ends : Ends isWordChar rest) :
      GapPiece (':' :: w) rest [String.ofList w]

/-- What may stand between two tokens: `Gap gap rest names` says that `gap`, in front of `rest`, is
made up of blanks, newlines, comments, annotations and pragmas, and that `names` are the
annotations among them, from left to right. -/
inductive Gap : List Char → List Char → List String → Prop
  | nil {rest : List Char} : Gap [] rest []
  | cons {piece gap rest : List Char} {names names' : List String}
      (first : GapPiece piece (gap ++ rest) names) (more : Gap gap rest names') :
      Gap (piece ++ gap) rest (names ++ names')

theorem Gap.append {a b rest : List Char} {names names' : List String}
    (ha : Gap a (b ++ rest) names) (hb : Gap b rest names') :
    Gap (a ++ b) rest (names ++ names') := by
  generalize hrest : b ++ rest = r at ha
  induction ha with
  | nil => exact hb
  | cons first _ ih =>
    subst hrest
    rw [List.append_assoc, List.append_assoc]
    exact .cons (by rwa [List.append_assoc]) (ih rfl)

/-! ## A gap is read in one way -/

/-- A stretch of characters of one kind, up to one that is not of that kind. -/
theorem stretch_unique {p : Char → Bool} {a b r s : List Char} (ha : ∀ c ∈ a, p c = true)
    (hb : ∀ c ∈ b, p c = true) (hr : Ends p r) (hs : Ends p s) (h : a ++ r = b ++ s) : a = b := by
  have hlead : ∀ {a r : List Char}, (∀ c ∈ a, p c = true) → Ends p r →
      (a ++ r).takeWhile p = a := by
    intro a r ha hr
    rw [List.takeWhile_append_of_pos ha]
    cases r with
    | nil => simp
    | cons c r => simp [ends_cons.mp hr]
  rw [← hlead ha hr, h, hlead hb hs]

/-- A comment ends where its last mark closes it, and nowhere else. -/
theorem closesComments_unique {n : Nat} {a b r s : List Char} (ha : closesComments n a = true)
    (hb : closesComments n b = true) (h : a ++ r = b ++ s) : a = b := by
  fun_induction closesComments n a generalizing b with
  | case1 cs =>
    rw [closesComments] at hb
    rw [List.isEmpty_iff.mp ha, List.isEmpty_iff.mp hb]
  | case2 => cases ha
  | case3 n cs ih =>
    rcases b with _ | ⟨c, _ | ⟨d, b⟩⟩
    · simp [closesComments] at hb
    · simp [closesComments] at hb
    · obtain ⟨rfl, rfl, htail⟩ : '/' = c ∧ '*' = d ∧ cs ++ r = b ++ s := by simpa using h
      rw [ih ha hb htail]
  | case4 n cs ih =>
    rcases b with _ | ⟨c, _ | ⟨d, b⟩⟩
    · simp [closesComments] at hb
    · simp [closesComments] at hb
    · obtain ⟨rfl, rfl, htail⟩ : '*' = c ∧ '/' = d ∧ cs ++ r = b ++ s := by simpa using h
      rw [ih ha hb htail]
  | case5 n c cs hopen hclose ih =>
    cases b with
    | nil => simp [closesComments] at hb
    | cons d b =>
      obtain ⟨rfl, htail⟩ : c = d ∧ cs ++ r = b ++ s := by simpa using h
      -- A mark in `b` would be one in `c :: cs` too, which has a character behind `c`.
      have hmark : ∀ d' b', b = d' :: b' → ∃ cs', cs = d' :: cs' := by
        rintro d' b' rfl
        cases cs with
        | nil => simp [closesComments] at ha
        | cons c' cs' =>
          obtain ⟨rfl, -⟩ : c' = d' ∧ cs' ++ r = b' ++ s := by simpa using htail
          exact ⟨cs', rfl⟩
      rw [closesComments] at hb
      · rw [ih ha hb htail]
      · rintro b' rfl rfl
        obtain ⟨cs', rfl⟩ := hmark _ _ rfl
        exact hopen cs' rfl rfl
      · rintro b' rfl rfl
        obtain ⟨cs', rfl⟩ := hmark _ _ rfl
        exact hclose cs' rfl rfl

/-- A dialect's name is not empty and no blank is part of it. -/
theorem ends_isGap_name {name rest : List Char} {dialect : Dialect}
    (hname : ∀ c ∈ name, isDialectChar c = true)
    (h : Dialect.ofName? (String.ofList name) = some dialect) : Ends isGap (name ++ rest) := by
  cases name with
  | nil => simp [Dialect.ofName?] at h
  | cons c name =>
    rw [List.cons_append, ends_cons]
    by_cases hc : isGap c = true
    · have hdialect := hname c List.mem_cons_self
      rcases (by simpa [isGap] using hc : c = ' ' ∨ c = '\t') with rfl | rfl
      · exact absurd hdialect (by decide)
      · exact absurd hdialect (by decide)
    · exact Bool.eq_false_iff.mpr hc

/-- A pragma ends with its dialect's name, the stretch behind the sign and the blanks around it. -/
theorem IsPragma.unique {a b r s : List Char} {x y : Dialect} (ha : IsPragma a x)
    (hb : IsPragma b y) (hr : Ends isDialectChar r) (hs : Ends isDialectChar s)
    (h : a ++ r = b ++ s) : a = b := by
  obtain ⟨gap, gap', name, rfl, hgap, hgap', hname, hofName⟩ := ha
  obtain ⟨lap, lap', mane, rfl, hlap, hlap', hmane, hofMane⟩ := hb
  simp only [List.append_assoc, List.cons_append, List.append_cancel_left_eq] at h ⊢
  have hsign : ∀ cs : List Char, Ends isGap ('=' :: cs) := fun cs => ends_cons.mpr rfl
  obtain rfl := stretch_unique hgap hlap (hsign _) (hsign _) h
  simp only [List.append_cancel_left_eq, List.cons.injEq, true_and] at h ⊢
  obtain rfl := stretch_unique hgap' hlap' (ends_isGap_name hname hofName)
    (ends_isGap_name hmane hofMane) h
  rw [stretch_unique hname hmane hr hs (List.append_cancel_left h)]

/-- The text alone tells where a piece ends and what it is. -/
theorem GapPiece.unique {a b r s : List Char} {names names' : List String}
    (ha : GapPiece a r names) (hb : GapPiece b s names') (h : a ++ r = b ++ s) :
    a = b ∧ names = names' := by
  -- Two pieces of different kinds differ in one of the first two characters.
  cases ha <;> cases hb
  case newline.newline => exact ⟨rfl, rfl⟩
  case blank.blank => exact ⟨by grind, rfl⟩
  case lineComment.lineComment hmark inLine ends _ _ hmark' inLine' ends' =>
    have hline : ∀ {mark text : List Char}, IsLineCommentMark mark → '\n' ∉ text →
        ∀ c ∈ mark ++ text, (c != '\n') = true := by
      grind [IsLineCommentMark]
    exact ⟨stretch_unique (hline hmark inLine) (hline hmark' inLine') ends ends' h, rfl⟩
  case blockComment.blockComment closes _ closes' =>
    have htail := @List.append_cancel_left _ ['/', '*'] _ _ h
    exact ⟨by rw [closesComments_unique closes closes' htail], rfl⟩
  case pragma.pragma _ hpragma ends _ hpragma' ends' =>
    exact ⟨hpragma.unique hpragma' ends ends' h, rfl⟩
  case ascription.ascription hword ends _ hword' ends' =>
    have hstretch := stretch_unique (IsWord.isWordChar hword) (IsWord.isWordChar hword')
      ends ends' (@List.append_cancel_left _ [':'] _ _ h)
    exact ⟨by rw [hstretch], by rw [hstretch]⟩
  all_goals grind [isGap, IsPragma, IsLineCommentMark]

theorem GapPiece.ne_nil {piece rest : List Char} {names : List String}
    (h : GapPiece piece rest names) : piece ≠ [] := by
  cases h <;> grind [IsPragma, IsLineCommentMark]

/-- **A gap is read in one way**, so the annotations in it are a matter of the text. -/
theorem Gap.unique {gap gap' rest : List Char} {names names' : List String}
    (h : Gap gap rest names) (h' : Gap gap' rest names') (hgap : gap = gap') : names = names' := by
  induction h generalizing gap' names' with
  | nil =>
    cases h' with
    | nil => rfl
    | cons first _ => exact absurd (List.append_eq_nil_iff.mp hgap.symm).1 first.ne_nil
  | @cons _ _ rest _ _ first _ ih =>
    cases h' with
    | nil => exact absurd (List.append_eq_nil_iff.mp hgap).1 first.ne_nil
    | cons first' more' =>
      have htext := congrArg (· ++ rest) hgap
      simp only [List.append_assoc] at htext
      obtain ⟨rfl, rfl⟩ := first.unique first' htext
      rw [ih more' (List.append_cancel_left hgap)]

/-! ## Lexemes without tokens -/

/-- The annotation that a lexeme is. -/
def Lexeme.names : Lexeme → List String
  | ascription w => [String.ofList w]
  | _ => []

theorem Lexeme.isLineCommentMark {text : List Char} (h : startsLineComment text = true) :
    ∃ mark body, text = mark ++ body ∧ IsLineCommentMark mark := by
  unfold startsLineComment at h
  split at h
  · exact ⟨['/', '/'], _, rfl, .inl rfl⟩
  · rename_i c rest
    rcases (by simpa [isGap] using h : c = ' ' ∨ c = '\t') with rfl | rfl
    · exact ⟨['#', ' '], rest, rfl, .inr (.inl rfl)⟩
    · exact ⟨['#', '\t'], rest, rfl, .inr (.inr (.inl rfl))⟩
  · exact ⟨[';'], _, rfl, .inr (.inr (.inr rfl))⟩
  · cases h

/-- A lexeme without tokens is a piece of a gap. -/
theorem Lexeme.gapPiece {l : Lexeme} {p : Position} {rest : List Char} (h : l.Fits rest)
    (hsilent : l.tokens p = []) : GapPiece l.chars rest l.names := by
  cases l with
  | newline => exact .newline
  | blank c => exact .blank h
  | lineComment text =>
    obtain ⟨starts, inLine, ends⟩ := h
    obtain ⟨mark, body, rfl, hmark⟩ := isLineCommentMark starts
    exact .lineComment hmark (fun hmem => inLine (List.mem_append_right _ hmem)) ends
  | blockComment text depth =>
    obtain ⟨body, rfl, closes⟩ := h
    exact .blockComment closes
  | ascription w => exact .ascription h.1 h.2
  | pragma text dialect => exact .pragma h.1 h.2
  | name first more => cases more <;> simp [Lexeme.tokens] at hsilent
  | number | string | operator | keyword => simp [Lexeme.tokens] at hsilent

theorem Gap.snoc {gap rest : List Char} {names : List String} {l : Lexeme} {p : Position}
    (h : Gap gap (l.chars ++ rest) names) (hfits : l.Fits rest) (hsilent : l.tokens p = []) :
    Gap (gap ++ l.chars) rest (names ++ l.names) := by
  have hpiece : Gap (l.chars ++ []) rest (l.names ++ []) :=
    .cons (Lexeme.gapPiece hfits hsilent) .nil
  rw [List.append_nil, List.append_nil] at hpiece
  exact h.append hpiece

end FormScript
