import FormScript.Proofs.Wording
import FormScript.Script.Write

/-!
# Brackets in scripts

A script is read here for its brackets alone, one character after the other. Strings and comments
are passed over, and every other bracket is opened or must be the one that closes what was opened
last. A text is *balanced* if that succeeds and nothing is left open. It is *self-delimiting* if on
top of that nothing stands outside its brackets and strings but words, digits and dots, so that no
operator can reach into it or out of it.

Texts are put together from pieces, so the reading of a piece is stated with the state before and
the state behind it (`Leads`), and pieces are joined by `Leads.append`. What is read at one depth is
read at every greater depth as well (`Leads.mono`), where nothing is ruled out any more. So a text
that is balanced can be put between any brackets.
-/

namespace FormScript

/-- What the next character of a script is part of. -/
inductive ScriptMode where
  | code
  /-- Code right behind a slash, which may turn out to begin a comment. -/
  | slash
  | literal
  /-- A string right behind a backslash. -/
  | escape
  | comment
deriving DecidableEq, Repr

/-- How far a script has been read: what comes next is part of, and what will close the brackets
that are open, innermost first. -/
structure Bracketing where
  mode : ScriptMode := .code
  closers : List Char := []
deriving DecidableEq, Repr

namespace Bracketing

/-- Leads a character of code. Outside all brackets, only some characters may stand besides
brackets and strings. -/
def stepCode (plain : Char → Bool) (closers : List Char) (c : Char) : Option Bracketing :=
  if c = '(' then some ⟨.code, ')' :: closers⟩
  else if c = '\x7b' then some ⟨.code, '\x7d' :: closers⟩
  else if c = ')' ∨ c = '\x7d' then
    match closers with
    | [] => none
    | closer :: outer => if c = closer then some ⟨.code, outer⟩ else none
  else if c = '\x22' then some ⟨.literal, closers⟩
  else if closers.isEmpty && !plain c then none
  else some ⟨if c = '/' then .slash else .code, closers⟩

/-- Leads a character. -/
def step (plain : Char → Bool) (r : Bracketing) (c : Char) : Option Bracketing :=
  match r.mode with
  | .code => stepCode plain r.closers c
  | .slash => if c = '/' then some ⟨.comment, r.closers⟩ else stepCode plain r.closers c
  | .literal =>
    some ⟨if c = '\x22' then .code else if c = '\\' then .escape else .literal, r.closers⟩
  | .escape => some ⟨.literal, r.closers⟩
  | .comment => some ⟨if c = '\n' then .code else .comment, r.closers⟩

/-- Leads a text. -/
def read (plain : Char → Bool) (r : Bracketing) (cs : List Char) : Option Bracketing :=
  cs.foldlM (step plain) r

/-- Reading a text leads from one state to another. -/
def Leads (plain : Char → Bool) (r : Bracketing) (text : String) (r' : Bracketing) : Prop :=
  read plain r text.toList = some r'

instance (plain : Char → Bool) (r r' : Bracketing) (text : String) :
    Decidable (Leads plain r text r') :=
  inferInstanceAs (Decidable (_ = _))

/-- Code in which anything may stand leads from some open brackets to others. -/
def Shifts (closers : List Char) (text : String) (closers' : List Char) : Prop :=
  Leads (fun _ => true) ⟨.code, closers⟩ text ⟨.code, closers'⟩

instance (closers closers' : List Char) (text : String) :
    Decidable (Shifts closers text closers') :=
  inferInstanceAs (Decidable (Leads _ _ _ _))

end Bracketing

open Bracketing

/-- What may stand outside all brackets for a text to hold together by itself. -/
def isJoint (c : Char) : Bool := isWordChar c || c == '.'

/-- Strings and comments apart, all brackets are nested properly. -/
def Balanced (text : String) : Prop := Shifts [] text []

/-- All brackets are nested properly, and nothing but words, digits, dots and strings is outside. -/
def SelfDelimiting (text : String) : Prop := Leads isJoint {} text {}

instance (text : String) : Decidable (Balanced text) :=
  inferInstanceAs (Decidable (Shifts _ _ _))

instance (text : String) : Decidable (SelfDelimiting text) :=
  inferInstanceAs (Decidable (Leads _ _ _ _))

example : SelfDelimiting "f(a / b).c" ∧ ¬ SelfDelimiting "a / b" := by decide

example : Balanced "(a, \")\"); // \x7d\n" ∧ ¬ Balanced "(a\x7d" ∧ ¬ Balanced "// )" := by decide

namespace Bracketing

/-! ## Putting texts together -/

variable {plain plain' : Char → Bool} {r r' r'' : Bracketing} {base closers : List Char}
  {text text' : String}

theorem read_cons (c : Char) (cs : List Char) :
    read plain r (c :: cs) = (step plain r c).bind fun r' => read plain r' cs :=
  List.foldlM_cons

theorem read_append {cs ds : List Char} (h : read plain r cs = some r')
    (h' : read plain r' ds = some r'') : read plain r (cs ++ ds) = some r'' := by
  unfold read at h h' ⊢
  rw [List.foldlM_append, h]
  exact h'

theorem Leads.append (h : Leads plain r text r') (h' : Leads plain r' text' r'') :
    Leads plain r (text ++ text') r'' := by
  unfold Leads
  rw [String.toList_append]
  exact read_append h h'

theorem Shifts.append {closers' closers'' : List Char} (h : Shifts closers text closers')
    (h' : Shifts closers' text' closers'') : Shifts closers (text ++ text') closers'' :=
  Leads.append h h'

/-- One step further in, or where more may stand, goes as it went. -/
theorem stepCode_mono {c : Char} (hplain : base = [] → plain c = true → plain' c = true)
    (h : stepCode plain closers c = some r) :
    stepCode plain' (closers ++ base) c = some ⟨r.mode, r.closers ++ base⟩ := by
  unfold stepCode at h ⊢
  by_cases hopen : c = '('
  · rw [if_pos hopen] at h ⊢
    cases h
    rfl
  rw [if_neg hopen] at h ⊢
  by_cases hbrace : c = '\x7b'
  · rw [if_pos hbrace] at h ⊢
    cases h
    rfl
  rw [if_neg hbrace] at h ⊢
  by_cases hclose : c = ')' ∨ c = '\x7d'
  · rw [if_pos hclose] at h ⊢
    cases closers with
    | nil => cases h
    | cons closer outer =>
      by_cases hsame : c = closer
      · dsimp only [List.cons_append] at h ⊢
        rw [if_pos hsame] at h ⊢
        cases h
        rfl
      · dsimp only at h
        rw [if_neg hsame] at h
        cases h
  rw [if_neg hclose] at h ⊢
  by_cases hquote : c = '\x22'
  · rw [if_pos hquote] at h ⊢
    cases h
    rfl
  rw [if_neg hquote] at h ⊢
  split at h
  · cases h
  · rename_i hallowed
    -- Outside all brackets now means outside all brackets before, where the character was allowed.
    have hallowed' : ¬ ((closers ++ base).isEmpty && !plain' c) = true := by
      intro hnone
      simp only [Bool.and_eq_true, List.isEmpty_iff, List.append_eq_nil_iff,
        Bool.not_eq_true'] at hnone
      obtain ⟨⟨hcs, hbase⟩, hc⟩ := hnone
      apply hallowed
      cases hp : plain c with
      | true => rw [hplain hbase hp] at hc; cases hc
      | false => simp [hcs]
    rw [if_neg hallowed']
    cases h
    rfl

theorem step_mono {c : Char} (hplain : base = [] → plain c = true → plain' c = true)
    (h : step plain r c = some r') :
    step plain' ⟨r.mode, r.closers ++ base⟩ c = some ⟨r'.mode, r'.closers ++ base⟩ := by
  unfold step at h ⊢
  cases hmode : r.mode with
  | code =>
    rw [hmode] at h
    exact stepCode_mono hplain h
  | slash =>
    rw [hmode] at h
    dsimp only at h ⊢
    split at h
    · rename_i hslash
      cases h
      rw [if_pos hslash]
    · rename_i hslash
      rw [if_neg hslash]
      exact stepCode_mono hplain h
  | literal | escape | comment =>
    rw [hmode] at h
    cases h
    rfl

/-- **A text is read inside further brackets as it is read alone**, and where more may stand. -/
theorem Leads.mono (hplain : base = [] → ∀ c, plain c = true → plain' c = true)
    (h : Leads plain r text r') :
    Leads plain' ⟨r.mode, r.closers ++ base⟩ text ⟨r'.mode, r'.closers ++ base⟩ := by
  unfold Leads at h ⊢
  generalize text.toList = cs at h ⊢
  induction cs generalizing r with
  | nil =>
    cases h
    rfl
  | cons c cs ih =>
    rw [read_cons, Option.bind_eq_some_iff] at h ⊢
    obtain ⟨next, hstep, hrest⟩ := h
    exact ⟨_, step_mono (fun hbase => hplain hbase c) hstep, ih hrest⟩

end Bracketing

section Closure

variable {plain : Char → Bool} {closer : Char} {outer : List Char} {text text' : String}

/-- Inside brackets anything balanced may stand. -/
theorem Balanced.inside (h : Balanced text) :
    Leads plain ⟨.code, closer :: outer⟩ text ⟨.code, closer :: outer⟩ :=
  @Leads.mono _ plain _ _ (closer :: outer) _ nofun h

theorem SelfDelimiting.balanced (h : SelfDelimiting text) : Balanced text :=
  @Leads.mono isJoint (fun _ => true) _ _ [] _ (fun _ _ _ => rfl) h

theorem SelfDelimiting.inside (h : SelfDelimiting text) :
    Leads plain ⟨.code, closer :: outer⟩ text ⟨.code, closer :: outer⟩ :=
  h.balanced.inside

theorem balanced_empty : Balanced "" := rfl

theorem Balanced.append (h : Balanced text) (h' : Balanced text') : Balanced (text ++ text') :=
  Leads.append h h'

theorem SelfDelimiting.append (h : SelfDelimiting text) (h' : SelfDelimiting text') :
    SelfDelimiting (text ++ text') :=
  Leads.append h h'

/-- Where one text opens a bracket and another closes it, anything balanced may stand between. -/
theorem Balanced.between {r r' : Bracketing} {opening closing : String} {c : Char} {d : List Char}
    (h : Balanced text) (hopen : Leads plain r opening ⟨.code, c :: d⟩)
    (hclose : Leads plain ⟨.code, c :: d⟩ closing r') :
    Leads plain r (opening ++ text ++ closing) r' :=
  (hopen.append h.inside).append hclose

/-- Parentheses around a text make it hold together. -/
theorem Balanced.parens (h : Balanced text) : SelfDelimiting ("(" ++ text ++ ")") :=
  h.between (c := ')') (d := []) (by decide) (by decide)

theorem Balanced.commaJoin {ts : List String} (h : ∀ t ∈ ts, Balanced t) :
    Balanced (Json.commaJoin ", " ts) := by
  cases ts with
  | nil => exact balanced_empty
  | cons t ts =>
    rw [List.forall_mem_cons] at h
    obtain ⟨hfirst, hmore⟩ := h
    unfold Json.commaJoin
    induction ts generalizing t with
    | nil => exact hfirst
    | cons u us ih =>
      rw [List.forall_mem_cons] at hmore
      have hcomma : Balanced ", " := rfl
      have hjoined : Balanced (t ++ ", " ++ u) := (hfirst.append hcomma).append hmore.1
      exact ih _ hjoined hmore.2

end Closure

/-! ## Words, numbers and strings -/

theorem stepCode_of_isJoint {closers : List Char} {c : Char} (h : isJoint c = true) :
    stepCode isJoint closers c = some ⟨.code, closers⟩ := by
  have hne : ∀ d, isJoint d = false → c ≠ d := by
    rintro d hd rfl
    rw [h] at hd
    cases hd
  unfold stepCode
  rw [if_neg (hne '(' rfl), if_neg (hne '\x7b' rfl),
    if_neg (not_or.mpr ⟨hne ')' rfl, hne '\x7d' rfl⟩), if_neg (hne '\x22' rfl), h,
    if_neg (hne '/' rfl)]
  simp

theorem selfDelimiting_of_isJoint {text : String} (h : ∀ c ∈ text.toList, isJoint c = true) :
    SelfDelimiting text := by
  unfold SelfDelimiting Leads
  generalize text.toList = cs at h ⊢
  induction cs with
  | nil => rfl
  | cons c cs ih =>
    rw [List.forall_mem_cons] at h
    have hstep : step isJoint {} c = some {} := stepCode_of_isJoint h.1
    rw [read_cons, hstep]
    exact ih h.2

theorem isJoint_of_isWordChar {c : Char} (h : isWordChar c = true) : isJoint c = true := by
  rw [isJoint, h]
  rfl

theorem IsWord.isJoint {cs : List Char} (h : IsWord cs) : ∀ c ∈ cs, isJoint c = true :=
  fun c hc => isJoint_of_isWordChar (h.isWordChar c hc)

theorem selfDelimiting_of_isWord {name : String} (h : IsWord name.toList) : SelfDelimiting name :=
  selfDelimiting_of_isJoint h.isJoint

/-- A built-in is called by a word, or by two with a dot in between. -/
theorem selfDelimiting_builtin {name : String} (h : IsWord name.toList) :
    SelfDelimiting ((builtin? name).getD name) := by
  have hname := selfDelimiting_of_isWord h
  have hmath : SelfDelimiting "Math." := by decide
  unfold builtin?
  split
  case h_5 =>
    split
    · exact hmath.append hname
    · exact hname
  all_goals
    rw [Option.getD_some]
    decide

theorem isJoint_of_mem_digits {n : Nat} {c : Char} (h : c ∈ Nat.toDigits 10 n) :
    isJoint c = true := by
  have hdigit := Nat.isDigit_of_mem_toDigits (by omega) (by omega) h
  apply isJoint_of_isWordChar
  simp [isWordChar, Char.isAlphanum, hdigit]

theorem selfDelimiting_ofList {cs : List Char} (h : ∀ c ∈ cs, isJoint c = true) :
    SelfDelimiting (String.ofList cs) := by
  apply selfDelimiting_of_isJoint
  rw [String.toList_ofList]
  exact h

theorem selfDelimiting_positional {digits : List Char} (h : ∀ c ∈ digits, isJoint c = true)
    (exponent : Int) : SelfDelimiting (positional digits exponent false) := by
  have hzeros : ∀ k, ∀ c ∈ List.replicate k '0', isJoint c = true := by
    intro k c hc
    rw [(List.mem_replicate.mp hc).2]
    rfl
  unfold positional
  dsimp only
  split
  · rw [if_neg nofun, String.append_empty]
    exact selfDelimiting_ofList (List.forall_mem_append.mpr ⟨h, hzeros _⟩)
  · split
    · have hdot : SelfDelimiting "." := by decide
      have hwhole : ∀ k, SelfDelimiting (String.ofList (digits.take k)) :=
        fun _ => selfDelimiting_ofList fun c hc => h c (List.mem_of_mem_take hc)
      have hfraction : ∀ k, SelfDelimiting (String.ofList (digits.drop k)) :=
        fun _ => selfDelimiting_ofList fun c hc => h c (List.mem_of_mem_drop hc)
      exact ((hwhole _).append hdot).append (hfraction _)
    · have hzero : SelfDelimiting "0." := by decide
      exact hzero.append (selfDelimiting_ofList (List.forall_mem_append.mpr ⟨hzeros _, h⟩))

/-- Numbers have neither sign nor exponent, unless in parentheses. -/
theorem selfDelimiting_numberText (x : Binary64) : SelfDelimiting (Script.numberText x) := by
  have hmagnitude : SelfDelimiting (Script.numberLayout.writeMagnitude x) := by
    unfold NumberLayout.writeMagnitude
    generalize x.shortest Script.numberLayout.tie = d
    dsimp only
    rw [if_neg (by simp [Script.numberLayout])]
    exact selfDelimiting_positional (fun c hc => isJoint_of_mem_digits hc) _
  have hunsigned : SelfDelimiting
      (if x.isFinite then Script.numberLayout.writeMagnitude x else "inf") := by
    split
    · exact hmagnitude
    · decide
  unfold Script.numberText NumberLayout.write
  cases hnan : x.isNaN with
  | true =>
    have hname : SelfDelimiting "NaN" := by decide
    cases x.isNegative with
    | true => exact hname.balanced.parens
    | false => exact hname
  | false =>
    cases x.isNegative with
    | true =>
      have hminus : Balanced "-" := by decide
      exact (hminus.append hunsigned.balanced).parens
    | false =>
      have hplus : SelfDelimiting "" := rfl
      exact hplus.append hunsigned

theorem read_literal {plain : Char → Bool} {closers cs : List Char}
    (h : (cs.all fun c => c != '\x22' && c != '\\') = true) :
    read plain ⟨.literal, closers⟩ cs = some ⟨.literal, closers⟩ := by
  induction cs with
  | nil => rfl
  | cons c cs ih =>
    rw [List.all_cons, Bool.and_eq_true, Bool.and_eq_true, bne_iff_ne, bne_iff_ne] at h
    obtain ⟨⟨hquote, hescape⟩, hmore⟩ := h
    have hstep : step plain ⟨.literal, closers⟩ c = some ⟨.literal, closers⟩ := by
      unfold step
      dsimp only
      rw [if_neg hquote, if_neg hescape]
    rw [read_cons, hstep]
    exact ih hmore

/-- No character ends the string that it is written in. -/
theorem read_escapeChar (plain : Char → Bool) (closers : List Char) (c : Char) :
    read plain ⟨.literal, closers⟩ (Json.escapeChar c) = some ⟨.literal, closers⟩ := by
  have hdigits : ∀ n < 0x20,
      ((hexDigits n).toList.all fun c => c != '\x22' && c != '\\') = true := by
    decide +kernel
  unfold Json.escapeChar
  split
  case h_8 hquote hescape _ _ _ _ _ =>
    split
    · rename_i hsmall
      exact read_append rfl (read_literal (hdigits _ (by omega)))
    · split
      · rename_i hsmall
        exact read_append rfl (read_literal (hdigits _ hsmall))
      · exact read_literal (by simpa using ⟨hquote, hescape⟩)
  all_goals rfl

theorem selfDelimiting_quote (s : String) : SelfDelimiting (Json.quote s) := by
  have hbody : ∀ cs : List Char, read isJoint ⟨.literal, []⟩ (cs.flatMap Json.escapeChar)
      = some ⟨.literal, []⟩ := by
    intro cs
    induction cs with
    | nil => rfl
    | cons c cs ih =>
      rw [List.flatMap_cons]
      exact read_append (read_escapeChar isJoint [] c) ih
  unfold SelfDelimiting Leads Json.quote
  rw [String.toList_ofList, List.cons_append, read_cons]
  exact read_append (hbody s.toList) rfl

/-! ## Lines -/

section Lines

variable {indent : Nat} {closers closers' : List Char} {text : String}

theorem shifts_margin (indent : Nat) (closers : List Char) :
    Shifts closers (Script.margin indent) closers := by
  unfold Script.margin String.pushn
  induction indent * Limits.indentWidth with
  | zero => rfl
  | succ k ih =>
    unfold Shifts Leads
    rw [Nat.repeat, String.toList_push]
    refine read_append ih ?_
    simp [Bracketing.read, step, stepCode]

/-- A line leads where its text leads. -/
theorem Bracketing.Shifts.lineAt (h : Shifts closers text closers') :
    Shifts closers (Script.lineAt indent text) closers' := by
  have hend : Shifts closers' "\n" closers' := by
    simp [Shifts, Leads, Bracketing.read, step, stepCode]
  exact ((shifts_margin indent closers).append h).append hend

theorem Balanced.lineAt (h : Balanced text) : Balanced (Script.lineAt indent text) :=
  Shifts.lineAt h

theorem balanced_hoistLine {names : List String} (h : ∀ name ∈ names, SelfDelimiting name) :
    Balanced (Script.hoistLine indent names) := by
  have hnames : Balanced (Json.commaJoin ", " names) :=
    .commaJoin fun name hname => (h name hname).balanced
  have hlet : Balanced "let " := by decide
  have hend : Balanced ";" := by decide
  unfold Script.hoistLine
  split
  · exact balanced_empty
  · exact ((hlet.append hnames).append hend).lineAt

end Lines

/-! ## Comments -/

theorem newline_not_mem_lines {cs l : List Char} (h : l ∈ lines cs) : '\n' ∉ l := by
  have hgo : ∀ (cs line : List Char) (done : List (List Char)), '\n' ∉ line →
      (∀ l ∈ done, '\n' ∉ l) → ∀ l ∈ lines.go cs line done, '\n' ∉ l := by
    intro cs line done
    fun_induction lines.go cs line done with
    | case1 done => simp
    | case2 line done _ =>
      intro hline hdone l hl
      simp only [List.reverse_cons, List.mem_append, List.mem_reverse, List.mem_singleton] at hl
      obtain hl | rfl := hl
      · exact hdone l hl
      · simpa using hline
    | case3 line done cs ih =>
      intro hline hdone
      refine ih List.not_mem_nil (List.forall_mem_cons.mpr ⟨?_, hdone⟩)
      unfold lines.withoutReturn
      split
      · rename_i rest
        simp only [List.mem_cons, not_or] at hline
        simpa using hline.2
      · simpa using hline
    | case4 c cs line done hc ih =>
      intro hline hdone
      refine ih ?_ hdone
      simp only [List.mem_cons, not_or]
      exact ⟨fun hnew => hc hnew.symm, hline⟩
  exact hgo cs [] [] List.not_mem_nil (List.forall_mem_nil _) l h

theorem mem_of_mem_trimEnd {c : Char} {cs : List Char} (h : c ∈ trimEnd cs) : c ∈ cs := by
  unfold trimEnd at h
  rw [List.mem_reverse] at h
  exact List.mem_reverse.mp ((List.dropWhile_sublist _).mem h)

theorem read_comment {plain : Char → Bool} {closers cs : List Char} (h : '\n' ∉ cs) :
    read plain ⟨.comment, closers⟩ cs = some ⟨.comment, closers⟩ := by
  induction cs with
  | nil => rfl
  | cons c cs ih =>
    rw [List.mem_cons, not_or] at h
    have hstep : step plain ⟨.comment, closers⟩ c = some ⟨.comment, closers⟩ := by
      unfold step
      dsimp only
      rw [if_neg (Ne.symm h.1)]
    rw [read_cons, hstep]
    exact ih h.2

/-- Whatever a comment says, it ends with its line. -/
theorem balanced_docLines (indent : Nat) (text : String) :
    Balanced (Script.docLines indent text) := by
  have hline : ∀ l ∈ lines text.toList,
      Balanced (Script.lineAt indent (String.ofList (trimEnd ("// ".toList ++ l)))) := by
    intro l hl
    have hslashes : trimEnd ("// ".toList ++ l) = '/' :: '/' :: trimEnd (' ' :: l) := by
      rw [← trimEnd_cons rfl, ← trimEnd_cons rfl]
      rfl
    have hrest : '\n' ∉ trimEnd (' ' :: l) := by
      intro hmem
      obtain hblank | hmem := List.mem_cons.mp (mem_of_mem_trimEnd hmem)
      · cases hblank
      · exact newline_not_mem_lines hl hmem
    have hcomment : Leads (fun _ => true) {} (String.ofList (trimEnd ("// ".toList ++ l)))
        ⟨.comment, []⟩ := by
      unfold Leads
      rw [String.toList_ofList, hslashes]
      exact read_comment hrest
    exact (Leads.append (shifts_margin indent []) hcomment).append rfl
  unfold Script.docLines
  have hfold : ∀ (ls : List (List Char)) (out : String), Balanced out →
      (∀ l ∈ ls, Balanced (Script.lineAt indent (String.ofList (trimEnd ("// ".toList ++ l))))) →
      Balanced (ls.foldl (fun out l =>
        out ++ Script.lineAt indent (String.ofList (trimEnd ("// ".toList ++ l)))) out) := by
    intro ls
    induction ls with
    | nil => exact fun _ hout _ => hout
    | cons l ls ih =>
      intro out hout hls
      rw [List.forall_mem_cons] at hls
      exact ih _ (hout.append hls.1) hls.2
  exact hfold _ "" balanced_empty hline

theorem balanced_prelude : Balanced prelude := by
  unfold prelude
  refine Balanced.append (.append (.append (.append (.append ?_ ?_) ?_) ?_) ?_) ?_ <;>
    decide +kernel

end FormScript
