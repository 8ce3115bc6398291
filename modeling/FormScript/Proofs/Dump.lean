import FormScript.Proofs.Derivation
import FormScript.Proofs.Fusing
import FormScript.Proofs.Wording

/-!
# Dumps can be read back

A dump shows a tree as one line of text. Tags with blanks in them, annotations behind the closing
parenthesis, quoted strings and numbers of children that are not written down could all make two
trees look the same. They do not: **`display_injective`** says that two parsed trees with one dump
are equal but for their spans.

The argument is that of a prefix code: if the dumps of two trees, each with some text behind it that
is separated from it, are the same text, then the trees are the same and so is what follows
(`Node.readsBack`). It goes down the tree. A tag is told from the character behind it
(`Tag.eq_of_text_append`), a word or numeral goes on as far as its characters do, a quoted string
ends at the first quote that is not escaped (`eq_of_quoted_append`), and a node is known from its
parts (`Node.unplaced_eq_ofParts`). For numbers the value is not shown, but it is what the text
spells.
-/

namespace FormScript

/-- A run of characters and what follows it are known if the run goes on as far as it can. -/
theorem eq_of_run_append {p : Char → Bool} {u v a b : List Char} (hu : ∀ c ∈ u, p c = true)
    (hv : ∀ c ∈ v, p c = true) (ha : Ends p a) (hb : Ends p b) (h : u ++ a = v ++ b) :
    u = v ∧ a = b := by
  have huv : u = v := by rw [← takeWhile_of_ends hu ha, h, takeWhile_of_ends hv hb]
  subst huv
  exact ⟨rfl, List.append_cancel_left h⟩

/-! ## Quoted strings -/

theorem toDigits_injective {a b : Nat} (h : Nat.toDigits 16 a = Nat.toDigits 16 b) : a = b := by
  have hdigit : ∀ m < 16, ∀ n < 16, Nat.digitChar m = Nat.digitChar n → m = n := by decide
  -- A single digit is not the end of several.
  have hlonger : ∀ {d e : Char} {n : Nat}, [d] ≠ Nat.toDigits 16 n ++ [e] := by
    intro d e n h
    obtain ⟨f, digits, hdigits⟩ := List.exists_cons_of_ne_nil (@Nat.toDigits_ne_nil n 16)
    rw [hdigits] at h
    simp at h
  induction a using Nat.strongRecOn generalizing b with
  | ind a ih =>
    rw [@Nat.toDigits_eq_if 16 a (by omega), @Nat.toDigits_eq_if 16 b (by omega)] at h
    split at h
    · split at h
      · exact hdigit a ‹_› b ‹_› (List.singleton_inj.mp h)
      · exact absurd h hlonger
    · split at h
      · exact absurd h.symm hlonger
      · obtain ⟨hmore, hlast⟩ := List.append_inj' h rfl
        have hdiv := ih (a / 16) (by omega) hmore
        have hmod := hdigit (a % 16) (by omega) (b % 16) (by omega) (List.singleton_inj.mp hlast)
        omega

theorem close_not_mem_toDigits (n : Nat) : '\x7d' ∉ Nat.toDigits 16 n := by
  have hdigit : ∀ m < 16, '\x7d' ≠ Nat.digitChar m := by decide
  induction n using Nat.strongRecOn with
  | ind n ih =>
    rw [@Nat.toDigits_eq_if 16 n (by omega)]
    split
    · exact mt List.mem_singleton.mp (hdigit n ‹_›)
    · rw [List.mem_append, List.mem_singleton, not_or]
      exact ⟨ih (n / 16) (by omega), hdigit (n % 16) (by omega)⟩

/-- Characters that are escaped by one other, with that one. -/
def shortEscapes : List (Char × Char) :=
  [('\x00', '0'), ('\t', 't'), ('\r', 'r'), ('\n', 'n'), ('\x22', '\x22'), ('\\', '\\')]

theorem shortEscapes_injective : ∀ e ∈ shortEscapes, e.2 ≠ 'u' ∧
    ∀ f ∈ shortEscapes, e.2 = f.2 → e.1 = f.1 := by decide

/-- The three ways to write a character between quotes. -/
theorem quotedChar_cases (c : Char) :
    (∃ e, (c, e) ∈ shortEscapes ∧ (quotedChar c).toList = ['\\', e]) ∨
    (quotedChar c).toList = '\\' :: 'u' :: '\x7b' :: Nat.toDigits 16 c.toNat ++ ['\x7d'] ∨
    c ≠ '\\' ∧ c ≠ '\x22' ∧ (quotedChar c).toList = [c] := by
  unfold quotedChar
  split
  case h_7 hquote hescape =>
    split
    · exact .inr (.inl (by simp [hexDigits]))
    · exact .inr (.inr ⟨hescape, hquote, by simp⟩)
  all_goals exact .inl ⟨_, by decide, rfl⟩

/-- The first character of a quoted text is known, and so is what follows it. -/
theorem eq_of_quotedChar_append {c d : Char} {a b : List Char}
    (h : (quotedChar c).toList ++ a = (quotedChar d).toList ++ b) : c = d ∧ a = b := by
  -- Escapes begin with a backslash and go on differently.
  rcases quotedChar_cases c with ⟨e, he, hc⟩ | hc | ⟨hplain, -, hc⟩
  · rcases quotedChar_cases d with ⟨f, hf, hd⟩ | hd | ⟨hplain', -, hd⟩
    · rw [hc, hd] at h
      simp only [List.cons_append, List.nil_append, List.cons.injEq, true_and] at h
      exact ⟨(shortEscapes_injective _ he).2 _ hf h.1, h.2⟩
    · rw [hc, hd] at h
      simp only [List.cons_append, List.nil_append, List.cons.injEq, true_and] at h
      exact absurd h.1 (shortEscapes_injective _ he).1
    · rw [hc, hd] at h
      exact absurd (List.cons.inj h).1.symm hplain'
  · rcases quotedChar_cases d with ⟨f, hf, hd⟩ | hd | ⟨hplain', -, hd⟩
    · rw [hc, hd] at h
      simp only [List.cons_append, List.nil_append, List.cons.injEq, true_and] at h
      exact absurd h.1.symm (shortEscapes_injective _ hf).1
    · rw [hc, hd] at h
      simp only [List.cons_append, List.append_assoc, List.nil_append, List.cons.injEq,
        true_and] at h
      have hrun : ∀ n, ∀ x ∈ Nat.toDigits 16 n, (x != '\x7d') = true := by
        intro n x hx
        rw [bne_iff_ne]
        rintro rfl
        exact close_not_mem_toDigits n hx
      obtain ⟨hdigits, hrest⟩ := eq_of_run_append (hrun _) (hrun _) (ends_cons.mpr rfl)
        (ends_cons.mpr rfl) h
      exact ⟨Char.toNat_inj.mp (toDigits_injective hdigits), (List.cons.inj hrest).2⟩
    · rw [hc, hd] at h
      exact absurd (List.cons.inj h).1.symm hplain'
  · rcases quotedChar_cases d with ⟨f, hf, hd⟩ | hd | ⟨-, -, hd⟩
    · rw [hc, hd] at h
      exact absurd (List.cons.inj h).1 hplain
    · rw [hc, hd] at h
      exact absurd (List.cons.inj h).1 hplain
    · rw [hc, hd] at h
      exact List.cons.inj h

/-- No character is written with a quote first. -/
theorem head_quotedChar (c : Char) {a b : List Char} :
    (quotedChar c).toList ++ a ≠ '\x22' :: b := by
  rcases quotedChar_cases c with ⟨e, -, hc⟩ | hc | ⟨-, hquote, hc⟩
  · simp [hc]
  · simp [hc]
  · simp [hc, hquote]

theorem toList_quoted (s : String) :
    (quoted s).toList
      = '\x22' :: s.toList.flatMap (fun c => (quotedChar c).toList) ++ ['\x22'] := by
  have hfold : ∀ (cs : List Char) (out : String),
      (cs.foldl (fun out c => out ++ quotedChar c) out).toList
        = out.toList ++ cs.flatMap (fun c => (quotedChar c).toList) := by
    intro cs
    induction cs with
    | nil => simp
    | cons c cs ih => simp [ih]
  rw [quoted, String.toList_append, hfold]
  rfl

/-- **Quoted strings can be read back**, whatever follows them. -/
theorem eq_of_quoted_append {s t : String} {a b : List Char}
    (h : (quoted s).toList ++ a = (quoted t).toList ++ b) : s = t ∧ a = b := by
  have hbody : ∀ cs ds : List Char,
      cs.flatMap (fun c => (quotedChar c).toList) ++ '\x22' :: a
        = ds.flatMap (fun c => (quotedChar c).toList) ++ '\x22' :: b → cs = ds ∧ a = b := by
    intro cs
    induction cs with
    | nil =>
      intro ds h
      cases ds with
      | nil => exact ⟨rfl, (List.cons.inj h).2⟩
      | cons d ds =>
        rw [List.flatMap_cons, List.append_assoc] at h
        exact absurd h.symm (head_quotedChar d)
    | cons c cs ih =>
      intro ds h
      cases ds with
      | nil =>
        rw [List.flatMap_cons, List.append_assoc] at h
        exact absurd h (head_quotedChar c)
      | cons d ds =>
        rw [List.flatMap_cons, List.flatMap_cons, List.append_assoc, List.append_assoc] at h
        obtain ⟨rfl, hmore⟩ := eq_of_quotedChar_append h
        obtain ⟨rfl, hrest⟩ := ih ds hmore
        exact ⟨rfl, hrest⟩
  rw [toList_quoted, toList_quoted] at h
  simp only [List.cons_append, List.append_assoc, List.nil_append, List.cons.injEq, true_and] at h
  obtain ⟨hlist, hrest⟩ := hbody _ _ h
  exact ⟨String.toList_inj.mp hlist, hrest⟩

/-! ## Parts of a node -/

namespace Tag

/-- Nodes that hold a text and no children. -/
def isLeaf : Tag → Bool
  | str | num | ident | type => true
  | _ => false

theorem mem_all (t : Tag) : t ∈ all := by cases t <;> decide

/-- No tag goes on from another one with a blank or a parenthesis. -/
theorem text_unambiguous : ∀ t ∈ all, ∀ u ∈ all,
    (t.text = u.text → t = u) ∧ ∀ c ∈ [' ', ')'], ¬ t.text.toList ++ [c] <+: u.text.toList := by
  have htable : (all.all fun t => all.all fun u => decide (t.text = u.text → t = u) &&
      [' ', ')'].all fun c => !(t.text.toList ++ [c]).isPrefixOf u.text.toList) = true := by
    decide +kernel
  intro t ht u hu
  have hrow := List.all_eq_true.mp (List.all_eq_true.mp htable t ht) u hu
  simp only [Bool.and_eq_true, decide_eq_true_eq, List.all_eq_true, Bool.not_eq_true',
    ← Bool.not_eq_true, List.isPrefixOf_iff_prefix] at hrow
  exact hrow

/-- A tag is known from what is shown of it, if a blank or a parenthesis follows. -/
theorem eq_of_text_append {t u : Tag} {c d : Char} {a b : List Char} (hc : c ∈ [' ', ')'])
    (hd : d ∈ [' ', ')']) (h : t.text.toList ++ c :: a = u.text.toList ++ d :: b) : t = u := by
  obtain ⟨hinjective, hshort⟩ := text_unambiguous t (mem_all t) u (mem_all u)
  have hlong := (text_unambiguous u (mem_all u) t (mem_all t)).2
  rcases List.append_eq_append_iff.mp h with ⟨more, hmore, hrest⟩ | ⟨more, hmore, hrest⟩
  · cases more with
    | nil => exact hinjective (String.toList_inj.mp (by rw [hmore, List.append_nil]))
    | cons e more =>
      obtain ⟨rfl, -⟩ := List.cons.inj hrest
      exact absurd ⟨more, by rw [hmore, List.append_assoc]; rfl⟩ (hshort c hc)
  · cases more with
    | nil => exact hinjective (String.toList_inj.mp (by rw [hmore, List.append_nil]))
    | cons e more =>
      obtain ⟨rfl, -⟩ := List.cons.inj hrest
      exact absurd ⟨more, by rw [hmore, List.append_assoc]; rfl⟩ (hlong d hd)

end Tag

namespace Node

/-- The text of a leaf. -/
def word : Node → String
  | str _ value => value
  | num _ _ text => text
  | ident _ name | type _ name => name
  | _ => ""

/-- The node with this tag, text and children. The value of a number is what its text spells. -/
def ofParts (m : Mark) (word : String) : Tag → List Node → Node
  | .str, _ => str m word
  | .num, _ => num m ((Binary64.ofDecimal? word.toList).getD default) word
  | .ident, _ => ident m word
  | .type, _ => type m word
  | .program, ns => program m ns
  | .doc, [a] => doc m a
  | .declare, [a, b] => declare m a b
  | .assign, [a, b] => assign m a b
  | .increment, [a] => increment m a
  | .doWhile, [a, b] => doWhile m a b
  | .plus, [a] => unary m .plus a
  | .minus, [a] => unary m .minus a
  | .bitNot, [a] => unary m .bitNot a
  | .not, [a] => unary m .not a
  | .add, [a, b] => binary m .add a b
  | .sub, [a, b] => binary m .sub a b
  | .mul, [a, b] => binary m .mul a b
  | .div, [a, b] => binary m .div a b
  | .pow, [a, b] => binary m .pow a b
  | .bitOr, [a, b] => binary m .bitOr a b
  | .bitAnd, [a, b] => binary m .bitAnd a b
  | .bitXor, [a, b] => binary m .bitXor a b
  | .and, [a, b] => binary m .and a b
  | .or, [a, b] => binary m .or a b
  | .eq, [a, b] => binary m .eq a b
  | .ne, [a, b] => binary m .ne a b
  | .gt, [a, b] => binary m .gt a b
  | .ge, [a, b] => binary m .ge a b
  | .lt, [a, b] => binary m .lt a b
  | .le, [a, b] => binary m .le a b
  | .function, a :: ns => function m a ns
  | .params, ns => params m ns
  | .param, [a] => param m a
  | .result, [a] => result m a
  | .forLess, a :: b :: c :: ns => forLess m a b c ns
  | .cast, [a, b] => cast m a b
  | .call, a :: ns => call m a ns
  | .block, ns => block m ns
  | .branch, [a, b] => branch m a b none
  | .branch, [a, b, c] => branch m a b (some c)
  | .choice, [a, b, c] => choice m a b c
  | .member, [a, b] => member m a b
  | _, ns => program m ns

/-- What can be read back of a node: names and annotations are words, and numbers are numerals that
spell their values. -/
structure Legible (n : Node) : Prop extends n.Worded where
  numeral : ∀ m x text, n = num m x text → IsSignedNumeral text.toList ∧ Grammar.Spells text x

/-- A node is known from its parts, as far as its spans do not matter. -/
theorem unplaced_eq_ofParts {n : Node} (h : n.Legible) :
    n.unplaced = ofParts n.mark.unplaced n.word n.tag (n.children.map unplaced) := by
  cases n with
  | num m x text =>
    obtain ⟨-, hspells, -⟩ := h.numeral m x text rfl
    rw [unplaced, tag, ofParts, word, hspells]
    rfl
  | unary m op a =>
    rw [unplaced]
    cases op <;> rfl
  | binary m op a b =>
    rw [unplaced]
    cases op <;> rfl
  | branch m a b c => cases c <;> (rw [unplaced]; rfl)
  | _ =>
    rw [unplaced]
    rfl

theorem children_of_isLeaf {n : Node} (h : n.tag.isLeaf = true) : n.children = [] := by
  cases n with
  | unary m op a => cases op <;> cases h
  | binary m op a b => cases op <;> cases h
  | str | num | ident | type => rfl
  | _ => cases h

theorem word_of_not_isLeaf {n : Node} (h : n.tag.isLeaf = false) : n.word = "" := by
  cases n with
  | str | num | ident | type => cases h
  | _ => rfl

/-! ## The shape of a dump -/

/-- What is shown between the tag of a node and its closing parenthesis. -/
def body (n : Node) : List Char :=
  if n.tag.isLeaf then ' ' :: (if n.tag = .str then quoted n.word else n.word).toList
  else n.children.flatMap (' ' :: ·.display.toList)

/-- What is shown of an annotation. -/
def typing (n : Node) : List Char := (n.mark.ascription.map (':' :: ·.toList)).getD []

theorem toList_foldl_display (ns : List Node) (out : String) :
    (ns.foldl (fun out c => out ++ " " ++ c.display) out).toList
      = out.toList ++ ns.flatMap (' ' :: ·.display.toList) := by
  induction ns generalizing out with
  | nil => simp
  | cons c ns ih => simp [ih]

/-- **What a dump looks like.** -/
theorem display_eq (n : Node) :
    n.display.toList = '(' :: n.tag.text.toList ++ n.body ++ ')' :: n.typing := by
  cases hleaf : n.tag.isLeaf with
  | true =>
    unfold body typing
    rw [hleaf]
    cases n with
    | str m | num m | ident m | type m =>
      rw [display, mark]
      cases m.ascription with
      | none => simp [tag, Tag.text, word, toString]
      | some a => simp [tag, Tag.text, word, toString]
    | unary m op a => cases op <;> cases hleaf
    | binary m op a b => cases op <;> cases hleaf
    | _ => cases hleaf
  | false =>
    have hattach : n.children.attach.foldl (fun out c => out ++ " " ++ c.1.display)
        ("(" ++ n.tag.text) = n.children.foldl (fun out c => out ++ " " ++ c.display)
        ("(" ++ n.tag.text) :=
      @List.foldl_attach _ _ n.children (fun out c => out ++ " " ++ c.display) _
    rw [display]
    · unfold body typing
      rw [hattach, hleaf]
      cases n.mark.ascription with
      | none => simp [toList_foldl_display]
      | some a => simp [toList_foldl_display, toString]
    all_goals
      intros
      subst_vars
      cases hleaf

/-! ## Reading back -/

variable {n m : Node} {a b : List Char}

theorem exists_body_append (n : Node) (a : List Char) :
    ∃ c rest, c ∈ [' ', ')'] ∧ n.body ++ ')' :: a = c :: rest := by
  unfold body
  split
  · exact ⟨' ', _, by decide, rfl⟩
  · cases n.children with
    | nil => exact ⟨')', _, by decide, rfl⟩
    | cons c ns => exact ⟨' ', _, by decide, rfl⟩

theorem separated_display_children (ns : List Node) (a : List Char) :
    Separated (ns.flatMap (' ' :: ·.display.toList) ++ ')' :: a) := by
  cases ns with
  | nil => exact separated_close a
  | cons c ns => exact separated_blank _

theorem close_not_mem_word (h : n.Legible) (hleaf : n.tag.isLeaf = true) (hstr : n.tag ≠ .str) :
    ∀ c ∈ n.word.toList, (c != ')') = true := by
  have hword : ∀ {w : List Char}, IsWord w → ∀ c ∈ w, (c != ')') = true := by
    intro w hw c hc
    have hchar := hw.isWordChar c hc
    rw [bne_iff_ne]
    rintro rfl
    exact absurd hchar (by decide)
  have hnumeral : ∀ {w : List Char}, IsNumeral w → ∀ c ∈ w, (c != ')') = true := by
    intro w hw c hc
    rw [bne_iff_ne]
    rintro rfl
    obtain ⟨whole, fraction, -, hwhole, hfraction, rfl | ⟨-, rfl⟩⟩ := hw
    · exact absurd (hwhole _ hc) (by decide)
    · rcases List.mem_append.mp hc with hc | hc
      · exact absurd (hwhole _ hc) (by decide)
      · exact absurd (hfraction _ ((List.mem_cons.mp hc).resolve_left (by decide))) (by decide)
  cases n with
  | str => exact absurd rfl hstr
  | num m x text =>
    rcases (h.numeral m x text rfl).1 with hplain | ⟨digits, hdigits, hplain⟩
    · exact hnumeral hplain
    · intro c hc
      rw [word, hdigits] at hc
      rcases List.mem_cons.mp hc with rfl | hc
      · decide
      · exact hnumeral hplain c hc
  | ident => exact hword h.named.1
  | type => exact hword h.named
  | unary m op => cases op <;> cases hleaf
  | binary m op => cases op <;> cases hleaf
  | _ => cases hleaf

/-- A leaf is known from what is shown of it. -/
theorem eq_of_word_append (hn : n.Legible) (hm : m.Legible) (htag : n.tag = m.tag)
    (hleaf : n.tag.isLeaf = true) (h : n.body ++ ')' :: a = m.body ++ ')' :: b) :
    n.word = m.word ∧ a = b := by
  unfold body at h
  rw [← htag, hleaf] at h
  have h := (List.cons.inj h).2
  by_cases hstr : n.tag = .str
  · rw [if_pos hstr, if_pos hstr] at h
    obtain ⟨hword, hrest⟩ := eq_of_quoted_append h
    exact ⟨hword, (List.cons.inj hrest).2⟩
  · rw [if_neg hstr, if_neg hstr] at h
    obtain ⟨hword, hrest⟩ := eq_of_run_append (close_not_mem_word hn hleaf hstr)
      (close_not_mem_word hm (htag ▸ hleaf) (htag ▸ hstr)) (ends_cons.mpr rfl) (ends_cons.mpr rfl) h
    exact ⟨String.toList_inj.mp hword, (List.cons.inj hrest).2⟩

/-- An annotation is known from what is shown of it, if it is there at all. -/
theorem eq_of_typing_append (hn : n.Legible) (hm : m.Legible) (ha : Separated a) (hb : Separated b)
    (h : n.typing ++ a = m.typing ++ b) : n.mark.ascription = m.mark.ascription ∧ a = b := by
  have hnone : ∀ {w : String} {a b : List Char}, Separated a → a ≠ ':' :: w.toList ++ b := by
    rintro w a b ha rfl
    exact absurd (ha ':' rfl) (by decide)
  have hn := hn.typed
  have hm := hm.typed
  unfold typing at h
  cases hnmark : n.mark.ascription with
  | none =>
    rw [hnmark] at h
    cases hmmark : m.mark.ascription with
    | none =>
      rw [hmmark] at h
      exact ⟨rfl, h⟩
    | some w =>
      rw [hmmark] at h
      exact absurd h (hnone ha)
  | some v =>
    rw [hnmark] at h
    cases hmmark : m.mark.ascription with
    | none =>
      rw [hmmark] at h
      exact absurd h.symm (hnone hb)
    | some w =>
      rw [hmmark] at h
      obtain ⟨hword, hrest⟩ := eq_of_run_append (hn v hnmark).isWordChar (hm w hmmark).isWordChar
        (ha.ends (by decide) (by decide)) (hb.ends (by decide) (by decide)) (List.cons.inj h).2
      exact ⟨congrArg some (String.toList_inj.mp hword), hrest⟩

/-- The tree is known from its dump and a text behind it. -/
def ReadsBack (n : Node) : Prop :=
  ∀ (m : Node) (a b : List Char), m.Everywhere Legible → Separated a → Separated b →
    n.display.toList ++ a = m.display.toList ++ b → n.unplaced = m.unplaced ∧ a = b

/-- Children are known one by one, and so is their number. -/
theorem eq_of_children_append {ns ms : List Node} (hns : ∀ c ∈ ns, c.ReadsBack)
    (hms : ∀ d ∈ ms, d.Everywhere Legible)
    (h : ns.flatMap (' ' :: ·.display.toList) ++ ')' :: a
      = ms.flatMap (' ' :: ·.display.toList) ++ ')' :: b) :
    ns.map unplaced = ms.map unplaced ∧ a = b := by
  induction ns generalizing ms with
  | nil =>
    cases ms with
    | nil => exact ⟨rfl, (List.cons.inj h).2⟩
    | cons d ms => exact absurd (List.cons.inj h).1 (by decide)
  | cons c ns ih =>
    cases ms with
    | nil => exact absurd (List.cons.inj h).1 (by decide)
    | cons d ms =>
      rw [List.flatMap_cons, List.flatMap_cons, List.append_assoc, List.append_assoc] at h
      obtain ⟨hfirst, hmore⟩ := hns c List.mem_cons_self d _ _ (hms d List.mem_cons_self)
        (separated_display_children ns a) (separated_display_children ms b) (List.cons.inj h).2
      obtain ⟨hrest, hab⟩ := ih (fun c hc => hns c (List.mem_cons_of_mem _ hc))
        (fun d hd => hms d (List.mem_cons_of_mem _ hd)) hmore
      exact ⟨by rw [List.map_cons, List.map_cons, hfirst, hrest], hab⟩

/-- **Dumps are a prefix code**: from the dump of a tree and some text behind it, both are known. -/
theorem readsBack (n : Node) (hn : n.Everywhere Legible) : n.ReadsBack := by
  induction n using induct with
  | step n ih =>
    intro m a b hm ha hb h
    rw [display_eq, display_eq] at h
    simp only [List.cons_append, List.append_assoc, List.cons.injEq, true_and] at h
    -- The tag, from the character behind it.
    have htag : n.tag = m.tag := by
      obtain ⟨c, u, hc, hu⟩ := n.exists_body_append (n.typing ++ a)
      obtain ⟨d, v, hd, hv⟩ := m.exists_body_append (m.typing ++ b)
      rw [hu, hv] at h
      exact Tag.eq_of_text_append hc hd h
    rw [htag] at h
    have h := List.append_cancel_left h
    -- What is inside the parentheses: a text or children.
    have hbody : n.word = m.word ∧ n.children.map unplaced = m.children.map unplaced ∧
        n.typing ++ a = m.typing ++ b := by
      cases hleaf : n.tag.isLeaf with
      | true =>
        obtain ⟨hword, hrest⟩ := eq_of_word_append hn.here hm.here htag hleaf h
        refine ⟨hword, ?_, hrest⟩
        rw [children_of_isLeaf hleaf, children_of_isLeaf (htag ▸ hleaf)]
      | false =>
        refine ⟨?_, ?_⟩
        · rw [word_of_not_isLeaf hleaf, word_of_not_isLeaf (htag ▸ hleaf)]
        · unfold body at h
          rw [← htag, hleaf] at h
          exact eq_of_children_append (fun c hc => ih c hc (hn.below c hc)) hm.below h
    obtain ⟨hword, hchildren, hrest⟩ := hbody
    obtain ⟨htype, hab⟩ := eq_of_typing_append hn.here hm.here ha hb hrest
    refine ⟨?_, hab⟩
    rw [unplaced_eq_ofParts hn.here, unplaced_eq_ofParts hm.here, htag, hword, hchildren,
      Mark.unplaced, Mark.unplaced, htype]

end Node

/-! ## Parsed trees -/

theorem Grammar.Expr.number_spelled {source : List Char} {opens : Token → Bool} {ts : List Token}
    {m : Mark} {x : Binary64} {text : String} (hwritten : ∀ t ∈ ts, t.Written source)
    (h : Expr opens ts (.num m x text)) : IsSignedNumeral text.toList ∧ Spells text x := by
  have hnumeral : ∀ t ∈ ts, t.kind = .number → IsNumeral t.text.toList := by
    intro t ht hkind
    obtain ⟨_, slice, -, has⟩ := hwritten t ht
    unfold Token.WrittenAs at has
    rw [hkind] at has
    exact has.1 ▸ has.2
  cases h with
  | num kind value => exact ⟨.inl (hnumeral _ List.mem_cons_self kind), value⟩
  | @negative minus digits _ sign text kind adjacent value =>
    refine ⟨.inr ⟨digits.text.toList, by rw [String.toList_append]; rfl, ?_⟩, value⟩
    exact hnumeral digits (List.mem_cons_of_mem _ List.mem_cons_self) kind
  | form _ form =>
    obtain ⟨_, _, slots, _, node⟩ := form
    cases slots <;> cases node

/-- **Parsed trees can be read back.** -/
theorem parse_legible {source : List Char} {track : Bool} {scan : Scan} {tree : Node} {s : Parsing}
    (hscan : Scan.ofSource source track = .ok scan)
    (h : parseProgram (scan.stream source) = .ok tree s) : tree.Everywhere Node.Legible := by
  intro n hn
  refine ⟨parse_worded hscan h n hn, ?_⟩
  rintro m x text rfl
  obtain ⟨ts, hwritten, hexpr⟩ := parse_literals hscan h hn (.inl rfl)
  exact hexpr.number_spelled hwritten

/-- **Dumps are faithful.** Two programs that are parsed and have one dump are one tree, but for the
spans: the same kinds of nodes, operators, names, strings, numbers and annotations, with the same
children. -/
theorem display_injective {source source' : List Char} {track track' : Bool}
    {stream stream' : TokenStream} {tally tally' : Tally} {tree tree' : Node} {s s' : Parsing}
    (htokens : tokenize source track = .ok (stream, tally))
    (hparse : parseProgram stream = .ok tree s)
    (htokens' : tokenize source' track' = .ok (stream', tally'))
    (hparse' : parseProgram stream' = .ok tree' s') (h : tree.display = tree'.display) :
    tree.unplaced = tree'.unplaced := by
  obtain ⟨scan, hscan, rfl, -⟩ := Scan.ofSource_of_tokenize htokens
  obtain ⟨scan', hscan', rfl, -⟩ := Scan.ofSource_of_tokenize htokens'
  refine (tree.readsBack (parse_legible hscan hparse) tree' [] [] (parse_legible hscan' hparse')
    separated_nil separated_nil ?_).1
  rw [h]

/-- One program in two layouts, read back from the dump that both have. -/
theorem display_injective_layouts : ∃ stream tally tree s stream' tally' tree' s',
    tokenize "(let :int x -5)".toList = .ok (stream, tally) ∧ parseProgram stream = .ok tree s ∧
    tokenize "( let // name\n  :int x -5 )".toList = .ok (stream', tally') ∧
    parseProgram stream' = .ok tree' s' ∧ tree.display = tree'.display ∧
    tree.unplaced = tree'.unplaced := by
  obtain ⟨stream, tally, tree, s, htokens, hparse, hdump⟩ :=
    exists_parse "(let :int x -5)".toList
      (·.display = "(module (let (ident x):int (numlit -5)))") (by decide +kernel)
  obtain ⟨stream', tally', tree', s', htokens', hparse', hdump'⟩ :=
    exists_parse "( let // name\n  :int x -5 )".toList
      (·.display = "(module (let (ident x):int (numlit -5)))") (by decide +kernel)
  have hsame : tree.display = tree'.display := by
    rw [of_decide_eq_true hdump, of_decide_eq_true hdump']
  exact ⟨stream, tally, tree, s, stream', tally', tree', s', htokens, hparse, htokens', hparse',
    hsame, display_injective htokens hparse htokens' hparse' hsame⟩

end FormScript
