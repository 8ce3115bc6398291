import FormScript.Proofs.Grammar
import FormScript.Proofs.Places
import FormScript.Proofs.Spelling

/-!
# Printing trees

A tree is written as a text: atoms as they are, with strings between single quotes, every other node
as a form, its head and its children between parentheses with one blank between any two of them.
Which head a form gets is its recipe's affair; where the table has two spellings for one recipe
either will do (`HeadChoice`).

The text of a tree is read as lexemes that can be told beforehand (`Node.lexemes`), whatever follows
it, as long as that is a blank or a parenthesis: **`reads_print`**. As no lexeme of it is an
annotation or a pragma, the tokens of the scan are those of the lexemes, each at its place
(`Scan.foldlM_accept`), and how many there are can be counted on the tree (`Node.tokenCount`).
-/

namespace FormScript

/-! ## Text -/

/-- The head that a form of each recipe is written with. -/
structure HeadChoice where
  head : Recipe → String
  named : ∀ recipe ∈ headRecipes.map Prod.snd, (head recipe, recipe) ∈ headRecipes

namespace Node

/-- The recipe of the form that a node is written as. Atoms and programs are not written as
forms. -/
def recipe? : Node → Option Recipe
  | str .. | num .. | ident .. | type .. | program .. => none
  | doc .. => some .doc
  | declare .. => some .declare
  | assign .. => some .assign
  | increment .. => some .increment
  | doWhile .. => some .doWhile
  | unary _ .plus _ | binary _ .add _ _ => some (.sign .plus .add)
  | unary _ .minus _ | binary _ .sub _ _ => some (.sign .minus .sub)
  | unary _ op _ => some (.unary op)
  | binary _ op _ _ => some (.binary op)
  | function .. => some .function
  | params .. => some .params
  | param .. => some .param
  | result .. => some .result
  | forLess .. => some .forLess
  | cast .. => some .cast
  | call .. => some .call
  | block .. => some .block
  | branch .. => some .branch
  | choice .. => some .choice
  | member .. => some .member

/-- The text of an atom. -/
def atom : Node → List Char
  | str _ value => '\x27' :: value.toList ++ ['\x27']
  | num _ _ text => text.toList
  | ident _ name | type _ name => name.toList
  | _ => []

/-- The text of a node. -/
def print (heads : HeadChoice) (n : Node) : List Char :=
  match n.recipe? with
  | none => n.atom
  | some recipe =>
    '(' :: (heads.head recipe).toList
      ++ n.children.attach.flatMap (fun c => ' ' :: print heads c.1) ++ [')']
termination_by sizeOf n
decreasing_by exact sizeOf_lt_of_mem_children c.2

/-- The text of forms one behind the other. -/
def printForms (heads : HeadChoice) : List Node → List Char
  | [] => []
  | n :: ns => n.print heads ++ ns.flatMap (' ' :: ·.print heads)

/-- The text of a program: the line that asks for the dialect, and the forms. -/
def printProgram (heads : HeadChoice) (forms : List Node) : List Char :=
  "#lang = nih-sexpr\n".toList ++ printForms heads forms

/-! ## What can be printed -/

/-- The children of a node, except for the type that a value is cast to. -/
def values : Node → List Node
  | cast _ value _ => [value]
  | n => n.children

/-- The children whose number is open. -/
def tail : Node → List Node
  | params _ ns | block _ ns | function _ _ ns | call _ _ ns | forLess _ _ _ _ ns => ns
  | _ => []

/-- What the children are that have to be of one kind. -/
def Shaped : Node → Prop
  | doc _ a => a.tag = .str
  | declare _ a _ | assign _ a _ | increment _ a | param _ a | member _ _ a | forLess _ a _ _ _ =>
    a.tag = .ident
  | doWhile _ a _ => a.tag = .block
  | function _ a _ => a.tag = .params ∧ ∀ c ∈ a.children, c.tag = .param
  | cast _ _ a => a.tag = .type
  | _ => True

/-- What the texts of atoms are. -/
def Spelled : Node → Prop
  | str _ value => byteLength value.toList ≤ Limits.stringBytes ∧
      '\r' ∉ value.toList ∧ '\x27' ∉ value.toList
  | num _ value text => IsSignedNumeral text.toList ∧ Grammar.Spells text value
  | ident _ name | type _ name => IsWord name.toList ∧ byteLength name.toList ≤ Limits.nameBytes ∧
      name ∉ keywordWords
  | _ => True

/-- What is asked of a node, given its children, for its text to be read back. -/
structure Printable (n : Node) : Prop where
  shaped : n.Shaped
  typed : ∀ c ∈ n.values, c.tag ≠ .type
  inner : ∀ c ∈ n.children, c.tag ≠ .program
  plain : n.mark.ascription = none
  spelled : n.Spelled
  few : n.tail.length ≤ Limits.listChildren

/-- A parameter list has only parameters in it. -/
def ListsParams (n : Node) : Prop := n.tag = .params → ∀ c ∈ n.children, c.tag = .param

/-- Something holds of a node and of all below it. -/
def Everywhere (P : Node → Prop) (n : Node) : Prop := ∀ m ∈ n.preorder, P m

theorem Everywhere.here {P : Node → Prop} {n : Node} (h : n.Everywhere P) : P n :=
  h n (by rw [preorder_eq]; exact List.mem_cons_self)

theorem Everywhere.below {P : Node → Prop} {n : Node} (h : n.Everywhere P) :
    ∀ c ∈ n.children, c.Everywhere P := by
  intro c hc m hm
  refine h m ?_
  rw [preorder_eq]
  exact List.mem_cons_of_mem _ (List.mem_flatMap.mpr ⟨c, hc, hm⟩)

theorem Everywhere.intro {P : Node → Prop} {n : Node} (here : P n)
    (below : ∀ c ∈ n.children, c.Everywhere P) : n.Everywhere P := by
  intro m hm
  rw [preorder_eq] at hm
  rcases List.mem_cons.mp hm with rfl | hm
  · exact here
  · obtain ⟨c, hc, hm⟩ := List.mem_flatMap.mp hm
    exact below c hc m hm

/-- Induction on trees, from the children of a node to the node. -/
theorem induct {P : Node → Prop} (step : ∀ n, (∀ c ∈ n.children, P c) → P n) (n : Node) : P n :=
  step n fun c _ => induct step c
termination_by sizeOf n
decreasing_by exact sizeOf_lt_of_mem_children ‹_›

/-- What holds in a tree holds in every tree inside it. -/
theorem Everywhere.of_mem {P : Node → Prop} {n m : Node} (h : n.Everywhere P)
    (hm : m ∈ n.preorder) : m.Everywhere P := by
  induction n using induct with
  | step n ih =>
    rw [preorder_eq] at hm
    rcases List.mem_cons.mp hm with rfl | hm
    · exact h
    · obtain ⟨c, hc, hm⟩ := List.mem_flatMap.mp hm
      exact ih c hc (h.below c hc) hm

/-! ## Lexemes -/

/-- The lexemes of a numeral, of which a minus sign is one. -/
def numeralLexemes : List Char → List Lexeme
  | '-' :: digits => [.operator ['-'], .number digits]
  | digits => [.number digits]

/-- The lexemes of an atom. -/
def atomLexemes : Node → List Lexeme
  | str _ value => [.string ['\x27'] value.toList]
  | num _ _ text => numeralLexemes text.toList
  | ident _ name | type _ name => [.name name.toList []]
  | _ => []

/-- The lexemes that the text of a node is read as. -/
def lexemes (heads : HeadChoice) (n : Node) : List Lexeme :=
  match n.recipe? with
  | none => n.atomLexemes
  | some recipe =>
    .operator ['('] :: headLexemes (heads.head recipe)
      ++ n.children.attach.flatMap (fun c => .blank ' ' :: lexemes heads c.1) ++ [.operator [')']]
termination_by sizeOf n
decreasing_by exact sizeOf_lt_of_mem_children c.2

variable {heads : HeadChoice} {n : Node} {recipe : Recipe}

theorem print_of_atom (h : n.recipe? = none) : n.print heads = n.atom := by
  rw [print, h]

theorem print_of_form (h : n.recipe? = some recipe) :
    n.print heads = '(' :: ((heads.head recipe).toList
      ++ (n.children.flatMap (' ' :: ·.print heads) ++ [')'])) := by
  rw [print, h]
  simp

theorem lexemes_of_atom (h : n.recipe? = none) : n.lexemes heads = n.atomLexemes := by
  rw [lexemes, h]

theorem lexemes_of_form (h : n.recipe? = some recipe) :
    n.lexemes heads = .operator ['('] :: (headLexemes (heads.head recipe)
      ++ (n.children.flatMap (Lexeme.blank ' ' :: ·.lexemes heads)
        ++ [Lexeme.operator [')']])) := by
  rw [lexemes, h]
  simp

/-- The recipe of a form has a head. -/
theorem head_mem (heads : HeadChoice) (h : n.recipe? = some recipe) :
    (heads.head recipe, recipe) ∈ headRecipes := by
  refine heads.named recipe ?_
  cases n with
  | unary _ op _ => cases op <;> cases h <;> decide
  | binary _ op _ _ => cases op <;> cases h <;> decide
  | str | num | ident | type | program => cases h
  | _ => cases h; decide

theorem head_isPart (heads : HeadChoice) (h : n.recipe? = some recipe) :
    ∀ l ∈ headLexemes (heads.head recipe), l.isPart = true :=
  (headLexemes_spec _ (head_mem heads h)).1

theorem head_chars (heads : HeadChoice) (h : n.recipe? = some recipe) :
    (headLexemes (heads.head recipe)).flatMap Lexeme.chars = (heads.head recipe).toList :=
  (headLexemes_spec _ (head_mem heads h)).2.1

/-- Only blocks and parameter lists can do without children. -/
theorem recipe_of_children_nil (h : n.recipe? = some recipe) (hnil : n.children = []) :
    recipe = .block ∨ recipe = .params := by
  cases n with
  | params => exact .inr (Option.some.inj h).symm
  | block => exact .inl (Option.some.inj h).symm
  | str | num | ident | type | program => cases h
  | branch _ _ _ no => cases no <;> cases hnil
  | _ => cases hnil

/-! ## Reading what was printed -/

theorem not_mem_keywordSpellings {name : String} (h : name ∉ keywordWords) :
    name.toList ∉ keywordSpellings := by
  intro hmem
  obtain ⟨w, hw, heq⟩ := List.mem_map.mp hmem
  exact h (String.toList_inj.mp heq ▸ hw)

theorem reads_numeral {text rest : List Char} {ls : List Lexeme} (h : IsNumeral text)
    (hrest : Separated rest) (hmore : Reads rest ls) :
    Reads (text ++ rest) (.number text :: ls) := by
  obtain ⟨d, ds, rfl, -⟩ := h.exists_cons
  exact .cons (Lexeme.read_number h hrest) hmore

theorem numeralLexemes_of_isNumeral {text : List Char} (h : IsNumeral text) :
    numeralLexemes text = [.number text] := by
  obtain ⟨d, ds, rfl, hd⟩ := h.exists_cons
  unfold numeralLexemes
  split
  · rename_i heq
    rw [(List.cons.inj heq).1] at hd
    exact absurd hd (by decide)
  · rfl

theorem reads_signedNumeral {text rest : List Char} {ls : List Lexeme} (h : IsSignedNumeral text)
    (hrest : Separated rest) (hmore : Reads rest ls) :
    Reads (text ++ rest) (numeralLexemes text ++ ls) := by
  rcases h with h | ⟨digits, rfl, h⟩
  · rw [numeralLexemes_of_isNumeral h]
    exact reads_numeral h hrest hmore
  · obtain ⟨d, ds, rfl, hd⟩ := h.exists_cons
    exact .cons (Lexeme.read_minus (ds ++ rest) hd) (reads_numeral h hrest hmore)

theorem reads_word {name : String} {rest : List Char} {ls : List Lexeme}
    (h : IsWord name.toList ∧ byteLength name.toList ≤ Limits.nameBytes ∧ name ∉ keywordWords)
    (hrest : Separated rest) (hmore : Reads rest ls) :
    Reads (name.toList ++ rest) (.name name.toList [] :: ls) := by
  obtain ⟨hword, hbytes, hkeyword⟩ := h
  have hlength := Nat.le_trans (length_le_byteLength name.toList) hbytes
  have hspelling := not_mem_keywordSpellings hkeyword
  obtain ⟨c, cs, hname⟩ := List.exists_cons_of_ne_nil hword.ne_nil
  rw [hname] at hword hlength hspelling ⊢
  exact .cons (Lexeme.read_name hword hlength hspelling hrest) hmore

theorem reads_atom {rest : List Char} {ls : List Lexeme} (h : n.Spelled) (hrest : Separated rest)
    (hmore : Reads rest ls) : Reads (n.atom ++ rest) (n.atomLexemes ++ ls) := by
  cases n with
  | str _ value =>
    obtain ⟨hsize, -, hquote⟩ := h
    rw [atom, List.append_assoc]
    exact .cons (Lexeme.read_string hquote hsize hrest) hmore
  | num _ value text => exact reads_signedNumeral h.1 hrest hmore
  | ident _ name => exact reads_word h hrest hmore
  | type _ name => exact reads_word h hrest hmore
  | _ => exact hmore

/-- No printed node looks like a sign with a blank behind it, so the blank in front of it is read as
a blank. -/
theorem solid_atom {rest : List Char} (h : n.Spelled) (hrest : Separated rest) :
    Solid (n.atom ++ rest) := by
  have hword : ∀ {name : String}, IsWord name.toList → Solid (name.toList ++ rest) := by
    intro name hname
    obtain ⟨c, cs, heq⟩ := List.exists_cons_of_ne_nil hname.ne_nil
    rw [heq] at hname ⊢
    exact solid_cons _ (not_mem_signs (by decide) hname.1)
  have hnothing : Solid rest := by
    cases rest with
    | nil =>
      rintro sign - ⟨t, ht⟩
      cases ht
    | cons c cs =>
      rcases hrest c rfl with rfl | rfl
      · exact solid_cons cs (by decide)
      · exact solid_cons cs (by decide)
  cases n with
  | str => exact solid_cons _ (by decide)
  | num _ value text =>
    rcases h.1 with h | ⟨digits, hsigned, h⟩
    · obtain ⟨d, ds, htext, hd⟩ := h.exists_cons
      rw [atom, htext]
      exact solid_cons _ (not_mem_signs (by decide) hd)
    · obtain ⟨d, ds, rfl, hd⟩ := h.exists_cons
      rw [atom, hsigned]
      refine solid_cons_cons _ _ ?_
      rintro rfl
      exact absurd hd (by decide)
  | ident => exact hword h.1
  | type => exact hword h.1
  | _ => exact hnothing

theorem solid_print {rest : List Char} (h : n.Spelled) (hrest : Separated rest) :
    Solid (n.print heads ++ rest) := by
  cases hrecipe : n.recipe? with
  | none =>
    rw [print_of_atom hrecipe]
    exact solid_atom h hrest
  | some recipe =>
    rw [print_of_form hrecipe]
    exact solid_cons _ (by decide)

theorem separated_children (ns : List Node) {rest : List Char} (hrest : Separated rest) :
    Separated (ns.flatMap (' ' :: ·.print heads) ++ rest) := by
  cases ns with
  | nil => exact hrest
  | cons => exact separated_blank _

/-- Nodes with a blank in front of each, given that each is read as its lexemes. -/
theorem reads_children {ns : List Node}
    (hns : ∀ c ∈ ns, c.Spelled ∧ ∀ {rest ls}, Separated rest → Reads rest ls →
      Reads (c.print heads ++ rest) (c.lexemes heads ++ ls))
    {rest : List Char} {ls : List Lexeme} (hrest : Separated rest) (hmore : Reads rest ls) :
    Reads (ns.flatMap (' ' :: ·.print heads) ++ rest)
      (ns.flatMap (.blank ' ' :: ·.lexemes heads) ++ ls) := by
  induction ns with
  | nil => exact hmore
  | cons c ns ih =>
    obtain ⟨hspelled, hc⟩ := hns c List.mem_cons_self
    have htail := ih fun d hd => hns d (List.mem_cons_of_mem _ hd)
    have hseparated := @separated_children heads ns rest hrest
    rw [List.flatMap_cons, List.flatMap_cons, List.append_assoc, List.append_assoc]
    exact .cons (Lexeme.read_blank (solid_print hspelled hseparated)) (hc hseparated htail)

/-- **A printed tree is read as its lexemes**, if a blank or a parenthesis follows. -/
theorem reads_print (h : n.Everywhere Spelled) {rest : List Char} {ls : List Lexeme}
    (hrest : Separated rest) (hmore : Reads rest ls) :
    Reads (n.print heads ++ rest) (n.lexemes heads ++ ls) := by
  induction n using induct generalizing rest ls with
  | step n ih =>
    cases hrecipe : n.recipe? with
    | none =>
      rw [print_of_atom hrecipe, lexemes_of_atom hrecipe]
      exact reads_atom h.here hrest hmore
    | some recipe =>
      have hclose : Reads (')' :: rest) (.operator [')'] :: ls) := .cons rfl hmore
      have hchildren := @reads_children heads n.children
        (fun c hc => ⟨(h.below c hc).here, ih c hc (h.below c hc)⟩) _ _ (separated_close rest)
        hclose
      rw [print_of_form hrecipe, lexemes_of_form hrecipe]
      simp only [List.cons_append, List.append_assoc, List.nil_append]
      refine .cons rfl ?_
      cases hnil : n.children with
      | nil =>
        exact reads_head (head_mem heads hrecipe) (.inr ⟨rfl, recipe_of_children_nil hrecipe hnil⟩)
          hclose
      | cons c cs =>
        rw [hnil] at hchildren
        exact reads_head (head_mem heads hrecipe) (.inl rfl) hchildren

/-! ## Tokens of what was printed -/

/-- How many tokens the text of a node has: those of an atom, or those of the head and the children
of a form and two parentheses. -/
def tokenCount (heads : HeadChoice) (n : Node) : Nat :=
  match n.recipe? with
  | none => n.atomLexemes.length
  | some recipe =>
    (headLexemes (heads.head recipe)).length
      + n.children.attach.foldr (fun c more => tokenCount heads c.1 + more) 0 + 2
termination_by sizeOf n
decreasing_by exact sizeOf_lt_of_mem_children c.2

/-- How many tokens the texts of some nodes have. -/
def totalTokens (heads : HeadChoice) (ns : List Node) : Nat :=
  ns.foldr (fun n more => n.tokenCount heads + more) 0

theorem tokenCount_of_atom (h : n.recipe? = none) :
    n.tokenCount heads = n.atomLexemes.length := by
  rw [tokenCount, h]

theorem tokenCount_of_form (h : n.recipe? = some recipe) :
    n.tokenCount heads
      = (headLexemes (heads.head recipe)).length + totalTokens heads n.children + 2 := by
  rw [tokenCount, h, totalTokens]
  simp

/-- Lexemes with one token each have as many tokens as they are. -/
theorem length_tokensFrom {ls : List Lexeme} (h : ∀ l ∈ ls, ∀ p, (l.tokens p).length = 1)
    (p : Position) : (tokensFrom p ls).length = ls.length := by
  induction ls generalizing p with
  | nil => rfl
  | cons l ls ih =>
    rw [tokensFrom, List.length_append, h l List.mem_cons_self,
      ih fun m hm => h m (List.mem_cons_of_mem _ hm), List.length_cons]
    omega

/-- A token is a parenthesis only if its text is one. -/
theorem not_paren_of_text {w : List Char} {kind : TokenKind} {span : Span} (hopen : w ≠ ['('])
    (hclose : w ≠ [')']) : ({ kind, text := String.ofList w, span } : Token).isOpen = false ∧
      ({ kind, text := String.ofList w, span } : Token).isClose = false := by
  have hne : ∀ v, w ≠ v → (String.ofList w == String.ofList v) = false := by
    intro v hv
    rw [beq_eq_false_iff_ne]
    exact fun heq => hv (String.ofList_injective heq)
  have h₁ := hne _ hopen
  have h₂ := hne _ hclose
  constructor
  · show (_ && (String.ofList w == String.ofList ['('])) = false
    rw [h₁, Bool.and_false]
  · show (_ && (String.ofList w == String.ofList [')'])) = false
    rw [h₂, Bool.and_false]

/-- A part of a head is one token, and the token is the text. -/
theorem tokens_of_isPart {l : Lexeme} (h : l.isPart = true) (p : Position) :
    ∃ t, l.tokens p = [t] ∧ Grammar.Joinable t ∧ t.text = String.ofList l.chars ∧
      t.span = ⟨p, p.after l.chars⟩ := by
  cases l with
  | operator w =>
    simp only [Lexeme.isPart, Bool.and_eq_true, beq_iff_eq, bne_iff_ne] at h
    obtain ⟨⟨htrim, hopen⟩, hclose⟩ := h
    refine ⟨_, rfl, ⟨.inr (.inr rfl), ?_⟩, congrArg String.ofList htrim, rfl⟩
    rw [htrim]
    exact not_paren_of_text hopen hclose
  | keyword w =>
    simp only [Lexeme.isPart, Bool.and_eq_true, bne_iff_ne] at h
    exact ⟨_, rfl, ⟨.inr (.inl rfl), not_paren_of_text h.1 h.2⟩, rfl, rfl⟩
  | name w more =>
    cases more with
    | cons => cases h
    | nil =>
      simp only [Lexeme.isPart, Bool.and_eq_true, bne_iff_ne] at h
      refine ⟨_, rfl, ⟨?_, not_paren_of_text h.1 h.2⟩, ?_, rfl⟩
      · dsimp only
        split
        · exact .inr (.inl rfl)
        · exact .inl rfl
      · simp [Lexeme.chars]
  | _ => cases h

theorem length_tokens_of_isPart {l : Lexeme} (h : l.isPart = true) (p : Position) :
    (l.tokens p).length = 1 := by
  obtain ⟨t, ht, -⟩ := tokens_of_isPart h p
  rw [ht, List.length_singleton]

theorem length_tokens_atom (n : Node) : ∀ l ∈ n.atomLexemes, ∀ p, (l.tokens p).length = 1 := by
  intro l hl p
  cases n with
  | str =>
    rw [List.mem_singleton.mp hl]
    rfl
  | num _ _ text =>
    change l ∈ numeralLexemes text.toList at hl
    unfold numeralLexemes at hl
    split at hl
    · rcases List.mem_cons.mp hl with rfl | hl
      · rfl
      · rw [List.mem_singleton.mp hl]
        rfl
    · rw [List.mem_singleton.mp hl]
      rfl
  | ident =>
    rw [List.mem_singleton.mp hl]
    rfl
  | type =>
    rw [List.mem_singleton.mp hl]
    rfl
  | _ => cases hl

theorem length_tokens_children {ns : List Node}
    (h : ∀ c ∈ ns, ∀ p, (tokensFrom p (c.lexemes heads)).length = c.tokenCount heads)
    (p : Position) :
    (tokensFrom p (ns.flatMap (.blank ' ' :: ·.lexemes heads))).length = totalTokens heads ns := by
  induction ns generalizing p with
  | nil => rfl
  | cons c ns ih =>
    rw [List.flatMap_cons, tokensFrom_append, List.length_append,
      ih (fun d hd => h d (List.mem_cons_of_mem _ hd))]
    exact congrArg (· + totalTokens heads ns) (h c List.mem_cons_self _)

/-- **The tokens of a printed tree are as many as its count says.** -/
theorem length_tokens_lexemes (n : Node) (p : Position) :
    (tokensFrom p (n.lexemes heads)).length = n.tokenCount heads := by
  induction n using induct generalizing p with
  | step n ih =>
    cases hrecipe : n.recipe? with
    | none =>
      rw [lexemes_of_atom hrecipe, tokenCount_of_atom hrecipe,
        length_tokensFrom n.length_tokens_atom]
    | some recipe =>
      have hhead : ∀ p, (tokensFrom p (headLexemes (heads.head recipe))).length
          = (headLexemes (heads.head recipe)).length :=
        length_tokensFrom fun l hl => length_tokens_of_isPart (head_isPart heads hrecipe l hl)
      rw [lexemes_of_form hrecipe, tokenCount_of_form hrecipe, tokensFrom, tokensFrom_append,
        tokensFrom_append]
      simp only [List.length_append, hhead, length_tokens_children ih]
      simp [tokensFrom, Lexeme.tokens]
      omega

theorem isQuiet_of_isPart {l : Lexeme} (h : l.isPart = true) : l.isQuiet = true := by
  cases l with
  | ascription | pragma => cases h
  | _ => rfl

theorem isQuiet_atom (n : Node) : ∀ l ∈ n.atomLexemes, l.isQuiet = true := by
  intro l hl
  cases hquiet : l.isQuiet with
  | true => rfl
  | false =>
    have hlength := n.length_tokens_atom l hl .start
    cases l with
    | ascription | pragma => cases hlength
    | _ => cases hquiet

/-- A printed tree holds neither annotations nor pragmas. -/
theorem isQuiet_lexemes (n : Node) : ∀ l ∈ n.lexemes heads, l.isQuiet = true := by
  induction n using induct with
  | step n ih =>
    cases hrecipe : n.recipe? with
    | none =>
      rw [lexemes_of_atom hrecipe]
      exact n.isQuiet_atom
    | some recipe =>
      intro l hl
      simp only [lexemes_of_form hrecipe, List.mem_cons, List.mem_append, List.mem_flatMap,
        List.not_mem_nil, or_false] at hl
      rcases hl with rfl | hl | ⟨c, hc, rfl | hl⟩ | rfl
      · rfl
      · exact isQuiet_of_isPart (head_isPart heads hrecipe l hl)
      · rfl
      · exact ih c hc l hl
      · rfl

/-! ## Carriage returns -/

theorem not_mem_return_of_isWord {w : List Char} (h : IsWord w) : '\r' ∉ w :=
  fun hmem => absurd (h.isWordChar _ hmem) (by decide)

theorem not_mem_return_of_isNumeral {text : List Char} (h : IsNumeral text) : '\r' ∉ text := by
  obtain ⟨whole, fraction, -, hwhole, hfraction, rfl | ⟨-, rfl⟩⟩ := h
  · exact fun hmem => absurd (hwhole _ hmem) (by decide)
  · intro hmem
    rcases List.mem_append.mp hmem with hmem | hmem
    · exact absurd (hwhole _ hmem) (by decide)
    rcases List.mem_cons.mp hmem with hmem | hmem
    · exact absurd hmem (by decide)
    · exact absurd (hfraction _ hmem) (by decide)

theorem not_mem_return_atom (h : n.Spelled) : '\r' ∉ n.atom := by
  cases n with
  | str _ value =>
    have hquote : ('\r' : Char) ≠ '\x27' := by decide
    simp only [atom, List.mem_cons, List.mem_append, List.not_mem_nil, or_false, not_or]
    exact ⟨⟨hquote, h.2.1⟩, hquote⟩
  | num _ value text =>
    rcases h.1 with h | ⟨digits, hsigned, h⟩
    · exact not_mem_return_of_isNumeral h
    · rw [atom, hsigned, List.mem_cons, not_or]
      exact ⟨by decide, not_mem_return_of_isNumeral h⟩
  | ident => exact not_mem_return_of_isWord h.1
  | type => exact not_mem_return_of_isWord h.1
  | _ => exact List.not_mem_nil

theorem not_mem_return_print (h : n.Everywhere Spelled) : '\r' ∉ n.print heads := by
  have htable : ∀ e ∈ headRecipes, '\r' ∉ e.1.toList := by decide +kernel
  induction n using induct with
  | step n ih =>
    cases hrecipe : n.recipe? with
    | none =>
      rw [print_of_atom hrecipe]
      exact not_mem_return_atom h.here
    | some recipe =>
      intro hmem
      simp only [print_of_form hrecipe, List.mem_cons, List.mem_append, List.mem_flatMap,
        List.not_mem_nil, or_false] at hmem
      rcases hmem with hmem | hmem | ⟨c, hc, hmem | hmem⟩ | hmem
      · exact absurd hmem (by decide)
      · exact htable _ (head_mem heads hrecipe) hmem
      · exact absurd hmem (by decide)
      · exact ih c hc (h.below c hc) hmem
      · exact absurd hmem (by decide)

/-! ## Programs -/

/-- The lexemes of forms one behind the other. -/
def formLexemes (heads : HeadChoice) : List Node → List Lexeme
  | [] => []
  | n :: ns => n.lexemes heads ++ ns.flatMap (.blank ' ' :: ·.lexemes heads)

theorem reads_printForms {forms : List Node} (h : ∀ n ∈ forms, n.Everywhere Spelled) :
    Reads (printForms heads forms) (formLexemes heads forms) := by
  cases forms with
  | nil => exact .nil
  | cons n ns =>
    have hmore := @reads_children heads ns
      (fun c hc => ⟨(h c (List.mem_cons_of_mem _ hc)).here,
        reads_print (h c (List.mem_cons_of_mem _ hc))⟩) [] [] separated_nil .nil
    have hseparated := @separated_children heads ns [] separated_nil
    rw [List.append_nil] at hmore hseparated
    rw [List.append_nil] at hmore
    exact reads_print (h n List.mem_cons_self) hseparated hmore

theorem not_mem_return_printForms {forms : List Node} (h : ∀ n ∈ forms, n.Everywhere Spelled) :
    '\r' ∉ printForms heads forms := by
  cases forms with
  | nil => exact List.not_mem_nil
  | cons n ns =>
    intro hmem
    simp only [printForms, List.mem_append, List.mem_flatMap, List.mem_cons] at hmem
    rcases hmem with hmem | ⟨c, hc, hmem | hmem⟩
    · exact not_mem_return_print (h n List.mem_cons_self) hmem
    · exact absurd hmem (by decide)
    · exact not_mem_return_print (h c (List.mem_cons_of_mem _ hc)) hmem

theorem length_tokens_formLexemes (forms : List Node) (p : Position) :
    (tokensFrom p (formLexemes heads forms)).length = totalTokens heads forms := by
  cases forms with
  | nil => rfl
  | cons n ns =>
    rw [formLexemes, tokensFrom_append, List.length_append, n.length_tokens_lexemes,
      length_tokens_children fun c _ p => c.length_tokens_lexemes p]
    rfl

theorem isQuiet_formLexemes (forms : List Node) :
    ∀ l ∈ formLexemes heads forms, l.isQuiet = true := by
  intro l hl
  cases forms with
  | nil => cases hl
  | cons n ns =>
    simp only [formLexemes, List.mem_append, List.mem_flatMap, List.mem_cons] at hl
    rcases hl with hl | ⟨c, hc, rfl | hl⟩
    · exact n.isQuiet_lexemes l hl
    · rfl
    · exact c.isQuiet_lexemes l hl

/-- **A printed program is tokenized** into the tokens of its forms and an end of input, all under
the dialect that its first line asks for. -/
theorem tokenize_printProgram (track : Bool) {forms : List Node}
    (h : ∀ n ∈ forms, n.Everywhere Spelled)
    (hroom : totalTokens heads forms ≤ Limits.tokenCount) :
    ∃ stream tally p last, tokenize (printProgram heads forms) track = .ok (stream, tally) ∧
      stream.remaining = tokensFrom p (formLexemes heads forms) ++ [last] ∧ last.isEof = true ∧
      stream.switches = [⟨0, .sexpr⟩] :=
  tokenize_under_pragma track (reads_printForms h) (not_mem_return_printForms h)
    (isQuiet_formLexemes forms) fun p => by rwa [length_tokens_formLexemes]

end Node
end FormScript
