import FormScript.Proofs.Printing

/-!
# The grammar derives printed trees

A printed tree is tokenized into tokens that are known, up to the place where the text starts. Here
these tokens are held against the grammar: they derive the tree, as far as spans do not matter
(`Node.Derivable`). The parser is not looked at.

Two things carry the induction. A head is taken as a whole because the parts of it touch each other
and nothing else does: behind it comes a blank or a parenthesis (`Node.isHead_tokensFrom`). And the
slots of a form follow its recipe because the children are what the recipe asks for
(`Node.hasSlots`, from one lemma for each construct).
-/

namespace FormScript

open Grammar

/-- A mark without its span. -/
def Mark.unplaced (m : Mark) : Mark := { m with span := .dummy }

namespace Node

/-- A tree without its spans. -/
def unplaced : Node → Node
  | str m value => str m.unplaced value
  | num m value text => num m.unplaced value text
  | ident m name => ident m.unplaced name
  | type m name => type m.unplaced name
  | program m forms => program m.unplaced (forms.map unplaced)
  | doc m a => doc m.unplaced a.unplaced
  | declare m a b => declare m.unplaced a.unplaced b.unplaced
  | assign m a b => assign m.unplaced a.unplaced b.unplaced
  | increment m a => increment m.unplaced a.unplaced
  | doWhile m a b => doWhile m.unplaced a.unplaced b.unplaced
  | unary m op a => unary m.unplaced op a.unplaced
  | binary m op a b => binary m.unplaced op a.unplaced b.unplaced
  | function m a body => function m.unplaced a.unplaced (body.map unplaced)
  | params m ps => params m.unplaced (ps.map unplaced)
  | param m a => param m.unplaced a.unplaced
  | result m a => result m.unplaced a.unplaced
  | forLess m a b c body => forLess m.unplaced a.unplaced b.unplaced c.unplaced (body.map unplaced)
  | cast m a b => cast m.unplaced a.unplaced b.unplaced
  | call m a args => call m.unplaced a.unplaced (args.map unplaced)
  | block m body => block m.unplaced (body.map unplaced)
  | branch m a b none => branch m.unplaced a.unplaced b.unplaced none
  | branch m a b (some c) => branch m.unplaced a.unplaced b.unplaced (some c.unplaced)
  | choice m a b c => choice m.unplaced a.unplaced b.unplaced c.unplaced
  | member m a b => member m.unplaced a.unplaced b.unplaced

variable {heads : HeadChoice} {n : Node} {recipe : Recipe}

/-! ## Tokens of slots -/

/-- The tokens of nodes with a blank in front of each. -/
def slotTokens (heads : HeadChoice) (p : Position) (ns : List Node) : List Token :=
  tokensFrom p (ns.flatMap (.blank ' ' :: ·.lexemes heads))

/-- The tokens of the first node, and then those of the others. -/
theorem slotTokens_cons (heads : HeadChoice) (p : Position) (c : Node) (ns : List Node) :
    ∃ q, slotTokens heads p (c :: ns)
      = tokensFrom (p.next ' ') (c.lexemes heads) ++ slotTokens heads q ns := by
  refine ⟨p.after ((.blank ' ' :: c.lexemes heads).flatMap Lexeme.chars), ?_⟩
  rw [slotTokens, List.flatMap_cons, tokensFrom_append]
  rfl

theorem slotTokens_nil (heads : HeadChoice) (p : Position) : slotTokens heads p [] = [] := rfl

theorem tokensFrom_ascription (p : Position) (ls : List Lexeme) :
    ∀ t ∈ tokensFrom p ls, t.ascription = none ∧ t.isEof = false := by
  induction ls generalizing p with
  | nil => simp [tokensFrom]
  | cons l ls ih =>
    intro t ht
    rcases List.mem_append.mp ht with ht | ht
    · obtain ⟨hnone, -, heof⟩ := Lexeme.tokens_ascription ht
      exact ⟨hnone, beq_eq_false_iff_ne.mpr heof⟩
    · exact ih _ t ht

/-- Tokens do not start before the first lexeme. -/
theorem le_offset_tokensFrom {ls : List Lexeme} {p : Position} :
    ∀ t ∈ tokensFrom p ls, p.offset ≤ t.span.start.offset := by
  induction ls generalizing p with
  | nil => simp [tokensFrom]
  | cons l ls ih =>
    intro t ht
    rcases List.mem_append.mp ht with ht | ht
    · obtain ⟨a, b, -, -, hspan⟩ := Lexeme.tokens_span ht
      rw [hspan, Position.offset_after]
      omega
    · have := ih t ht
      rw [Position.offset_after] at this
      omega

/-- Between a head and the first slot there is a gap. -/
theorem lt_offset_slotTokens {p : Position} {ns : List Node} :
    ∀ t ∈ slotTokens heads p ns, p.offset < t.span.start.offset := by
  intro t ht
  cases ns with
  | nil => cases ht
  | cons c ns =>
    have := @le_offset_tokensFrom (c.lexemes heads ++ ns.flatMap (.blank ' ' :: ·.lexemes heads))
      (p.after [' ']) t ht
    rw [Position.offset_after] at this
    have hblank : byteLength [' '] = 1 := rfl
    omega

/-! ## Heads -/

/-- The parts of a head stand together as one word, which is the head. -/
theorem oneWord_tokensFrom {ls : List Lexeme} (hparts : ∀ l ∈ ls, l.isPart = true) (hne : ls ≠ [])
    (p : Position) :
    OneWord (tokensFrom p ls) ∧
      spelling (tokensFrom p ls) = String.ofList (ls.flatMap Lexeme.chars) ∧
      ∀ t ∈ (tokensFrom p ls).getLast?, t.span.stop = p.after (ls.flatMap Lexeme.chars) := by
  induction ls generalizing p with
  | nil => exact absurd rfl hne
  | cons l ls ih =>
    obtain ⟨t, ht, hjoinable, htext, hspan⟩ := tokens_of_isPart (hparts l List.mem_cons_self) p
    rw [tokensFrom, ht, List.flatMap_cons, Position.after_append]
    cases ls with
    | nil =>
      refine ⟨hjoinable, ?_, ?_⟩
      · rw [List.flatMap_nil, List.append_nil]
        exact htext
      · intro u hu
        cases hu
        show t.span.stop = _
        rw [hspan]
        rfl
    | cons m ls =>
      have hmore := hparts m (List.mem_cons_of_mem _ List.mem_cons_self)
      obtain ⟨u, hu, -, -, huspan⟩ := tokens_of_isPart hmore (p.after l.chars)
      obtain ⟨hword, hspelling, hlast⟩ := ih (fun k hk => hparts k (List.mem_cons_of_mem _ hk))
        (List.cons_ne_nil m ls) (p.after l.chars)
      rw [tokensFrom, hu] at hword hspelling hlast ⊢
      refine ⟨⟨hjoinable, ?_, hword⟩, ?_, hlast⟩
      · rw [Adjacent, hspan, huspan]
      · rw [String.ofList_append, ← htext, ← hspelling]
        rfl

/-- What goes on with a word is joinable and follows without a gap. -/
theorem adjacent_of_oneWord {run more : List Token} {t : Token} (h : OneWord (run ++ t :: more)) :
    Joinable t ∧ ∀ l ∈ run.getLast?, Adjacent l t := by
  refine ⟨h.joinable t (by simp), ?_⟩
  induction run with
  | nil => simp
  | cons u run ih =>
    intro l hl
    cases run with
    | nil =>
      cases hl
      exact h.2.1
    | cons v run => exact ih h.2.2 l (by simpa using hl)

theorem recipe?_of_mem : ∀ e ∈ headRecipes, FormScript.recipe? e.1 = some e.2 := by decide +kernel

/-- A word that ends where the slots begin does not go on into them: what comes next is a
parenthesis or stands behind a blank. -/
theorem not_oneWord_slotTokens {run more : List Token} {q : Position} {ns : List Node}
    {closing : Token} (hclose : closing.isClose = true) (hrun : run ≠ [])
    (hlast : ∀ t ∈ run.getLast?, t.span.stop = q)
    (hmore : more <+: slotTokens heads q ns ++ [closing]) (hne : more ≠ []) :
    ¬ OneWord (run ++ more) := by
  intro hlonger
  obtain ⟨t, more, rfl⟩ := List.exists_cons_of_ne_nil hne
  obtain ⟨tail, hmore⟩ := hmore
  obtain ⟨hjoinable, hadjacent⟩ := adjacent_of_oneWord hlonger
  cases hslots : slotTokens heads q ns with
  | nil =>
    rw [hslots] at hmore
    obtain ⟨rfl, -⟩ := List.cons.inj hmore
    rw [hjoinable.2.2] at hclose
    exact Bool.false_ne_true hclose
  | cons u us =>
    rw [hslots] at hmore
    obtain ⟨rfl, -⟩ := List.cons.inj hmore
    have hgap := @lt_offset_slotTokens heads q ns t (by rw [hslots]; exact List.mem_cons_self)
    have hl : run.getLast hrun ∈ run.getLast? := List.getLast?_eq_some_getLast hrun
    have htouch := hadjacent _ hl
    rw [Adjacent, hlast _ hl] at htouch
    omega

/-- **The tokens of a head are the head**, in front of the slots and the closing parenthesis. -/
theorem isHead_tokensFrom (heads : HeadChoice) (h : n.recipe? = some recipe) (p : Position)
    (ns : List Node) {closing : Token} (hclose : closing.isClose = true) :
    IsHead (tokensFrom p (headLexemes (heads.head recipe)))
      (slotTokens heads (p.after (heads.head recipe).toList) ns ++ [closing]) recipe := by
  have hmem := head_mem heads h
  have hparts := head_isPart heads h
  obtain ⟨hpos, hshort⟩ := (headLexemes_spec _ hmem).2.2
  obtain ⟨hword, hspelling, hlast⟩ :=
    oneWord_tokensFrom hparts (List.length_pos_iff.mp hpos) p
  have hlength : (tokensFrom p (headLexemes (heads.head recipe))).length
      = (headLexemes (heads.head recipe)).length :=
    length_tokensFrom (fun l hl => length_tokens_of_isPart (hparts l hl)) p
  rw [head_chars heads h] at hspelling hlast
  refine ⟨hword, hlength ▸ hshort, ?_, ?_⟩
  · rw [hspelling, String.ofList_toList]
    exact recipe?_of_mem _ hmem
  · intro more hmore hne _ hlonger
    have hrun : tokensFrom p (headLexemes (heads.head recipe)) ≠ [] := by
      intro hnil
      rw [hnil] at hword
      exact hword
    exact absurd hlonger (not_oneWord_slotTokens hclose hrun hlast hmore hne)

/-! ## Forms -/

/-- The parenthesis that opens a form at a position. -/
def openAt (p : Position) : Token := { kind := .operator, text := "(", span := ⟨p, p.next '('⟩ }

/-- The parenthesis that closes a form at a position. -/
def closeAt (p : Position) : Token := { kind := .operator, text := ")", span := ⟨p, p.next ')'⟩ }

/-- The tokens of a form: parentheses, with the head and the slots between them. -/
theorem tokensFrom_lexemes_of_form (heads : HeadChoice) (h : n.recipe? = some recipe)
    (p : Position) :
    ∃ q q', tokensFrom p (n.lexemes heads)
      = openAt p :: (tokensFrom q (headLexemes (heads.head recipe))
        ++ slotTokens heads (q.after (heads.head recipe).toList) n.children) ++ [closeAt q'] := by
  refine ⟨p.next '(', ((p.next '(').after (heads.head recipe).toList).after
    ((n.children.flatMap (.blank ' ' :: ·.lexemes heads)).flatMap Lexeme.chars), ?_⟩
  have hopen : (Lexeme.operator ['(']).tokens p = [openAt p] := rfl
  rw [lexemes_of_form h, tokensFrom, tokensFrom_append, tokensFrom_append, hopen]
  show openAt p :: (_ ++ (_ ++ [closeAt _])) = _
  rw [← List.append_assoc, ← List.cons_append, ← head_chars heads h]
  rfl

/-- The lexemes of a tree, wherever they stand, derive the tree as far as its spans do not
matter. -/
def Derivable (heads : HeadChoice) (n : Node) : Prop :=
  ∀ p, ∃ n', Expr Token.isOpen (tokensFrom p (n.lexemes heads)) n' ∧ n'.unplaced = n.unplaced

/-- Tokens that are slots of a recipe and make a node, as far as its spans do not matter. -/
def HasSlots (recipe : Recipe) (ts : List Token) (next : Token) (n : Node) : Prop :=
  ∃ make, Slots Token.isOpen recipe ts next make ∧
    ∀ m, m.unplaced = n.mark.unplaced → (make m).unplaced = n.unplaced

theorem unplaced_mark {m : Mark} {span : Span} (h : m.ascription = none) :
    Mark.unplaced ⟨span, none⟩ = m.unplaced := by
  rw [Mark.unplaced, Mark.unplaced, h]

/-- **A form is derived** if its slots are. -/
theorem derivable_of_slots (h : n.recipe? = some recipe) (hplain : n.mark.ascription = none)
    (hslots : ∀ p next, next.isClose = true →
      HasSlots recipe (slotTokens heads p n.children) next n) :
    n.Derivable heads := by
  intro p
  obtain ⟨q, q', htokens⟩ := tokensFrom_lexemes_of_form heads h p
  have hclose : (closeAt q').isClose = true := rfl
  obtain ⟨make, hmake, hnode⟩ := hslots (q.after (heads.head recipe).toList) (closeAt q') hclose
  have hhead := isHead_tokensFrom heads h q n.children hclose
  have hopen : (openAt p).isOpen = true := rfl
  have hform := Form.mk hopen hhead hmake hclose rfl
  have htype : headType (tokensFrom q (headLexemes (heads.head recipe))) = none := by
    cases hrun : tokensFrom q (headLexemes (heads.head recipe)) with
    | nil => rfl
    | cons t ts =>
      refine (tokensFrom_ascription q (headLexemes (heads.head recipe)) t ?_).1
      rw [hrun]
      exact List.mem_cons_self
  rw [htype] at hform
  rw [htokens]
  exact ⟨_, .form rfl hform, hnode _ (unplaced_mark hplain)⟩

/-! ## Atoms -/

/-- A string is one token. -/
theorem exists_str (h : n.Printable) (htag : n.tag = .str) (p : Position) :
    ∃ t, tokensFrom p (n.lexemes heads) = [t] ∧ t.kind = .string ∧
      (strOf t).unplaced = n.unplaced := by
  obtain ⟨m, value, rfl⟩ : ∃ m value, n = str m value := by
    cases n with
    | str m value => exact ⟨m, value, rfl⟩
    | unary _ op => cases op <;> cases htag
    | binary _ op => cases op <;> cases htag
    | _ => cases htag
  refine ⟨_, by rw [lexemes_of_atom rfl]; rfl, rfl, ?_⟩
  rw [strOf, unplaced, unplaced, String.ofList_toList, unplaced_mark h.plain]
  rfl

/-- A name is one token, and an identifier. -/
theorem tokens_name {name : String} (h : name ∉ keywordWords) (p : Position) :
    tokensFrom p [.name name.toList []]
      = [{ kind := .identifier, text := name, span := ⟨p, p.after (name.toList ++ [])⟩ }] := by
  have hkeyword : Category.keyword.has (String.ofList name.toList) = false := by
    rw [String.ofList_toList, Category.has, List.contains_eq_mem]
    exact decide_eq_false h
  have htokens : (Lexeme.name name.toList []).tokens p = [{
      kind := if Category.keyword.has (String.ofList name.toList) then .keyword else .identifier,
      text := String.ofList name.toList, span := ⟨p, p.after (name.toList ++ [])⟩ }] := rfl
  rw [tokensFrom, htokens, hkeyword, String.ofList_toList]
  rfl

theorem exists_ident (h : n.Printable) (htag : n.tag = .ident) (p : Position) :
    ∃ t, tokensFrom p (n.lexemes heads) = [t] ∧ t.kind = .identifier ∧ t.ascription = none ∧
      (identOf t).unplaced = n.unplaced := by
  obtain ⟨m, name, rfl⟩ : ∃ m name, n = ident m name := by
    cases n with
    | ident m name => exact ⟨m, name, rfl⟩
    | unary _ op => cases op <;> cases htag
    | binary _ op => cases op <;> cases htag
    | _ => cases htag
  refine ⟨_, by rw [lexemes_of_atom rfl]; exact tokens_name h.spelled.2.2 p, rfl, rfl, ?_⟩
  rw [identOf, unplaced, unplaced, unplaced_mark h.plain]
  rfl

theorem exists_type (h : n.Printable) (htag : n.tag = .type) (p : Position) :
    ∃ t, tokensFrom p (n.lexemes heads) = [t] ∧ t.kind = .identifier ∧
      (type ⟨t.span, none⟩ t.text).unplaced = n.unplaced := by
  obtain ⟨m, name, rfl⟩ : ∃ m name, n = type m name := by
    cases n with
    | type m name => exact ⟨m, name, rfl⟩
    | unary _ op => cases op <;> cases htag
    | binary _ op => cases op <;> cases htag
    | _ => cases htag
  refine ⟨_, by rw [lexemes_of_atom rfl]; exact tokens_name h.spelled.2.2 p, rfl, ?_⟩
  rw [unplaced, unplaced, unplaced_mark h.plain]
  rfl

/-- A number is one token, or a sign and a token right behind it. -/
theorem derivable_num {m : Mark} {value : Binary64} {text : String}
    (h : (num m value text).Printable) : (num m value text).Derivable heads := by
  intro p
  obtain ⟨hnumeral | ⟨digits, hdigits, hnumeral⟩, hspells⟩ := h.spelled
  · have htokens : tokensFrom p ((num m value text).lexemes heads)
        = [{ kind := .number, text, span := ⟨p, p.after text.toList⟩ }] := by
      rw [lexemes_of_atom rfl, atomLexemes, numeralLexemes_of_isNumeral hnumeral]
      exact congrArg (fun s => [({ kind := .number, text := s, span := _ } : Token)])
        String.ofList_toList
    rw [htokens]
    refine ⟨_, .num rfl hspells, ?_⟩
    rw [unplaced, unplaced, unplaced_mark h.plain]
    rfl
  · have htext : "-" ++ String.ofList digits = text := by
      rw [← String.toList_inj, hdigits]
      simp
    have htokens : tokensFrom p ((num m value text).lexemes heads)
        = [{ kind := .operator, text := "-", span := ⟨p, p.next '-'⟩ },
           { kind := .number, text := String.ofList digits,
             span := ⟨p.next '-', (p.next '-').after digits⟩ }] := by
      rw [lexemes_of_atom rfl, atomLexemes, hdigits]
      rfl
    rw [htokens]
    refine ⟨_, .negative rfl rfl rfl rfl (htext.symm ▸ hspells), ?_⟩
    rw [unplaced, unplaced, htext]
    exact congrArg (num · value text) (unplaced_mark h.plain)

/-! ## Slots -/

/-- A slot that takes any expression. -/
theorem expr_slot {c : Node} (h : c.Derivable heads) (p : Position) (ns : List Node) :
    ∃ c' ts q, Expr Token.isOpen ts c' ∧ c'.unplaced = c.unplaced ∧
      slotTokens heads p (c :: ns) = ts ++ slotTokens heads q ns := by
  obtain ⟨q, hsplit⟩ := slotTokens_cons heads p c ns
  obtain ⟨c', hexpr, hsame⟩ := h (p.next ' ')
  exact ⟨c', _, q, hexpr, hsame, hsplit⟩

theorem expr_last {c : Node} (h : c.Derivable heads) (p : Position) :
    ∃ c', Expr Token.isOpen (slotTokens heads p [c]) c' ∧ c'.unplaced = c.unplaced := by
  obtain ⟨c', ts, q, hexpr, hsame, hsplit⟩ := expr_slot h p []
  rw [hsplit, slotTokens_nil, List.append_nil]
  exact ⟨c', hexpr, hsame⟩

/-- A slot that takes a name. -/
theorem ident_slot {c : Node} (h : c.Printable) (htag : c.tag = .ident) (p : Position)
    (ns : List Node) :
    ∃ t q, t.kind = .identifier ∧ t.ascription = none ∧ (identOf t).unplaced = c.unplaced ∧
      slotTokens heads p (c :: ns) = t :: slotTokens heads q ns := by
  obtain ⟨q, hsplit⟩ := slotTokens_cons heads p c ns
  obtain ⟨t, htokens, hkind, hplain, hsame⟩ := exists_ident h htag (p.next ' ')
  rw [htokens] at hsplit
  exact ⟨t, q, hkind, hplain, hsame, hsplit⟩

/-- Slots that take any number of items. -/
theorem items_slots {head : Option String} {ns : List Node}
    (h : ∀ c ∈ ns, ∀ p, ∃ c', Item Token.isOpen head (tokensFrom p (c.lexemes heads)) c' ∧
      c'.unplaced = c.unplaced) (p : Position) :
    ∃ ns', Items Token.isOpen head (slotTokens heads p ns) ns' ∧
      ns'.map unplaced = ns.map unplaced ∧ ns'.length = ns.length := by
  induction ns generalizing p with
  | nil => exact ⟨[], .nil, rfl, rfl⟩
  | cons c ns ih =>
    obtain ⟨q, hsplit⟩ := slotTokens_cons heads p c ns
    obtain ⟨c', hitem, hsame⟩ := h c List.mem_cons_self (p.next ' ')
    obtain ⟨ns', hitems, hrest, hlength⟩ := ih (fun d hd => h d (List.mem_cons_of_mem _ hd)) q
    rw [hsplit]
    refine ⟨c' :: ns', .cons hitem hitems, ?_, congrArg (· + 1) hlength⟩
    rw [List.map_cons, List.map_cons, hsame, hrest]

/-- Statements and arguments. -/
theorem exprs_slots {ns : List Node} (h : ∀ c ∈ ns, c.Derivable heads) (p : Position) :
    ∃ ns', Items Token.isOpen none (slotTokens heads p ns) ns' ∧
      ns'.map unplaced = ns.map unplaced ∧ ns'.length = ns.length := by
  refine items_slots (fun c hc q => ?_) p
  obtain ⟨c', hexpr, hsame⟩ := h c hc q
  exact ⟨c', .expr hexpr, hsame⟩

/-- The form that a printed node derives. -/
theorem exists_form (h : n.Derivable heads) (hrecipe : n.recipe? = some recipe) (p : Position) :
    ∃ n', Form Token.isOpen (tokensFrom p (n.lexemes heads)) n' ∧ n'.unplaced = n.unplaced := by
  obtain ⟨n', hexpr, hsame⟩ := h p
  obtain ⟨q, q', htokens⟩ := tokensFrom_lexemes_of_form heads hrecipe p
  rw [htokens, List.cons_append] at hexpr ⊢
  exact ⟨n', (expr_open rfl rfl).mp hexpr, hsame⟩

/-- A printed form whose head is a keyword, as an item that must have this head. -/
theorem exists_headed {word : String} (h : n.Derivable heads) (hrecipe : n.recipe? = some recipe)
    (hhead : heads.head recipe = word) (hkeyword : headLexemes word = [.keyword word.toList])
    (p : Position) :
    ∃ n', Item Token.isOpen (some word) (tokensFrom p (n.lexemes heads)) n' ∧
      n'.unplaced = n.unplaced := by
  obtain ⟨n', hform, hsame⟩ := exists_form h hrecipe p
  refine ⟨n', ?_, hsame⟩
  rw [lexemes_of_form hrecipe, hhead, hkeyword] at hform ⊢
  refine .headed ?_ hform
  show (_ && (String.ofList word.toList == word)) = true
  rw [String.ofList_toList, beq_self_eq_true]
  rfl

theorem head_params (heads : HeadChoice) : heads.head .params = "plist" := by
  have := heads.named .params (by decide)
  simpa [headRecipes] using this

theorem head_param (heads : HeadChoice) : heads.head .param = "param" := by
  have := heads.named .param (by decide)
  simpa [headRecipes] using this

/-- The nodes that have to stand in certain slots are forms of the recipe that their tag names. -/
theorem recipe_of_tag (hrecipe : recipe = .block ∨ recipe = .params ∨ recipe = .param)
    (h : n.tag = recipe.tag) : n.recipe? = some recipe := by
  cases n with
  | unary _ op _ => cases op <;> rcases hrecipe with rfl | rfl | rfl <;> cases h
  | binary _ op _ _ => cases op <;> rcases hrecipe with rfl | rfl | rfl <;> cases h
  | block | params | param => rcases hrecipe with rfl | rfl | rfl <;> first | rfl | cases h
  | _ => rcases hrecipe with rfl | rfl | rfl <;> cases h

/-- A form that stands for a block is one. -/
theorem asBlock_unplaced {n' : Node} (htag : n.tag = .block) (h : n'.unplaced = n.unplaced) :
    (asBlock n').unplaced = n.unplaced := by
  have hblock : ∃ m body, n.unplaced = block m body := by
    cases n with
    | block m body => exact ⟨_, _, unplaced.eq_def _⟩
    | unary _ op => cases op <;> cases htag
    | binary _ op => cases op <;> cases htag
    | _ => cases htag
  obtain ⟨m, body, hblock⟩ := hblock
  have hself : asBlock n' = n' := by
    rw [hblock] at h
    cases n' with
    | block => rfl
    | branch _ _ _ no => cases no <;> simp [unplaced] at h
    | _ => simp [unplaced] at h
  rw [hself, h]

/-! ## One construct after the other

For each construct, what its children have to be for the tokens of them to be the slots of its
recipe. -/

section Constructs

variable {a b c : Node} {ns : List Node} {m : Mark} {p : Position} {next : Token}

theorem hasSlots_doc (ha : a.Printable) (htag : a.tag = .str) :
    HasSlots .doc (slotTokens heads p [a]) next (doc m a) := by
  obtain ⟨q, hsplit⟩ := slotTokens_cons heads p a []
  obtain ⟨t, htokens, hkind, hsame⟩ := @exists_str heads a ha htag (p.next ' ')
  rw [hsplit, htokens]
  refine ⟨_, .doc hkind, fun mark hmark => ?_⟩
  simp only [unplaced, hmark, Node.mark, hsame]

theorem hasSlots_declare (ha : a.Printable) (htag : a.tag = .ident) (hb : b.Derivable heads) :
    HasSlots .declare (slotTokens heads p [a, b]) next (declare m a b) := by
  obtain ⟨t, q, hkind, -, hname, hsplit⟩ := @ident_slot heads a ha htag p [b]
  obtain ⟨b', hexpr, hvalue⟩ := expr_last hb q
  rw [hsplit]
  refine ⟨_, .declare hkind hexpr, fun mark hmark => ?_⟩
  simp only [unplaced, hmark, Node.mark, hname, hvalue]

theorem hasSlots_assign (ha : a.Printable) (htag : a.tag = .ident) (hb : b.Derivable heads) :
    HasSlots .assign (slotTokens heads p [a, b]) next (assign m a b) := by
  obtain ⟨t, q, hkind, -, hname, hsplit⟩ := @ident_slot heads a ha htag p [b]
  obtain ⟨b', hexpr, hvalue⟩ := expr_last hb q
  rw [hsplit]
  refine ⟨_, .assign hkind hexpr, fun mark hmark => ?_⟩
  simp only [unplaced, hmark, Node.mark, hname, hvalue]

theorem hasSlots_increment (ha : a.Printable) (htag : a.tag = .ident) :
    HasSlots .increment (slotTokens heads p [a]) next (increment m a) := by
  obtain ⟨t, q, hkind, -, hname, hsplit⟩ := @ident_slot heads a ha htag p []
  rw [hsplit]
  refine ⟨_, .increment hkind, fun mark hmark => ?_⟩
  simp only [unplaced, hmark, Node.mark, hname]

/-- A parameter takes over the annotation of its name, which has none here. -/
theorem hasSlots_param (ha : a.Printable) (htag : a.tag = .ident) :
    HasSlots .param (slotTokens heads p [a]) next (param m a) := by
  obtain ⟨t, q, hkind, hplain, hname, hsplit⟩ := @ident_slot heads a ha htag p []
  rw [hsplit]
  refine ⟨_, .param hkind, fun mark hmark => ?_⟩
  rw [hplain]
  simp only [unplaced, hname]
  exact congrArg (param · a.unplaced) hmark

theorem hasSlots_result (ha : a.Derivable heads) :
    HasSlots .result (slotTokens heads p [a]) next (result m a) := by
  obtain ⟨a', hexpr, hvalue⟩ := expr_last ha p
  refine ⟨_, .result hexpr, fun mark hmark => ?_⟩
  simp only [unplaced, hmark, Node.mark, hvalue]

theorem hasSlots_member (ha : a.Derivable heads) (hb : b.Printable) (htag : b.tag = .ident) :
    HasSlots .member (slotTokens heads p [a, b]) next (member m a b) := by
  obtain ⟨a', ts, q, hexpr, hobject, hsplit⟩ := expr_slot ha p [b]
  obtain ⟨t, q', hkind, -, hname, hsplit'⟩ := @ident_slot heads b hb htag q []
  rw [hsplit, hsplit']
  refine ⟨_, .member hexpr hkind, fun mark hmark => ?_⟩
  simp only [unplaced, hmark, Node.mark, hobject, hname]

theorem hasSlots_cast (ha : a.Derivable heads) (hb : b.Printable) (htag : b.tag = .type) :
    HasSlots .cast (slotTokens heads p [a, b]) next (cast m a b) := by
  obtain ⟨a', ts, q, hexpr, hvalue, hsplit⟩ := expr_slot ha p [b]
  obtain ⟨q', hsplit'⟩ := slotTokens_cons heads q b []
  obtain ⟨t, htokens, hkind, htype⟩ := @exists_type heads b hb htag (q.next ' ')
  rw [unplaced] at htype
  rw [hsplit, hsplit', htokens]
  refine ⟨_, .cast hexpr hkind, fun mark hmark => ?_⟩
  simp only [unplaced, hmark, Node.mark, hvalue, htype]

/-- A sign with one operand needs the closing parenthesis to be told from one with two. -/
theorem hasSlots_unary {op : UnaryOp} (hrecipe : (unary m op a).recipe? = some recipe)
    (ha : a.Derivable heads) (hnext : next.isClose = true) :
    HasSlots recipe (slotTokens heads p [a]) next (unary m op a) := by
  obtain ⟨a', hexpr, hoperand⟩ := expr_last ha p
  have hsame : ∀ mark, mark.unplaced = m.unplaced →
      (unary mark op a').unplaced = (unary m op a).unplaced := by
    intro mark hmark
    simp only [unplaced, hmark, hoperand]
  cases op with
  | plus => cases hrecipe; exact ⟨_, .signOne hexpr hnext, hsame⟩
  | minus => cases hrecipe; exact ⟨_, .signOne hexpr hnext, hsame⟩
  | bitNot => cases hrecipe; exact ⟨_, .unary hexpr, hsame⟩
  | not => cases hrecipe; exact ⟨_, .unary hexpr, hsame⟩

theorem hasSlots_binary {op : BinaryOp} (hrecipe : (binary m op a b).recipe? = some recipe)
    (ha : a.Derivable heads) (hb : b.Derivable heads) :
    HasSlots recipe (slotTokens heads p [a, b]) next (binary m op a b) := by
  obtain ⟨a', ts, q, hleft, hleftSame, hsplit⟩ := expr_slot ha p [b]
  obtain ⟨b', hright, hrightSame⟩ := expr_last hb q
  have hsame : ∀ mark, mark.unplaced = m.unplaced →
      (binary mark op a' b').unplaced = (binary m op a b).unplaced := by
    intro mark hmark
    simp only [unplaced, hmark, hleftSame, hrightSame]
  rw [hsplit]
  cases op with
  | add => cases hrecipe; exact ⟨_, .signTwo hleft hright, hsame⟩
  | sub => cases hrecipe; exact ⟨_, .signTwo hleft hright, hsame⟩
  | _ => cases hrecipe; exact ⟨_, .binary hleft hright, hsame⟩

theorem hasSlots_choice (ha : a.Derivable heads) (hb : b.Derivable heads) (hc : c.Derivable heads) :
    HasSlots .choice (slotTokens heads p [a, b, c]) next (choice m a b c) := by
  obtain ⟨a', ts, q, hcondition, hsame, hsplit⟩ := expr_slot ha p [b, c]
  obtain ⟨b', us, q', hyes, hyesSame, hsplit'⟩ := expr_slot hb q [c]
  obtain ⟨c', hno, hnoSame⟩ := expr_last hc q'
  rw [hsplit, hsplit']
  refine ⟨_, .choice hcondition hyes hno, fun mark hmark => ?_⟩
  simp only [unplaced, hmark, Node.mark, hsame, hyesSame, hnoSame]

theorem hasSlots_branch (ha : a.Derivable heads) (hb : b.Derivable heads)
    (hnext : next.isClose = true) :
    HasSlots .branch (slotTokens heads p [a, b]) next (branch m a b none) := by
  obtain ⟨a', ts, q, hcondition, hsame, hsplit⟩ := expr_slot ha p [b]
  obtain ⟨b', hyes, hyesSame⟩ := expr_last hb q
  rw [hsplit]
  refine ⟨_, .branch hcondition hyes hnext, fun mark hmark => ?_⟩
  simp only [unplaced, hmark, Node.mark, hsame, hyesSame]

theorem hasSlots_branchElse (ha : a.Derivable heads) (hb : b.Derivable heads)
    (hc : c.Derivable heads) :
    HasSlots .branch (slotTokens heads p [a, b, c]) next (branch m a b (some c)) := by
  obtain ⟨a', ts, q, hcondition, hsame, hsplit⟩ := expr_slot ha p [b, c]
  obtain ⟨b', us, q', hyes, hyesSame, hsplit'⟩ := expr_slot hb q [c]
  obtain ⟨c', hno, hnoSame⟩ := expr_last hc q'
  rw [hsplit, hsplit']
  refine ⟨_, .branchElse hcondition hyes hno, fun mark hmark => ?_⟩
  simp only [unplaced, hmark, Node.mark, hsame, hyesSame, hnoSame]

/-- The body of a loop is printed as a block with a head, never as a bare one. -/
theorem hasSlots_doWhile (htag : a.tag = .block) (ha : a.Derivable heads)
    (hb : b.Derivable heads) :
    HasSlots .doWhile (slotTokens heads p [a, b]) next (doWhile m a b) := by
  obtain ⟨q, hsplit⟩ := slotTokens_cons heads p a [b]
  obtain ⟨a', hform, hbody⟩ := exists_form ha (recipe_of_tag (.inl rfl) htag) (p.next ' ')
  obtain ⟨b', hexpr, hcondition⟩ := expr_last hb q
  rw [hsplit]
  refine ⟨_, .doWhile (.form hform rfl) hexpr, fun mark hmark => ?_⟩
  simp only [unplaced, hmark, Node.mark, asBlock_unplaced htag hbody, hcondition]

theorem hasSlots_block (hns : ∀ d ∈ ns, d.Derivable heads) (hfew : ns.length ≤ Limits.listChildren)
    (hnext : next.isClose = true) :
    HasSlots .block (slotTokens heads p ns) next (block m ns) := by
  obtain ⟨ns', hitems, hsame, hlength⟩ := exprs_slots hns p
  refine ⟨_, .block hitems (hlength ▸ hfew) hnext, fun mark hmark => ?_⟩
  simp only [unplaced, hmark, Node.mark, hsame]

theorem hasSlots_call (ha : a.Derivable heads) (hns : ∀ d ∈ ns, d.Derivable heads)
    (hfew : ns.length ≤ Limits.listChildren) (hnext : next.isClose = true) :
    HasSlots .call (slotTokens heads p (a :: ns)) next (call m a ns) := by
  obtain ⟨a', ts, q, hexpr, hcallee, hsplit⟩ := expr_slot ha p ns
  obtain ⟨ns', hitems, hargs, hlength⟩ := exprs_slots hns q
  rw [hsplit]
  refine ⟨_, .call hexpr hitems (hlength ▸ hfew) hnext, fun mark hmark => ?_⟩
  simp only [unplaced, hmark, Node.mark, hcallee, hargs]

theorem hasSlots_function (htag : a.tag = .params) (ha : a.Derivable heads)
    (hns : ∀ d ∈ ns, d.Derivable heads) (hfew : ns.length ≤ Limits.listChildren)
    (hnext : next.isClose = true) :
    HasSlots .function (slotTokens heads p (a :: ns)) next (function m a ns) := by
  obtain ⟨q, hsplit⟩ := slotTokens_cons heads p a ns
  obtain ⟨a', hitem, hparams⟩ := exists_headed ha (recipe_of_tag (.inr (.inl rfl)) htag)
    (head_params heads) rfl (p.next ' ')
  obtain ⟨ns', hitems, hbody, hlength⟩ := exprs_slots hns q
  rw [hsplit]
  refine ⟨_, .function hitem hitems (hlength ▸ hfew) hnext, fun mark hmark => ?_⟩
  simp only [unplaced, hmark, Node.mark, hparams, hbody]

theorem hasSlots_params (htags : ∀ d ∈ ns, d.tag = .param) (hns : ∀ d ∈ ns, d.Derivable heads)
    (hfew : ns.length ≤ Limits.listChildren) (hnext : next.isClose = true) :
    HasSlots .params (slotTokens heads p ns) next (params m ns) := by
  have hheaded : ∀ d ∈ ns, ∀ p, ∃ d', Item Token.isOpen (some "param")
      (tokensFrom p (d.lexemes heads)) d' ∧ d'.unplaced = d.unplaced := fun d hd =>
    exists_headed (hns d hd) (recipe_of_tag (.inr (.inr rfl)) (htags d hd)) (head_param heads) rfl
  obtain ⟨ns', hitems, hsame, hlength⟩ := items_slots hheaded p
  refine ⟨_, .params hitems (hlength ▸ hfew) hnext, fun mark hmark => ?_⟩
  simp only [unplaced, hmark, Node.mark, hsame]

theorem hasSlots_forLess (ha : a.Printable) (htag : a.tag = .ident) (hb : b.Derivable heads)
    (hc : c.Derivable heads) (hns : ∀ d ∈ ns, d.Derivable heads)
    (hfew : ns.length ≤ Limits.listChildren) (hnext : next.isClose = true) :
    HasSlots .forLess (slotTokens heads p (a :: b :: c :: ns)) next (forLess m a b c ns) := by
  obtain ⟨t, q₁, hkind, -, hname, hsplit₁⟩ := @ident_slot heads a ha htag p (b :: c :: ns)
  obtain ⟨b', ts, q₂, hstart, hstartSame, hsplit₂⟩ := expr_slot hb q₁ (c :: ns)
  obtain ⟨c', us, q₃, hstop, hstopSame, hsplit₃⟩ := expr_slot hc q₂ ns
  obtain ⟨ns', hitems, hbody, hlength⟩ := exprs_slots hns q₃
  rw [hsplit₁, hsplit₂, hsplit₃]
  refine ⟨_, .forLess hkind hstart hstop hitems (hlength ▸ hfew) hnext, fun mark hmark => ?_⟩
  simp only [unplaced, hmark, Node.mark, hname, hstartSame, hstopSame, hbody]

end Constructs

theorem mem_children_of_mem_values {c : Node} (h : c ∈ n.values) : c ∈ n.children := by
  cases n with
  | cast => exact List.mem_cons.mpr (.inl (List.mem_singleton.mp h))
  | _ => exact h

/-- **The slots of a printed node follow its recipe.** -/
theorem hasSlots (hn : n.Printable) (hlists : n.ListsParams)
    (hchildren : ∀ c ∈ n.children, c.Printable) (hvalues : ∀ c ∈ n.values, c.Derivable heads)
    (hrecipe : n.recipe? = some recipe) (p : Position) {next : Token}
    (hnext : next.isClose = true) :
    HasSlots recipe (slotTokens heads p n.children) next n := by
  have hshaped := hn.shaped
  have hfew := hn.few
  -- The kinds asked for are in `hshaped`; every other child is one of the values.
  cases n with
  | str | num | ident | type | program => cases hrecipe
  | doc _ a => cases hrecipe; exact hasSlots_doc (hchildren a List.mem_cons_self) hshaped
  | increment _ a =>
    cases hrecipe; exact hasSlots_increment (hchildren a List.mem_cons_self) hshaped
  | param _ a => cases hrecipe; exact hasSlots_param (hchildren a List.mem_cons_self) hshaped
  | declare _ a b =>
    cases hrecipe
    have hb := hvalues b (by simp [values, children])
    exact hasSlots_declare (hchildren a List.mem_cons_self) hshaped hb
  | assign _ a b =>
    cases hrecipe
    have hb := hvalues b (by simp [values, children])
    exact hasSlots_assign (hchildren a List.mem_cons_self) hshaped hb
  | member _ a b =>
    cases hrecipe
    have hb := hchildren b (by simp [children])
    exact hasSlots_member (hvalues a List.mem_cons_self) hb hshaped
  | cast _ a b =>
    cases hrecipe
    have hb := hchildren b (by simp [children])
    exact hasSlots_cast (hvalues a List.mem_cons_self) hb hshaped
  | doWhile _ a b =>
    cases hrecipe
    have hb := hvalues b (by simp [values, children])
    exact hasSlots_doWhile hshaped (hvalues a List.mem_cons_self) hb
  | result _ a => cases hrecipe; exact hasSlots_result (hvalues a List.mem_cons_self)
  | unary _ _ a => exact hasSlots_unary hrecipe (hvalues a List.mem_cons_self) hnext
  | binary _ _ a b =>
    have hb := hvalues b (by simp [values, children])
    exact hasSlots_binary hrecipe (hvalues a List.mem_cons_self) hb
  | choice _ a b c =>
    cases hrecipe
    have hb := hvalues b (by simp [values, children])
    have hc := hvalues c (by simp [values, children])
    exact hasSlots_choice (hvalues a List.mem_cons_self) hb hc
  | branch _ a b no =>
    cases hrecipe
    cases no with
    | none =>
      have hb := hvalues b (by simp [values, children])
      exact hasSlots_branch (hvalues a List.mem_cons_self) hb hnext
    | some c =>
      have hb := hvalues b (by simp [values, children])
      have hc := hvalues c (by simp [values, children])
      exact hasSlots_branchElse (hvalues a List.mem_cons_self) hb hc
  | block => cases hrecipe; exact hasSlots_block hvalues hfew hnext
  | params => cases hrecipe; exact hasSlots_params (hlists rfl) hvalues hfew hnext
  | call _ a ns =>
    cases hrecipe
    have hns : ∀ d ∈ ns, d.Derivable heads := fun d hd => hvalues d (List.mem_cons_of_mem _ hd)
    exact hasSlots_call (hvalues a List.mem_cons_self) hns hfew hnext
  | function _ a ns =>
    cases hrecipe
    have hns : ∀ d ∈ ns, d.Derivable heads := fun d hd => hvalues d (List.mem_cons_of_mem _ hd)
    exact hasSlots_function hshaped.1 (hvalues a List.mem_cons_self) hns hfew hnext
  | forLess _ a b c ns =>
    cases hrecipe
    have hb := hvalues b (by simp [values, children])
    have hc := hvalues c (by simp [values, children])
    have hns : ∀ d ∈ ns, d.Derivable heads := fun d hd => hvalues d (by simp [values, children, hd])
    exact hasSlots_forLess (hchildren a List.mem_cons_self) hshaped hb hc hns hfew hnext

/-- **A printed tree is derived.** -/
theorem derivable (h : n.Everywhere Printable) (hlists : n.Everywhere ListsParams)
    (htype : n.tag ≠ .type) (hprogram : n.tag ≠ .program) : n.Derivable heads := by
  induction n using induct with
  | step n ih =>
    have hn := h.here
    cases hrecipe : n.recipe? with
    | none =>
      cases n with
      | str =>
        intro p
        obtain ⟨t, htokens, hkind, hsame⟩ := @exists_str heads _ hn rfl p
        rw [htokens]
        exact ⟨_, .str hkind, hsame⟩
      | ident =>
        intro p
        obtain ⟨t, htokens, hkind, -, hsame⟩ := @exists_ident heads _ hn rfl p
        rw [htokens]
        exact ⟨_, .ident hkind, hsame⟩
      | num => exact derivable_num hn
      | type => exact absurd rfl htype
      | program => exact absurd rfl hprogram
      | unary _ op => cases op <;> cases hrecipe
      | binary _ op => cases op <;> cases hrecipe
      | _ => cases hrecipe
    | some recipe =>
      -- The type of a cast is no expression, so only the values are derived by induction.
      have hvalues : ∀ c ∈ n.values, c.Derivable heads := by
        intro c hc
        have hchild := mem_children_of_mem_values hc
        exact ih c hchild (h.below c hchild) (hlists.below c hchild) (hn.typed c hc)
          (hn.inner c hchild)
      exact derivable_of_slots hrecipe hn.plain fun p next hnext =>
        hasSlots hn hlists.here (fun c hc => (h.below c hc).here) hvalues hrecipe p hnext

end Node

end FormScript
