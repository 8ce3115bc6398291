import FormScript.Proofs.Acceptance
import FormScript.Proofs.Derivation

/-!
# Printed trees are parsed back

The text of a program is tokenized (`Node.tokenize_printProgram`), its tokens derive the program
(`Node.derivable`), and the parser accepts exactly what the grammar derives, as long as the
parentheses are not nested too deep. So nesting is what is left: it is counted on the tokens and on
the tree, and the two agree (`Node.nesting_lexemes`).

**`parse_printProgram`** puts these together.
-/

namespace FormScript

open Grammar

namespace Node

/-- How deep the parentheses in the text of a node are nested. -/
def parenDepth (n : Node) : Nat :=
  match n.recipe? with
  | none => 0
  | some _ => (n.children.attach.map fun c => parenDepth c.1).foldr max 0 + 1
termination_by sizeOf n
decreasing_by exact sizeOf_lt_of_mem_children c.2

variable {heads : HeadChoice} {n : Node} {recipe : Recipe}

theorem parenDepth_of_atom (h : n.recipe? = none) : n.parenDepth = 0 := by
  rw [parenDepth, h]

theorem parenDepth_of_form (h : n.recipe? = some recipe) :
    n.parenDepth = (n.children.map parenDepth).foldr max 0 + 1 := by
  rw [parenDepth, h]
  simp

theorem not_paren_atom (h : n.Spelled) (p : Position) :
    ∀ t ∈ tokensFrom p n.atomLexemes, t.isOpen = false ∧ t.isClose = false := by
  intro t ht
  cases n with
  | str =>
    rw [List.mem_singleton.mp ht]
    exact not_paren_of_kind rfl
  | num _ _ text =>
    change t ∈ tokensFrom p (numeralLexemes text.toList) at ht
    unfold numeralLexemes at ht
    split at ht
    · rcases List.mem_cons.mp ht with rfl | ht
      · exact ⟨rfl, rfl⟩
      · rw [List.mem_singleton.mp ht]
        exact not_paren_of_kind rfl
    · rw [List.mem_singleton.mp ht]
      exact not_paren_of_kind rfl
  | ident _ name =>
    change t ∈ tokensFrom p [.name name.toList []] at ht
    rw [tokens_name h.2.2] at ht
    rw [List.mem_singleton.mp ht]
    exact not_paren_of_kind rfl
  | type _ name =>
    change t ∈ tokensFrom p [.name name.toList []] at ht
    rw [tokens_name h.2.2] at ht
    rw [List.mem_singleton.mp ht]
    exact not_paren_of_kind rfl
  | _ => cases ht

theorem nesting_slotTokens {ns : List Node}
    (h : ∀ c ∈ ns, ∀ p, Balanced (tokensFrom p (c.lexemes heads)) ∧
      nesting (tokensFrom p (c.lexemes heads)) = c.parenDepth) (p : Position) :
    Balanced (slotTokens heads p ns) ∧
      nesting (slotTokens heads p ns) = (ns.map parenDepth).foldr max 0 := by
  induction ns generalizing p with
  | nil => exact ⟨balanced_nil, rfl⟩
  | cons c ns ih =>
    obtain ⟨q, hsplit⟩ := slotTokens_cons heads p c ns
    obtain ⟨hfirst, hdepth⟩ := h c List.mem_cons_self (p.next ' ')
    obtain ⟨hrest, hdepths⟩ := ih (fun d hd => h d (List.mem_cons_of_mem _ hd)) q
    rw [hsplit, hfirst.nesting_append, hdepth, hdepths]
    exact ⟨hfirst.append hrest, rfl⟩

/-- **The parentheses of a printed tree** are balanced, and nested as deep as its depth says. -/
theorem nesting_lexemes (h : n.Everywhere Spelled) (p : Position) :
    Balanced (tokensFrom p (n.lexemes heads)) ∧
      nesting (tokensFrom p (n.lexemes heads)) = n.parenDepth := by
  induction n using induct generalizing p with
  | step n ih =>
    cases hrecipe : n.recipe? with
    | none =>
      rw [lexemes_of_atom hrecipe, parenDepth_of_atom hrecipe]
      exact balanced_of_plain (not_paren_atom h.here p)
    | some recipe =>
      obtain ⟨q, q', htokens⟩ := tokensFrom_lexemes_of_form heads hrecipe p
      obtain ⟨hslots, hdepth⟩ := @nesting_slotTokens heads n.children
        (fun c hc => ih c hc (h.below c hc)) (q.after (heads.head recipe).toList)
      -- The head has no parenthesis, so the form is one deeper than its slots.
      have hclose : (closeAt q').isClose = true := rfl
      obtain ⟨hrun, hzero⟩ := (isHead_tokensFrom heads hrecipe q n.children hclose).joined.balanced
      obtain ⟨hform, hnesting⟩ :=
        (hrun.append hslots).enclose (show (openAt p).isOpen = true from rfl)
        hclose
      rw [htokens, parenDepth_of_form hrecipe]
      refine ⟨hform, ?_⟩
      rw [hnesting, hrun.nesting_append, hzero, hdepth, Nat.zero_max]

theorem foldr_max_le {ns : List Node} {bound : Nat} (h : ∀ n ∈ ns, n.parenDepth ≤ bound) :
    (ns.map parenDepth).foldr max 0 ≤ bound := by
  induction ns with
  | nil => exact Nat.zero_le _
  | cons n ns ih =>
    exact Nat.max_le.mpr ⟨h n List.mem_cons_self, ih fun m hm => h m (List.mem_cons_of_mem _ hm)⟩

/-- The forms of a printed program are derived from its tokens, with parentheses nested as deep as
in the deepest of them. -/
theorem items_formLexemes {forms : List Node} (h : ∀ n ∈ forms, n.Everywhere Printable)
    (hlists : ∀ n ∈ forms, n.Everywhere ListsParams)
    (htags : ∀ n ∈ forms, n.tag ≠ .type ∧ n.tag ≠ .program) (p : Position) :
    ∃ forms', Items Token.isOpen none (tokensFrom p (formLexemes heads forms)) forms' ∧
      forms'.map unplaced = forms.map unplaced ∧
      nesting (tokensFrom p (formLexemes heads forms)) = (forms.map parenDepth).foldr max 0 := by
  have hderivable : ∀ n ∈ forms, n.Derivable heads := fun n hn =>
    derivable (h n hn) (hlists n hn) (htags n hn).1 (htags n hn).2
  have hspelled : ∀ n ∈ forms, n.Everywhere Spelled := fun n hn m hm => (h n hn m hm).spelled
  cases forms with
  | nil => exact ⟨[], .nil, rfl, rfl⟩
  | cons n ns =>
    obtain ⟨n', hexpr, hn⟩ := hderivable n List.mem_cons_self p
    obtain ⟨ns', hitems, hns, -⟩ := @exprs_slots heads ns
      (fun c hc => hderivable c (List.mem_cons_of_mem _ hc))
      (p.after ((n.lexemes heads).flatMap Lexeme.chars))
    obtain ⟨hbalanced, hdepth⟩ := @nesting_lexemes heads n (hspelled n List.mem_cons_self) p
    obtain ⟨-, hdepths⟩ := @nesting_slotTokens heads ns
      (fun c hc => nesting_lexemes (hspelled c (List.mem_cons_of_mem _ hc)))
      (p.after ((n.lexemes heads).flatMap Lexeme.chars))
    have hsplit : tokensFrom p (formLexemes heads (n :: ns)) = tokensFrom p (n.lexemes heads)
        ++ slotTokens heads (p.after ((n.lexemes heads).flatMap Lexeme.chars)) ns :=
      tokensFrom_append p _ _
    rw [hsplit, hbalanced.nesting_append, hdepth, hdepths]
    refine ⟨n' :: ns', .cons (.expr hexpr) hitems, ?_, rfl⟩
    rw [List.map_cons, List.map_cons, hn, hns]

end Node

/-- **What is printed is parsed back.** A tree that can be printed, and whose parameter lists hold
only parameters, is printed as a text that is tokenized and parsed without an error; the tree
returned differs from it in spans only. -/
theorem parse_printProgram (heads : HeadChoice) (track : Bool) (mark : Mark) (forms : List Node)
    (hprintable : (Node.program mark forms).Everywhere Node.Printable)
    (hlists : (Node.program mark forms).Everywhere Node.ListsParams)
    (hdepth : ∀ n ∈ forms, n.parenDepth ≤ Limits.parseDepth)
    (hcount : Node.totalTokens heads forms ≤ Limits.tokenCount) :
    ∃ stream tally tree s, tokenize (Node.printProgram heads forms) track = .ok (stream, tally) ∧
      stream.remaining.length = Node.totalTokens heads forms + 1 ∧
      parseProgram stream = .ok tree s ∧ tree.unplaced = (Node.program mark forms).unplaced := by
  have hforms : ∀ n ∈ forms, n.Everywhere Node.Printable := hprintable.below
  have hspelled : ∀ n ∈ forms, n.Everywhere Node.Spelled :=
    fun n hn m hm => (hforms n hn m hm).spelled
  have htags : ∀ n ∈ forms, n.tag ≠ .type ∧ n.tag ≠ .program :=
    fun n hn => ⟨hprintable.here.typed n hn, hprintable.here.inner n hn⟩
  obtain ⟨stream, tally, p, last, htokenize, hremaining, hlast, hswitches⟩ :=
    Node.tokenize_printProgram track hspelled hcount
  obtain ⟨forms', hitems, hsame, hnesting⟩ :=
    @Node.items_formLexemes heads forms hforms hlists.below htags p
  -- The parser asks for a stream that ends, whose tokens may all stand at the top level.
  have hended : stream.Ended := TokenStream.ended_of_remaining hremaining
    (fun t ht => (Node.tokensFrom_ascription p _ t ht).2) hlast
  have hatoms : Parse.AllowsAtoms stream := by
    intro i _ _
    simp [TokenStream.dialectAt, hswitches]
  have hshallow : nesting (tokensFrom p (Node.formLexemes heads forms)) ≤ Limits.parseDepth := by
    rw [hnesting]
    exact Node.foldr_max_le hdepth
  obtain ⟨s, hparse⟩ := (Parse.program_ok_iff hended hatoms hremaining hlast _).mpr
    ⟨forms', hitems, hshallow, rfl⟩
  refine ⟨stream, tally, _, s, htokenize, ?_, hparse, ?_⟩
  · rw [hremaining, List.length_append, Node.length_tokens_formLexemes, List.length_singleton]
  · rw [Node.unplaced, Node.unplaced, hsame, Node.unplaced_mark hprintable.here.plain]
    rfl

/-- The heads that the table lists first. -/
def HeadChoice.first : HeadChoice where
  head recipe := ((headRecipes.find? (·.2 == recipe)).map Prod.fst).getD ""
  named := by decide +kernel

/-- The number that a text spells. -/
def numberOf (text : String) : Node := .num {} ((Binary64.ofDecimal? text.toList).getD default) text

/-- `(set! x (<= -1 x))`, with a head of two tokens and a number with a sign. -/
def assignTree : Node := .assign {} (.ident {} "x") (.binary {} .le (numberOf "-1") (.ident {} "x"))

/-- `(do-while (do (set! x (<= -1 x))) 'it')`, with a head of three tokens. -/
def loopTree : Node := .doWhile {} (.block {} [assignTree]) (.str {} "it")

/-- A node that has no types and no programs among its children is printable if its parts are. -/
theorem Node.Everywhere.printable {n : Node}
    (htags : ∀ c ∈ n.children, c.tag ≠ .type ∧ c.tag ≠ .program) (hshaped : n.Shaped)
    (hplain : n.mark.ascription = none) (hspelled : n.Spelled)
    (hfew : n.tail.length ≤ Limits.listChildren)
    (hbelow : ∀ c ∈ n.children, c.Everywhere Printable) : n.Everywhere Printable :=
  .intro ⟨hshaped, fun c hc => (htags c (mem_children_of_mem_values hc)).1,
    fun c hc => (htags c hc).2, hplain, hspelled, hfew⟩ hbelow

theorem printable_numberOf {text : String} (h : IsSignedNumeral text.toList)
    (hvalue : Spells text ((Binary64.ofDecimal? text.toList).getD default)) :
    (numberOf text).Everywhere Node.Printable :=
  .printable (by simp [numberOf, Node.children]) trivial rfl ⟨h, hvalue⟩ (Nat.zero_le _)
    (by simp [numberOf, Node.children])

theorem printable_loopTree : (Node.program {} [loopTree]).Everywhere Node.Printable := by
  have hx : (Node.ident {} "x").Everywhere Node.Printable :=
    .printable (by decide) trivial rfl ⟨⟨by decide, by simp⟩, by decide, by decide +kernel⟩
      (Nat.zero_le _) (by simp [Node.children])
  have hone : (numberOf "-1").Everywhere Node.Printable :=
    printable_numberOf (.inr ⟨['1'], rfl, ['1'], [], by simp, by simp, by simp, .inl rfl⟩)
      ⟨by decide +kernel, by decide +kernel⟩
  have hstr : (Node.str {} "it").Everywhere Node.Printable :=
    .printable (by decide) trivial rfl ⟨by decide, by decide +kernel, by decide +kernel⟩
      (Nat.zero_le _) (by simp [Node.children])
  have hle : (Node.binary {} .le (numberOf "-1") (.ident {} "x")).Everywhere Node.Printable :=
    .printable (by decide) trivial rfl trivial (Nat.zero_le _) (by simp [Node.children, hone, hx])
  have hset : assignTree.Everywhere Node.Printable :=
    .printable (by decide) rfl rfl trivial (Nat.zero_le _)
      (by simp [assignTree, Node.children, hx, hle])
  have hdo : (Node.block {} [assignTree]).Everywhere Node.Printable :=
    .printable (by decide) trivial rfl trivial (by decide) (by simp [Node.children, hset])
  have hloop : loopTree.Everywhere Node.Printable :=
    .printable (by decide) rfl rfl trivial (Nat.zero_le _)
      (by simp [loopTree, Node.children, hdo, hstr])
  exact .printable (by decide) trivial rfl trivial (Nat.zero_le _) (by simp [Node.children, hloop])

/-- The text of the loop is parsed back to the loop. -/
theorem parse_print_loop : ∃ stream tally tree s,
    tokenize "#lang = nih-sexpr\n(do-while (do (set! x (<= -1 x))) 'it')".toList
      = .ok (stream, tally) ∧
    stream.remaining.length = 21 ∧ parseProgram stream = .ok tree s ∧
    tree.unplaced = (Node.program {} [loopTree]).unplaced := by
  have hprint : Node.printProgram .first [loopTree]
      = "#lang = nih-sexpr\n(do-while (do (set! x (<= -1 x))) 'it')".toList := by
    decide +kernel
  have hlists : (Node.program {} [loopTree]).Everywhere Node.ListsParams := by
    unfold Node.Everywhere Node.ListsParams
    decide +kernel
  have hcount : Node.totalTokens .first [loopTree] = 20 := by decide +kernel
  have hresult := parse_printProgram .first false {} [loopTree] printable_loopTree hlists
    (by decide +kernel) (by rw [hcount]; decide)
  rwa [hprint, hcount] at hresult

/-- **A parameter list of anything else is not parsed back.** Without the condition on parameter
lists, `(plist 5)` would be, and it is refused. -/
theorem stray_params_refused : ¬ ∀ (heads : HeadChoice) (track : Bool) (mark : Mark)
    (forms : List Node), (Node.program mark forms).Everywhere Node.Printable →
    (∀ n ∈ forms, n.parenDepth ≤ Limits.parseDepth) →
    Node.totalTokens heads forms ≤ Limits.tokenCount →
    ∃ stream tally tree s, tokenize (Node.printProgram heads forms) track = .ok (stream, tally) ∧
      parseProgram stream = .ok tree s ∧ tree.unplaced = (Node.program mark forms).unplaced := by
  intro h
  have hfive : (numberOf "5").Everywhere Node.Printable :=
    printable_numberOf (.inl ⟨['5'], [], by simp, by simp, by simp, .inl rfl⟩)
      ⟨by decide +kernel, by decide +kernel⟩
  have hparams : (Node.params {} [numberOf "5"]).Everywhere Node.Printable :=
    .printable (by decide) trivial rfl trivial (by decide) (by simp [Node.children, hfive])
  obtain ⟨stream, tally, tree, s, htokenize, hparse, -⟩ := h .first false {}
      [.params {} [numberOf "5"]]
      (.printable (by decide) trivial rfl trivial (Nat.zero_le _)
        (by simp [Node.children, hparams]))
      (by decide +kernel) (by decide +kernel)
  -- The text is `(plist 5)`, behind the line with the dialect.
  have hrefused : ((tokenize (Node.printProgram .first [.params {} [numberOf "5"]])).toOption.bind
      fun r => EStateM.run' Parse.program { stream := r.1 }).isNone = true := by
    decide +kernel
  rw [htokenize] at hrefused
  change (EStateM.run' Parse.program { stream }).isNone = true at hrefused
  change Parse.program { stream } = _ at hparse
  delta EStateM.run' EStateM.run at hrefused
  rw [hparse] at hrefused
  exact Bool.false_ne_true hrefused

end FormScript
