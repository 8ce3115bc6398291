import FormScript.Proofs.Acceptance
import FormScript.Proofs.Derivation

/-!
# The shape of parsed trees

The constructors of `Node` leave their slots open, so most trees are none that a text can spell. A
node is regular if names, texts, types and parameter lists stand in the slots that are for them, and
types and programs nowhere else. That parsing makes regular trees only (`parse_regular`) is read off
the grammar, rule by rule. The one rule where it takes an argument is the one for functions: a
parameter list is told by the keyword behind its parenthesis, and no head other than `plist` begins
with that keyword.
-/

namespace FormScript

namespace Node

/-- What a node must be for its tree to be of the shape that is parsed: names, texts, types and
parameter lists stand in their slots, and there are no types and programs elsewhere. -/
structure Regular (n : Node) : Prop where
  shaped : n.Shaped
  typed : ∀ c ∈ n.values, c.tag ≠ .type
  inner : ∀ c ∈ n.children, c.tag ≠ .program

instance : (n : Node) → Decidable n.Shaped
  | doc _ a => inferInstanceAs (Decidable (a.tag = .str))
  | declare _ a _ | assign _ a _ | increment _ a | param _ a | member _ _ a | forLess _ a _ _ _ =>
    inferInstanceAs (Decidable (a.tag = .ident))
  | doWhile _ a _ => inferInstanceAs (Decidable (a.tag = .block))
  | function _ a _ =>
    inferInstanceAs (Decidable (a.tag = .params ∧ ∀ c ∈ a.children, c.tag = .param))
  | cast _ _ a => inferInstanceAs (Decidable (a.tag = .type))
  | str .. | num .. | ident .. | type .. | program .. | unary .. | binary .. | params .. | result ..
  | call .. | block .. | branch .. | choice .. => .isTrue trivial

instance (n : Node) : Decidable n.Regular :=
  decidable_of_iff
    (n.Shaped ∧ (∀ c ∈ n.values, c.tag ≠ .type) ∧ ∀ c ∈ n.children, c.tag ≠ .program)
    ⟨fun ⟨shaped, typed, inner⟩ => ⟨shaped, typed, inner⟩,
      fun h => ⟨h.shaped, h.typed, h.inner⟩⟩

end Node

namespace Grammar

variable {opens : Token → Bool}

/-! ## Heads that are asked for -/

/-- No other head begins as these two do. -/
theorem recipe_of_keyword : ∀ e ∈ headRecipes,
    ("plist".toList <+: e.1.toList → e.2 = .params) ∧
      ("param".toList <+: e.1.toList → e.2 = .param) := by decide +kernel

theorem prefix_spelling (t : Token) (run : List Token) :
    t.text.toList <+: (spelling (t :: run)).toList := by
  cases run with
  | nil => exact List.prefix_rfl
  | cons u run =>
    rw [spelling, String.toList_append]
    exact List.prefix_append _ _

theorem mem_headRecipes {word : String} {recipe : Recipe} (h : recipe? word = some recipe) :
    (word, recipe) ∈ headRecipes := by
  obtain ⟨before, after, htable, -⟩ := List.lookup_eq_some_iff.mp h
  rw [htable]
  exact List.mem_append_right _ List.mem_cons_self

/-! ## Rule by rule -/

/-- What is known of every node that a rule derives. -/
structure Derived (n : Node) : Prop where
  regular : n.Everywhere Node.Regular
  lists : n.ListsParams
  notType : n.tag ≠ .type
  notProgram : n.tag ≠ .program

variable {n : Node}

theorem regular_of_children (hshaped : n.Shaped) (h : ∀ c ∈ n.children, Derived c) :
    n.Everywhere Node.Regular := by
  refine .intro ⟨hshaped, ?_, fun c hc => (h c hc).notProgram⟩ fun c hc => (h c hc).regular
  exact fun c hc => (h c (Node.mem_children_of_mem_values hc)).notType

theorem derived_of_children (hshaped : n.Shaped) (h : ∀ c ∈ n.children, Derived c)
    (htag : n.tag ∉ [Tag.params, .type, .program] := by simp [Node.tag]) : Derived n := by
  simp only [List.mem_cons, List.not_mem_nil, or_false, not_or] at htag
  obtain ⟨hparams, htype, hprogram⟩ := htag
  exact ⟨regular_of_children hshaped h, fun heq => absurd heq hparams, htype, hprogram⟩

theorem Slots.tag_eq {recipe : Recipe} {ts : List Token} {next : Token} {make : Mark → Node}
    (h : Slots opens recipe ts next make) (hrecipe : recipe = .params ∨ recipe = .param)
    (m : Mark) : (make m).tag = recipe.tag := by
  rcases hrecipe with rfl | rfl
  · cases h
    rfl
  · cases h
    rfl

/-- What the keyword behind its parenthesis says of a form. -/
theorem Item.tag_eq {word : String} {recipe : Recipe} {ts : List Token}
    (h : Item opens (some word) ts n)
    (hword : word = "plist" ∧ recipe = .params ∨ word = "param" ∧ recipe = .param) :
    n.tag = recipe.tag := by
  cases h with
  | @headed _ opening t ts _ symbol form =>
    generalize htokens : opening :: t :: ts = us at form
    cases form with
    | @mk _ closing run slotTokens recipe' make _ opened head slots closed node =>
      -- The run that is the head starts with the token that is asked for.
      have hne : run ≠ [] := by
        rintro rfl
        exact head.joined
      obtain ⟨u, run, rfl⟩ := List.exists_cons_of_ne_nil hne
      obtain rfl : t = u := by
        simp only [List.cons_append, List.cons.injEq] at htokens
        exact htokens.2.1
      have htext : t.text = word := by
        simp only [Token.isSymbol, Bool.and_eq_true, beq_iff_eq] at symbol
        exact symbol.2
      have hprefix := prefix_spelling t run
      rw [htext] at hprefix
      have hkeyword := recipe_of_keyword _ (mem_headRecipes head.named)
      rcases hword with ⟨rfl, rfl⟩ | ⟨rfl, rfl⟩
      · obtain rfl := hkeyword.1 hprefix
        rw [← node]
        exact slots.tag_eq (.inl rfl) _
      · obtain rfl := hkeyword.2 hprefix
        rw [← node]
        exact slots.tag_eq (.inr rfl) _

theorem Items.tag_eq {ts : List Token} {ns : List Node} {head : Option String}
    (h : Items opens head ts ns) (hhead : head = some "param") : ∀ n ∈ ns, n.tag = .param := by
  cases h with
  | nil => simp
  | cons first more =>
    subst hhead
    intro n hn
    rcases List.mem_cons.mp hn with rfl | hn
    · exact first.tag_eq (.inr ⟨rfl, rfl⟩)
    · exact more.tag_eq rfl n hn

theorem derived_ident (t : Token) : Derived (identOf t) :=
  derived_of_children trivial (by simp [identOf, Node.children]) (by simp [identOf, Node.tag])

theorem derived_str (t : Token) : Derived (strOf t) :=
  derived_of_children trivial (by simp [strOf, Node.children]) (by simp [strOf, Node.tag])

theorem derived_num (m : Mark) (x : Binary64) (text : String) : Derived (.num m x text) :=
  derived_of_children trivial (by simp [Node.children])

theorem derived_params {params : List Node} (h : ∀ n ∈ params, Derived n)
    (htags : ∀ n ∈ params, n.tag = .param) (m : Mark) : Derived (.params m params) where
  regular := regular_of_children trivial h
  lists := fun _ => htags
  notType := by simp [Node.tag]
  notProgram := by simp [Node.tag]

theorem derived_unary {a : Node} (ha : Derived a) (m : Mark) (op : UnaryOp) :
    Derived (.unary m op a) := by
  refine derived_of_children trivial (by simpa [Node.children] using ha) ?_
  cases op <;> simp [Node.tag, UnaryOp.tag]

theorem derived_binary {a b : Node} (ha : Derived a) (hb : Derived b) (m : Mark) (op : BinaryOp) :
    Derived (.binary m op a b) := by
  refine derived_of_children trivial (by simp [Node.children, ha, hb]) ?_
  cases op <;> simp [Node.tag, BinaryOp.tag]

/-- The type of a cast is the one child that stands nowhere else. -/
theorem derived_cast {value : Node} (h : Derived value) (m m' : Mark) (name : String) :
    Derived (.cast m value (.type m' name)) where
  regular := by
    have htype : (Node.type m' name).Everywhere Node.Regular :=
      .intro ⟨trivial, List.forall_mem_nil _, List.forall_mem_nil _⟩ (List.forall_mem_nil _)
    refine .intro ⟨rfl, ?_, ?_⟩ ?_
    · simpa [Node.values] using h.notType
    · simpa [Node.children, Node.tag] using h.notProgram
    · simpa [Node.children, htype] using h.regular
  lists := by simp [Node.ListsParams, Node.tag]
  notType := by simp [Node.tag]
  notProgram := by simp [Node.tag]

theorem derived_block {body : List Node} (h : ∀ n ∈ body, Derived n) (m : Mark) :
    Derived (.block m body) :=
  derived_of_children trivial h

theorem derived_asBlock (h : Derived n) : Derived (asBlock n) ∧ (asBlock n).tag = .block := by
  cases n with
  | block => exact ⟨h, rfl⟩
  | _ => exact ⟨derived_block (List.forall_mem_singleton.mpr h) _, rfl⟩

mutual

theorem Expr.derived {ts : List Token} {n : Node} : Expr opens ts n → Derived n
  | .str _ => derived_str _
  | .num _ _ => derived_num _ _ _
  | .ident _ => derived_ident _
  | .negative _ _ _ _ _ => derived_num _ _ _
  | .form _ form => form.derived

theorem Form.derived {ts : List Token} {n : Node} : Form opens ts n → Derived n
  | .mk _ _ slots _ node => node ▸ slots.derived _

theorem Slots.derived {recipe : Recipe} {ts : List Token} {next : Token} {make : Mark → Node} :
    Slots opens recipe ts next make → ∀ m, Derived (make m)
  | .doc _, _ =>
    derived_of_children rfl (by simp [Node.children, derived_str])
  | .declare _ value, _ =>
    derived_of_children rfl (by simp [Node.children, derived_ident, value.derived])
  | .assign _ value, _ =>
    derived_of_children rfl (by simp [Node.children, derived_ident, value.derived])
  | .increment _, _ =>
    derived_of_children rfl (by simp [Node.children, derived_ident])
  | .result value, _ =>
    derived_of_children trivial (by simp [Node.children, value.derived])
  | .cast value _, _ => derived_cast value.derived _ _ _
  | .castByClose value _ _, _ => derived_cast value.derived _ _ _
  | .param _, _ => derived_of_children rfl (by simp [Node.children, derived_ident])
  | .choice a b c, _ =>
    derived_of_children trivial
      (by simp [Node.children, a.derived, b.derived, c.derived])
  | .member object _, _ =>
    derived_of_children rfl (by simp [Node.children, derived_ident, object.derived])
  | .doWhile body condition, _ =>
    derived_of_children body.derived.2
      (by simp [Node.children, body.derived.1, condition.derived])
  | .binary a b, _ => derived_binary a.derived b.derived _ _
  | .signOne a _, _ => derived_unary a.derived _ _
  | .signTwo a b, _ => derived_binary a.derived b.derived _ _
  | .unary a, _ => derived_unary a.derived _ _
  | .branch a b _, _ =>
    derived_of_children trivial (by simp [Node.children, a.derived, b.derived])
  | .branchElse a b c, _ =>
    derived_of_children trivial
      (by simp [Node.children, a.derived, b.derived, c.derived])
  | .call callee items _ _, _ =>
    derived_of_children trivial
      (by simpa [Node.children, callee.derived] using items.derived)
  | .block items _ _, _ => derived_block items.derived _
  | .function params items _ _, _ =>
    -- The first item is told by its keyword only, which is enough to know its tag.
    have hparams := params.tag_eq (.inl ⟨rfl, rfl⟩)
    derived_of_children ⟨hparams, params.derived.lists hparams⟩
      (by simpa [Node.children, params.derived] using items.derived)
  | .params items _ _, _ => derived_params items.derived (items.tag_eq rfl) _
  | .forLess _ a b items _ _, _ =>
    derived_of_children rfl
      (by simpa [Node.children, derived_ident, a.derived, b.derived] using items.derived)

theorem Block.derived {ts : List Token} {n : Node} : Block opens ts n → Derived n ∧ n.tag = .block
  | .bare _ _ items _ _ => ⟨derived_block items.derived _, rfl⟩
  | .form form node => node ▸ derived_asBlock form.derived

theorem Item.derived {head : Option String} {ts : List Token} {n : Node} :
    Item opens head ts n → Derived n
  | .expr expr => expr.derived
  | .headed _ form => form.derived

theorem Items.derived {head : Option String} {ts : List Token} {ns : List Node} :
    Items opens head ts ns → ∀ n ∈ ns, Derived n
  | .nil => List.forall_mem_nil _
  | .cons first more => List.forall_mem_cons.mpr ⟨first.derived, more.derived⟩

end

end Grammar

/-! ## Programs -/

namespace Grammar

/-- A top-level form that comes from some of the tokens, nested no deeper than they are. In one
dialect such a form is any expression, in the other it is always a form. -/
def Stems (room : Nat) (tokens : List Token) (n : Node) : Prop :=
  ∃ ts, ts ⊆ tokens ∧ nesting ts ≤ nesting tokens ∧ nesting ts ≤ room ∧
    (Expr Token.isOpen ts n ∨ Form Token.isOpen ts n)

namespace Stems

variable {room : Nat} {ts us : List Token} {n : Node}

theorem append_right (h : Stems room ts n) (hts : Balanced ts) (us : List Token) :
    Stems room (ts ++ us) n := by
  obtain ⟨vs, hsubset, hnesting, hroom, hn⟩ := h
  refine ⟨vs, fun t ht => List.mem_append_left _ (hsubset ht), ?_, hroom, hn⟩
  rw [hts.nesting_append]
  omega

theorem append_left (h : Stems room us n) (hts : Balanced ts) : Stems room (ts ++ us) n := by
  obtain ⟨vs, hsubset, hnesting, hroom, hn⟩ := h
  refine ⟨vs, fun t ht => List.mem_append_right _ (hsubset ht), ?_, hroom, hn⟩
  rw [hts.nesting_append]
  omega

theorem derived (h : Stems room ts n) : Derived n := by
  obtain ⟨_, -, -, -, hn | hn⟩ := h
  · exact hn.derived
  · exact hn.derived

end Stems

end Grammar

namespace Parse

open Grammar

variable {s s' : Parsing} {room : Nat} {n : Node}

/-- In the plain dialect only forms stand at the top level. -/
theorem recognizesAt_topForm_plain (hs : s.stream.Ended) (hdialect : s.stream.dialect = .plain) :
    RecognizesAt s (topForm (level room)) (formLang.Within room) := by
  refine RecognizesAt.current_bind (RecognizesAt.get_bind ?_)
  rw [hdialect]
  dsimp only
  split
  · rename_i hopen
    exact (recognized_level room).list s hs hopen
  · rename_i hopen
    refine RecognizesAt.fail fun ts rest n hsplit hform => ?_
    obtain ⟨opening, t, us, rfl, hopening, -⟩ := Form.first hform.1
    rw [eq_current hsplit rfl] at hopening
    exact hopen hopening

/-- A top-level form is spelled by tokens that stand next, in either dialect. -/
theorem topForm_derives (hs : s.stream.Ended) (h : topForm (level room) s = .ok n s') :
    ∃ ts, s.stream.Passes ts s'.stream ∧ nesting ts ≤ room ∧
      (Expr Token.isOpen ts n ∨ Form Token.isOpen ts n) := by
  cases hdialect : s.stream.dialect with
  | sexpr =>
    obtain ⟨ts, hpasses, hn, hroom⟩ := (recognizesAt_topForm_sexpr hs hdialect).sound h
    exact ⟨ts, hpasses, hroom, .inl hn⟩
  | plain =>
    obtain ⟨ts, hpasses, hn, hroom⟩ := (recognizesAt_topForm_plain hs hdialect).sound h
    exact ⟨ts, hpasses, hroom, .inr hn⟩

theorem topForm_stems (hs : s.stream.Ended) (h : topForm (level room) s = .ok n s') :
    ∃ ts, s.stream.Passes ts s'.stream ∧ Balanced ts ∧ Stems room ts n := by
  obtain ⟨ts, hpasses, hroom, hn⟩ := topForm_derives hs h
  exact ⟨ts, hpasses, hn.elim Expr.balanced Form.balanced, ts, List.Subset.refl _, Nat.le_refl _,
    hroom, hn⟩

/-- The loop over forms ends at the end of input, or goes on behind one more form. -/
theorem forms_succ {count : Nat} {done ns : List Node}
    (h : forms (level room) (count + 1) done s = .ok ns s') :
    ns = done.reverse ∧ s = s' ∨ ∃ n s'', topForm (level room) s = .ok n s'' ∧
      forms (level room) count (n :: done) s'' = .ok ns s' := by
  change (if s.stream.current.isEof then pure done.reverse
    else topForm (level room) >>= fun n => forms (level room) count (n :: done)) s = _ at h
  split at h
  · cases h
    exact .inl ⟨rfl, rfl⟩
  · change EStateM.bind _ _ s = _ at h
    unfold EStateM.bind at h
    cases hform : topForm (level room) s with
    | error e s'' =>
      rw [hform] at h
      cases h
    | ok m s'' =>
      rw [hform] at h
      exact .inr ⟨m, s'', rfl, h⟩

theorem forms_stems {count : Nat} {done ns : List Node} (hs : s.stream.Ended)
    (h : forms (level room) count done s = .ok ns s') :
    ∀ n ∈ ns, n ∈ done ∨ Stems room s.stream.remaining n := by
  induction count generalizing s done with
  | zero =>
    cases h
    exact fun n hn => .inl (List.mem_reverse.mp hn)
  | succ count ih =>
    rcases forms_succ h with ⟨rfl, -⟩ | ⟨m, s'', hform, hmore⟩
    · exact fun n hn => .inl (List.mem_reverse.mp hn)
    · obtain ⟨ts, hpasses, hbalanced, hm⟩ := topForm_stems hs hform
      intro n hn
      rw [hpasses.remaining]
      rcases ih (hs.of_passes hpasses) hmore n hn with hn | hn
      · rcases List.mem_cons.mp hn with rfl | hn
        · exact .inr (hm.append_right hbalanced _)
        · exact .inl hn
      · exact .inr (hn.append_left hbalanced)

end Parse

theorem Scan.isEof_of_run {track : Bool} {source : List Char} {s : Scan}
    (h : Scan.run track {} source = .ok s) : ∀ t ∈ s.tokens.toList, t.isEof = false := by
  refine @Scan.run_invariant track (fun _ _ s => ∀ t ∈ s.tokens.toList, t.isEof = false)
    ?_ {} s [] source ?_ h
  · intro before c cs l rest s s' hs _ haccept t ht
    obtain ⟨-, htokens, -⟩ := Scan.accept_ok haccept
    rw [htokens, List.mem_append] at ht
    rcases ht with ht | ht
    · exact hs t ht
    · obtain ⟨u, hu, hkind, -⟩ := mem_carry ht
      have hne := (Lexeme.tokens_ascription hu).2.2
      rw [← hkind] at hne
      simpa [Token.isEof] using hne
  · intro t ht
    cases ht

/-- A scanned stream has an end of input, and only one. -/
theorem Scan.stream_ended {track : Bool} {source : List Char} {s : Scan}
    (h : Scan.ofSource source track = .ok s) : (s.stream source).Ended := by
  obtain ⟨s', hrun, hfinish⟩ := Scan.ofSource_ok h
  obtain ⟨-, -, htokens⟩ := Scan.finish_ok hfinish
  refine TokenStream.ended_of_remaining ((Scan.stream_remaining h).trans htokens) ?_ rfl
  intro t ht
  rcases List.mem_append.mp ht with ht | ht
  · exact Scan.isEof_of_run hrun t ht
  · rw [Option.mem_toList, Option.map_eq_some_iff] at ht
    obtain ⟨w, -, rfl⟩ := ht
    rfl

/-- A program is what the loop over forms collects. -/
theorem parseProgram_ok {stream : TokenStream} {tree : Node} {s : Parsing}
    (h : parseProgram stream = .ok tree s) : ∃ all,
      Parse.forms (Parse.level Limits.parseDepth) stream.remaining.length [] { stream }
        = .ok all s ∧
      tree = .program ⟨stream.current.span.merge s.stream.current.span, none⟩ all := by
  have hrun : parseProgram stream = EStateM.bind
      (Parse.forms (Parse.level Limits.parseDepth) stream.remaining.length []) (fun all s' =>
        .ok (.program ⟨stream.current.span.merge s'.stream.current.span, none⟩ all) s')
      { stream } := rfl
  rw [hrun] at h
  unfold EStateM.bind at h
  cases hforms : Parse.forms (Parse.level Limits.parseDepth) stream.remaining.length []
      { stream } with
  | error e s' =>
    rw [hforms] at h
    cases h
  | ok all s' =>
    rw [hforms] at h
    cases h
    exact ⟨all, rfl, rfl⟩

/-- **What a parsed program consists of**: forms that the rules derive from the tokens. -/
theorem parse_stems {source : List Char} {track : Bool} {scan : Scan} {tree : Node} {s : Parsing}
    (hscan : Scan.ofSource source track = .ok scan)
    (h : parseProgram (scan.stream source) = .ok tree s) :
    ∃ span forms, tree = .program ⟨span, none⟩ forms ∧
      ∀ n ∈ forms, Grammar.Stems Limits.parseDepth scan.tokens.toList n := by
  obtain ⟨forms, hforms, rfl⟩ := parseProgram_ok h
  refine ⟨_, forms, rfl, fun n hn => ?_⟩
  rw [← Scan.stream_remaining hscan]
  exact (Parse.forms_stems (Scan.stream_ended hscan) hforms n hn).resolve_left List.not_mem_nil

/-- **Parsing makes regular trees**, whatever the text and the dialects it is in. -/
theorem parse_regular {source : List Char} {track : Bool} {scan : Scan} {tree : Node} {s : Parsing}
    (hscan : Scan.ofSource source track = .ok scan)
    (h : parseProgram (scan.stream source) = .ok tree s) :
    ∃ mark forms, tree = .program mark forms ∧
      (Node.program mark forms).Everywhere Node.Regular := by
  obtain ⟨span, forms, rfl, hforms⟩ := parse_stems hscan h
  refine ⟨_, forms, rfl, .intro ⟨trivial, ?_, ?_⟩ ?_⟩
  · exact fun n hn => (hforms n hn).derived.notType
  · exact fun n hn => (hforms n hn).derived.notProgram
  · exact fun n hn => (hforms n hn).derived.regular

end FormScript
