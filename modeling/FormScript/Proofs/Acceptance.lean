import FormScript.Proofs.Recognition

/-!
# The parser accepts exactly the grammar

Slots, heads and forms are put together from the steps of `Recognition`. For slots there is one
lemma for each recipe, and each says that the steps of the parser, one behind the other, take what
the rules for that recipe derive. The head is where the parser looks furthest ahead; that it stops
at the longest run that has a recipe is `recognizesAt_head`. A form gives away one parenthesis of
room, and the induction over the room (`recognized_level`) closes the circle between expressions and
forms.

**`parse_iff_derives`** is the result for whole programs. As the parser is a function, it also shows
that tokens derive at most one program, whatever their nesting.
-/

namespace FormScript

namespace Parse

open Grammar

variable {room : Nat} {below : Level} {s : Parsing}

/-! ## Slots -/

/-- An expression that may be left out in front of the closing parenthesis. -/
theorem recognizes_optional {α : Type} (hbelow : below.Recognized room) (head : FormHead)
    (without : α) (with_ : Node → α) :
    Recognizes (do
        if ← atFormEnd head then pure without
        else do
          let n ← expr below.list "expression"
          pure (with_ n))
      (Lang.Within room fun ts rest a =>
        ts = [] ∧ ClosesNext rest ∧ a = without ∨ exprLang.map with_ ts rest a) := by
  intro s hs
  refine RecognizesAt.atFormEnd_bind ?_ ?_ ?_
  · -- The parenthesis is next: it is left out, as no expression starts with one that closes.
    intro hclose
    refine RecognizesAt.pure.congr fun ts rest a _ hsplit => ?_
    constructor
    · rintro ⟨rfl, rfl⟩
      exact ⟨.inl ⟨rfl, ⟨_, _, hsplit.symm, hclose⟩, rfl⟩, Nat.zero_le _⟩
    · rintro ⟨⟨rfl, -, rfl⟩ | ⟨n, hexpr, rfl⟩, -⟩
      · exact ⟨rfl, rfl⟩
      · obtain ⟨t, us, rfl, hnot, -⟩ := (Item.expr hexpr).starts
        obtain rfl := eq_current hsplit rfl
        rw [hclose] at hnot
        cases hnot
  · intro hclose _
    refine ((recognizes_expr hbelow "expression").map_within with_ s hs).congr
      fun ts rest a _ hsplit => and_congr_left fun _ => ⟨.inr, ?_⟩
    rintro (⟨rfl, ⟨next, more, rfl, hnext⟩, -⟩ | h)
    · obtain rfl : s.stream.current = next := (List.cons.inj hsplit).1
      rw [hclose] at hnext
      cases hnext
    · exact h
  · rintro hclose heof ts rest a hsplit ⟨⟨rfl, ⟨next, more, rfl, hnext⟩, -⟩ | ⟨n, hexpr, -⟩, -⟩
    · obtain rfl : s.stream.current = next := (List.cons.inj hsplit).1
      rw [hclose] at hnext
      cases hnext
    · obtain ⟨t, us, rfl, -, hnot⟩ := (Item.expr hexpr).starts
      obtain rfl := eq_current hsplit rfl
      rw [heof] at hnot
      cases hnot

/-- The tokens of the slots of a form. -/
def slotsLang (recipe : Recipe) : Lang (Mark → Node) := fun ts rest make =>
  ∃ next more, rest = next :: more ∧ Slots Token.isOpen recipe ts next make

theorem balanced_ident {ts rest : List Token} {n : Node}
    (h : oneOf .identifier identOf ts rest n) : Balanced ts :=
  balanced_of_oneOf rfl h

theorem balanced_exprLang {ts rest : List Token} {n : Node} (h : exprLang ts rest n) :
    Balanced ts :=
  Expr.balanced h

/-- A step takes the slots of a form if its language is what the rules derive. -/
theorem Recognizes.slots {p : Parse (Mark → Node)} {G : Lang (Mark → Node)} {recipe : Recipe}
    (h : Recognizes p (G.Within room))
    (hiff : ∀ ts next more make,
      G ts (next :: more) make ↔ Slots Token.isOpen recipe ts next make) :
    Recognizes p ((slotsLang recipe).Within room) := by
  refine h.congr fun ts rest make hrest => and_congr_left fun _ => ?_
  obtain ⟨next, more, rfl⟩ := List.exists_cons_of_ne_nil hrest
  rw [hiff]
  constructor
  · intro hslots
    exact ⟨next, more, rfl, hslots⟩
  · rintro ⟨_, _, hrest, hslots⟩
    rwa [(List.cons.inj hrest).1]

theorem recognizes_doc_slots (head : FormHead) :
    Recognizes (slots below head .doc) ((slotsLang .doc).Within room) := by
  refine Recognizes.slots ((recognizes_str room).map_within fun text m => Node.doc m text)
    fun ts next more make => ⟨?_, ?_⟩
  · rintro ⟨_, ⟨t, kind, rfl, rfl⟩, rfl⟩
    exact .doc kind
  · intro h
    cases h with
    | doc kind => exact ⟨_, ⟨_, kind, rfl, rfl⟩, rfl⟩

theorem recognizes_declare_slots (hbelow : below.Recognized room) (head : FormHead) :
    Recognizes (slots below head .declare) ((slotsLang .declare).Within room) := by
  have hexpr := recognizes_expr hbelow "expression"
  have hident := recognizes_ident room
  refine Recognizes.slots (hident.bind_within balanced_ident fun name =>
    hexpr.map_within fun value m => Node.declare m name value) fun ts next more make => ⟨?_, ?_⟩
  · rintro ⟨_, us, _, rfl, ⟨t, kind, rfl, rfl⟩, n, hn, rfl⟩
    exact .declare kind hn
  · intro h
    cases h with
    | declare kind hn => exact ⟨[_], _, _, rfl, ⟨_, kind, rfl, rfl⟩, _, hn, rfl⟩

theorem recognizes_assign_slots (hbelow : below.Recognized room) (head : FormHead) :
    Recognizes (slots below head .assign) ((slotsLang .assign).Within room) := by
  have hexpr := recognizes_expr hbelow "expression"
  have hident := recognizes_ident room
  refine Recognizes.slots (hident.bind_within balanced_ident fun name =>
    hexpr.map_within fun value m => Node.assign m name value) fun ts next more make => ⟨?_, ?_⟩
  · rintro ⟨_, us, _, rfl, ⟨t, kind, rfl, rfl⟩, n, hn, rfl⟩
    exact .assign kind hn
  · intro h
    cases h with
    | assign kind hn => exact ⟨[_], _, _, rfl, ⟨_, kind, rfl, rfl⟩, _, hn, rfl⟩

theorem recognizes_increment_slots (head : FormHead) :
    Recognizes (slots below head .increment) ((slotsLang .increment).Within room) := by
  have hident := recognizes_ident room
  refine Recognizes.slots (hident.map_within fun name m => Node.increment m name)
    fun ts next more make => ⟨?_, ?_⟩
  · rintro ⟨_, ⟨t, kind, rfl, rfl⟩, rfl⟩
    exact .increment kind
  · intro h
    cases h with
    | increment kind => exact ⟨_, ⟨_, kind, rfl, rfl⟩, rfl⟩

theorem recognizes_result_slots (hbelow : below.Recognized room) (head : FormHead) :
    Recognizes (slots below head .result) ((slotsLang .result).Within room) := by
  have hexpr := recognizes_expr hbelow "expression"
  refine Recognizes.slots (hexpr.map_within fun value m => Node.result m value)
    fun ts next more make => ⟨?_, ?_⟩
  · rintro ⟨n, hn, rfl⟩
    exact .result hn
  · intro h
    cases h with
    | result hn => exact ⟨_, hn, rfl⟩

/-- The target of a cast may be left to the annotation of the closing parenthesis. -/
theorem recognizes_cast_slots (hbelow : below.Recognized room) (head : FormHead) :
    Recognizes (slots below head .cast) ((slotsLang .cast).Within room) := by
  have hexpr := recognizes_expr hbelow "expression"
  refine Recognizes.slots (hexpr.bind_within balanced_exprLang fun value =>
    (recognizes_type room).map_within fun target m => Node.cast m value target)
    fun ts next more make => ⟨?_, ?_⟩
  · rintro ⟨us, _, n, rfl, hn, _,
      ⟨t, kind, rfl, rfl⟩ | ⟨next, more, a, rfl, hrest, hclose, ha, rfl⟩, rfl⟩
    · exact .cast hn kind
    · obtain ⟨rfl, -⟩ := List.cons.inj hrest
      rw [List.append_nil]
      exact .castByClose hn hclose ha
  · intro h
    cases h with
    | cast hn kind => exact ⟨_, [_], _, rfl, hn, _, .inl ⟨_, kind, rfl, rfl⟩, rfl⟩
    | castByClose hn hclose ha =>
      exact ⟨ts, [], _, (List.append_nil ts).symm, hn, _,
        .inr ⟨next, more, _, rfl, rfl, hclose, ha, rfl⟩, rfl⟩

theorem recognizes_param_slots (head : FormHead) :
    Recognizes (slots below head .param) ((slotsLang .param).Within room) := by
  have hident := recognizes_ident room
  refine Recognizes.slots (hident.map_within fun name (m : Mark) =>
    Node.param ⟨m.span, name.mark.ascription <|> m.ascription⟩ name)
    fun ts next more make => ⟨?_, ?_⟩
  · rintro ⟨_, ⟨t, kind, rfl, rfl⟩, rfl⟩
    exact .param kind
  · intro h
    cases h with
    | param kind => exact ⟨_, ⟨_, kind, rfl, rfl⟩, rfl⟩

theorem recognizes_choice_slots (hbelow : below.Recognized room) (head : FormHead) :
    Recognizes (slots below head .choice) ((slotsLang .choice).Within room) := by
  have hexpr := recognizes_expr hbelow "expression"
  refine Recognizes.slots (hexpr.bind_within balanced_exprLang fun condition =>
    hexpr.bind_within balanced_exprLang fun yes =>
      hexpr.map_within fun no m => Node.choice m condition yes no)
    fun ts next more make => ⟨?_, ?_⟩
  · rintro ⟨us, _, a, rfl, ha, vs, ws, b, rfl, hb, c, hc, rfl⟩
    exact .choice ha hb hc
  · intro h
    cases h with
    | choice ha hb hc => exact ⟨_, _, _, rfl, ha, _, _, _, rfl, hb, _, hc, rfl⟩

theorem recognizes_member_slots (hbelow : below.Recognized room) (head : FormHead) :
    Recognizes (slots below head .member) ((slotsLang .member).Within room) := by
  have hexpr := recognizes_expr hbelow "expression"
  have hident := recognizes_ident room
  refine Recognizes.slots (hexpr.bind_within balanced_exprLang fun object =>
    hident.map_within fun property m => Node.member m object property)
    fun ts next more make => ⟨?_, ?_⟩
  · rintro ⟨us, _, n, rfl, hn, _, ⟨t, kind, rfl, rfl⟩, rfl⟩
    exact .member hn kind
  · intro h
    cases h with
    | member hn kind => exact ⟨_, [_], _, rfl, hn, _, ⟨_, kind, rfl, rfl⟩, rfl⟩

/-- The body of a loop is a block, with or without a head. -/
theorem recognizes_doWhile_slots (hbelow : below.Recognized room) (head : FormHead) :
    Recognizes (slots below head .doWhile) ((slotsLang .doWhile).Within room) := by
  have hexpr := recognizes_expr hbelow "expression"
  refine Recognizes.slots ((recognizes_block hbelow).bind_within Block.balanced fun body =>
    hexpr.map_within fun condition m => Node.doWhile m body condition)
    fun ts next more make => ⟨?_, ?_⟩
  · rintro ⟨us, _, a, rfl, ha, b, hb, rfl⟩
    exact .doWhile ha hb
  · intro h
    cases h with
    | doWhile ha hb => exact ⟨_, _, _, rfl, ha, _, hb, rfl⟩

theorem recognizes_binary_slots (hbelow : below.Recognized room) (head : FormHead) {op : BinaryOp} :
    Recognizes (slots below head (.binary op)) ((slotsLang (.binary op)).Within room) := by
  have hexpr := recognizes_expr hbelow "expression"
  refine Recognizes.slots (hexpr.bind_within balanced_exprLang fun left =>
    hexpr.map_within fun right m => Node.binary m op left right)
    fun ts next more make => ⟨?_, ?_⟩
  · rintro ⟨us, _, a, rfl, ha, b, hb, rfl⟩
    exact .binary ha hb
  · intro h
    cases h with
    | binary ha hb => exact ⟨_, _, _, rfl, ha, _, hb, rfl⟩

/-- A sign stands in front of one operand or between two, and the closing parenthesis decides. -/
theorem recognizes_sign_slots (hbelow : below.Recognized room) (head : FormHead)
    {one : UnaryOp} {two : BinaryOp} :
    Recognizes (slots below head (.sign one two)) ((slotsLang (.sign one two)).Within room) := by
  have hexpr := recognizes_expr hbelow "expression"
  refine Recognizes.slots (hexpr.bind_within balanced_exprLang fun left =>
    recognizes_optional hbelow head (fun m => Node.unary m one left)
      fun right m => Node.binary m two left right) fun ts next more make => ⟨?_, ?_⟩
  · rintro ⟨us, _, a, rfl, ha, ⟨rfl, ⟨_, _, hrest, hclose⟩, rfl⟩ | ⟨b, hb, rfl⟩⟩
    · rw [List.append_nil]
      rw [← (List.cons.inj hrest).1] at hclose
      exact .signOne ha hclose
    · exact .signTwo ha hb
  · intro h
    cases h with
    | signOne ha hclose =>
      exact ⟨ts, [], _, (List.append_nil ts).symm, ha, .inl ⟨rfl, ⟨_, _, rfl, hclose⟩, rfl⟩⟩
    | signTwo ha hb => exact ⟨_, _, _, rfl, ha, .inr ⟨_, hb, rfl⟩⟩

theorem recognizes_unary_slots (hbelow : below.Recognized room) (head : FormHead) {op : UnaryOp} :
    Recognizes (slots below head (.unary op)) ((slotsLang (.unary op)).Within room) := by
  have hexpr := recognizes_expr hbelow "expression"
  refine Recognizes.slots (hexpr.map_within fun operand m => Node.unary m op operand)
    fun ts next more make => ⟨?_, ?_⟩
  · rintro ⟨a, ha, rfl⟩
    exact .unary ha
  · intro h
    cases h with
    | unary ha => exact ⟨_, ha, rfl⟩

/-- The other branch may be left out. -/
theorem recognizes_branch_slots (hbelow : below.Recognized room) (head : FormHead) :
    Recognizes (slots below head .branch) ((slotsLang .branch).Within room) := by
  have hexpr := recognizes_expr hbelow "expression"
  refine Recognizes.slots (hexpr.bind_within balanced_exprLang fun condition =>
    hexpr.bind_within balanced_exprLang fun yes =>
      recognizes_optional hbelow head (fun m => Node.branch m condition yes none)
        fun no m => Node.branch m condition yes (some no)) fun ts next more make => ⟨?_, ?_⟩
  · rintro ⟨us, _, a, rfl, ha, vs, _, b, rfl, hb,
      ⟨rfl, ⟨_, _, hrest, hclose⟩, rfl⟩ | ⟨c, hc, rfl⟩⟩
    · rw [List.append_nil]
      rw [← (List.cons.inj hrest).1] at hclose
      exact .branch ha hb hclose
    · exact .branchElse ha hb hc
  · intro h
    cases h with
    | branch ha hb hclose =>
      exact ⟨_, _, _, rfl, ha, _, [], _, (List.append_nil _).symm, hb,
        .inl ⟨rfl, ⟨_, _, rfl, hclose⟩, rfl⟩⟩
    | branchElse ha hb hc => exact ⟨_, _, _, rfl, ha, _, _, _, rfl, hb, .inr ⟨_, hc, rfl⟩⟩

theorem recognizes_call_slots (hbelow : below.Recognized room) (head : FormHead) :
    Recognizes (slots below head .call) ((slotsLang .call).Within room) := by
  have hexpr := recognizes_expr hbelow "expression"
  have hitems := recognizes_exprs hbelow "expression or ')'" head
  refine Recognizes.slots (hexpr.bind_within balanced_exprLang fun callee =>
    hitems.map_within fun args m => Node.call m callee args) fun ts next more make => ⟨?_, ?_⟩
  · rintro ⟨us, _, a, rfl, ha, args, ⟨hargs, few, _, _, hrest, hclose⟩, rfl⟩
    rw [← (List.cons.inj hrest).1] at hclose
    exact .call ha hargs few hclose
  · intro h
    cases h with
    | call ha hargs few hclose =>
      exact ⟨_, _, _, rfl, ha, _, ⟨hargs, few, _, _, rfl, hclose⟩, rfl⟩

theorem recognizes_block_slots (hbelow : below.Recognized room) (head : FormHead) :
    Recognizes (slots below head .block) ((slotsLang .block).Within room) := by
  have hitems := recognizes_exprs hbelow "expression or ')'" head
  refine Recognizes.slots (hitems.map_within fun body m => Node.block m body)
    fun ts next more make => ⟨?_, ?_⟩
  · rintro ⟨body, ⟨hbody, few, _, _, hrest, hclose⟩, rfl⟩
    rw [← (List.cons.inj hrest).1] at hclose
    exact .block hbody few hclose
  · intro h
    cases h with
    | block hbody few hclose => exact ⟨_, ⟨hbody, few, _, _, rfl, hclose⟩, rfl⟩

theorem recognizes_function_slots (hbelow : below.Recognized room) (head : FormHead) :
    Recognizes (slots below head .function) ((slotsLang .function).Within room) := by
  have hitems := recognizes_exprs hbelow "expression or ')'" head
  refine Recognizes.slots ((recognizes_headed hbelow "plist").bind_within Item.balanced
    fun params => hitems.map_within fun body m => Node.function m params body)
    fun ts next more make => ⟨?_, ?_⟩
  · rintro ⟨us, _, a, rfl, ha, body, ⟨hbody, few, _, _, hrest, hclose⟩, rfl⟩
    rw [← (List.cons.inj hrest).1] at hclose
    exact .function ha hbody few hclose
  · intro h
    cases h with
    | function ha hbody few hclose =>
      exact ⟨_, _, _, rfl, ha, _, ⟨hbody, few, _, _, rfl, hclose⟩, rfl⟩

/-- Every slot of a parameter list is a form with the head of a parameter. -/
theorem recognizes_params_slots (hbelow : below.Recognized room) (head : FormHead) :
    Recognizes (slots below head .params) ((slotsLang .params).Within room) := by
  refine Recognizes.slots ((recognizes_all_items (recognizes_headed hbelow "param") head).map_within
    fun params m => Node.params m params) fun ts next more make => ⟨?_, ?_⟩
  · rintro ⟨params, ⟨hparams, few, _, _, hrest, hclose⟩, rfl⟩
    rw [← (List.cons.inj hrest).1] at hclose
    exact .params hparams few hclose
  · intro h
    cases h with
    | params hparams few hclose => exact ⟨_, ⟨hparams, few, _, _, rfl, hclose⟩, rfl⟩

theorem recognizes_forLess_slots (hbelow : below.Recognized room) (head : FormHead) :
    Recognizes (slots below head .forLess) ((slotsLang .forLess).Within room) := by
  have hexpr := recognizes_expr hbelow "expression"
  have hident := recognizes_ident room
  have hitems := recognizes_exprs hbelow "expression or ')'" head
  refine Recognizes.slots (hident.bind_within balanced_ident fun var =>
    hexpr.bind_within balanced_exprLang fun start =>
      hexpr.bind_within balanced_exprLang fun stop =>
        hitems.map_within fun body m => Node.forLess m var start stop body)
    fun ts next more make => ⟨?_, ?_⟩
  · rintro ⟨_, _, _, rfl, ⟨t, kind, rfl, rfl⟩, us, _, a, rfl, ha, vs, _, b, rfl, hb, body,
      ⟨hbody, few, _, _, hrest, hclose⟩, rfl⟩
    rw [← (List.cons.inj hrest).1] at hclose
    rw [List.singleton_append]
    exact .forLess kind ha hb hbody few hclose
  · intro h
    cases h with
    | forLess kind ha hb hbody few hclose =>
      exact ⟨[_], _, _, rfl, ⟨_, kind, rfl, rfl⟩, _, _, _, rfl, ha, _, _, _, rfl, hb, _,
        ⟨hbody, few, _, _, rfl, hclose⟩, rfl⟩

/-- **Slots.** One lemma for each recipe. -/
theorem recognizes_slots (hbelow : below.Recognized room) (head : FormHead) (recipe : Recipe) :
    Recognizes (slots below head recipe) ((slotsLang recipe).Within room) := by
  cases recipe with
  | doc => exact recognizes_doc_slots head
  | declare => exact recognizes_declare_slots hbelow head
  | assign => exact recognizes_assign_slots hbelow head
  | increment => exact recognizes_increment_slots head
  | result => exact recognizes_result_slots hbelow head
  | cast => exact recognizes_cast_slots hbelow head
  | param => exact recognizes_param_slots head
  | choice => exact recognizes_choice_slots hbelow head
  | member => exact recognizes_member_slots hbelow head
  | doWhile => exact recognizes_doWhile_slots hbelow head
  | binary => exact recognizes_binary_slots hbelow head
  | sign => exact recognizes_sign_slots hbelow head
  | unary => exact recognizes_unary_slots hbelow head
  | branch => exact recognizes_branch_slots hbelow head
  | call => exact recognizes_call_slots hbelow head
  | block => exact recognizes_block_slots hbelow head
  | function => exact recognizes_function_slots hbelow head
  | params => exact recognizes_params_slots hbelow head
  | forLess => exact recognizes_forLess_slots hbelow head

/-! ## Heads -/

theorem join?_of_oneWord {ts : List Token} (h : OneWord ts) :
    ∃ span, join? ts = some (spelling ts, span) := by
  induction ts with
  | nil => exact h.elim
  | cons t ts ih =>
    cases ts with
    | nil => exact ⟨t.span, if_pos (isJoinable_iff.mpr h)⟩
    | cons u ts =>
      obtain ⟨hjoinable, hadjacent, hjoined⟩ := h
      obtain ⟨span, hspan⟩ := ih hjoined
      refine ⟨t.span.merge span, ?_⟩
      rw [join?, if_pos, hspan]
      · rfl
      · simpa [isJoinable_iff.mpr hjoinable, Adjacent] using hadjacent

theorem oneWord_of_join? {ts : List Token} {v : String × Span} (h : join? ts = some v) :
    OneWord ts ∧ v.1 = spelling ts := by
  induction ts generalizing v with
  | nil => cases h
  | cons t ts ih =>
    cases ts with
    | nil =>
      rw [join?] at h
      split at h
      · rename_i hjoinable
        cases h
        exact ⟨isJoinable_iff.mp hjoinable, rfl⟩
      · cases h
    | cons u ts =>
      rw [join?] at h
      split at h
      · rename_i hboth
        obtain ⟨hjoinable, hadjacent⟩ := Bool.and_eq_true_iff.mp hboth
        obtain ⟨w, hw, rfl⟩ := Option.map_eq_some_iff.mp h
        obtain ⟨hjoined, hspelling⟩ := ih hw
        refine ⟨⟨isJoinable_iff.mp hjoinable, beq_iff_eq.mp hadjacent, hjoined⟩, ?_⟩
        rw [spelling, ← hspelling]
      · cases h

/-- How many tokens of `ts` make up the head: the most, up to `longestHead`, that have a recipe
together, or else one. -/
structure HeadLength (ts : List Token) (n : Nat) : Prop where
  pos : 0 < n
  le : n ≤ longestHead
  joined : OneWord (ts.take n)
  named : 1 < n → (recipe? (spelling (ts.take n))).isSome
  longest : ∀ m, n < m → m ≤ longestHead → OneWord (ts.take m) →
    recipe? (spelling (ts.take m)) = none

/-- The head of `n` tokens, if these have a recipe together. -/
def compoundOf? (ts : List Token) (n : Nat) : Option (Nat × String × Span) := do
  let (text, span) ← join? (ts.take n)
  if (recipe? text).isSome then some (n, text, span) else none

theorem compoundOf?_eq_some {ts : List Token} {n : Nat} (hjoined : OneWord (ts.take n))
    (hnamed : (recipe? (spelling (ts.take n))).isSome) :
    ∃ span, join? (ts.take n) = some (spelling (ts.take n), span) ∧
      compoundOf? ts n = some (n, spelling (ts.take n), span) := by
  obtain ⟨span, hspan⟩ := join?_of_oneWord hjoined
  refine ⟨span, hspan, ?_⟩
  rw [compoundOf?, hspan]
  exact if_pos hnamed

theorem compoundOf?_eq_none {ts : List Token} {n : Nat}
    (h : OneWord (ts.take n) → recipe? (spelling (ts.take n)) = none) :
    compoundOf? ts n = none := by
  rw [compoundOf?]
  cases hjoin : join? (ts.take n) with
  | none => rfl
  | some v =>
    obtain ⟨hjoined, hspelling⟩ := oneWord_of_join? hjoin
    have hnone := h hjoined
    rw [← hspelling] at hnone
    exact if_neg (by simp [hnone])

theorem compound?_eq (ts : List Token) :
    compound? ts = (compoundOf? ts longestHead).or (compoundOf? ts 2) := by
  show List.findSome? (compoundOf? ts) [longestHead, 2] = _
  rw [List.findSome?_cons]
  cases compoundOf? ts longestHead with
  | none =>
    rw [List.findSome?_cons]
    cases compoundOf? ts 2 <;> rfl
  | some v => rfl

/-- `compound?` finds the head if it has several tokens, and nothing if it has one. -/
theorem headLength_of_compound? (ts : List Token) (hfirst : OneWord (ts.take 1)) :
    (∃ n span, HeadLength ts n ∧ join? (ts.take n) = some (spelling (ts.take n), span) ∧
      compound? ts = some (n, spelling (ts.take n), span)) ∨
    HeadLength ts 1 ∧ compound? ts = none := by
  have hlongest : longestHead = 3 := rfl
  -- Lengths are tried from the longest down, so what is found has nothing longer beside it.
  by_cases hthree : OneWord (ts.take 3) ∧ (recipe? (spelling (ts.take 3))).isSome = true
  · obtain ⟨span, hspan, hfound⟩ := compoundOf?_eq_some hthree.1 hthree.2
    refine .inl ⟨3, span, ⟨by omega, by omega, hthree.1, fun _ => hthree.2, ?_⟩, hspan, ?_⟩
    · intro m hm hle
      omega
    · rw [compound?_eq, hlongest, hfound]
      rfl
  have hnone₃ : OneWord (ts.take 3) → recipe? (spelling (ts.take 3)) = none := by
    intro hjoined
    refine Option.not_isSome_iff_eq_none.mp fun hsome => ?_
    exact hthree ⟨hjoined, hsome⟩
  by_cases htwo : OneWord (ts.take 2) ∧ (recipe? (spelling (ts.take 2))).isSome = true
  · obtain ⟨span, hspan, hfound⟩ := compoundOf?_eq_some htwo.1 htwo.2
    refine .inl ⟨2, span, ⟨by omega, by omega, htwo.1, fun _ => htwo.2, ?_⟩, hspan, ?_⟩
    · intro m hm hle
      obtain rfl : m = 3 := by omega
      exact hnone₃
    · rw [compound?_eq, hlongest, compoundOf?_eq_none hnone₃, hfound]
      rfl
  have hnone₂ : OneWord (ts.take 2) → recipe? (spelling (ts.take 2)) = none := by
    intro hjoined
    refine Option.not_isSome_iff_eq_none.mp fun hsome => ?_
    exact htwo ⟨hjoined, hsome⟩
  refine .inr ⟨⟨by omega, by omega, hfirst, fun h => absurd h (by omega), ?_⟩, ?_⟩
  · intro m hm hle
    obtain rfl | rfl : m = 2 ∨ m = 3 := by omega
    · exact hnone₂
    · exact hnone₃
  · rw [compound?_eq, hlongest, compoundOf?_eq_none hnone₃, compoundOf?_eq_none hnone₂]
    rfl

theorem skip_ok {n : Nat} (hs : s.stream.Ended)
    (h : ∀ t ∈ s.stream.remaining.take n, t.isEof = false) :
    ∃ s', skip n s = .ok () s' ∧ s.stream.Passes (s.stream.remaining.take n) s'.stream := by
  induction n generalizing s with
  | zero => exact ⟨s, rfl, s.stream.passes_nil⟩
  | succ n ih =>
    have hpasses := hs.passes_advance (h s.stream.current List.mem_cons_self)
    have htail : s.stream.advance.remaining = s.stream.ahead :=
      (List.cons.inj hpasses.remaining).2.symm
    have hmore : ∀ t ∈ s.stream.advance.remaining.take n, t.isEof = false := by
      intro t ht
      rw [htail] at ht
      exact h t (List.mem_cons_of_mem _ ht)
    obtain ⟨s', hrun, hrest⟩ :=
      @ih { s with stream := s.stream.advance } (hs.of_passes hpasses) hmore
    refine ⟨s', hrun, ?_⟩
    have hboth := hpasses.append hrest
    rwa [show s.stream.advance.remaining = s.stream.ahead from htail] at hboth

/-- **What the head is**, for the tokens at hand: so many of them, with the spelling, span and
annotation that are returned. -/
theorem head_ok (hs : s.stream.Ended) (h : Joinable s.stream.current) :
    ∃ n v s', head s = .ok v s' ∧ s.stream.Passes (s.stream.remaining.take n) s'.stream ∧
      HeadLength s.stream.remaining n ∧
      join? (s.stream.remaining.take n) = some (v.1, v.2.1) ∧
      v.2.2 = headType (s.stream.remaining.take n) := by
  have hskip : ∀ {n}, OneWord (s.stream.remaining.take n) →
      ∃ s', skip n s = .ok () s' ∧ s.stream.Passes (s.stream.remaining.take n) s'.stream :=
    fun hjoined => skip_ok hs fun t ht => (OneWord.joinable hjoined t ht).isEof
  have htype : ∀ {n}, 0 < n →
      headType (s.stream.remaining.take n) = s.stream.current.ascription := by
    intro n hn
    obtain ⟨m, rfl⟩ : ∃ m, n = m + 1 := ⟨n - 1, by omega⟩
    rfl
  have hget : (get : Parse Parsing) s = .ok s s := rfl
  rcases headLength_of_compound? s.stream.remaining h with
    ⟨n, span, hlength, hjoin, hfound⟩ | ⟨hlength, hfound⟩
  · obtain ⟨s', hrun, hpasses⟩ := hskip hlength.joined
    refine ⟨n, (spelling (s.stream.remaining.take n), span, s.stream.current.ascription),
      { s' with joined := s'.joined.push (spelling (s.stream.remaining.take n), n) }, ?_, hpasses,
      hlength, hjoin, (htype hlength.pos).symm⟩
    have hmodify : ∀ g, (modify g : Parse PUnit) s' = .ok ⟨⟩ (g s') := fun _ => rfl
    simp [head, current, bind, EStateM.bind, isJoinable_iff.mpr h, hget, hfound, hrun, hmodify,
      pure, EStateM.pure]
  · refine ⟨1, (s.stream.current.text, s.stream.current.span, s.stream.current.ascription),
      { s with stream := s.stream.advance }, ?_, hs.passes_advance h.isEof, hlength,
      if_pos (isJoinable_iff.mpr h), rfl⟩
    simp [head, current, bind, EStateM.bind, isJoinable_iff.mpr h, hget, hfound, advance, pure,
      EStateM.pure]

/-- The tokens of a head, with what is returned of it. A head of one token need not have a recipe
yet. -/
def headLang : Lang (String × Span × Option String) := fun ts rest v =>
  join? ts = some (v.1, v.2.1) ∧ v.2.2 = headType ts ∧ ts.length ≤ longestHead ∧
    (1 < ts.length → (recipe? (spelling ts)).isSome) ∧
    ∀ more, more <+: rest → more ≠ [] → ts.length + more.length ≤ longestHead →
      OneWord (ts ++ more) → recipe? (spelling (ts ++ more)) = none

/-- Only one run of tokens is the longest. -/
theorem headLang_iff {all ts rest : List Token} {v : String × Span × Option String} {n : Nat}
    (hn : HeadLength all n) (hsplit : all = ts ++ rest) :
    headLang ts rest v ↔
      ts = all.take n ∧ join? ts = some (v.1, v.2.1) ∧ v.2.2 = headType ts := by
  subst hsplit
  constructor
  · rintro ⟨hjoin, htype, hle, hnamed, hlongest⟩
    refine ⟨?_, hjoin, htype⟩
    have hjoined := (oneWord_of_join? hjoin).1
    have hpos : 0 < ts.length := List.length_pos_iff.mpr fun h => by
      rw [h] at hjoined
      exact hjoined
    rw [List.take_append]
    by_cases hshort : ts.length < n
    · -- What `n` tokens have more than `ts` would make a longer head.
      rw [List.take_of_length_le (Nat.le_of_lt hshort)]
      by_cases hmore : rest.take (n - ts.length) = []
      · rw [hmore, List.append_nil]
      · have hall : (ts ++ rest).take n = ts ++ rest.take (n - ts.length) := by
          rw [List.take_append, List.take_of_length_le (Nat.le_of_lt hshort)]
        have hsum : ts.length + (rest.take (n - ts.length)).length ≤ longestHead := by
          have := List.length_take_le (n - ts.length) rest
          have := hn.le
          omega
        have hnone := hlongest _ (List.take_prefix _ _) hmore hsum (hall ▸ hn.joined)
        have hsome := hn.named (by omega)
        rw [hall, hnone] at hsome
        cases hsome
    · -- And what `ts` has more than `n` tokens would make `n` too short.
      have hlong : ts.length ≤ n := by
        refine Nat.le_of_not_lt fun hlt => ?_
        have hall : (ts ++ rest).take ts.length = ts := List.take_left
        have hnone := hn.longest ts.length hlt hle (hall.symm ▸ hjoined)
        have hsome := hnamed (by have := hn.pos; omega)
        rw [hall] at hnone
        rw [hnone] at hsome
        cases hsome
      obtain rfl : ts.length = n := by omega
      rw [Nat.sub_self, List.take_zero, List.append_nil, List.take_length]
  · rintro ⟨hts, hjoin, htype⟩
    have hlength : ts.length ≤ n := by
      rw [hts]
      exact List.length_take_le _ _
    refine ⟨hjoin, htype, Nat.le_trans hlength hn.le, ?_, ?_⟩
    · intro hmany
      have hsome := hn.named (by omega)
      rwa [← hts] at hsome
    · rintro more ⟨tail, rfl⟩ hne hsum hjoined
      have hpos := List.length_pos_iff.mpr hne
      have hexact : ts.length = n := by
        have := congrArg List.length hts
        simp only [List.length_take, List.length_append] at this
        omega
      have hall : (ts ++ (more ++ tail)).take (ts.length + more.length) = ts ++ more := by
        rw [← List.append_assoc, ← List.length_append, List.take_left]
      have hnone := hn.longest (ts.length + more.length) (by omega) hsum (hall.symm ▸ hjoined)
      rwa [hall] at hnone

/-- **Heads.** -/
theorem recognizes_head : Recognizes head headLang := by
  intro s hs
  by_cases hjoinable : Joinable s.stream.current
  · obtain ⟨n, v, s', hrun, hpasses, hlength, hjoin, htype⟩ := head_ok hs hjoinable
    refine ⟨?_, ?_⟩
    · intro w s'' hrun'
      rw [hrun] at hrun'
      cases hrun'
      exact ⟨_, hpasses, (headLang_iff hlength hpasses.remaining).mpr ⟨rfl, hjoin, htype⟩⟩
    · intro ts rest w hw _ hsplit
      obtain ⟨rfl, hjoin', htype'⟩ := (headLang_iff hlength hsplit).mp hw
      obtain rfl : v = w := by
        obtain ⟨hname, hspan⟩ := Prod.mk.inj (Option.some.inj (hjoin.symm.trans hjoin'))
        exact Prod.ext hname (Prod.ext hspan (htype.trans htype'.symm))
      exact ⟨s', hrun, hpasses⟩
  · refine RecognizesAt.current_bind ?_
    rw [← isJoinable_iff, Bool.not_eq_true] at hjoinable
    rw [if_pos (by rw [hjoinable]; rfl)]
    refine RecognizesAt.fail ?_
    rintro ts rest v hsplit ⟨hjoin, -⟩
    have hjoined := (oneWord_of_join? hjoin).1
    cases ts with
    | nil => exact hjoined
    | cons t us =>
      obtain rfl := eq_current hsplit rfl
      rw [isJoinable_iff.mpr (hjoined.joinable _ List.mem_cons_self)] at hjoinable
      cases hjoinable

/-- A head that has a recipe is what the grammar says. -/
theorem headLang_named_iff {ts rest : List Token} {v : String × Span × Option String}
    {recipe : Recipe} :
    headLang ts rest v ∧ recipe? v.1 = some recipe ↔
      IsHead ts rest recipe ∧ join? ts = some (v.1, v.2.1) ∧ v.2.2 = headType ts := by
  constructor
  · rintro ⟨⟨hjoin, htype, hle, -, hlongest⟩, hrecipe⟩
    obtain ⟨hjoined, hspelling⟩ := oneWord_of_join? hjoin
    rw [hspelling] at hrecipe
    exact ⟨⟨hjoined, hle, hrecipe, hlongest⟩, hjoin, htype⟩
  · rintro ⟨⟨hjoined, hle, hnamed, hlongest⟩, hjoin, htype⟩
    obtain ⟨-, hspelling⟩ := oneWord_of_join? hjoin
    refine ⟨⟨hjoin, htype, hle, fun _ => by rw [hnamed]; rfl, hlongest⟩, ?_⟩
    rw [hspelling]
    exact hnamed

/-- What stands behind the closing parenthesis does not matter to the head. -/
theorem isHead_closing_iff {run ts rest : List Token} {closing : Token} {recipe : Recipe}
    (hclose : closing.isClose = true) :
    IsHead run (ts ++ closing :: rest) recipe ↔ IsHead run (ts ++ [closing]) recipe := by
  constructor
  · rintro ⟨hjoined, hle, hnamed, hlongest⟩
    refine ⟨hjoined, hle, hnamed, fun more hmore => hlongest more (hmore.trans ?_)⟩
    exact ⟨rest, by simp⟩
  · rintro ⟨hjoined, hle, hnamed, hlongest⟩
    refine ⟨hjoined, hle, hnamed, fun more hmore hne hsum hmoreJoined => ?_⟩
    -- A closing parenthesis is not joined to anything, so `more` stops in front of it.
    have hnot : closing ∉ more := by
      intro hmem
      have := (hmoreJoined.joinable closing (List.mem_append_right _ hmem)).2.2
      rw [hclose] at this
      cases this
    refine hlongest more ?_ hne hsum hmoreJoined
    have hupto : ts ++ [closing] <+: ts ++ closing :: rest := ⟨rest, by simp⟩
    refine List.prefix_of_prefix_length_le hmore hupto (Nat.le_of_not_lt fun hlong => hnot ?_)
    have hover := List.prefix_of_prefix_length_le hupto hmore (Nat.le_of_lt hlong)
    exact hover.subset (List.mem_append_right _ List.mem_cons_self)

/-! ## Forms -/

theorem recognizesAt_advance (hs : s.stream.Ended) (ht : s.stream.current.isEof = false) :
    RecognizesAt s advance fun ts _ t => ts = [s.stream.current] ∧ t = s.stream.current := by
  have hpasses := hs.passes_advance ht
  refine ⟨?_, ?_⟩
  · rintro t s' ⟨⟩
    exact ⟨_, hpasses, rfl, rfl⟩
  · rintro ts rest t ⟨rfl, rfl⟩ - -
    exact ⟨_, rfl, hpasses⟩

theorem recognizes_close (form : FormHead) :
    Recognizes (close form) fun ts _ t => ts = [t] ∧ t.isClose = true := by
  intro s hs
  refine RecognizesAt.current_bind ?_
  by_cases hclose : s.stream.current.isClose = true
  · rw [if_pos hclose]
    refine (recognizesAt_advance hs (isEof_of_isSymbol hclose)).congr fun ts rest t _ hsplit => ?_
    constructor
    · rintro ⟨rfl, rfl⟩
      exact ⟨rfl, hclose⟩
    · rintro ⟨rfl, -⟩
      obtain rfl := eq_current hsplit rfl
      exact ⟨rfl, rfl⟩
  · have hnone : ∀ ts rest t, s.stream.remaining = ts ++ rest →
        ¬ (ts = [t] ∧ t.isClose = true) := by
      rintro ts rest t hsplit ⟨rfl, ht⟩
      obtain rfl := eq_current hsplit rfl
      exact hclose ht
    rw [if_neg hclose]
    split
    · exact RecognizesAt.fail hnone
    · exact RecognizesAt.unexpected hnone

/-- A step that runs another and changes nothing but what is kept beside the stream. -/
theorem RecognizesAt.around {α : Type} {p q : Parse α} {G : Lang α} {inner : Parsing}
    (leave : Parsing → Parsing) (h : RecognizesAt inner p G) (henter : inner.stream = s.stream)
    (hleave : ∀ s', (leave s').stream = s'.stream)
    (hok : ∀ a s', p inner = .ok a s' → q s = .ok a (leave s'))
    (herror : ∀ e s', p inner = .error e s' → ∃ s'', q s = .error e s'') : RecognizesAt s q G := by
  refine ⟨?_, ?_⟩
  · intro a s' hrun
    cases hp : p inner with
    | error e s'' =>
      obtain ⟨_, hq⟩ := herror e s'' hp
      rw [hq] at hrun
      cases hrun
    | ok b s'' =>
      rw [hok b s'' hp] at hrun
      cases hrun
      rw [← henter, hleave]
      exact h.sound hp
  · intro ts rest a hG hrest hsplit
    rw [← henter] at hsplit ⊢
    obtain ⟨s', hrun, hpasses⟩ := h.complete hG hrest hsplit
    refine ⟨leave s', hok a s' hrun, ?_⟩
    rwa [hleave]

theorem Recognizes.inContext {α : Type} {p : Parse α} {G : Lang α} (h : Recognizes p G)
    (name : String) : Recognizes (inContext name p) G := by
  intro s hs
  refine (h { s with context := name :: s.context } hs).around
    (fun s' => { s' with context := s'.context.tail }) rfl (fun _ => rfl) ?_ ?_
  · intro a s' hp
    rw [Parse.inContext, hp]
  · intro e s' hp
    exact ⟨_, by rw [Parse.inContext, hp]⟩

theorem RecognizesAt.nested {α : Type} {p : Parse α} {G : Lang α}
    (h : ∀ s' : Parsing, s'.stream = s.stream → RecognizesAt s' p G) :
    RecognizesAt s (nested p) G := by
  refine (h { s with depth := s.depth + 1, deepest := max s.deepest (s.depth + 1) } rfl).around
    (fun s' => { s' with depth := s'.depth - 1 }) rfl (fun _ => rfl) ?_ ?_
  · intro a s' hp
    rw [Parse.nested, hp]
  · intro e s' hp
    exact ⟨_, by rw [Parse.nested, hp]⟩

/-- What stands between the opening parenthesis of a form and its end, where there is room for so
many more parentheses. -/
def restLang (room : Nat) (opening : Token) : Lang Node := fun ts rest n =>
  ∃ run us closing recipe make, ts = run ++ us ++ [closing] ∧
    IsHead run (us ++ closing :: rest) recipe ∧ Slots Token.isOpen recipe us closing make ∧
    nesting us ≤ room ∧ closing.isClose = true ∧
    n = make ⟨opening.span.merge closing.span,
      opening.ascription <|> headType run <|> closing.ascription⟩

theorem nesting_form {opening closing : Token} {run ts rest : List Token} {recipe : Recipe}
    {make : Mark → Node} (opened : opening.isOpen = true) (head : IsHead run rest recipe)
    (slots : Slots Token.isOpen recipe ts closing make) (closed : closing.isClose = true) :
    nesting (opening :: (run ++ ts) ++ [closing]) = nesting ts + 1 := by
  obtain ⟨hrun, hzero⟩ := head.joined.balanced
  rw [((hrun.append slots.balanced).enclose opened closed).2, hrun.nesting_append, hzero]
  omega

/-- A form is its opening parenthesis and the rest; inside there is one parenthesis less of room. -/
theorem form_within_iff {opening : Token} {ts rest : List Token} {n : Node}
    (hopen : opening.isOpen = true) :
    formLang.Within (room + 1) (opening :: ts) rest n ↔ restLang room opening ts rest n := by
  constructor
  · rintro ⟨hform, hroom⟩
    generalize hall : opening :: ts = all at hform hroom
    obtain ⟨opened, head, slots, closed, rfl⟩ := hform
    obtain ⟨rfl, rfl⟩ := List.cons.inj hall
    rw [nesting_form opened head slots closed] at hroom
    exact ⟨_, _, _, _, _, rfl, (isHead_closing_iff closed).mpr head, slots, by omega, closed, rfl⟩
  · rintro ⟨run, us, closing, recipe, make, rfl, head, slots, hroom, closed, rfl⟩
    refine ⟨.mk hopen ((isHead_closing_iff closed).mp head) slots closed rfl, ?_⟩
    have hnesting := nesting_form hopen head slots closed
    rw [List.cons_append] at hnesting
    rw [hnesting]
    omega

/-- Head, slots and closing parenthesis. -/
theorem recognizesAt_rest {opening : Token} (hbelow : below.Recognized room) (hs : s.stream.Ended) :
    RecognizesAt s (do
        let (name, headSpan, headType) ← head
        match recipe? name with
        | none => fail (.unknownHead name) headSpan
        | some recipe => do
          let form : FormHead := ⟨name, opening.span.start⟩
          let make ← inContext name (slots below form recipe)
          let closing ← close form
          pure (make ⟨opening.span.merge closing.span,
            opening.ascription <|> headType <|> closing.ascription⟩))
      (restLang room opening) := by
  refine RecognizesAt.congr (RecognizesAt.bind (recognizes_head s hs)
    (H := fun v ts _ n => ∃ us closing recipe make, recipe? v.1 = some recipe ∧
      ts = us ++ [closing] ∧ Slots Token.isOpen recipe us closing make ∧ nesting us ≤ room ∧
      closing.isClose = true ∧ n = make ⟨opening.span.merge closing.span,
        opening.ascription <|> v.2.2 <|> closing.ascription⟩)
    fun {v s' ts} hpasses hv => ?_) ?_
  · obtain ⟨name, span, type⟩ := v
    dsimp only
    split
    · -- A head without a recipe is refused, and no rule has one.
      rename_i hnone
      refine RecognizesAt.fail ?_
      rintro ts rest n - ⟨us, closing, recipe, make, hrecipe, -⟩
      rw [hnone] at hrecipe
      cases hrecipe
    · rename_i recipe hrecipe
      refine RecognizesAt.congr (Recognizes.bind
        ((recognizes_slots hbelow ⟨name, opening.span.start⟩ recipe).inContext name)
        (fun make => (recognizes_close _).bind fun closing => fun _ _ => RecognizesAt.pure)
        s' (hs.of_passes hpasses)) ?_
      intro ts rest n _ _
      constructor
      · rintro ⟨us, _, make, rfl, ⟨⟨next, more, hnext, slots⟩, hroom⟩, _, _, closing, rfl,
          ⟨rfl, hclose⟩, rfl, rfl⟩
        obtain ⟨rfl, -⟩ := List.cons.inj hnext
        exact ⟨us, closing, recipe, make, hrecipe, rfl, slots, hroom, hclose, rfl⟩
      · rintro ⟨us, closing, recipe', make, hrecipe', rfl, slots, hroom, hclose, rfl⟩
        obtain rfl := Option.some.inj (hrecipe.symm.trans hrecipe')
        exact ⟨us, [closing], make, rfl, ⟨⟨closing, rest, rfl, slots⟩, hroom⟩, [closing], [],
          closing, rfl, ⟨rfl, hclose⟩, rfl, rfl⟩
  · intro ts rest n _ _
    constructor
    · rintro ⟨run, _, v, rfl, hv, us, closing, recipe, make, hrecipe, rfl, slots, hroom, hclose,
        rfl⟩
      obtain ⟨hhead, -, htype⟩ := headLang_named_iff.mp ⟨hv, hrecipe⟩
      rw [List.append_assoc] at hhead
      refine ⟨run, us, closing, recipe, make, (List.append_assoc _ _ _).symm, hhead, slots, hroom,
        hclose, ?_⟩
      rw [htype]
    · -- The grammar does not speak of the span of the head; the parser finds one.
      rintro ⟨run, us, closing, recipe, make, rfl, head, slots, hroom, hclose, rfl⟩
      obtain ⟨span, hspan⟩ := join?_of_oneWord head.joined
      have hrest : us ++ closing :: rest = us ++ [closing] ++ rest := by simp
      rw [hrest] at head
      obtain ⟨hv, hrecipe⟩ := (headLang_named_iff (v := (spelling run, span, headType run))).mpr
        ⟨head, hspan, rfl⟩
      exact ⟨run, us ++ [closing], _, List.append_assoc _ _ _, hv, us, closing, recipe, make,
        hrecipe, rfl, slots, hroom, hclose, rfl⟩

/-- **Forms.** Behind the opening parenthesis come the head, the slots that its recipe asks for, and
the closing parenthesis. -/
theorem recognizesAt_listBody (hbelow : below.Recognized room) (hs : s.stream.Ended)
    (hopen : s.stream.current.isOpen = true) :
    RecognizesAt s (listBody below) (formLang.Within (room + 1)) := by
  refine RecognizesAt.congr_cons (RecognizesAt.advance_bind hs (isEof_of_isSymbol hopen)
    (H := restLang room s.stream.current) fun s' hs' hpasses => ?_) ?_ ?_ ?_
  · refine RecognizesAt.current_bind ?_
    -- Whatever goes on starts with the head.
    have hfirst : ∀ {ts rest n}, s'.stream.remaining = ts ++ rest →
        restLang room s.stream.current ts rest n → Joinable s'.stream.current := by
      rintro ts rest n hsplit ⟨run, us, closing, recipe, make, rfl, head, -⟩
      have hjoined := head.joined
      cases run with
      | nil => exact hjoined.elim
      | cons t run =>
        obtain rfl := eq_current hsplit rfl
        exact hjoined.joinable _ List.mem_cons_self
    split
    · rename_i hclose
      refine RecognizesAt.of_error rfl fun ts rest n hsplit h => ?_
      rw [(hfirst hsplit h).2.2] at hclose
      cases hclose
    split
    · rename_i heof
      refine RecognizesAt.fail fun ts rest n hsplit h => ?_
      rw [(hfirst hsplit h).isEof] at heof
      cases heof
    · exact recognizesAt_rest hbelow hs'
  · rintro rest n ⟨us, hts, -⟩
    cases hts
  · rintro rest n ⟨hform, -⟩
    obtain ⟨_, _, _, hts, -⟩ := hform.first
    cases hts
  · intro us rest n
    rw [form_within_iff hopen]
    constructor
    · rintro ⟨vs, hvs, h⟩
      rwa [(List.cons.inj hvs).2]
    · intro h
      exact ⟨us, rfl, h⟩

/-- Blocks without a head. -/
theorem recognizesAt_bareBody (hbelow : below.Recognized room) (hs : s.stream.Ended)
    (hopen : s.stream.current.isOpen = true) :
    RecognizesAt s (bareBody below) (bareLang.Within (room + 1)) := by
  refine RecognizesAt.congr (RecognizesAt.advance_bind hs (isEof_of_isSymbol hopen)
    fun s' hs' _ => Recognizes.bind (recognizes_exprs hbelow _ _)
      (fun body => (recognizes_close _).bind fun closing => fun _ _ => RecognizesAt.pure) s' hs') ?_
  intro ts rest n _ hsplit
  constructor
  · rintro ⟨_, rfl, us, _, body, rfl, ⟨⟨items, few, -⟩, hroom⟩, _, _, closing, rfl, ⟨rfl, hclose⟩,
      rfl, rfl⟩
    refine ⟨⟨_, closing, us, body, rfl, hopen, items, few, hclose, rfl⟩, ?_⟩
    have hnesting := (items.balanced.enclose hopen hclose).2
    rw [List.cons_append] at hnesting
    rw [List.append_nil, hnesting]
    omega
  · rintro ⟨⟨opening, closing, us, body, rfl, -, items, few, hclose, rfl⟩, hroom⟩
    obtain rfl := eq_current hsplit rfl
    rw [(items.balanced.enclose hopen hclose).2] at hroom
    exact ⟨us ++ [closing], rfl, us, [closing], body, rfl,
      ⟨⟨items, few, closing, rest, rfl, hclose⟩, by omega⟩, [closing], [], closing, rfl,
      ⟨rfl, hclose⟩, rfl, rfl⟩

/-- **Levels.** By induction on the room, as a level is built on the one below it. -/
theorem recognized_level (room : Nat) : (level room).Recognized room := by
  induction room with
  | zero =>
    -- Without room everything is refused, and every form and block needs a parenthesis.
    refine ⟨fun s _ _ => ?_, fun s _ _ => ?_⟩
    · refine RecognizesAt.current_bind (RecognizesAt.fail ?_)
      rintro ts rest n - ⟨hform, hroom⟩
      have hpos := Form.nesting_pos hform
      omega
    · refine RecognizesAt.current_bind (RecognizesAt.fail ?_)
      rintro ts rest n - ⟨⟨opening, closing, us, body, rfl, hopen, items, -, hclose, -⟩, hroom⟩
      rw [(items.balanced.enclose hopen hclose).2] at hroom
      omega
  | succ room ih =>
    refine ⟨fun s hs hopen => ?_, fun s hs hopen => ?_⟩
    · refine RecognizesAt.nested fun s' hstream => ?_
      rw [← hstream] at hs hopen
      exact recognizesAt_listBody ih hs hopen
    · refine RecognizesAt.nested fun s' hstream => ?_
      rw [← hstream] at hs hopen
      exact recognizesAt_bareBody ih hs hopen

/-! ## Programs -/

/-- Every token of the stream up to the end of input may stand at the top level, atoms too. -/
def AllowsAtoms (stream : TokenStream) : Prop :=
  ∀ i, stream.position ≤ i → i + 1 < stream.size → stream.dialectAt i = .sexpr

theorem allowsAtoms_of_switches {stream : TokenStream} (h : stream.switches = [⟨0, .sexpr⟩]) :
    AllowsAtoms stream := by
  intro i _ _
  simp [TokenStream.dialectAt, h]

theorem AllowsAtoms.of_passes {s s' : TokenStream} {ts : List Token} (h : AllowsAtoms s)
    (hpasses : s.Passes ts s') : AllowsAtoms s' := by
  intro i hle hlt
  have hsize : s'.size = s.size := by
    have hlength := congrArg List.length hpasses.remaining
    have hposition := hpasses.position
    simp only [TokenStream.remaining, List.length_append, List.length_cons] at hlength
    simp only [TokenStream.size]
    omega
  have hposition := hpasses.position
  rw [TokenStream.dialectAt, hpasses.switches]
  exact h i (by omega) (by omega)

theorem recognizesAt_topForm_sexpr (hs : s.stream.Ended) (hdialect : s.stream.dialect = .sexpr) :
    RecognizesAt s (topForm (level room)) (exprLang.Within room) := by
  refine RecognizesAt.current_bind (RecognizesAt.get_bind ?_)
  rw [hdialect]
  exact recognizes_expr (recognized_level room) "top-level form" s hs

theorem recognizesAt_topForm (hs : s.stream.Ended) (hatoms : AllowsAtoms s.stream)
    (heof : s.stream.current.isEof = false) :
    RecognizesAt s (topForm (level room)) (exprLang.Within room) := by
  refine recognizesAt_topForm_sexpr hs ?_
  obtain ⟨t, ts, hahead⟩ := hs.exists_ahead heof
  refine hatoms s.stream.position (Nat.le_refl _) ?_
  rw [TokenStream.size, hahead, List.length_cons]
  omega

/-- The tokens of the forms up to the end of input. -/
def formsLang (room : Nat) : Lang (List Node) := fun ts rest ns =>
  Items Token.isOpen none ts ns ∧ nesting ts ≤ room ∧ ∃ last, rest = [last] ∧ last.isEof = true

/-- **Forms up to the end.** Every form takes a token, so the count of tokens is enough. -/
theorem recognizesAt_forms (room : Nat) {count : Nat} (done : List Node) (hs : s.stream.Ended)
    (hatoms : AllowsAtoms s.stream) (hcount : s.stream.remaining.length ≤ count) :
    RecognizesAt s (forms (level room) count done) ((formsLang room).map (done.reverse ++ ·)) := by
  induction count generalizing s done with
  | zero => cases hcount
  | succ count ih =>
    refine RecognizesAt.current_bind ?_
    have hcons : ∀ n ms, (n :: done).reverse ++ ms = done.reverse ++ n :: ms := by simp
    split
    · rename_i heof
      refine RecognizesAt.pure.congr fun ts rest ns hrest hsplit => ?_
      constructor
      · rintro ⟨rfl, rfl⟩
        refine ⟨[], ⟨.nil, Nat.zero_le _, s.stream.current, ?_, heof⟩, (List.append_nil _).symm⟩
        rw [← List.nil_append rest, ← hsplit, TokenStream.remaining, hs.ahead_eq_nil.mp heof]
      · rintro ⟨ms, ⟨hitems, -, -⟩, rfl⟩
        cases hitems with
        | nil => exact ⟨rfl, List.append_nil _⟩
        | cons first _ =>
          obtain ⟨t, us, rfl, -, hnot⟩ := first.starts
          obtain rfl := eq_current hsplit rfl
          rw [heof] at hnot
          cases hnot
    · rename_i heof
      rw [Bool.not_eq_true] at heof
      refine RecognizesAt.congr (RecognizesAt.bind (recognizesAt_topForm hs hatoms heof)
        (H := fun n => (formsLang room).map ((n :: done).reverse ++ ·))
        fun {n s' ts} hpasses hn => ?_) ?_
      · -- The form has taken a token, so the count for the others is enough.
        refine ih (n :: done) (hs.of_passes hpasses) (hatoms.of_passes hpasses) ?_
        obtain ⟨t, us, rfl, -, -⟩ := (Item.expr hn.1).starts
        rw [hpasses.remaining, List.length_append, List.length_cons] at hcount
        omega
      · intro ts rest ns _ hsplit
        constructor
        · rintro ⟨us, vs, n, rfl, ⟨hn, hroom⟩, ms, ⟨hms, hroom', hlast⟩, rfl⟩
          refine ⟨n :: ms, ⟨.cons (.expr hn) hms, ?_, hlast⟩, hcons n ms⟩
          rw [(Expr.balanced hn).nesting_append]
          omega
        · rintro ⟨ms, ⟨hitems, hroom, last, rfl, hlast⟩, rfl⟩
          cases hitems with
          | nil =>
            obtain rfl : s.stream.current = last := (List.cons.inj hsplit).1
            rw [heof] at hlast
            cases hlast
          | cons first more =>
            obtain ⟨hn⟩ := first
            rw [(Expr.balanced hn).nesting_append] at hroom
            exact ⟨_, _, _, rfl, ⟨hn, by omega⟩, _, ⟨more, by omega, last, rfl, hlast⟩,
              (hcons _ _).symm⟩

/-- What the forms of a whole stream are, for any room. -/
theorem forms_ok_iff (room : Nat) {body : List Token} {last : Token} (hs : s.stream.Ended)
    (hatoms : AllowsAtoms s.stream) (hsplit : s.stream.remaining = body ++ [last])
    (hlast : last.isEof = true) (ns : List Node) :
    (∃ s', forms (level room) s.stream.remaining.length [] s = .ok ns s') ↔
      Items Token.isOpen none body ns ∧ nesting body ≤ room := by
  have hforms := recognizesAt_forms room [] hs hatoms (Nat.le_refl _)
  constructor
  · rintro ⟨s', hrun⟩
    obtain ⟨ts, hpasses, ms, ⟨hitems, hroom, last', hrest, -⟩, rfl⟩ := hforms.sound hrun
    rw [hpasses.remaining, hrest] at hsplit
    obtain ⟨rfl, -⟩ := List.append_inj' hsplit rfl
    exact ⟨hitems, hroom⟩
  · rintro ⟨hitems, hroom⟩
    obtain ⟨s', hrun, -⟩ := hforms.complete ⟨ns, ⟨hitems, hroom, last, rfl, hlast⟩, rfl⟩
      (List.cons_ne_nil _ _) hsplit
    exact ⟨s', hrun⟩

/-- Behind the last form the end of input is at hand. -/
theorem current_of_forms_ok {body : List Token} {last : Token} {ns : List Node} {s' : Parsing}
    (hs : s.stream.Ended) (hatoms : AllowsAtoms s.stream)
    (hsplit : s.stream.remaining = body ++ [last])
    (hrun : forms (level room) s.stream.remaining.length [] s = .ok ns s') :
    s'.stream.current = last := by
  have hforms := recognizesAt_forms room [] hs hatoms (Nat.le_refl _)
  obtain ⟨ts, hpasses, ms, ⟨-, -, last', hrest, -⟩, -⟩ := hforms.sound hrun
  rw [hpasses.remaining, hrest] at hsplit
  obtain ⟨-, hend⟩ := List.append_inj' hsplit rfl
  exact (List.cons.inj hrest).1.trans (List.cons.inj hend).1

theorem program_ok_iff {body : List Token} {last : Token} {stream : TokenStream}
    (hs : stream.Ended) (hatoms : AllowsAtoms stream) (hsplit : stream.remaining = body ++ [last])
    (hlast : last.isEof = true) (m : Node) :
    (∃ s', parseProgram stream = .ok m s') ↔ ∃ ns, Items Token.isOpen none body ns ∧
      nesting body ≤ Limits.parseDepth ∧
      m = .program ⟨stream.current.span.merge last.span, none⟩ ns := by
  have hiff := forms_ok_iff Limits.parseDepth (s := { stream }) hs hatoms hsplit hlast
  have hrun : parseProgram stream = EStateM.bind
      (forms (level Limits.parseDepth) stream.remaining.length []) (fun all s' =>
        .ok (.program ⟨stream.current.span.merge s'.stream.current.span, none⟩ all) s')
      { stream } := rfl
  constructor
  · rintro ⟨s', hok⟩
    rw [hrun] at hok
    unfold EStateM.bind at hok
    cases hforms : forms (level Limits.parseDepth) stream.remaining.length [] { stream } with
    | error e s'' =>
      rw [hforms] at hok
      cases hok
    | ok ns s'' =>
      rw [hforms] at hok
      cases hok
      obtain ⟨hitems, hroom⟩ := (hiff ns).mp ⟨_, hforms⟩
      refine ⟨ns, hitems, hroom, ?_⟩
      rw [current_of_forms_ok (s := { stream }) hs hatoms hsplit hforms]
  · rintro ⟨ns, hitems, hroom, rfl⟩
    obtain ⟨s', hforms⟩ := (hiff ns).mpr ⟨hitems, hroom⟩
    refine ⟨s', ?_⟩
    rw [hrun]
    unfold EStateM.bind
    rw [hforms]
    dsimp only
    rw [current_of_forms_ok (s := { stream }) hs hatoms hsplit hforms]

end Parse

open Grammar

/-! ## Streams over tokens -/

theorem TokenStream.ended_of_remaining {stream : TokenStream} {body : List Token} {last : Token}
    (hsplit : stream.remaining = body ++ [last]) (hbody : ∀ t ∈ body, t.isEof = false)
    (hlast : last.isEof = true) : stream.Ended := by
  intro ts t us h
  rw [hsplit, List.append_eq_append_iff] at h
  rcases h with ⟨a, -, htail⟩ | ⟨c, rfl, htail⟩
  · cases a with
    | nil =>
      obtain ⟨rfl, rfl⟩ := List.cons.inj htail
      exact iff_of_true hlast rfl
    | cons x a => simp at htail
  · cases c with
    | nil =>
      obtain ⟨rfl, rfl⟩ := List.cons.inj htail
      exact iff_of_true hlast rfl
    | cons x c =>
      obtain ⟨rfl, rfl⟩ := List.cons.inj htail
      refine iff_of_false ?_ (List.append_ne_nil_of_right_ne_nil c (List.cons_ne_nil last []))
      rw [hbody t (List.mem_append_right _ List.mem_cons_self)]
      exact Bool.false_ne_true

/-- A stream over tokens without an end of input inside has the tokens in front of the first end of
input, and an end of input. -/
theorem TokenStream.remaining_ofTokens {tokens : List Token}
    (h : ∀ t ∈ tokens.dropLast, t.isEof = false) :
    ∃ last, (ofTokens tokens).remaining = tokens.takeWhile (!·.isEof) ++ [last] ∧
      last.isEof = true := by
  have hremaining : tokens ≠ [] → (ofTokens tokens).remaining = tokens ++ missingEnd tokens := by
    intro hne
    obtain ⟨t, ts, rfl⟩ := List.exists_cons_of_ne_nil hne
    rfl
  rcases List.eq_nil_or_concat tokens with rfl | ⟨init, l, htokens⟩
  · exact ⟨.closing .dummy, rfl, rfl⟩
  rw [List.concat_eq_append] at htokens
  subst htokens
  rw [List.dropLast_concat] at h
  have hinit : ∀ t ∈ init, (!t.isEof) = true := by
    intro t ht
    rw [h t ht]
    rfl
  rw [hremaining (by simp), missingEnd, List.getLast?_concat, List.takeWhile_append_of_pos hinit]
  by_cases hlast : l.isEof = true
  · refine ⟨l, ?_, hlast⟩
    simp [hlast]
  · refine ⟨.closing (.point l.span.stop), ?_, rfl⟩
    simp [hlast]

/-- **The parser accepts exactly the grammar.** A stream over tokens, all of which may stand at the
top level, is parsed if the tokens in front of its end of input are forms one behind the other, not
nested too deep, and then the program is made of these forms. No tokens are the forms of two
programs. -/
theorem parse_iff_derives (tokens : List Token) (switches : List DialectSwitch)
    (table : Option LineTable) (stream : TokenStream)
    (hstream : stream = { TokenStream.ofTokens tokens with switches, table })
    (hinterior : ∀ t ∈ tokens.dropLast, t.isEof = false)
    (hdialect : ∀ i, i + 1 < stream.size → stream.dialectAt i = .sexpr) :
    (∀ m, (∃ s, parseProgram stream = .ok m s) ↔
      ∃ forms, Items Token.isOpen none (tokens.takeWhile (!·.isEof)) forms ∧
        nesting (tokens.takeWhile (!·.isEof)) ≤ Limits.parseDepth ∧
        m = .program ⟨stream.current.span.merge
          (stream.remaining.getLastD stream.current).span, none⟩ forms) ∧
    ∀ forms forms', Items Token.isOpen none (tokens.takeWhile (!·.isEof)) forms →
      Items Token.isOpen none (tokens.takeWhile (!·.isEof)) forms' → forms = forms' := by
  obtain ⟨last, hsplit, hlast⟩ := TokenStream.remaining_ofTokens hinterior
  have hbody : ∀ t ∈ tokens.takeWhile (!·.isEof), t.isEof = false := by
    intro t ht
    have := List.all_eq_true.mp List.all_takeWhile t ht
    simpa using this
  have hremaining : stream.remaining = tokens.takeWhile (!·.isEof) ++ [last] := by
    rw [hstream]
    exact hsplit
  have hended := TokenStream.ended_of_remaining hremaining hbody hlast
  have hatoms : Parse.AllowsAtoms stream := fun i _ hlt => hdialect i hlt
  have hlastD : stream.remaining.getLastD stream.current = last := by
    rw [hremaining, List.getLastD_concat]
  constructor
  · intro m
    rw [hlastD]
    exact Parse.program_ok_iff hended hatoms hremaining hlast m
  · -- With as much room as the tokens need, the parser returns both.
    intro forms forms' hforms hforms'
    have hiff := Parse.forms_ok_iff (nesting (tokens.takeWhile (!·.isEof)))
      (s := { stream }) hended hatoms hremaining hlast
    obtain ⟨s, hrun⟩ := (hiff forms).mpr ⟨hforms, Nat.le_refl _⟩
    obtain ⟨s', hrun'⟩ := (hiff forms').mpr ⟨hforms', Nat.le_refl _⟩
    rw [hrun] at hrun'
    cases hrun'
    rfl

/-- A token on the first line. -/
def tokenAt (kind : TokenKind) (text : String) (start stop : Nat) : Token :=
  { kind, text, span := ⟨⟨start, 1, start + 1⟩, ⟨stop, 1, stop + 1⟩⟩ }

/-- A stream over tokens, all of which may stand at the top level. -/
def streamOf (tokens : List Token) : TokenStream :=
  { TokenStream.ofTokens tokens with switches := [⟨0, .sexpr⟩], table := none }

/-- The tokens of `(do-while ((inc! x)) -1)`: a head of three tokens, a block without a head and a
number of two tokens. -/
def loopTokens : List Token :=
  [tokenAt .operator "(" 0 1, tokenAt .keyword "do" 1 3, tokenAt .operator "-" 3 4,
   tokenAt .keyword "while" 4 9, tokenAt .operator "(" 10 11, tokenAt .operator "(" 11 12,
   tokenAt .keyword "inc!" 12 16, tokenAt .identifier "x" 17 18, tokenAt .operator ")" 18 19,
   tokenAt .operator ")" 19 20, tokenAt .operator "-" 21 22, tokenAt .number "1" 22 23,
   tokenAt .operator ")" 23 24]

/-- The tokens of a loop derive the tree that is parsed, and no other. -/
theorem loop_derives : ∃ mark forms s,
    parseProgram (streamOf loopTokens) = .ok (.program mark forms) s ∧
    Items Token.isOpen none loopTokens forms ∧ nesting loopTokens ≤ Limits.parseDepth ∧
    ∀ forms', Items Token.isOpen none loopTokens forms' → forms' = forms := by
  have hdialect : ∀ i, i + 1 < (streamOf loopTokens).size →
      (streamOf loopTokens).dialectAt i = .sexpr := by
    intro i _
    simp [streamOf, TokenStream.dialectAt]
  obtain ⟨hiff, hunique⟩ := parse_iff_derives loopTokens [⟨0, .sexpr⟩] none (streamOf loopTokens)
    rfl (by decide) hdialect
  have hsome : (EStateM.run' Parse.program { stream := streamOf loopTokens }).isSome = true := by
    decide +kernel
  cases hrun : parseProgram (streamOf loopTokens) with
  | error e s =>
    change Parse.program { stream := streamOf loopTokens } = _ at hrun
    delta EStateM.run' EStateM.run at hsome
    rw [hrun] at hsome
    exact absurd hsome Bool.false_ne_true
  | ok m s =>
    obtain ⟨forms, hitems, hnesting, rfl⟩ := (hiff m).mp ⟨s, hrun⟩
    exact ⟨_, forms, s, rfl, hitems, hnesting, fun forms' h => hunique forms' forms h hitems⟩

/-- The tokens of `(do-while () x)`. -/
def emptyBlockTokens : List Token :=
  [tokenAt .operator "(" 0 1, tokenAt .keyword "do" 1 3, tokenAt .operator "-" 3 4,
   tokenAt .keyword "while" 4 9, tokenAt .operator "(" 10 11, tokenAt .operator ")" 11 12,
   tokenAt .identifier "x" 13 14, tokenAt .operator ")" 14 15]

/-- If anything may come first in a block without a head, a block may be empty. -/
theorem emptyBlock_items : ∃ n, Items (fun _ => true) none emptyBlockTokens [n] := by
  have hhead : IsHead ((emptyBlockTokens.drop 1).take 3) (emptyBlockTokens.drop 4) .doWhile := by
    refine ⟨by simp [emptyBlockTokens, tokenAt, OneWord, Joinable, Adjacent, Token.isOpen,
      Token.isClose, Token.isSymbol], by decide, by decide, ?_⟩
    -- a head of three tokens cannot be longer
    intro more _ hne hlength
    have := List.length_pos_iff.mpr hne
    simp only [emptyBlockTokens, List.drop, List.take, List.length, longestHead] at hlength
    omega
  have hblock := @Block.bare (fun _ => true) (tokenAt .operator "(" 10 11)
    (tokenAt .operator ")" 11 12) [] [] (by decide) rfl .nil (Nat.zero_le _) (by decide)
  have hform := @Form.mk _ (tokenAt .operator "(" 0 1) (tokenAt .operator ")" 14 15) _ _ _ _ _
    (by decide) hhead (.doWhile hblock (.ident (t := tokenAt .identifier "x" 13 14) rfl))
    (by decide) rfl
  exact ⟨_, .cons (.expr (.form rfl hform)) .nil⟩

/-- **A block without a head is not empty.** If it could be, `(do-while () x)` would be a program,
and it is not. -/
theorem empty_block_refused : ¬ ∀ (tokens : List Token) (switches : List DialectSwitch)
    (table : Option LineTable) (stream : TokenStream),
    stream = { TokenStream.ofTokens tokens with switches, table } →
    (∀ t ∈ tokens.dropLast, t.isEof = false) →
    (∀ i, i + 1 < stream.size → stream.dialectAt i = .sexpr) →
    ∀ m, (∃ s, parseProgram stream = .ok m s) ↔
      ∃ forms, Items (fun _ => true) none (tokens.takeWhile (!·.isEof)) forms ∧
        nesting (tokens.takeWhile (!·.isEof)) ≤ Limits.parseDepth ∧
        m = .program ⟨stream.current.span.merge
          (stream.remaining.getLastD stream.current).span, none⟩ forms := by
  intro h
  have hdialect : ∀ i, i + 1 < (streamOf emptyBlockTokens).size →
      (streamOf emptyBlockTokens).dialectAt i = .sexpr := by
    intro i _
    simp [streamOf, TokenStream.dialectAt]
  have hfails : ∃ e s, parseProgram (streamOf emptyBlockTokens) = .error e s := ⟨_, _, rfl⟩
  obtain ⟨n, hitems⟩ := emptyBlock_items
  obtain ⟨s, hrun⟩ := (h emptyBlockTokens [⟨0, .sexpr⟩] none _ rfl (by decide) hdialect _).mpr
    ⟨[n], hitems, by decide, rfl⟩
  obtain ⟨e, s', hfails⟩ := hfails
  exact nomatch hrun.symm.trans hfails

end FormScript
