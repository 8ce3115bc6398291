import FormScript.Compile
import FormScript.Proofs.Reading

/-!
# Every place that is reported is a place of the text

Positions are made by the scanner and by nobody else: the parser hands on the spans of its tokens
or merges two of them, and the writer hands on the spans of nodes. So it is enough that the scanner
makes none but places of the text, and that each later step keeps to what it was given. For the
scanner that is an invariant of the run (`Scan.Placed`); for a step of a parse it is `Parse.Keeps`,
for a step of writing `Script.Blames`, both of which pass through sequencing, so that a function of
the parser or writer needs one lemma that follows its text.
-/

namespace FormScript

variable {source : List Char}

/-! ## Scanning -/

/-- Reading on from a place of the text leads to places of the text. -/
theorem Position.IsIn.after {before cs : List Char} (rest : List Char)
    (h : before ++ cs ++ rest = source) :
    ((Position.start.after before).after cs).IsIn source :=
  ⟨before ++ cs, rest, h, (Position.after_append _ _ _).symm⟩

/-- A fault is reported at the characters ahead that it concerns. -/
theorem Fault.isIn_errorAt (f : Fault) (before : List Char) {text : List Char}
    (h : before ++ text = source) :
    (f.errorAt (Position.start.after before) text).span.IsIn source := by
  have hskip : before ++ text.take f.skip ++ text.drop f.skip = source := by
    rw [List.append_assoc, List.take_append_drop, h]
  refine ⟨Position.IsIn.after _ hskip, ?_⟩
  show ((((Position.start.after before).after (text.take f.skip)).after
    ((text.drop f.skip).take f.width))).IsIn source
  rw [← Position.after_append]
  refine Position.IsIn.after ((text.drop f.skip).drop f.width) ?_
  rw [List.append_assoc, List.append_assoc, List.take_append_drop, List.take_append_drop, h]

theorem Lexeme.isIn_tokens {l : Lexeme} {before : List Char} (rest : List Char)
    (h : before ++ l.chars ++ rest = source) {t : Token}
    (ht : t ∈ l.tokens (Position.start.after before)) : t.span.IsIn source := by
  obtain ⟨a, b, ⟨a', ha⟩, ⟨b', hb⟩, hspan⟩ := Lexeme.tokens_span ht
  rw [hspan]
  refine ⟨Position.IsIn.after (a' ++ rest) ?_, Position.IsIn.after (b' ++ rest) ?_⟩
  · rw [← h, ← ha]
    simp only [List.append_assoc]
  · rw [← h, ← hb]
    simp only [List.append_assoc]

/-- The cursor has come through all that was read, and the tokens and the annotation that waits
were made at places of the text. -/
structure Scan.Placed (source before cs : List Char) (s : Scan) : Prop where
  split : before ++ cs = source
  cursor : s.cursor = Cursor.start.after before
  tokens : ∀ t ∈ s.tokens.toList, t.span.IsIn source
  pending : ∀ w span, s.pending = some (w, span) → span.IsIn source

namespace Scan

theorem Placed.position {before cs : List Char} {s : Scan} (h : Placed source before cs s) :
    s.cursor.position = Position.start.after before := by
  rw [h.cursor, Cursor.position_after]
  rfl

theorem Placed.accept {track : Bool} {before : List Char} {c : Char} {cs rest : List Char}
    {l : Lexeme} {s s' : Scan} (h : Placed source before (c :: cs) s)
    (hread : Lexeme.read c cs = .ok (l, rest)) (haccept : s.accept track l = .ok s') :
    Placed source (before ++ l.chars) rest s' := by
  obtain ⟨hcursor, htokens, hpending⟩ := accept_ok haccept
  have hsplit : before ++ l.chars ++ rest = source := by
    rw [List.append_assoc, (Lexeme.read_eq hread).1, h.split]
  refine ⟨hsplit, ?_, ?_, ?_⟩
  · rw [hcursor, h.cursor, Cursor.after_append]
  · intro t ht
    rw [htokens, List.mem_append] at ht
    rcases ht with ht | ht
    · exact h.tokens t ht
    · obtain ⟨u, hu, -, hspan⟩ := mem_carry ht
      rw [hspan]
      rw [h.position] at hu
      exact Lexeme.isIn_tokens rest hsplit hu
  · intro w span hw
    rw [hpending] at hw
    split at hw
    · rcases observe_pending s l with heq | ⟨v, -, heq⟩
      · exact h.pending w span (heq ▸ hw)
      · rw [heq, Option.some.injEq, Prod.mk.injEq, h.position] at hw
        rw [← hw.2]
        exact ⟨⟨before, _, h.split, rfl⟩, Position.IsIn.after rest hsplit⟩
    · cases hw

theorem placed_start (source : List Char) : Placed source [] source {} :=
  ⟨rfl, rfl, by simp, by simp⟩

theorem placed_of_ofSource {track : Bool} {s : Scan} (h : ofSource source track = .ok s) :
    s.cursor = Cursor.start.after source ∧ ∀ t ∈ s.tokens.toList, t.span.IsIn source := by
  obtain ⟨s', hrun, hfinish⟩ := ofSource_ok h
  have hplaced := run_invariant Placed.accept (placed_start source) hrun
  rw [List.nil_append] at hplaced
  obtain ⟨hcursor, -, htokens⟩ := finish_ok hfinish
  refine ⟨by rw [hcursor, hplaced.cursor], fun t ht => ?_⟩
  rw [htokens, List.mem_append, List.mem_append, List.mem_singleton] at ht
  rcases ht with (ht | ht) | rfl
  · exact hplaced.tokens t ht
  · obtain ⟨⟨w, span⟩, hw, rfl⟩ := Option.map_eq_some_iff.mp (Option.mem_toList.mp ht)
    exact hplaced.pending w span hw
  · have hend : (Position.start.after source).IsIn source := ⟨source, [], by simp, rfl⟩
    rw [hplaced.position]
    exact ⟨hend, hend⟩

theorem error_isIn {track : Bool} {s : Scan} {e : LexError}
    (h : ofSource source track = .error (e, s)) : e.span.IsIn source := by
  unfold ofSource at h
  split at h
  · -- A carriage return is looked for before anything is read, so it is counted from the start.
    rename_i e' hcr
    cases h
    unfold carriageReturn? at hcr
    dsimp only at hcr
    split at hcr
    · cases hcr
      exact Fault.isIn_errorAt _ [] rfl
    · cases hcr
  · cases hrun : run track {} source with
    | error e' =>
      rw [hrun] at h
      cases h
      obtain ⟨before, c, cs, s', hsplit, hplaced, hcases⟩ :=
        run_error Placed.accept (placed_start source) hrun
      -- Either no lexeme could be read, or one was and its tokens are too many.
      rcases hcases with ⟨f, -, rfl⟩ | ⟨l, rest, hread, haccept⟩
      · rw [hplaced.position]
        exact Fault.isIn_errorAt f before hplaced.split
      · obtain ⟨t, ht, hspan⟩ := accept_error haccept
        rw [hspan]
        rw [hplaced.position] at ht
        refine Lexeme.isIn_tokens rest ?_ ht
        rw [List.append_assoc, (Lexeme.read_eq hread).1, hplaced.split]
    | ok s' =>
      -- At the end only the annotation that waits can be at fault.
      rw [hrun] at h
      obtain ⟨w, span, hw, hspan⟩ := finish_error h
      have hplaced := run_invariant Placed.accept (placed_start source) hrun
      rw [hspan]
      exact hplaced.pending w span hw

end Scan

/-! ## Trees -/

namespace Node

theorem preorderOnto_eq (n : Node) (more : List Node) :
    n.preorderOnto more = n :: n.children.flatMap preorder ++ more := by
  have step : ∀ ns : List Node, (∀ c ∈ ns, ∀ more, c.preorderOnto more = c.preorder ++ more) →
      ∀ more, ns.foldr preorderOnto more = ns.flatMap preorder ++ more := by
    intro ns
    induction ns with
    | nil => simp
    | cons c ns ih =>
      intro h more
      rw [List.foldr_cons, ih (fun d hd => h d (List.mem_cons_of_mem _ hd)),
        h c List.mem_cons_self, List.flatMap_cons, List.append_assoc]
  have onto : ∀ k, ∀ n : Node, sizeOf n ≤ k → ∀ more,
      n.preorderOnto more = n :: n.children.flatMap preorder ++ more := by
    intro k
    induction k with
    | zero =>
      intro n hn
      cases n <;> simp at hn
    | succ k ih =>
      intro n hn more
      have hchild : ∀ c ∈ n.children, ∀ more, c.preorderOnto more = c.preorder ++ more := by
        intro c hc more
        have hlt := sizeOf_lt_of_mem_children hc
        rw [preorder, ih c (by omega), ih c (by omega), List.append_nil]
      rw [preorderOnto, List.foldr_attach, step _ hchild]
      rfl
  exact onto _ n (Nat.le_refl _) more

/-- A tree's nodes are the root and the nodes of the children. -/
theorem preorder_eq (n : Node) : n.preorder = n :: n.children.flatMap preorder := by
  rw [preorder, preorderOnto_eq, List.append_nil]

/-- Every node of the tree has a span between places of the text. -/
def Placed (source : List Char) (n : Node) : Prop := ∀ m ∈ n.preorder, m.span.IsIn source

theorem placed_iff {n : Node} :
    n.Placed source ↔ n.span.IsIn source ∧ ∀ c ∈ n.children, c.Placed source := by
  unfold Placed
  rw [preorder_eq]
  simp only [List.mem_cons, List.mem_flatMap]
  constructor
  · intro h
    exact ⟨h n (.inl rfl), fun c hc m hm => h m (.inr ⟨c, hc, hm⟩)⟩
  · rintro ⟨hn, hc⟩ m (rfl | ⟨c, hmem, hm⟩)
    · exact hn
    · exact hc c hmem m hm

end Node

/-! ## Parsing -/

/-- All tokens that are still ahead were made at places of the text. -/
def TokenStream.Placed (source : List Char) (s : TokenStream) : Prop :=
  ∀ t ∈ s.remaining, t.span.IsIn source

theorem TokenStream.Placed.advance {s : TokenStream} (h : s.Placed source) :
    s.advance.Placed source := by
  intro t ht
  unfold TokenStream.advance at ht
  split at ht
  · exact h t ht
  · rename_i u us hahead
    refine h t (List.mem_cons_of_mem _ ?_)
    rw [hahead]
    exact ht

theorem TokenStream.Placed.lookAhead {s : TokenStream} (h : s.Placed source) (n : Nat) :
    (s.lookAhead n).span.IsIn source := by
  refine h _ ?_
  unfold TokenStream.lookAhead TokenStream.remaining
  cases hn : (s.ahead.take n).getLast? with
  | none => simp [List.getLastD_eq_getLast?, hn]
  | some t =>
    rw [List.getLastD_eq_getLast?, hn]
    exact List.mem_cons_of_mem _ (List.mem_of_mem_take (List.mem_of_getLast? hn))

namespace Parse

variable {α β : Type}

/-- From tokens at places of the text, a step leads to a result with `Q` and to such tokens again,
or it stops at a place of the text. -/
def Keeps (source : List Char) (p : Parse α) (Q : α → Prop) : Prop :=
  ∀ s : Parsing, s.stream.Placed source →
    match p s with
    | .ok a s' => s'.stream.Placed source ∧ Q a
    | .error e _ => e.span.IsIn source

theorem Keeps.bind {p : Parse α} {f : α → Parse β} {Q : α → Prop} {R : β → Prop}
    (hp : Keeps source p Q) (hf : ∀ a, Q a → Keeps source (f a) R) :
    Keeps source (p >>= f) R := by
  intro s hs
  have h := hp s hs
  rw [show (p >>= f) s = EStateM.bind p f s from rfl, EStateM.bind]
  split at h
  · rename_i a s' heq
    rw [heq]
    exact hf a h.2 s' h.1
  · rename_i e s' heq
    rw [heq]
    exact h

theorem keeps_pure {a : α} {Q : α → Prop} (h : Q a) : Keeps source (pure a : Parse α) Q :=
  fun _ hs => ⟨hs, h⟩

theorem keeps_fail {cause : SyntaxCause} {span : Span} {Q : α → Prop} (h : span.IsIn source) :
    Keeps source (fail cause span : Parse α) Q :=
  fun _ _ => h

theorem keeps_unexpected {expected : String} {t : Token} {Q : α → Prop} (h : t.span.IsIn source) :
    Keeps source (unexpected expected t : Parse α) Q := by
  unfold unexpected
  split
  · exact keeps_fail h
  · exact keeps_fail h

theorem keeps_current : Keeps source current (·.span.IsIn source) :=
  fun _ hs => ⟨hs, hs _ List.mem_cons_self⟩

theorem keeps_following : Keeps source following (·.span.IsIn source) :=
  fun _ hs => ⟨hs, hs.lookAhead 1⟩

theorem keeps_advance : Keeps source advance (·.span.IsIn source) :=
  fun _ hs => ⟨hs.advance, hs _ List.mem_cons_self⟩

theorem keeps_number {text : String} {span : Span} (h : span.IsIn source) :
    Keeps source (number text span) fun _ => True := by
  unfold number
  split
  · split
    · exact keeps_pure trivial
    · exact keeps_fail h
  · exact keeps_fail h

/-- A node without children is placed where its token is. -/
theorem placed_atom {n : Node} (hn : n.children = []) (h : n.span.IsIn source) :
    n.Placed source :=
  Node.placed_iff.mpr ⟨h, by simp [hn]⟩

theorem keeps_negative {minus : Token} (h : minus.span.IsIn source) :
    Keeps source (negative minus) (Node.Placed source) := by
  refine keeps_advance.bind fun _ _ => keeps_advance.bind fun digits hdigits => ?_
  have hspan := h.merge hdigits
  refine (keeps_number hspan).bind fun x _ => keeps_pure ?_
  exact placed_atom rfl hspan

theorem keeps_expr {list : Parse Node} {expected : String}
    (hlist : Keeps source list (Node.Placed source)) :
    Keeps source (expr list expected) (Node.Placed source) := by
  refine keeps_current.bind fun t ht => ?_
  split
  · exact keeps_advance.bind fun _ _ => keeps_pure (placed_atom rfl ht)
  · refine keeps_advance.bind fun _ _ => (keeps_number ht).bind fun x _ => ?_
    exact keeps_pure (placed_atom rfl ht)
  · exact keeps_advance.bind fun _ _ => keeps_pure (placed_atom rfl ht)
  · split
    · exact hlist
    · refine keeps_following.bind fun next _ => ?_
      split
      · exact keeps_negative ht
      · exact keeps_unexpected ht
  · exact keeps_unexpected ht

theorem keeps_ident : Keeps source ident (Node.Placed source) := by
  refine keeps_current.bind fun t ht => ?_
  split
  · exact keeps_advance.bind fun _ _ => keeps_pure (placed_atom rfl ht)
  · exact keeps_unexpected ht

theorem keeps_str : Keeps source str (Node.Placed source) := by
  refine keeps_current.bind fun t ht => ?_
  split
  · exact keeps_advance.bind fun _ _ => keeps_pure (placed_atom rfl ht)
  · exact keeps_unexpected ht

theorem keeps_type : Keeps source type (Node.Placed source) := by
  refine keeps_current.bind fun t ht => ?_
  split
  · exact keeps_advance.bind fun _ _ => keeps_pure (placed_atom rfl ht)
  · split
    · exact keeps_pure (placed_atom rfl ht)
    · exact keeps_unexpected ht

theorem keeps_atFormEnd {head : FormHead} : Keeps source (atFormEnd head) fun _ => True := by
  refine keeps_current.bind fun t ht => ?_
  split
  · exact keeps_pure trivial
  · split
    · exact keeps_fail ht
    · exact keeps_pure trivial

theorem keeps_close {head : FormHead} : Keeps source (close head) (·.span.IsIn source) := by
  refine keeps_current.bind fun t ht => ?_
  split
  · exact keeps_advance
  · split
    · exact keeps_fail ht
    · exact keeps_unexpected ht

theorem keeps_items {item : Parse Node} {head : FormHead}
    (hitem : Keeps source item (Node.Placed source)) (room : Nat) (done : List Node)
    (hdone : ∀ n ∈ done, n.Placed source) :
    Keeps source (items item head room done) fun ns => ∀ n ∈ ns, n.Placed source := by
  induction room generalizing done with
  | zero =>
    refine keeps_atFormEnd.bind fun e _ => ?_
    split
    · exact keeps_pure (by simpa using hdone)
    · exact keeps_current.bind fun t ht => keeps_fail ht
  | succ room ih =>
    refine keeps_atFormEnd.bind fun e _ => ?_
    split
    · exact keeps_pure (by simpa using hdone)
    · refine hitem.bind fun n hn => ih (n :: done) ?_
      intro m hm
      rcases List.mem_cons.mp hm with rfl | hm
      · exact hn
      · exact hdone m hm

theorem isIn_join? {ts : List Token} {text : String} {span : Span}
    (hts : ∀ t ∈ ts, t.span.IsIn source) (h : join? ts = some (text, span)) :
    span.IsIn source := by
  fun_induction join? ts generalizing text span with
  | case1 => cases h
  | case2 t hj =>
    cases h
    exact hts t List.mem_cons_self
  | case3 => cases h
  | case4 t u rest hj ih =>
    obtain ⟨⟨text', span'⟩, hrest, heq⟩ := Option.map_eq_some_iff.mp h
    cases heq
    have hspan' := ih (fun v hv => hts v (List.mem_cons_of_mem _ hv)) hrest
    exact (hts t List.mem_cons_self).merge hspan'
  | case5 => cases h

theorem isIn_compound? {ts : List Token} {n : Nat} {text : String} {span : Span}
    (hts : ∀ t ∈ ts, t.span.IsIn source) (h : compound? ts = some (n, text, span)) :
    span.IsIn source := by
  unfold compound? at h
  obtain ⟨k, -, hk⟩ := List.exists_of_findSome?_eq_some h
  obtain ⟨⟨text', span'⟩, hjoin, hrecipe⟩ := Option.bind_eq_some_iff.mp hk
  dsimp only at hrecipe
  split at hrecipe
  · cases hrecipe
    exact isIn_join? (fun t ht => hts t (List.mem_of_mem_take ht)) hjoin
  · cases hrecipe

theorem keeps_skip (n : Nat) : Keeps source (skip n) fun _ => True := by
  induction n with
  | zero => exact keeps_pure trivial
  | succ n ih => exact keeps_advance.bind fun _ _ => ih

theorem keeps_head : Keeps source head fun h => h.2.1.IsIn source := by
  refine keeps_current.bind fun t ht => ?_
  split
  · exact keeps_fail ht
  · have hget : Keeps source (get : Parse Parsing) fun s => s.stream.Placed source :=
      fun _ hs => ⟨hs, hs⟩
    refine hget.bind fun s hs => ?_
    dsimp only
    split
    · rename_i n text span hfound
      refine (keeps_skip n).bind fun _ _ => ?_
      have hmodify : Keeps source
          (modify fun s => { s with joined := s.joined.push (text, n) } : Parse PUnit)
          fun _ => True := fun _ hs => ⟨hs, trivial⟩
      exact hmodify.bind fun _ _ => keeps_pure (isIn_compound? hs hfound)
    · exact keeps_advance.bind fun _ _ => keeps_pure ht

/-- Both parsers of a level keep to places of the text. -/
structure Level.Placed (source : List Char) (below : Level) : Prop where
  list : Keeps source below.list (Node.Placed source)
  bare : Keeps source below.bare (Node.Placed source)

theorem keeps_headed {below : Level} (hbelow : below.Placed source) (name : String) :
    Keeps source (headed below name) (Node.Placed source) := by
  refine keeps_current.bind fun t ht => keeps_following.bind fun next _ => ?_
  split
  · exact hbelow.list
  · exact keeps_unexpected ht

theorem keeps_block {below : Level} (hbelow : below.Placed source) :
    Keeps source (block below) (Node.Placed source) := by
  refine keeps_current.bind fun t ht => keeps_following.bind fun next _ => ?_
  split
  · exact keeps_fail ht
  split
  · exact keeps_fail ht
  split
  · exact hbelow.bare
  · refine hbelow.list.bind fun form hform => ?_
    split
    · exact keeps_pure hform
    · refine keeps_pure (Node.placed_iff.mpr ⟨(Node.placed_iff.mp hform).1, ?_⟩)
      simpa [Node.children] using hform

/-- What the slots of a form make is placed, once the form itself is. -/
theorem keeps_slots {below : Level} (hbelow : below.Placed source) (head : FormHead)
    (recipe : Recipe) :
    Keeps source (slots below head recipe)
      fun make => ∀ m : Mark, m.span.IsIn source → (make m).Placed source := by
  have hexpr : ∀ expected, Keeps source (expr below.list expected) (Node.Placed source) :=
    fun _ => keeps_expr hbelow.list
  have hrest : Keeps source
      (items (expr below.list "expression or ')'") head Limits.listChildren [])
      fun ns => ∀ n ∈ ns, n.Placed source := keeps_items (hexpr _) _ _ (by simp)
  cases recipe with
  | doc =>
    refine keeps_str.bind fun text ht => keeps_pure fun m hm => ?_
    exact Node.placed_iff.mpr ⟨hm, by simpa [Node.children] using ht⟩
  | declare | assign =>
    refine keeps_ident.bind fun name hname => (hexpr _).bind fun value hvalue => ?_
    refine keeps_pure fun m hm => Node.placed_iff.mpr ⟨hm, ?_⟩
    simp [Node.children, hname, hvalue]
  | increment | param =>
    refine keeps_ident.bind fun name hname => keeps_pure fun m hm => ?_
    exact Node.placed_iff.mpr ⟨hm, by simpa [Node.children] using hname⟩
  | result | unary =>
    refine (hexpr _).bind fun value hvalue => keeps_pure fun m hm => ?_
    exact Node.placed_iff.mpr ⟨hm, by simpa [Node.children] using hvalue⟩
  | cast =>
    refine (hexpr _).bind fun value hvalue => keeps_type.bind fun target htarget => ?_
    refine keeps_pure fun m hm => Node.placed_iff.mpr ⟨hm, ?_⟩
    simp [Node.children, hvalue, htarget]
  | member =>
    refine (hexpr _).bind fun object hobject => keeps_ident.bind fun property hproperty => ?_
    refine keeps_pure fun m hm => Node.placed_iff.mpr ⟨hm, ?_⟩
    simp [Node.children, hobject, hproperty]
  | doWhile =>
    refine (keeps_block hbelow).bind fun body hbody => (hexpr _).bind fun condition hcondition => ?_
    refine keeps_pure fun m hm => Node.placed_iff.mpr ⟨hm, ?_⟩
    simp [Node.children, hbody, hcondition]
  | binary op =>
    refine (hexpr _).bind fun left hleft => (hexpr _).bind fun right hright => ?_
    refine keeps_pure fun m hm => Node.placed_iff.mpr ⟨hm, ?_⟩
    simp [Node.children, hleft, hright]
  | choice =>
    refine (hexpr _).bind fun condition hcondition => (hexpr _).bind fun yes hyes =>
      (hexpr _).bind fun no hno => ?_
    refine keeps_pure fun m hm => Node.placed_iff.mpr ⟨hm, ?_⟩
    simp [Node.children, hcondition, hyes, hno]
  | sign one two =>
    refine (hexpr _).bind fun left hleft => keeps_atFormEnd.bind fun e _ => ?_
    split
    · refine keeps_pure fun m hm => Node.placed_iff.mpr ⟨hm, ?_⟩
      simpa [Node.children] using hleft
    · refine (hexpr _).bind fun right hright => ?_
      refine keeps_pure fun m hm => Node.placed_iff.mpr ⟨hm, ?_⟩
      simp [Node.children, hleft, hright]
  | branch =>
    refine (hexpr _).bind fun condition hcondition => (hexpr _).bind fun yes hyes =>
      keeps_atFormEnd.bind fun e _ => ?_
    split
    · refine keeps_pure fun m hm => Node.placed_iff.mpr ⟨hm, ?_⟩
      simp [Node.children, hcondition, hyes]
    · refine (hexpr _).bind fun no hno => ?_
      refine keeps_pure fun m hm => Node.placed_iff.mpr ⟨hm, ?_⟩
      simp [Node.children, hcondition, hyes, hno]
  | call =>
    refine (hexpr _).bind fun callee hcallee => hrest.bind fun args hargs => ?_
    refine keeps_pure fun m hm => Node.placed_iff.mpr ⟨hm, ?_⟩
    simpa [Node.children, hcallee] using hargs
  | block =>
    exact hrest.bind fun ns hns => keeps_pure fun m hm => Node.placed_iff.mpr ⟨hm, hns⟩
  | function =>
    refine (keeps_headed hbelow _).bind fun params hparams => hrest.bind fun body hbody => ?_
    refine keeps_pure fun m hm => Node.placed_iff.mpr ⟨hm, ?_⟩
    simpa [Node.children, hparams] using hbody
  | params =>
    refine (keeps_items (keeps_headed hbelow _) _ _ (by simp)).bind fun ns hns => ?_
    exact keeps_pure fun m hm => Node.placed_iff.mpr ⟨hm, hns⟩
  | forLess =>
    refine keeps_ident.bind fun var hvar => (hexpr _).bind fun start hstart =>
      (hexpr _).bind fun stop hstop => hrest.bind fun body hbody => ?_
    refine keeps_pure fun m hm => Node.placed_iff.mpr ⟨hm, ?_⟩
    simpa [Node.children, hvar, hstart, hstop] using hbody

theorem Keeps.inContext {p : Parse α} {Q : α → Prop} (h : Keeps source p Q) (name : String) :
    Keeps source (inContext name p) Q := by
  intro s hs
  have hkeeps := h { s with context := name :: s.context } hs
  cases hp : p { s with context := name :: s.context } with
  | ok a s' =>
    have hrun : Parse.inContext name p s = .ok a { s' with context := s'.context.tail } := by
      rw [Parse.inContext, hp]
    rw [hp] at hkeeps
    rw [hrun]
    exact hkeeps
  | error e s' =>
    have hrun : Parse.inContext name p s = .error e { s' with context := s'.context.tail } := by
      rw [Parse.inContext, hp]
    rw [hp] at hkeeps
    rw [hrun]
    exact hkeeps

theorem Keeps.nested {p : Parse α} {Q : α → Prop} (h : Keeps source p Q) :
    Keeps source (nested p) Q := by
  intro s hs
  have hkeeps := h { s with depth := s.depth + 1, deepest := max s.deepest (s.depth + 1) } hs
  cases hp : p { s with depth := s.depth + 1, deepest := max s.deepest (s.depth + 1) } with
  | ok a s' =>
    have hrun : Parse.nested p s = .ok a { s' with depth := s'.depth - 1 } := by
      rw [Parse.nested, hp]
    rw [hp] at hkeeps
    rw [hrun]
    exact hkeeps
  | error e s' =>
    have hrun : Parse.nested p s = .error e { s' with depth := s'.depth - 1 } := by
      rw [Parse.nested, hp]
    rw [hp] at hkeeps
    rw [hrun]
    exact hkeeps

theorem keeps_listBody {below : Level} (hbelow : below.Placed source) :
    Keeps source (listBody below) (Node.Placed source) := by
  refine keeps_advance.bind fun opening hopening => keeps_current.bind fun t ht => ?_
  split
  · exact keeps_advance.bind fun _ _ => keeps_fail (hopening.merge ht)
  split
  · exact keeps_fail ht
  · refine keeps_head.bind fun h hspan => ?_
    dsimp only
    split
    · exact keeps_fail hspan
    · refine ((keeps_slots hbelow _ _).inContext _).bind fun make hmake => ?_
      refine keeps_close.bind fun closing hclosing => keeps_pure ?_
      exact hmake _ (hopening.merge hclosing)

theorem keeps_bareBody {below : Level} (hbelow : below.Placed source) :
    Keeps source (bareBody below) (Node.Placed source) := by
  refine keeps_advance.bind fun opening hopening => ?_
  refine (keeps_items (keeps_expr hbelow.list) _ _ (by simp)).bind fun ns hns => ?_
  refine keeps_close.bind fun closing hclosing => keeps_pure ?_
  exact Node.placed_iff.mpr ⟨hopening.merge hclosing, hns⟩

/-- Nothing that is parsed inside parentheses, however deep, leaves the text. -/
theorem placed_level (room : Nat) : (level room).Placed source := by
  induction room with
  | zero =>
    have htooDeep : Keeps source tooDeep (Node.Placed source) :=
      keeps_current.bind fun t ht => keeps_fail ht
    exact ⟨htooDeep, htooDeep⟩
  | succ room ih => exact ⟨(keeps_listBody ih).nested, (keeps_bareBody ih).nested⟩

theorem keeps_topForm {top : Level} (htop : top.Placed source) :
    Keeps source (topForm top) (Node.Placed source) := by
  refine keeps_current.bind fun t ht => ?_
  have hget : Keeps source (get : Parse Parsing) fun _ => True := fun _ hs => ⟨hs, trivial⟩
  refine hget.bind fun s _ => ?_
  split
  · exact keeps_expr htop.list
  · split
    · exact htop.list
    · exact keeps_fail ht

theorem keeps_forms {top : Level} (htop : top.Placed source) (room : Nat) (done : List Node)
    (hdone : ∀ n ∈ done, n.Placed source) :
    Keeps source (forms top room done) fun ns => ∀ n ∈ ns, n.Placed source := by
  induction room generalizing done with
  | zero => exact keeps_pure (by simpa using hdone)
  | succ room ih =>
    refine keeps_current.bind fun t ht => ?_
    split
    · exact keeps_pure (by simpa using hdone)
    · refine (keeps_topForm htop).bind fun n hn => ih (n :: done) ?_
      intro m hm
      rcases List.mem_cons.mp hm with rfl | hm
      · exact hn
      · exact hdone m hm

theorem keeps_program : Keeps source program (Node.Placed source) := by
  refine keeps_current.bind fun first hfirst => ?_
  have hget : Keeps source (get : Parse Parsing) fun _ => True := fun _ hs => ⟨hs, trivial⟩
  refine hget.bind fun s _ => ?_
  refine (keeps_forms (placed_level _) _ _ (by simp)).bind fun ns hns => ?_
  refine keeps_current.bind fun last hlast => keeps_pure ?_
  exact Node.placed_iff.mpr ⟨hfirst.merge hlast, hns⟩

end Parse

/-! ## Writing -/

namespace Script

variable {α β : Type}

/-- If a step of writing stops, it does so at a place of the text. -/
def Blames (source : List Char) (p : Emit α) : Prop :=
  ∀ s : Emitting,
    match p s with
    | .ok _ _ => True
    | .error e _ => e.span.IsIn source

theorem Blames.bind {p : Emit α} {f : α → Emit β} (hp : Blames source p)
    (hf : ∀ a, Blames source (f a)) : Blames source (p >>= f) := by
  intro s
  have h := hp s
  rw [show (p >>= f) s = EStateM.bind p f s from rfl, EStateM.bind]
  split at h
  · rename_i a s' heq
    rw [heq]
    exact hf a s'
  · rename_i e s' heq
    rw [heq]
    exact h

theorem blames_pure {a : α} : Blames source (pure a : Emit α) := fun _ => trivial

theorem blames_line {text : String} : Blames source (line text) := fun _ => trivial

theorem blames_fail {cause : EmitCause} {span : Span} (h : span.IsIn source) :
    Blames source (fail cause span : Emit α) := fun _ => h

theorem Blames.nested {p : Emit α} (h : Blames source p) : Blames source (nested p) := by
  intro s
  have := h { s with
    depth := s.depth + 1
    tally := { s.tally with deepest := max s.tally.deepest (s.depth + 1) } }
  unfold Script.nested
  dsimp only
  split at this
  · rename_i heq
    rw [heq]
    exact trivial
  · rename_i heq
    rw [heq]
    exact this

theorem Blames.inScope {step : Emit String} (h : Blames source step) (isFunction : Bool)
    (bound : List String) : Blames source (inScope isFunction bound step) := by
  intro s
  have := h { s with
    scopes := bound.foldl Scope.declare { isFunction } :: s.scopes
    indent := s.indent + 1 }
  unfold Script.inScope
  dsimp only
  split at this
  · rename_i heq
    rw [heq]
    exact trivial
  · rename_i heq
    rw [heq]
    exact this

theorem blames_bindingName {n : Node} (h : n.Placed source) : Blames source (bindingName n) := by
  unfold bindingName
  split
  · exact blames_pure
  · exact blames_fail (Node.placed_iff.mp h).1

theorem blames_identifier {name : String} : Blames source (identifier name) := fun _ => trivial

theorem blames_declaration {name value : String} : Blames source (declaration name value) := by
  intro s
  unfold declaration
  cases s.isDeclaredHere name <;> exact trivial

theorem blames_assignment {name value : String} : Blames source (assignment name value) := by
  intro s
  unfold assignment
  cases s.isBound name
  · cases s.inFunctionScope <;> exact trivial
  · exact trivial

theorem blames_paramNames {ns : List Node} (h : ∀ n ∈ ns, n.Placed source) :
    Blames source (paramNames ns) := by
  fun_induction paramNames ns with
  | case1 => exact blames_pure
  | case2 m name rest ih =>
    have hparam := Node.placed_iff.mp (h _ List.mem_cons_self)
    refine (blames_bindingName (hparam.2 name List.mem_cons_self)).bind fun _ => ?_
    exact (ih fun n hn => h n (List.mem_cons_of_mem _ hn)).bind fun _ => blames_pure
  | case3 n rest => exact blames_fail (Node.placed_iff.mp (h n List.mem_cons_self)).1

theorem blames_sequence {write : Node → Emit String} {ns : List Node}
    (h : ∀ n ∈ ns, Blames source (write n)) (out : String) :
    Blames source (sequence write ns out) := by
  induction ns generalizing out with
  | nil => exact blames_pure
  | cons n ns ih =>
    refine (h n List.mem_cons_self).bind fun text => ?_
    exact ih (fun m hm => h m (List.mem_cons_of_mem _ hm)) _

theorem blames_each {write : Node → Emit String} {ns : List Node}
    (h : ∀ n ∈ ns, Blames source (write n)) (done : List String) :
    Blames source (each write ns done) := by
  induction ns generalizing done with
  | nil => exact blames_pure
  | cons n ns ih =>
    refine (h n List.mem_cons_self).bind fun text => ?_
    exact ih (fun m hm => h m (List.mem_cons_of_mem _ hm)) _

/-- Both writers of a level blame places of the text, for nodes that come from it. -/
structure Writer.Placed (source : List Char) (below : Writer) : Prop where
  stmt : ∀ n : Node, n.Placed source → Blames source (below.stmt n)
  expr : ∀ n : Node, n.Placed source → Blames source (below.expr n)

theorem blames_block {below : Writer} (hbelow : below.Placed source) (isFunction : Bool)
    (bound : List String) {body : List Node} (h : ∀ n ∈ body, n.Placed source) :
    Blames source (block below isFunction bound body) :=
  (blames_sequence (fun n hn => hbelow.stmt n (h n hn)) "").inScope isFunction bound

theorem placed_bodyOf {n : Node} (h : n.Placed source) : ∀ m ∈ bodyOf n, m.Placed source := by
  unfold bodyOf
  split
  · exact (Node.placed_iff.mp h).2
  · simpa using h

theorem blames_function {below : Writer} (hbelow : below.Placed source) {params : Node}
    {body : List Node} (hparams : params.Placed source) (hbody : ∀ n ∈ body, n.Placed source) :
    Blames source (function below params body) := by
  unfold function
  split
  · refine (blames_paramNames (Node.placed_iff.mp hparams).2).bind fun names => ?_
    refine (blames_block hbelow true names hbody).bind fun text => ?_
    exact Blames.bind (fun _ => trivial) fun _ => blames_pure
  · exact blames_fail (Node.placed_iff.mp hparams).1

theorem blames_exprBody {below : Writer} (hbelow : below.Placed source) {n : Node}
    (hn : n.Placed source) : Blames source (exprBody below n) := by
  obtain ⟨hspan, hchild⟩ := Node.placed_iff.mp hn
  have hexpr : ∀ c ∈ n.children, Blames source (below.expr c) :=
    fun c hc => hbelow.expr c (hchild c hc)
  cases n with
  | str | num => exact blames_pure
  | ident => exact blames_identifier
  | unary _ op a => exact (hexpr a (by simp [Node.children])).bind fun _ => blames_pure
  | binary _ op a b =>
    refine (hexpr a (by simp [Node.children])).bind fun _ => ?_
    exact (hexpr b (by simp [Node.children])).bind fun _ => blames_pure
  | function _ params body =>
    refine blames_function hbelow (hchild params (by simp [Node.children])) fun m hm => ?_
    exact hchild m (List.mem_cons_of_mem _ hm)
  | call _ callee args =>
    refine (hexpr callee (by simp [Node.children])).bind fun _ => ?_
    refine (blames_each (fun m hm => ?_) []).bind fun _ => blames_pure
    exact hexpr m (List.mem_cons_of_mem _ hm)
  | cast _ value target => exact (hexpr value (by simp [Node.children])).bind fun _ => blames_pure
  | branch _ a b d =>
    cases d with
    | none =>
      refine (hexpr a (by simp [Node.children])).bind fun _ => ?_
      exact (hexpr b (by simp [Node.children])).bind fun _ => blames_pure.bind fun _ => blames_pure
    | some d =>
      refine (hexpr a (by simp [Node.children])).bind fun _ => ?_
      refine (hexpr b (by simp [Node.children])).bind fun _ => ?_
      exact (hexpr d (by simp [Node.children])).bind fun _ => blames_pure
  | choice _ a b d =>
    refine (hexpr a (by simp [Node.children])).bind fun _ => ?_
    refine (hexpr b (by simp [Node.children])).bind fun _ => ?_
    exact (hexpr d (by simp [Node.children])).bind fun _ => blames_pure
  | member _ object property =>
    exact (hexpr object (by simp [Node.children])).bind fun _ => blames_pure
  | params | param | type | program | doc | declare | assign | increment | doWhile | result
  | forLess | block => exact blames_fail hspan

theorem blames_stmtBody {docs : Bool} {below : Writer} (hbelow : below.Placed source) {n : Node}
    (hn : n.Placed source) : Blames source (stmtBody docs below n) := by
  obtain ⟨hspan, hchild⟩ := Node.placed_iff.mp hn
  have hexpr : ∀ c ∈ n.children, Blames source (below.expr c) :=
    fun c hc => hbelow.expr c (hchild c hc)
  have hvalue : Blames source (do let text ← below.expr n; line s!"{text};") :=
    (hbelow.expr n hn).bind fun _ => blames_line
  cases n with
  | program _ ns | block _ ns => exact blames_sequence (fun m hm => hbelow.stmt m (hchild m hm)) ""
  | doc _ text =>
    intro s
    cases docs <;> cases text <;> exact trivial
  | declare _ name value =>
    refine (hexpr value (by simp [Node.children])).bind fun _ => ?_
    refine (blames_bindingName (hchild name (by simp [Node.children]))).bind fun _ => ?_
    exact blames_declaration
  | assign _ name value =>
    refine (hexpr value (by simp [Node.children])).bind fun _ => ?_
    refine (blames_bindingName (hchild name (by simp [Node.children]))).bind fun _ => ?_
    exact blames_assignment
  | increment _ name =>
    exact (blames_bindingName (hchild name (by simp [Node.children]))).bind fun _ => blames_line
  | result _ value => exact (hexpr value (by simp [Node.children])).bind fun _ => blames_line
  | forLess _ var start stop body =>
    refine (blames_bindingName (hchild var (by simp [Node.children]))).bind fun v => ?_
    refine (hexpr start (by simp [Node.children])).bind fun _ => ?_
    refine (hexpr stop (by simp [Node.children])).bind fun _ => blames_line.bind fun _ => ?_
    refine (blames_block hbelow false [v] fun m hm => hchild m ?_).bind fun _ => ?_
    · simp [Node.children, hm]
    · exact blames_line.bind fun _ => blames_pure
  | doWhile _ body condition =>
    refine blames_line.bind fun _ => ?_
    refine (blames_block hbelow false [] (placed_bodyOf (hchild body ?_))).bind fun _ => ?_
    · simp [Node.children]
    · refine (hexpr condition (by simp [Node.children])).bind fun _ => ?_
      exact blames_line.bind fun _ => blames_pure
  | branch _ condition yes no =>
    have hclose : ∀ out : String, Blames source (do
        let closing ← line "\x7d"
        pure (out ++ closing)) := fun _ => blames_line.bind fun _ => blames_pure
    refine (hexpr condition (by cases no <;> simp [Node.children])).bind fun _ => ?_
    refine blames_line.bind fun _ => ?_
    refine (blames_block hbelow false [] (placed_bodyOf (hchild yes ?_))).bind fun _ => ?_
    · cases no <;> simp [Node.children]
    cases no with
    | none => exact blames_pure.bind fun _ => hclose _
    | some no =>
      refine blames_line.bind fun _ => ?_
      refine (blames_block hbelow false [] (placed_bodyOf (hchild no ?_))).bind fun _ => ?_
      · simp [Node.children]
      · exact blames_pure.bind fun _ => hclose _
  | params | param | type => exact blames_fail hspan
  | str | num | ident | unary | binary | function | call | cast | choice | member => exact hvalue

/-- Nothing that is written, however deep, blames a place outside the text. -/
theorem placed_writer (docs : Bool) (room : Nat) : (writer docs room).Placed source := by
  induction room with
  | zero =>
    have htooDeep : ∀ n : Node, n.Placed source → Blames source (tooDeep n) :=
      fun n hn => blames_fail (Node.placed_iff.mp hn).1
    exact ⟨htooDeep, htooDeep⟩
  | succ room ih =>
    refine ⟨fun n hn => ?_, fun n hn => ?_⟩
    · exact (Blames.bind (fun _ => trivial) fun _ => blames_stmtBody ih hn).nested
    · exact (Blames.bind (fun _ => trivial) fun _ => blames_exprBody ih hn).nested

theorem blames_program (docs : Bool) {n : Node} (hn : n.Placed source) :
    Blames source (program docs n) := by
  have hwriter : (writer docs Limits.emitDepth).Placed source := placed_writer docs _
  have hget : Blames source (get : Emit Emitting) := fun _ => trivial
  unfold program
  split
  · rename_i m forms
    have hforms := blames_sequence
      (fun f hf => hwriter.stmt f ((Node.placed_iff.mp hn).2 f hf)) ""
    refine hforms.bind fun out => hget.bind fun s => ?_
    split <;> exact blames_pure
  · refine (hwriter.stmt _ hn).bind fun out => hget.bind fun s => ?_
    split <;> exact blames_pure

end Script

/-! ## The whole way -/

theorem Scan.placed_stream {track : Bool} {s : Scan} (h : ofSource source track = .ok s) :
    (s.stream source).Placed source := by
  unfold TokenStream.Placed
  rw [stream_remaining h]
  exact (placed_of_ofSource h).2

/-- The line starts met during the scan are those of the text. -/
theorem Scan.table_stream {track : Bool} {s : Scan} (h : ofSource source track = .ok s) :
    s.cursor.lineStarts.toList = (LineTable.ofSource source).starts ∧
      (s.stream source).table = some (.ofSource source) := by
  obtain ⟨hcursor, -⟩ := placed_of_ofSource h
  refine ⟨by rw [hcursor]; rfl, ?_⟩
  show some (LineTable.ofStarts source s.cursor.lineStarts.toList) = _
  rw [hcursor, LineTable.ofStarts_lineStarts]

theorem parseProgram_placed {stream : TokenStream} (h : stream.Placed source) :
    match parseProgram stream with
    | .ok tree _ => tree.Placed source
    | .error e _ => e.span.IsIn source := by
  have := Parse.keeps_program { stream } h
  unfold parseProgram
  split at this
  · rename_i heq
    rw [heq]
    exact this.2
  · rename_i heq
    rw [heq]
    exact this

theorem writeScript_error_isIn {options : ScriptOptions} {n : Node} {e : EmitError}
    {s : Emitting} (hn : n.Placed source) (h : writeScript options n = .error e s) :
    e.span.IsIn source := by
  have := Script.blames_program options.docComments hn { scopes := [{ isFunction := true }] }
  unfold writeScript at h
  split at h
  · cases h
  · rename_i heq
    cases h
    rwa [heq] at this

theorem compile_error_isIn {p : Preferences} {e : CompileError}
    (h : compile p source = .error e) : e.span.IsIn source := by
  unfold compile attempt at h
  split at h
  · rename_i e' scan hscan
    cases h
    exact Scan.error_isIn hscan
  · rename_i scan hscan
    have hparse := parseProgram_placed (Scan.placed_stream hscan)
    split at h
    · rename_i e' s heq
      cases h
      rwa [heq] at hparse
    · rename_i tree s heq
      rw [heq] at hparse
      split at h
      · rename_i e' s' hwrite
        cases h
        exact writeScript_error_isIn hparse hwrite
      · cases h

/-- **Every place that is reported is right.** The lines recorded while scanning are the lines of
the text, and the spans of tokens, of the nodes of the tree and of every error begin and end where
the text's own line table finds their offsets. A scan counts lines and columns as it reads; that it
comes to the same places as a scanner which goes by offsets, records each line start where it meets
the newline and looks every place up in the part of the table that it has recorded by then, is
`Bytewise.tokenize_eq`. -/
theorem reported_spans_resolve (source : List Char) :
    (∀ track s, Scan.ofSource source track = .ok s →
      s.cursor.lineStarts.toList = (LineTable.ofSource source).starts) ∧
    (∀ track stream tally, tokenize source track = .ok (stream, tally) →
      stream.table = some (.ofSource source) ∧
        (∀ t ∈ stream.remaining, t.span.Resolves source) ∧
        ∀ tree s, parseProgram stream = .ok tree s → ∀ n ∈ tree.preorder, n.span.Resolves source) ∧
    ∀ p e, compile p source = .error e → e.span.Resolves source := by
  refine ⟨fun track s h => (Scan.table_stream h).1, ?_,
    fun p e h => (compile_error_isIn h).resolves⟩
  intro track stream tally h
  obtain ⟨s, hs, rfl, -⟩ := Scan.ofSource_of_tokenize h
  have hplaced := Scan.placed_stream hs
  refine ⟨(Scan.table_stream hs).2, fun t ht => (hplaced t ht).resolves, ?_⟩
  intro tree parsing hparse n hn
  have := parseProgram_placed hplaced
  rw [hparse] at this
  exact (this n hn).resolves

end FormScript
