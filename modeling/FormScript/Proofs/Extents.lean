import FormScript.Proofs.Fusing

/-!
# How far nodes reach

Every node of a parsed tree has a span, put together from the spans of tokens. Spans of children lie
inside that of their parent, one behind the other, and a form reaches from its opening parenthesis
to its closing one: **`spans_nest`**.

What makes this more than a look at the rules are the parentheses that nobody wrote. A dotted name
brings along parentheses without text, so one of them might be paired with one that is written, and
the text of the form would then begin or end anywhere. It does not happen because the tokens of a
text come in groups (`Grouped`), a dotted name being one group, and rules cut a sequence of groups
only between groups.

Both facts are of a kind: they relate tokens to the nodes that they spell, and they can be put
together rule by rule. So the induction over the rules is done once, for every such relation
(`Composes`).
-/

namespace FormScript

variable {source : List Char}

/-! ## Spans in order -/

/-- The spans stand one behind the other between two offsets. -/
def Spread : Nat → List Span → Nat → Prop
  | a, [], b => a ≤ b
  | a, s :: ss, b => a ≤ s.start.offset ∧ s.start.offset ≤ s.stop.offset ∧ Spread s.stop.offset ss b

namespace Spread

variable {a b c : Nat} {ss ts : List Span}

theorem le (h : Spread a ss b) : a ≤ b := by
  induction ss generalizing a with
  | nil => exact h
  | cons s ss ih => exact Nat.le_trans (Nat.le_trans h.1 h.2.1) (ih h.2.2)

theorem append (h : Spread a ss b) (h' : Spread b ts c) : Spread a (ss ++ ts) c := by
  induction ss generalizing a with
  | nil =>
    cases ts with
    | nil => exact Nat.le_trans h h'
    | cons t ts => exact ⟨Nat.le_trans h h'.1, h'.2⟩
  | cons s ss ih => exact ⟨h.1, h.2.1, ih h.2.2⟩

theorem split (h : Spread a (ss ++ ts) c) : ∃ b, Spread a ss b ∧ Spread b ts c := by
  induction ss generalizing a with
  | nil => exact ⟨a, Nat.le_refl a, h⟩
  | cons s ss ih =>
    obtain ⟨b, hss, hts⟩ := ih h.2.2
    exact ⟨b, ⟨h.1, h.2.1, hss⟩, hts⟩

theorem weaken (h : Spread a ss b) {b' : Nat} (hle : b ≤ b') : Spread a ss b' := by
  have := h.append (show Spread b [] b' from hle)
  rwa [List.append_nil] at this

theorem within (h : Spread a ss b) :
    ∀ s ∈ ss, a ≤ s.start.offset ∧ s.start.offset ≤ s.stop.offset ∧ s.stop.offset ≤ b := by
  induction ss generalizing a with
  | nil => exact List.forall_mem_nil _
  | cons s ss ih =>
    refine List.forall_mem_cons.mpr ⟨⟨h.1, h.2.1, h.2.2.le⟩, fun t ht => ?_⟩
    have := ih h.2.2 t ht
    have := h.1
    have := h.2.1
    omega

theorem pairwise (h : Spread a ss b) :
    ss.Pairwise fun s t => s.stop.offset ≤ t.start.offset := by
  induction ss generalizing a with
  | nil => exact .nil
  | cons s ss ih => exact List.pairwise_cons.mpr ⟨fun t ht => (h.2.2.within t ht).1, ih h.2.2⟩

end Spread

/-- Where the second span follows the first, merging them takes the start of one and the stop of the
other. -/
theorem Span.merge_offsets {s t : Span} (hstart : s.start.offset ≤ t.start.offset)
    (hstop : s.stop.offset ≤ t.stop.offset) : (s.merge t).start.offset = s.start.offset ∧
      (s.merge t).stop.offset = t.stop.offset := by
  unfold Span.merge
  rw [if_pos hstart]
  refine ⟨rfl, ?_⟩
  dsimp only
  split
  · omega
  · rfl

/-- The tokens of a text stand in order. -/
theorem Laid.spread {a b : List Char} {ts : List Token} (h : Laid source a ts b) :
    Spread (byteLength a) (ts.map Token.span) (byteLength b) := by
  induction h with
  | nil => exact Nat.le_refl _
  | @cons past gap slice after upto t ts split span _ _ _ ih =>
    have hstart : t.span.start.offset = byteLength (past ++ gap) := by
      rw [span, offset_start_after]
    have hstop : t.span.stop.offset = byteLength (past ++ gap ++ slice) := by
      rw [span, offset_start_after]
    refine ⟨?_, ?_, ?_⟩
    · rw [hstart, byteLength_append]
      omega
    · rw [hstart, hstop, byteLength_append (past ++ gap)]
      omega
    · rwa [hstop]

/-! ## Facts that are put together rule by rule -/

/-- Whether a node is spelled by a form. All but atoms, types and whole programs are. -/
def Node.isForm : Node → Bool
  | str .. | num .. | ident .. | type .. | program .. => false
  | _ => true

/-- The children of a node stand one behind the other inside its span. -/
def Node.Nested (n : Node) : Prop :=
  Spread n.span.start.offset (n.children.map Node.span) n.span.stop.offset

namespace Grammar

/-- The children of a node are spelled by the tokens, apart from a type that may stand on the token
behind them. -/
def Parts (R : List Token → List Node → Prop) (ts : List Token) (next : Token) (n : Node) : Prop :=
  ∃ ns, R ts ns ∧
    (n.children = ns ∨ ∃ m name, n.children = ns ++ [.type m name] ∧ m.span = next.span)

/-- A relation between tokens and the nodes they spell that every rule keeps. -/
structure Composes (R : List Token → List Node → Prop) : Prop where
  nil : R [] []
  append : ∀ {ts us ns ms}, R ts ns → R us ms → R (ts ++ us) (ns ++ ms)
  atom : ∀ {t n}, t.isOpen = false → n.children = [] → n.isForm = false → n.span = t.span →
    R [t] [n]
  number : ∀ {minus digits m x text}, minus.isOpen = false → digits.isOpen = false →
    m.span = minus.span.merge digits.span → R [minus, digits] [.num m x text]
  form : ∀ {opening closing run ts n}, Form Token.isOpen (opening :: (run ++ ts) ++ [closing]) n →
    opening.isOpen = true → OneWord run → closing.isClose = true → Parts R ts closing n →
    n.isForm = true → n.span = opening.span.merge closing.span →
    R (opening :: (run ++ ts) ++ [closing]) [n]
  bare : ∀ {opening first closing ts ns m}, opening.isOpen = true → first.isOpen = true →
    closing.isClose = true → R (first :: ts) ns → m.span = opening.span.merge closing.span →
    R (opening :: first :: ts ++ [closing]) [.block m ns]
  wrap : ∀ {ts n}, n.isForm = true → (∀ m ns, n ≠ .block m ns) → R ts [n] →
    R ts [.block ⟨n.span, none⟩ [n]]

namespace Composes

variable {R : List Token → List Node → Prop} (hR : Composes R)

include hR

theorem cons {t : Token} {ts : List Token} {n : Node} {ns : List Node} (h : R [t] [n])
    (h' : R ts ns) : R (t :: ts) (n :: ns) :=
  hR.append h h'

theorem ident {t : Token} (kind : t.kind = .identifier) : R [t] [identOf t] :=
  hR.atom (not_paren_of_kind (by rw [kind]; rfl)).1 rfl rfl rfl

theorem str {t : Token} (kind : t.kind = .string) : R [t] [strOf t] :=
  hR.atom (not_paren_of_kind (by rw [kind]; rfl)).1 rfl rfl rfl

theorem type {t : Token} (kind : t.kind = .identifier) : R [t] [.type ⟨t.span, none⟩ t.text] :=
  hR.atom (not_paren_of_kind (by rw [kind]; rfl)).1 rfl rfl rfl

theorem asBlock {ts : List Token} {n : Node} (hform : n.isForm = true) (h : R ts [n]) :
    R ts [asBlock n] := by
  cases n with
  | block => exact h
  | _ => exact hR.wrap hform (fun _ _ h => by cases h) h

end Composes

/-- All children are spelled by the tokens of the slots. -/
theorem Parts.all {R : List Token → List Node → Prop} {ts : List Token} {next : Token} {n : Node}
    (h : R ts n.children) : Parts R ts next n := ⟨n.children, h, .inl rfl⟩

/-! **What every rule keeps holds of whatever is derived.** -/

variable {R : List Token → List Node → Prop}

mutual

theorem Expr.composes {ts : List Token} {n : Node} (hR : Composes R) :
    Expr Token.isOpen ts n → R ts [n]
  | .str kind => hR.str kind
  | .num kind _ => hR.atom (not_paren_of_kind (by rw [kind]; rfl)).1 rfl rfl rfl
  | .ident kind => hR.ident kind
  | .negative _ text kind _ _ =>
    hR.number (by simp [Token.isOpen, Token.isSymbol, text])
      (not_paren_of_kind (by rw [kind]; rfl)).1 rfl
  | .form _ form => (form.composes hR).1

theorem Form.composes {ts : List Token} {n : Node} (hR : Composes R) :
    Form Token.isOpen ts n → R ts [n] ∧ n.isForm = true
  | .mk opened head slots closed node => by
    obtain ⟨hparts, hform, hspan⟩ := slots.composes hR ⟨_, _⟩
    rw [node] at hparts hform hspan
    exact ⟨hR.form (.mk opened head slots closed node) opened head.joined closed hparts hform hspan,
      hform⟩

theorem Slots.composes {recipe : Recipe} {ts : List Token} {next : Token} {make : Mark → Node}
    (hR : Composes R) : Slots Token.isOpen recipe ts next make → ∀ m,
      Parts R ts next (make m) ∧ (make m).isForm = true ∧ (make m).span = m.span
  | .doc kind, _ => ⟨.all (hR.str kind), rfl, rfl⟩
  | .declare kind value, _ => ⟨.all (hR.cons (hR.ident kind) (value.composes hR)), rfl, rfl⟩
  | .assign kind value, _ => ⟨.all (hR.cons (hR.ident kind) (value.composes hR)), rfl, rfl⟩
  | .increment kind, _ => ⟨.all (hR.ident kind), rfl, rfl⟩
  | .result value, _ => ⟨.all (value.composes hR), rfl, rfl⟩
  | .cast value kind, _ => ⟨.all (hR.append (value.composes hR) (hR.type kind)), rfl, rfl⟩
  | .castByClose value _ _, _ => ⟨⟨_, value.composes hR, .inr ⟨_, _, rfl, rfl⟩⟩, rfl, rfl⟩
  | .param kind, _ => ⟨.all (hR.ident kind), rfl, rfl⟩
  | .choice a b c, _ =>
    ⟨.all (hR.append (a.composes hR) (hR.append (b.composes hR) (c.composes hR))), rfl, rfl⟩
  | .member object kind, _ => ⟨.all (hR.append (object.composes hR) (hR.ident kind)), rfl, rfl⟩
  | .doWhile body condition, _ =>
    ⟨.all (hR.append (body.composes hR) (condition.composes hR)), rfl, rfl⟩
  | .binary a b, _ => ⟨.all (hR.append (a.composes hR) (b.composes hR)), rfl, rfl⟩
  | .signOne a _, _ => ⟨.all (a.composes hR), rfl, rfl⟩
  | .signTwo a b, _ => ⟨.all (hR.append (a.composes hR) (b.composes hR)), rfl, rfl⟩
  | .unary a, _ => ⟨.all (a.composes hR), rfl, rfl⟩
  | .branch a b _, _ => ⟨.all (hR.append (a.composes hR) (b.composes hR)), rfl, rfl⟩
  | .branchElse a b c, _ =>
    ⟨.all (hR.append (a.composes hR) (hR.append (b.composes hR) (c.composes hR))), rfl, rfl⟩
  | .call callee items _ _, _ =>
    ⟨.all (hR.append (callee.composes hR) (items.composes hR)), rfl, rfl⟩
  | .block items _ _, _ => ⟨.all (items.composes hR), rfl, rfl⟩
  | .function params items _ _, _ =>
    ⟨.all (hR.append (params.composes hR) (items.composes hR)), rfl, rfl⟩
  | .params items _ _, _ => ⟨.all (items.composes hR), rfl, rfl⟩
  | .forLess kind a b items _ _, _ =>
    ⟨.all (hR.cons (hR.ident kind)
      (hR.append (a.composes hR) (hR.append (b.composes hR) (items.composes hR)))), rfl, rfl⟩

theorem Block.composes {ts : List Token} {n : Node} (hR : Composes R) :
    Block Token.isOpen ts n → R ts [n]
  | @Block.bare _ _ _ [] _ _ first _ _ closed => by
    -- With nothing in the block its first token would be the one that closes it.
    exact absurd first (by simp [isOpen_of_isClose closed])
  | @Block.bare _ _ _ (_ :: _) _ opened first items _ closed =>
    hR.bare opened first closed (items.composes hR) rfl
  | .form form node => node ▸ hR.asBlock (form.composes hR).2 (form.composes hR).1

theorem Item.composes {head : Option String} {ts : List Token} {n : Node} (hR : Composes R) :
    Item Token.isOpen head ts n → R ts [n]
  | .expr expr => expr.composes hR
  | .headed _ form => (form.composes hR).1

theorem Items.composes {head : Option String} {ts : List Token} {ns : List Node} (hR : Composes R) :
    Items Token.isOpen head ts ns → R ts ns
  | .nil => hR.nil
  | .cons first more => hR.append (first.composes hR) (more.composes hR)

end

/-! ## Nodes in order -/

/-- Wherever the tokens stand in order, so do the nodes, and the nodes below them. -/
def Fills (ts : List Token) (ns : List Node) : Prop :=
  ∀ a b, Spread a (ts.map Token.span) b →
    Spread a (ns.map Node.span) b ∧ ∀ n ∈ ns, n.Everywhere Node.Nested

theorem Fills.append {ts us : List Token} {ns ms : List Node} (h : Fills ts ns) (h' : Fills us ms) :
    Fills (ts ++ us) (ns ++ ms) := by
  intro a c hspread
  rw [List.map_append] at hspread
  obtain ⟨b, hts, hus⟩ := hspread.split
  obtain ⟨hns, hbelow⟩ := h a b hts
  obtain ⟨hms, hbelow'⟩ := h' b c hus
  rw [List.map_append]
  exact ⟨hns.append hms, List.forall_mem_append.mpr ⟨hbelow, hbelow'⟩⟩

/-- A node without children that stands where some token does. -/
theorem fills_leaf {t : Token} {n : Node} (hleaf : n.children = []) (hspan : n.span = t.span) :
    Fills [t] [n] := by
  rintro a b ⟨hstart, hle, hstop⟩
  refine ⟨⟨hspan ▸ hstart, hspan ▸ hle, hspan ▸ hstop⟩, List.forall_mem_singleton.mpr ?_⟩
  refine .intro ?_ (by rw [hleaf]; exact List.forall_mem_nil _)
  rw [Node.Nested, hleaf, hspan]
  exact hle

/-- **A form** reaches from parenthesis to parenthesis, and its children stand in between. -/
theorem fills_enclosed {opening closing : Token} {ts : List Token} {n : Node}
    (hparts : Parts Fills ts closing n) (hspan : n.span = opening.span.merge closing.span) :
    Fills (opening :: ts ++ [closing]) [n] := by
  rintro a b ⟨hopening, hupright, hmore⟩
  rw [List.append_eq, List.map_append] at hmore
  obtain ⟨c, hts, hclosing, hupright', hb⟩ := hmore.split
  have hc := hts.le
  obtain ⟨hstart, hstop⟩ : n.span.start.offset = opening.span.start.offset ∧
      n.span.stop.offset = closing.span.stop.offset := by
    rw [hspan]
    exact Span.merge_offsets (by omega) (by omega)
  obtain ⟨ns, hns, hchildren⟩ := hparts
  obtain ⟨hspread, hbelow⟩ := hns opening.span.stop.offset c hts
  have hchild : Spread opening.span.stop.offset (n.children.map Node.span)
      closing.span.stop.offset ∧ ∀ m ∈ n.children, m.Everywhere Node.Nested := by
    rcases hchildren with h | ⟨m, name, h, hm⟩
    · rw [h]
      exact ⟨hspread.weaken (by omega), hbelow⟩
    · obtain ⟨htype, hleaf⟩ :=
        @fills_leaf closing (.type m name) rfl hm c _ ⟨hclosing, hupright', Nat.le_refl _⟩
      rw [h, List.map_append]
      exact ⟨hspread.append htype, List.forall_mem_append.mpr ⟨hbelow, hleaf⟩⟩
  refine ⟨⟨by omega, by omega, by rwa [hstop]⟩, List.forall_mem_singleton.mpr ?_⟩
  refine .intro ?_ hchild.2
  rw [Node.Nested, hstart, hstop]
  exact Spread.append (show Spread _ [] _ from hupright) hchild.1

theorem composes_fills : Composes Fills where
  nil := fun a b h => ⟨h, List.forall_mem_nil _⟩
  append := Fills.append
  atom := fun _ hleaf _ hspan => fills_leaf hleaf hspan
  number := by
    rintro minus digits m x text - - hspan a b ⟨hminus, hupright, hdigits, hupright', hb⟩
    have hm := Span.merge_offsets (s := minus.span) (t := digits.span) (by omega) (by omega)
    rw [← hspan] at hm
    obtain ⟨hstart, hstop⟩ := hm
    have hle : m.span.start.offset ≤ m.span.stop.offset := by omega
    refine ⟨⟨?_, hle, ?_⟩, List.forall_mem_singleton.mpr (.intro hle (List.forall_mem_nil _))⟩
    · exact hstart ▸ hminus
    · exact hstop ▸ hb
  form := by
    intro opening closing run ts n _ _ _ _ hparts _ hspan
    refine fills_enclosed ?_ hspan
    -- The head spells no node, it only takes room.
    obtain ⟨ns, hns, hchildren⟩ := hparts
    have hhead : Fills run [] := fun a b h => ⟨h.le, List.forall_mem_nil _⟩
    exact ⟨ns, hhead.append hns, hchildren⟩
  bare := fun _ _ _ hns hspan => fills_enclosed ⟨_, hns, .inl rfl⟩ hspan
  wrap := by
    intro ts n _ _ h a b hspread
    obtain ⟨hn, hbelow⟩ := h a b hspread
    refine ⟨hn, List.forall_mem_singleton.mpr (.intro ?_ hbelow)⟩
    exact ⟨Nat.le_refl _, hn.2.1, Nat.le_refl _⟩

end Grammar

/-! ## Dotted names -/

/-- The tokens of a name whose first word stands at a position, if the name has points in it. -/
def nameTokens (p : Position) (first : List Char) (more : List (List Char)) : List Token :=
  memberOpenings p more.length ++
    { kind := .identifier, text := String.ofList first, span := ⟨p, p.after first⟩ } ::
      memberTokens (p.after first) more

theorem memberTokens_concat (p : Position) (ws : List (List Char)) (w : List Char) :
    memberTokens p (ws ++ [w])
      = memberTokens p ws ++ memberTokens (p.after (ws.flatMap ('.' :: ·))) [w] := by
  induction ws generalizing p with
  | nil => rfl
  | cons v ws ih =>
    rw [List.cons_append, memberTokens, memberTokens, ih, List.flatMap_cons, Position.after_append]
    rfl

theorem nameTokens_ascription {p : Position} {first : List Char} {ws : List (List Char)} {t : Token}
    (ht : t ∈ nameTokens p first ws) :
    t.ascription = none ∧ t.kind ≠ .ascription ∧ t.kind ≠ .eof := by
  rcases List.mem_append.mp ht with ht | ht
  · exact memberOpenings_ascription ht
  rcases List.mem_cons.mp ht with rfl | ht
  · exact ⟨rfl, by simp⟩
  · exact memberTokens_ascription ht

theorem nameTokens_plain {p : Position} {first : List Char} {ws : List (List Char)} :
    ∀ t ∈ nameTokens p first ws, t.ascription = none :=
  fun _ ht => (nameTokens_ascription ht).1

theorem chars_name_concat (first w : List Char) (ws : List (List Char)) :
    (Lexeme.name first (ws ++ [w])).chars = (Lexeme.name first ws).chars ++ '.' :: w := by
  simp [Lexeme.chars]

/-- One more word goes around what was there: two more tokens in front, and two behind. -/
theorem nameTokens_concat (p : Position) (first w : List Char) (ws : List (List Char)) :
    nameTokens p first (ws ++ [w])
      = { kind := .operator, text := "(", span := .point p } ::
        { kind := .operator, text := ".", span := .point p } ::
        (nameTokens p first ws ++ memberTokens (p.after (Lexeme.name first ws).chars) [w]) := by
  rw [nameTokens, memberTokens_concat, List.length_append, List.length_singleton, memberOpenings,
    nameTokens, ← Position.after_append, Lexeme.chars, List.append_assoc]
  rfl

/-- The same with an annotation, which rides on the outermost parenthesis. -/
theorem exists_nameTokens_concat (a : Option String) (p : Position) (first w : List Char)
    (ws : List (List Char)) : ∃ opening point word closing : Token,
      carry a (nameTokens p first (ws ++ [w]))
        = opening :: point :: (nameTokens p first ws ++ [word, closing]) ∧
      (opening.kind = .operator ∧ opening.isOpen = true ∧ opening.span = .point p ∧
        opening.ascription = a) ∧
      (point.kind = .operator ∧ point.text = "." ∧ point.ascription = none) ∧
      (word.kind = .identifier ∧ word.text = String.ofList w ∧ word.ascription = none) ∧
      (closing.isClose = true ∧ closing.ascription = none ∧
        closing.span = .point (p.after (Lexeme.name first (ws ++ [w])).chars)) := by
  have hplain := @nameTokens_plain p first (ws ++ [w])
  rw [nameTokens_concat] at hplain ⊢
  rw [carry, carry_none (List.forall_mem_cons.mp hplain).2]
  refine ⟨_, _, _, _, rfl, ⟨rfl, rfl, rfl, rfl⟩, ⟨rfl, rfl, rfl⟩, ⟨rfl, rfl, rfl⟩, rfl, rfl, ?_⟩
  rw [chars_name_concat, Position.after_append]
  rfl

theorem nameTokens_head {first : List Char} (hfirst : first ≠ []) (p : Position)
    (ws : List (List Char)) : ∃ t ts, nameTokens p first ws = t :: ts ∧ t.text ≠ "" := by
  cases ws with
  | nil =>
    refine ⟨_, _, rfl, fun h => hfirst ?_⟩
    simpa using congrArg String.toList h
  | cons w ws => exact ⟨_, _, rfl, (by decide : "(" ≠ "")⟩

/-- Tokens in groups. A token is a group of its own, and if it is a parenthesis then it is one that
is written; the tokens of a dotted name are a group together. -/
inductive Grouped (source : List Char) : List Token → Prop
  | nil : Grouped source []
  | one {t : Token} {ts : List Token}
      (written : t.isOpen = true ∨ t.isClose = true → t.span.isEmpty = false)
      (more : Grouped source ts) : Grouped source (t :: ts)
  | dotted {past first w : List Char} {ws : List (List Char)} {a : Option String} {ts : List Token}
      (split : past ++ (Lexeme.name first (w :: ws)).chars <+: source)
      (words : ∀ v ∈ first :: w :: ws, IsWord v) (more : Grouped source ts) :
      Grouped source (carry a (nameTokens (Position.start.after past) first (w :: ws)) ++ ts)

namespace Grouped

variable {t : Token} {ts us : List Token}

theorem append (h : Grouped source ts) (h' : Grouped source us) : Grouped source (ts ++ us) := by
  induction h with
  | nil => exact h'
  | one written _ ih => exact .one written ih
  | dotted split words _ ih =>
    rw [List.append_assoc]
    exact .dotted split words ih

/-- A token that opens nothing is a group of its own. -/
theorem tail (h : Grouped source (t :: ts)) (ht : t.isOpen = false) :
    Grouped source ts ∧ (t.isClose = true → t.span.isEmpty = false) := by
  generalize hall : t :: ts = all at h
  cases h with
  | nil => cases hall
  | one written more =>
    cases hall
    exact ⟨more, fun hclose => written (.inr hclose)⟩
  | dotted =>
    cases hall
    cases ht

/-- A token that opens a form is written, or begins a dotted name. -/
theorem opening (h : Grouped source (t :: ts)) (ht : t.isOpen = true) :
    Grouped source ts ∧ t.span.isEmpty = false ∨
      ∃ past first w ws a us, past ++ (Lexeme.name first (w :: ws)).chars <+: source ∧
        (∀ v ∈ first :: w :: ws, IsWord v) ∧ Grouped source us ∧
        t :: ts = carry a (nameTokens (Position.start.after past) first (w :: ws)) ++ us := by
  generalize hall : t :: ts = all at h
  cases h with
  | nil => cases hall
  | one written more =>
    cases hall
    exact .inl ⟨more, written (.inl ht)⟩
  | dotted split words more => exact .inr ⟨_, _, _, _, _, _, split, words, more, rfl⟩

end Grouped

theorem Position.isEmpty_after {p : Position} {cs : List Char} (h : cs ≠ []) :
    Span.isEmpty ⟨p, p.after cs⟩ = false := by
  have := length_le_byteLength cs
  have := List.length_pos_iff.mpr h
  rw [Span.isEmpty, beq_eq_false_iff_ne, Position.offset_after]
  dsimp only
  omega

/-- **The tokens of a lexeme** are a group, or none. -/
theorem Lexeme.grouped {l : Lexeme} {past rest : List Char} {a : Option String}
    (hsplit : past ++ l.chars ++ rest = source) (hfits : l.Fits rest) (hne : l.chars ≠ []) :
    Grouped source (carry a (l.tokens (Position.start.after past))) := by
  have hone : ∀ t : Token, t.span = ⟨Position.start.after past,
      (Position.start.after past).after l.chars⟩ → Grouped source (carry a [t]) := by
    intro t hspan
    refine .one (fun _ => ?_) .nil
    show t.span.isEmpty = false
    rw [hspan]
    exact Position.isEmpty_after hne
  cases l with
  | newline | blank | lineComment | blockComment | ascription | pragma => exact .nil
  | number | string | operator | keyword => exact hone _ rfl
  | name first more =>
    cases more with
    | nil => exact hone _ rfl
    | cons w ws =>
      have := @Grouped.dotted source past first w ws a [] ⟨rest, hsplit⟩
        (List.forall_mem_cons.mpr ⟨hfits.1, hfits.2.1⟩) .nil
      rwa [List.append_nil] at this

/-- **The tokens of a text** come in groups. -/
theorem Scan.grouped_of_ofSource {track : Bool} {s : Scan} (h : ofSource source track = .ok s) :
    Grouped source s.tokens.toList := by
  obtain ⟨s', hrun, hfinish⟩ := ofSource_ok h
  have hgrouped : Placed source ([] ++ source) [] s' ∧ Grouped source s'.tokens.toList := by
    refine @run_invariant track
      (fun before cs s => Placed source before cs s ∧ Grouped source s.tokens.toList)
      ?_ {} s' [] source ⟨placed_start source, .nil⟩ hrun
    rintro before c cs l rest s s' ⟨hplaced, htokens⟩ hread haccept
    obtain ⟨hchars, hne⟩ := Lexeme.read_eq hread
    refine ⟨hplaced.accept hread haccept, ?_⟩
    rw [(accept_ok haccept).2.1, hplaced.position]
    refine htokens.append (Lexeme.grouped ?_ (Lexeme.fits_of_read hread) hne)
    rw [List.append_assoc, hchars, hplaced.split]
  have hclosing : Grouped source [.closing (.point s'.cursor.position)] :=
    .one (by rintro (h | h) <;> cases h) .nil
  rw [(finish_ok hfinish).2.2, List.append_assoc]
  refine hgrouped.2.append ?_
  cases s'.pending with
  | none => exact hclosing
  | some w => exact .one (by rintro (h | h) <;> cases h) hclosing

/-! ## Forms from parenthesis to parenthesis -/

/-- A tree of member accesses, and the dotted name that it is written as. -/
inductive Node.Dotted : Node → List Char → Prop
  | word {m : Mark} {w : List Char} (word : IsWord w) : Dotted (.ident m (String.ofList w)) w
  | member {m m' : Mark} {n : Node} {w text : List Char} (object : Dotted n text)
      (word : IsWord w) : Dotted (.member m n (.ident m' (String.ofList w))) (text ++ '.' :: w)

/-- A node that comes from a dotted name: the member access that the name stands for, or a block
that was put around it. -/
def Node.FromDotted (n : Node) (text : List Char) : Prop :=
  ∃ m : Node, (n = m ∨ ∃ mark, n = .block mark [m]) ∧ m.tag = .member ∧ m.Dotted text

/-- The text of a form begins with the one parenthesis and ends with the other, unless the form
comes from a dotted name and its text is that name. -/
def Node.Delimited (source : List Char) (n : Node) : Prop :=
  n.isForm = true → ∃ text, slice? n.span.start.offset n.span.stop.offset source = some text ∧
    ((∃ inner, text = '(' :: inner ++ [')']) ∨ n.FromDotted text)

/-- Two stretches of text and what stands in between. -/
theorem Span.Covers.enclose {s t : Span} {past a mid b : List Char} (hs : s.Covers source past a)
    (ht : t.Covers source (past ++ a ++ mid) b) :
    (s.merge t).Covers source past (a ++ mid ++ b) := by
  obtain ⟨-, rfl⟩ := hs
  obtain ⟨hsplit, rfl⟩ := ht
  refine ⟨by simpa using hsplit, ?_⟩
  rw [← List.append_assoc, ← List.append_assoc]
  unfold Span.merge
  dsimp only
  rw [if_pos (by simp only [Laid.offset_start_after, byteLength_append]; omega)]
  split
  · -- The second span reaches no further if there is nothing in it.
    rename_i hle
    simp only [Laid.offset_start_after, byteLength_append] at hle
    have hmid := length_le_byteLength mid
    have hb := length_le_byteLength b
    obtain rfl : mid = [] := List.length_eq_zero_iff.mp (by omega)
    obtain rfl : b = [] := List.length_eq_zero_iff.mp (by omega)
    simp
  · rfl

/-- Of two stretches of text in order, one lies behind the other. -/
theorem Span.Covers.exists_between {s t : Span} {past past' a b : List Char}
    (hs : s.Covers source past a) (ht : t.Covers source past' b)
    (hle : s.stop.offset ≤ t.start.offset) : ∃ mid, past' = past ++ a ++ mid := by
  obtain ⟨⟨rest, hsplit⟩, rfl⟩ := hs
  obtain ⟨⟨rest', hsplit'⟩, rfl⟩ := ht
  simp only [Laid.offset_start_after] at hle
  rw [← hsplit', List.append_assoc past', List.append_eq_append_iff] at hsplit
  rcases hsplit with ⟨mid, hmid, -⟩ | ⟨mid, hmid, hrest⟩
  · exact ⟨mid, hmid⟩
  · -- The first reaches into the second only by nothing.
    rw [hmid, byteLength_append] at hle
    have := length_le_byteLength mid
    obtain rfl : mid = [] := List.length_eq_zero_iff.mp (by omega)
    exact ⟨[], by rw [hmid]; simp⟩

/-- A parenthesis that is written is written as it is. -/
theorem Token.Written.covers {t : Token} {spelling : String} (h : t.Written source)
    (hsymbol : t.isSymbol spelling = true) (hspelling : spelling ∉ spacedSigns)
    (hne : t.span.isEmpty = false) : ∃ past, t.span.Covers source past spelling.toList := by
  obtain ⟨past, slice, hcovers, has⟩ := h
  simp only [Token.isSymbol, Bool.and_eq_true, beq_iff_eq] at hsymbol
  obtain ⟨hkind, rfl⟩ := hsymbol
  have hslice : slice ≠ [] := by
    rintro rfl
    rw [hcovers.ends, List.append_nil] at hne
    simp [Span.isEmpty] at hne
  unfold Token.WrittenAs at has
  cases hk : t.kind with
  | keyword =>
    rw [hk] at has
    exact ⟨past, has.1 ▸ hcovers⟩
  | operator =>
    rw [hk] at has
    rcases has with has | has | has
    · exact ⟨past, has.1 ▸ hcovers⟩
    · exact absurd has.1 hspelling
    · exact absurd has.1 hslice
  | _ =>
    rw [hk] at hkind
    cases hkind

namespace Grammar

/-- No head but the point begins with a point. -/
theorem recipe_of_point : ∀ e ∈ headRecipes, ".".toList <+: e.1.toList → e = (".", .member) := by
  decide +kernel

/-- A head that begins with a point is the point alone, if what comes next has a text. -/
theorem eq_nil_of_point {point : Token} {run : List Token} {recipe : Recipe}
    (hpoint : point.text = ".") (hnext : ∀ u ∈ run.head?, u.text ≠ "")
    (h : recipe? (spelling (point :: run)) = some recipe) : run = [] ∧ recipe = .member := by
  have hprefix := prefix_spelling point run
  rw [hpoint] at hprefix
  obtain ⟨hspelling, rfl⟩ := Prod.mk.inj (recipe_of_point _ (mem_headRecipes h) hprefix)
  cases run with
  | nil => exact ⟨rfl, rfl⟩
  | cons v run =>
    rw [spelling, hpoint] at hspelling
    have hempty : (spelling (v :: run)).toList = [] := by
      simpa using congrArg String.toList hspelling
    have htext := prefix_spelling v run
    rw [hempty, List.prefix_nil] at htext
    exact absurd (String.toList_inj.mp htext) (hnext v rfl)

/-- A form whose head is a point is a member access. -/
theorem Form.of_point {opening point : Token} {us : List Token} {n : Node}
    (h : Form Token.isOpen (opening :: point :: us) n) (hpoint : point.text = ".")
    (hnext : ∀ u ∈ us.head?, u.text ≠ "") :
    ∃ ts t closing object a, us = ts ++ [t, closing] ∧ Expr Token.isOpen ts object ∧
      n = .member ⟨opening.span.merge closing.span, a⟩ object (identOf t) := by
  generalize hall : opening :: point :: us = all at h
  cases h with
  | @mk _ closing run slotTokens recipe make _ opened head slots closed node =>
    obtain ⟨rfl, htail⟩ := List.cons.inj hall
    obtain ⟨u, run, rfl⟩ := List.exists_cons_of_ne_nil (l := run) (by
      rintro rfl
      exact head.joined)
    obtain ⟨rfl, rfl⟩ := List.cons.inj htail
    have hrun : ∀ u ∈ run.head?, u.text ≠ "" := by
      intro u hu
      obtain ⟨run', rfl⟩ := List.head?_eq_some_iff.mp hu
      exact hnext u rfl
    obtain ⟨rfl, rfl⟩ := eq_nil_of_point hpoint hrun head.named
    cases slots with
    | @member t _ ts object expr kind =>
      refine ⟨ts, t, closing, object, _, ?_, expr, node.symm⟩
      simp

/-- **A dotted name** is read as a whole, whatever follows, and as the member access it stands
for. -/
theorem Expr.of_nameTokens {past first : List Char} {ws : List (List Char)} {a : Option String}
    {ts rest rest' : List Token} {n : Node} (hwords : ∀ v ∈ first :: ws, IsWord v)
    (hsplit : past ++ (Lexeme.name first ws).chars <+: source) (h : Expr Token.isOpen ts n)
    (htokens : ts ++ rest = carry a (nameTokens (Position.start.after past) first ws) ++ rest') :
    rest = rest' ∧ n.Dotted (Lexeme.name first ws).chars ∧
      n.span.Covers source past (Lexeme.name first ws).chars ∧
      n.Everywhere (Node.Delimited source) := by
  -- The last word goes around all the others, so the words are taken off from the end.
  induction hlength : ws.length generalizing ws a ts rest rest' n with
  | zero =>
    obtain rfl := List.length_eq_zero_iff.mp hlength
    have hchars : (Lexeme.name first []).chars = first := List.append_nil first
    rw [hchars] at hsplit ⊢
    cases ts with
    | nil => exact absurd h not_expr_nil
    | cons t us =>
      obtain ⟨rfl, hus⟩ := List.cons.inj htokens
      obtain ⟨rfl, rfl⟩ := (expr_identifier rfl).mp h
      refine ⟨hus, .word (hwords first List.mem_cons_self), ⟨hsplit, ?_⟩,
        .intro (fun hform => by cases hform) (List.forall_mem_nil _)⟩
      rw [Position.after_append]
      rfl
  | succ k ih =>
    obtain ⟨ws', w, rfl⟩ : ∃ ws' w, ws = ws' ++ [w] := by
      rcases List.eq_nil_or_concat ws with rfl | ⟨ws', w, rfl⟩
      · cases hlength
      · exact ⟨ws', w, List.concat_eq_append⟩
    obtain ⟨opening, point, word, closing, hname, ⟨hkind, hopen, hstart, -⟩, ⟨-, hpoint, -⟩,
        ⟨-, hword, -⟩, -, -, hstop⟩ :=
      exists_nameTokens_concat a (Position.start.after past) first w ws'
    rw [hname] at htokens
    -- The form begins with the parenthesis and the point.
    have hform : Form Token.isOpen ts n := by
      cases ts with
      | nil => exact absurd h not_expr_nil
      | cons t us =>
        obtain ⟨rfl, -⟩ := List.cons.inj htokens
        exact (expr_open hkind hopen).mp h
    obtain ⟨t, u, us, rfl, -, -⟩ := hform.first
    obtain ⟨rfl, hbehind⟩ := List.cons.inj htokens
    obtain ⟨rfl, hus⟩ := List.cons.inj hbehind
    obtain ⟨v, vs, hhead, hv⟩ := nameTokens_head
      (hwords first List.mem_cons_self).ne_nil (Position.start.after past) ws'
    have hnext : ∀ x ∈ us.head?, x.text ≠ "" := by
      intro x hx
      obtain ⟨xs, rfl⟩ := List.head?_eq_some_iff.mp hx
      rw [hhead] at hus
      rwa [(List.cons.inj hus).1]
    -- The object of the member access is the name without its last word.
    obtain ⟨ts, x, y, object, b, rfl, hobject, rfl⟩ := hform.of_point hpoint hnext
    have hw : IsWord w := hwords w (by simp)
    have hwords' : ∀ v ∈ first :: ws', IsWord v := fun v hv => hwords v <| by
      rw [← List.cons_append]
      exact List.mem_append_left [w] hv
    have hsplit' : past ++ (Lexeme.name first ws').chars <+: source := by
      refine List.IsPrefix.trans ?_ hsplit
      rw [chars_name_concat, ← List.append_assoc]
      exact List.prefix_append _ _
    obtain ⟨hrest, hdotted, -, hbelow⟩ :=
      @ih ws' none ts (x :: y :: rest) (word :: closing :: rest')
      object hwords' hsplit' hobject (by rw [carry_none nameTokens_plain]; simpa using hus)
      (by simpa using hlength)
    obtain ⟨rfl, hlast⟩ := List.cons.inj hrest
    obtain ⟨rfl, rfl⟩ := List.cons.inj hlast
    have hname : (Node.member ⟨t.span.merge y.span, b⟩ object (identOf x)).Dotted
        (Lexeme.name first (ws' ++ [w])).chars := by
      rw [identOf, hword, chars_name_concat]
      exact hdotted.member hw
    have hcovers : (t.span.merge y.span).Covers source past
        (Lexeme.name first (ws' ++ [w])).chars := by
      have hfront : t.span.Covers source past [] :=
        ⟨by rw [List.append_nil]; exact (List.prefix_append _ _).trans hsplit,
          by rw [hstart, List.append_nil]; rfl⟩
      have hback : y.span.Covers source (past ++ [] ++ (Lexeme.name first (ws' ++ [w])).chars) [] :=
        ⟨by simpa using hsplit, by simp [hstop, Position.after_append, Span.point]⟩
      simpa using hfront.enclose hback
    refine ⟨rfl, hname, hcovers, .intro ?_ ?_⟩
    · exact fun _ => ⟨_, hcovers.slice?_eq, .inr ⟨_, .inl rfl, rfl, hname⟩⟩
    · refine List.forall_mem_cons.mpr ⟨hbelow, List.forall_mem_singleton.mpr ?_⟩
      exact .intro (fun h => by cases h) (List.forall_mem_nil _)

/-- Where the tokens of a text begin with the given ones, these end between two groups, and the
forms that they spell reach from parenthesis to parenthesis. -/
def Delimits (source : List Char) (ts : List Token) (ns : List Node) : Prop :=
  ∀ a b rest, Spread a (ts.map Token.span) b → (∀ t ∈ ts, t.Written source) →
    Grouped source (ts ++ rest) →
      Grouped source rest ∧ ∀ n ∈ ns, n.Everywhere (Node.Delimited source)

theorem Delimits.append {ts us : List Token} {ns ms : List Node} (h : Delimits source ts ns)
    (h' : Delimits source us ms) : Delimits source (ts ++ us) (ns ++ ms) := by
  intro a c rest hspread hwritten hgrouped
  rw [List.map_append] at hspread
  rw [List.append_assoc] at hgrouped
  obtain ⟨b, hts, hus⟩ := hspread.split
  obtain ⟨hwts, hwus⟩ := List.forall_mem_append.mp hwritten
  obtain ⟨hmore, hns⟩ := h a b (us ++ rest) hts hwts hgrouped
  obtain ⟨hrest, hms⟩ := h' b c rest hus hwus hmore
  exact ⟨hrest, List.forall_mem_append.mpr ⟨hns, hms⟩⟩

/-- Tokens that open nothing, and that spell at most a node without children. -/
theorem delimits_plain {ts : List Token} {ns : List Node} (hts : ∀ t ∈ ts, t.isOpen = false)
    (hns : ∀ n ∈ ns, n.isForm = false ∧ n.children = []) : Delimits source ts ns := by
  rintro a b rest - - hgrouped
  constructor
  · induction ts with
    | nil => exact hgrouped
    | cons t ts ih =>
      obtain ⟨ht, hts⟩ := List.forall_mem_cons.mp hts
      exact ih hts (hgrouped.tail ht).1
  · intro n hn
    obtain ⟨hform, hleaf⟩ := hns n hn
    refine .intro (fun h => ?_) (by rw [hleaf]; exact List.forall_mem_nil _)
    rw [hform] at h
    cases h

/-- **A form** whose opening parenthesis is written: the closing one is then a group of its own, and
so it is written too. -/
theorem delimits_enclosed {opening closing : Token} {ts rest : List Token} {n : Node} {a b : Nat}
    (hopen : opening.isOpen = true) (hclose : closing.isClose = true)
    (hparts : Parts (Delimits source) ts closing n)
    (hspan : n.span = opening.span.merge closing.span)
    (hspread : Spread a ((opening :: ts ++ [closing]).map Token.span) b)
    (hwritten : ∀ t ∈ opening :: ts ++ [closing], t.Written source)
    (hne : opening.span.isEmpty = false) (hgrouped : Grouped source (ts ++ closing :: rest)) :
    Grouped source rest ∧ n.Everywhere (Node.Delimited source) := by
  obtain ⟨-, -, hmore⟩ := hspread
  rw [List.append_eq, List.map_append] at hmore
  obtain ⟨c, hts, hbehind, -, -⟩ := hmore.split
  obtain ⟨hwopening, hwmore⟩ := List.forall_mem_cons.mp hwritten
  obtain ⟨hwts, hwclosing⟩ := List.forall_mem_append.mp hwmore
  obtain ⟨ns, hns, hchildren⟩ := hparts
  obtain ⟨hlast, hbelow⟩ := hns _ c (closing :: rest) hts hwts hgrouped
  obtain ⟨hrest, hne'⟩ := hlast.tail (isOpen_of_isClose hclose)
  refine ⟨hrest, .intro (fun _ => ?_) ?_⟩
  · -- What is written in between stands between the parentheses.
    obtain ⟨past, hfront⟩ := hwopening.covers hopen (by decide) hne
    obtain ⟨past', hback⟩ :=
      (hwclosing closing List.mem_cons_self).covers hclose (by decide) (hne' hclose)
    obtain ⟨mid, rfl⟩ := hfront.exists_between hback (Nat.le_trans hts.le hbehind)
    rw [hspan]
    exact ⟨_, (hfront.enclose hback).slice?_eq, .inl ⟨mid, rfl⟩⟩
  · rcases hchildren with h | ⟨m, name, h, -⟩
    · rwa [h]
    · rw [h]
      refine List.forall_mem_append.mpr ⟨hbelow, List.forall_mem_singleton.mpr ?_⟩
      exact .intro (fun h => by cases h) (List.forall_mem_nil _)

theorem composes_delimits : Composes (Delimits source) where
  nil := delimits_plain (List.forall_mem_nil _) (List.forall_mem_nil _)
  append := Delimits.append
  atom := fun hopen hleaf hform _ => delimits_plain (List.forall_mem_singleton.mpr hopen)
    (List.forall_mem_singleton.mpr ⟨hform, hleaf⟩)
  number := fun hminus hdigits _ => delimits_plain
    (List.forall_mem_cons.mpr ⟨hminus, List.forall_mem_singleton.mpr hdigits⟩)
    (List.forall_mem_singleton.mpr ⟨rfl, rfl⟩)
  form := by
    intro opening closing run ts n hform hopen hrun hclose hparts _ hspan a b rest hspread hwritten
      hgrouped
    rw [List.forall_mem_singleton]
    rcases hgrouped.opening hopen with ⟨hmore, hne⟩ |
      ⟨past, first, w, ws, ascription, us, hsplit, hwords, hus, htokens⟩
    · -- The head opens nothing and spells no node.
      have hhead : Delimits source run [] :=
        delimits_plain (fun t ht => (hrun.joinable t ht).2.1) (List.forall_mem_nil _)
      obtain ⟨ns, hns, hchildren⟩ := hparts
      exact delimits_enclosed hopen hclose ⟨ns, hhead.append hns, hchildren⟩ hspan hspread hwritten
        hne (by simpa using hmore)
    · -- The form is the dotted name, no more and no less.
      have hkind : opening.kind = .operator := by
        rw [(List.cons.inj htokens).1]
      obtain ⟨rfl, -, -, hbelow⟩ := Expr.of_nameTokens hwords hsplit (.form hkind hform) htokens
      exact ⟨hus, hbelow⟩
  bare := by
    intro opening first closing ts ns m hopen hfirst hclose hns hspan a b rest hspread hwritten
      hgrouped
    rw [List.forall_mem_singleton]
    rcases hgrouped.opening hopen with ⟨hmore, hne⟩ |
      ⟨past, word, w, ws, ascription, us, -, -, -, htokens⟩
    · exact delimits_enclosed hopen hclose ⟨ns, hns, .inl rfl⟩ hspan hspread hwritten hne
        (by simpa using hmore)
    · -- The parenthesis of a dotted name has a point behind it.
      rw [(List.cons.inj (List.cons.inj htokens).2).1] at hfirst
      cases hfirst
  wrap := by
    intro ts n hform hblock h a b rest hspread hwritten hgrouped
    obtain ⟨hrest, hn⟩ := h a b rest hspread hwritten hgrouped
    refine ⟨hrest, List.forall_mem_singleton.mpr (.intro (fun _ => ?_) hn)⟩
    obtain ⟨text, hslice, hparens | ⟨m, hm, htag, hdotted⟩⟩ :=
      (hn n List.mem_cons_self).here hform
    · exact ⟨text, hslice, .inl hparens⟩
    · rcases hm with rfl | ⟨mark, rfl⟩
      · exact ⟨text, hslice, .inr ⟨n, .inr ⟨_, rfl⟩, htag, hdotted⟩⟩
      · exact absurd rfl (hblock mark [m])

end Grammar

/-! ## Programs -/

/-- What every rule keeps holds of the forms of a program and the tokens that they took. -/
theorem Parse.forms_composes {R : List Token → List Node → Prop} (hR : Grammar.Composes R)
    {room count : Nat} {done ns : List Node} {s s' : Parsing} (hs : s.stream.Ended)
    (h : Parse.forms (Parse.level room) count done s = .ok ns s') :
    ∃ ts ms, s.stream.Passes ts s'.stream ∧ R ts ms ∧ ns = done.reverse ++ ms := by
  induction count generalizing s done with
  | zero =>
    cases h
    exact ⟨[], [], TokenStream.passes_nil _, hR.nil, (List.append_nil _).symm⟩
  | succ count ih =>
    rcases Parse.forms_succ h with ⟨rfl, rfl⟩ | ⟨n, s'', hform, hmore⟩
    · exact ⟨[], [], TokenStream.passes_nil _, hR.nil, (List.append_nil _).symm⟩
    · obtain ⟨ts, hpasses, -, hn⟩ := Parse.topForm_derives hs hform
      obtain ⟨us, ms, hpasses', hms, rfl⟩ := ih (hs.of_passes hpasses) hmore
      have hn : R ts [n] := hn.elim (·.composes hR) fun form => (form.composes hR).1
      exact ⟨ts ++ us, n :: ms, hpasses.append hpasses', hR.append hn hms, by simp⟩

theorem parse_composes {R : List Token → List Node → Prop} (hR : Grammar.Composes R) {track : Bool}
    {scan : Scan} {tree : Node} {s : Parsing} (hscan : Scan.ofSource source track = .ok scan)
    (h : parseProgram (scan.stream source) = .ok tree s) :
    ∃ ts forms first last more rest, scan.tokens.toList = first :: more ∧
      scan.tokens.toList = ts ++ last :: rest ∧ R ts forms ∧
      tree = .program ⟨first.span.merge last.span, none⟩ forms := by
  obtain ⟨forms, hforms, rfl⟩ := parseProgram_ok h
  obtain ⟨ts, ms, hpasses, hms, rfl⟩ := Parse.forms_composes hR (Scan.stream_ended hscan) hforms
  have hremaining := Scan.stream_remaining hscan
  exact ⟨ts, _, _, _, _, _, hremaining.symm, hremaining.symm.trans hpasses.remaining, hms, rfl⟩

/-- The forms of a program stand in order between its first token and its last. -/
theorem parse_nested {track : Bool} {scan : Scan} {tree : Node} {s : Parsing}
    (hscan : Scan.ofSource source track = .ok scan)
    (h : parseProgram (scan.stream source) = .ok tree s) : tree.Everywhere Node.Nested := by
  obtain ⟨ts, forms, first, last, more, rest, hfirst, htokens, hfills, rfl⟩ :=
    parse_composes Grammar.composes_fills hscan h
  have hspread := (Scan.laid_of_ofSource hscan).1.spread
  rw [hfirst] at hspread
  have hfront : Spread first.span.start.offset ((first :: more).map Token.span)
      (byteLength source) := ⟨Nat.le_refl _, hspread.2⟩
  rw [← hfirst, htokens, List.map_append] at hfront
  obtain ⟨c, hts, hlast, hupright, -⟩ := hfront.split
  obtain ⟨hns, hbelow⟩ := hfills _ c hts
  have hle := hts.le
  -- The first token is the one behind the forms if there are no forms.
  have hstop : first.span.stop.offset ≤ last.span.stop.offset := by
    rw [hfirst] at htokens
    cases ts with
    | nil =>
      obtain ⟨rfl, -⟩ := List.cons.inj htokens
      exact Nat.le_refl _
    | cons t ts =>
      obtain ⟨rfl, -⟩ := List.cons.inj htokens
      have := (hts.within _ List.mem_cons_self).2.2
      omega
  obtain ⟨hmstart, hmstop⟩ :=
    Span.merge_offsets (s := first.span) (t := last.span) (by omega) hstop
  refine .intro ?_ hbelow
  show Spread (first.span.merge last.span).start.offset _ (first.span.merge last.span).stop.offset
  rw [hmstart, hmstop]
  exact hns.weaken (by omega)

theorem parse_delimited {track : Bool} {scan : Scan} {tree : Node} {s : Parsing}
    (hscan : Scan.ofSource source track = .ok scan)
    (h : parseProgram (scan.stream source) = .ok tree s) :
    tree.Everywhere (Node.Delimited source) := by
  obtain ⟨ts, forms, first, last, more, rest, -, htokens, hdelimits, rfl⟩ :=
    parse_composes Grammar.composes_delimits hscan h
  have hspread := (Scan.laid_of_ofSource hscan).1.spread
  have hgrouped := Scan.grouped_of_ofSource hscan
  have hwritten := Scan.written_of_ofSource hscan
  rw [htokens] at hspread hgrouped hwritten
  rw [List.map_append] at hspread
  obtain ⟨c, hts, -⟩ := hspread.split
  refine .intro (fun h => by cases h) ?_
  exact (hdelimits _ c _ hts (fun t ht => hwritten t (List.mem_append_left _ ht)) hgrouped).2

/-- **Spans nest.** Wherever one looks in the tree of a text that parses, the span of a node is
upright, the children of the node stand inside it and one behind the other, and if the node is a
form then what its span covers is either a text that begins with an opening parenthesis and ends
with a closing one, or the dotted name that the form comes from. -/
theorem spans_nest {track : Bool} {stream : TokenStream} {tally : Tally} {tree : Node} {s : Parsing}
    (htokens : tokenize source track = .ok (stream, tally))
    (hparse : parseProgram stream = .ok tree s) : ∀ n ∈ tree.preorder,
      n.span.start.offset ≤ n.span.stop.offset ∧
      (∀ c ∈ n.children, n.span.start.offset ≤ c.span.start.offset ∧
        c.span.stop.offset ≤ n.span.stop.offset) ∧
      (n.children.Pairwise fun c d => c.span.stop.offset ≤ d.span.start.offset) ∧
      (n.isForm = true → ∃ text, slice? n.span.start.offset n.span.stop.offset source = some text ∧
        ((∃ inner, text = '(' :: inner ++ [')']) ∨ n.FromDotted text)) := by
  obtain ⟨scan, hscan, rfl, -⟩ := Scan.ofSource_of_tokenize htokens
  intro n hn
  have hnested : n.Nested := parse_nested hscan hparse n hn
  refine ⟨hnested.le, fun c hc => ?_, ?_, parse_delimited hscan hparse n hn⟩
  · obtain ⟨hstart, -, hstop⟩ := hnested.within c.span (List.mem_map_of_mem hc)
    exact ⟨hstart, hstop⟩
  · exact List.pairwise_map.mp hnested.pairwise

/-- A block that is wrapped around a dotted name, and a cast whose type stands on the parenthesis
behind it. -/
def dottedSource : List Char := "(do-while a.b (cast (- 1 - 5) :int ))".toList

theorem dottedSource_spans_nest : ∃ stream tally tree s,
    tokenize dottedSource = .ok (stream, tally) ∧ parseProgram stream = .ok tree s ∧
    tree.count = 11 ∧ ∀ n ∈ tree.preorder, n.isForm = true →
      ∃ text, slice? n.span.start.offset n.span.stop.offset dottedSource = some text ∧
        ((∃ inner, text = '(' :: inner ++ [')']) ∨ n.FromDotted text) := by
  obtain ⟨stream, tally, tree, s, htokens, hparse, hcount⟩ :=
    exists_parse dottedSource (fun tree => tree.count == 11) (by decide +kernel)
  exact ⟨stream, tally, tree, s, htokens, hparse, beq_iff_eq.mp hcount,
    fun n hn => (spans_nest htokens hparse n hn).2.2.2⟩

end FormScript
