import FormScript.Proofs.Layout
import FormScript.Proofs.Places
import FormScript.Proofs.Regular

/-!
# Tokens that are read as one

Two things in a tree are spelled by several tokens at once: a number with a minus sign in front, and
a head such as `do-while` that no table of tokens holds. Both are put together only if the tokens
touch, and tokens touch if one span ends where the next begins. That is not the same as being
written without a gap, because the table of operators also has signs with a blank on either side,
which belong to the span and not to the text of the token. So `- 5` behind a blank is the number
`-5`.

`fused_tokens_written_together` says that this is all that can come in between: what is read as one
is written in one piece, or with a blank on either side of its minus sign. The text that a token
covers is known from the lexeme it came from (`Lexeme.written`), tokens that touch cover one stretch
of text (`Span.Covers.merge`), and the literals of a tree are derived from tokens of the text
(`parse_literals`).
-/

namespace FormScript

variable {source : List Char}

/-! ## Stretches of text -/

/-- Two beginnings of a text with the same number of bytes are one. -/
theorem eq_of_byteLength_eq {a b c d : List Char} (h : a ++ b = c ++ d)
    (hlength : byteLength a = byteLength c) : a = c := by
  have hcut := cut?_append a b
  rw [h, hlength, cut?_append] at hcut
  exact (Prod.mk.inj (Option.some.inj hcut)).1.symm

/-- The span begins where `past` ends, and `slice` is the text inside. -/
structure Span.Covers (s : Span) (source past slice : List Char) : Prop where
  split : past ++ slice <+: source
  ends : s = ⟨Position.start.after past, Position.start.after (past ++ slice)⟩

namespace Span.Covers

variable {s t : Span} {past past' a b : List Char}

theorem slice?_eq (h : s.Covers source past a) :
    slice? s.start.offset s.stop.offset source = some a := by
  obtain ⟨⟨rest, hsplit⟩, rfl⟩ := h
  rw [Laid.offset_start_after, Laid.offset_start_after, ← hsplit]
  exact slice?_append past a rest

/-- Where spans touch, what one has passed is what the other ends with. -/
theorem past_eq (hs : s.Covers source past a) (ht : t.Covers source past' b)
    (htouch : t.start.offset = s.stop.offset) : past' = past ++ a := by
  obtain ⟨⟨rest, hsplit⟩, rfl⟩ := hs
  obtain ⟨⟨rest', hsplit'⟩, rfl⟩ := ht
  rw [Laid.offset_start_after, Laid.offset_start_after] at htouch
  refine eq_of_byteLength_eq (b := b ++ rest') (d := rest) ?_ htouch
  rw [← List.append_assoc, hsplit', hsplit]

theorem merge_eq (hs : s.Covers source past a) (ht : t.Covers source past' b)
    (htouch : t.start.offset = s.stop.offset) : s.merge t = ⟨s.start, t.stop⟩ := by
  obtain rfl := past_eq hs ht htouch
  obtain ⟨-, rfl⟩ := hs
  obtain ⟨-, rfl⟩ := ht
  have hstart : (Position.start.after past).offset ≤ (Position.start.after (past ++ a)).offset := by
    rw [Laid.offset_start_after, Laid.offset_start_after, byteLength_append]
    omega
  rw [Span.merge, if_pos hstart]
  -- The second span reaches further, unless it covers nothing.
  split
  · rename_i hstop
    rw [Laid.offset_start_after, Laid.offset_start_after, byteLength_append (past ++ a)] at hstop
    have hb : b = [] := by
      have := length_le_byteLength b
      exact List.length_eq_zero_iff.mp (by omega)
    rw [hb, List.append_nil]
  · rfl

/-- Spans that touch cover one stretch of text together. -/
theorem merge (hs : s.Covers source past a) (ht : t.Covers source past' b)
    (htouch : t.start.offset = s.stop.offset) : (s.merge t).Covers source past (a ++ b) := by
  rw [merge_eq hs ht htouch]
  obtain rfl := past_eq hs ht htouch
  obtain ⟨-, rfl⟩ := hs
  obtain ⟨hsplit, rfl⟩ := ht
  rw [List.append_assoc] at hsplit
  exact ⟨hsplit, by rw [List.append_assoc]⟩

end Span.Covers

/-! ## Tokens -/

/-- The signs that are also operators with a blank on either side. -/
def spacedSigns : List String := ["+", "-", "*", "/", "%"]

/-- How a token is written, given the text that it covers. A string stands between its delimiters.
Only operators may differ from their text: by the blanks around a sign, or, if a dotted name brings
them along, by not being written. -/
def Token.WrittenAs (t : Token) (slice : List Char) : Prop :=
  match t.kind with
  | .number => slice = t.text.toList ∧ IsNumeral slice
  | .string => t.text.toList <:+: slice
  | .identifier | .keyword => slice = t.text.toList ∧ slice ≠ []
  | .operator =>
    slice = t.text.toList ∧ slice ≠ [] ∨
      t.text ∈ spacedSigns ∧ slice = ' ' :: t.text.toList ++ [' '] ∨
      slice = [] ∧ t.text ∈ ["(", ".", ")"]
  | _ => True

/-- A token that covers some text of the source and is written as that. -/
def Token.Written (source : List Char) (t : Token) : Prop :=
  ∃ past slice, t.span.Covers source past slice ∧ t.WrittenAs slice

theorem writtenAs_operator : ∀ w ∈ operatorSpellings,
    w = trim w ∨ String.ofList (trim w) ∈ spacedSigns ∧ w = ' ' :: trim w ++ [' '] := by
  decide +kernel

/-- A token that covers a whole lexeme. -/
theorem Token.written_of_whole {t : Token} {past slice : List Char}
    (hsplit : past ++ slice <+: source)
    (hspan : t.span = ⟨Position.start.after past, (Position.start.after past).after slice⟩)
    (hwritten : t.WrittenAs slice) : t.Written source :=
  ⟨past, slice, ⟨hsplit, by rw [hspan, Position.after_append]⟩, hwritten⟩

/-- A token that a dotted name brings along. -/
theorem Token.written_of_point {t : Token} {past : List Char} (hsplit : past <+: source)
    (hspan : t.span = .point (Position.start.after past)) (hkind : t.kind = .operator)
    (htext : t.text ∈ ["(", ".", ")"]) : t.Written source := by
  refine ⟨past, [], ⟨by rwa [List.append_nil], by rw [hspan, List.append_nil]; rfl⟩, ?_⟩
  unfold Token.WrittenAs
  rw [hkind]
  exact .inr (.inr ⟨rfl, htext⟩)

theorem memberOpenings_written {past : List Char} {n : Nat} {t : Token} (hsplit : past <+: source)
    (h : t ∈ memberOpenings (Position.start.after past) n) : t.Written source := by
  induction n with
  | zero => cases h
  | succ n ih =>
    rw [memberOpenings, List.mem_cons, List.mem_cons] at h
    rcases h with rfl | rfl | h
    · exact Token.written_of_point hsplit rfl rfl (by simp)
    · exact Token.written_of_point hsplit rfl rfl (by simp)
    · exact ih h

theorem memberTokens_written {past : List Char} {ws : List (List Char)} {t : Token}
    (hws : ∀ w ∈ ws, IsWord w) (hsplit : past ++ ws.flatMap ('.' :: ·) <+: source)
    (h : t ∈ memberTokens (Position.start.after past) ws) : t.Written source := by
  induction ws generalizing past with
  | nil => cases h
  | cons w ws ih =>
    have hdot : (Position.start.after past).next '.' = Position.start.after (past ++ ['.']) := by
      rw [Position.after_append]
      rfl
    have hmore : past ++ ['.'] ++ w ++ ws.flatMap ('.' :: ·) <+: source := by
      simpa using hsplit
    have hword : past ++ ['.'] ++ w <+: source := (List.prefix_append _ _).trans hmore
    rw [memberTokens, List.mem_cons, List.mem_cons, hdot, ← Position.after_append] at h
    rcases h with rfl | rfl | h
    · refine ⟨past ++ ['.'], w, ⟨hword, rfl⟩, String.toList_ofList.symm, ?_⟩
      exact (hws w List.mem_cons_self).ne_nil
    · exact Token.written_of_point hword rfl rfl (by simp)
    · exact ih (fun v hv => hws v (List.mem_cons_of_mem _ hv)) hmore h

/-- **The tokens of a lexeme** are written as the lexeme says. -/
theorem Lexeme.written {l : Lexeme} {past rest : List Char} {t : Token}
    (hsplit : past ++ l.chars ++ rest = source) (hfits : l.Fits rest) (hne : l.chars ≠ [])
    (ht : t ∈ l.tokens (Position.start.after past)) : t.Written source := by
  have hwhole : past ++ l.chars <+: source := ⟨rest, hsplit⟩
  cases l with
  | newline | blank | lineComment | blockComment | ascription | pragma => cases ht
  | number digits =>
    rw [List.mem_singleton.mp ht]
    exact Token.written_of_whole hwhole rfl ⟨String.toList_ofList.symm, hfits.1⟩
  | string delimiter body =>
    rw [List.mem_singleton.mp ht]
    refine Token.written_of_whole hwhole rfl ⟨delimiter, delimiter, ?_⟩
    rw [String.toList_ofList]
    rfl
  | keyword =>
    rw [List.mem_singleton.mp ht]
    exact Token.written_of_whole hwhole rfl ⟨String.toList_ofList.symm, hne⟩
  | operator spelling =>
    rw [List.mem_singleton.mp ht]
    refine Token.written_of_whole hwhole rfl ?_
    rcases writtenAs_operator spelling hfits with htrim | ⟨hsign, hspaced⟩
    · exact .inl ⟨htrim.trans String.toList_ofList.symm, hne⟩
    · exact .inr (.inl ⟨hsign, hspaced.trans (by rw [String.toList_ofList])⟩)
  | name first more =>
    obtain ⟨hfirst, hmore, -, -⟩ := hfits
    cases more with
    | nil =>
      have hchars : (name first []).chars = first := List.append_nil first
      rw [hchars] at hwhole
      rw [List.mem_singleton.mp ht]
      refine Token.written_of_whole hwhole (by rw [hchars]) ?_
      cases Category.keyword.has (String.ofList first) <;>
        exact ⟨String.toList_ofList.symm, hfirst.ne_nil⟩
    | cons w ws =>
      have hsplit' : past ++ first ++ (w :: ws).flatMap ('.' :: ·) <+: source := by
        rw [List.append_assoc]
        exact hwhole
      have hprefix : past ++ first <+: source := (List.prefix_append _ _).trans hsplit'
      rcases List.mem_append.mp ht with ht | ht
      · exact memberOpenings_written ((List.prefix_append past first).trans hprefix) ht
      rcases List.mem_cons.mp ht with rfl | ht
      · refine Token.written_of_whole hprefix rfl ⟨String.toList_ofList.symm, hfirst.ne_nil⟩
      · rw [← Position.after_append] at ht
        exact memberTokens_written hmore hsplit' ht

/-- What a token is written as does not depend on its annotation. -/
theorem Token.Written.annotate {t : Token} (h : t.Written source) (a : Option String) :
    ({ t with ascription := a } : Token).Written source := h

theorem Laid.covers {a b : List Char} {ts : List Token} (h : Laid source a ts b) :
    ∀ t ∈ ts, ∃ past slice, t.span.Covers source past slice := by
  induction h with
  | nil => exact List.forall_mem_nil _
  | @cons past gap slice after upto t ts split span _ _ _ ih =>
    exact List.forall_mem_cons.mpr ⟨⟨past ++ gap, slice, ⟨after, split⟩, span⟩, ih⟩

/-- **The tokens of a text** are written as they say. -/
theorem Scan.written_of_ofSource {track : Bool} {s : Scan} (h : ofSource source track = .ok s) :
    ∀ t ∈ s.tokens.toList, t.Written source := by
  obtain ⟨s', hrun, hfinish⟩ := ofSource_ok h
  have hwritten : Placed source ([] ++ source) [] s' ∧
      ∀ t ∈ s'.tokens.toList, t.Written source := by
    refine @run_invariant track
      (fun before cs s => Placed source before cs s ∧ ∀ t ∈ s.tokens.toList, t.Written source)
      ?_ {} s' [] source ⟨placed_start source, List.forall_mem_nil _⟩ hrun
    rintro before c cs l rest s s' ⟨hplaced, htokens⟩ hread haccept
    obtain ⟨hchars, hne⟩ := Lexeme.read_eq hread
    refine ⟨hplaced.accept hread haccept, fun t ht => ?_⟩
    rw [(accept_ok haccept).2.1, List.mem_append] at ht
    rcases ht with ht | ht
    · exact htokens t ht
    · obtain ⟨u, hu, a, -, rfl⟩ := exists_of_mem_carry ht
      rw [hplaced.position] at hu
      refine (Lexeme.written ?_ (Lexeme.fits_of_read hread) hne hu).annotate a
      rw [List.append_assoc, hchars, hplaced.split]
  intro t ht
  obtain ⟨past, slice, hcovers⟩ := (laid_of_ofSource h).1.covers t ht
  rw [(finish_ok hfinish).2.2, List.mem_append, List.mem_append, List.mem_singleton] at ht
  rcases ht with (ht | ht) | rfl
  · exact hwritten.2 t ht
  · obtain ⟨w, -, rfl⟩ := Option.map_eq_some_iff.mp (Option.mem_toList.mp ht)
    exact ⟨past, slice, hcovers, trivial⟩
  · exact ⟨past, slice, hcovers, trivial⟩

/-! ## Literals -/

namespace Grammar

variable {opens : Token → Bool} {ts us : List Token} {n : Node}

/-- A number or a string is derived from tokens among `ts`. -/
def LiteralIn (opens : Token → Bool) (ts : List Token) (n : Node) : Prop :=
  n.tag = .num ∨ n.tag = .str → ∃ us, us ⊆ ts ∧ Expr opens us n

theorem literals_mono (h : n.Everywhere (LiteralIn opens us)) (hsubset : us ⊆ ts) :
    n.Everywhere (LiteralIn opens ts) := by
  intro m hm htag
  obtain ⟨vs, hvs, hexpr⟩ := h m hm htag
  exact ⟨vs, List.Subset.trans hvs hsubset, hexpr⟩

theorem literals_left (h : n.Everywhere (LiteralIn opens ts)) :
    n.Everywhere (LiteralIn opens (ts ++ us)) :=
  literals_mono h (List.subset_append_left ts us)

theorem literals_right (h : n.Everywhere (LiteralIn opens us)) :
    n.Everywhere (LiteralIn opens (ts ++ us)) :=
  literals_mono h (List.subset_append_right ts us)

theorem literals_cons {t : Token} (h : n.Everywhere (LiteralIn opens ts)) :
    n.Everywhere (LiteralIn opens (t :: ts)) :=
  literals_mono h (List.subset_cons_self t ts)

/-- A node that is no literal itself. -/
theorem literals_of_children (h : ∀ c ∈ n.children, c.Everywhere (LiteralIn opens ts))
    (htag : ¬ (n.tag = .num ∨ n.tag = .str) := by simp [Node.tag]) :
    n.Everywhere (LiteralIn opens ts) :=
  .intro (fun hliteral => absurd hliteral htag) h

/-- A literal. -/
theorem literals_atom (h : Expr opens ts n) (hn : n.children = [] := by rfl) :
    n.Everywhere (LiteralIn opens ts) := by
  refine .intro (fun _ => ⟨ts, List.Subset.refl ts, h⟩) ?_
  rw [hn]
  exact List.forall_mem_nil _

theorem literals_ident (t : Token) : (identOf t).Everywhere (LiteralIn opens ts) :=
  literals_of_children (List.forall_mem_nil _) (by simp [identOf, Node.tag])

theorem literals_cast {value : Node} {m m' : Mark} {name : String}
    (h : value.Everywhere (LiteralIn opens ts)) :
    (Node.cast m value (.type m' name)).Everywhere (LiteralIn opens ts) := by
  have htype : (Node.type m' name).Everywhere (LiteralIn opens ts) :=
    literals_of_children (List.forall_mem_nil _)
  exact literals_of_children (by simp [Node.children, h, htype])

theorem literals_unary {m : Mark} {op : UnaryOp} (h : n.Everywhere (LiteralIn opens ts)) :
    (Node.unary m op n).Everywhere (LiteralIn opens ts) :=
  literals_of_children (List.forall_mem_singleton.mpr h)
    (by cases op <;> simp [Node.tag, UnaryOp.tag])

theorem literals_pair {a b : Node} (ha : a.Everywhere (LiteralIn opens ts))
    (hb : b.Everywhere (LiteralIn opens ts)) :
    ∀ c ∈ [a, b], c.Everywhere (LiteralIn opens ts) :=
  List.forall_mem_cons.mpr ⟨ha, List.forall_mem_singleton.mpr hb⟩

theorem literals_binary {m : Mark} {op : BinaryOp} {a b : Node}
    (ha : a.Everywhere (LiteralIn opens ts)) (hb : b.Everywhere (LiteralIn opens us)) :
    (Node.binary m op a b).Everywhere (LiteralIn opens (ts ++ us)) :=
  literals_of_children (literals_pair (literals_left ha) (literals_right hb))
    (by cases op <;> simp [Node.tag, BinaryOp.tag])

theorem literals_three {a b c : Node} {vs : List Token} (ha : a.Everywhere (LiteralIn opens ts))
    (hb : b.Everywhere (LiteralIn opens us)) (hc : c.Everywhere (LiteralIn opens vs)) :
    ∀ d ∈ [a, b, c], d.Everywhere (LiteralIn opens (ts ++ (us ++ vs))) :=
  List.forall_mem_cons.mpr ⟨literals_left ha,
    literals_pair (literals_right (literals_left hb)) (literals_right (literals_right hc))⟩

theorem literals_asBlock (h : n.Everywhere (LiteralIn opens ts)) :
    (asBlock n).Everywhere (LiteralIn opens ts) := by
  cases n with
  | block => exact h
  | _ =>
    exact literals_of_children (List.forall_mem_singleton.mpr h) (by simp [asBlock, Node.tag])

/-! **The numbers and strings of a tree**, rule by rule: each comes from a rule of its own, for
tokens that are among those of the tree. -/

mutual

theorem Expr.literals {ts : List Token} {n : Node} :
    Expr opens ts n → n.Everywhere (LiteralIn opens ts)
  | .str kind => literals_atom (.str kind)
  | .num kind value => literals_atom (.num kind value)
  | .ident _ => literals_ident _
  | .negative sign text kind adjacent value =>
    literals_atom (.negative sign text kind adjacent value)
  | .form _ form => form.literals

theorem Form.literals {ts : List Token} {n : Node} :
    Form opens ts n → n.Everywhere (LiteralIn opens ts)
  | .mk _ _ slots _ node => by
    rw [← node]
    exact literals_left (literals_cons (literals_right (slots.literals _)))

theorem Slots.literals {recipe : Recipe} {ts : List Token} {next : Token} {make : Mark → Node} :
    Slots opens recipe ts next make → ∀ m, (make m).Everywhere (LiteralIn opens ts)
  | .doc kind, _ => literals_of_children (List.forall_mem_singleton.mpr (literals_atom (.str kind)))
  | .declare _ value, _ =>
    literals_of_children (literals_pair (literals_ident _) (literals_cons value.literals))
  | .assign _ value, _ =>
    literals_of_children (literals_pair (literals_ident _) (literals_cons value.literals))
  | .increment _, _ => literals_of_children (List.forall_mem_singleton.mpr (literals_ident _))
  | .result value, _ => literals_of_children (List.forall_mem_singleton.mpr value.literals)
  | .cast value _, _ => literals_cast (literals_left value.literals)
  | .castByClose value _ _, _ => literals_cast value.literals
  | .param _, _ => literals_of_children (List.forall_mem_singleton.mpr (literals_ident _))
  | .choice a b c, _ => literals_of_children (literals_three a.literals b.literals c.literals)
  | .member object _, _ =>
    literals_of_children (literals_pair (literals_left object.literals) (literals_ident _))
  | .doWhile body condition, _ =>
    literals_of_children
      (literals_pair (literals_left body.literals) (literals_right condition.literals))
  | .binary a b, _ => literals_binary a.literals b.literals
  | .signOne a _, _ => literals_unary a.literals
  | .signTwo a b, _ => literals_binary a.literals b.literals
  | .unary a, _ => literals_unary a.literals
  | .branch a b _, _ =>
    literals_of_children (literals_pair (literals_left a.literals) (literals_right b.literals))
  | .branchElse a b c, _ => literals_of_children (literals_three a.literals b.literals c.literals)
  | .call callee items _ _, _ =>
    literals_of_children (List.forall_mem_cons.mpr
      ⟨literals_left callee.literals, fun c hc => literals_right (items.literals c hc)⟩)
  | .block items _ _, _ => literals_of_children items.literals
  | .function params items _ _, _ =>
    literals_of_children (List.forall_mem_cons.mpr
      ⟨literals_left params.literals, fun c hc => literals_right (items.literals c hc)⟩)
  | .params items _ _, _ => literals_of_children items.literals
  | .forLess _ a b items _ _, _ => by
    refine literals_of_children (List.forall_mem_cons.mpr ⟨literals_ident _, ?_⟩)
    refine List.forall_mem_cons.mpr ⟨literals_cons (literals_left a.literals), ?_⟩
    refine List.forall_mem_cons.mpr ⟨literals_cons (literals_right (literals_left b.literals)), ?_⟩
    exact fun c hc => literals_cons (literals_right (literals_right (items.literals c hc)))

theorem Block.literals {ts : List Token} {n : Node} :
    Block opens ts n → n.Everywhere (LiteralIn opens ts)
  | .bare _ _ items _ _ =>
    literals_of_children fun c hc => literals_left (literals_cons (items.literals c hc))
  | .form form node => node ▸ literals_asBlock form.literals

theorem Item.literals {head : Option String} {ts : List Token} {n : Node} :
    Item opens head ts n → n.Everywhere (LiteralIn opens ts)
  | .expr expr => expr.literals
  | .headed _ form => form.literals

theorem Items.literals {head : Option String} {ts : List Token} {ns : List Node} :
    Items opens head ts ns → ∀ n ∈ ns, n.Everywhere (LiteralIn opens ts)
  | .nil => List.forall_mem_nil _
  | .cons first more => List.forall_mem_cons.mpr
    ⟨literals_left first.literals, fun c hc => literals_right (more.literals c hc)⟩

end

end Grammar

/-! ## What is read as one -/

/-- The text with a blank on either side of one of its minus signs. -/
def SpacedMinus (text slice : List Char) : Prop :=
  ∃ a b, text = a ++ '-' :: b ∧ slice = a ++ [' ', '-', ' '] ++ b

/-- Written in one piece, or with a minus sign set apart. -/
def Together (text slice : List Char) : Prop := slice = text ∨ SpacedMinus text slice

/-- A token without signs other than minus. -/
theorem Token.WrittenAs.together {t : Token} {slice : List Char} (h : t.WrittenAs slice)
    (hjoinable : Grammar.Joinable t) (hplain : ∀ c ∈ t.text.toList, c ∉ ['.', '+', '*', '/', '%']) :
    slice = t.text.toList ∨ t.text.toList = ['-'] ∧ slice = [' ', '-', ' '] := by
  obtain ⟨hkind, hopen, hclose⟩ := hjoinable
  unfold Token.WrittenAs at h
  rcases hkind with hkind | hkind | hkind
  · rw [hkind] at h
    exact .inl h.1
  · rw [hkind] at h
    exact .inl h.1
  · rw [hkind] at h
    rcases h with h | ⟨hsign, hslice⟩ | ⟨-, hpoint⟩
    · exact .inl h.1
    · simp only [spacedSigns, List.mem_cons, List.not_mem_nil, or_false] at hsign
      rcases hsign with hsign | hsign | hsign | hsign | hsign
      case inr.inl =>
        rw [hsign] at hslice ⊢
        exact .inr ⟨rfl, hslice⟩
      all_goals
        rw [hsign] at hplain
        simp at hplain
    · have hsymbol : t.kind.isSymbol = true := by rw [hkind]; rfl
      simp only [List.mem_cons, List.not_mem_nil, or_false] at hpoint
      rcases hpoint with hpoint | hpoint | hpoint
      · simp [Token.isOpen, Token.isSymbol, hsymbol, hpoint] at hopen
      · rw [hpoint] at hplain
        simp at hplain
      · simp [Token.isClose, Token.isSymbol, hsymbol, hpoint] at hclose

/-- A written token has a text. -/
theorem Token.WrittenAs.text_ne_nil {t : Token} {slice : List Char} (h : t.WrittenAs slice)
    (hjoinable : Grammar.Joinable t) : t.text.toList ≠ [] := by
  obtain ⟨hkind, -, -⟩ := hjoinable
  unfold Token.WrittenAs at h
  rcases hkind with hkind | hkind | hkind
  · rw [hkind] at h
    exact h.1 ▸ h.2
  · rw [hkind] at h
    exact h.1 ▸ h.2
  · rw [hkind] at h
    rcases h with ⟨rfl, hne⟩ | ⟨hsign, -⟩ | ⟨-, hpoint⟩
    · exact hne
    · exact (by decide : ∀ w ∈ spacedSigns, w.toList ≠ []) _ hsign
    · exact (by decide : ∀ w ∈ ["(", ".", ")"], w.toList ≠ []) _ hpoint

/-- What stands in front of something spaced is written as it is. -/
theorem SpacedMinus.append_left {text slice : List Char} (h : SpacedMinus text slice)
    (front : List Char) : SpacedMinus (front ++ text) (front ++ slice) := by
  obtain ⟨a, b, rfl, rfl⟩ := h
  exact ⟨front ++ a, b, by simp, by simp⟩

theorem SpacedMinus.mem {text slice : List Char} (h : SpacedMinus text slice) : '-' ∈ text := by
  obtain ⟨a, b, rfl, -⟩ := h
  simp

namespace Parse

open Grammar

/-- **Joined tokens.** They cover the text from the first to the last of them, and it is written
together if the spelling has one minus sign at most and no other sign that can be set apart. -/
theorem covers_of_join? {first : Token} {more : List Token} {text : String} {span : Span}
    (hwritten : ∀ t ∈ first :: more, t.Written source)
    (h : join? (first :: more) = some (text, span)) :
    span = ⟨first.span.start, ((first :: more).getLast (List.cons_ne_nil _ _)).span.stop⟩ ∧
      more.length < text.toList.length ∧
      ∃ past slice, span.Covers source past slice ∧
        ((∀ c ∈ text.toList, c ∉ ['.', '+', '*', '/', '%']) →
          Together text.toList slice ∨ 1 < text.toList.count '-') := by
  induction more generalizing first text span with
  | nil =>
    obtain ⟨past, slice, hcovers, has⟩ := hwritten first List.mem_cons_self
    have hjoinable := (oneWord_of_join? h).1
    rw [join?] at h
    split at h
    · cases h
      refine ⟨rfl, List.length_pos_iff.mpr (has.text_ne_nil hjoinable), past, slice, hcovers, ?_⟩
      intro hplain
      rcases has.together hjoinable hplain with hsame | ⟨htext, hslice⟩
      · exact .inl (.inl hsame)
      · exact .inl (.inr ⟨[], [], htext, hslice⟩)
    · cases h
  | cons second more ih =>
    obtain ⟨past, slice, hcovers, has⟩ := hwritten first List.mem_cons_self
    obtain ⟨hjoinable, hadjacent, -⟩ := (oneWord_of_join? h).1
    rw [join?] at h
    split at h
    · obtain ⟨⟨rest, restSpan⟩, hrest, hsum⟩ := Option.map_eq_some_iff.mp h
      cases hsum
      obtain ⟨hspan, hlength, past', slice', hcovers', htogether⟩ :=
        ih (fun t ht => hwritten t (List.mem_cons_of_mem _ ht)) hrest
      have htouch : restSpan.start.offset = first.span.stop.offset := by
        rw [hspan]
        exact hadjacent
      have hne := List.length_pos_iff.mpr (has.text_ne_nil hjoinable)
      refine ⟨?_, ?_, past, slice ++ slice', hcovers.merge hcovers' htouch, fun hplain => ?_⟩
      · rw [hcovers.merge_eq hcovers' htouch, hspan,
          List.getLast_cons (List.cons_ne_nil second more)]
      · rw [String.toList_append, List.length_append, List.length_cons]
        omega
      rw [String.toList_append] at hplain ⊢
      rw [List.forall_mem_append] at hplain
      rw [List.count_append]
      -- A second minus sign is too many; without one, only one part is spaced.
      rcases has.together hjoinable hplain.1 with rfl | ⟨htext, rfl⟩
      · rcases htogether hplain.2 with (rfl | hspaced) | hcount
        · exact .inl (.inl rfl)
        · exact .inl (.inr (hspaced.append_left _))
        · exact .inr (by omega)
      · rw [htext]
        rcases htogether hplain.2 with (rfl | hspaced) | hcount
        · exact .inl (.inr ⟨[], _, rfl, rfl⟩)
        · have := List.count_pos_iff.mpr hspaced.mem
          exact .inr (by rw [List.count_singleton_self]; omega)
        · exact .inr (by omega)
    · cases h

/-- Heads of several characters have one minus sign at most, and no other sign that can be set
apart. -/
theorem headRecipes_plain : ∀ e ∈ headRecipes, 1 < e.1.toList.length →
    (∀ c ∈ e.1.toList, c ∉ ['.', '+', '*', '/', '%']) ∧ e.1.toList.count '-' ≤ 1 := by
  have htable : (headRecipes.all fun e => decide (e.1.toList.length ≤ 1) ||
      (e.1.toList.all fun c => decide (c ∉ ['.', '+', '*', '/', '%'])) &&
        decide (e.1.toList.count '-' ≤ 1)) = true := by decide +kernel
  intro e he hlong
  have hrow := List.all_eq_true.mp htable e he
  simp only [Bool.or_eq_true, Bool.and_eq_true, decide_eq_true_eq, List.all_eq_true] at hrow
  exact hrow.resolve_left (by omega)

end Parse

theorem TokenStream.Ended.of_suffix {s s' : TokenStream} (hs : s.Ended)
    (h : s'.remaining <:+ s.remaining) : s'.Ended := by
  obtain ⟨before, hbefore⟩ := h
  intro ts t us hsplit
  refine hs (before ++ ts) t us ?_
  rw [← hbefore, hsplit, List.append_assoc]

/-- A number is written as it is derived. -/
theorem Grammar.Expr.number_together {opens : Token → Bool} {ts : List Token} {m : Mark}
    {x : Binary64} {text : String} (hwritten : ∀ t ∈ ts, t.Written source)
    (h : Expr opens ts (.num m x text)) :
    ∃ past slice, m.span.Covers source past slice ∧ Together text.toList slice := by
  cases h with
  | num kind =>
    obtain ⟨past, slice, hcovers, has⟩ := hwritten _ List.mem_cons_self
    unfold Token.WrittenAs at has
    rw [kind] at has
    exact ⟨past, slice, hcovers, .inl has.1⟩
  | @negative minus digits _ sign text kind adjacent value =>
    obtain ⟨past, slice, hcovers, has⟩ := hwritten minus List.mem_cons_self
    obtain ⟨past', slice', hcovers', has'⟩ :=
      hwritten digits (List.mem_cons_of_mem _ List.mem_cons_self)
    refine ⟨past, slice ++ slice', hcovers.merge hcovers' adjacent, ?_⟩
    have hjoinable : Joinable minus :=
      ⟨.inr (.inr sign), by simp [Token.isOpen, Token.isSymbol, text],
        by simp [Token.isClose, Token.isSymbol, text]⟩
    unfold Token.WrittenAs at has'
    rw [kind] at has'
    rw [String.toList_append, has'.1]
    rcases has.together hjoinable (by simp [text]) with rfl | ⟨-, rfl⟩
    · exact .inl (by rw [text])
    · exact .inr ⟨[], digits.text.toList, rfl, rfl⟩
  | form _ form =>
    obtain ⟨_, _, slots, _, node⟩ := form
    cases slots <;> cases node

/-- **The literals of a parsed tree** are derived from tokens of the text. -/
theorem parse_literals {track : Bool} {scan : Scan} {tree : Node} {s : Parsing}
    (hscan : Scan.ofSource source track = .ok scan)
    (h : parseProgram (scan.stream source) = .ok tree s) {n : Node} (hmem : n ∈ tree.preorder)
    (htag : n.tag = .num ∨ n.tag = .str) :
    ∃ ts, (∀ t ∈ ts, t.Written source) ∧ Grammar.Expr Token.isOpen ts n := by
  obtain ⟨span, forms, rfl, hforms⟩ := parse_stems hscan h
  rw [Node.preorder_eq, List.mem_cons, List.mem_flatMap] at hmem
  obtain rfl | ⟨f, hf, hmem⟩ := hmem
  · simp [Node.tag] at htag
  obtain ⟨ts, hsubset, -, -, hstems⟩ := hforms f hf
  have hliterals : f.Everywhere (Grammar.LiteralIn Token.isOpen ts) :=
    hstems.elim Grammar.Expr.literals Grammar.Form.literals
  obtain ⟨us, hus, hexpr⟩ := hliterals n hmem htag
  exact ⟨us, fun t ht => Scan.written_of_ofSource hscan t (hsubset (hus ht)), hexpr⟩

/-- **What is read as one is written together.** The text of every number in a parsed tree is what
its span covers, and the spelling of every head that the parser joins, wherever in the stream it
does so, is what stands between its first token and its last: in one piece, or with a blank on
either side of a minus sign. -/
theorem fused_tokens_written_together {track : Bool} {stream : TokenStream} {tally : Tally}
    {tree : Node} {s : Parsing} (htokens : tokenize source track = .ok (stream, tally))
    (hparse : parseProgram stream = .ok tree s) :
    (∀ m x text, .num m x text ∈ tree.preorder →
      ∃ slice, slice? m.span.start.offset m.span.stop.offset source = some slice ∧
        Together text.toList slice) ∧
    ∀ (p p' : Parsing) (first last : Token) (inner : List Token) (text : String) (span : Span)
      (type : Option String), p.stream.remaining <:+ stream.remaining →
      Parse.head p = .ok (text, span, type) p' →
      p.stream.remaining = first :: inner ++ last :: p'.stream.remaining →
      ∃ slice, slice? first.span.start.offset last.span.stop.offset source = some slice ∧
        Together text.toList slice := by
  obtain ⟨scan, hscan, rfl, -⟩ := Scan.ofSource_of_tokenize htokens
  have hwritten := Scan.written_of_ofSource hscan
  constructor
  · intro m x text hmem
    obtain ⟨ts, hts, hexpr⟩ := parse_literals hscan hparse hmem (.inl rfl)
    obtain ⟨past, slice, hcovers, htogether⟩ := hexpr.number_together hts
    exact ⟨slice, hcovers.slice?_eq, htogether⟩
  · intro p p' first last inner text span type hsuffix hhead hsplit
    have hended := (Scan.stream_ended hscan).of_suffix hsuffix
    obtain ⟨ts, hpasses, hjoin, -, -, hnamed, -⟩ := (Parse.recognizes_head p hended).sound hhead
    obtain rfl : ts = first :: (inner ++ [last]) := by
      have hboth : ts ++ p'.stream.remaining
          = first :: (inner ++ [last]) ++ p'.stream.remaining := by
        rw [← hpasses.remaining, hsplit]
        simp
      exact List.append_cancel_right hboth
    have hmem : ∀ t ∈ first :: (inner ++ [last]), t.Written source := by
      intro t ht
      refine hwritten t ?_
      rw [← Scan.stream_remaining hscan]
      refine hsuffix.subset ?_
      rw [hpasses.remaining]
      exact List.mem_append_left _ ht
    obtain ⟨hspan, hlength, past, slice, hcovers, htogether⟩ := Parse.covers_of_join? hmem hjoin
    have hslice := hcovers.slice?_eq
    rw [hspan, List.getLast_cons (List.concat_ne_nil _ _), List.getLast_concat] at hslice
    refine ⟨slice, hslice, ?_⟩
    -- The joined head is in the table, and its spelling is longer than one character.
    obtain ⟨recipe, hrecipe⟩ := Option.isSome_iff_exists.mp (hnamed (by simp))
    rw [← (Parse.oneWord_of_join? hjoin).2] at hrecipe
    obtain ⟨hplain, hcount⟩ := Parse.headRecipes_plain _ (Grammar.mem_headRecipes hrecipe)
      (by simp at hlength ⊢; omega)
    exact (htogether hplain).resolve_right (Nat.not_lt.mpr hcount)

/-- A text that is seen to be parsed. -/
theorem exists_parse (source : List Char) (P : Node → Bool) (h : ((tokenize source).toOption.bind
      fun r => EStateM.run' Parse.program { stream := r.1 }).any P = true) :
    ∃ stream tally tree s, tokenize source = .ok (stream, tally) ∧
      parseProgram stream = .ok tree s ∧ P tree = true := by
  cases htokens : tokenize source with
  | error e =>
    rw [htokens] at h
    cases h
  | ok scanned =>
    obtain ⟨stream, tally⟩ := scanned
    rw [htokens] at h
    change (EStateM.run' Parse.program { stream }).any P = true at h
    delta EStateM.run' EStateM.run at h
    cases hparse : parseProgram stream with
    | error e s =>
      change Parse.program { stream } = _ at hparse
      rw [hparse] at h
      cases h
    | ok tree s =>
      have hrun : Parse.program { stream } = .ok tree s := hparse
      rw [hrun] at h
      exact ⟨stream, tally, tree, s, rfl, hparse, h⟩

/-- A loop with a joined head, and a number with its sign. -/
def fusedSource : List Char := "(for-lt i -5 9)".toList

theorem fusedSource_written_together : ∃ stream tally tree s,
    tokenize fusedSource = .ok (stream, tally) ∧ parseProgram stream = .ok tree s ∧
    ∀ m x text, .num m x text ∈ tree.preorder →
      ∃ slice, slice? m.span.start.offset m.span.stop.offset fusedSource = some slice ∧
        Together text.toList slice := by
  obtain ⟨stream, tally, tree, s, htokens, hparse, -⟩ :=
    exists_parse fusedSource (fun _ => true) (by decide +kernel)
  exact ⟨stream, tally, tree, s, htokens, hparse, (fused_tokens_written_together htokens hparse).1⟩

/-- A difference whose only operand is a number, behind a minus sign with blanks. -/
def spacedSource : List Char := "(- - 5)".toList

/-- A number that is written in another way than its text says. -/
def Node.isSpaced (source : List Char) : Node → Bool
  | .num m _ text =>
    slice? m.span.start.offset m.span.stop.offset source != some text.toList
  | _ => false

/-- **A number need not be what its span covers.** -/
theorem spaced_minus_fused : ¬ ∀ (source : List Char) (track : Bool) (stream : TokenStream)
    (tally : Tally) (tree : Node) (s : Parsing), tokenize source track = .ok (stream, tally) →
    parseProgram stream = .ok tree s → ∀ m x text, .num m x text ∈ tree.preorder →
      slice? m.span.start.offset m.span.stop.offset source = some text.toList := by
  intro h
  obtain ⟨stream, tally, tree, s, htokens, hparse, hspaced⟩ :=
    exists_parse spacedSource (fun tree => tree.preorder.any (·.isSpaced spacedSource))
      (by decide +kernel)
  obtain ⟨n, hn, hspaced⟩ := List.any_eq_true.mp hspaced
  cases n with
  | num m x text =>
    have := h _ _ _ _ _ _ htokens hparse m x text hn
    simp [Node.isSpaced, this] at hspaced
  | _ => cases hspaced

end FormScript
