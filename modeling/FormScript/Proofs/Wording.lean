import FormScript.Proofs.Regular

/-!
# The words of parsed trees

Names, types and annotations are words, names are no longer than the limit, and numbers are finite.
All of it is settled while scanning: a token is worded if its name and its annotation are words, the
scanner makes worded tokens only (`Scan.worded_of_ofSource`), and a rule puts nothing into a tree
that is not on one of its tokens. A type that stands in a cast may be the annotation of the closing
parenthesis behind it, which is why the rules for slots look at one token more than they take.
-/

namespace FormScript

/-! ## Names -/

/-- A word that is not too long. -/
def IsName (name : String) : Prop :=
  IsWord name.toList ∧ byteLength name.toList ≤ Limits.nameBytes

theorem utf8Size_of_isWordChar {c : Char} (h : isWordChar c = true) : c.utf8Size = 1 := by
  rw [Char.utf8Size_eq_one_iff]
  delta isWordChar Char.isAlphanum Char.isAlpha Char.isUpper Char.isLower Char.isDigit at h
  simp only [Bool.or_eq_true, Bool.and_eq_true, decide_eq_true_eq, beq_iff_eq, ge_iff_le] at h
  rcases h with ((h | h) | h) | rfl
  · exact UInt32.le_trans h.2 (by decide)
  · exact UInt32.le_trans h.2 (by decide)
  · exact UInt32.le_trans h.2 (by decide)
  · decide

theorem byteLength_of_isWordChar {cs : List Char} (h : ∀ c ∈ cs, isWordChar c = true) :
    byteLength cs = cs.length := by
  induction cs with
  | nil => rfl
  | cons c cs ih =>
    have hsize := utf8Size_of_isWordChar (h c List.mem_cons_self)
    have hrest := ih fun d hd => h d (List.mem_cons_of_mem _ hd)
    rw [byteLength_cons, List.length_cons, hsize, hrest]
    omega

/-- The limit is on bytes, but a word has as many bytes as characters. -/
theorem isName_of_isWord {w : List Char} (h : IsWord w) (hlength : w.length ≤ Limits.nameBytes) :
    IsName (String.ofList w) := by
  rw [IsName, String.toList_ofList, byteLength_of_isWordChar h.isWordChar]
  exact ⟨h, hlength⟩

/-! ## Tokens -/

/-- A token whose name, if it is one, and whose annotation, if it has one, are words. -/
structure Token.Worded (t : Token) : Prop where
  named : t.kind = .identifier → IsName t.text
  typed : ∀ a ∈ t.ascription, IsWord a.toList

theorem named_of_mem_memberTokens {p : Position} {ws : List (List Char)} {t : Token}
    (hws : ∀ w ∈ ws, IsWord w ∧ w.length ≤ Limits.nameBytes) (h : t ∈ memberTokens p ws)
    (hkind : t.kind = .identifier) : IsName t.text := by
  induction ws generalizing p with
  | nil => cases h
  | cons w ws ih =>
    rw [memberTokens, List.mem_cons, List.mem_cons] at h
    rcases h with rfl | rfl | h
    · obtain ⟨hword, hlength⟩ := hws w List.mem_cons_self
      exact isName_of_isWord hword hlength
    · cases hkind
    · exact ih (fun v hv => hws v (List.mem_cons_of_mem _ hv)) h

theorem kind_of_mem_memberOpenings {p : Position} {n : Nat} {t : Token}
    (h : t ∈ memberOpenings p n) : t.kind = .operator := by
  induction n with
  | zero => cases h
  | succ n ih =>
    rw [memberOpenings, List.mem_cons, List.mem_cons] at h
    rcases h with rfl | rfl | h
    · rfl
    · rfl
    · exact ih h

/-- Whatever identifiers a lexeme stands for are names. -/
theorem Lexeme.named_of_mem_tokens {l : Lexeme} {rest : List Char} {p : Position} {t : Token}
    (hfits : l.Fits rest) (h : t ∈ l.tokens p) (hkind : t.kind = .identifier) : IsName t.text := by
  unfold Lexeme.tokens at h
  dsimp only at h
  split at h
  case h_5 first =>
    obtain ⟨hfirst, -, hlengths, -⟩ := hfits
    rw [List.mem_singleton] at h
    subst h
    exact isName_of_isWord hfirst (hlengths first List.mem_cons_self)
  case h_6 first more _ =>
    obtain ⟨hfirst, hmore, hlengths, -⟩ := hfits
    rcases List.mem_append.mp h with h | h
    · rw [kind_of_mem_memberOpenings h] at hkind
      cases hkind
    rcases List.mem_cons.mp h with rfl | h
    · exact isName_of_isWord hfirst (hlengths first List.mem_cons_self)
    · refine named_of_mem_memberTokens (fun w hw => ⟨hmore w hw, ?_⟩) h hkind
      exact hlengths w (List.mem_cons_of_mem _ hw)
  case h_7 => cases h
  all_goals
    rw [List.mem_singleton] at h
    subst h
    cases hkind

namespace Scan

/-- Worded tokens so far, and a word is waiting if anything is. -/
structure Worded (s : Scan) : Prop where
  tokens : ∀ t ∈ s.tokens.toList, t.Worded
  waiting : ∀ a ∈ s.waiting, IsWord a.toList

/-- One lexeme more. -/
theorem Worded.accept {track : Bool} {s s' : Scan} {l : Lexeme} {rest : List Char}
    (h : s.Worded) (hfits : l.Fits rest) (haccept : s.accept track l = .ok s') : s'.Worded := by
  obtain ⟨-, htokens, hpending⟩ := accept_ok haccept
  -- The word that waits behind the lexeme waited before, or the lexeme is an annotation.
  have hwaiting : ∀ a ∈ (s.observe l).waiting, IsWord a.toList := by
    intro a ha
    rcases s.observe_pending l with hkeeps | ⟨w, rfl, hnew⟩
    · rw [Scan.waiting, hkeeps] at ha
      exact h.waiting a ha
    · rw [Scan.waiting, hnew, Option.map_some, Option.mem_some_iff] at ha
      rw [← ha, String.toList_ofList]
      exact hfits.1
  constructor
  · intro t ht
    rw [htokens, List.mem_append] at ht
    rcases ht with ht | ht
    · exact h.tokens t ht
    · obtain ⟨u, hu, b, hb, rfl⟩ := exists_of_mem_carry ht
      refine ⟨fun hkind => ?_, fun a ha => ?_⟩
      · exact Lexeme.named_of_mem_tokens (t := u) hfits hu hkind
      · rcases hb with rfl | rfl
        · cases ha
        · exact hwaiting a ha
  · intro a ha
    rw [Scan.waiting, hpending] at ha
    split at ha
    · exact hwaiting a ha
    · cases ha

/-- **A scan makes worded tokens only.** -/
theorem worded_of_ofSource {track : Bool} {source : List Char} {s : Scan}
    (h : ofSource source track = .ok s) : ∀ t ∈ s.tokens.toList, t.Worded := by
  obtain ⟨s', hrun, hfinish⟩ := ofSource_ok h
  have hworded : s'.Worded := by
    refine @run_invariant track (fun _ _ s => s.Worded) ?_ {} s' [] source ?_ hrun
    · intro _ _ _ _ _ _ _ hs hread haccept
      exact hs.accept (Lexeme.fits_of_read hread) haccept
    · exact ⟨List.forall_mem_nil _, nofun⟩
  obtain ⟨-, -, htokens⟩ := finish_ok hfinish
  intro t ht
  rw [htokens, List.mem_append, List.mem_append, Option.mem_toList, List.mem_singleton] at ht
  rcases ht with (ht | ht) | rfl
  · exact hworded.tokens t ht
  · obtain ⟨w, -, rfl⟩ := Option.map_eq_some_iff.mp ht
    exact ⟨nofun, nofun⟩
  · exact ⟨nofun, nofun⟩

end Scan

/-! ## Trees -/

namespace Node

/-- What the atoms are: names and types are words, numbers are finite. -/
def Named : Node → Prop
  | ident _ name => IsName name
  | type _ name => IsWord name.toList
  | num _ value _ => value.isFinite = true
  | _ => True

/-- The words of a node: its annotation, and its name if it is an atom. -/
structure Worded (n : Node) : Prop where
  named : n.Named
  typed : ∀ a ∈ n.mark.ascription, IsWord a.toList

end Node

namespace Grammar

variable {opens : Token → Bool} {t : Token} {ts us run : List Token} {n : Node}

/-- All the tokens of a rule are worded. -/
def AllWorded (ts : List Token) : Prop := ∀ t ∈ ts, t.Worded

theorem allWorded_append : AllWorded (ts ++ us) ↔ AllWorded ts ∧ AllWorded us := by
  simp only [AllWorded, List.mem_append, or_imp, forall_and]

theorem allWorded_cons : AllWorded (t :: ts) ↔ t.Worded ∧ AllWorded ts := List.forall_mem_cons

/-- The first of two annotations that is there. -/
theorem isWord_orElse {a b : Option String} (ha : ∀ w ∈ a, IsWord w.toList)
    (hb : ∀ w ∈ b, IsWord w.toList) : ∀ w ∈ (a <|> b), IsWord w.toList := by
  cases a with
  | none => simpa using hb
  | some a => simpa using ha

theorem isWord_headType (h : AllWorded run) : ∀ a ∈ headType run, IsWord a.toList := by
  cases run with
  | nil => simp [headType]
  | cons t run => exact (h t List.mem_cons_self).typed

/-- A node without a name of its own. -/
theorem worded_of_children {m : Mark} (hm : ∀ a ∈ m.ascription, IsWord a.toList)
    (h : ∀ c ∈ n.children, c.Everywhere Node.Worded) (hmark : n.mark = m := by rfl)
    (hnamed : n.Named := by trivial) : n.Everywhere Node.Worded :=
  .intro ⟨hnamed, hmark ▸ hm⟩ h

theorem worded_ident (kind : t.kind = .identifier) (ht : t.Worded) :
    (identOf t).Everywhere Node.Worded :=
  .intro ⟨ht.named kind, ht.typed⟩ (List.forall_mem_nil _)

theorem worded_str (ht : t.Worded) : (strOf t).Everywhere Node.Worded :=
  worded_of_children ht.typed (List.forall_mem_nil _)

theorem worded_num {m : Mark} {x : Binary64} {text spelled : String} (value : Spells spelled x)
    (hm : ∀ a ∈ m.ascription, IsWord a.toList) : (Node.num m x text).Everywhere Node.Worded :=
  worded_of_children hm (List.forall_mem_nil _) rfl value.2

theorem worded_cast {value : Node} {m : Mark} {span : Span} {name : String}
    (h : value.Everywhere Node.Worded) (hname : IsWord name.toList)
    (hm : ∀ a ∈ m.ascription, IsWord a.toList) :
    (Node.cast m value (.type ⟨span, none⟩ name)).Everywhere Node.Worded := by
  have htype : (Node.type ⟨span, none⟩ name).Everywhere Node.Worded :=
    .intro ⟨hname, nofun⟩ (List.forall_mem_nil _)
  exact worded_of_children hm (by simp [Node.children, h, htype])

theorem worded_asBlock (h : n.Everywhere Node.Worded) : (asBlock n).Everywhere Node.Worded := by
  cases n with
  | block => exact h
  | _ =>
    exact worded_of_children (m := ⟨_, none⟩) (nofun)
      (List.forall_mem_singleton.mpr h)

mutual

theorem Expr.worded {ts : List Token} {n : Node} :
    Expr opens ts n → AllWorded ts → n.Everywhere Node.Worded
  | .str _, h => worded_str (h _ List.mem_cons_self)
  | .num _ value, h => worded_num value (h _ List.mem_cons_self).typed
  | .ident kind, h => worded_ident kind (h _ List.mem_cons_self)
  | .negative _ _ _ _ value, h => by
    rw [allWorded_cons, allWorded_cons] at h
    exact worded_num value (isWord_orElse h.1.typed h.2.1.typed)
  | .form _ form, h => form.worded h

theorem Form.worded {ts : List Token} {n : Node} :
    Form opens ts n → AllWorded ts → n.Everywhere Node.Worded
  | .mk _ _ slots _ node, h => by
    rw [List.cons_append, allWorded_cons, allWorded_append, allWorded_append, allWorded_cons] at h
    obtain ⟨hopening, ⟨hrun, hslots⟩, hclosing, -⟩ := h
    rw [← node]
    refine slots.worded hslots hclosing _ ?_
    exact isWord_orElse hopening.typed (isWord_orElse (isWord_headType hrun) hclosing.typed)

theorem Slots.worded {recipe : Recipe} {ts : List Token} {next : Token} {make : Mark → Node} :
    Slots opens recipe ts next make → AllWorded ts → next.Worded →
      ∀ m : Mark, (∀ a ∈ m.ascription, IsWord a.toList) → (make m).Everywhere Node.Worded
  | .doc _, h, _, _, hm => by
    rw [allWorded_cons] at h
    exact worded_of_children hm (by simp [Node.children, worded_str h.1])
  | .declare kind value, h, _, _, hm => by
    rw [allWorded_cons] at h
    exact worded_of_children hm (by simp [Node.children, worded_ident kind h.1, value.worded h.2])
  | .assign kind value, h, _, _, hm => by
    rw [allWorded_cons] at h
    exact worded_of_children hm (by simp [Node.children, worded_ident kind h.1, value.worded h.2])
  | .increment kind, h, _, _, hm => by
    rw [allWorded_cons] at h
    exact worded_of_children hm (by simp [Node.children, worded_ident kind h.1])
  | .result value, h, _, _, hm =>
    worded_of_children hm (by simp [Node.children, value.worded h])
  | .cast value kind, h, _, _, hm => by
    rw [allWorded_append, allWorded_cons] at h
    exact worded_cast (value.worded h.1) (h.2.1.named kind).1 hm
  | .castByClose value _ type, h, hnext, _, hm =>
    worded_cast (value.worded h) (hnext.typed _ type) hm
  | .param kind, h, _, _, hm => by
    rw [allWorded_cons] at h
    exact worded_of_children (isWord_orElse h.1.typed hm)
      (by simp [Node.children, worded_ident kind h.1])
  | .choice a b c, h, _, _, hm => by
    rw [allWorded_append, allWorded_append] at h
    exact worded_of_children hm
      (by simp [Node.children, a.worded h.1, b.worded h.2.1, c.worded h.2.2])
  | .member object kind, h, _, _, hm => by
    rw [allWorded_append, allWorded_cons] at h
    exact worded_of_children hm
      (by simp [Node.children, object.worded h.1, worded_ident kind h.2.1])
  | .doWhile body condition, h, _, _, hm => by
    rw [allWorded_append] at h
    exact worded_of_children hm (by simp [Node.children, body.worded h.1, condition.worded h.2])
  | .binary a b, h, _, _, hm => by
    rw [allWorded_append] at h
    exact worded_of_children hm (by simp [Node.children, a.worded h.1, b.worded h.2])
  | .signOne a _, h, _, _, hm => worded_of_children hm (by simp [Node.children, a.worded h])
  | .signTwo a b, h, _, _, hm => by
    rw [allWorded_append] at h
    exact worded_of_children hm (by simp [Node.children, a.worded h.1, b.worded h.2])
  | .unary a, h, _, _, hm => worded_of_children hm (by simp [Node.children, a.worded h])
  | .branch a b _, h, _, _, hm => by
    rw [allWorded_append] at h
    exact worded_of_children hm (by simp [Node.children, a.worded h.1, b.worded h.2])
  | .branchElse a b c, h, _, _, hm => by
    rw [allWorded_append, allWorded_append] at h
    exact worded_of_children hm
      (by simp [Node.children, a.worded h.1, b.worded h.2.1, c.worded h.2.2])
  | .call callee items _ _, h, _, _, hm => by
    rw [allWorded_append] at h
    exact worded_of_children hm
      (by simpa [Node.children, callee.worded h.1] using items.worded h.2)
  | .block items _ _, h, _, _, hm => worded_of_children hm (items.worded h)
  | .function params items _ _, h, _, _, hm => by
    rw [allWorded_append] at h
    exact worded_of_children hm
      (by simpa [Node.children, params.worded h.1] using items.worded h.2)
  | .params items _ _, h, _, _, hm => worded_of_children hm (items.worded h)
  | .forLess kind a b items _ _, h, _, _, hm => by
    rw [allWorded_cons, allWorded_append, allWorded_append] at h
    obtain ⟨ht, ha, hb, hitems⟩ := h
    exact worded_of_children hm
      (by simpa [Node.children, worded_ident kind ht, a.worded ha, b.worded hb]
        using items.worded hitems)

theorem Block.worded {ts : List Token} {n : Node} :
    Block opens ts n → AllWorded ts → n.Everywhere Node.Worded
  | .bare _ _ items _ _, h => by
    rw [List.cons_append, allWorded_cons, allWorded_append, allWorded_cons] at h
    obtain ⟨hopening, hitems, hclosing, -⟩ := h
    exact worded_of_children (isWord_orElse hopening.typed hclosing.typed) (items.worded hitems)
  | .form form node, h => node ▸ worded_asBlock (form.worded h)

theorem Item.worded {head : Option String} {ts : List Token} {n : Node} :
    Item opens head ts n → AllWorded ts → n.Everywhere Node.Worded
  | .expr expr, h => expr.worded h
  | .headed _ form, h => form.worded h

theorem Items.worded {head : Option String} {ts : List Token} {ns : List Node} :
    Items opens head ts ns → AllWorded ts → ∀ n ∈ ns, n.Everywhere Node.Worded
  | .nil, _ => List.forall_mem_nil _
  | .cons first more, h => by
    rw [allWorded_append] at h
    exact List.forall_mem_cons.mpr ⟨first.worded h.1, more.worded h.2⟩

end

end Grammar

/-- **Parsing makes worded trees.** -/
theorem parse_worded {source : List Char} {track : Bool} {scan : Scan} {tree : Node} {s : Parsing}
    (hscan : Scan.ofSource source track = .ok scan)
    (h : parseProgram (scan.stream source) = .ok tree s) : tree.Everywhere Node.Worded := by
  obtain ⟨span, forms, rfl, hforms⟩ := parse_stems hscan h
  refine .intro ⟨trivial, nofun⟩ fun n hn => ?_
  obtain ⟨ts, hsubset, -, -, hexpr | hform⟩ := hforms n hn
  · exact hexpr.worded fun t ht => Scan.worded_of_ofSource hscan t (hsubset ht)
  · exact hform.worded fun t ht => Scan.worded_of_ofSource hscan t (hsubset ht)

end FormScript
