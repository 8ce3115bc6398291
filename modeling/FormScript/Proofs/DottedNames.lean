import FormScript.Proofs.Extents
import FormScript.Proofs.Literals
import FormScript.Proofs.Words

/-!
# Dotted names from source to script

`a.b.c` is written in one piece, scanned into the tokens of `(. (. a b) c)`, parsed into member
accesses that are nested to the left, and written in one piece again. **`dotted_name_kept`** follows
a name of any length that can be parsed through all three stages.

In each stage the last word is the outermost, so every induction takes the words off from the end.
The tokens that nobody wrote have no extent and so touch each other, and heads are put together from
tokens that touch; that a point is a head all the same is `Grammar.isHead_point`.
-/

namespace FormScript

/-- Induction on words from the last one on. -/
@[elab_as_elim]
theorem words_induction {motive : List (List Char) → Prop} (ws : List (List Char))
    (nil : motive []) (concat : ∀ ws w, motive ws → motive (ws ++ [w])) : motive ws := by
  induction hlength : ws.length generalizing ws with
  | zero => rwa [List.length_eq_zero_iff.mp hlength]
  | succ k ih =>
    rcases List.eq_nil_or_concat ws with rfl | ⟨ws, w, rfl⟩
    · exact nil
    · rw [List.concat_eq_append] at hlength ⊢
      exact concat ws w (ih ws (by simpa using hlength))

/-- Words joined by points. -/
def dottedName (first : List Char) (ws : List (List Char)) : List Char :=
  first ++ ws.flatMap ('.' :: ·)

theorem dottedName_concat (first w : List Char) (ws : List (List Char)) :
    dottedName first (ws ++ [w]) = dottedName first ws ++ '.' :: w := by
  simp [dottedName]

namespace Node

/-- What a dotted name stands for, without spans: each word is a member of all in front of it. -/
def ofWords (first : List Char) (ws : List (List Char)) : Node :=
  ws.foldl (fun object w => member {} object (ident {} (String.ofList w)))
    (ident {} (String.ofList first))

/-- A name or a member access with a type ascribed to it, or with none. -/
def ascribe (a : Option String) : Node → Node
  | ident m name => ident { m with ascription := a } name
  | member m object property => member { m with ascription := a } object property
  | n => n

theorem ofWords_concat (first w : List Char) (ws : List (List Char)) :
    ofWords first (ws ++ [w]) = member {} (ofWords first ws) (ident {} (String.ofList w)) := by
  rw [ofWords, List.foldl_append]
  rfl

theorem ascribe_none_ofWords (first : List Char) (ws : List (List Char)) :
    (ofWords first ws).ascribe none = ofWords first ws := by
  cases ws using words_induction with
  | nil => rfl
  | concat ws w =>
    rw [ofWords_concat]
    rfl

end Node

/-! ## Tokens -/

theorem length_nameTokens (p : Position) (first : List Char) (ws : List (List Char)) :
    (nameTokens p first ws).length = 4 * ws.length + 1 := by
  induction ws using words_induction with
  | nil => rfl
  | concat ws w ih =>
    rw [nameTokens_concat, List.length_cons, List.length_cons, List.length_append, ih,
      List.length_append]
    show 4 * ws.length + 1 + 2 + 1 + 1 = 4 * (ws.length + 1) + 1
    omega

theorem isEof_carry_nameTokens {a : Option String} {p : Position} {first : List Char}
    {ws : List (List Char)} {t : Token} (ht : t ∈ carry a (nameTokens p first ws)) :
    t.isEof = false := by
  obtain ⟨u, hu, hkind, -⟩ := mem_carry ht
  have hne := (nameTokens_ascription hu).2.2
  rw [← hkind] at hne
  simpa [Token.isEof] using hne

/-! ## Scanning -/

/-- A type that is ascribed to what follows, with a blank behind it. -/
def typeText : Option (List Char) → List Char
  | none => []
  | some t => ':' :: (t ++ [' '])

section Scanning

variable {w : List Char} {ws : List (List Char)}

theorem reads_dottedName (hw : IsWord w) (hws : ∀ v ∈ ws, IsWord v)
    (hlength : ∀ v ∈ w :: ws, v.length ≤ Limits.nameBytes) (hkeyword : w ∉ keywordSpellings) :
    Reads (dottedName w ws) [.name w ws] := by
  obtain ⟨c, cs, rfl⟩ := List.exists_cons_of_ne_nil hw.ne_nil
  have hread := Lexeme.read_dotted hw hws hlength hkeyword ends_nil ends_nil
  rw [List.append_nil] at hread
  exact .cons hread .nil

theorem solid_dottedName (hw : IsWord w) : Solid (dottedName w ws) := by
  obtain ⟨c, cs, rfl⟩ := List.exists_cons_of_ne_nil hw.ne_nil
  exact solid_cons _ (not_mem_signs (by decide) hw.1)

theorem reads_ascription {t cs : List Char} {ls : List Lexeme} (ht : IsWord t) (hcs : Solid cs)
    (h : Reads cs ls) : Reads (':' :: (t ++ ' ' :: cs)) (.ascription t :: .blank ' ' :: ls) := by
  refine .cons ?_ (.cons (Lexeme.read_blank hcs) h)
  show Lexeme.readAscription (t ++ ' ' :: cs) = _
  rw [Lexeme.readAscription, Lexeme.word?_append ht (ends_cons.mpr (by decide))]

/-- An annotation is no token, but it waits for one. -/
theorem exists_reads_typeText (track : Bool) {t : Option (List Char)} (ht : ∀ v ∈ t, IsWord v)
    {cs : List Char} {ls : List Lexeme} (hcs : Solid cs) (h : Reads cs ls) : ∃ front,
      Reads (typeText t ++ cs) (front ++ ls) ∧ ∀ s : Scan, s.waiting = none → ∃ s',
        front.foldlM (Scan.accept track) s = .ok s' ∧ s'.tokens = s.tokens ∧
        s'.waiting = t.map String.ofList := by
  cases t with
  | none => exact ⟨[], h, fun s hs => ⟨s, rfl, rfl, hs⟩⟩
  | some v =>
    refine ⟨[.ascription v, .blank ' '], ?_, fun s _ => ⟨_, rfl, rfl, rfl⟩⟩
    have hreads := reads_ascription (ht v rfl) hcs h
    rwa [typeText, List.cons_append, List.append_assoc]

/-- The line that asks for the other dialect is no token either. -/
theorem exists_reads_line (track : Bool) {line cs : List Char} {ls : List Lexeme}
    (hline : line = [] ∨ line = "#lang = nih-sexpr\n".toList) (h : Reads cs ls) : ∃ front,
      Reads (line ++ cs) (front ++ ls) ∧ ∃ s : Scan,
        front.foldlM (Scan.accept track) {} = .ok s ∧ s.tokens = #[] ∧ s.waiting = none := by
  rcases hline with rfl | rfl
  · exact ⟨[], h, {}, rfl, rfl, rfl⟩
  · refine ⟨[.pragma "#lang = nih-sexpr".toList .sexpr, .newline], ?_, _, rfl, rfl, rfl⟩
    exact .cons (Lexeme.read_pragma cs) (.cons rfl h)

theorem return_not_mem_of_isWord {v : List Char} (hv : IsWord v) : '\r' ∉ v :=
  fun hmem => absurd (hv.isWordChar _ hmem) (by decide)

theorem return_not_mem_dottedName (hw : IsWord w) (hws : ∀ v ∈ ws, IsWord v) :
    '\r' ∉ dottedName w ws := by
  intro hmem
  rcases List.mem_append.mp hmem with hmem | hmem
  · exact return_not_mem_of_isWord hw hmem
  · obtain ⟨v, hv, hmem⟩ := List.mem_flatMap.mp hmem
    rcases List.mem_cons.mp hmem with hpoint | hmem
    · exact absurd hpoint (by decide)
    · exact return_not_mem_of_isWord (hws v hv) hmem

theorem return_not_mem_typeText {t : Option (List Char)} (ht : ∀ v ∈ t, IsWord v) :
    '\r' ∉ typeText t := by
  cases t with
  | none => exact List.not_mem_nil
  | some v => simp [typeText, return_not_mem_of_isWord (ht v rfl)]

/-- **A dotted name is scanned** into its tokens, and an annotation in front of it rides on the
first of them. -/
theorem exists_ofSource_dottedName (track : Bool) {line : List Char}
    (hline : line = [] ∨ line = "#lang = nih-sexpr\n".toList) {t : Option (List Char)}
    (ht : ∀ v ∈ t, IsWord v) (hw : IsWord w) (hws : ∀ v ∈ ws, IsWord v)
    (hlength : ∀ v ∈ w :: ws, v.length ≤ Limits.nameBytes) (hkeyword : w ∉ keywordSpellings)
    (hsome : ws ≠ []) (hroom : 4 * ws.length + 1 ≤ Limits.tokenCount) : ∃ s p last,
      Scan.ofSource (line ++ (typeText t ++ dottedName w ws)) track = .ok s ∧
      s.tokens.toList = carry (t.map String.ofList) (nameTokens p w ws) ++ [last] ∧
      last.isEof = true := by
  have hname := reads_dottedName hw hws hlength hkeyword
  obtain ⟨typed, hreads, htyped⟩ := exists_reads_typeText track ht (solid_dottedName hw) hname
  obtain ⟨front, hreads, s₀, hfront, htokens₀, hwaiting₀⟩ := exists_reads_line track hline hreads
  obtain ⟨s₁, htyped, htokens₁, hwaiting₁⟩ := htyped s₀ hwaiting₀
  -- `s₁` is where the name begins, with no tokens yet.
  have htokens : (Lexeme.name w ws).tokens s₁.cursor.position
      = nameTokens s₁.cursor.position w ws := by
    cases ws with
    | nil => exact absurd rfl hsome
    | cons v ws => rfl
  have hsize : s₁.tokens.size + ((Lexeme.name w ws).tokens s₁.cursor.position).length
      ≤ Limits.tokenCount := by
    rw [htokens₁, htokens₀, htokens, length_nameTokens, Array.size_empty, Nat.zero_add]
    exact hroom
  obtain ⟨s₂, haccept⟩ := @Scan.accept_of_le track s₁ (.name w ws) hsize
  obtain ⟨-, htokens₂, hpending₂⟩ := Scan.accept_ok haccept
  have hpending : s₂.pending = none := by
    rw [hpending₂, htokens, if_neg]
    exact List.ne_nil_of_length_pos (by rw [length_nameTokens]; omega)
  obtain ⟨s, hfinish⟩ := @Scan.finish_of_pending track s₂ hpending
  obtain ⟨-, -, htokens₃⟩ := Scan.finish_ok hfinish
  have hreturn : '\r' ∉ line ++ (typeText t ++ dottedName w ws) := by
    simp only [List.mem_append, not_or]
    refine ⟨?_, return_not_mem_typeText ht, return_not_mem_dottedName hw hws⟩
    rcases hline with rfl | rfl
    · exact List.not_mem_nil
    · simp
  refine ⟨s, s₁.cursor.position, .closing (.point s₂.cursor.position), ?_, ?_, rfl⟩
  · rw [Scan.ofSource_of_reads hreturn hreads, List.foldlM_append, hfront]
    show Except.bind (List.foldlM (Scan.accept track) s₀ (typed ++ [Lexeme.name w ws])) _ = _
    rw [List.foldlM_append, htyped]
    show Except.bind (List.foldlM (Scan.accept track) s₁ [.name w ws]) _ = _
    rw [List.foldlM_cons, haccept]
    exact hfinish
  · have hwaiting : (s₁.observe (.name w ws)).waiting = t.map String.ofList := hwaiting₁
    rw [htokens₃, htokens₂, htokens, hpending, htokens₁, htokens₀, hwaiting]
    simp

end Scanning

/-! ## Derivation -/

namespace Grammar

/-- A point is the head of a form, if what comes next has a text. -/
theorem isHead_point {point : Token} {rest : List Token} (hkind : point.kind = .operator)
    (hpoint : point.text = ".") (hnext : ∀ u ∈ rest.head?, u.text ≠ "") :
    IsHead [point] rest .member where
  joined := by simp [OneWord, Joinable, Token.isOpen, Token.isClose, Token.isSymbol, hkind, hpoint]
  short := (by decide : 1 ≤ longestHead)
  named := by
    rw [spelling, hpoint]
    decide
  longest := by
    intro more hmore hne _ _
    obtain ⟨u, us, rfl⟩ := List.exists_cons_of_ne_nil hne
    obtain ⟨vs, rfl⟩ := hmore
    cases hrecipe : recipe? (spelling ([point] ++ u :: us)) with
    | none => rfl
    | some recipe =>
      have hhead : ∀ v ∈ (u :: us).head?, v.text ≠ "" := hnext
      exact absurd (eq_nil_of_point hpoint hhead hrecipe).1 hne

/-- **The tokens of a dotted name derive its tree**, with the annotation at its root, and are nested
as deep as there are points. -/
theorem exists_expr_nameTokens (a : Option String) (p : Position) {first : List Char}
    (hfirst : first ≠ []) (ws : List (List Char)) : ∃ n,
      Expr Token.isOpen (carry a (nameTokens p first ws)) n ∧
      n.unplaced = (Node.ofWords first ws).ascribe a ∧
      nesting (carry a (nameTokens p first ws)) = ws.length := by
  induction ws using words_induction generalizing a with
  | nil =>
    refine ⟨_, .ident rfl, ?_, Parse.nesting_singleton rfl⟩
    rw [identOf, Node.unplaced]
    rfl
  | concat ws w ih =>
    obtain ⟨object, hobject, htree, hdepth⟩ := ih none
    rw [carry_none nameTokens_plain] at hobject hdepth
    rw [Node.ascribe_none_ofWords] at htree
    obtain ⟨opening, point, word, closing, htokens, ⟨hkind, hopen, -, ha⟩,
        ⟨hsymbol, hpoint, hplain⟩, ⟨hword, htext, hbare⟩, hclose, hquiet, -⟩ :=
      exists_nameTokens_concat a p first w ws
    have hshape : carry a (nameTokens p first (ws ++ [w]))
        = opening :: ([point] ++ (nameTokens p first ws ++ [word])) ++ [closing] := by
      rw [htokens]
      simp
    obtain ⟨t, ts, hhead, ht⟩ := nameTokens_head hfirst p ws
    have hnext : ∀ u ∈ (nameTokens p first ws ++ [word] ++ [closing]).head?, u.text ≠ "" := by
      rw [hhead]
      intro u hu
      obtain rfl : t = u := Option.some.inj hu
      exact ht
    have hmember := isHead_point hsymbol hpoint hnext
    have hslots : Slots Token.isOpen .member (nameTokens p first ws ++ [word]) closing
        (.member · object (identOf word)) := .member hobject hword
    rw [hshape]
    refine ⟨_, .form hkind (.mk hopen hmember hslots hclose rfl), ?_, ?_⟩
    · -- Of the tokens of this form only the opening parenthesis has the annotation.
      rw [Node.ofWords_concat, Node.unplaced, htree, identOf, Node.unplaced, htext, hbare, headType,
        List.head?_cons, Option.bind_some, ha, hplain, hquiet]
      cases a with
      | none => rfl
      | some t => rfl
    · have hobjectWord : nesting (nameTokens p first ws ++ [word]) = ws.length := by
        rw [hobject.balanced.nesting_append, hdepth,
          Parse.nesting_singleton (by rw [hword]; rfl), Nat.max_zero]
      rw [Parse.nesting_form hopen hmember hslots hclose, hobjectWord, List.length_append,
        List.length_singleton]

end Grammar

namespace Parse

open Grammar

/-- A form stands at the top level in either dialect. -/
theorem topForm_of_form {s : Parsing} {t : Token} {ts rest : List Token} {n : Node} {room : Nat}
    (hs : s.stream.Ended) (hsplit : s.stream.remaining = t :: ts ++ rest) (hrest : rest ≠ [])
    (hkind : t.kind = .operator) (hform : Form Token.isOpen (t :: ts) n)
    (hroom : nesting (t :: ts) ≤ room) : ∃ s',
      topForm (level room) s = .ok n s' ∧ s.stream.Passes (t :: ts) s'.stream := by
  cases hdialect : s.stream.dialect with
  | sexpr =>
    exact (recognizesAt_topForm_sexpr hs hdialect).complete ⟨.form hkind hform, hroom⟩ hrest hsplit
  | plain => exact (recognizesAt_topForm_plain hs hdialect).complete ⟨hform, hroom⟩ hrest hsplit

theorem forms_of_isEof {s : Parsing} {top : Level} {count : Nat} (done : List Node)
    (h : s.stream.current.isEof = true) :
    forms top (count + 1) done s = .ok done.reverse s := by
  show (if s.stream.current.isEof then pure done.reverse
    else topForm top >>= fun n => forms top count (n :: done)) s = _
  rw [h]
  rfl

theorem forms_of_topForm {s s' : Parsing} {top : Level} {count : Nat} {n : Node} (done : List Node)
    (h : s.stream.current.isEof = false) (htop : topForm top s = .ok n s') :
    forms top (count + 1) done s = forms top count (n :: done) s' := by
  show (if s.stream.current.isEof then pure done.reverse
    else topForm top >>= fun n => forms top count (n :: done)) s = _
  rw [h]
  show EStateM.bind (topForm top) _ s = _
  unfold EStateM.bind
  rw [htop]

/-- A stream with a form and nothing else is a program, in either dialect. -/
theorem program_of_form {stream : TokenStream} {t last : Token} {ts : List Token} {n : Node}
    (hs : stream.Ended) (hsplit : stream.remaining = t :: ts ++ [last]) (hlast : last.isEof = true)
    (hkind : t.kind = .operator) (hform : Form Token.isOpen (t :: ts) n)
    (hroom : nesting (t :: ts) ≤ Limits.parseDepth) :
    ∃ mark s, parseProgram stream = .ok (.program mark [n]) s := by
  obtain ⟨s, htop, hpasses⟩ := topForm_of_form (s := { stream }) hs hsplit (List.cons_ne_nil _ _)
    hkind hform hroom
  have hfirst : stream.current.isEof = false := by
    rw [(List.cons.inj hsplit).1]
    simp [Token.isEof, hkind]
  have hend : s.stream.current.isEof = true := by
    have hrest := hpasses.remaining.symm.trans hsplit
    rw [(List.cons.inj (List.append_cancel_left hrest)).1]
    exact hlast
  have hforms : forms (level Limits.parseDepth) stream.remaining.length [] { stream }
      = .ok [n] s := by
    have hlength : stream.remaining.length = ts.length + 1 + 1 := by
      rw [hsplit, List.length_append, List.length_cons, List.length_singleton]
    rw [hlength, forms_of_topForm [] hfirst htop, forms_of_isEof [n] hend]
    rfl
  refine ⟨⟨stream.current.span.merge s.stream.current.span, none⟩, s, ?_⟩
  show EStateM.bind (forms (level Limits.parseDepth) stream.remaining.length []) (fun all s' =>
    .ok (Node.program ⟨stream.current.span.merge s'.stream.current.span, none⟩ all) s')
      { stream } = _
  unfold EStateM.bind
  rw [hforms]

end Parse

/-! ## Writing -/

namespace Node

theorem exists_of_unplaced_eq_ident {n : Node} {m : Mark} {name : String}
    (h : n.unplaced = ident m name) : ∃ m', n = ident m' name := by
  cases n with
  | ident m' name' =>
    rw [unplaced] at h
    cases h
    exact ⟨m', rfl⟩
  | branch _ _ _ no => cases no <;> simp [unplaced] at h
  | _ => simp [unplaced] at h

theorem exists_of_unplaced_eq_member {n object property : Node} {m : Mark}
    (h : n.unplaced = member m object property) : ∃ m' object' property',
      n = member m' object' property' ∧ object'.unplaced = object ∧
        property'.unplaced = property := by
  cases n with
  | member m' object' property' =>
    rw [unplaced] at h
    cases h
    exact ⟨m', object', property', rfl, rfl, rfl⟩
  | branch _ _ _ no => cases no <;> simp [unplaced] at h
  | _ => simp [unplaced] at h

end Node

namespace Script

/-- One level deeper. -/
def deeper (e : Emitting) : Emitting :=
  { e with
    depth := e.depth + 1
    tally := { e.tally with deepest := max e.tally.deepest (e.depth + 1) } }

theorem nested_ok {step : Emit String} {e e' : Emitting} {text : String}
    (h : step (deeper e) = .ok text e') :
    nested step e = .ok text { e' with depth := e'.depth - 1 } := by
  unfold deeper at h
  unfold nested
  dsimp only
  rw [h]

theorem writer_expr_ok {docs : Bool} {room : Nat} {n : Node} {e e' : Emitting} {text : String}
    (h : exprBody (writer docs room) n (deeper e).countExpression = .ok text e') :
    (writer docs (room + 1)).expr n e = .ok text { e' with depth := e'.depth - 1 } :=
  @nested_ok (do modify Emitting.countExpression; exprBody (writer docs room) n) e e' text h

theorem writer_stmt_ok {docs : Bool} {room : Nat} {n : Node} {e e' : Emitting} {text : String}
    (h : stmtBody docs (writer docs room) n (deeper e).countStatement = .ok text e') :
    (writer docs (room + 1)).stmt n e = .ok text { e' with depth := e'.depth - 1 } :=
  @nested_ok (do modify Emitting.countStatement; stmtBody docs (writer docs room) n) e e' text h

/-- What a first word is written as: what a built-in function is called, or else the word. -/
def firstWord (w : List Char) : List Char :=
  ((builtin? (String.ofList w)).getD (String.ofList w)).toList

/-- **A tree of member accesses is written as a dotted name**, if there is room for it and its first
word is not a variable. -/
theorem expr_ofWords (docs : Bool) {w : List Char} {ws : List (List Char)} {a : Option String}
    {n : Node} (h : n.unplaced = (Node.ofWords w ws).ascribe a) {room : Nat}
    (hroom : ws.length ≤ room) {e : Emitting} (hfree : e.isBound (String.ofList w) = false) : ∃ e',
      (writer docs (room + 1)).expr n e = .ok (String.ofList (dottedName (firstWord w) ws)) e' ∧
      e'.scopes = e.scopes ∧ e'.indent = e.indent := by
  induction ws using words_induction generalizing a n room e with
  | nil =>
    obtain ⟨m, rfl⟩ := Node.exists_of_unplaced_eq_ident h
    have hbound : (deeper e).countExpression.isBound (String.ofList w) = false := hfree
    have hword : exprBody (writer docs room) (.ident m (String.ofList w)) (deeper e).countExpression
        = .ok (String.ofList (dottedName (firstWord w) [])) (deeper e).countExpression := by
      rw [dottedName, List.flatMap_nil, List.append_nil, firstWord, String.ofList_toList]
      show identifier (String.ofList w) _ = _
      rw [identifier, hbound]
      rfl
    exact ⟨_, writer_expr_ok hword, rfl, rfl⟩
  | concat ws v ih =>
    rw [Node.ofWords_concat] at h
    obtain ⟨m, object, property, rfl, hobject, hproperty⟩ := Node.exists_of_unplaced_eq_member h
    obtain ⟨m', rfl⟩ := Node.exists_of_unplaced_eq_ident hproperty
    rw [List.length_append, List.length_singleton] at hroom
    obtain ⟨below, rfl⟩ := Nat.exists_eq_add_one_of_ne_zero (show room ≠ 0 by omega)
    rw [← Node.ascribe_none_ofWords] at hobject
    -- The object is written in the state that the member access has entered.
    have hbound : (deeper e).countExpression.isBound (String.ofList w) = false := hfree
    obtain ⟨e', hexpr, hscopes, hindent⟩ := ih hobject (Nat.le_of_succ_le_succ hroom) hbound
    have hmember : exprBody (writer docs (below + 1))
        (.member m object (.ident m' (String.ofList v))) (deeper e).countExpression
          = .ok (String.ofList (dottedName (firstWord w) (ws ++ [v]))) e' := by
      have hpoint : '.' :: v = ".".toList ++ v := rfl
      rw [dottedName_concat, hpoint, String.ofList_append, String.ofList_append,
        String.ofList_toList, ← String.append_assoc]
      show EStateM.bind ((writer docs (below + 1)).expr object) _ _ = _
      unfold EStateM.bind
      rw [hexpr]
      rfl
    exact ⟨_, writer_expr_ok hmember, hscopes, hindent⟩

/-- As a statement, the name is a line. -/
theorem stmt_ofWords (docs : Bool) {w : List Char} {ws : List (List Char)} {a : Option String}
    {n : Node} (h : n.unplaced = (Node.ofWords w ws).ascribe a) {room : Nat}
    (hroom : ws.length ≤ room) {e : Emitting} (hfree : e.isBound (String.ofList w) = false) : ∃ e',
      (writer docs (room + 2)).stmt n e
        = .ok (lineAt e.indent (String.ofList (dottedName (firstWord w) ws) ++ ";")) e' ∧
      e'.scopes = e.scopes := by
  have hbound : (deeper e).countStatement.isBound (String.ofList w) = false := hfree
  obtain ⟨e', hexpr, hscopes, hindent⟩ := expr_ofWords docs h hroom hbound
  have hstmt : ∀ below, stmtBody docs below n = below.expr n >>= fun text => line s!"{text};" := by
    intro below
    cases ws using words_induction with
    | nil =>
      obtain ⟨m, rfl⟩ := Node.exists_of_unplaced_eq_ident h
      rfl
    | concat ws v =>
      rw [Node.ofWords_concat] at h
      obtain ⟨m, object, property, rfl, -, -⟩ := Node.exists_of_unplaced_eq_member h
      rfl
  have hline : stmtBody docs (writer docs (room + 1)) n (deeper e).countStatement
      = .ok (lineAt e.indent (String.ofList (dottedName (firstWord w) ws) ++ ";")) e' := by
    rw [hstmt]
    show EStateM.bind ((writer docs (room + 1)).expr n) _ _ = _
    unfold EStateM.bind
    rw [hexpr]
    show EStateM.Result.ok (lineAt e'.indent _) e' = _
    rw [hindent]
    rfl
  exact ⟨_, writer_stmt_ok hline, hscopes⟩

end Script

/-! ## All stages -/

/-- **A dotted name is kept.** A program that is nothing but words joined by points, the first of
which is no keyword, has four tokens for each point and one more. It is parsed into member accesses,
each of which has as its object all that stands in front of the point, and its script is a statement
with the words joined by points again, where only the first word may have been replaced, by what the
built-in function of that name is called. A type ascribed to the name is ascribed to the outermost
member access and to nothing else. All this is so in both dialects, for as many points as
parentheses may be nested. -/
theorem dotted_name_kept {w : List Char} {ws : List (List Char)} (hw : IsWord w)
    (hws : ∀ v ∈ ws, IsWord v) (hlength : ∀ v ∈ w :: ws, v.length ≤ Limits.nameBytes)
    (hkeyword : Category.keyword.has (String.ofList w) = false) (hsome : 1 ≤ ws.length)
    (hfew : ws.length ≤ Limits.parseDepth) {t : Option (List Char)} (ht : ∀ v ∈ t, IsWord v)
    {line : List Char} (hline : line = [] ∨ line = "#lang = nih-sexpr\n".toList)
    (p : Preferences) : ∃ c mark tree,
      compile p (line ++ (typeText t ++ dottedName w ws)) = .ok c ∧
      c.tokenCount = 4 * ws.length + 1 ∧
      c.tree = .program mark [tree] ∧
      tree.unplaced = (Node.ofWords w ws).ascribe (t.map String.ofList) ∧
      c.code = (if p.scriptOptions.includePrelude then prelude else "")
        ++ String.ofList (dottedName (Script.firstWord w) ws) ++ ";\n" := by
  have hspelling : w ∉ keywordSpellings := by
    intro hmem
    rw [(has_keyword_iff w).mpr hmem] at hkeyword
    cases hkeyword
  have hroom : 4 * ws.length + 1 ≤ Limits.tokenCount := by
    have : 4 * Limits.parseDepth + 1 ≤ Limits.tokenCount := by decide
    omega
  obtain ⟨scan, start, last, hscan, htokens, hlast⟩ := exists_ofSource_dottedName
    (p.isOn .trackOperators) hline ht hw hws hlength hspelling (List.ne_nil_of_length_pos hsome)
    hroom
  have hremaining := (Scan.stream_remaining hscan).trans htokens
  obtain ⟨tree, hexpr, htree, hdepth⟩ := Grammar.exists_expr_nameTokens (t.map String.ofList) start
    hw.ne_nil ws
  -- The tokens begin with a parenthesis, so they are a form.
  obtain ⟨opening, more, hopening, hkind, hopen⟩ : ∃ opening more,
      carry (t.map String.ofList) (nameTokens start w ws) = opening :: more ∧
        opening.kind = .operator ∧ opening.isOpen = true := by
    cases ws with
    | nil => cases hsome
    | cons v ws => exact ⟨_, _, rfl, rfl, rfl⟩
  rw [hopening] at hexpr hdepth hremaining
  obtain ⟨mark, s, hparse⟩ := Parse.program_of_form (Scan.stream_ended hscan) hremaining hlast hkind
    ((Grammar.expr_open hkind hopen).mp hexpr) (hdepth ▸ hfew)
  obtain ⟨e, hstmt, hscopes⟩ := Script.stmt_ofWords p.scriptOptions.docComments htree
    (show ws.length ≤ Limits.emitDepth - 2 from Nat.le_trans hfew (by decide))
    (e := { scopes := [{ isFunction := true }] }) rfl
  have hwrite := writeScript_of_stmt p.scriptOptions mark hstmt hscopes
  refine ⟨⟨scan, s, _, e, _⟩, mark, tree, compile_eq_ok_iff.mpr ⟨hscan, hparse, hwrite⟩, ?_, rfl,
    htree, rfl⟩
  show scan.tokens.toList.countP (!·.isEof) = _
  have hcount : (carry (t.map String.ofList) (nameTokens start w ws)).countP (!·.isEof)
      = 4 * ws.length + 1 := by
    rw [List.countP_eq_length.mpr, length_carry, length_nameTokens]
    intro u hu
    rw [isEof_carry_nameTokens hu]
    rfl
  rw [htokens, List.countP_append, hcount, List.countP_singleton, hlast]
  rfl

/-- A name with a built-in function for its first word, a keyword behind it, and a type. -/
def memberSource : List Char := "#lang = nih-sexpr\n:f64 sin.if.x_1".toList

theorem memberSource_kept : ∃ c mark tree, compile {} memberSource = .ok c ∧ c.tokenCount = 9 ∧
    c.tree = .program mark [tree] ∧
    tree.unplaced = .member { ascription := some "f64" }
      (.member {} (.ident {} "sin") (.ident {} "if")) (.ident {} "x_1") ∧
    c.code = prelude ++ "Math.sin.if.x_1" ++ ";\n" := by
  have hword : ∀ {c : Char} {cs : List Char}, isWordStart c = true → cs.all isWordChar = true →
      IsWord (c :: cs) := fun hc hcs => ⟨hc, List.all_eq_true.mp hcs⟩
  obtain ⟨c, mark, tree, hcompile, hcount, hprogram, htree, hcode⟩ :=
    @dotted_name_kept "sin".toList ["if".toList, "x_1".toList] (hword rfl rfl)
      (List.forall_mem_cons.mpr
        ⟨hword rfl rfl, List.forall_mem_singleton.mpr (hword rfl rfl)⟩)
      (by decide) (by decide +kernel) (by decide) (by decide) (some "f64".toList)
      (fun v hv => Option.some.inj hv ▸ hword rfl rfl) _ (.inr rfl) {}
  have hname : String.ofList
      (dottedName (Script.firstWord "sin".toList) ["if".toList, "x_1".toList])
        = "Math.sin.if.x_1" := by decide +kernel
  rw [hname] at hcode
  exact ⟨c, mark, tree, hcompile, hcount, hprogram, htree, hcode⟩

end FormScript
