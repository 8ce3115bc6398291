import FormScript.Proofs.Refusal
import FormScript.Proofs.RoundTrip

/-!
# How deep writing goes

The parser counts parentheses, the writer counts visits, and each has its own limit. A pair of
parentheses costs the writer two levels at most: an expression that stands as a statement is visited
twice, and the body of a function is where statements get into an expression. What is nested `p`
deep therefore takes `2 * p` levels as an expression and one more as a statement, and atoms alone
are ever on the last of them (`Node.FitsNesting`). One induction over the rules of the grammar shows
it.

With the limits as they are this falls short by a single level, and only where parentheses are
nested as deep as can be parsed. There a function in a function, down to a call, is parsed and then
refused.
-/

namespace FormScript

open Grammar
open Script (bodyOf)

namespace Node

/-! ## Visits that are made -/

/-- A part that has gone astray, or a construct without a value where one is needed. -/
def RefusedAs (role : Role) (n : Node) : Prop :=
  n.tag.isPart = true ∨ role = .expression ∧ n.tag.isStatementOnly = true

/-- A visit that writing a node in a role comes to: what is inside a node that is refused is
none. -/
inductive Reaches : Role → Nat → Node → Visit → Prop
  | here {role : Role} {depth : Nat} {n : Node} : Reaches role depth n ⟨n, role, depth⟩
  | inside {role role' : Role} {depth : Nat} {n c : Node} {v : Visit}
      (writable : ¬ n.RefusedAs role) (mem : (role', c) ∈ n.inside role)
      (more : Reaches role' (depth + 1) c v) : Reaches role depth n v

variable {e : EmitError}

/-- The first refusal among the visits is that of a visit that is made. -/
theorem exists_reaches {role : Role} {depth : Nat} {n : Node}
    (h : (n.visits role depth).findSome? Visit.refusal? = some e) :
    ∃ v, Reaches role depth n v ∧ v.refusal? = some e := by
  rw [visits_eq, Script.findSome?_cons_or, Script.findSome?_flatMap] at h
  cases hrefusal : Visit.refusal? ⟨n, role, depth⟩ with
  | some e' =>
    rw [hrefusal, Option.some_or] at h
    exact ⟨_, .here, hrefusal.trans h⟩
  | none =>
    rw [hrefusal, Option.none_or] at h
    obtain ⟨c, hc, hv⟩ := List.exists_of_findSome?_eq_some h
    obtain ⟨v, hreaches, hv⟩ := exists_reaches hv
    obtain ⟨-, hpart, hvalue⟩ := Visit.refusal?_eq_none_iff.mp hrefusal
    refine ⟨v, .inside ?_ hc hreaches, hv⟩
    rintro (h | ⟨hrole, h⟩)
    · exact Bool.false_ne_true (hpart.symm.trans h)
    · exact Bool.false_ne_true ((hvalue hrole).symm.trans h)
termination_by n.weight role
decreasing_by exact weight_lt_of_mem_inside hc

variable {role role' : Role} {depth : Nat} {n b c : Node} {v : Visit}

theorem Reaches.mem_visits (h : Reaches role depth n v) : v ∈ n.visits role depth := by
  induction h with
  | here =>
    rw [visits_eq]
    exact List.mem_cons_self
  | inside _ mem _ ih => exact mem_visits_of_mem_inside mem ih

/-- Depths are counted from wherever the writing starts. -/
theorem Reaches.shift (h : Reaches role depth n v) :
    Reaches role (depth + 1) n { v with depth := v.depth + 1 } := by
  induction h with
  | here => exact .here
  | inside writable mem _ ih => exact .inside writable mem ih

/-! ## Levels -/

/-- Texts, numbers and names. -/
def isAtom : Node → Bool
  | str .. | num .. | ident .. => true
  | _ => false

/-- Writing the node in a role takes at most so many levels, and the last one for atoms only. -/
def FitsIn (role : Role) (levels : Nat) (n : Node) : Prop :=
  ∀ depth v, Reaches role depth n v →
    v.depth + (if v.node.isAtom then 0 else 1) < depth + levels

/-- The levels for what is nested `p` deep. -/
def levelsFor (p : Nat) : Role → Nat
  | .expression => max 1 (2 * p)
  | .statement => max 1 (2 * p) + 1

/-- Writing the node takes no more levels than there are for what is nested so deep. -/
def FitsNesting (p : Nat) (n : Node) : Prop := ∀ role, n.FitsIn role (levelsFor p role)

variable {levels levels' p q : Nat}

theorem FitsIn.mono (h : n.FitsIn role levels) (hle : levels ≤ levels') :
    n.FitsIn role levels' := by
  intro depth v hv
  have := h depth v hv
  omega

theorem FitsNesting.mono (h : n.FitsNesting p) (hle : p ≤ q) : n.FitsNesting q := by
  intro role
  refine (h role).mono ?_
  cases role with
  | expression => simp only [levelsFor]; omega
  | statement => simp only [levelsFor]; omega

/-- One level for the node, the others for what is inside. -/
theorem fitsIn_of_inside (hn : (if n.isAtom then 0 else 1) < levels)
    (h : ¬ n.RefusedAs role → ∀ role' c, (role', c) ∈ n.inside role →
      c.FitsIn role' (levels - 1)) : n.FitsIn role levels := by
  intro depth v hv
  cases hv with
  | here =>
    dsimp only
    omega
  | inside writable mem more =>
    have := h writable _ _ mem _ v more
    omega

theorem fitsNesting_of_isAtom (h : n.isAtom = true) (p : Nat) : n.FitsNesting p := by
  have hvalue : n.FitsIn .expression 1 := by
    refine fitsIn_of_inside (by simp [h]) fun _ role' c hc => ?_
    cases n with
    | str | num | ident => cases hc
    | _ => cases h
  have hstmt : n.FitsIn .statement 2 := by
    refine fitsIn_of_inside (by simp [h]) fun _ role' c hc => ?_
    cases n with
    | str | num | ident =>
      obtain ⟨rfl, rfl⟩ := Prod.mk.inj (List.mem_singleton.mp hc)
      exact hvalue
    | _ => cases h
  intro role
  cases role with
  | expression => exact hvalue.mono (by simp only [levelsFor]; omega)
  | statement => exact hstmt.mono (by simp only [levelsFor]; omega)

/-- Only in functions do statements stand in an expression. -/
theorem tag_of_statement_mem_inside (h : (.statement, c) ∈ n.inside .expression)
    (hwritable : ¬ n.RefusedAs .expression) : n.tag = .function := by
  cases n with
  | function => rfl
  | program | doc | declare | assign | increment | doWhile | result | forLess | block =>
    exact absurd (.inr ⟨rfl, rfl⟩) hwritable
  | unary | binary | call | cast | branch | choice | member =>
    simp [inside, operands] at h
  | _ => cases h

/-- **A form is one deeper than what is in it.** A function needs some more room, which it has: its
parameter list is a form. -/
theorem fitsNesting_of_inside
    (h : ∀ role role' c, (role', c) ∈ n.inside role →
      (c = n ∧ role = .statement ∧ role' = .expression) ∨ c.FitsIn role' (levelsFor p role'))
    (hfunction : n.tag = .function → 1 ≤ p) : n.FitsNesting (p + 1) := by
  have hvalue : n.FitsIn .expression (2 * p + 2) := by
    refine fitsIn_of_inside (by split <;> omega) fun hwritable role' c hc => ?_
    rcases h .expression role' c hc with ⟨-, hrole, -⟩ | hc'
    · cases hrole
    · cases role' with
      | expression => exact hc'.mono (by simp only [levelsFor]; omega)
      | statement =>
        have := hfunction (tag_of_statement_mem_inside hc hwritable)
        exact hc'.mono (by simp only [levelsFor]; omega)
  have hstmt : n.FitsIn .statement (2 * p + 3) := by
    refine fitsIn_of_inside (by split <;> omega) fun _ role' c hc => ?_
    rcases h .statement role' c hc with ⟨rfl, -, rfl⟩ | hc'
    · exact hvalue
    · cases role' with
      | expression => exact hc'.mono (by simp only [levelsFor]; omega)
      | statement => exact hc'.mono (by simp only [levelsFor]; omega)
  intro role
  cases role with
  | expression => exact hvalue.mono (by simp only [levelsFor]; omega)
  | statement => exact hstmt.mono (by simp only [levelsFor]; omega)

/-- The statements of a block are visited behind the block, and so take less. -/
theorem FitsNesting.of_mem_block (h : b.FitsNesting p) (hblock : b.tag = .block)
    (hc : c ∈ b.forms) : c.FitsIn .statement (levelsFor p .statement) := by
  intro depth v hv
  have hreaches : Reaches .statement depth b { v with depth := v.depth + 1 } := by
    cases b with
    | block m body =>
      refine .inside ?_ (List.mem_map_of_mem hc) hv.shift
      rintro (h | ⟨h, -⟩) <;> cases h
    | unary _ op _ | binary _ op _ _ => cases op <;> cases hblock
    | _ => cases hblock
  have := h .statement depth _ hreaches
  dsimp only at this
  omega

theorem fitsNesting_of_forms (h : ∀ c ∈ n.forms, c.FitsNesting p)
    (hfunction : n.tag = .function → 1 ≤ p := by simp [Node.tag]) : n.FitsNesting (p + 1) := by
  refine fitsNesting_of_inside (fun role role' c hc => ?_) hfunction
  rcases of_mem_inside hc with (hform | ⟨b, hb, hblock, hstatement, rfl⟩) | hself
  · exact .inr (h c hform role')
  · exact .inr ((h b hb).of_mem_block hblock hstatement)
  · exact .inl hself

end Node

/-! ## Rule by rule -/

namespace Grammar

variable {opens : Token → Bool} {ts us : List Token} {n : Node}

theorem nesting_cons_ident {t : Token} (kind : t.kind = .identifier) (ts : List Token) :
    nesting (t :: ts) = nesting ts := by
  obtain ⟨hopen, hclose⟩ := not_paren_of_kind (t := t) (by rw [kind]; rfl)
  exact deepest_plain 0 ts hopen hclose

theorem Item.nesting_pos {head : String} (h : Item opens (some head) ts n) : 0 < nesting ts := by
  cases h with
  | headed _ form => exact form.nesting_pos

/-- What is in the first of two pieces. -/
theorem fits_left (hts : Balanced ts) (h : n.FitsNesting (nesting ts)) :
    n.FitsNesting (nesting (ts ++ us)) :=
  h.mono (by rw [hts.nesting_append]; omega)

/-- What is in the second of two pieces. -/
theorem fits_right (hts : Balanced ts) (h : n.FitsNesting (nesting us)) :
    n.FitsNesting (nesting (ts ++ us)) :=
  h.mono (by rw [hts.nesting_append]; omega)

theorem fits_ident (t : Token) (p : Nat) : (identOf t).FitsNesting p :=
  Node.fitsNesting_of_isAtom rfl p

theorem fits_str (t : Token) (p : Nat) : (strOf t).FitsNesting p :=
  Node.fitsNesting_of_isAtom rfl p

theorem fits_unary {p : Nat} (h : n.FitsNesting p) (m : Mark) (op : UnaryOp) :
    (Node.unary m op n).FitsNesting (p + 1) :=
  Node.fitsNesting_of_forms (List.forall_mem_singleton.mpr h)
    (by cases op <;> simp [Node.tag, UnaryOp.tag])

theorem fits_binary {p : Nat} {a b : Node} (ha : a.FitsNesting p) (hb : b.FitsNesting p)
    (m : Mark) (op : BinaryOp) : (Node.binary m op a b).FitsNesting (p + 1) :=
  Node.fitsNesting_of_forms (by simp [Node.forms, Node.children, ha, hb])
    (by cases op <;> simp [Node.tag, BinaryOp.tag])

theorem fits_asBlock {p : Nat} (h : n.FitsNesting p) :
    ∀ c ∈ bodyOf (asBlock n), c.FitsIn .statement (Node.levelsFor p .statement) := by
  cases n with
  | block => exact fun c hc => h.of_mem_block rfl hc
  | _ => exact List.forall_mem_singleton.mpr (h .statement)

mutual

theorem Expr.fits {ts : List Token} {n : Node} : Expr opens ts n → n.FitsNesting (nesting ts)
  | .str _ => fits_str _ _
  | .num _ _ => Node.fitsNesting_of_isAtom rfl _
  | .ident _ => fits_ident _ _
  | .negative _ _ _ _ _ => Node.fitsNesting_of_isAtom rfl _
  | .form _ form => form.fits

theorem Form.fits {ts : List Token} {n : Node} : Form opens ts n → n.FitsNesting (nesting ts)
  | .mk opened head slots closed node => by
    obtain ⟨hrun, hzero⟩ := head.joined.balanced
    rw [((hrun.append slots.balanced).enclose opened closed).2, hrun.nesting_append, hzero,
      Nat.zero_max, ← node]
    exact slots.fits _

theorem Slots.fits {recipe : Recipe} {ts : List Token} {next : Token} {make : Mark → Node} :
    Slots opens recipe ts next make → ∀ m, (make m).FitsNesting (nesting ts + 1)
  | .doc _, _ => Node.fitsNesting_of_forms (List.forall_mem_singleton.mpr (fits_str _ _))
  | .declare kind value, _ => by
    rw [nesting_cons_ident kind]
    exact Node.fitsNesting_of_forms
      (List.forall_mem_cons.mpr ⟨fits_ident _ _, List.forall_mem_singleton.mpr value.fits⟩)
  | .assign kind value, _ => by
    rw [nesting_cons_ident kind]
    exact Node.fitsNesting_of_forms
      (List.forall_mem_cons.mpr ⟨fits_ident _ _, List.forall_mem_singleton.mpr value.fits⟩)
  | .increment _, _ => Node.fitsNesting_of_forms (List.forall_mem_singleton.mpr (fits_ident _ _))
  | .result value, _ => Node.fitsNesting_of_forms (List.forall_mem_singleton.mpr value.fits)
  | .cast value _, _ =>
    Node.fitsNesting_of_forms
      (List.forall_mem_singleton.mpr (fits_left value.balanced value.fits))
  | .castByClose value _ _, _ =>
    Node.fitsNesting_of_forms (List.forall_mem_singleton.mpr value.fits)
  | .param _, _ => Node.fitsNesting_of_forms (List.forall_mem_singleton.mpr (fits_ident _ _))
  | .choice a b c, _ => by
    refine Node.fitsNesting_of_forms ?_
    simp only [Node.forms, Node.children, List.forall_mem_cons]
    exact ⟨fits_left a.balanced a.fits, fits_right a.balanced (fits_left b.balanced b.fits),
      fits_right a.balanced (fits_right b.balanced c.fits), List.forall_mem_nil _⟩
  | .member object kind, _ => by
    refine Node.fitsNesting_of_forms ?_
    simp [Node.forms, Node.children, fits_left object.balanced object.fits, fits_ident]
  | .doWhile body condition, _ => by
    have hcondition := fits_right body.balanced condition.fits
    refine Node.fitsNesting_of_inside (fun role role' c hc => .inr ?_) (by simp [Node.tag])
    simp only [Node.inside, List.mem_append, List.mem_map, List.mem_singleton,
      Prod.mk.injEq] at hc
    rcases hc with ⟨d, hd, rfl, rfl⟩ | ⟨rfl, rfl⟩
    · refine (body.fits d hd).mono ?_
      simp only [Node.levelsFor, body.balanced.nesting_append]
      omega
    · exact hcondition .expression
  | .binary a b, _ =>
    fits_binary (fits_left a.balanced a.fits) (fits_right a.balanced b.fits) _ _
  | .signOne a _, _ => fits_unary a.fits _ _
  | .signTwo a b, _ =>
    fits_binary (fits_left a.balanced a.fits) (fits_right a.balanced b.fits) _ _
  | .unary a, _ => fits_unary a.fits _ _
  | .branch a b _, _ => by
    refine Node.fitsNesting_of_forms ?_
    simp [Node.forms, Node.children, fits_left a.balanced a.fits, fits_right a.balanced b.fits]
  | .branchElse a b c, _ => by
    refine Node.fitsNesting_of_forms ?_
    simp only [Node.forms, Node.children, List.forall_mem_cons]
    exact ⟨fits_left a.balanced a.fits, fits_right a.balanced (fits_left b.balanced b.fits),
      fits_right a.balanced (fits_right b.balanced c.fits), List.forall_mem_nil _⟩
  | .call callee items _ _, _ =>
    Node.fitsNesting_of_forms (List.forall_mem_cons.mpr
      ⟨fits_left callee.balanced callee.fits,
        fun c hc => fits_right callee.balanced (items.fits c hc)⟩)
  | .block items _ _, _ => Node.fitsNesting_of_forms items.fits
  | .function params items _ _, _ => by
    refine Node.fitsNesting_of_forms
      (fun c hc => fits_right params.balanced (items.fits c hc)) fun _ => ?_
    have := params.nesting_pos
    rw [params.balanced.nesting_append]
    omega
  | .params items _ _, _ => Node.fitsNesting_of_forms items.fits
  | .forLess kind a b items _ _, _ => by
    rw [nesting_cons_ident kind]
    refine Node.fitsNesting_of_forms ?_
    simp only [Node.forms, Node.children, List.forall_mem_cons]
    exact ⟨fits_ident _ _, fits_left a.balanced a.fits,
      fits_right a.balanced (fits_left b.balanced b.fits),
      fun c hc => fits_right a.balanced (fits_right b.balanced (items.fits c hc))⟩

theorem Block.fits {ts : List Token} {n : Node} : Block opens ts n →
    ∀ c ∈ bodyOf n, c.FitsIn .statement (Node.levelsFor (nesting ts) .statement)
  | .bare opened _ items _ closed => by
    rw [(items.balanced.enclose opened closed).2]
    exact fun c hc => (items.fits c hc).mono (Nat.le_succ _) .statement
  | .form form node => node ▸ fits_asBlock form.fits

theorem Item.fits {head : Option String} {ts : List Token} {n : Node} :
    Item opens head ts n → n.FitsNesting (nesting ts)
  | .expr expr => expr.fits
  | .headed _ form => form.fits

theorem Items.fits {head : Option String} {ts : List Token} {ns : List Node} :
    Items opens head ts ns → ∀ n ∈ ns, n.FitsNesting (nesting ts)
  | .nil => List.forall_mem_nil _
  | .cons first more => List.forall_mem_cons.mpr
      ⟨fits_left first.balanced first.fits, fun n hn => fits_right first.balanced (more.fits n hn)⟩

end

theorem Stems.fits {room : Nat} (h : Stems room ts n) : n.FitsNesting (min room (nesting ts)) := by
  obtain ⟨us, -, hnesting, hroom, hexpr | hform⟩ := h
  · exact hexpr.fits.mono (by omega)
  · exact hform.fits.mono (by omega)

end Grammar

/-! ## Programs -/

theorem Visit.of_tooDeep {v : Visit} {e : EmitError} (h : v.refusal? = some e)
    (hcause : e.cause = .tooDeep) : Limits.emitDepth < v.depth ∧ e.span = v.node.span := by
  unfold Visit.refusal? at h
  split at h
  · rename_i hdepth
    cases h
    exact ⟨hdepth, rfl⟩
  · split at h
    · cases h
      cases hcause
    · split at h
      · cases h
        cases hcause
      · cases h

/-- **Where the depth of writing ends what was parsed.** Only a program with parentheses nested as
deep as can be parsed is ever found too deep to be written, and then at an atom, which is one level
too deep and not more. -/
theorem writeScript_tooDeep {source : List Char} {track : Bool} {stream : TokenStream}
    {tally : Tally} {tree : Node} {s : Parsing} {options : ScriptOptions} {e : EmitError}
    {s' : Emitting} (htokens : tokenize source track = .ok (stream, tally))
    (hparse : parseProgram stream = .ok tree s) (h : writeScript options tree = .error e s')
    (hcause : e.cause = .tooDeep) :
    Limits.parseDepth ≤ nesting stream.remaining ∧
      ∃ v ∈ programVisits tree.children, v.depth = Limits.emitDepth + 1 ∧ v.node.isAtom = true ∧
        e.span = v.node.span := by
  obtain ⟨scan, hscan, rfl, -⟩ := Scan.ofSource_of_tokenize htokens
  obtain ⟨span, forms, rfl, hforms⟩ := parse_stems hscan hparse
  have hreports := writeScript_reports options ⟨span, none⟩ forms
    fun n hn m hm => ((hforms n hn).derived.regular m hm).shaped
  simp only [h] at hreports
  unfold programVisits at hreports
  rw [Script.findSome?_flatMap] at hreports
  obtain ⟨n, hn, hvisits⟩ := List.exists_of_findSome?_eq_some hreports
  obtain ⟨v, hreaches, hv⟩ := Node.exists_reaches hvisits
  obtain ⟨hdeep, hspan⟩ := Visit.of_tooDeep hv hcause
  -- The form fits into twice its nesting, and the limits are two to one.
  have hfits := (hforms n hn).fits .statement 1 v hreaches
  have hlimits : Limits.emitDepth = 2 * Limits.parseDepth ∧ 0 < Limits.parseDepth := by decide
  simp only [Node.levelsFor] at hfits
  rw [Scan.stream_remaining hscan]
  refine ⟨by omega, v, List.mem_flatMap.mpr ⟨n, hn, hreaches.mem_visits⟩, by omega, ?_, hspan⟩
  cases hatom : v.node.isAtom with
  | true => rfl
  | false =>
    simp only [hatom, Bool.false_eq_true, if_false] at hfits
    omega

/-! ## A program that is parsed and too deep -/

/-- A call in so many functions without parameters, one inside the other. -/
def towerTree : Nat → Node
  | 0 => .call {} (.ident {} "f") []
  | k + 1 => .function {} (.params {} []) [towerTree k]

theorem towerTree_tag (k : Nat) : (towerTree k).tag ≠ .type ∧ (towerTree k).tag ≠ .program := by
  cases k <;> simp [towerTree, Node.tag]

theorem printable_towerTree (k : Nat) : (towerTree k).Everywhere Node.Printable := by
  induction k with
  | zero =>
    have hf : (Node.ident {} "f").Everywhere Node.Printable :=
      .printable (by decide) trivial rfl ⟨⟨by decide, by simp⟩, by decide, by decide +kernel⟩
        (Nat.zero_le _) (by simp [Node.children])
    exact .printable (by decide) trivial rfl trivial (Nat.zero_le _)
      (List.forall_mem_singleton.mpr hf)
  | succ k ih =>
    have hparams : (Node.params {} []).Everywhere Node.Printable :=
      .printable (by decide) trivial rfl trivial (Nat.zero_le _) (by simp [Node.children])
    rw [towerTree]
    refine .printable ?_ ⟨rfl, List.forall_mem_nil _⟩ rfl trivial ?_ ?_
    · exact List.forall_mem_cons.mpr ⟨by decide, List.forall_mem_singleton.mpr (towerTree_tag k)⟩
    · exact Nat.le_add_left 1 99999
    · exact List.forall_mem_cons.mpr ⟨hparams, List.forall_mem_singleton.mpr ih⟩

theorem listsParams_towerTree (k : Nat) : (towerTree k).Everywhere Node.ListsParams := by
  induction k with
  | zero =>
    unfold Node.Everywhere Node.ListsParams
    decide +kernel
  | succ k ih =>
    have hparams : (Node.params {} []).Everywhere Node.ListsParams :=
      .intro (fun _ => List.forall_mem_nil _) (List.forall_mem_nil _)
    rw [towerTree]
    exact .intro nofun (List.forall_mem_cons.mpr ⟨hparams, List.forall_mem_singleton.mpr ih⟩)

theorem parenDepth_towerTree (k : Nat) : (towerTree k).parenDepth = k + 1 := by
  induction k with
  | zero =>
    have hf : (Node.ident {} "f").parenDepth = 0 := Node.parenDepth_of_atom rfl
    rw [@Node.parenDepth_of_form _ .call rfl]
    simp [towerTree, Node.children, hf]
  | succ k ih =>
    have hparams : (Node.params {} []).parenDepth = 1 := Node.parenDepth_of_form rfl
    rw [@Node.parenDepth_of_form _ .function rfl]
    simp [towerTree, Node.children, hparams, ih]

/-- A value that stands as a statement is visited twice, and then what is inside it. -/
theorem findSome?_visits_value {n : Node} {depth : Nat} (hpart : n.tag.isPart = false)
    (hvalue : n.tag.isStatementOnly = false) (hself : n.inside .statement = [(.expression, n)])
    (hdepth : depth + 1 ≤ Limits.emitDepth) :
    (n.visits .statement depth).findSome? Visit.refusal? = (n.inside .expression).findSome?
      fun c => (c.2.visits c.1 (depth + 2)).findSome? Visit.refusal? := by
  have hpasses : ∀ role d, d ≤ Limits.emitDepth → Visit.refusal? ⟨n, role, d⟩ = none :=
    fun role d hd => Visit.refusal?_eq_none_iff.mpr ⟨hd, hpart, fun _ => hvalue⟩
  rw [Node.visits_eq, hself, Script.findSome?_cons_or, hpasses _ _ (by omega), Option.none_or,
    List.flatMap_singleton, Node.visits_eq, Script.findSome?_cons_or, hpasses _ _ (by omega),
    Option.none_or, Script.findSome?_flatMap]

/-- Wherever it was placed, the call in the last function is too deep by one. -/
theorem tooDeep_of_unplaced {k depth : Nat} {n : Node} (h : n.unplaced = (towerTree k).unplaced)
    (hdepth : depth + 2 * k + 1 = Limits.emitDepth) :
    ∃ e, (n.visits .statement depth).findSome? Visit.refusal? = some e ∧ e.cause = .tooDeep := by
  induction k generalizing n depth with
  | zero =>
    cases n with
    | call m a args =>
      have hdeep : Visit.refusal? ⟨a, .expression, depth + 2⟩ = some ⟨.tooDeep, a.span⟩ := by
        rw [Visit.refusal?, if_pos (by dsimp only; omega)]
      refine ⟨⟨.tooDeep, a.span⟩, ?_, rfl⟩
      rw [findSome?_visits_value rfl rfl rfl (by omega)]
      simp [Node.inside, Node.operands, Node.visits_eq _ _ a, hdeep]
    | branch m a b no => cases no <;> simp [Node.unplaced, towerTree] at h
    | _ => simp [Node.unplaced, towerTree] at h
  | succ k ih =>
    cases n with
    | function m a body =>
      simp only [Node.unplaced, towerTree, Node.function.injEq, List.map_cons, List.map_nil] at h
      obtain ⟨c, rfl, hc⟩ := List.map_eq_singleton_iff.mp h.2.2
      obtain ⟨e, he, hcause⟩ := @ih (depth + 2) c hc (by omega)
      refine ⟨e, ?_, hcause⟩
      rw [findSome?_visits_value rfl rfl rfl (by omega)]
      simp [Node.inside, Node.operands, he]
    | branch m a b no => cases no <;> simp [Node.unplaced, towerTree] at h
    | _ => simp [Node.unplaced, towerTree] at h

/-- A call in 255 functions, one inside the other. -/
def towerSource : List Char := Node.printProgram .first [towerTree 255]

/-- The tower is parsed, as it is nested just as deep as can be. -/
theorem parse_towerSource : ∃ stream tally tree s, tokenize towerSource = .ok (stream, tally) ∧
    parseProgram stream = .ok tree s ∧
    ∃ n mark, tree = .program mark [n] ∧ n.unplaced = (towerTree 255).unplaced := by
  have hprintable := List.forall_mem_singleton.mpr (printable_towerTree 255)
  obtain ⟨stream, tally, p, last, htokenize, hremaining, hlast, hswitches⟩ :=
    @Node.tokenize_printProgram .first false [towerTree 255]
      (fun n hn m hm => (hprintable n hn m hm).spelled) (by decide +kernel)
  obtain ⟨forms, hitems, hsame, hnesting⟩ := @Node.items_formLexemes .first [towerTree 255]
    hprintable (List.forall_mem_singleton.mpr (listsParams_towerTree 255))
    (List.forall_mem_singleton.mpr (towerTree_tag 255)) p
  obtain ⟨n, rfl, hn⟩ := List.map_eq_singleton_iff.mp hsame
  have hended : stream.Ended := TokenStream.ended_of_remaining hremaining
    (fun t ht => (Node.tokensFrom_ascription p _ t ht).2) hlast
  have hatoms := Parse.allowsAtoms_of_switches hswitches
  have hshallow : nesting (tokensFrom p (Node.formLexemes .first [towerTree 255]))
      ≤ Limits.parseDepth := by
    rw [hnesting, List.map_singleton, parenDepth_towerTree]
    decide
  obtain ⟨s, hparse⟩ := (Parse.program_ok_iff hended hatoms hremaining hlast _).mpr
    ⟨[n], hitems, hshallow, rfl⟩
  exact ⟨stream, tally, _, s, htokenize, hparse, n, _, rfl, hn⟩

/-- The tower is then refused: it is too deep by one level. -/
theorem refuse_towerSource : ∃ stream tally tree s e s',
    tokenize towerSource = .ok (stream, tally) ∧ parseProgram stream = .ok tree s ∧
    writeScript {} tree = .error e s' ∧ e.cause = .tooDeep := by
  obtain ⟨stream, tally, tree, s, htokenize, hparse, n, mark, rfl, hn⟩ := parse_towerSource
  obtain ⟨scan, hscan, rfl, -⟩ := Scan.ofSource_of_tokenize htokenize
  obtain ⟨mark', forms, heq, hregular⟩ := parse_regular hscan hparse
  cases heq
  obtain ⟨e, he, hcause⟩ := @tooDeep_of_unplaced 255 1 n hn rfl
  have hreports := writeScript_reports {} mark [n]
    fun m hm d hd => (hregular.below m hm d hd).shaped
  rw [programVisits, List.flatMap_singleton, he] at hreports
  cases hwrite : writeScript {} (.program mark [n]) with
  | ok text s' =>
    rw [hwrite] at hreports
    cases hreports
  | error e' s' =>
    rw [hwrite] at hreports
    cases hreports
    exact ⟨_, tally, _, s, e, s', htokenize, hparse, hwrite, hcause⟩

/-- **Not everything that is parsed can be written.** -/
theorem tower_too_deep : ¬ ∀ (source : List Char) (track : Bool) (stream : TokenStream)
    (tally : Tally) (tree : Node) (s : Parsing) (options : ScriptOptions) (e : EmitError)
    (s' : Emitting), tokenize source track = .ok (stream, tally) →
    parseProgram stream = .ok tree s → writeScript options tree = .error e s' →
    e.cause ≠ .tooDeep := by
  intro h
  obtain ⟨stream, tally, tree, s, e, s', htokenize, hparse, hwrite, hcause⟩ := refuse_towerSource
  exact h _ _ _ _ _ _ _ _ _ htokenize hparse hwrite hcause

/-- The tower is refused at an atom, and its parentheses are nested as deep as can be parsed. -/
theorem tower_too_deep_at_atom : ∃ stream tally tree s e s',
    tokenize towerSource = .ok (stream, tally) ∧ parseProgram stream = .ok tree s ∧
    writeScript {} tree = .error e s' ∧ Limits.parseDepth ≤ nesting stream.remaining ∧
    ∃ v ∈ programVisits tree.children, v.depth = Limits.emitDepth + 1 ∧ v.node.isAtom = true ∧
      e.span = v.node.span := by
  obtain ⟨stream, tally, tree, s, e, s', htokenize, hparse, hwrite, hcause⟩ := refuse_towerSource
  exact ⟨stream, tally, tree, s, e, s', htokenize, hparse, hwrite,
    writeScript_tooDeep htokenize hparse hwrite hcause⟩

end FormScript
