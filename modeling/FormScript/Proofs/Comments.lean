import FormScript.Proofs.Brackets
import FormScript.Proofs.Fusing
import FormScript.Proofs.Joining
import FormScript.Proofs.Marked
import FormScript.Proofs.Resolution

/-!
# Doc text stays in comments, almost

The text of a `doc` form is written behind `//`, line by line, where a line ends at a newline. For a
reader of scripts it also ends at a carriage return, which no source has, and at the two separators
U+2028 and U+2029, which a source may have anywhere in a string. Behind such a separator the text of
a `doc` form is no comment any more.

**`doc_text_behind_slashes`** says that this is the only way out: a line of a compiled script that
holds text of a `doc` form begins with blanks and `//`, or follows upon a separator that is text of
a `doc` form itself. What carries the proof is that all marked text is guarded (`Guarded`): some
line of the script's own begins with `//`, and up to the marked character nothing ends the line
except separators that are marked as well. Guarded texts can be put together in any way, while the
lines of a comment have to start on a new line (`Lines`).
-/

namespace FormScript

open Script (bindingName paramNames fail nested bodyOf)
open ScriptTree (blanks)

namespace Glyph

/-! ## Guarded text -/

/-- Ends a line for a reader of scripts, but not for the writer. -/
def isSeparator (c : Char) : Bool := c == '\u2028' || c == '\u2029'

/-- Ends a line for a reader of scripts. -/
def isTerminator (c : Char) : Bool := c == '\n' || c == '\r' || isSeparator c

/-- Ends no line, or is a separator that is text of a `doc` form. -/
def Harmless (g : Glyph) : Prop :=
  isTerminator g.char = true → g.isDoc = true ∧ isSeparator g.char = true

/-- What has been written so far ends inside a comment that has a line of its own, unless a
separator that is text of a `doc` form has ended it. -/
def InComment (past : List Glyph) : Prop :=
  ∃ before indent body, past = before ++ newline :: own (blanks indent ++ "//") ++ body ∧
    ∀ g ∈ body, g.Harmless

theorem InComment.append_left {past : List Glyph} (h : InComment past) (gs : List Glyph) :
    InComment (gs ++ past) := by
  obtain ⟨before, indent, body, rfl, hbody⟩ := h
  exact ⟨gs ++ before, indent, body, by simp, hbody⟩

/-- All text of `doc` forms is in comments. -/
def Guarded (gs : List Glyph) : Prop := ∀ a g b, gs = a ++ g :: b → g.isDoc = true → InComment a

theorem isDoc_of_mem_own {text : String} {g : Glyph} (h : g ∈ own text) : g.isDoc = false := by
  obtain ⟨c, -, rfl⟩ := List.mem_map.mp h
  rfl

theorem guarded_of_plain {gs : List Glyph} (h : ∀ g ∈ gs, g.isDoc = false) : Guarded gs := by
  rintro a g b rfl hdoc
  rw [h g (by simp)] at hdoc
  cases hdoc

theorem guarded_own (text : String) : Guarded (own text) :=
  guarded_of_plain fun _ => isDoc_of_mem_own

theorem Guarded.append {gs hs : List Glyph} (hgs : Guarded gs) (hhs : Guarded hs) :
    Guarded (gs ++ hs) := by
  intro a g b heq hdoc
  rcases List.append_eq_append_iff.mp heq with ⟨front, rfl, hback⟩ | ⟨back, hfront, hback⟩
  · exact (hhs front g b hback hdoc).append_left gs
  · cases back with
    | nil =>
      rw [List.append_nil] at hfront
      have := hhs [] g b hback.symm hdoc
      rw [← hfront]
      simpa using this.append_left gs
    | cons d back =>
      obtain ⟨rfl, -⟩ := List.cons.inj hback
      exact hgs a g back hfront hdoc

/-- Text of the writer's own around guarded text. -/
theorem Guarded.around {gs : List Glyph} (h : Guarded gs) {front back : String} :
    Guarded (own front ++ gs ++ own back) :=
  ((guarded_own front).append h).append (guarded_own back)

/-- Whole lines: they end in a newline if there are any, and put on a new line they are guarded. -/
def Lines (gs : List Glyph) : Prop :=
  ∃ front, newline :: gs = front ++ [newline] ∧ Guarded front

theorem lines_nil : Lines [] := ⟨[], rfl, guarded_own ""⟩

theorem Lines.append {gs hs : List Glyph} (hgs : Lines gs) (hhs : Lines hs) :
    Lines (gs ++ hs) := by
  obtain ⟨front, hfront, hguarded⟩ := hgs
  obtain ⟨front', hfront', hguarded'⟩ := hhs
  refine ⟨front ++ front', ?_, hguarded.append hguarded'⟩
  rw [← List.cons_append, hfront, List.append_assoc, List.singleton_append, hfront',
    List.append_assoc]

/-- Lines on a new line, inside something else. -/
theorem Lines.guarded {gs : List Glyph} (h : Lines gs) : Guarded (newline :: gs) := by
  obtain ⟨front, hfront, hguarded⟩ := h
  rw [hfront]
  exact hguarded.append (guarded_own "\n")

theorem lines_lineOf {gs : List Glyph} (h : Guarded gs) (indent : Nat) :
    Lines (lineOf indent gs) := by
  refine ⟨own ("\n" ++ blanks indent) ++ gs, ?_, (guarded_own _).append h⟩
  rw [own_append]
  rfl

theorem lines_own {text : String} (h : text.toList.getLast? = some '\n') : Lines (own text) := by
  obtain ⟨cs, hcs⟩ := List.getLast?_eq_some_iff.mp h
  refine ⟨newline :: cs.map (⟨·, false⟩), ?_, guarded_of_plain ?_⟩
  · rw [own, hcs, List.map_append]
    rfl
  · refine List.forall_mem_cons.mpr ⟨rfl, fun g hg => ?_⟩
    obtain ⟨c, -, rfl⟩ := List.mem_map.mp hg
    rfl

/-- **The lines of a comment are guarded**, if no carriage return is in them. -/
theorem lines_commentLine {l : List Char} (hnewline : '\n' ∉ l) (hreturn : '\r' ∉ l)
    (indent : Nat) : Lines (commentLine indent l) := by
  obtain ⟨gap, hgap, hline⟩ := trimmed_comment l
  refine ⟨newline :: own (blanks indent ++ "//") ++ (own gap ++ said (trimEnd l)), ?_, ?_⟩
  · rw [commentLine, hline, lineOf]
    simp [own, newline]
  have hharmless : ∀ g ∈ own gap ++ said (trimEnd l), g.Harmless := by
    intro g hg hend
    rcases List.mem_append.mp hg with hg | hg
    · exfalso
      rcases hgap with rfl | rfl
      · cases hg
      · rw [List.mem_singleton.mp hg] at hend
        exact absurd hend (by decide)
    · obtain ⟨c, hc, rfl⟩ := List.mem_map.mp hg
      refine ⟨rfl, ?_⟩
      have hmem := mem_of_mem_trimEnd hc
      simp only [isTerminator, Bool.or_eq_true, beq_iff_eq] at hend
      rcases hend with (rfl | rfl) | hend
      · exact absurd hmem hnewline
      · exact absurd hmem hreturn
      · exact hend
  -- A marked character stands behind the slashes, as nothing in front of them is marked.
  intro a g b heq hdoc
  have hplain : ∀ g ∈ newline :: own (blanks indent ++ "//"), g.isDoc = false :=
    List.forall_mem_cons.mpr ⟨rfl, fun _ => isDoc_of_mem_own⟩
  rcases List.append_eq_append_iff.mp heq with ⟨front, rfl, hback⟩ | ⟨back, hfront, hback⟩
  · refine ⟨[], indent, front, rfl, fun g hg => hharmless g ?_⟩
    rw [hback]
    exact List.mem_append_left _ hg
  · cases back with
    | nil =>
      rw [List.append_nil] at hfront
      exact ⟨[], indent, [], by rw [← hfront]; simp, List.forall_mem_nil _⟩
    | cons d back =>
      obtain ⟨rfl, -⟩ := List.cons.inj hback
      rw [hplain g (by rw [hfront]; simp)] at hdoc
      cases hdoc

end Glyph

namespace ScriptTree

open Glyph

/-! ## Scripts are guarded -/

/-- No comment has a carriage return in it. -/
def NoReturn (comments : List String) : Prop := ∀ text ∈ comments, '\r' ∉ text.toList

theorem noReturn_append {cs ds : List String} :
    NoReturn (cs ++ ds) ↔ NoReturn cs ∧ NoReturn ds := List.forall_mem_append

theorem mem_of_mem_lines {cs l : List Char} {c : Char} (h : l ∈ lines cs) (hc : c ∈ l) :
    c ∈ cs := by
  have hgo : ∀ (cs line : List Char) (done : List (List Char)), ∀ l ∈ lines.go cs line done,
      c ∈ l → c ∈ cs ∨ c ∈ line ∨ ∃ d ∈ done, c ∈ d := by
    intro cs line done
    fun_induction lines.go cs line done with
    | case1 done =>
      intro l hl hc
      exact .inr (.inr ⟨l, List.mem_reverse.mp hl, hc⟩)
    | case2 line done _ =>
      intro l hl hc
      simp only [List.reverse_cons, List.mem_append, List.mem_reverse, List.mem_singleton] at hl
      obtain hl | rfl := hl
      · exact .inr (.inr ⟨l, hl, hc⟩)
      · exact .inr (.inl (List.mem_reverse.mp hc))
    | case3 line done cs ih =>
      intro l hl hc
      rcases ih l hl hc with hc | hc | ⟨d, hd, hc⟩
      · exact .inl (List.mem_cons_of_mem _ hc)
      · cases hc
      · rcases List.mem_cons.mp hd with rfl | hd
        · refine .inr (.inl ?_)
          rw [List.mem_reverse] at hc
          unfold lines.withoutReturn at hc
          split at hc
          · exact List.mem_cons_of_mem _ hc
          · exact hc
        · exact .inr (.inr ⟨d, hd, hc⟩)
    | case4 d cs line done _ ih =>
      intro l hl hc
      rcases ih l hl hc with hc | hc | hc
      · exact .inl (List.mem_cons_of_mem _ hc)
      · rcases List.mem_cons.mp hc with rfl | hc
        · exact .inl List.mem_cons_self
        · exact .inr (.inl hc)
      · exact .inr (.inr hc)
  rcases hgo cs [] [] l h hc with hc | hc | ⟨d, hd, -⟩
  · exact hc
  · cases hc
  · cases hd

theorem lines_comment {text : String} (h : '\r' ∉ text.toList) (indent : Nat) :
    Lines ((lines text.toList).flatMap (commentLine indent)) := by
  have hall : ∀ ls : List (List Char), (∀ l ∈ ls, '\n' ∉ l ∧ '\r' ∉ l) →
      Lines (ls.flatMap (commentLine indent)) := by
    intro ls hls
    induction ls with
    | nil => exact lines_nil
    | cons l ls ih =>
      rw [List.forall_mem_cons] at hls
      exact (lines_commentLine hls.1.1 hls.1.2 indent).append (ih hls.2)
  exact hall _ fun l hl => ⟨newline_not_mem_lines hl, fun hr => h (mem_of_mem_lines hl hr)⟩

theorem guarded_commaJoined {gss : List (List Glyph)} (h : ∀ gs ∈ gss, Guarded gs) :
    Guarded (commaJoined gss) := by
  have hmore : ∀ gss : List (List Glyph), (∀ gs ∈ gss, Guarded gs) →
      Guarded (gss.flatMap (own ", " ++ ·)) := by
    intro gss h
    induction gss with
    | nil => exact guarded_own ""
    | cons g gss ih =>
      rw [List.forall_mem_cons] at h
      exact ((guarded_own ", ").append h.1).append (ih h.2)
  cases gss with
  | nil => exact guarded_own ""
  | cons g gss =>
    rw [List.forall_mem_cons] at h
    exact h.1.append (hmore gss h.2)

theorem lines_hoistedText (indent : Nat) (names : List String) :
    Lines (own (hoistedText indent names)) := by
  cases names with
  | nil => exact lines_nil
  | cons name more =>
    have := lines_lineOf (guarded_own ("let " ++ ", ".intercalate (name :: more) ++ ";")) indent
    rwa [lineOf, ← own_append, ← own_append] at this

mutual

theorem Expr.guarded (indent : Nat) :
    (e : Expr) → NoReturn e.comments → Guarded (e.glyphs indent)
  | .str _, _ | .num _, _ | .undefined, _ | .name _ _, _ => by
    rw [Expr.glyphs]
    exact guarded_own _
  | .unary _ a, h => by
    rw [Expr.comments] at h
    rw [Expr.glyphs]
    exact (a.guarded indent h).around
  | .binary _ a b, h => by
    rw [Expr.comments, noReturn_append] at h
    rw [Expr.glyphs]
    exact ((a.guarded indent h.1).around.append (b.guarded indent h.2)).append (guarded_own _)
  | .function _ body, h => by
    rw [Expr.comments] at h
    rw [Expr.glyphs]
    exact (body.lines (indent + 1) h).guarded.around
  | .call callee args, h => by
    rw [Expr.comments, noReturn_append] at h
    rw [Expr.glyphs]
    have hargs := guarded_commaJoined (guarded_argGlyphs indent args h.2)
    exact (((callee.guarded indent h.1).append (guarded_own _)).append hargs).append (guarded_own _)
  | .cast _ a, h => by
    rw [Expr.comments] at h
    rw [Expr.glyphs]
    exact (a.guarded indent h).around
  | .choice a b c, h => by
    rw [Expr.comments, noReturn_append, noReturn_append] at h
    rw [Expr.glyphs]
    refine Guarded.append (Guarded.append ?_ (c.guarded indent h.2.2)) (guarded_own _)
    exact ((a.guarded indent h.1).around.append (b.guarded indent h.2.1)).append (guarded_own _)
  | .member a _, h => by
    rw [Expr.comments] at h
    rw [Expr.glyphs]
    exact (a.guarded indent h).append (guarded_own _)

theorem guarded_argGlyphs (indent : Nat) :
    (es : List Expr) → NoReturn (argComments es) → ∀ gs ∈ argGlyphs indent es, Guarded gs
  | [], _ => by
    rw [argGlyphs]
    exact List.forall_mem_nil _
  | e :: es, h => by
    rw [argComments, noReturn_append] at h
    rw [argGlyphs]
    exact List.forall_mem_cons.mpr ⟨e.guarded indent h.1, guarded_argGlyphs indent es h.2⟩

theorem Stmt.lines (indent : Nat) :
    (t : Stmt) → NoReturn t.comments → Lines (t.glyphs indent)
  | .comment text, h => by
    rw [Stmt.comments] at h
    rw [Stmt.glyphs]
    exact lines_comment (h text List.mem_cons_self) indent
  | .declare _ a, h | .assign _ _ a, h | .result a, h => by
    rw [Stmt.comments] at h
    rw [Stmt.glyphs]
    exact lines_lineOf (a.guarded indent h).around indent
  | .increment _ _, _ => by
    rw [Stmt.glyphs]
    exact lines_lineOf (guarded_own _) indent
  | .expr a, h => by
    rw [Stmt.comments] at h
    rw [Stmt.glyphs]
    exact lines_lineOf ((a.guarded indent h).append (guarded_own _)) indent
  | .forLess _ a b body, h => by
    rw [Stmt.comments, noReturn_append, noReturn_append] at h
    rw [Stmt.glyphs]
    refine ((lines_lineOf ?_ indent).append (body.lines (indent + 1) h.2.2)).append
      (lines_lineOf (guarded_own _) indent)
    exact ((a.guarded indent h.1).around.append (b.guarded indent h.2.1)).append (guarded_own _)
  | .doWhile body a, h => by
    rw [Stmt.comments, noReturn_append] at h
    rw [Stmt.glyphs]
    exact ((lines_lineOf (guarded_own _) indent).append (body.lines (indent + 1) h.1)).append
      (lines_lineOf (a.guarded indent h.2).around indent)
  | .branch a yes, h => by
    rw [Stmt.comments, noReturn_append] at h
    rw [Stmt.glyphs]
    exact ((lines_lineOf (a.guarded indent h.1).around indent).append
      (yes.lines (indent + 1) h.2)).append (lines_lineOf (guarded_own _) indent)
  | .branchElse a yes no, h => by
    rw [Stmt.comments, noReturn_append, noReturn_append] at h
    rw [Stmt.glyphs]
    have hno := (lines_lineOf (guarded_own "\x7d else \x7b") indent).append
      (no.lines (indent + 1) h.2.2)
    refine (Lines.append ?_ hno).append (lines_lineOf (guarded_own _) indent)
    exact (lines_lineOf (a.guarded indent h.1).around indent).append (yes.lines (indent + 1) h.2.1)

theorem Block.lines (indent : Nat) :
    (b : Block) → NoReturn b.comments → Lines (b.glyphs indent)
  | .mk hoisted body, h => by
    rw [Block.comments] at h
    rw [Block.glyphs]
    exact (lines_hoistedText indent hoisted).append (lines_bodyGlyphs indent body h)

theorem lines_bodyGlyphs (indent : Nat) :
    (ts : List Stmt) → NoReturn (bodyComments ts) → Lines (bodyGlyphs indent ts)
  | [], _ => by
    rw [bodyGlyphs]
    exact lines_nil
  | t :: ts, h => by
    rw [bodyComments, noReturn_append] at h
    rw [bodyGlyphs]
    exact (t.lines indent h.1).append (lines_bodyGlyphs indent ts h.2)

end

end ScriptTree

/-! ## Comments and `doc` forms -/

namespace Node

/-- The text of a `doc` form. -/
def docText? : Node → Option String
  | doc _ (str _ value) => some value
  | _ => none

/-- The texts of all `doc` forms, in the order of the source. -/
def docs (n : Node) : List String := n.preorder.filterMap docText?

theorem docs_eq (n : Node) : n.docs = n.docText?.toList ++ n.children.flatMap docs := by
  have hmore : ∀ ns : List Node, (ns.flatMap preorder).filterMap docText? = ns.flatMap docs :=
    fun ns => List.filterMap_flatMap
  rw [docs, preorder_eq]
  cases h : n.docText? with
  | none => rw [List.filterMap_cons_none h, hmore]; rfl
  | some text => rw [List.filterMap_cons_some h, hmore]; rfl

/-- Any node but a `doc` form. -/
theorem docs_of_ne {n : Node} (h : n.tag ≠ .doc := by simp [Node.tag]) :
    n.docs = n.children.flatMap docs := by
  have hnone : n.docText? = none := by
    cases n with
    | doc => exact absurd rfl h
    | _ => rfl
  rw [docs_eq, hnone]
  rfl

theorem docs_of_leaf {n : Node} (h : n.tag = .ident ∨ n.tag = .type ∨ n.tag = .str) :
    n.docs = [] := by
  cases n with
  | ident | type | str => rw [docs_of_ne]; rfl
  | unary _ op => cases op <;> simp [tag, UnaryOp.tag] at h
  | binary _ op => cases op <;> simp [tag, BinaryOp.tag] at h
  | _ => simp [tag] at h

end Node

namespace ScriptTree

variable {α : Type} {σ : List Scope}

theorem bodyComments_append (ts us : List Stmt) :
    bodyComments (ts ++ us) = bodyComments ts ++ bodyComments us := by
  induction ts with
  | nil => rw [bodyComments]; rfl
  | cons t ts ih => rw [List.cons_append, bodyComments, bodyComments, ih, List.append_assoc]

theorem bodyComments_singleton (t : Stmt) : bodyComments [t] = t.comments := by
  rw [bodyComments, bodyComments, List.append_nil]

theorem docs_bindingName (n : Node) : Takes (bindingName n) σ fun _ _ => n.docs = [] := by
  cases n with
  | ident m name => exact takes_pure (Node.docs_of_leaf (.inl rfl))
  | _ => exact takes_fail

theorem docs_paramNames (ns : List Node) :
    Takes (paramNames ns) σ fun _ _ => ns.flatMap Node.docs = [] := by
  fun_induction paramNames ns generalizing σ with
  | case1 => exact takes_pure rfl
  | case2 m name rest ih =>
    refine (docs_bindingName name).bind fun _ _ hname => ih.bind fun _ _ hrest => takes_pure ?_
    rw [List.flatMap_cons, hrest, Node.docs_of_ne]
    simp [Node.children, hname]
  | case3 => exact takes_fail

theorem docs_sequence {build : Node → Emit (List Stmt)} {ns : List Node}
    (h : ∀ n ∈ ns, ∀ σ, Takes (build n) σ fun ts _ => bodyComments ts = n.docs) :
    Takes (sequence build ns) σ fun ts _ => bodyComments ts = ns.flatMap Node.docs := by
  induction ns generalizing σ with
  | nil => exact takes_pure (by rw [bodyComments]; rfl)
  | cons n ns ih =>
    rw [List.forall_mem_cons] at h
    refine (h.1 σ).bind fun first _ hfirst => (ih h.2).bind fun more _ hmore => takes_pure ?_
    rw [bodyComments_append, hfirst, hmore, List.flatMap_cons]

theorem docs_each {build : Node → Emit Expr} {ns : List Node}
    (h : ∀ n ∈ ns, ∀ σ, Takes (build n) σ fun e _ => e.comments = n.docs) :
    Takes (each build ns) σ fun es _ => argComments es = ns.flatMap Node.docs := by
  induction ns generalizing σ with
  | nil => exact takes_pure (by rw [argComments]; rfl)
  | cons n ns ih =>
    rw [List.forall_mem_cons] at h
    refine (h.1 σ).bind fun first _ hfirst => (ih h.2).bind fun more _ hmore => takes_pure ?_
    rw [argComments, hfirst, hmore, List.flatMap_cons]

theorem docs_inScope {isFunction : Bool} {bound : List String} {build : Emit (List Stmt)}
    {docs : List String} (h : ∀ σ, Takes build σ fun ts _ => bodyComments ts = docs) :
    Takes (inScope isFunction bound build) σ fun b _ => b.comments = docs := by
  intro s b s' _ hrun
  unfold inScope at hrun
  dsimp only at hrun
  split at hrun
  · rename_i body s₁ heq
    have hbody := h _ _ _ _ rfl heq
    cases hrun
    rw [Block.comments, hbody]
  · cases hrun

/-- With the same room, what is built has the comments that the node has `doc` forms. -/
structure Builder.KeepsDocs (b : Builder) : Prop where
  stmt : ∀ {n : Node}, n.Everywhere Node.Shaped →
    ∀ σ, Takes (b.stmt n) σ fun ts _ => bodyComments ts = n.docs
  expr : ∀ {n : Node}, n.Everywhere Node.Shaped →
    ∀ σ, Takes (b.expr n) σ fun e _ => e.comments = n.docs

section Bodies

variable {b : Builder} {n : Node}

theorem docs_block (h : b.KeepsDocs) (isFunction : Bool) (bound : List String) {body : List Node}
    (hbody : ∀ c ∈ body, c.Everywhere Node.Shaped) :
    Takes (block b isFunction bound body) σ fun b _ => b.comments = body.flatMap Node.docs :=
  docs_inScope fun _ => docs_sequence fun c hc => h.stmt (hbody c hc)

/-- The statements of a branch have the `doc` forms of the branch. -/
theorem docs_bodyOf (n : Node) : (bodyOf n).flatMap Node.docs = n.docs := by
  unfold bodyOf
  split
  · rw [Node.docs_of_ne]
    rfl
  · simp

theorem shaped_bodyOf (h : n.Everywhere Node.Shaped) :
    ∀ c ∈ bodyOf n, c.Everywhere Node.Shaped := by
  unfold bodyOf
  split
  · exact h.below
  · exact List.forall_mem_singleton.mpr h

theorem docs_function (h : b.KeepsDocs) {params : Node} {body : List Node}
    (hbody : ∀ c ∈ body, c.Everywhere Node.Shaped) :
    Takes (function b params body) σ
      fun e _ => e.comments = params.docs ++ body.flatMap Node.docs := by
  cases params with
  | params m ps =>
    refine (docs_paramNames ps).bind fun names _ hnames => ?_
    refine (docs_block h true names hbody).bind fun block _ hblock => takes_pure ?_
    have hparams : (Node.params m ps).docs = ps.flatMap Node.docs := Node.docs_of_ne
    rw [Expr.comments, hblock, hparams, hnames]
    rfl
  | _ => exact takes_fail

theorem docs_unary (m : Mark) (op : UnaryOp) (a : Node) : (Node.unary m op a).docs = a.docs := by
  rw [Node.docs_of_ne (by cases op <;> simp [Node.tag, UnaryOp.tag])]
  simp [Node.children]

theorem docs_binary (m : Mark) (op : BinaryOp) (a c : Node) :
    (Node.binary m op a c).docs = a.docs ++ c.docs := by
  rw [Node.docs_of_ne (by cases op <;> simp [Node.tag, BinaryOp.tag])]
  simp [Node.children]

theorem docs_branch (m : Mark) (a c : Node) (d : Option Node) :
    (Node.branch m a c d).docs = a.docs ++ (c.docs ++ (d.map Node.docs).getD []) := by
  rw [Node.docs_of_ne]
  cases d with
  | none => simp [Node.children]
  | some d => simp [Node.children]

theorem docs_exprBody (h : b.KeepsDocs) (hn : n.Everywhere Node.Shaped) :
    Takes (exprBody b n) σ fun e _ => e.comments = n.docs := by
  have hexpr : ∀ c ∈ n.children, ∀ σ, Takes (b.expr c) σ fun e _ => e.comments = c.docs :=
    fun c hc => h.expr (hn.below c hc)
  cases n with
  | str | num =>
    refine takes_pure ?_
    rw [Expr.comments, Node.docs_of_ne]
    rfl
  | ident m name =>
    intro s e s' _ hrun
    cases hrun
    rw [Expr.comments, Node.docs_of_leaf (.inl rfl)]
  | unary m op a =>
    refine (hexpr a (by simp [Node.children]) σ).bind fun _ _ ha => takes_pure ?_
    rw [Expr.comments, ha, docs_unary]
  | binary m op a c =>
    refine (hexpr a (by simp [Node.children]) σ).bind fun _ σ' ha => ?_
    refine (hexpr c (by simp [Node.children]) σ').bind fun _ _ hc => takes_pure ?_
    rw [Expr.comments, ha, hc, docs_binary]
  | function m params body =>
    have hdocs : (Node.function m params body).docs = params.docs ++ body.flatMap Node.docs :=
      Node.docs_of_ne
    rw [hdocs]
    exact docs_function h fun c hc => hn.below c (by simp [Node.children, hc])
  | call m callee args =>
    rw [Node.docs_of_ne]
    refine (hexpr callee (by simp [Node.children]) σ).bind fun _ σ' hcallee => ?_
    have hargs : ∀ c ∈ args, ∀ σ, Takes (b.expr c) σ fun e _ => e.comments = c.docs :=
      fun c hc => hexpr c (by simp [Node.children, hc])
    refine (docs_each hargs).bind fun _ _ hall => takes_pure ?_
    rw [Expr.comments, hcallee, hall]
    rfl
  | cast m value target =>
    rw [Node.docs_of_ne]
    refine (hexpr value (by simp [Node.children]) σ).bind fun _ _ hvalue => takes_pure ?_
    have htype : target.docs = [] := Node.docs_of_leaf (.inr (.inl hn.here))
    simp [Expr.comments, hvalue, Node.children, htype]
  | branch m a c d =>
    rw [docs_branch]
    refine (hexpr a (by cases d <;> simp [Node.children]) σ).bind fun _ σ' ha => ?_
    refine (hexpr c (by cases d <;> simp [Node.children]) σ').bind fun _ σ'' hc => ?_
    cases d with
    | none =>
      refine (takes_pure (Q := fun e _ => e.comments = []) (by rw [Expr.comments])).bind
        fun _ _ hd => takes_pure ?_
      rw [Expr.comments, ha, hc, hd]
      rfl
    | some d =>
      refine (hexpr d (by simp [Node.children]) σ'').bind fun _ _ hd => takes_pure ?_
      rw [Expr.comments, ha, hc, hd]
      rfl
  | choice m a c d =>
    rw [Node.docs_of_ne]
    refine (hexpr a (by simp [Node.children]) σ).bind fun _ σ' ha => ?_
    refine (hexpr c (by simp [Node.children]) σ').bind fun _ σ'' hc => ?_
    refine (hexpr d (by simp [Node.children]) σ'').bind fun _ _ hd => takes_pure ?_
    simp [Expr.comments, ha, hc, hd, Node.children]
  | member m object property =>
    rw [Node.docs_of_ne]
    refine (hexpr object (by simp [Node.children]) σ).bind fun _ _ hobject => takes_pure ?_
    have hname : property.docs = [] := Node.docs_of_leaf (.inl hn.here)
    simp [Expr.comments, hobject, Node.children, hname]
  | params | param | type => exact takes_fail
  | program | doc | declare | assign | increment | doWhile | result | forLess | block =>
    exact takes_fail

/-- A declaration or an assignment, however it is written. -/
theorem docs_declaration (name : String) (value : Expr) :
    Takes (declaration name value) σ fun ts _ => bodyComments ts = value.comments := by
  intro s ts s' _ hrun
  unfold declaration at hrun
  split at hrun <;> cases hrun <;> rw [bodyComments_singleton, Stmt.comments]

theorem docs_assignment (name : String) (value : Expr) :
    Takes (assignment name value) σ fun ts _ => bodyComments ts = value.comments := by
  intro s ts s' _ hrun
  unfold assignment at hrun
  split at hrun
  · cases hrun
    rw [bodyComments_singleton, Stmt.comments]
  · split at hrun <;> cases hrun <;> rw [bodyComments_singleton, Stmt.comments]

theorem docs_stmtBody (h : b.KeepsDocs) (hn : n.Everywhere Node.Shaped) :
    Takes (stmtBody true b n) σ fun ts _ => bodyComments ts = n.docs := by
  have hexpr : ∀ c ∈ n.children, ∀ σ, Takes (b.expr c) σ fun e _ => e.comments = c.docs :=
    fun c hc => h.expr (hn.below c hc)
  have hvalue : Takes (do let value ← b.expr n; pure [.expr value]) σ
      fun ts _ => bodyComments ts = n.docs := by
    refine (h.expr hn σ).bind fun _ _ hvalue => takes_pure ?_
    rw [bodyComments_singleton, Stmt.comments, hvalue]
  cases n with
  | program m ns | block m ns =>
    rw [Node.docs_of_ne]
    exact docs_sequence fun c hc => h.stmt (hn.below c hc)
  | doc m text =>
    cases text with
    | str m' value =>
      refine takes_pure ?_
      rw [bodyComments_singleton, Stmt.comments, Node.docs_eq]
      have hstr : (Node.str m' value).docs = [] := Node.docs_of_leaf (.inr (.inr rfl))
      simp [Node.docText?, Node.children, hstr]
    | unary _ op => cases op <;> cases hn.here
    | binary _ op => cases op <;> cases hn.here
    | _ => cases hn.here
  | declare m name value =>
    rw [Node.docs_of_ne]
    refine (hexpr value (by simp [Node.children]) σ).bind fun _ σ' hvalue => ?_
    refine (docs_bindingName name).bind fun _ _ hname => ?_
    simp only [Node.children, List.flatMap_cons, List.flatMap_nil, hname, List.nil_append,
      List.append_nil, ← hvalue]
    exact docs_declaration _ _
  | assign m name value =>
    rw [Node.docs_of_ne]
    refine (hexpr value (by simp [Node.children]) σ).bind fun _ σ' hvalue => ?_
    refine (docs_bindingName name).bind fun _ _ hname => ?_
    simp only [Node.children, List.flatMap_cons, List.flatMap_nil, hname, List.nil_append,
      List.append_nil, ← hvalue]
    exact docs_assignment _ _
  | increment m name =>
    rw [Node.docs_of_ne]
    refine (docs_bindingName name).bind fun _ _ hname => ?_
    intro s ts s' _ hrun
    cases hrun
    rw [bodyComments_singleton, Stmt.comments]
    simp [Node.children, hname]
  | result m value =>
    rw [Node.docs_of_ne]
    refine (hexpr value (by simp [Node.children]) σ).bind fun _ _ hvalue => takes_pure ?_
    simp [bodyComments_singleton, Stmt.comments, hvalue, Node.children]
  | forLess m var start stop body =>
    rw [Node.docs_of_ne]
    refine (docs_bindingName var).bind fun v σ' hvar => ?_
    refine (hexpr start (by simp [Node.children]) σ').bind fun _ σ'' hstart => ?_
    refine (hexpr stop (by simp [Node.children]) σ'').bind fun _ _ hstop => ?_
    have hbody : ∀ c ∈ body, c.Everywhere Node.Shaped :=
      fun c hc => hn.below c (by simp [Node.children, hc])
    refine (docs_block h false [v] hbody).bind fun _ _ hblock => takes_pure ?_
    simp [bodyComments_singleton, Stmt.comments, hstart, hstop, hblock, Node.children, hvar]
  | doWhile m body condition =>
    rw [Node.docs_of_ne]
    have hbody := shaped_bodyOf (hn.below body (by simp [Node.children]))
    refine (docs_block h false [] hbody).bind fun _ σ' hblock => ?_
    refine (hexpr condition (by simp [Node.children]) σ').bind fun _ _ hcondition => takes_pure ?_
    simp [bodyComments_singleton, Stmt.comments, hcondition, hblock, docs_bodyOf, Node.children]
  | branch m condition yes no =>
    rw [docs_branch]
    refine (hexpr condition (by cases no <;> simp [Node.children]) σ).bind fun _ _ hcondition => ?_
    have hyes := shaped_bodyOf (hn.below yes (by cases no <;> simp [Node.children]))
    refine (docs_block h false [] hyes).bind fun _ _ hblock => ?_
    cases no with
    | none =>
      refine takes_pure ?_
      rw [bodyComments_singleton, Stmt.comments, hcondition, hblock, docs_bodyOf]
      simp
    | some no =>
      have hno := shaped_bodyOf (hn.below no (by simp [Node.children]))
      refine (docs_block h false [] hno).bind fun _ _ hother => takes_pure ?_
      rw [bodyComments_singleton, Stmt.comments, hcondition, hblock, hother, docs_bodyOf,
        docs_bodyOf]
      rfl
  | params | param | type => exact takes_fail
  | str | num | ident | unary | binary | function | call | cast | choice | member => exact hvalue

end Bodies

theorem builder_keepsDocs (room : Nat) : (builder true room).KeepsDocs := by
  induction room with
  | zero => exact ⟨fun _ _ => takes_fail, fun _ _ => takes_fail⟩
  | succ room ih =>
    constructor
    · intro n hn σ
      refine Takes.nested ?_
      intro s ts s' hs hrun
      exact docs_stmtBody ih hn s.countStatement ts s' hs hrun
    · intro n hn σ
      refine Takes.nested ?_
      intro s e s' hs hrun
      exact docs_exprBody ih hn s.countExpression e s' hs hrun

/-- **The comments of a script are the `doc` forms of its program**, in the same order. -/
theorem comments_of_ofNode {options : ScriptOptions} {m : Mark} {forms : List Node} {code : Block}
    {s : Emitting} (hdocs : options.docComments = true)
    (hshaped : (Node.program m forms).Everywhere Node.Shaped)
    (h : ofNode options (.program m forms) = .ok code s) :
    code.comments = (Node.program m forms).docs := by
  unfold ofNode at h
  rw [hdocs] at h
  have hprogram : Takes (program true (.program m forms)) [{ isFunction := true }]
      fun code _ => code.comments = (Node.program m forms).docs := by
    rw [Node.docs_of_ne]
    refine (docs_sequence fun c hc =>
      (builder_keepsDocs Limits.emitDepth).stmt (hshaped.below c hc)).bind fun body σ' hbody => ?_
    intro s code s' _ hrun
    dsimp only [close, bind, EStateM.bind, get, getThe, MonadStateOf.get, EStateM.get] at hrun
    cases hlast : s.scopes.getLast? with
    | none =>
      rw [hlast] at hrun
      cases hrun
      rw [Block.comments, hbody]
    | some scope =>
      rw [hlast] at hrun
      cases hrun
      rw [Block.comments, hbody]
  exact hprogram _ _ _ rfl h

end ScriptTree

/-! ## Lines of a script -/

namespace Glyph

/-- A line as a reader of scripts sees it. -/
structure IsLine (gs before line after : List Glyph) : Prop where
  split : gs = before ++ line ++ after
  starts : ∀ g ∈ before.getLast?, isTerminator g.char = true
  inside : ∀ g ∈ line, isTerminator g.char = false
  ends : ∀ g ∈ after.head?, isTerminator g.char = true

/-- The line is a comment from its first character on that is no blank. -/
def StartsComment (line : List Glyph) : Prop :=
  ∃ blanks rest, chars line = blanks ++ '/' :: '/' :: rest ∧ ∀ c ∈ blanks, c = ' '

theorem eq_blank_of_mem_blanks {indent : Nat} {c : Char} (h : c ∈ (blanks indent).toList) :
    c = ' ' := by
  unfold blanks String.pushn at h
  generalize Limits.indentWidth * indent = k at h
  induction k with
  | zero => cases h
  | succ k ih =>
    rw [Nat.repeat, String.toList_push, List.mem_append, List.mem_singleton] at h
    exact h.elim ih id

/-- **A line with guarded text in it** is a comment, or begins behind a separator that was said. -/
theorem startsComment_of_guarded {gs before line after : List Glyph}
    (hgs : Guarded (newline :: gs)) (h : IsLine gs before line after)
    (hdoc : ∃ g ∈ line, g.isDoc = true) :
    StartsComment line ∨ ∃ g ∈ before.getLast?, g.isDoc = true ∧ isSeparator g.char = true := by
  obtain ⟨g, hg, hdoc⟩ := hdoc
  obtain ⟨x, y, rfl⟩ := List.append_of_mem hg
  have hsplit : newline :: gs = newline :: before ++ x ++ g :: (y ++ after) := by
    rw [h.split]
    simp
  obtain ⟨front, indent, body, hpast, hbody⟩ := hgs _ g _ hsplit hdoc
  have hplain : ∀ d ∈ x, isTerminator d.char = false :=
    fun d hd => h.inside d (List.mem_append_left _ hd)
  have hstart : x = own (blanks indent ++ "//") ++ body → StartsComment (x ++ g :: y) := by
    rintro rfl
    exact ⟨(blanks indent).toList, chars body ++ chars (g :: y), by simp,
      fun c => eq_blank_of_mem_blanks⟩
  have hpast' : (newline :: before) ++ x
      = (front ++ [newline]) ++ (own (blanks indent ++ "//") ++ body) := by
    rw [hpast]
    simp
  -- The line begins with the comment, or else inside it.
  rcases List.append_eq_append_iff.mp hpast' with ⟨z, hz, hx⟩ | ⟨z, hz, hx⟩
  · rcases List.eq_nil_or_concat z with rfl | ⟨z, last, rfl⟩
    · exact .inl (hstart hx)
    · rw [List.concat_eq_append, ← List.append_assoc] at hz
      obtain ⟨-, rfl⟩ := List.append_singleton_inj.mp hz
      exact absurd (hplain newline (by rw [hx]; simp)) (by decide)
  · rcases List.eq_nil_or_concat z with rfl | ⟨z, last, rfl⟩
    · exact .inl (hstart hx.symm)
    · rw [List.concat_eq_append] at hz hx
      have hlast : last ∈ before.getLast? := by
        cases front with
        | nil =>
          rw [(List.cons.inj hz).2]
          exact List.getLast?_concat
        | cons f front =>
          rw [List.cons_append, List.cons_append, ← List.append_assoc] at hz
          rw [(List.cons.inj hz).2]
          exact List.getLast?_concat
      refine .inr ⟨last, hlast, ?_⟩
      have hend := h.starts last hlast
      have hmem : last ∈ own (blanks indent ++ "//") ++ body := by
        rw [hx]
        simp
      rcases List.mem_append.mp hmem with hown | hbody'
      · obtain ⟨c, hc, rfl⟩ := List.mem_map.mp hown
        rw [String.toList_append, List.mem_append] at hc
        rcases hc with hc | hc
        · rw [eq_blank_of_mem_blanks hc] at hend
          exact absurd hend (by decide)
        · rw [show c = '/' by simpa using hc] at hend
          exact absurd hend (by decide)
      · exact hbody last hbody' hend

end Glyph

/-! ## Compiled scripts -/

/-- A script as it is put out, with the text of `doc` forms marked. -/
def ScriptOptions.glyphs (options : ScriptOptions) (code : ScriptTree.Block) : List Glyph :=
  Glyph.own options.front ++ code.glyphs 0

theorem lines_front (options : ScriptOptions) : Glyph.Lines (Glyph.own options.front) := by
  have happend : ∀ a b : String, b.toList.getLast? = some '\n' →
      (a ++ b).toList.getLast? = some '\n' := by
    intro a b hb
    rw [String.toList_append, List.getLast?_append, hb]
    rfl
  unfold ScriptOptions.front
  split
  · unfold prelude
    exact Glyph.lines_own (happend _ _ (by decide))
  · exact Glyph.lines_nil

theorem Scan.return_not_mem {source : List Char} {track : Bool} {scan : Scan}
    (h : ofSource source track = .ok scan) : '\r' ∉ source := by
  unfold ofSource at h
  split at h
  · cases h
  · rename_i hnone
    exact not_mem_of_carriageReturn? hnone

/-- No `doc` form of a parsed program has a carriage return in it. -/
theorem noReturn_docs {source : List Char} {track : Bool} {scan : Scan} {tree : Node} {s : Parsing}
    (hscan : Scan.ofSource source track = .ok scan)
    (h : parseProgram (scan.stream source) = .ok tree s) : ScriptTree.NoReturn tree.docs := by
  have hstrings : tree.Everywhere fun n => ∀ m value, n = .str m value → '\r' ∉ value.toList := by
    rintro n hn m value rfl
    obtain ⟨ts, hwritten, hexpr⟩ := parse_literals hscan h hn (.inr rfl)
    cases hexpr with
    | @str t kind =>
      obtain ⟨past, slice, hcovers, has⟩ := hwritten t List.mem_cons_self
      unfold Token.WrittenAs at has
      rw [kind] at has
      intro hmem
      refine Scan.return_not_mem hscan (hcovers.split.subset ?_)
      exact List.mem_append_right _ (has.subset hmem)
    | form _ form =>
      obtain ⟨_, _, slots, _, node⟩ := form
      cases slots <;> cases node
  intro text htext
  obtain ⟨n, hn, htext⟩ := List.mem_filterMap.mp htext
  unfold Node.docText? at htext
  split at htext
  · rename_i m m' value
    cases htext
    have hbelow := (Node.Everywhere.of_mem hstrings hn).below
    exact (hbelow (.str m' text) List.mem_cons_self).here m' text rfl
  · cases htext

/-- **Text of a `doc` form is written behind `//`.** Of a source that compiles with comments, every
line of the script, as a reader of scripts sees lines, that holds text of a `doc` form begins with
blanks and `//`, or right behind a separator that is text of a `doc` form as well. What counts as
text of a `doc` form is marked in the script, and it is what the `doc` forms of the program say. -/
theorem doc_text_behind_slashes (p : Preferences) (source : List Char) (c : Compiled)
    (hdocs : p.isOn .docComments = true) (h : compile p source = .ok c) :
    ∃ code, ScriptTree.ofNode p.scriptOptions c.tree = .ok code c.emitting ∧
      Glyph.chars (p.scriptOptions.glyphs code) = c.code.toList ∧
      Glyph.docText (p.scriptOptions.glyphs code) = c.tree.docs.flatMap ScriptTree.shown ∧
      ∀ before line after, Glyph.IsLine (p.scriptOptions.glyphs code) before line after →
        (∃ g ∈ line, g.isDoc = true) → Glyph.StartsComment line ∨
          ∃ g ∈ before.getLast?, g.isDoc = true ∧ Glyph.isSeparator g.char = true := by
  obtain ⟨hscan, hparse, hwrite⟩ := compile_eq_ok_iff.mp h
  obtain ⟨code, hcode, htext⟩ := exists_tree_of_writeScript hwrite
  have hcomments : code.comments = c.tree.docs := by
    obtain ⟨mark, forms, htree, hregular⟩ := parse_regular hscan hparse
    rw [htree] at hcode ⊢
    exact ScriptTree.comments_of_ofNode hdocs (fun n hn => (hregular n hn).shaped) hcode
  refine ⟨code, hcode, ?_, ?_, fun before line after hline hmem => ?_⟩
  · rw [htext, ScriptOptions.glyphs, Glyph.chars_append, Glyph.chars_own, code.chars_glyphs,
      String.toList_append]
  · rw [ScriptOptions.glyphs, Glyph.docText_append, Glyph.docText_own, code.docText_glyphs,
      hcomments, List.nil_append]
  · have hreturn : ScriptTree.NoReturn code.comments := by
      rw [hcomments]
      exact noReturn_docs hscan hparse
    have hlines := (lines_front p.scriptOptions).append (code.lines 0 hreturn)
    exact Glyph.startsComment_of_guarded hlines.guarded hline hmem

/-- A `doc` form with a line separator in its text. -/
def separatedSource : List Char := "(doc 'a\u2028b')".toList

/-- The separator stands in the script as it stands in the source. -/
theorem separatedSource_glyphs : ∃ c code, compile {} separatedSource = .ok c ∧
    ScriptTree.ofNode ({} : Preferences).scriptOptions c.tree = .ok code c.emitting ∧
    code.glyphs 0
      = Glyph.own "// " ++ Glyph.said ['a', '\u2028'] ++ Glyph.said ['b'] ++ [Glyph.newline] := by
  have hcheck : ((compile {} separatedSource).toOption.any fun c =>
      ((ScriptTree.program ({} : Preferences).scriptOptions.docComments c.tree).run'
        { scopes := [{ isFunction := true }] }).any fun code =>
          code.glyphs 0 = Glyph.own "// " ++ Glyph.said ['a', '\u2028'] ++ Glyph.said ['b']
            ++ [Glyph.newline]) = true := by decide +kernel
  cases hc : compile {} separatedSource with
  | error e =>
    rw [hc] at hcheck
    cases hcheck
  | ok c =>
    rw [hc] at hcheck
    obtain ⟨code, hcode, -⟩ := exists_tree_of_writeScript (writeScript_of_compile hc)
    obtain ⟨code', s, hcode', hcheck⟩ := ScriptTree.exists_ofNode hcheck
    rw [hcode] at hcode'
    cases hcode'
    exact ⟨c, code, rfl, hcode, of_decide_eq_true hcheck⟩

/-- In its script, all text of the `doc` form is behind `//` or behind the separator. -/
theorem separatedSource_behind_slashes : ∃ c code, compile {} separatedSource = .ok c ∧
    ScriptTree.ofNode ({} : Preferences).scriptOptions c.tree = .ok code c.emitting ∧
    ∀ before line after,
      Glyph.IsLine (({} : Preferences).scriptOptions.glyphs code) before line after →
        (∃ g ∈ line, g.isDoc = true) → Glyph.StartsComment line ∨
          ∃ g ∈ before.getLast?, g.isDoc = true ∧ Glyph.isSeparator g.char = true := by
  obtain ⟨c, -, hc, -⟩ := separatedSource_glyphs
  obtain ⟨code, hcode, -, -, hlines⟩ := doc_text_behind_slashes {} separatedSource c (by decide) hc
  exact ⟨c, code, hc, hcode, hlines⟩

/-- **Text of a `doc` form can leave its comment.** Behind a separator it is code. -/
theorem doc_text_escapes : ¬ ∀ (p : Preferences) (source : List Char) (c : Compiled)
    (code : ScriptTree.Block) (before line after : List Glyph), p.isOn .docComments = true →
    compile p source = .ok c → ScriptTree.ofNode p.scriptOptions c.tree = .ok code c.emitting →
    Glyph.IsLine (p.scriptOptions.glyphs code) before line after →
    (∃ g ∈ line, g.isDoc = true) → Glyph.StartsComment line := by
  intro h
  obtain ⟨c, code, hc, hcode, hglyphs⟩ := separatedSource_glyphs
  have hline : Glyph.IsLine (({} : Preferences).scriptOptions.glyphs code)
      (Glyph.own prelude ++ (Glyph.own "// " ++ Glyph.said ['a', '\u2028'])) (Glyph.said ['b'])
      [Glyph.newline] := by
    refine ⟨?_, ?_, ?_, ?_⟩
    · rw [ScriptOptions.glyphs, hglyphs]
      simp only [List.append_assoc]
      rfl
    · intro g hg
      rw [List.getLast?_append] at hg
      cases hg
      decide
    · exact List.forall_mem_singleton.mpr (by decide)
    · rintro g ⟨⟩
      decide
  obtain ⟨blanks, rest, hstarts, -⟩ := h {} separatedSource c code _ _ _ (by decide) hc hcode hline
    ⟨_, List.mem_cons_self, rfl⟩
  have hlength := congrArg List.length hstarts
  simp at hlength
  omega

end FormScript
