import FormScript.Proofs.ScriptTree

/-!
# Scripts with the text of `doc` forms marked

A script does not show which of its characters come from a `doc` form of the source. Here the tree
of a script is rendered once more, as glyphs: characters that know whether they do. Taking the marks
off gives the script (`Block.chars_glyphs`), and what is marked is what the comments of the tree
say, line by line and without white space at the end of a line (`Block.docText_glyphs`).
-/

namespace FormScript

open Script (numberText)
open ScriptTree (blanks)

/-! ## Marked text -/

/-- A character of a script, and whether it was taken over from a `doc` form. -/
structure Glyph where
  char : Char
  isDoc : Bool
deriving DecidableEq, Repr

namespace Glyph

/-- The writer's own text. -/
def own (text : String) : List Glyph := text.toList.map (⟨·, false⟩)

/-- Text of a `doc` form. -/
def said (text : List Char) : List Glyph := text.map (⟨·, true⟩)

/-- The text without the marks. -/
def chars (gs : List Glyph) : List Char := gs.map char

/-- What is taken over from `doc` forms. -/
def docText (gs : List Glyph) : List Char := chars (gs.filter isDoc)

/-- The end of a line that the writer ends. -/
def newline : Glyph := ⟨'\n', false⟩

variable (gs hs : List Glyph) (text text' : String)

@[simp] theorem own_append : own (text ++ text') = own text ++ own text' := by simp [own]

@[simp] theorem chars_append : chars (gs ++ hs) = chars gs ++ chars hs := List.map_append

@[simp] theorem chars_own : chars (own text) = text.toList := by
  simp [chars, own, Function.comp_def]

@[simp] theorem chars_said (cs : List Char) : chars (said cs) = cs := by
  simp [chars, said, Function.comp_def]

@[simp] theorem docText_append : docText (gs ++ hs) = docText gs ++ docText hs := by simp [docText]

@[simp] theorem docText_own : docText (own text) = [] := by
  simp [docText, own, List.filter_map, chars, Function.comp_def]

@[simp] theorem docText_said (cs : List Char) : docText (said cs) = cs := by
  simp [docText, said, List.filter_map, chars, Function.comp_def]

@[simp] theorem chars_newline : chars (newline :: gs) = '\n' :: chars gs := rfl

@[simp] theorem docText_newline : docText (newline :: gs) = docText gs := rfl

theorem chars_flatMap {α : Type} (xs : List α) (f : α → List Glyph) :
    chars (xs.flatMap f) = xs.flatMap fun x => chars (f x) := List.map_flatMap

theorem docText_flatMap {α : Type} (xs : List α) (f : α → List Glyph) :
    docText (xs.flatMap f) = xs.flatMap fun x => docText (f x) := by
  rw [docText, List.filter_flatMap, chars_flatMap]
  rfl

/-- A list of marked texts with commas in between. -/
def commaJoined : List (List Glyph) → List Glyph
  | [] => []
  | first :: more => first ++ more.flatMap (own ", " ++ ·)

/-- A marked text without the white space at its end. -/
def trimmed (gs : List Glyph) : List Glyph := (gs.reverse.dropWhile (isBlank ·.char)).reverse

theorem chars_trimmed : chars (trimmed gs) = trimEnd (chars gs) := by
  rw [chars, chars, trimmed, trimEnd, List.map_reverse, ← List.map_reverse (l := gs),
    List.dropWhile_map]
  rfl

/-- A line. -/
def lineOf (indent : Nat) (gs : List Glyph) : List Glyph := own (blanks indent) ++ gs ++ own "\n"

/-- A line of a comment. -/
def commentLine (indent : Nat) (l : List Char) : List Glyph :=
  lineOf indent (trimmed (own "// " ++ said l))

end Glyph

namespace ScriptTree

open Glyph

mutual

/-- The marked text of an expression. -/
def Expr.glyphs (indent : Nat) : Expr → List Glyph
  | .str value => own (Json.quote value)
  | .num value => own (numberText value)
  | .undefined => own "undefined"
  | .name name found => own (if found.isSome then name else (builtin? name).getD name)
  | .unary op operand => own ("(" ++ op.scriptText) ++ operand.glyphs indent ++ own ")"
  | .binary op left right =>
    own (binaryText op).1 ++ left.glyphs indent ++ own (binaryText op).2 ++ right.glyphs indent
      ++ own ")"
  | .function params body =>
    own ("((" ++ ", ".intercalate params ++ ") => \x7b") ++ newline :: body.glyphs (indent + 1)
      ++ own (blanks indent ++ "\x7d)")
  | .call callee args =>
    callee.glyphs indent ++ own "(" ++ commaJoined (argGlyphs indent args) ++ own ")"
  | .cast target value =>
    own (castAround target).1 ++ value.glyphs indent ++ own (castAround target).2
  | .choice condition yes no =>
    own "(" ++ condition.glyphs indent ++ own " ? " ++ yes.glyphs indent ++ own " : "
      ++ no.glyphs indent ++ own ")"
  | .member object property => object.glyphs indent ++ own ("." ++ property)

/-- The marked texts of expressions. -/
def argGlyphs (indent : Nat) : List Expr → List (List Glyph)
  | [] => []
  | e :: es => e.glyphs indent :: argGlyphs indent es

/-- The marked lines of a statement. -/
def Stmt.glyphs (indent : Nat) : Stmt → List Glyph
  | .comment text => (lines text.toList).flatMap (commentLine indent)
  | .declare name value =>
    lineOf indent (own ("let " ++ name ++ " = ") ++ value.glyphs indent ++ own ";")
  | .assign name _ value => lineOf indent (own (name ++ " = ") ++ value.glyphs indent ++ own ";")
  | .increment name _ => lineOf indent (own (name ++ " += 1;"))
  | .result value => lineOf indent (own "return " ++ value.glyphs indent ++ own ";")
  | .forLess var start stop body =>
    lineOf indent (own ("for (let " ++ var ++ " = ") ++ start.glyphs indent
        ++ own ("; " ++ var ++ " < ") ++ stop.glyphs indent ++ own ("; " ++ var ++ "++) \x7b"))
      ++ body.glyphs (indent + 1) ++ lineOf indent (own "\x7d")
  | .doWhile body condition =>
    lineOf indent (own "do \x7b") ++ body.glyphs (indent + 1)
      ++ lineOf indent (own "\x7d while (" ++ condition.glyphs indent ++ own ");")
  | .branch condition yes =>
    lineOf indent (own "if (" ++ condition.glyphs indent ++ own ") \x7b") ++ yes.glyphs (indent + 1)
      ++ lineOf indent (own "\x7d")
  | .branchElse condition yes no =>
    lineOf indent (own "if (" ++ condition.glyphs indent ++ own ") \x7b") ++ yes.glyphs (indent + 1)
      ++ (lineOf indent (own "\x7d else \x7b") ++ no.glyphs (indent + 1))
      ++ lineOf indent (own "\x7d")
  | .expr value => lineOf indent (value.glyphs indent ++ own ";")

/-- The marked lines of a block. -/
def Block.glyphs (indent : Nat) : Block → List Glyph
  | .mk hoisted body => own (hoistedText indent hoisted) ++ bodyGlyphs indent body

/-- The marked lines of statements. -/
def bodyGlyphs (indent : Nat) : List Stmt → List Glyph
  | [] => []
  | t :: ts => t.glyphs indent ++ bodyGlyphs indent ts

end

/-! ## The marks change nothing -/

theorem chars_lineOf (indent : Nat) (gs : List Glyph) :
    chars (lineOf indent gs) = (lineText indent (String.ofList (chars gs))).toList := by
  simp [lineOf, lineText]

theorem chars_comment (indent : Nat) (text : String) :
    chars ((lines text.toList).flatMap (commentLine indent))
      = (commentText indent text).toList := by
  have hline : ∀ l, chars (commentLine indent l)
      = (lineText indent (String.ofList (trimEnd ("// ".toList ++ l)))).toList := by
    intro l
    rw [commentLine, chars_lineOf, chars_trimmed, chars_append, chars_own, chars_said]
  rw [commentText, String.toList_join, List.flatMap_map, chars_flatMap]
  simp only [hline]

theorem chars_commaJoined {gss : List (List Glyph)} {ts : List String}
    (h : gss.map chars = ts.map String.toList) :
    chars (commaJoined gss) = (", ".intercalate ts).toList := by
  rw [String.toList_intercalate, ← h]
  clear h
  cases gss with
  | nil => rfl
  | cons gs gss =>
    rw [commaJoined, chars_append, chars_flatMap, List.map_cons]
    induction gss generalizing gs with
    | nil => simp
    | cons gs' gss ih =>
      rw [List.map_cons, List.intercalate_cons_cons, ← ih, List.flatMap_cons, chars_append,
        chars_own, List.append_assoc, List.append_assoc]

mutual

theorem Expr.chars_glyphs (indent : Nat) :
    (e : Expr) → chars (e.glyphs indent) = (e.text indent).toList
  | .str _ | .num _ | .undefined | .name _ _ => by rw [Expr.glyphs, Expr.text, chars_own]
  | .unary op a => by simp [Expr.glyphs, Expr.text, toString, a.chars_glyphs]
  | .binary op a b => by
    simp [Expr.glyphs, Expr.text, a.chars_glyphs, b.chars_glyphs]
  | .function params body => by
    simp [Expr.glyphs, Expr.text, body.chars_glyphs]
  | .call callee args => by
    simp [Expr.glyphs, Expr.text, callee.chars_glyphs,
      chars_commaJoined (chars_argGlyphs indent args)]
  | .cast target value => by simp [Expr.glyphs, Expr.text, value.chars_glyphs]
  | .choice a b c => by
    simp [Expr.glyphs, Expr.text, toString, a.chars_glyphs, b.chars_glyphs, c.chars_glyphs]
  | .member a property => by simp [Expr.glyphs, Expr.text, a.chars_glyphs]

theorem chars_argGlyphs (indent : Nat) :
    (es : List Expr) → (argGlyphs indent es).map chars = (texts indent es).map String.toList
  | [] => by rw [argGlyphs, texts]; rfl
  | e :: es => by
    rw [argGlyphs, texts, List.map_cons, List.map_cons, e.chars_glyphs, chars_argGlyphs indent es]

theorem Stmt.chars_glyphs (indent : Nat) :
    (t : Stmt) → chars (t.glyphs indent) = (t.text indent).toList
  | .comment text => by rw [Stmt.glyphs, Stmt.text, chars_comment]
  | .declare _ value | .assign _ _ value | .result value | .expr value => by
    simp [Stmt.glyphs, Stmt.text, chars_lineOf, lineText, toString, value.chars_glyphs]
  | .increment _ _ => by simp [Stmt.glyphs, Stmt.text, chars_lineOf, lineText, toString]
  | .forLess _ a b body => by
    simp [Stmt.glyphs, Stmt.text, chars_lineOf, lineText, toString, a.chars_glyphs, b.chars_glyphs,
      body.chars_glyphs]
  | .doWhile body a => by
    simp [Stmt.glyphs, Stmt.text, chars_lineOf, lineText, toString, a.chars_glyphs,
      body.chars_glyphs]
  | .branch a yes => by
    simp [Stmt.glyphs, Stmt.text, chars_lineOf, lineText, toString, a.chars_glyphs,
      yes.chars_glyphs]
  | .branchElse a yes no => by
    simp [Stmt.glyphs, Stmt.text, chars_lineOf, lineText, toString, a.chars_glyphs,
      yes.chars_glyphs, no.chars_glyphs]

theorem Block.chars_glyphs (indent : Nat) :
    (b : Block) → chars (b.glyphs indent) = (b.text indent).toList
  | .mk hoisted body => by simp [Block.glyphs, Block.text, chars_bodyGlyphs]

theorem chars_bodyGlyphs (indent : Nat) :
    (ts : List Stmt) → chars (bodyGlyphs indent ts) = (bodyText indent ts).toList
  | [] => by rw [bodyGlyphs, bodyText]; rfl
  | t :: ts => by
    rw [bodyGlyphs, bodyText, chars_append, String.toList_append, t.chars_glyphs,
      chars_bodyGlyphs indent ts]

end

/-! ## What is marked -/

mutual

/-- The comments in an expression, from left to right. -/
def Expr.comments : Expr → List String
  | .str _ | .num _ | .undefined | .name _ _ => []
  | .unary _ a | .cast _ a | .member a _ => a.comments
  | .binary _ a b => a.comments ++ b.comments
  | .function _ body => body.comments
  | .call callee args => callee.comments ++ argComments args
  | .choice a b c => a.comments ++ (b.comments ++ c.comments)

def argComments : List Expr → List String
  | [] => []
  | e :: es => e.comments ++ argComments es

/-- The comments in a statement. -/
def Stmt.comments : Stmt → List String
  | .comment text => [text]
  | .declare _ a | .assign _ _ a | .result a | .expr a => a.comments
  | .increment _ _ => []
  | .forLess _ a b body => a.comments ++ (b.comments ++ body.comments)
  | .doWhile body a => body.comments ++ a.comments
  | .branch a yes => a.comments ++ yes.comments
  | .branchElse a yes no => a.comments ++ (yes.comments ++ no.comments)

/-- The comments in a block. -/
def Block.comments : Block → List String
  | .mk _ body => bodyComments body

def bodyComments : List Stmt → List String
  | [] => []
  | t :: ts => t.comments ++ bodyComments ts

end

/-- What is shown of a comment: its lines without the white space at their ends. -/
def shown (text : String) : List Char := (lines text.toList).flatMap trimEnd

end ScriptTree

namespace Glyph

theorem trimmed_append (gs hs : List Glyph) :
    trimmed (gs ++ hs) = if trimmed hs = [] then trimmed gs else gs ++ trimmed hs := by
  unfold trimmed
  rw [List.reverse_append, List.dropWhile_append]
  simp only [List.isEmpty_iff, List.reverse_eq_nil_iff]
  split
  · rfl
  · rw [List.reverse_append, List.reverse_reverse]

theorem trimmed_said (cs : List Char) : trimmed (said cs) = said (trimEnd cs) := by
  unfold trimmed said trimEnd
  rw [← List.map_reverse, List.dropWhile_map, List.map_reverse]
  rfl

/-- A line of a comment is two slashes, a blank and what is said, but for white space at its end. -/
theorem trimmed_comment (l : List Char) : ∃ gap : String, (gap = "" ∨ gap = " ") ∧
    trimmed (own "// " ++ said l) = own "//" ++ own gap ++ said (trimEnd l) := by
  rw [trimmed_append, trimmed_said]
  split
  · rename_i hempty
    exact ⟨"", .inl rfl, by rw [hempty]; rfl⟩
  · exact ⟨" ", .inr rfl, rfl⟩

theorem docText_commentLine (indent : Nat) (l : List Char) :
    docText (commentLine indent l) = trimEnd l := by
  obtain ⟨gap, -, hline⟩ := trimmed_comment l
  rw [commentLine, hline]
  simp [lineOf]

end Glyph

namespace ScriptTree

open Glyph

theorem docText_commaJoined (gss : List (List Glyph)) :
    docText (commaJoined gss) = gss.flatMap docText := by
  cases gss with
  | nil => rfl
  | cons g gss => simp [commaJoined, docText_flatMap]

mutual

theorem Expr.docText_glyphs (indent : Nat) :
    (e : Expr) → docText (e.glyphs indent) = e.comments.flatMap shown
  | .str _ | .num _ | .undefined | .name _ _ => by simp [Expr.glyphs, Expr.comments]
  | .unary _ a | .cast _ a | .member a _ => by
    simp [Expr.glyphs, Expr.comments, a.docText_glyphs]
  | .binary _ a b => by
    simp [Expr.glyphs, Expr.comments, a.docText_glyphs, b.docText_glyphs]
  | .function _ body => by simp [Expr.glyphs, Expr.comments, body.docText_glyphs]
  | .call callee args => by
    simp [Expr.glyphs, Expr.comments, callee.docText_glyphs, docText_commaJoined,
      docText_argGlyphs indent args]
  | .choice a b c => by
    simp [Expr.glyphs, Expr.comments, a.docText_glyphs, b.docText_glyphs, c.docText_glyphs]

theorem docText_argGlyphs (indent : Nat) :
    (es : List Expr) → (argGlyphs indent es).flatMap docText = (argComments es).flatMap shown
  | [] => by rw [argGlyphs, argComments]; rfl
  | e :: es => by
    simp [argGlyphs, argComments, e.docText_glyphs, docText_argGlyphs indent es]

theorem Stmt.docText_glyphs (indent : Nat) :
    (t : Stmt) → docText (t.glyphs indent) = t.comments.flatMap shown
  | .comment text => by
    simp [Stmt.glyphs, Stmt.comments, docText_flatMap, docText_commentLine, shown]
  | .declare _ a | .assign _ _ a | .result a | .expr a => by
    simp [Stmt.glyphs, Stmt.comments, lineOf, a.docText_glyphs]
  | .increment _ _ => by simp [Stmt.glyphs, Stmt.comments, lineOf]
  | .forLess _ a b body => by
    simp [Stmt.glyphs, Stmt.comments, lineOf, a.docText_glyphs, b.docText_glyphs,
      body.docText_glyphs]
  | .doWhile body a => by
    simp [Stmt.glyphs, Stmt.comments, lineOf, a.docText_glyphs, body.docText_glyphs]
  | .branch a yes => by
    simp [Stmt.glyphs, Stmt.comments, lineOf, a.docText_glyphs, yes.docText_glyphs]
  | .branchElse a yes no => by
    simp [Stmt.glyphs, Stmt.comments, lineOf, a.docText_glyphs, yes.docText_glyphs,
      no.docText_glyphs]

theorem Block.docText_glyphs (indent : Nat) :
    (b : Block) → docText (b.glyphs indent) = b.comments.flatMap shown
  | .mk _ body => by simp [Block.glyphs, Block.comments, docText_bodyGlyphs]

theorem docText_bodyGlyphs (indent : Nat) :
    (ts : List Stmt) → docText (bodyGlyphs indent ts) = (bodyComments ts).flatMap shown
  | [] => by rw [bodyGlyphs, bodyComments]; rfl
  | t :: ts => by
    simp [bodyGlyphs, bodyComments, t.docText_glyphs, docText_bodyGlyphs indent ts]

end

end ScriptTree

end FormScript
