import FormScript.Number.Reading
import FormScript.Token
import FormScript.Limits
import FormScript.Tree.Node
import FormScript.Tree.Recipe

/-!
# The grammar

Which tokens spell which tree, said without a parser. An expression is an atom or a form; a form is
a head and slots between parentheses, and the recipe of the head says what the slots are. A rule
speaks of the tokens that it is made of and of at most one token more, the one behind the slots of a
form: a slot may be left out only in front of a closing parenthesis, and a type may be taken from
it.

The rules are written against a choice, `opens`: which tokens may come first in a block without a
head. The parser's own choice is an opening parenthesis. With any other token as first one the block
could be taken for a form, so the choice is what makes the grammar unambiguous; the rules themselves
do not depend on it.

Nesting is not part of the rules. It is counted on the tokens (`nesting`), and as the parentheses of
whatever a rule derives are balanced (`Expr.balanced` and its companions), it can be counted piece
by piece.
-/

namespace FormScript.Grammar

/-! ## Numbers and heads -/

/-- The number that a text spells, which must be finite. -/
def Spells (text : String) (x : Binary64) : Prop :=
  Binary64.ofDecimal? text.toList = some x ∧ x.isFinite = true

/-- No gap stands between the two tokens. -/
def Adjacent (t u : Token) : Prop := u.span.start.offset = t.span.stop.offset

/-- Words and operators can be part of a head, parentheses cannot. -/
def Joinable (t : Token) : Prop :=
  (t.kind = .identifier ∨ t.kind = .keyword ∨ t.kind = .operator) ∧
    t.isOpen = false ∧ t.isClose = false

/-- Tokens that stand together as one word: all of them joinable, with no gaps in between. -/
def OneWord : List Token → Prop
  | [] => False
  | [t] => Joinable t
  | t :: u :: ts => Joinable t ∧ Adjacent t u ∧ OneWord (u :: ts)

/-- The word that tokens make up. -/
def spelling : List Token → String
  | [] => ""
  | [t] => t.text
  | t :: u :: ts => t.text ++ spelling (u :: ts)

/-- The head of a form, `run`, in front of `rest`: the longest run of joined tokens, of at most
`longestHead` of them, that has a recipe. -/
structure IsHead (run rest : List Token) (recipe : Recipe) : Prop where
  joined : OneWord run
  short : run.length ≤ longestHead
  named : recipe? (spelling run) = some recipe
  longest : ∀ more, more <+: rest → more ≠ [] → run.length + more.length ≤ longestHead →
    OneWord (run ++ more) → recipe? (spelling (run ++ more)) = none

/-- The annotation of a head is that of its first token. -/
def headType (run : List Token) : Option String := run.head?.bind Token.ascription

/-- The node that an identifier is. -/
def identOf (t : Token) : Node := .ident ⟨t.span, t.ascription⟩ t.text

/-- The node that a string is. -/
def strOf (t : Token) : Node := .str ⟨t.span, t.ascription⟩ t.text

/-- A form as a block: unless it is a block already, it becomes the only statement of one. -/
def asBlock : Node → Node
  | .block m body => .block m body
  | n => .block ⟨n.span, none⟩ [n]

/-! ## Rules -/

mutual

/-- An atom, or a form. -/
inductive Expr (opens : Token → Bool) : List Token → Node → Prop
  | str {t : Token} (kind : t.kind = .string) : Expr opens [t] (strOf t)
  | num {t : Token} {x : Binary64} (kind : t.kind = .number) (value : Spells t.text x) :
      Expr opens [t] (.num ⟨t.span, t.ascription⟩ x t.text)
  | ident {t : Token} (kind : t.kind = .identifier) : Expr opens [t] (identOf t)
  | negative {minus digits : Token} {x : Binary64} (sign : minus.kind = .operator)
      (text : minus.text = "-") (kind : digits.kind = .number) (adjacent : Adjacent minus digits)
      (value : Spells ("-" ++ digits.text) x) :
      Expr opens [minus, digits] (.num ⟨minus.span.merge digits.span,
        minus.ascription <|> digits.ascription⟩ x ("-" ++ digits.text))
  | form {t : Token} {ts : List Token} {n : Node} (kind : t.kind = .operator)
      (form : Form opens (t :: ts) n) : Expr opens (t :: ts) n

/-- Head and slots between parentheses. The annotation is that of the opening parenthesis, else
that of the head, else that of the closing parenthesis. -/
inductive Form (opens : Token → Bool) : List Token → Node → Prop
  | mk {opening closing : Token} {run ts : List Token} {recipe : Recipe} {make : Mark → Node}
      {n : Node} (opened : opening.isOpen = true) (head : IsHead run (ts ++ [closing]) recipe)
      (slots : Slots opens recipe ts closing make) (closed : closing.isClose = true)
      (node : make ⟨opening.span.merge closing.span,
        opening.ascription <|> headType run <|> closing.ascription⟩ = n) :
      Form opens (opening :: (run ++ ts) ++ [closing]) n

/-- The slots of a form in front of the token `next`, and the node they make once its mark is
known. -/
inductive Slots (opens : Token → Bool) : Recipe → List Token → Token → (Mark → Node) → Prop
  | doc {t next : Token} (kind : t.kind = .string) :
      Slots opens .doc [t] next (.doc · (strOf t))
  | declare {t next : Token} {ts : List Token} {n : Node} (kind : t.kind = .identifier)
      (value : Expr opens ts n) : Slots opens .declare (t :: ts) next (.declare · (identOf t) n)
  | assign {t next : Token} {ts : List Token} {n : Node} (kind : t.kind = .identifier)
      (value : Expr opens ts n) : Slots opens .assign (t :: ts) next (.assign · (identOf t) n)
  | increment {t next : Token} (kind : t.kind = .identifier) :
      Slots opens .increment [t] next (.increment · (identOf t))
  | result {next : Token} {ts : List Token} {n : Node} (value : Expr opens ts n) :
      Slots opens .result ts next (.result · n)
  | cast {t next : Token} {ts : List Token} {n : Node} (value : Expr opens ts n)
      (kind : t.kind = .identifier) :
      Slots opens .cast (ts ++ [t]) next (.cast · n (.type ⟨t.span, none⟩ t.text))
  | castByClose {next : Token} {ts : List Token} {n : Node} {a : String} (value : Expr opens ts n)
      (closed : next.isClose = true) (type : next.ascription = some a) :
      Slots opens .cast ts next (.cast · n (.type ⟨next.span, none⟩ a))
  | param {t next : Token} (kind : t.kind = .identifier) :
      Slots opens .param [t] next
        fun m => .param ⟨m.span, t.ascription <|> m.ascription⟩ (identOf t)
  | choice {next : Token} {ts us vs : List Token} {a b c : Node} (condition : Expr opens ts a)
      (yes : Expr opens us b) (no : Expr opens vs c) :
      Slots opens .choice (ts ++ (us ++ vs)) next (.choice · a b c)
  | member {t next : Token} {ts : List Token} {n : Node} (object : Expr opens ts n)
      (kind : t.kind = .identifier) : Slots opens .member (ts ++ [t]) next (.member · n (identOf t))
  | doWhile {next : Token} {ts us : List Token} {a b : Node} (body : Block opens ts a)
      (condition : Expr opens us b) : Slots opens .doWhile (ts ++ us) next (.doWhile · a b)
  | binary {op : BinaryOp} {next : Token} {ts us : List Token} {a b : Node}
      (left : Expr opens ts a) (right : Expr opens us b) :
      Slots opens (.binary op) (ts ++ us) next (.binary · op a b)
  | signOne {one : UnaryOp} {two : BinaryOp} {next : Token} {ts : List Token} {a : Node}
      (operand : Expr opens ts a) (closed : next.isClose = true) :
      Slots opens (.sign one two) ts next (.unary · one a)
  | signTwo {one : UnaryOp} {two : BinaryOp} {next : Token} {ts us : List Token} {a b : Node}
      (left : Expr opens ts a) (right : Expr opens us b) :
      Slots opens (.sign one two) (ts ++ us) next (.binary · two a b)
  | unary {op : UnaryOp} {next : Token} {ts : List Token} {a : Node} (operand : Expr opens ts a) :
      Slots opens (.unary op) ts next (.unary · op a)
  | branch {next : Token} {ts us : List Token} {a b : Node} (condition : Expr opens ts a)
      (yes : Expr opens us b) (closed : next.isClose = true) :
      Slots opens .branch (ts ++ us) next (.branch · a b none)
  | branchElse {next : Token} {ts us vs : List Token} {a b c : Node} (condition : Expr opens ts a)
      (yes : Expr opens us b) (no : Expr opens vs c) :
      Slots opens .branch (ts ++ (us ++ vs)) next (.branch · a b (some c))
  | call {next : Token} {ts us : List Token} {a : Node} {args : List Node}
      (callee : Expr opens ts a) (items : Items opens none us args)
      (few : args.length ≤ Limits.listChildren) (closed : next.isClose = true) :
      Slots opens .call (ts ++ us) next (.call · a args)
  | block {next : Token} {ts : List Token} {body : List Node} (items : Items opens none ts body)
      (few : body.length ≤ Limits.listChildren) (closed : next.isClose = true) :
      Slots opens .block ts next (.block · body)
  | function {next : Token} {ts us : List Token} {a : Node} {body : List Node}
      (params : Item opens (some "plist") ts a) (items : Items opens none us body)
      (few : body.length ≤ Limits.listChildren) (closed : next.isClose = true) :
      Slots opens .function (ts ++ us) next (.function · a body)
  | params {next : Token} {ts : List Token} {params : List Node}
      (items : Items opens (some "param") ts params)
      (few : params.length ≤ Limits.listChildren) (closed : next.isClose = true) :
      Slots opens .params ts next (.params · params)
  | forLess {t next : Token} {ts us vs : List Token} {a b : Node} {body : List Node}
      (kind : t.kind = .identifier) (start : Expr opens ts a) (stop : Expr opens us b)
      (items : Items opens none vs body) (few : body.length ≤ Limits.listChildren)
      (closed : next.isClose = true) :
      Slots opens .forLess (t :: (ts ++ (us ++ vs))) next (.forLess · (identOf t) a b body)

/-- The body of a loop: statements between parentheses, or a form. -/
inductive Block (opens : Token → Bool) : List Token → Node → Prop
  | bare {opening closing : Token} {ts : List Token} {body : List Node}
      (opened : opening.isOpen = true) (first : opens ((ts ++ [closing]).headD closing) = true)
      (items : Items opens none ts body) (few : body.length ≤ Limits.listChildren)
      (closed : closing.isClose = true) :
      Block opens (opening :: ts ++ [closing]) (.block ⟨opening.span.merge closing.span,
        opening.ascription <|> closing.ascription⟩ body)
  | form {ts : List Token} {n b : Node} (form : Form opens ts n) (node : asBlock n = b) :
      Block opens ts b

/-- An item of a list: an expression, or a form whose head is the keyword given. -/
inductive Item (opens : Token → Bool) : Option String → List Token → Node → Prop
  | expr {ts : List Token} {n : Node} (expr : Expr opens ts n) : Item opens none ts n
  | headed {head : String} {opening t : Token} {ts : List Token} {n : Node}
      (symbol : t.isSymbol head = true) (form : Form opens (opening :: t :: ts) n) :
      Item opens (some head) (opening :: t :: ts) n

/-- Any number of items, one behind the other. -/
inductive Items (opens : Token → Bool) : Option String → List Token → List Node → Prop
  | nil {head : Option String} : Items opens head [] []
  | cons {head : Option String} {ts us : List Token} {n : Node} {ns : List Node}
      (first : Item opens head ts n) (more : Items opens head us ns) :
      Items opens head (ts ++ us) (n :: ns)

end

/-! ## Nesting -/

/-- The deepest nesting of parentheses met on the way through some tokens, from a given depth on. -/
def deepest (depth : Nat) : List Token → Nat
  | [] => depth
  | t :: ts =>
    max depth (deepest (if t.isOpen then depth + 1 else if t.isClose then depth - 1 else depth) ts)

/-- How deep parentheses are nested in some tokens. -/
def nesting (ts : List Token) : Nat := deepest 0 ts

/-- Tokens that leave the depth as it was, from whatever depth they are read. -/
def Balanced (ts : List Token) : Prop :=
  ∀ depth rest, deepest depth (ts ++ rest) = max (depth + nesting ts) (deepest depth rest)

theorem le_deepest (depth : Nat) (ts : List Token) : depth ≤ deepest depth ts := by
  cases ts with
  | nil => exact Nat.le_refl _
  | cons t ts => exact Nat.le_max_left _ _

theorem balanced_nil : Balanced [] := by
  intro depth rest
  have := le_deepest depth rest
  simp only [nesting, deepest, List.nil_append]
  omega

theorem deepest_plain (depth : Nat) {t : Token} (ts : List Token) (hopen : t.isOpen = false)
    (hclose : t.isClose = false) : deepest depth (t :: ts) = deepest depth ts := by
  have := le_deepest depth ts
  simp only [deepest, hopen, hclose, Bool.false_eq_true, if_false]
  omega

theorem balanced_singleton {t : Token} (hopen : t.isOpen = false) (hclose : t.isClose = false) :
    Balanced [t] := by
  intro depth rest
  have := le_deepest depth rest
  rw [List.singleton_append, deepest_plain depth rest hopen hclose, nesting,
    deepest_plain 0 [] hopen hclose, deepest]
  omega

namespace Balanced

variable {ts us : List Token}

theorem nesting_append (h : Balanced ts) (us : List Token) :
    nesting (ts ++ us) = max (nesting ts) (nesting us) := by
  have := h 0 us
  rwa [Nat.zero_add] at this

theorem append (hts : Balanced ts) (hus : Balanced us) : Balanced (ts ++ us) := by
  intro depth rest
  rw [List.append_assoc, hts, hus, hts.nesting_append]
  omega

theorem cons {t : Token} (hopen : t.isOpen = false) (hclose : t.isClose = false)
    (h : Balanced ts) : Balanced (t :: ts) :=
  (balanced_singleton hopen hclose).append h

/-- A pair of parentheses around balanced tokens is one step deeper. -/
theorem deepest_enclose {opening closing : Token} (hopen : opening.isOpen = true)
    (hclose : closing.isClose = true) (h : Balanced ts) (depth : Nat) (rest : List Token) :
    deepest depth (opening :: ts ++ [closing] ++ rest)
      = max (depth + (nesting ts + 1)) (deepest depth rest) := by
  have hnot : closing.isOpen = false := by
    have htext : closing.text = ")" := by
      simp only [Token.isClose, Token.isSymbol, Bool.and_eq_true, beq_iff_eq] at hclose
      exact hclose.2
    simp [Token.isOpen, Token.isSymbol, htext]
  have hinner : deepest (depth + 1) (closing :: rest) = max (depth + 1) (deepest depth rest) := by
    simp [deepest, hnot, hclose]
  have houter : deepest depth (opening :: (ts ++ closing :: rest))
      = max depth (deepest (depth + 1) (ts ++ closing :: rest)) := by
    simp [deepest, hopen]
  rw [List.append_assoc, List.cons_append, List.singleton_append, houter, h, hinner]
  omega

theorem enclose {opening closing : Token} (hopen : opening.isOpen = true)
    (hclose : closing.isClose = true) (h : Balanced ts) :
    Balanced (opening :: ts ++ [closing]) ∧
      nesting (opening :: ts ++ [closing]) = nesting ts + 1 := by
  have hnesting : nesting (opening :: ts ++ [closing]) = nesting ts + 1 := by
    have := h.deepest_enclose hopen hclose 0 []
    rw [List.append_nil] at this
    rw [nesting, this, deepest]
    omega
  refine ⟨fun depth rest => ?_, hnesting⟩
  rw [h.deepest_enclose hopen hclose, hnesting]

end Balanced

/-- Only symbols are parentheses. -/
theorem not_paren_of_kind {t : Token} (h : t.kind.isSymbol = false) :
    t.isOpen = false ∧ t.isClose = false := by
  simp [Token.isOpen, Token.isClose, Token.isSymbol, h]

/-- A parenthesis that closes does not open. -/
theorem isOpen_of_isClose {t : Token} (h : t.isClose = true) : t.isOpen = false := by
  simp only [Token.isClose, Token.isSymbol, Bool.and_eq_true, beq_iff_eq] at h
  simp [Token.isOpen, Token.isSymbol, h.2]

/-- Tokens of one word are words and operators. -/
theorem OneWord.joinable {ts : List Token} (h : OneWord ts) : ∀ t ∈ ts, Joinable t := by
  induction ts with
  | nil => exact h.elim
  | cons t ts ih =>
    intro u hu
    cases ts with
    | nil =>
      rw [List.mem_singleton] at hu
      exact hu ▸ h
    | cons v ts =>
      rcases List.mem_cons.mp hu with rfl | hu
      · exact h.1
      · exact ih h.2.2 u hu

theorem Joinable.isEof {t : Token} (h : Joinable t) : t.isEof = false := by
  rcases h.1 with h | h | h
  · simp [Token.isEof, h]
  · simp [Token.isEof, h]
  · simp [Token.isEof, h]

/-- Tokens without parentheses. -/
theorem balanced_of_plain {ts : List Token}
    (h : ∀ t ∈ ts, t.isOpen = false ∧ t.isClose = false) : Balanced ts ∧ nesting ts = 0 := by
  induction ts with
  | nil => exact ⟨balanced_nil, rfl⟩
  | cons t ts ih =>
    obtain ⟨hopen, hclose⟩ := h t List.mem_cons_self
    obtain ⟨hbalanced, hnesting⟩ := ih fun u hu => h u (List.mem_cons_of_mem _ hu)
    refine ⟨hbalanced.cons hopen hclose, ?_⟩
    rw [nesting, deepest_plain 0 _ hopen hclose]
    exact hnesting

theorem OneWord.balanced {run : List Token} (h : OneWord run) : Balanced run ∧ nesting run = 0 :=
  balanced_of_plain fun t ht => (h.joinable t ht).2

variable {opens : Token → Bool}

/-- An identifier, and what is balanced behind it. -/
theorem Balanced.cons_ident {t : Token} {ts : List Token} (kind : t.kind = .identifier)
    (h : Balanced ts) : Balanced (t :: ts) := by
  obtain ⟨hopen, hclose⟩ := not_paren_of_kind (t := t) (by rw [kind]; rfl)
  exact h.cons hopen hclose

/-! **Every rule derives balanced tokens**, by one induction over all rules. -/

mutual

theorem Expr.balanced {ts : List Token} {n : Node} : Expr opens ts n → Balanced ts
  | .str kind => by
    obtain ⟨hopen, hclose⟩ := not_paren_of_kind (by rw [kind]; rfl)
    exact balanced_singleton hopen hclose
  | .num kind _ => by
    obtain ⟨hopen, hclose⟩ := not_paren_of_kind (by rw [kind]; rfl)
    exact balanced_singleton hopen hclose
  | .ident kind => balanced_nil.cons_ident kind
  | .negative sign text kind _ _ => by
    obtain ⟨hopen, hclose⟩ := not_paren_of_kind (by rw [kind]; rfl)
    refine Balanced.cons ?_ ?_ (balanced_singleton hopen hclose)
    · simp [Token.isOpen, Token.isSymbol, text]
    · simp [Token.isClose, Token.isSymbol, text]
  | .form _ form => form.balanced

theorem Form.balanced {ts : List Token} {n : Node} : Form opens ts n → Balanced ts
  | .mk opened head slots closed _ =>
    ((head.joined.balanced.1.append slots.balanced).enclose opened closed).1

theorem Slots.balanced {recipe : Recipe} {ts : List Token} {next : Token} {make : Mark → Node} :
    Slots opens recipe ts next make → Balanced ts
  | .doc kind => by
    obtain ⟨hopen, hclose⟩ := not_paren_of_kind (by rw [kind]; rfl)
    exact balanced_singleton hopen hclose
  | .declare kind value => value.balanced.cons_ident kind
  | .assign kind value => value.balanced.cons_ident kind
  | .increment kind => balanced_nil.cons_ident kind
  | .result value => value.balanced
  | .cast value kind => value.balanced.append (balanced_nil.cons_ident kind)
  | .castByClose value _ _ => value.balanced
  | .param kind => balanced_nil.cons_ident kind
  | .choice a b c => a.balanced.append (b.balanced.append c.balanced)
  | .member object kind => object.balanced.append (balanced_nil.cons_ident kind)
  | .doWhile body condition => body.balanced.append condition.balanced
  | .binary a b => a.balanced.append b.balanced
  | .signOne a _ => a.balanced
  | .signTwo a b => a.balanced.append b.balanced
  | .unary a => a.balanced
  | .branch a b _ => a.balanced.append b.balanced
  | .branchElse a b c => a.balanced.append (b.balanced.append c.balanced)
  | .call callee items _ _ => callee.balanced.append items.balanced
  | .block items _ _ => items.balanced
  | .function params items _ _ => params.balanced.append items.balanced
  | .params items _ _ => items.balanced
  | .forLess kind a b items _ _ =>
    (a.balanced.append (b.balanced.append items.balanced)).cons_ident kind

theorem Block.balanced {ts : List Token} {n : Node} : Block opens ts n → Balanced ts
  | .bare opened _ items _ closed => (items.balanced.enclose opened closed).1
  | .form form _ => form.balanced

theorem Item.balanced {head : Option String} {ts : List Token} {n : Node} :
    Item opens head ts n → Balanced ts
  | .expr expr => expr.balanced
  | .headed _ form => form.balanced

theorem Items.balanced {head : Option String} {ts : List Token} {ns : List Node} :
    Items opens head ts ns → Balanced ts
  | .nil => balanced_nil
  | .cons first more => first.balanced.append more.balanced

end

/-! ## First tokens -/

/-- Some token comes first that neither closes a form nor ends the input. -/
def Starts (ts : List Token) : Prop :=
  ∃ t us, ts = t :: us ∧ t.isClose = false ∧ t.isEof = false

theorem starts_of_kind {t : Token} (us : List Token) (h : t.kind.isSymbol = false)
    (heof : t.kind ≠ .eof) : Starts (t :: us) :=
  ⟨t, us, rfl, (not_paren_of_kind h).2, by simpa [Token.isEof] using heof⟩

theorem isEof_of_isSymbol {t : Token} {spelling : String} (h : t.isSymbol spelling = true) :
    t.isEof = false := by
  by_cases heof : t.kind = .eof
  · simp [Token.isSymbol, heof, TokenKind.isSymbol] at h
  · simpa [Token.isEof] using heof

theorem starts_of_isOpen {t : Token} (us : List Token) (h : t.isOpen = true) :
    Starts (t :: us) := by
  refine ⟨t, us, rfl, ?_, isEof_of_isSymbol h⟩
  simp only [Token.isOpen, Token.isSymbol, Bool.and_eq_true, beq_iff_eq] at h
  simp [Token.isClose, Token.isSymbol, h.2]

/-- A form opens with a parenthesis and goes on with its head. -/
theorem Form.first {ts : List Token} {n : Node} (h : Form opens ts n) :
    ∃ opening t us, ts = opening :: t :: us ∧ opening.isOpen = true ∧ Joinable t := by
  obtain ⟨opened, head, -, -, -⟩ := h
  rename_i opening closing run us _ _
  have hjoined := head.joined
  rcases run with _ | ⟨t, _ | ⟨u, run⟩⟩
  · exact hjoined.elim
  · exact ⟨opening, t, us ++ [closing], rfl, opened, hjoined⟩
  · exact ⟨opening, t, u :: (run ++ us) ++ [closing], rfl, opened, hjoined.1⟩

theorem Form.nesting_pos {ts : List Token} {n : Node} (h : Form opens ts n) : 0 < nesting ts := by
  obtain ⟨opened, head, slots, closed, -⟩ := h
  rw [((head.joined.balanced.1.append slots.balanced).enclose opened closed).2]
  exact Nat.succ_pos _

theorem Item.starts {head : Option String} {ts : List Token} {n : Node}
    (h : Item opens head ts n) : Starts ts := by
  cases h with
  | expr expr =>
    cases expr with
    | str kind => exact starts_of_kind [] (by rw [kind]; rfl) (by simp [kind])
    | num kind => exact starts_of_kind [] (by rw [kind]; rfl) (by simp [kind])
    | ident kind => exact starts_of_kind [] (by rw [kind]; rfl) (by simp [kind])
    | negative sign text =>
      refine ⟨_, _, rfl, ?_, ?_⟩
      · simp [Token.isClose, Token.isSymbol, text]
      · simp [Token.isEof, sign]
    | form _ form =>
      obtain ⟨opening, t, us, hts, hopen, -⟩ := form.first
      rw [hts]
      exact starts_of_isOpen _ hopen
  | headed _ form =>
    obtain ⟨opening, t, us, hts, hopen, -⟩ := form.first
    rw [hts]
    exact starts_of_isOpen _ hopen

/-- A block opens with a parenthesis, and something comes next. -/
theorem Block.first {ts : List Token} {n : Node} (h : Block opens ts n) :
    ∃ opening t us, ts = opening :: t :: us ∧ opening.isOpen = true := by
  cases h with
  | @bare opening closing us _ opened _ _ _ _ =>
    cases us with
    | nil => exact ⟨opening, closing, [], rfl, opened⟩
    | cons t us => exact ⟨opening, t, us ++ [closing], rfl, opened⟩
  | form form _ =>
    obtain ⟨opening, t, us, hts, hopen, -⟩ := form.first
    exact ⟨opening, t, us, hts, hopen⟩

/-! The first token of an expression tells which rule derives it. -/

section

variable {t : Token} {us : List Token} {n : Node}

theorem not_expr_nil : ¬ Expr opens [] n := nofun

theorem expr_string (h : t.kind = .string) :
    Expr opens (t :: us) n ↔ us = [] ∧ n = strOf t := by
  constructor
  · intro hexpr
    cases hexpr with
    | str => exact ⟨rfl, rfl⟩
    | num kind => simp [kind] at h
    | ident kind => simp [kind] at h
    | negative sign => simp [sign] at h
    | form kind => simp [kind] at h
  · rintro ⟨rfl, rfl⟩
    exact .str h

theorem expr_number (h : t.kind = .number) :
    Expr opens (t :: us) n ↔
      us = [] ∧ ∃ x, Spells t.text x ∧ n = .num ⟨t.span, t.ascription⟩ x t.text := by
  constructor
  · intro hexpr
    cases hexpr with
    | str kind => simp [kind] at h
    | num _ value => exact ⟨rfl, _, value, rfl⟩
    | ident kind => simp [kind] at h
    | negative sign => simp [sign] at h
    | form kind => simp [kind] at h
  · rintro ⟨rfl, x, value, rfl⟩
    exact .num h value

theorem expr_identifier (h : t.kind = .identifier) :
    Expr opens (t :: us) n ↔ us = [] ∧ n = identOf t := by
  constructor
  · intro hexpr
    cases hexpr with
    | str kind => simp [kind] at h
    | num kind => simp [kind] at h
    | ident => exact ⟨rfl, rfl⟩
    | negative sign => simp [sign] at h
    | form kind => simp [kind] at h
  · rintro ⟨rfl, rfl⟩
    exact .ident h

theorem expr_open (h : t.kind = .operator) (hopen : t.isOpen = true) :
    Expr opens (t :: us) n ↔ Form opens (t :: us) n := by
  refine ⟨?_, .form h⟩
  intro hexpr
  cases hexpr with
  | str kind => simp [kind] at h
  | num kind => simp [kind] at h
  | ident kind => simp [kind] at h
  | negative _ text => simp [Token.isOpen, Token.isSymbol, text] at hopen
  | form _ form => exact form

/-- An operator that opens no form is a minus sign, and the digits follow it. -/
theorem expr_minus (h : t.kind = .operator) (hopen : t.isOpen = false) :
    Expr opens (t :: us) n ↔ t.text = "-" ∧ ∃ digits x, us = [digits] ∧ digits.kind = .number ∧
      Adjacent t digits ∧ Spells ("-" ++ digits.text) x ∧
      n = .num ⟨t.span.merge digits.span, t.ascription <|> digits.ascription⟩ x
        ("-" ++ digits.text) := by
  constructor
  · intro hexpr
    cases hexpr with
    | str kind => simp [kind] at h
    | num kind => simp [kind] at h
    | ident kind => simp [kind] at h
    | negative _ text kind adjacent value => exact ⟨text, _, _, rfl, kind, adjacent, value, rfl⟩
    | form _ form =>
      obtain ⟨opening, u, vs, hts, hopening, -⟩ := form.first
      rw [(List.cons.inj hts).1, hopening] at hopen
      cases hopen
  · rintro ⟨text, digits, x, rfl, kind, adjacent, value, rfl⟩
    exact .negative h text kind adjacent value

/-- No other token comes first. -/
theorem Expr.kind_mem (h : Expr opens (t :: us) n) :
    t.kind = .string ∨ t.kind = .number ∨ t.kind = .identifier ∨ t.kind = .operator := by
  cases h with
  | str kind => exact .inl kind
  | num kind => exact .inr (.inl kind)
  | ident kind => exact .inr (.inr (.inl kind))
  | negative sign => exact .inr (.inr (.inr sign))
  | form kind => exact .inr (.inr (.inr kind))

end

end FormScript.Grammar
