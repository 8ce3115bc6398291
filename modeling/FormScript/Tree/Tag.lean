/-!
# Tags

The kinds of tree nodes, and how many children a node of each kind may have. A tag is spelled the
way tree dumps print it; in sources some of these constructs are spelled differently (`bit-or` is
written `|`), which is a matter for the operators below.
-/

namespace FormScript

/-- The kinds of nodes. -/
inductive Tag where
  | str
  | num
  | ident
  | type
  | program
  | doc
  | declare
  | assign
  | increment
  | doWhile
  | plus
  | minus
  | add
  | sub
  | mul
  | div
  | pow
  | bitOr
  | bitAnd
  | bitXor
  | bitNot
  | and
  | or
  | not
  | eq
  | ne
  | gt
  | ge
  | lt
  | le
  | function
  | params
  | param
  | result
  | forLess
  | cast
  | call
  | block
  | branch
  | choice
  | member
deriving DecidableEq, Repr, Inhabited

/-- The child counts that a tag allows. -/
inductive Arity where
  | exactly (n : Nat)
  | atLeast (n : Nat)
  | between (least most : Nat)
deriving DecidableEq, Repr

namespace Arity

/-- Whether so many children are allowed. -/
def allows : Arity → Nat → Bool
  | exactly n, k => k == n
  | atLeast n, k => n ≤ k
  | between least most, k => least ≤ k && k ≤ most

/-- The arity in words. -/
def text : Arity → String
  | exactly n => s!"exactly {n}"
  | atLeast n => s!"at least {n}"
  | between least most => s!"{least} to {most}"

end Arity

namespace Tag

/-- All tags. -/
def all : List Tag :=
  [str, num, ident, type, program, doc, declare, assign, increment, doWhile, plus, minus, add, sub,
   mul, div, pow, bitOr, bitAnd, bitXor, bitNot, and, or, not, eq, ne, gt, ge, lt, le, function,
   params, param, result, forLess, cast, call, block, branch, choice, member]

/-- The spelling of a tag in dumps and messages. -/
def text : Tag → String
  | str => "strlit"
  | num => "numlit"
  | ident => "ident"
  | type => "type"
  | program => "module"
  | doc => "doc"
  | declare => "let"
  | assign => "set!"
  | increment => "inc!"
  | doWhile => "do-while"
  | plus => "unary +"
  | minus => "unary -"
  | add => "+"
  | sub => "-"
  | mul => "*"
  | div => "/"
  | pow => "^"
  | bitOr => "bit-or"
  | bitAnd => "bit-and"
  | bitXor => "bit-xor"
  | bitNot => "bit-not"
  | and => "and"
  | or => "or"
  | not => "not"
  | eq => "=="
  | ne => "!="
  | gt => ">"
  | ge => ">="
  | lt => "<"
  | le => "<="
  | function => "fn"
  | params => "plist"
  | param => "param"
  | result => "return"
  | forLess => "forlt"
  | cast => "cast"
  | call => "call"
  | block => "do"
  | branch => "if"
  | choice => "?"
  | member => "."

/-- The tag of that spelling. -/
def ofText? (s : String) : Option Tag := all.find? (·.text == s)

/-- How many children a node of this kind has. -/
def arity : Tag → Arity
  | str | num | ident | type => .exactly 0
  | program | block | params => .atLeast 0
  | doc | increment | param | result | plus | minus | bitNot | not => .exactly 1
  | declare | assign | doWhile | cast | member => .exactly 2
  | add | sub | mul | div | pow | bitOr | bitAnd | bitXor | and | or | eq | ne
  | gt | ge | lt | le =>
    .exactly 2
  | function | call => .atLeast 1
  | forLess => .atLeast 3
  | branch => .between 2 3
  | choice => .exactly 3

end Tag

/-- Operators with two operands. -/
inductive BinaryOp where
  | add
  | sub
  | mul
  | div
  | pow
  | bitOr
  | bitAnd
  | bitXor
  | and
  | or
  | eq
  | ne
  | gt
  | ge
  | lt
  | le
deriving DecidableEq, Repr, Inhabited

namespace BinaryOp

/-- The operator that a source spells this way. -/
def ofText? : String → Option BinaryOp
  | "+" => some add
  | "-" => some sub
  | "*" => some mul
  | "/" => some div
  | "^" => some pow
  | "|" => some bitOr
  | "&" => some bitAnd
  | "^^" => some bitXor
  | "&&" => some and
  | "||" => some or
  | "==" => some eq
  | "!=" => some ne
  | ">" => some gt
  | ">=" => some ge
  | "<" => some lt
  | "<=" => some le
  | _ => none

/-- The tag of an operation. -/
def tag : BinaryOp → Tag
  | add => .add
  | sub => .sub
  | mul => .mul
  | div => .div
  | pow => .pow
  | bitOr => .bitOr
  | bitAnd => .bitAnd
  | bitXor => .bitXor
  | and => .and
  | or => .or
  | eq => .eq
  | ne => .ne
  | gt => .gt
  | ge => .ge
  | lt => .lt
  | le => .le

/-- The name of an operator in dumps. -/
def name : BinaryOp → String
  | add => "Add"
  | sub => "Sub"
  | mul => "Mul"
  | div => "Div"
  | pow => "Pow"
  | bitOr => "BitOr"
  | bitAnd => "BitAnd"
  | bitXor => "BitXor"
  | and => "And"
  | or => "Or"
  | eq => "Eq"
  | ne => "Ne"
  | gt => "Gt"
  | ge => "Ge"
  | lt => "Lt"
  | le => "Le"

end BinaryOp

/-- Operators with one operand. -/
inductive UnaryOp where
  | plus
  | minus
  | bitNot
  | not
deriving DecidableEq, Repr, Inhabited

namespace UnaryOp

/-- The operator that a source spells this way. -/
def ofText? : String → Option UnaryOp
  | "+" => some plus
  | "-" => some minus
  | "~" => some bitNot
  | "!" => some not
  | _ => none

/-- The tag of an operation. -/
def tag : UnaryOp → Tag
  | plus => .plus
  | minus => .minus
  | bitNot => .bitNot
  | not => .not

/-- The name of an operator in dumps. -/
def name : UnaryOp → String
  | plus => "Plus"
  | minus => "Minus"
  | bitNot => "BitNot"
  | not => "Not"

end UnaryOp

end FormScript
