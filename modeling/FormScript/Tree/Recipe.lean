import FormScript.Tree.Tag

/-!
# Recipes

The head of a form decides what may follow it. A recipe names the slots; the table maps the
spelling of a head to its recipe. Some spellings are never one token (`do-while`, `<=`): they are
found by putting neighbouring tokens together, up to `longestHead` of them.
-/

namespace FormScript

/-- What follows the head of a form. -/
inductive Recipe where
  /-- A string. -/
  | doc
  /-- A name and an expression. -/
  | declare
  /-- A name and an expression. -/
  | assign
  /-- A name. -/
  | increment
  /-- An expression. -/
  | result
  /-- An expression and a type. -/
  | cast
  /-- A name. -/
  | param
  /-- Three expressions. -/
  | choice
  /-- An expression and a name. -/
  | member
  /-- A block and an expression. -/
  | doWhile
  /-- Two expressions. -/
  | binary (op : BinaryOp)
  /-- One expression or two. -/
  | sign (one : UnaryOp) (two : BinaryOp)
  /-- An expression. -/
  | unary (op : UnaryOp)
  /-- Two expressions or three. -/
  | branch
  /-- An expression, and any number of expressions. -/
  | call
  /-- Any number of statements. -/
  | block
  /-- A parameter list, and any number of statements. -/
  | function
  /-- Any number of parameters. -/
  | params
  /-- A name, two expressions, and any number of statements. -/
  | forLess
deriving DecidableEq, Repr

namespace Recipe

/-- The tag of what is built. A sign counts as its form with two operands. -/
def tag : Recipe → Tag
  | doc => .doc
  | declare => .declare
  | assign => .assign
  | increment => .increment
  | result => .result
  | cast => .cast
  | param => .param
  | choice => .choice
  | member => .member
  | doWhile => .doWhile
  | binary op => op.tag
  | sign _ op => op.tag
  | unary op => op.tag
  | branch => .branch
  | call => .call
  | block => .block
  | function => .function
  | params => .params
  | forLess => .forLess

/-- Whether the number of slots is open. -/
def isVariadic : Recipe → Bool
  | call | block | function | params | forLess => true
  | _ => false

end Recipe

/-- The heads of forms, with their recipes. -/
def headRecipes : List (String × Recipe) :=
  [("doc", .doc),
   ("let", .declare),
   ("set!", .assign),
   ("inc!", .increment),
   ("return", .result),
   ("cast", .cast),
   ("param", .param),
   ("?", .choice),
   (".", .member),
   ("do-while", .doWhile),
   ("+", .sign .plus .add),
   ("-", .sign .minus .sub),
   ("*", .binary .mul),
   ("/", .binary .div),
   ("^", .binary .pow),
   ("==", .binary .eq),
   ("!=", .binary .ne),
   ("<", .binary .lt),
   ("<=", .binary .le),
   (">", .binary .gt),
   (">=", .binary .ge),
   ("|", .binary .bitOr),
   ("&", .binary .bitAnd),
   ("^^", .binary .bitXor),
   ("&&", .binary .and),
   ("||", .binary .or),
   ("~", .unary .bitNot),
   ("!", .unary .not),
   ("if", .branch),
   ("call", .call),
   ("do", .block),
   ("fn", .function),
   ("plist", .params),
   ("forlt", .forLess),
   ("for-lt", .forLess)]

/-- The recipe of a head. -/
def recipe? (head : String) : Option Recipe := headRecipes.lookup head

/-- Most tokens that are put together into one head. -/
def longestHead : Nat := 3

end FormScript
