import FormScript.Number.Binary64
import FormScript.Text.Position
import FormScript.Text.Quoted
import FormScript.Tree.Tag

/-!
# Trees

One constructor per construct of the language, with the children each one has. The slots hold any
node: that the name of a declaration is an identifier, say, is a fact about the trees that parsing
produces and not about all trees. Every node carries a mark: the span it came from and the type
ascribed to it.

Walks that treat all constructs alike go through `Node.children`; `Node.sizeOf_lt_of_mem_children`
is what makes them end.
-/

namespace FormScript

/-- Where a node came from, and the type ascribed to it. -/
structure Mark where
  span : Span := .dummy
  ascription : Option String := none
deriving DecidableEq, Repr, Inhabited

/-- A tree. -/
inductive Node where
  | str (mark : Mark) (value : String)
  | num (mark : Mark) (value : Binary64) (text : String)
  | ident (mark : Mark) (name : String)
  | type (mark : Mark) (name : String)
  | program (mark : Mark) (forms : List Node)
  | doc (mark : Mark) (text : Node)
  | declare (mark : Mark) (name value : Node)
  | assign (mark : Mark) (name value : Node)
  | increment (mark : Mark) (name : Node)
  | doWhile (mark : Mark) (body condition : Node)
  | unary (mark : Mark) (op : UnaryOp) (operand : Node)
  | binary (mark : Mark) (op : BinaryOp) (left right : Node)
  | function (mark : Mark) (params : Node) (body : List Node)
  | params (mark : Mark) (params : List Node)
  | param (mark : Mark) (name : Node)
  | result (mark : Mark) (value : Node)
  | forLess (mark : Mark) (var start stop : Node) (body : List Node)
  | cast (mark : Mark) (value target : Node)
  | call (mark : Mark) (callee : Node) (args : List Node)
  | block (mark : Mark) (statements : List Node)
  | branch (mark : Mark) (condition yes : Node) (no : Option Node)
  | choice (mark : Mark) (condition yes no : Node)
  | member (mark : Mark) (object property : Node)
deriving Repr, Inhabited

namespace Node

/-- The kind of a node. -/
def tag : Node → Tag
  | str .. => .str
  | num .. => .num
  | ident .. => .ident
  | type .. => .type
  | program .. => .program
  | doc .. => .doc
  | declare .. => .declare
  | assign .. => .assign
  | increment .. => .increment
  | doWhile .. => .doWhile
  | unary _ op _ => op.tag
  | binary _ op _ _ => op.tag
  | function .. => .function
  | params .. => .params
  | param .. => .param
  | result .. => .result
  | forLess .. => .forLess
  | cast .. => .cast
  | call .. => .call
  | block .. => .block
  | branch .. => .branch
  | choice .. => .choice
  | member .. => .member

/-- The mark of a node. -/
def mark : Node → Mark
  | str m _ | num m _ _ | ident m _ | type m _ | program m _ | doc m _ | declare m _ _
  | assign m _ _ | increment m _ | doWhile m _ _ | unary m _ _ | binary m _ _ _
  | function m _ _ | params m _ | param m _ | result m _ | forLess m _ _ _ _ | cast m _ _
  | call m _ _ | block m _ | branch m _ _ _ | choice m _ _ _ | member m _ _ => m

/-- Where a node came from. -/
def span (n : Node) : Span := n.mark.span

/-- The children of a node, in the order they are written. -/
def children : Node → List Node
  | str .. | num .. | ident .. | type .. => []
  | program _ ns | params _ ns | block _ ns => ns
  | doc _ a | increment _ a | param _ a | result _ a | unary _ _ a => [a]
  | declare _ a b | assign _ a b | doWhile _ a b | binary _ _ a b | cast _ a b | member _ a b =>
    [a, b]
  | function _ a ns | call _ a ns => a :: ns
  | forLess _ a b c ns => a :: b :: c :: ns
  | branch _ a b none => [a, b]
  | branch _ a b (some c) => [a, b, c]
  | choice _ a b c => [a, b, c]

/-- Children are smaller than their parent. -/
theorem sizeOf_lt_of_mem_children {n c : Node} (h : c ∈ n.children) : sizeOf c < sizeOf n := by
  cases n with
  | program _ ns | params _ ns | block _ ns =>
    have := List.sizeOf_lt_of_mem (show c ∈ ns from h)
    simp only [program.sizeOf_spec, params.sizeOf_spec, block.sizeOf_spec]
    omega
  | function _ a ns | call _ a ns =>
    simp only [function.sizeOf_spec, call.sizeOf_spec]
    rcases List.mem_cons.mp h with rfl | h
    · omega
    · have := List.sizeOf_lt_of_mem h
      omega
  | forLess _ a b d ns =>
    simp only [forLess.sizeOf_spec]
    simp only [children, List.mem_cons] at h
    rcases h with rfl | rfl | rfl | h
    · omega
    · omega
    · omega
    · have := List.sizeOf_lt_of_mem h
      omega
  | branch _ a b d =>
    cases d with
    | none =>
      simp only [children, List.mem_cons, List.not_mem_nil, or_false] at h
      rcases h with rfl | rfl <;> simp only [branch.sizeOf_spec] <;> omega
    | some d =>
      simp only [children, List.mem_cons, List.not_mem_nil, or_false] at h
      rcases h with rfl | rfl | rfl <;>
        simp only [branch.sizeOf_spec, Option.some.sizeOf_spec] <;> omega
  | str | num | ident | type => simp [children] at h
  | doc | increment | param | result | unary =>
    rw [List.mem_singleton.mp h]
    simp +arith
  | choice =>
    simp only [children, List.mem_cons, List.not_mem_nil, or_false] at h
    rcases h with rfl | rfl | rfl <;> simp +arith
  | declare | assign | doWhile | binary | cast | member =>
    simp only [children, List.mem_cons, List.not_mem_nil, or_false] at h
    rcases h with rfl | rfl <;> simp +arith

/-- The name, if this is an identifier. -/
def name? : Node → Option String
  | ident _ name => some name
  | _ => none

/-- This node and all below it, parents before children, in front of further nodes. -/
def preorderOnto (n : Node) (more : List Node) : List Node :=
  n :: n.children.attach.foldr (fun c rest => preorderOnto c.1 rest) more
termination_by sizeOf n
decreasing_by exact sizeOf_lt_of_mem_children c.2

/-- This node and all below it, parents before children. -/
def preorder (n : Node) : List Node := n.preorderOnto []

/-- Number of nodes. -/
def count (n : Node) : Nat := n.preorder.length

/-- Whether every node has as many children as its tag allows. -/
def hasArities (n : Node) : Bool := n.preorder.all fun m => m.tag.arity.allows m.children.length

/-- The tree as nested lists of tags. Types are glued to the end of what they are ascribed to. -/
def display (n : Node) : String :=
  let bare := match n with
    | str _ value => s!"(strlit {quoted value})"
    | num _ _ text => s!"(numlit {text})"
    | ident _ name => s!"(ident {name})"
    | type _ name => s!"(type {name})"
    | n => n.children.attach.foldl (fun out c => out ++ " " ++ display c.1) ("(" ++ n.tag.text)
        ++ ")"
  match n.mark.ascription with
  | some a => s!"{bare}:{a}"
  | none => bare
termination_by sizeOf n
decreasing_by exact sizeOf_lt_of_mem_children c.2

end Node

end FormScript
