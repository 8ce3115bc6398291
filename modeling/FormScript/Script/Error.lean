import FormScript.Code
import FormScript.Limits
import FormScript.Text.Position
import FormScript.Tree.Tag

/-!
# Why a tree cannot be written as a script
-/

namespace FormScript

/-- What is wrong with the tree. -/
inductive EmitCause where
  | unhandledNode (tag : Tag)
  | statementInExpression (tag : Tag)
  | tooDeep
deriving DecidableEq, Repr

namespace EmitCause

/-- What a reader is told. -/
def message : EmitCause → String
  | unhandledNode tag => s!"Unhandled node '{tag.text}' outside its enclosing form"
  | statementInExpression tag => s!"'{tag.text}' is a statement and cannot be used as a value"
  | tooDeep => s!"Maximum emission depth {Limits.emitDepth} exceeded"

/-- The form that a node belongs in. -/
def enclosing : Tag → String
  | .param => "(plist ...)"
  | .params => "(fn ...)"
  | .type => "(cast ...)"
  | _ => "its parent form"

/-- Advice, where there is any. -/
def help? : EmitCause → Option String
  | unhandledNode tag => some s!"'{tag.text}' is only valid inside {enclosing tag}"
  | statementInExpression _ =>
    some "move the statement into a (do ...) block or a function body"
  | tooDeep => none

/-- The code of a cause. -/
def code : EmitCause → Code
  | unhandledNode _ => .unhandledNode
  | statementInExpression _ => .statementInExpression
  | tooDeep => .emissionTooDeep

end EmitCause

/-- What is wrong with the tree, and where. -/
structure EmitError where
  cause : EmitCause
  span : Span
deriving DecidableEq, Repr

end FormScript
