import FormScript.Compile
import FormScript.Json
import FormScript.Number.Shortest

/-!
# Tokens, trees and results as values

The shapes in which tokens, trees and the result of a run are handed to other programs. Fields
stand in the order in which they are listed here; what is absent is mostly left out.
-/

namespace FormScript

/-- Numbers in values: the fewest digits that read back, a point always, and an exponent for those
from `1e16` on and those below `1e-5`. -/
def valueLayout : NumberLayout where
  tie := .even
  maxWhole := some 16
  maxLeading := some 4
  wholeFraction := true

/-- A number as a value. There is none for infinities. -/
def Binary64.json (x : Binary64) : Json :=
  if x.isFinite then .number (valueLayout.write x) else .null

/-- A position as a value. -/
def Position.json (p : Position) : Json :=
  .object [("offset", .ofNat p.offset), ("line", .ofNat p.line), ("column", .ofNat p.column)]

/-- A span as a value. -/
def Span.json (s : Span) : Json := .object [("start", s.start.json), ("end", s.stop.json)]

/-- The field for a type ascribed to something, if there is one. -/
def ascriptionField : Option String → List (String × Json)
  | some t => [("type_annotation", .string t)]
  | none => []

/-- The name of a token class in values. -/
def TokenKind.jsonText : TokenKind → String
  | eof => "eof"
  | kind => kind.text

/-- A token as a value. -/
def Token.json (t : Token) : Json :=
  .object [("value", .object ([("class", .string t.kind.jsonText), ("text", .string t.text)] ++
    ascriptionField t.ascription)), ("span", t.span.json)]

namespace Node

/-- A node as a value, given the name of its kind and the fields of that kind. -/
def marked (m : Mark) (kind : String) (fields : List (String × Json)) : Json :=
  .object ([("kind", .object (("tag", .string kind) :: fields)), ("span", m.span.json)] ++
    ascriptionField m.ascription)

mutual

/-- A tree as a value. -/
def json : Node → Json
  | str m value => marked m "str_lit" [("value", .string value)]
  | num m value text => marked m "num_lit" [("value", value.json), ("text", .string text)]
  | ident m name => marked m "ident" [("name", .string name)]
  | type m name => marked m "type" [("name", .string name)]
  | program m forms => marked m "module" [("forms", .array (jsonAll forms))]
  | doc m text => marked m "doc" [("text", text.json)]
  | declare m name value => marked m "let" [("name", name.json), ("value", value.json)]
  | assign m name value => marked m "set" [("name", name.json), ("value", value.json)]
  | increment m name => marked m "inc" [("name", name.json)]
  | doWhile m body condition =>
    marked m "do_while" [("body", body.json), ("cond", condition.json)]
  | unary m op operand => marked m "unary" [("op", .string op.name), ("operand", operand.json)]
  | binary m op left right =>
    marked m "binary" [("op", .string op.name), ("lhs", left.json), ("rhs", right.json)]
  | function m parameters body =>
    marked m "fn" [("params", parameters.json), ("body", .array (jsonAll body))]
  | params m ps => marked m "p_list" [("params", .array (jsonAll ps))]
  | param m name => marked m "param" [("name", name.json)]
  | result m value => marked m "return" [("value", value.json)]
  | forLess m var start stop body =>
    marked m "for_lt" [("var", var.json), ("start", start.json), ("end", stop.json),
      ("body", .array (jsonAll body))]
  | cast m value target => marked m "cast" [("value", value.json), ("target", target.json)]
  | call m callee args => marked m "call" [("callee", callee.json), ("args", .array (jsonAll args))]
  | block m statements => marked m "do" [("stmts", .array (jsonAll statements))]
  | branch m condition yes none =>
    marked m "if" [("cond", condition.json), ("then", yes.json), ("otherwise", .null)]
  | branch m condition yes (some no) =>
    marked m "if" [("cond", condition.json), ("then", yes.json), ("otherwise", no.json)]
  | choice m condition yes no =>
    marked m "ternary" [("cond", condition.json), ("then", yes.json), ("otherwise", no.json)]
  | member m object property =>
    marked m "member" [("object", object.json), ("property", property.json)]

/-- Trees as values. -/
def jsonAll : List Node → List Json
  | [] => []
  | n :: ns => n.json :: jsonAll ns

end

end Node

/-- A tally of tokens as a value. -/
def Tally.json (t : Tally) : Json :=
  .object [("total_tokens", .ofNat t.total), ("keyword_tokens", .ofNat t.keywords),
    ("identifier_tokens", .ofNat t.identifiers), ("operator_tokens", .ofNat t.operators),
    ("string_tokens", .ofNat t.strings), ("number_tokens", .ofNat t.numbers),
    ("annotated_tokens", .ofNat t.annotated), ("comment_count", .ofNat t.comments),
    ("max_comment_length", .ofNat t.longestComment), ("max_comment_depth", .ofNat t.deepestComment),
    ("max_string_length", .ofNat t.longestString), ("line_count", .ofNat t.lines),
    ("dialect_switches", .ofNat t.switches),
    ("operator_usage_patterns", .object (t.operatorUse.map fun (w, n) => (w, .ofNat n)))]

/-- A diagnostic as a value. -/
def Diagnostic.json (d : Diagnostic) : Json :=
  .object [("filename", .string d.file), ("code", .string d.code.text),
    ("message", .string d.message), ("span", (d.span.map Span.json).getD .null),
    ("help", (d.help.map Json.string).getD .null), ("rendered", .string d.rendered)]

/-- The result of a run as a value: the fields between the outcome and the times. -/
def resultJson (file : String) (success : Bool) (fields : List (String × Json))
    (duration time : String) : Json :=
  .object ([("filename", .string file), ("success", .bool success)] ++ fields ++
    [("duration_ms", .number duration), ("timestamp", .string time)])

/-- What a compiled source tells about itself, with the tree if wanted. -/
def Compiled.fields (c : Compiled) (withTree : Bool) : List (String × Json) :=
  [("code", .string c.code)] ++ (if withTree then [("ast", c.tree.json)] else []) ++
    [("metrics", c.scan.tally.json)]

end FormScript
