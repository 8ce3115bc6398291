import FormScript.Text.Quoted

/-!
# JSON

Values, and two ways to write them: on one line without blanks, and indented by two blanks a level.
Fields keep their order. Numbers are kept as the text they are written with, so whoever makes one
decides on its digits. In strings the quote, the backslash and the control characters are escaped
and everything else stands as it is.
-/

namespace FormScript

/-- A JSON value. -/
inductive Json where
  | null
  | bool (b : Bool)
  | number (text : String)
  | string (s : String)
  | array (items : List Json)
  | object (fields : List (String × Json))
deriving Repr, Inhabited

namespace Json

/-- A whole number. -/
def ofNat (n : Nat) : Json := number (toString n)

/-- How one character is written in a string. -/
def escapeChar (c : Char) : List Char :=
  match c with
  | '\x22' => ['\\', '\x22']
  | '\\' => ['\\', '\\']
  | '\x08' => ['\\', 'b']
  | '\x0c' => ['\\', 'f']
  | '\n' => ['\\', 'n']
  | '\r' => ['\\', 'r']
  | '\t' => ['\\', 't']
  | c =>
    if c.toNat < 0x10 then "\\u000".toList ++ (hexDigits c.toNat).toList
    else if c.toNat < 0x20 then "\\u00".toList ++ (hexDigits c.toNat).toList
    else [c]

/-- A string in quotes. Each character is written by itself, so a text in two parts is written as
its parts are. -/
def quote (s : String) : String :=
  String.ofList ('\x22' :: s.toList.flatMap escapeChar ++ ['\x22'])

/-- Texts with something in between. -/
def commaJoin (separator : String) : List String → String
  | [] => ""
  | t :: ts => ts.foldl (fun out u => out ++ separator ++ u) t

mutual

/-- A value on one line, without blanks. -/
def compact : Json → String
  | null => "null"
  | bool b => if b then "true" else "false"
  | number text => text
  | string s => quote s
  | array items => "[" ++ commaJoin "," (compactItems items) ++ "]"
  | object fields => "\x7b" ++ commaJoin "," (compactFields fields) ++ "\x7d"

/-- The items of a list, each on one line. -/
def compactItems : List Json → List String
  | [] => []
  | v :: vs => v.compact :: compactItems vs

/-- The fields of an object, each on one line. -/
def compactFields : List (String × Json) → List String
  | [] => []
  | (k, v) :: rest => (quote k ++ ":" ++ v.compact) :: compactFields rest

end

mutual

/-- A value over several lines, `indent` being the blanks in front of its last line. -/
def pretty (indent : String) : Json → String
  | array [] => "[]"
  | array (v :: vs) =>
    let inner := indent ++ "  "
    "[\n" ++ commaJoin ",\n" (prettyItems inner (v :: vs)) ++ "\n" ++ indent ++ "]"
  | object [] => "\x7b\x7d"
  | object (f :: fs) =>
    let inner := indent ++ "  "
    "\x7b\n" ++ commaJoin ",\n" (prettyFields inner (f :: fs)) ++ "\n" ++ indent ++ "\x7d"
  | null => "null"
  | bool b => if b then "true" else "false"
  | number text => text
  | string s => quote s

/-- The items of a list, each starting a line. -/
def prettyItems (indent : String) : List Json → List String
  | [] => []
  | v :: vs => (indent ++ v.pretty indent) :: prettyItems indent vs

/-- The fields of an object, each starting a line. -/
def prettyFields (indent : String) : List (String × Json) → List String
  | [] => []
  | (k, v) :: rest =>
    (indent ++ quote k ++ ": " ++ v.pretty indent) :: prettyFields indent rest

end

end Json

end FormScript
