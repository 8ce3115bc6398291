import FormScript.Tree.Tag

/-!
# Names in scripts

What the words and operators of the language are called in the script: built-in functions become
functions of the prelude or of `Math`, operators become operators of the script, and a conversion
becomes a call that depends on the target type.
-/

namespace FormScript

/-- Functions that `Math` has under the same name. -/
def mathFunctions : List String :=
  ["abs", "acos", "asin", "atan", "ceil", "cos", "exp", "floor", "log", "log2", "min", "pow",
   "sign", "sin", "sqrt", "tan", "trunc"]

/-- What a built-in function is called in the script. -/
def builtin? (name : String) : Option String :=
  match name with
  | "print" => some "nih_print"
  | "printchars" => some "nih_printchars"
  | "printlf" => some "nih_printlf"
  | "rand" => some "Math.random"
  | _ => if mathFunctions.contains name then some ("Math." ++ name) else none

/-- The script's operator. Exponentiation has a function instead, see `Script.binary`. -/
def BinaryOp.scriptText : BinaryOp → String
  | add => "+"
  | sub => "-"
  | mul => "*"
  | div => "/"
  | pow => "**"
  | bitOr => "|"
  | bitAnd => "&"
  | bitXor => "^"
  | and => "&&"
  | or => "||"
  | eq => "==="
  | ne => "!=="
  | gt => ">"
  | ge => ">="
  | lt => "<"
  | le => "<="

/-- The script's operator. -/
def UnaryOp.scriptText : UnaryOp → String
  | plus => "+"
  | minus => "-"
  | bitNot => "~"
  | not => "!"

/-- Types whose values are whole numbers. -/
def integerTypes : List String :=
  ["int", "uint", "char", "s8", "s16", "s32", "s64", "s128", "u8", "u16", "u32", "u64", "u128"]

/-- Types whose values are numbers. -/
def floatTypes : List String := ["float", "f16", "f32", "f64"]

/-- A value converted to a type. Types without a conversion leave it as it is. -/
def castText (target value : String) : String :=
  if integerTypes.contains target then s!"Math.trunc(Number({value}))"
  else if floatTypes.contains target then s!"Number({value})"
  else if target = "string" then s!"String({value})"
  else if target = "bool" then s!"Boolean({value})"
  else s!"({value})"

/-- Functions that every script may use, placed in front of it. -/
def prelude : String :=
  "//--- NIH system code -------------------\n" ++
  "function nih_print(...args) \x7b console.log(...args); \x7d\n" ++
  "function nih_printchars(s)  \x7b console.log(s); \x7d\n" ++
  "function nih_printlf()      \x7b console.log(''); \x7d\n" ++
  "\n" ++
  "//--- User compiled code-----------------\n"

/-- The functions that the prelude defines. -/
def preludeFunctions : List String := ["nih_print", "nih_printchars", "nih_printlf"]

end FormScript
