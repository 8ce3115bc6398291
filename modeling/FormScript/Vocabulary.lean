/-!
# Vocabulary

The words that the language knows, in five tables. The order of a table is part of its meaning:
`firstMatch?` returns the first entry that a text begins with, not the longest, so an entry listed
behind one of its own beginnings (`<=` behind `<`) is never found this way. The tree builder puts
such spellings together again from neighbouring tokens.
-/

namespace FormScript

/-- The tables of known words. -/
inductive Category where
  | operator
  | keyword
  | nativeType
  | nativeFunction
  | nativeVariable
deriving DecidableEq, Repr

/-- Operators; those with blanks around them are found before the bare ones. -/
def operatorWords : List String :=
  ["<", "<=", ">", ">=", "==", "!=",
   "+=", "-=", "*=", "/=", "%=", "**=", "|>=", "=",
   "^",
   " + ", " - ", " * ", " / ", " % ",
   "+", "-", "*", "/",
   "|>",
   "!", "&&", "||",
   "&", "|",
   "<<<", ">>>", "<<@", ">>@", "<<", ">>", "~", "^^",
   ".", "?", "(", ")",
   ":"]

/-- Words with a fixed role in forms. -/
def keywordWords : List String :=
  ["alias", "break", "call", "case", "const", "continue", "dec", "default", "doc", "do", "else",
   "enum", "foreach", "forlt", "for", "fn", "get", "if", "inc!", "let", "pure", "return",
   "set!", "struct", "switch", "type", "uniform", "while", "plist", "param"]

/-- Names of built-in types. -/
def nativeTypeWords : List String :=
  ["bool", "bvec2", "bvec3", "bvec4", "char", "float", "f16", "f32", "f64", "int", "ivec2",
   "ivec3", "ivec4", "mat4x3", "mat3", "mat4", "s8", "s16", "s32", "s64", "s128", "sampler2D",
   "sampler3D", "samplerCube", "string", "texture", "uint", "u8", "u16", "u32", "u64", "u128",
   "uvec2", "uvec3", "uvec4", "vec2", "vec3", "vec4", "void"]

/-- Names of built-in functions. -/
def nativeFunctionWords : List String :=
  ["abs", "asin", "acos", "atan", "ceil", "clamp", "cos", "cross", "degrees", "ddx", "ddy",
   "ddz", "distance", "dot", "exp2", "exp", "fract", "floor", "inverse", "invsqrt", "length",
   "lerp", "min", "mix", "mod", "normalize", "log2", "log", "radians", "rand", "rcl", "rcr",
   "rol", "ror", "pow", "printchars", "printlf", "print", "saturate", "sign", "sin",
   "smoothstep", "step", "sqrt", "tan", "texturesize", "transpose", "trunc"]

/-- Names of built-in variables. -/
def nativeVariableWords : List String :=
  ["CURSOR", "FRAMERATE", "FRAME", "RESOLUTION", "TIMEDELTA", "TIME", "SAMPLERATE"]

namespace Category

/-- The entries of a table, in order. -/
def words : Category → List String
  | operator => operatorWords
  | keyword => keywordWords
  | nativeType => nativeTypeWords
  | nativeFunction => nativeFunctionWords
  | nativeVariable => nativeVariableWords

/-- Whether a table has this very word. -/
def has (category : Category) (word : String) : Bool := category.words.contains word

end Category

/-- The first of some spellings that a text begins with. -/
def firstMatch? (spellings : List (List Char)) (cs : List Char) : Option (List Char) :=
  spellings.find? (·.isPrefixOf cs)

/-- The operators, spelled out. -/
def operatorSpellings : List (List Char) := operatorWords.map String.toList

/-- The keywords, spelled out. -/
def keywordSpellings : List (List Char) := keywordWords.map String.toList

/-- The first entry of a table that a text begins with. -/
def Category.firstMatch? (category : Category) (cs : List Char) : Option (List Char) :=
  FormScript.firstMatch? (category.words.map String.toList) cs

/-- How a bare word relates to the tables. -/
inductive WordClass where
  | keyword
  | nativeType
  | nativeFunction
  | nativeVariable
  | plain
deriving DecidableEq, Repr

/-- The first table, operators apart, that has the word. -/
def classify (word : String) : WordClass :=
  if Category.keyword.has word then .keyword
  else if Category.nativeType.has word then .nativeType
  else if Category.nativeFunction.has word then .nativeFunction
  else if Category.nativeVariable.has word then .nativeVariable
  else .plain

end FormScript
