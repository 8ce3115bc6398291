import FormScript.Preferences

/-!
# Settings files

A settings file is a list of keys with values, in sections. `read?` takes the plain kind of file:
comments, section heads, and one value a line that is `true`, `false`, a text in quotes or a whole
number. Anything else makes the file unreadable, and so do a section or a key that comes twice.

Keys and sections nobody knows are passed over, but a known key with a value of another kind is
refused like an unreadable file: see `Preferences.ofSettings?`.
-/

namespace FormScript

/-- A value in a settings file. -/
inductive SettingValue where
  | flag (value : Bool)
  | text (value : String)
  | whole (value : Int)
deriving DecidableEq, Repr, Inhabited

/-- The keys of a section with their values. -/
abbrev SettingEntries := List (String × SettingValue)

/-- A settings file: what stands before the first section head, and the sections. -/
structure Settings where
  top : SettingEntries := []
  sections : List (String × SettingEntries) := []
deriving DecidableEq, Repr, Inhabited

namespace Settings

/-! ## Words of a line -/

/-- Blanks between the words of a line. -/
def isSettingBlank (c : Char) : Bool := c == ' ' || c == '\t'

/-- What is left behind blanks. -/
def skipBlanks (cs : List Char) : List Char := cs.dropWhile isSettingBlank

/-- Characters that may stand in comments and texts. -/
def isSettingChar (c : Char) : Bool := c == '\t' || (0x20 ≤ c.toNat && c.toNat != 0x7f)

/-- Characters of a key without quotes. -/
def isKeyChar (c : Char) : Bool := c.isAlphanum || c == '_' || c == '-'

/-- Whether only blanks and a comment are left of a line. -/
def isLineEnd (cs : List Char) : Bool :=
  match skipBlanks cs with
  | [] => true
  | '#' :: comment => comment.all isSettingChar
  | _ => false

/-- The number that some hexadecimal digits stand for. -/
def hexValue? (digits : List Char) : Option Nat :=
  digits.foldlM (fun n c =>
    if c.isDigit then some (16 * n + (c.toNat - 48))
    else if 'a' ≤ c ∧ c ≤ 'f' then some (16 * n + (c.toNat - 87))
    else if 'A' ≤ c ∧ c ≤ 'F' then some (16 * n + (c.toNat - 55))
    else none) 0

/-- The character with that code point, written with exactly `width` digits. -/
def codePoint? (width : Nat) (cs : List Char) : Option Char := do
  if cs.length ≠ width then none
  let n ← hexValue? cs
  if n.isValidChar then some (Char.ofNat n) else none

/-- The rest of a text in double quotes, and what stands behind it. -/
def quotedText? (done : List Char) : List Char → Option (String × List Char)
  | [] => none
  | '\x22' :: rest => some (String.ofList done.reverse, rest)
  | '\\' :: 'b' :: rest => quotedText? ('\x08' :: done) rest
  | '\\' :: 't' :: rest => quotedText? ('\t' :: done) rest
  | '\\' :: 'n' :: rest => quotedText? ('\n' :: done) rest
  | '\\' :: 'f' :: rest => quotedText? ('\x0c' :: done) rest
  | '\\' :: 'r' :: rest => quotedText? ('\r' :: done) rest
  | '\\' :: '\x22' :: rest => quotedText? ('\x22' :: done) rest
  | '\\' :: '\\' :: rest => quotedText? ('\\' :: done) rest
  | '\\' :: 'u' :: a :: b :: c :: d :: rest => do
    let x ← codePoint? 4 [a, b, c, d]
    quotedText? (x :: done) rest
  | '\\' :: 'U' :: a :: b :: c :: d :: e :: f :: g :: h :: rest => do
    let x ← codePoint? 8 [a, b, c, d, e, f, g, h]
    quotedText? (x :: done) rest
  | '\\' :: _ => none
  | c :: rest => if isSettingChar c then quotedText? (c :: done) rest else none

/-- The rest of a text in single quotes, in which nothing is escaped, and what stands behind it. -/
def literalText? (cs : List Char) : Option (String × List Char) :=
  match cs.span (· != '\x27') with
  | (text, _ :: rest) => if text.all isSettingChar then some (String.ofList text, rest) else none
  | (_, []) => none

/-- A key, and what stands behind it. -/
def key? (cs : List Char) : Option (String × List Char) :=
  match cs with
  | '\x22' :: rest => quotedText? [] rest
  | '\x27' :: rest => literalText? rest
  | cs =>
    match cs.span isKeyChar with
    | ([], _) => none
    | (word, rest) => some (String.ofList word, rest)

/-! ## Numbers -/

/-- The digits of a number without the marks that group them. A mark stands between digits. -/
def ungroup? (isDigit : Char → Bool) : List Char → Option (List Char)
  | [] => none
  | [c] => if isDigit c then some [c] else none
  | c :: '_' :: rest => if isDigit c then (ungroup? isDigit rest).map (c :: ·) else none
  | c :: rest => if isDigit c then (ungroup? isDigit rest).map (c :: ·) else none

/-- The number with the given digits. -/
def ofDigits (base : Nat) (digits : List Char) : Nat :=
  digits.foldl (fun n c => base * n + (hexValue? [c]).getD 0) 0

/-- A number without a sign. A first zero is alone, or followed by a letter that gives the base. -/
def magnitude? (signed : Bool) (word : List Char) : Option Nat :=
  match word with
  | ['0'] => some 0
  | '0' :: 'x' :: rest =>
    if signed then none
    else (ungroup? (fun c => (hexValue? [c]).isSome) rest).map (ofDigits 16)
  | '0' :: 'o' :: rest =>
    if signed then none
    else (ungroup? (fun c => '0' ≤ c && c ≤ '7') rest).map (ofDigits 8)
  | '0' :: 'b' :: rest =>
    if signed then none
    else (ungroup? (fun c => c == '0' || c == '1') rest).map (ofDigits 2)
  | '0' :: _ => none
  | word => (ungroup? Char.isDigit word).map (ofDigits 10)

/-- A whole number of 64 bits. -/
def whole? (word : List Char) : Option Int := do
  let n ← match word with
    | '-' :: rest => (magnitude? true rest).map fun n => -(n : Int)
    | '+' :: rest => (magnitude? true rest).map fun n => (n : Int)
    | word => (magnitude? false word).map fun n => (n : Int)
  if Int64.minValue.toInt ≤ n ∧ n ≤ Int64.maxValue.toInt then some n else none

/-! ## Lines -/

/-- Characters of a value without quotes. -/
def isWordChar (c : Char) : Bool := c.isAlphanum || c == '_' || c == '+' || c == '-' || c == '.'

/-- A value, and what stands behind it. -/
def value? (cs : List Char) : Option (SettingValue × List Char) :=
  match cs with
  | '\x22' :: rest => (quotedText? [] rest).map fun (t, rest) => (.text t, rest)
  | '\x27' :: rest => (literalText? rest).map fun (t, rest) => (.text t, rest)
  | cs =>
    let (word, rest) := cs.span isWordChar
    match String.ofList word with
    | "true" => some (.flag true, rest)
    | "false" => some (.flag false, rest)
    | _ => (whole? word).map fun n => (.whole n, rest)

/-- What a line says. -/
inductive Line where
  | blank
  | head (name : String)
  | entry (key : String) (value : SettingValue)
deriving DecidableEq, Repr

/-- Reads a line. -/
def line? (cs : List Char) : Option Line :=
  if isLineEnd cs then some .blank
  else
    match skipBlanks cs with
    | '[' :: rest => do
      let (name, rest) ← key? (skipBlanks rest)
      match skipBlanks rest with
      | ']' :: rest => if isLineEnd rest then some (.head name) else none
      | _ => none
    | cs => do
      let (key, rest) ← key? cs
      match skipBlanks rest with
      | '=' :: rest => do
        let (value, rest) ← value? (skipBlanks rest)
        if isLineEnd rest then some (.entry key value) else none
      | _ => none

/-- The lines of a file. A carriage return belongs to the end of line behind it. -/
def splitLines (cs : List Char) : List (List Char) :=
  match cs.splitOn '\n' with
  | [] => []
  | parts =>
    parts.dropLast.map (fun l => if l.getLast? == some '\r' then l.dropLast else l) ++
      [parts.getLastD []]

/-- Adds an entry, unless the key is there already. -/
def addPair? (entries : SettingEntries) (key : String) (value : SettingValue) :
    Option SettingEntries :=
  if (entries.lookup key).isSome then none else some (entries ++ [(key, value)])

/-- Takes in what a line says. Entries go to the last section, or to the top before there is one. -/
def add? (s : Settings) : Line → Option Settings
  | .blank => some s
  | .head name =>
    if (s.sections.lookup name).isSome || (s.top.lookup name).isSome then none
    else some { s with sections := s.sections ++ [(name, [])] }
  | .entry key value =>
    match s.sections.getLast? with
    | none => (addPair? s.top key value).map fun top => { s with top }
    | some (name, entries) => (addPair? entries key value).map fun entries =>
      { s with sections := s.sections.dropLast ++ [(name, entries)] }

/-- Reads a settings file. -/
def read? (text : String) : Option Settings :=
  let cs := match text.toList with
    | '\ufeff' :: rest => rest
    | cs => cs
  (splitLines cs).foldlM (fun s l => (line? l).bind s.add?) {}

/-- The value of a key in a section. -/
def lookup? (s : Settings) (name key : String) : Option SettingValue :=
  (s.sections.lookup name).bind (·.lookup key)

end Settings

/-! ## Preferences from settings -/

namespace Preferences

/-- The value that settings give to a flag: none if they do not say, an error if they give a value
of another kind. -/
def settingFlag (s : Settings) (flag : Flag) : Except Unit (Option Bool) :=
  match s.lookup? flag.sectionName flag.keyName with
  | none => .ok none
  | some (.flag b) => .ok (some b)
  | some _ => .error ()

/-- The level that settings give to the journal, likewise. -/
def settingLevel (s : Settings) : Except Unit (Option LogLevel) :=
  match s.lookup? levelSection levelKey with
  | none => .ok none
  | some (.text t) =>
    match LogLevel.ofSetting? t with
    | some l => .ok (some l)
    | none => .error ()
  | some _ => .error ()

/-- Whether what settings say has the kinds of value it should have. -/
def settingsFit (s : Settings) : Bool :=
  Flag.all.all (fun f => (s.top.lookup f.sectionName).isNone) &&
    Flag.all.all (fun f => (settingFlag s f).toOption.isSome) && (settingLevel s).toOption.isSome

/-- The preferences that a settings file states. Where it says nothing the given ones stand. -/
def ofSettings? (p : Preferences) (s : Settings) : Option Preferences :=
  if settingsFit s then
    some {
      isOn := fun f => ((settingFlag s f).toOption.bind id).getD (p.isOn f)
      level := ((settingLevel s).toOption.bind id).getD p.level }
  else none

/-- The preferences that the text of a settings file states in an environment. -/
def ofText? (env : Environment) (text : String) : Option Preferences :=
  (Settings.read? text).bind (ofEnvironment env).ofSettings?

end Preferences

end FormScript
