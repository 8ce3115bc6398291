import FormScript.Token

/-!
# Tallies

Two ways to count tokens. `Tally` is kept up to date while a text is scanned, token by token and
comment by comment. `TokenCounts` is taken from a finished token list. They must agree where they
count the same thing.
-/

namespace FormScript

/-- What a scan has met so far. -/
structure Tally where
  total : Nat := 0
  keywords : Nat := 0
  identifiers : Nat := 0
  operators : Nat := 0
  strings : Nat := 0
  numbers : Nat := 0
  annotated : Nat := 0
  comments : Nat := 0
  longestComment : Nat := 0
  deepestComment : Nat := 0
  longestString : Nat := 0
  lines : Nat := 0
  switches : Nat := 0
  operatorUse : List (String × Nat) := []
deriving DecidableEq, Repr, Inhabited

/-- One more use of a word, in a list of words and their uses. -/
def countUse (word : String) : List (String × Nat) → List (String × Nat)
  | [] => [(word, 1)]
  | (w, n) :: rest => if w = word then (w, n + 1) :: rest else (w, n) :: countUse word rest

namespace Tally

/-- Adds a token to the count of its class. Uses of operators are listed on request. -/
def addKind (t : Tally) (trackOperators : Bool) (token : Token) : Tally :=
  match token.kind with
  | .keyword => { t with keywords := t.keywords + 1 }
  | .identifier => { t with identifiers := t.identifiers + 1 }
  | .string => { t with strings := t.strings + 1 }
  | .number => { t with numbers := t.numbers + 1 }
  | .operator =>
    { t with
      operators := t.operators + 1
      operatorUse := if trackOperators then countUse token.text t.operatorUse else t.operatorUse }
  | .ascription | .eof => t

/-- Adds a token. -/
def addToken (t : Tally) (trackOperators : Bool) (token : Token) : Tally :=
  let t := t.addKind trackOperators token
  { t with
    total := t.total + 1
    annotated := if token.ascription.isSome then t.annotated + 1 else t.annotated }

/-- Adds a comment of so many bytes, with so many comments open at most. -/
def addComment (t : Tally) (bytes depth : Nat) : Tally :=
  { t with
    comments := t.comments + 1
    longestComment := max t.longestComment bytes
    deepestComment := max t.deepestComment depth }

/-- Adds a string of so many bytes. -/
def addString (t : Tally) (bytes : Nat) : Tally :=
  { t with longestString := max t.longestString bytes }

end Tally

/-- A recount of a token list. -/
structure TokenCounts where
  total : Nat := 0
  keywords : Nat := 0
  identifiers : Nat := 0
  operators : Nat := 0
  strings : Nat := 0
  numbers : Nat := 0
  ascriptions : Nat := 0
  parens : Nat := 0
deriving DecidableEq, Repr, Inhabited

namespace TokenCounts

/-- Counts one more token. Ends of input are not counted. -/
def add (n : TokenCounts) (t : Token) : TokenCounts :=
  if t.isEof then n
  else
    let n := { n with
      total := n.total + 1
      ascriptions := if t.ascription.isSome then n.ascriptions + 1 else n.ascriptions }
    match t.kind with
    | .keyword => { n with keywords := n.keywords + 1 }
    | .identifier => { n with identifiers := n.identifiers + 1 }
    | .string => { n with strings := n.strings + 1 }
    | .number => { n with numbers := n.numbers + 1 }
    | .ascription => { n with ascriptions := n.ascriptions + 1 }
    | .operator =>
      { n with
        operators := n.operators + 1
        parens := if t.isOpen || t.isClose then n.parens + 1 else n.parens }
    | .eof => n

/-- Counts a token list. -/
def ofTokens (tokens : List Token) : TokenCounts := tokens.foldl add {}

end TokenCounts

/-- Whether the parentheses of a token list pair up, `depth` of them being open before it. -/
def parensBalanced (depth : Nat := 0) : List Token → Bool
  | [] => depth == 0
  | t :: ts =>
    if t.isOpen then parensBalanced (depth + 1) ts
    else if t.isClose then
      match depth with
      | 0 => false
      | d + 1 => parensBalanced d ts
    else parensBalanced depth ts

end FormScript
