import FormScript.Compile
import FormScript.Proofs.Acceptance
import FormScript.Proofs.Spelling

/-!
# Strings from source to script

A string stands between quotes in a source, where nothing in it is escaped and its first delimiter
tells how it ends. In a script it stands between double quotes and the characters that would be
misread are escaped. **`string_literal_kept`** follows a string all the way: what stood in the
source is what a reader of JSON makes of the script.

For that it has to be said how JSON strings are read. `Json.decode?` does it in two steps, as the
format is defined: a text spells code units (`Json.units?`), either by a character that stands for
itself or by an escape, and the code units spell characters (`Json.chars?`), one by itself or two
surrogates together. The writer uses a few of the escapes and no surrogates.
-/

namespace FormScript

namespace Json

/-! ## Reading JSON strings -/

/-- The value of a hexadecimal digit, in either case. -/
def hexValue? (c : Char) : Option Nat := "0123456789abcdef".toList.idxOf? c.toLower

/-- The code unit that four hexadecimal digits spell. -/
def codeUnit? (a b c d : Char) : Option Nat := do
  let a ← hexValue? a
  let b ← hexValue? b
  let c ← hexValue? c
  let d ← hexValue? d
  pure (((a * 16 + b) * 16 + c) * 16 + d)

/-- The character that is meant by one behind a backslash. -/
def shortEscape? : Char → Option Char
  | '\x22' => some '\x22'
  | '\\' => some '\\'
  | '/' => some '/'
  | 'b' => some '\x08'
  | 'f' => some '\x0c'
  | 'n' => some '\n'
  | 'r' => some '\r'
  | 't' => some '\t'
  | _ => none

/-- Whether a character may stand for itself. -/
def isPlain (c : Char) : Bool := c != '\x22' && c != '\\' && decide (0x20 ≤ c.toNat)

/-- The code units that are spelled between quotes. -/
def units? : List Char → Option (List Nat)
  | [] => some []
  | '\\' :: 'u' :: a :: b :: c :: d :: text => do
    let unit ← codeUnit? a b c d
    let units ← units? text
    pure (unit :: units)
  | '\\' :: e :: text => do
    let c ← shortEscape? e
    let units ← units? text
    pure (c.toNat :: units)
  | c :: text => if isPlain c then (units? text).map (c.toNat :: ·) else none

/-- The character that a code unit is, unless it is a surrogate. -/
def scalar? (unit : Nat) : Option Char := if unit.isValidChar then some (Char.ofNat unit) else none

/-- The characters that code units spell. A high surrogate and a low one spell a character
together, and neither means anything alone. -/
def chars? : List Nat → Option (List Char)
  | [] => some []
  | [u] => (scalar? u).map fun c => [c]
  | u :: v :: units =>
    if 0xd800 ≤ u ∧ u < 0xdc00 ∧ 0xdc00 ≤ v ∧ v < 0xe000 then
      (chars? units).map (Char.ofNat (0x10000 + (u - 0xd800) * 0x400 + (v - 0xdc00)) :: ·)
    else do
      let c ← scalar? u
      let cs ← chars? (v :: units)
      pure (c :: cs)

/-- The string that a JSON text is, if it is one. -/
def decode? : List Char → Option (List Char)
  | '\x22' :: text =>
    if text.getLast? = some '\x22' then (units? text.dropLast).bind chars? else none
  | _ => none

example : decode? "\"\\u00e9\\/\\ud83d\\uDE00\"".toList = some "é/😀".toList := by decide +kernel

theorem units?_unit {a b c d : Char} {unit : Nat} (h : codeUnit? a b c d = some unit)
    (text : List Char) :
    units? ('\\' :: 'u' :: a :: b :: c :: d :: text) = (units? text).map (unit :: ·) := by
  rw [units?, h]
  cases units? text <;> rfl

theorem units?_short {e c : Char} (h : shortEscape? e = some c) (text : List Char) :
    units? ('\\' :: e :: text) = (units? text).map (c.toNat :: ·) := by
  -- The letter `u` is no short escape, so nothing behind it can be taken for digits.
  have hne : e ≠ 'u' := by
    rintro rfl
    cases h
  rw [units?, h]
  · cases units? text <;> rfl
  · exact fun _ _ _ _ _ heq => absurd heq hne

theorem units?_plain {c : Char} (h : isPlain c = true) (text : List Char) :
    units? (c :: text) = (units? text).map (c.toNat :: ·) := by
  have hne : c ≠ '\\' := by
    rintro rfl
    cases h
  rw [units?, if_pos h]
  · exact fun _ _ _ _ _ heq => absurd heq hne
  · exact fun _ _ heq => absurd heq hne

/-- What has been read stays read, whatever follows. -/
theorem units?_append {text more : List Char} {units : List Nat} (h : units? text = some units) :
    units? (text ++ more) = (units? more).map (units ++ ·) := by
  fun_induction units? text generalizing units with
  | case1 =>
    cases h
    simp
  | case2 a b c d text ih =>
    obtain ⟨unit, hunit, h⟩ := Option.bind_eq_some_iff.mp h
    obtain ⟨us, hus, h⟩ := Option.bind_eq_some_iff.mp h
    cases h
    simp [units?_unit hunit, ih hus, Function.comp_def]
  | case3 e text _ ih =>
    obtain ⟨c, hc, h⟩ := Option.bind_eq_some_iff.mp h
    obtain ⟨us, hus, h⟩ := Option.bind_eq_some_iff.mp h
    cases h
    simp [units?_short hc, ih hus, Function.comp_def]
  | case4 c text _ _ hplain ih =>
    obtain ⟨us, hus, rfl⟩ := Option.map_eq_some_iff.mp h
    simp [units?_plain hplain, ih hus, Function.comp_def]
  | case5 => cases h

theorem scalar?_toNat (c : Char) : scalar? c.toNat = some c := by
  have hvalid : c.toNat.isValidChar := c.valid
  rw [scalar?, if_pos hvalid, Char.ofNat_toNat]

/-- Characters spelled one by one. -/
theorem chars?_map_toNat (cs : List Char) : chars? (cs.map Char.toNat) = some cs := by
  induction cs with
  | nil => rfl
  | cons c cs ih =>
    cases cs with
    | nil =>
      show (scalar? c.toNat).map _ = _
      rw [scalar?_toNat]
      rfl
    | cons d cs =>
      -- No character is a surrogate.
      have hpair :
          ¬ (0xd800 ≤ c.toNat ∧ c.toNat < 0xdc00 ∧ 0xdc00 ≤ d.toNat ∧ d.toNat < 0xe000) := by
        have hvalid : c.toNat.isValidChar := c.valid
        unfold Nat.isValidChar at hvalid
        omega
      show (if _ then _ else _) = _
      rw [if_neg hpair, scalar?_toNat]
      show (chars? ((d :: cs).map Char.toNat)).bind (fun ds => some (c :: ds)) = _
      rw [ih]
      rfl

/-! ## What the writer makes of a string -/

/-- The characters that are escaped. -/
def escapedChars : List Char := '\x22' :: '\\' :: (List.range 0x20).map Char.ofNat

theorem escapeChar_cases (c : Char) :
    isPlain c = true ∧ escapeChar c = [c] ∨ c ∈ escapedChars := by
  by_cases hcontrol : c.toNat < 0x20
  · have hmem := List.mem_map_of_mem (f := Char.ofNat) (List.mem_range.mpr hcontrol)
    rw [Char.ofNat_toNat] at hmem
    exact .inr (List.mem_cons_of_mem _ (List.mem_cons_of_mem _ hmem))
  by_cases hquote : c = '\x22'
  · exact .inr (hquote ▸ List.mem_cons_self)
  by_cases hbackslash : c = '\\'
  · exact .inr (hbackslash ▸ List.mem_cons_of_mem _ List.mem_cons_self)
  refine .inl ⟨?_, ?_⟩
  · simp [isPlain, hquote, hbackslash]
    omega
  · unfold escapeChar
    split
    · exact absurd rfl hquote
    · exact absurd rfl hbackslash
    · exact absurd (by decide) hcontrol
    · exact absurd (by decide) hcontrol
    · exact absurd (by decide) hcontrol
    · exact absurd (by decide) hcontrol
    · exact absurd (by decide) hcontrol
    · rw [if_neg (by omega), if_neg hcontrol]

/-- Whether a quote behind the text is escaped: an odd number of backslashes comes last. -/
def Escaping (text : List Char) : Prop := (text.reverse.takeWhile (· == '\\')).length % 2 = 1

instance : DecidablePred Escaping := fun _ => inferInstanceAs (Decidable (_ = _))

/-- Every quote in the text is escaped. -/
def QuotesEscaped (text : List Char) : Prop := ∀ a b, text = a ++ '\x22' :: b → Escaping a

theorem escaping_concat (text : List Char) (c : Char) :
    Escaping (text ++ [c]) ↔ c = '\\' ∧ ¬ Escaping text := by
  unfold Escaping
  rw [List.reverse_append, List.reverse_singleton, List.singleton_append, List.takeWhile_cons]
  by_cases hc : c = '\\'
  · simp [hc]
    omega
  · simp [hc]

/-- Backslashes do not reach beyond a text that escapes nothing. -/
theorem escaping_append {text : List Char} (h : ¬ Escaping text) (more : List Char) :
    Escaping (text ++ more) ↔ Escaping more := by
  -- Characters are added at the end, where they are looked at first.
  rw [← List.reverse_reverse more]
  induction more.reverse with
  | nil =>
    rw [List.reverse_nil, List.append_nil]
    exact ⟨fun h' => absurd h' h, fun h' => by cases h'⟩
  | cons c more ih =>
    rw [List.reverse_cons, ← List.append_assoc, escaping_concat, escaping_concat, ih]

theorem QuotesEscaped.append {text more : List Char} (h : QuotesEscaped text)
    (hclosed : ¬ Escaping text) (h' : QuotesEscaped more) : QuotesEscaped (text ++ more) := by
  intro a b heq
  -- The quote stands in the second text, or in the first.
  rcases List.append_eq_append_iff.mp heq with ⟨x, rfl, hmore⟩ | ⟨x, htext, hb⟩
  · exact (escaping_append hclosed x).mpr (h' x b hmore)
  · cases x with
    | nil =>
      rw [List.append_nil] at htext
      subst htext
      have := h' [] b hb.symm
      cases this
    | cons c x =>
      obtain ⟨rfl, -⟩ := List.cons.inj hb
      exact h a x htext

/-- **How one character is written**: as what it is read from, without control characters, and
with a quote only where it is escaped. -/
theorem escapeChar_spec (c : Char) : units? (escapeChar c) = some [c.toNat] ∧
    (∀ x ∈ escapeChar c, 0x20 ≤ x.toNat) ∧ QuotesEscaped (escapeChar c) ∧
    ¬ Escaping (escapeChar c) := by
  rcases escapeChar_cases c with ⟨hplain, hself⟩ | hmem
  · rw [hself, units?_plain hplain]
    simp only [isPlain, Bool.and_eq_true, bne_iff_ne, decide_eq_true_eq] at hplain
    obtain ⟨⟨hquote, hbackslash⟩, hcontrol⟩ := hplain
    refine ⟨rfl, by simpa using hcontrol, fun a b heq => ?_, fun h => ?_⟩
    · have hmem : '\x22' ∈ [c] := by
        rw [heq]
        simp
      exact absurd (List.mem_singleton.mp hmem).symm hquote
    · exact hbackslash ((escaping_concat [] c).mp h).1
  · -- There are few enough of the others to look at each.
    have htable : escapedChars.all (fun c => decide (units? (escapeChar c) = some [c.toNat] ∧
        (escapeChar c).all (fun x => decide (0x20 ≤ x.toNat)) = true ∧ ¬ Escaping (escapeChar c) ∧
        (escapeChar c = ['\\', '\x22'] ∨ '\x22' ∉ escapeChar c))) = true := by decide +kernel
    obtain ⟨hunits, hcontrol, hclosed, hquote⟩ :=
      of_decide_eq_true (List.all_eq_true.mp htable c hmem)
    refine ⟨hunits, fun x hx => of_decide_eq_true (List.all_eq_true.mp hcontrol x hx),
      fun a b heq => ?_, hclosed⟩
    rcases hquote with hquote | hquote
    · -- A quote is only written behind a backslash, when it is the quote that is escaped.
      rw [hquote] at heq
      rcases a with _ | ⟨x, _ | ⟨y, a⟩⟩
      · cases heq
      · obtain ⟨rfl, -⟩ := List.cons.inj heq
        decide
      · simp at heq
    · exact absurd (by rw [heq]; simp) hquote

/-- A text that is a JSON string from its first character to its last, with nothing in between that
could end it early, and the characters of that string. -/
structure Denotes (text s : List Char) : Prop where
  enclosed : ∃ body, text = '\x22' :: body ++ ['\x22'] ∧ QuotesEscaped body
  printable : ∀ c ∈ text, 0x20 ≤ c.toNat
  decoded : decode? text = some s

theorem units?_flatMap_escapeChar (cs : List Char) :
    units? (cs.flatMap escapeChar) = some (cs.map Char.toNat) := by
  induction cs with
  | nil => rfl
  | cons c cs ih =>
    rw [List.flatMap_cons, units?_append (escapeChar_spec c).1, ih]
    rfl

theorem quotesEscaped_flatMap_escapeChar (cs : List Char) :
    QuotesEscaped (cs.flatMap escapeChar) := by
  induction cs with
  | nil => exact fun a b h => absurd h.symm (by simp)
  | cons c cs ih =>
    obtain ⟨-, -, hquotes, hclosed⟩ := escapeChar_spec c
    rw [List.flatMap_cons]
    exact hquotes.append hclosed ih

/-- **A quoted string denotes the string.** -/
theorem denotes_quote (s : String) : Denotes (quote s).toList s.toList := by
  have htext : (quote s).toList = '\x22' :: s.toList.flatMap escapeChar ++ ['\x22'] := by
    rw [quote, String.toList_ofList]
  rw [htext]
  refine ⟨⟨_, rfl, quotesEscaped_flatMap_escapeChar _⟩, ?_, ?_⟩
  · intro c hc
    simp only [List.mem_append, List.mem_cons, List.mem_flatMap, List.not_mem_nil, or_false] at hc
    rcases hc with (rfl | ⟨x, -, hc⟩) | rfl
    · decide
    · exact (escapeChar_spec x).2.1 c hc
    · decide
  · show (if _ then _ else none) = _
    rw [if_pos (by simp), List.append_eq, List.dropLast_concat, units?_flatMap_escapeChar]
    exact chars?_map_toNat _

end Json

/-! ## From quotes to a token -/

/-- Scanning on from a string adds one token, with what stands between the delimiters. -/
theorem Scan.run_string {track : Bool} {quote : Char} (hquote : quote ∈ ['\x27', '\x22', '\x60'])
    {body rest delimiter : List Char} (hsize : byteLength body ≤ Limits.stringBytes)
    (h : Lexeme.Encloses quote body rest delimiter) (s : Scan)
    (hroom : s.tokens.size < Limits.tokenCount) : ∃ s' : Scan,
      s.run track (delimiter ++ body ++ delimiter ++ rest) = s'.run track rest ∧
      s'.cursor = s.cursor.after (delimiter ++ body ++ delimiter) ∧ s'.pending = none ∧
      s'.switches = s.switches ∧
      s'.tokens.toList = s.tokens.toList ++ [{
        kind := .string, text := String.ofList body, ascription := s.waiting
        span :=
          ⟨s.cursor.position, s.cursor.position.after (delimiter ++ body ++ delimiter)⟩ }] := by
  obtain ⟨cs, hcs, hread⟩ := Lexeme.exists_read_string hquote hsize h
  obtain ⟨s', haccept⟩ := @accept_of_le track s (.string delimiter body) hroom
  obtain ⟨hcursor, htokens, hpending⟩ := accept_ok haccept
  refine ⟨s', ?_, hcursor, hpending, accept_switches haccept, htokens⟩
  rw [hcs, run_cons_ok s hread, haccept]
  rfl

/-! ## From a token to a text -/

/-- Where an expression is asked for, a string is one. -/
theorem Parse.expr_of_string (list : Parse Node) (expected : String) {p : Parsing}
    (h : p.stream.current.kind = .string) : ∃ p',
      Parse.expr list expected p
        = .ok (.str (markOf p.stream.current) p.stream.current.text) p' ∧
      p'.stream = p.stream.advance := by
  refine ⟨{ p with stream := p.stream.advance }, ?_, rfl⟩
  simp only [Parse.expr, bind, EStateM.bind, Parse.current]
  rw [h]
  rfl

/-- A stream with a string and nothing else is a program, where atoms may be forms. -/
theorem Parse.program_of_string {stream : TokenStream} {t last : Token}
    (hremaining : stream.remaining = [t] ++ [last]) (hkind : t.kind = .string)
    (hlast : last.isEof = true) (hswitches : stream.switches = [⟨0, .sexpr⟩]) :
    ∃ mark s, parseProgram stream = .ok (.program mark [Grammar.strOf t]) s := by
  have hended : stream.Ended := TokenStream.ended_of_remaining hremaining
    (List.forall_mem_singleton.mpr (by simp [Token.isEof, hkind])) hlast
  have hatoms := Parse.allowsAtoms_of_switches hswitches
  have hshallow : Grammar.nesting [t] ≤ Limits.parseDepth := by
    have hparen := Grammar.not_paren_of_kind (t := t) (by rw [hkind]; rfl)
    rw [(Grammar.balanced_of_plain (List.forall_mem_singleton.mpr hparen)).2]
    exact Nat.zero_le _
  obtain ⟨s, hparse⟩ := (Parse.program_ok_iff hended hatoms hremaining hlast _).mpr
    ⟨[Grammar.strOf t], .cons (.expr (.str hkind)) .nil, hshallow, rfl⟩
  exact ⟨_, s, hparse⟩

theorem Script.expr_str (docs : Bool) (room : Nat) (m : Mark) (value : String) (e : Emitting) :
    ∃ e', (Script.writer docs (room + 1)).expr (.str m value) e = .ok (Json.quote value) e' :=
  ⟨_, rfl⟩

/-- The script of a program that is one statement, if no declaration is put in front of it. -/
theorem writeScript_of_stmt (options : ScriptOptions) (m : Mark) {n : Node} {text : String}
    {e : Emitting} (h : (Script.writer options.docComments Limits.emitDepth).stmt n
      { scopes := [{ isFunction := true }] } = .ok (Script.lineAt 0 (text ++ ";")) e)
    (hscopes : e.scopes = [{ isFunction := true }]) :
    writeScript options (.program m [n])
      = .ok ((if options.includePrelude then prelude else "") ++ text ++ ";\n") e := by
  have hline : Script.lineAt 0 (text ++ ";") = text ++ ";\n" := by
    show "" ++ (text ++ ";") ++ "\n" = _
    rw [String.empty_append, String.append_assoc]
    rfl
  have hforms : Script.sequence (Script.writer options.docComments Limits.emitDepth).stmt [n] ""
      { scopes := [{ isFunction := true }] } = .ok (text ++ ";\n") e := by
    show EStateM.bind ((Script.writer options.docComments Limits.emitDepth).stmt n) _ _ = _
    unfold EStateM.bind
    rw [h, hline]
    show EStateM.Result.ok ("" ++ (text ++ ";\n")) e = _
    rw [String.empty_append]
  have hbody : Script.program options.docComments (.program m [n])
      { scopes := [{ isFunction := true }] } = .ok (text ++ ";\n") e := by
    show EStateM.bind (Script.sequence _ [n] "") _ _ = _
    unfold EStateM.bind
    rw [hforms]
    obtain ⟨scopes, indent, depth, tally⟩ := e
    obtain rfl : scopes = [{ isFunction := true }] := hscopes
    show EStateM.Result.ok ("" ++ (text ++ ";\n")) _ = _
    rw [String.empty_append]
  unfold writeScript
  rw [hbody]
  cases options.includePrelude with
  | false => simp
  | true => simp [String.append_assoc]

theorem writeScript_str (options : ScriptOptions) (m m' : Mark) (value : String) : ∃ e,
    writeScript options (.program m [.str m' value])
      = .ok ((if options.includePrelude then prelude else "") ++ Json.quote value ++ ";\n") e :=
  ⟨_, writeScript_of_stmt options m rfl rfl⟩

/-- **A program that is one string** is compiled, to a statement that is the string again. -/
theorem compile_string (p : Preferences) {quote : Char} (hquote : quote ∈ ['\x27', '\x22', '\x60'])
    {body delimiter : List Char} (hsize : byteLength body ≤ Limits.stringBytes)
    (hreturn : '\r' ∉ body) (h : Lexeme.Encloses quote body [] delimiter) : ∃ c t last,
      compile p ("#lang = nih-sexpr\n".toList ++ (delimiter ++ body ++ delimiter)) = .ok c ∧
      c.tokens = [t, last] ∧ t.kind = .string ∧ t.text = String.ofList body ∧ last.isEof = true ∧
      c.code = (if p.scriptOptions.includePrelude then prelude else "")
        ++ Json.quote (String.ofList body) ++ ";\n" := by
  obtain ⟨cs, hcs, hread⟩ := Lexeme.exists_read_string hquote hsize h
  rw [List.append_nil] at hcs
  have hreads : Reads (delimiter ++ body ++ delimiter) [.string delimiter body] := by
    rw [hcs]
    exact .cons hread .nil
  have hplain : '\r' ∉ delimiter ++ body ++ delimiter := by
    have hdelimiter : '\r' ∉ delimiter := by
      simp only [List.mem_cons, List.not_mem_nil, or_false] at hquote
      cases h <;> rcases hquote with rfl | rfl | rfl <;> decide
    simp [hdelimiter, hreturn]
  obtain ⟨stream, tally, start, last, htokenize, hremaining, hlast, hswitches⟩ :=
    tokenize_under_pragma (p.isOn .trackOperators) hreads hplain
      (List.forall_mem_singleton.mpr rfl) (fun _ => (by decide : 1 ≤ Limits.tokenCount))
  obtain ⟨scan, hscan, rfl, -⟩ := Scan.ofSource_of_tokenize htokenize
  obtain ⟨t, hkind, htext, htokens⟩ : ∃ t : Token, t.kind = .string ∧
      t.text = String.ofList body ∧ tokensFrom start [.string delimiter body] = [t] :=
    ⟨_, rfl, rfl, rfl⟩
  rw [htokens] at hremaining
  obtain ⟨mark, s, hparse⟩ := Parse.program_of_string hremaining hkind hlast hswitches
  obtain ⟨e, hwrite⟩ := writeScript_str p.scriptOptions mark (Parse.markOf t) t.text
  refine ⟨⟨scan, s, _, e, _⟩, t, last, compile_eq_ok_iff.mpr ⟨hscan, hparse, hwrite⟩,
    ?_, hkind, htext, hlast, ?_⟩
  · exact (Scan.stream_remaining hscan).symm.trans hremaining
  · show _ ++ Json.quote t.text ++ _ = _
    rw [htext]

/-- **A string literal is kept.** A text of at most the permitted size, without carriage returns,
stands between quotes as `Lexeme.Encloses` says. Wherever a scan comes upon it, it is read as one
token with that text. Wherever an expression is asked for, that token is one, and wherever the
expression is written, what is written is a JSON string that denotes the text. So a program that is
nothing but the literal is compiled to a statement that is a JSON string with the same text. -/
theorem string_literal_kept {quote : Char} (hquote : quote ∈ ['\x27', '\x22', '\x60'])
    {body rest delimiter : List Char} (hsize : byteLength body ≤ Limits.stringBytes)
    (hreturn : '\r' ∉ body) (h : Lexeme.Encloses quote body rest delimiter) :
    (∀ (track : Bool) (s : Scan), s.tokens.size < Limits.tokenCount → ∃ s' : Scan,
      s.run track (delimiter ++ body ++ delimiter ++ rest) = s'.run track rest ∧
      s'.cursor = s.cursor.after (delimiter ++ body ++ delimiter) ∧ s'.pending = none ∧
      s'.switches = s.switches ∧
      s'.tokens.toList = s.tokens.toList ++ [{
        kind := .string, text := String.ofList body, ascription := s.waiting
        span := ⟨s.cursor.position, s.cursor.position.after (delimiter ++ body ++ delimiter)⟩ }]) ∧
    (∀ (list : Parse Node) (expected : String) (p : Parsing), p.stream.current.kind = .string →
      p.stream.current.text = String.ofList body → ∃ n p',
        Parse.expr list expected p = .ok n p' ∧ p'.stream = p.stream.advance ∧
        ∀ (docs : Bool) (room : Nat) (e : Emitting), ∃ text e',
          (Script.writer docs (room + 1)).expr n e = .ok text e' ∧
          Json.Denotes text.toList body) ∧
    ∀ p : Preferences, ∃ c t last text,
      compile p ("#lang = nih-sexpr\n".toList ++ (delimiter ++ body ++ delimiter)) = .ok c ∧
      c.tokens = [t, last] ∧ t.kind = .string ∧ t.text = String.ofList body ∧ last.isEof = true ∧
      c.code = (if p.scriptOptions.includePrelude then prelude else "") ++ text ++ ";\n" ∧
      Json.Denotes text.toList body := by
  have hdenotes := Json.denotes_quote (String.ofList body)
  rw [String.toList_ofList] at hdenotes
  refine ⟨fun track s => Scan.run_string hquote hsize h s, ?_, fun p => ?_⟩
  · intro list expected p hkind htext
    obtain ⟨p', hexpr, hstream⟩ := Parse.expr_of_string list expected hkind
    refine ⟨_, p', hexpr, hstream, fun docs room e => ?_⟩
    obtain ⟨e', hwrite⟩ :=
      Script.expr_str docs room (Parse.markOf p.stream.current) p.stream.current.text e
    rw [htext] at hwrite ⊢
    exact ⟨_, e', hwrite, hdenotes⟩
  · have hlast : Lexeme.Encloses quote body [] delimiter := by
      cases h with
      | one apart => exact .one apart fun _ h => by cases h
      | three apart last => exact .three apart last
    obtain ⟨c, t, last, hcompile, htokens, hkind, htext, heof, hcode⟩ :=
      compile_string p hquote hsize hreturn hlast
    exact ⟨c, t, last, _, hcompile, htokens, hkind, htext, heof, hcode, hdenotes⟩

/-- A text with quotes of both kinds and a line break. -/
def mixedText : List Char := "it's\n\"so\"".toList

theorem mixedText_kept : Lexeme.Encloses '\x27' mixedText [')'] "\x27\x27\x27".toList ∧
    ∀ p : Preferences, ∃ c t last text,
      compile p ("#lang = nih-sexpr\n".toList
        ++ ("\x27\x27\x27".toList ++ mixedText ++ "\x27\x27\x27".toList)) = .ok c ∧
      c.tokens = [t, last] ∧ t.kind = .string ∧ t.text = String.ofList mixedText ∧
      last.isEof = true ∧
      c.code = (if p.scriptOptions.includePrelude then prelude else "") ++ text ++ ";\n" ∧
      Json.Denotes text.toList mixedText := by
  have h : Lexeme.Encloses '\x27' mixedText [')'] "\x27\x27\x27".toList :=
    .three (by decide +kernel) (by decide +kernel)
  exact ⟨h, (string_literal_kept (by decide) (by decide +kernel) (by decide +kernel) h).2.2⟩

end FormScript
