import FormScript.Proofs.Bytewise
import FormScript.Proofs.Layout
import FormScript.Proofs.Lookahead

/-!
# Lexemes by offsets

A scan that has come through `past` and has `rest` before it, `Bytewise.At`, is seen as a state of
the scanner by offsets through `Scan.bytewise`. For each kind of lexeme but block comments, what
that scanner does in such a state is what comes of reading a lexeme from `rest` and taking it in,
`Bytewise.ofRead`: the same state in the end, or the same error, and never a crash.

Two things carry this. An offset found by a search among bytes lies behind characters again, because
what is searched for is ASCII. And a span can be looked up while the lines are still being noted,
because either the text up to its end has been read or it begins no line.
-/

namespace FormScript

/-- A scan, with its places as offsets. -/
def Scan.bytewise (s : Scan) : Bytewise.State where
  offset := s.cursor.position.offset
  lineStarts := s.cursor.lineStarts
  tokens := s.tokens
  pending := s.pending.map fun p => (p.1, p.2.start.offset, p.2.stop.offset)
  switches := s.switches
  tally := s.tally
  notes := s.notes

/-- The outcome that a step of a scan is. -/
def Checked.ofScan : Except (LexError × Scan) Scan → Checked Bytewise.State
  | .error (e, _) => .error e
  | .ok s => .ok s.bytewise

/-- The scan behind some more characters. -/
def Scan.beyond (s : Scan) (cs : List Char) : Scan := { s with cursor := s.cursor.after cs }

theorem Scan.beyond_append (s : Scan) (cs ds : List Char) :
    s.beyond (cs ++ ds) = (s.beyond cs).beyond ds := by
  rw [Scan.beyond, Cursor.after_append]
  rfl

theorem Fault.errorAt_append (cause : LexCause) (width : Nat) (p : Position) (done cs : List Char) :
    Fault.errorAt ⟨cause, done.length, width⟩ p (done ++ cs)
      = Fault.errorAt ⟨cause, 0, width⟩ (p.after done) cs := by
  rw [Fault.errorAt, Fault.errorAt, List.take_left, List.drop_left]
  rfl

namespace Bytewise

variable {source past rest : List Char} {track : Bool} {s : Scan}

theorem ofScan_bind (r : Except (LexError × Scan) Scan)
    (f : Scan → Except (LexError × Scan) Scan) (g : State → Checked State)
    (h : ∀ s, r = .ok s → g s.bytewise = .ofScan (f s)) :
    (Checked.ofScan r >>= g) = .ofScan (r >>= f) := by
  cases r with
  | error e => rfl
  | ok s => exact h s rfl

/-- A token of which the span is found is added as it is in the scan. -/
theorem pushToken_eq {t : Token} {a b : Nat}
    (hspan : spanAt source s.cursor.lineStarts a b = .ok t.span) :
    pushToken source track t.kind t.text a b s.bytewise = .ofScan (s.push track t) := by
  have hmap : (s.pending.map fun p => (p.1, p.2.start.offset, p.2.stop.offset)).map Prod.fst
      = s.pending.map Prod.fst := by rw [Option.map_map]; rfl
  rw [pushToken, show s.bytewise.lineStarts = s.cursor.lineStarts from rfl, hspan, Checked.ok_bind,
    Scan.push, show s.bytewise.tokens = s.tokens from rfl]
  split
  · rfl
  · rw [show s.bytewise.pending.map Prod.fst = s.pending.map Prod.fst from hmap]
    rfl

/-- The scan has come through `past` and has `rest` before it. -/
structure At (source past rest : List Char) (s : Scan) : Prop where
  split : past ++ rest = source
  cursor : s.cursor = Cursor.start.after past

namespace At

variable (h : At source past rest s)
include h

theorem position : s.cursor.position = Position.start.after past := by
  rw [h.cursor, Cursor.position_after]
  rfl

theorem offset : s.bytewise.offset = byteLength past := by
  show s.cursor.position.offset = _
  rw [h.position, Position.offset_after]
  exact Nat.zero_add _

theorem lineStarts : s.bytewise.lineStarts = (Cursor.start.after past).lineStarts := by
  show s.cursor.lineStarts = _
  rw [h.cursor]

/-- The span of some characters ahead that begin no line. -/
theorem spanAt_ahead {mid rest' : List Char} (hrest : mid ++ rest' = rest) (hline : '\n' ∉ mid) :
    spanAt source s.bytewise.lineStarts (byteLength past) (byteLength (past ++ mid))
      = .ok ⟨s.cursor.position, s.cursor.position.after mid⟩ := by
  rw [h.lineStarts, h.position]
  exact spanAt_eq (by rw [List.append_assoc, hrest, h.split]) (known_self past)
    (known_of_no_newline past hline)

end At

/-- What a reader's answer comes to. -/
def ofRead (track : Bool) (s : Scan) (cs : List Char) :
    Except Fault (Lexeme × List Char) → Checked State
  | .error f => .error (f.errorAt s.cursor.position cs)
  | .ok (l, _) => .ofScan (s.accept track l)

/-! ## Lexemes on one line -/

theorem At.beyond {cs : List Char} (h : At source past (cs ++ rest) s) :
    At source (past ++ cs) rest (s.beyond cs) :=
  ⟨by rw [List.append_assoc, h.split], by rw [Cursor.after_append, ← h.cursor]; rfl⟩

theorem At.observe (h : At source past rest s) (l : Lexeme) : At source past rest (s.observe l) :=
  ⟨h.split, by rw [Scan.observe_cursor, h.cursor]⟩

/-- Going ahead moves the offset and adds to the line starts. -/
theorem At.bytewise_beyond (h : At source past rest s) (cs : List Char) :
    (s.beyond cs).bytewise = { s.bytewise with
      offset := byteLength (past ++ cs)
      lineStarts := (Cursor.start.after (past ++ cs)).lineStarts } := by
  have hoffset : (s.cursor.after cs).position.offset = byteLength (past ++ cs) := by
    rw [h.cursor, ← Cursor.after_append, Cursor.position_after, Position.offset_after]
    exact Nat.zero_add _
  have hstarts : (s.cursor.after cs).lineStarts = (Cursor.start.after (past ++ cs)).lineStarts := by
    rw [h.cursor, Cursor.after_append]
  rw [Scan.bytewise, Scan.bytewise, ← hoffset, ← hstarts]
  rfl

/-- On the line only the offset moves. -/
theorem At.bytewise_beyond_line {cs : List Char} (h : At source past rest s) (hline : '\n' ∉ cs) :
    (s.beyond cs).bytewise = { s.bytewise with offset := byteLength (past ++ cs) } := by
  have hstarts : (Cursor.start.after (past ++ cs)).lineStarts = s.bytewise.lineStarts := by
    rw [Cursor.after_append, Cursor.lineStarts_of_no_newline _ hline, h.lineStarts]
  rw [h.bytewise_beyond, hstarts]

/-- A lexeme that stands for one token is taken in by adding that token. -/
theorem pushToken_accept {l : Lexeme} {t : Token} {a b : Nat}
    (htokens : l.tokens s.cursor.position = [t])
    (hspan : spanAt source ((s.observe l).beyond l.chars).cursor.lineStarts a b = .ok t.span) :
    pushToken source track t.kind t.text a b ((s.observe l).beyond l.chars).bytewise
      = .ofScan (s.accept track l) := by
  rw [pushToken_eq hspan, Scan.accept, htokens, List.foldlM_cons]
  simp only [List.foldlM_nil, bind_pure]
  rfl

/-- A lexeme on one line that stands for one token and changes nothing else. -/
theorem At.pushToken_lexeme {l : Lexeme} {t : Token} {rest' : List Char}
    (h : At source past rest s) (hchars : l.chars ++ rest' = rest) (hline : '\n' ∉ l.chars)
    (htokens : l.tokens s.cursor.position = [t])
    (hspan : t.span = ⟨s.cursor.position, s.cursor.position.after l.chars⟩)
    (hquiet : s.observe l = s) :
    pushToken source track t.kind t.text (byteLength past) (byteLength (past ++ l.chars))
      { s.bytewise with offset := byteLength (past ++ l.chars) } = .ofScan (s.accept track l) := by
  have hstarts : (s.beyond l.chars).cursor.lineStarts = s.bytewise.lineStarts :=
    Cursor.lineStarts_of_no_newline _ hline
  have haccept := @pushToken_accept source track s l t (byteLength past)
    (byteLength (past ++ l.chars)) htokens
  rw [hquiet, hstarts, h.spanAt_ahead hchars hline, hspan] at haccept
  rw [← h.bytewise_beyond_line hline]
  exact haccept rfl

/-- A fault of the characters ahead, if they begin no line. -/
theorem At.spanAt_here {mid rest' : List Char} (h : At source past rest s) (cause : LexCause)
    (hrest : mid ++ rest' = rest) (hline : '\n' ∉ mid) :
    spanAt source s.bytewise.lineStarts (byteLength past) (byteLength (past ++ mid))
      = .ok (Fault.errorAt ⟨cause, 0, mid.length⟩ s.cursor.position rest).span := by
  rw [h.spanAt_ahead hrest hline, Fault.errorAt, ← hrest, List.take_zero, List.drop_zero,
    List.take_left]
  rfl

/-- A fault further on is found where it is, if the lines around it are known. -/
theorem At.spanAt_fault {before mid rest' : List Char} {starts : Array Nat}
    (h : At source past rest s) (cause : LexCause) (hrest : before ++ mid ++ rest' = rest)
    (hstart : Known starts (past ++ before)) (hstop : Known starts (past ++ before ++ mid)) :
    spanAt source starts (byteLength (past ++ before)) (byteLength (past ++ before ++ mid))
      = .ok (Fault.errorAt ⟨cause, before.length, mid.length⟩ s.cursor.position rest).span := by
  have hsplit : past ++ before ++ mid ++ rest' = source := by
    rw [← h.split, ← hrest]
    simp only [List.append_assoc]
  rw [spanAt_eq hsplit hstart hstop, Fault.errorAt, ← hrest, List.append_assoc before,
    List.take_left, List.drop_left, List.take_left, h.position, Position.after_append]

theorem newline_not_mem_takeWhile {q : Char → Bool} (hq : q '\n' = false) (cs : List Char) :
    '\n' ∉ cs.takeWhile q := by
  intro hmem
  have := List.all_eq_true.mp List.all_takeWhile _ hmem
  rw [hq] at this
  cases this

theorem newline_not_mem_numeral {digits : List Char} (h : IsNumeral digits) : '\n' ∉ digits := by
  obtain ⟨whole, fraction, -, hwhole, hfraction, heq⟩ := h
  have hdigit : Char.isDigit '\n' = false := rfl
  intro hmem
  rcases heq with rfl | ⟨-, rfl⟩
  · rw [hwhole _ hmem] at hdigit
    cases hdigit
  · simp only [List.mem_append, List.mem_cons] at hmem
    rcases hmem with hmem | hmem | hmem
    · rw [hwhole _ hmem] at hdigit
      cases hdigit
    · cases hmem
    · rw [hfraction _ hmem] at hdigit
      cases hdigit

/-! ## Numbers -/

theorem numberEnd_eq {cs digits rest : List Char} (h : past ++ cs = source)
    (hread : Lexeme.readNumber cs = (.number digits, rest)) :
    numberEnd source (byteLength past) = byteLength (past ++ digits) := by
  have hsplit := @List.takeWhile_append_dropWhile _ Char.isDigit cs
  unfold numberEnd
  unfold Lexeme.readNumber at hread
  dsimp only at hread ⊢
  rw [whileAt_eq h ascii_isDigit]
  generalize cs.takeWhile Char.isDigit = whole at hsplit hread ⊢
  generalize cs.dropWhile Char.isDigit = tail at hsplit hread
  have hplace : past ++ whole ++ tail = source := by rw [List.append_assoc, hsplit, h]
  -- Behind a point the next character lies one byte on.
  have hpoint (tail' : List Char) (htail : tail = '.' :: tail') :
      past ++ whole ++ ['.'] ++ tail' = source ∧
        byteLength (past ++ whole) + 1 = byteLength (past ++ whole ++ ['.']) := by
    refine ⟨by rw [← hplace, htail, List.append_assoc, List.singleton_append], ?_⟩
    rw [byteLength_append _ ['.']]
    rfl
  rw [holdsAt_eq hplace (ascii_eq (by decide))]
  split at hread
  · rename_i d rest'
    obtain ⟨hplace', hnext⟩ := hpoint _ rfl
    rw [hnext, holdsAt_eq hplace' ascii_isDigit, whileAt_eq hplace' ascii_isDigit]
    split at hread
    · rename_i hd
      cases hread
      simp only [List.head?_cons, Option.any_some, hd, beq_self_eq_true, Bool.and_self, if_true]
      rw [List.append_assoc, List.append_assoc, List.singleton_append]
    · rename_i hd
      cases hread
      simp [hd]
  · rename_i hother
    cases hread
    cases rest with
    | nil => rfl
    | cons x tail' =>
      cases hx : x == '.' with
      | false => simp [hx]
      | true =>
        obtain ⟨hplace', hnext⟩ := hpoint _ (by rw [beq_iff_eq.mp hx])
        rw [hnext, holdsAt_eq hplace' ascii_isDigit]
        cases tail' with
        | nil => simp
        | cons d rest' => exact (hother d rest' (by rw [beq_iff_eq.mp hx])).elim

theorem number_eq {c : Char} {cs : List Char} (h : At source past (c :: cs) s)
    (hc : c.isDigit = true) :
    number source track s.bytewise
      = ofRead track s (c :: cs) (.ok (Lexeme.readNumber (c :: cs))) := by
  obtain ⟨digits, rest, hread⟩ : ∃ digits rest,
      Lexeme.readNumber (c :: cs) = (.number digits, rest) := by
    unfold Lexeme.readNumber
    dsimp only
    split
    · split <;> exact ⟨_, _, rfl⟩
    · exact ⟨_, _, rfl⟩
  have hchars := (Lexeme.readNumber_eq c cs hc).1
  have hfits := Lexeme.fits_readNumber cs hc
  rw [hread] at hchars hfits
  have htext := textBetween_eq (show past ++ digits ++ rest = source by
    rw [List.append_assoc, ← h.split, ← hchars]; rfl)
  rw [number, h.offset, numberEnd_eq h.split hread, htext, Checked.ok_bind, hread]
  exact h.pushToken_lexeme (l := .number digits)
    (t := { kind := .number, text := String.ofList digits, span := _ })
    hchars (newline_not_mem_numeral hfits.1) rfl rfl rfl

/-! ## Line starts -/

theorem lineStarts_snoc (past : List Char) (c : Char) :
    (Cursor.start.after (past ++ [c])).lineStarts =
      if c = '\n' then (Cursor.start.after past).lineStarts.push (byteLength (past ++ [c]))
      else (Cursor.start.after past).lineStarts := by
  have hoffset : ((Cursor.start.after past).position.next c).offset = byteLength (past ++ [c]) := by
    rw [Position.offset_next, (Cursor.tracks_after past).offset, byteLength_append, byteLength_cons]
    rfl
  rw [Cursor.after_append, Cursor.after_cons, Cursor.after_nil, Cursor.next, hoffset]

/-- A line that starts behind what was read is always new. -/
theorem recordLineStart_eq {m : State} {offset : Nat}
    (hm : m.lineStarts = (Cursor.start.after past).lineStarts)
    (hoffset : byteLength past < offset) :
    m.recordLineStart offset = { m with lineStarts := m.lineStarts.push offset } := by
  obtain ⟨before, line, hread, hlast, -⟩ := (Cursor.tracks_after past).current
  have hle : byteLength before ≤ byteLength past := by
    rw [← hread, byteLength_append]
    omega
  rw [State.recordLineStart, if_pos]
  rw [hm, ← Array.getLast?_toList, hlast, Option.any_some, decide_eq_true_eq]
  omega

/-- Noting the lines that start in a text leads to the lines met behind it. -/
theorem foldl_recordLineStart {m : State} (cs : List Char)
    (hm : m.lineStarts = (Cursor.start.after past).lineStarts) :
    (lineStartsIn (byteLength past) cs).foldl State.recordLineStart m
      = { m with lineStarts := (Cursor.start.after (past ++ cs)).lineStarts } := by
  induction cs generalizing past m with
  | nil => rw [List.append_nil, ← hm]; rfl
  | cons c cs ih =>
    have hpos := c.utf8Size_pos
    have hbehind : byteLength past + c.utf8Size = byteLength (past ++ [c]) := by
      rw [byteLength_append, byteLength_cons]
      rfl
    have happend : past ++ c :: cs = past ++ [c] ++ cs := by simp
    rw [lineStartsIn, hbehind, happend]
    have hsnoc := lineStarts_snoc past c
    split
    · -- The line found starts behind all that were noted before, so it is not dropped.
      rename_i hc
      rw [if_pos hc, ← hm] at hsnoc
      rw [List.foldl_cons, recordLineStart_eq hm (by omega), ih hsnoc.symm]
    · rename_i hc
      rw [if_neg hc, ← hm] at hsnoc
      exact ih hsnoc.symm

theorem byteLength_snoc {c : Char} (hc : isAscii c = true) :
    byteLength past + 1 = byteLength (past ++ [c]) := by
  rw [byteLength_append, byteLength_cons, utf8Size_of_isAscii hc]
  rfl

/-- Behind a newline a line starts. -/
theorem At.beyond_newline (h : At source past ('\n' :: rest) s) :
    { s.bytewise with offset := s.bytewise.offset + 1 }.recordLineStart (s.bytewise.offset + 1)
      = (s.beyond ['\n']).bytewise := by
  have hbehind : s.bytewise.offset + 1 = byteLength (past ++ ['\n']) := by
    rw [h.offset]
    exact byteLength_snoc rfl
  rw [recordLineStart_eq (m := { s.bytewise with offset := s.bytewise.offset + 1 }) h.lineStarts
    (by rw [h.offset]; omega), h.bytewise_beyond, lineStarts_snoc, if_pos rfl, ← h.lineStarts,
    hbehind]

/-! ## Strings -/

/-- What a string is written between holds ASCII characters only and begins no line. -/
theorem quote_of_mem_delimiterOf {quote d : Char} {cs : List Char}
    (h : d ∈ Lexeme.delimiterOf quote cs) : d = quote := by
  unfold Lexeme.delimiterOf at h
  split at h
  · simpa using h
  · simpa using h

/-- Three quotes are told from one by the bytes as they are by the characters. -/
theorem delimiterOf_utf8 {quote : Char} (hquote : isAscii quote = true) (cs : List Char) :
    delimiterOf quote (utf8 (quote :: cs)) = utf8 (Lexeme.delimiterOf quote cs) := by
  have hone : (utf8 [quote, quote, quote]).take 1 = utf8 [quote] := by
    simp only [utf8_cons_of_isAscii hquote, List.take_succ_cons, List.take_zero, utf8_nil]
  rw [delimiterOf, isPrefixOf_utf8 (by simp [hquote]), List.isPrefixOf_cons_cons, beq_self_eq_true,
    Bool.true_and, hone, Lexeme.delimiterOf]
  split <;> rfl

/-- A string is taken in with the lines that start in its body. -/
theorem At.string_ok {d body rest' : List Char} (h : At source past (d ++ body ++ d ++ rest') s)
    (hline : '\n' ∉ d) :
    pushToken source track .string (String.ofList body) (byteLength past)
      (byteLength (past ++ d ++ body ++ d))
      { (lineStartsIn (byteLength (past ++ d)) body).foldl State.recordLineStart s.bytewise with
        offset := byteLength (past ++ d ++ body ++ d)
        tally := s.tally.addString (byteLength body)
        notes := s.notes.push
          (.string (byteLength body) (s.tally.addString (byteLength body)).longestString) }
      = .ofScan (s.accept track (.string d body)) := by
  have happend : past ++ d ++ body ++ d = past ++ (d ++ body ++ d) := by
    simp only [List.append_assoc]
  -- No line begins in a delimiter, so noting those of the body is enough.
  have hopen : s.bytewise.lineStarts = (Cursor.start.after (past ++ d)).lineStarts := by
    rw [h.lineStarts, Cursor.after_append, Cursor.lineStarts_of_no_newline _ hline]
  have hstarts : (Cursor.start.after (past ++ d ++ body)).lineStarts
      = (Cursor.start.after (past ++ (d ++ body ++ d))).lineStarts := by
    rw [← happend, Cursor.after_append _ (past ++ d ++ body),
      Cursor.lineStarts_of_no_newline _ hline]
  have hbeyond := (h.observe (.string d body)).bytewise_beyond (d ++ body ++ d)
  have hspan :
      spanAt source ((s.observe (.string d body)).beyond (d ++ body ++ d)).cursor.lineStarts
        (byteLength past) (byteLength (past ++ (d ++ body ++ d)))
      = .ok ⟨s.cursor.position, s.cursor.position.after (d ++ body ++ d)⟩ := by
    rw [show (Scan.beyond _ _).cursor.lineStarts = _ from congrArg State.lineStarts hbeyond,
      h.position]
    exact spanAt_eq (by rw [List.append_assoc, h.split]) (known_of_append _ _) (known_self _)
  rw [foldl_recordLineStart body hopen, hstarts, happend]
  rw [← pushToken_accept (l := .string d body) rfl hspan]
  exact congrArg _ hbeyond.symm

theorem string_eq {quote : Char} {cs : List Char} (h : At source past (quote :: cs) s)
    (hquote : quote = '\x27' ∨ quote = '\x22' ∨ quote = '\x60') :
    string source track quote s.bytewise
      = ofRead track s (quote :: cs) (Lexeme.readString quote cs) := by
  have hascii : isAscii quote = true := by rcases hquote with rfl | rfl | rfl <;> rfl
  have hnewline : '\n' ≠ quote := by rcases hquote with rfl | rfl | rfl <;> decide
  obtain ⟨hdelimiter, hne⟩ := Lexeme.delimiterOf_eq quote cs
  have hquotes : ∀ c ∈ Lexeme.delimiterOf quote cs, c = quote := fun c => quote_of_mem_delimiterOf
  rw [string, h.offset, bytesFrom_eq h.split, Checked.ok_bind, delimiterOf_utf8 hascii,
    Lexeme.readString]
  dsimp only
  generalize Lexeme.delimiterOf quote cs = d at *
  generalize (quote :: cs).drop d.length = ahead at *
  have hline : '\n' ∉ d := fun hmem => hnewline (hquotes _ hmem)
  have hmark : ∀ c ∈ d, isAscii c = true := fun c hc => by rw [hquotes c hc, hascii]
  have hplace : past ++ d ++ ahead = source := by rw [List.append_assoc, hdelimiter, h.split]
  have hopen (cause : LexCause) := h.spanAt_here cause hdelimiter hline
  -- The delimiter is ASCII, so its bytes occur only where it does.
  rw [length_utf8, ← byteLength_append, bytesFrom_eq hplace, Checked.ok_bind,
    findBytes_utf8 hne hmark]
  cases hfind : splitAtMark? d ahead with
  | none =>
    simp only [Option.map_none, hopen .unterminatedString, Checked.ok_bind]
    rfl
  | some found =>
    obtain ⟨body, rest⟩ := found
    have hbody := Lexeme.splitAtMark?_eq hfind
    simp only [Option.map_some, ← byteLength_append, minus_byteLength, Checked.ok_bind]
    split
    · simp only [hopen (.stringTooLarge (byteLength body)), Checked.ok_bind]
      rfl
    · have hparts : d ++ body ++ d ++ rest = quote :: cs := by
        rw [← hdelimiter, ← hbody]
        simp only [List.append_assoc]
      have htext := textBetween_eq (show past ++ d ++ body ++ (d ++ rest) = source by
        rw [← h.split, ← hparts]
        simp only [List.append_assoc])
      rw [htext, Checked.ok_bind]
      rw [← hparts] at h
      exact h.string_ok hline

/-! ## Comments to the end of the line -/

/-- A lexeme that stands for no token only moves on. -/
theorem accept_silent {l : Lexeme} (htokens : l.tokens s.cursor.position = []) :
    s.accept track l = .ok ((s.observe l).beyond l.chars) := by
  rw [Scan.accept, htokens]
  rfl

theorem takeWhile_of_not_mem {cs : List Char} (h : '\n' ∉ cs) : cs.takeWhile (· != '\n') = cs := by
  have hall : ∀ d ∈ cs, (d != '\n') = true := by
    intro d hd
    rw [bne_iff_ne]
    rintro rfl
    exact h hd
  simpa using @List.takeWhile_append_of_pos _ _ cs [] hall

theorem startsLineComment_cons (c : Char) (cs : List Char) :
    Lexeme.startsLineComment (c :: cs)
      = if c = '/' then cs.head?.any (· == '/') else if c = '#' then cs.head?.any isGap
        else c == ';' := by
  unfold Lexeme.startsLineComment
  split
  · simp_all
  · simp_all
  · simp_all
  · rename_i hslash hhash hsemicolon
    have hc : (c == ';') = false := beq_eq_false_iff_ne.mpr fun hc => hsemicolon _ (by rw [hc])
    cases cs with
    | nil => simp [hc]
    | cons d cs =>
      have hno : c ≠ '#' := fun hc => hhash _ _ (by rw [hc])
      by_cases hyes : c = '/'
      · have hd : d ≠ '/' := fun hd => hslash _ (by rw [hyes, hd])
        simp [hyes, hd]
      · simp [hyes, hno, hc]

theorem atLineComment_eq {cs : List Char} (h : past ++ cs = source) :
    atLineComment source (byteLength past) = Lexeme.startsLineComment cs := by
  unfold atLineComment
  rw [holdsAt_eq h (ascii_eq (by decide)), holdsAt_eq h (ascii_eq (by decide)),
    holdsAt_eq h (ascii_eq (by decide))]
  cases cs with
  | nil => rfl
  | cons c cs =>
    -- What is looked for behind the first character matters only if that is an ASCII character.
    have hnext (hc : isAscii c = true) : byteLength past + 1 = byteLength (past ++ [c]) ∧
        past ++ [c] ++ cs = source := ⟨byteLength_snoc hc, by simpa using h⟩
    simp only [List.head?_cons, Option.any_some, beq_iff_eq, startsLineComment_cons]
    split
    · rename_i hc
      obtain ⟨hoffset, hsplit⟩ := hnext (by rw [hc]; rfl)
      rw [hoffset, holdsAt_eq hsplit (ascii_eq (by decide))]
    · split
      · rename_i hc
        obtain ⟨hoffset, hsplit⟩ := hnext (by rw [hc]; rfl)
        rw [hoffset, holdsAt_eq hsplit ascii_isGap]
      · rfl

theorem lineComment_eq {c : Char} {cs : List Char} (h : At source past (c :: cs) s)
    (hascii : isAscii c = true) (hc : c ≠ '\n') :
    lineComment source s.bytewise
      = ofRead track s (c :: cs) (Lexeme.readLineComment (c :: cs)) := by
  have hstop : (if '\n' ∈ c :: cs then
        byteLength past + byteLength ((c :: cs).takeWhile (· != '\n'))
      else byteLength source) = byteLength (past ++ (c :: cs).takeWhile (· != '\n')) := by
    split
    · rw [byteLength_append]
    · -- On the last line the comment ends with the text.
      rename_i hmem
      rw [takeWhile_of_not_mem hmem, h.split]
  have hopen (cause : LexCause) := h.spanAt_here cause List.singleton_append
    (by simpa using hc.symm)
  rw [lineComment, h.offset, textFrom_eq h.split, Checked.ok_bind, hstop]
  dsimp only
  rw [minus_byteLength, Checked.ok_bind, Lexeme.readLineComment]
  split
  · rw [byteLength_snoc hascii, hopen]
    rfl
  · have hline : '\n' ∉ (c :: cs).takeWhile (· != '\n') := newline_not_mem_takeWhile rfl _
    rw [ofRead, accept_silent rfl, Checked.ofScan,
      (h.observe (.lineComment _)).bytewise_beyond_line (by exact hline)]
    rfl

/-! ## Words, annotations and pragmas -/

/-- The word a text begins with, or nothing. -/
def wordOf (cs : List Char) : List Char := ((word? cs).map Prod.fst).getD []

theorem wordEnd_eq {cs : List Char} (h : past ++ cs = source) :
    wordEnd source (byteLength past) = byteLength (past ++ wordOf cs) := by
  rw [wordEnd, holdsAt_eq h ascii_isWordStart]
  cases cs with
  | nil => simp [wordOf, word?]
  | cons c cs =>
    rw [List.head?_cons, Option.any_some, wordOf, word?]
    split
    · rename_i hc
      have hplace : past ++ [c] ++ cs = source := by simpa using h
      rw [byteLength_snoc (ascii_isWordStart c hc), whileAt_eq hplace ascii_isWordChar,
        List.append_assoc]
      rfl
    · simp

theorem newline_not_mem_wordOf (cs : List Char) : '\n' ∉ wordOf cs := by
  unfold wordOf
  cases hword : word? cs with
  | none => simp
  | some r => exact (Lexeme.word?_isWord hword).1.newline_not_mem

theorem ascription_eq {cs : List Char} (h : At source past (':' :: cs) s) :
    ascription source s.bytewise = ofRead track s (':' :: cs) (Lexeme.readAscription cs) := by
  have hcolon : byteLength past + 1 = byteLength (past ++ [':']) := byteLength_snoc rfl
  have hplace : past ++ [':'] ++ cs = source := by simpa using h.split
  rw [ascription, h.offset, hcolon, wordEnd_eq hplace, Lexeme.readAscription]
  cases hword : word? cs with
  | none =>
    have hopen := h.spanAt_here (.invalidCharacter ':') List.singleton_append (by simp)
    rw [if_pos (by simp [wordOf, hword]), hopen]
    rfl
  | some r =>
    obtain ⟨w, rest⟩ := r
    obtain ⟨hsplit, hne⟩ := Lexeme.word?_eq hword
    have hw : wordOf cs = w := by rw [wordOf, hword]; rfl
    have hpos := List.length_pos_iff.mpr hne
    have hbytes := length_le_byteLength w
    have hline : '\n' ∉ (Lexeme.ascription w).chars := by
      rw [← hw]
      simpa [Lexeme.chars] using newline_not_mem_wordOf cs
    rw [hw, if_neg (by rw [byteLength_append _ w]; omega),
      textBetween_eq (by rw [List.append_assoc _ w, hsplit, hplace]), Checked.ok_bind, ofRead,
      accept_silent rfl, Checked.ofScan, (h.observe (.ascription w)).bytewise_beyond_line hline]
    have happend : past ++ [':'] ++ w = past ++ ':' :: w := by simp
    have hpending : (s.observe (.ascription w)).bytewise.pending
        = some (String.ofList w, byteLength past, byteLength (past ++ ':' :: w)) := by
      show some (String.ofList w, s.cursor.position.offset,
        (s.cursor.position.after (':' :: w)).offset) = _
      rw [h.position, ← Position.after_append, Laid.offset_start_after, Laid.offset_start_after]
    rw [happend, ← hpending]
    rfl

/-- Blanks are passed and the name behind them is cut out. -/
theorem nameBehindGap_eq {q : Char → Bool} {cs : List Char} (h : past ++ cs = source)
    (hq : Ascii q) :
    whileAt source isGap (byteLength past) = byteLength (past ++ cs.takeWhile isGap) ∧
    whileAt source q (byteLength (past ++ cs.takeWhile isGap))
      = byteLength (past ++ cs.takeWhile isGap ++ (cs.dropWhile isGap).takeWhile q) ∧
    textBetween source (byteLength (past ++ cs.takeWhile isGap))
        (byteLength (past ++ cs.takeWhile isGap ++ (cs.dropWhile isGap).takeWhile q))
      = .ok ((cs.dropWhile isGap).takeWhile q) := by
  have hname : past ++ cs.takeWhile isGap ++ cs.dropWhile isGap = source := by
    rw [List.append_assoc, List.takeWhile_append_dropWhile, h]
  have hrest := @List.takeWhile_append_dropWhile _ q (cs.dropWhile isGap)
  refine ⟨whileAt_eq h ascii_isGap, whileAt_eq hname hq, ?_⟩
  exact textBetween_eq (by rw [List.append_assoc, hrest, hname])

/-- The dialect that a pragma names is found with the end of its name. -/
theorem dialectAt?_eq {cs : List Char} (h : past ++ '#' :: cs = source) :
    dialectAt? source (byteLength past) = .ok ((Lexeme.readDialect? cs).bind fun r =>
      match r.1 with
      | .pragma text dialect => some (dialect, byteLength (past ++ text))
      | _ => none) := by
  have hplace : past ++ ['#'] ++ cs = source := by simpa using h
  rw [dialectAt?, show byteLength past + 1 = byteLength (past ++ ['#']) from byteLength_snoc rfl,
    wordEnd_eq hplace, Lexeme.readDialect?]
  cases hword : word? cs with
  | none =>
    have hw : wordOf cs = [] := by rw [wordOf, hword]; rfl
    rw [hw, textBetween_eq (show _ ++ [] ++ cs = source by simpa using hplace), Checked.ok_bind,
      if_neg (by simp)]
    rfl
  | some r =>
    obtain ⟨w, afterWord⟩ := r
    have hw : wordOf cs = w := by rw [wordOf, hword]; rfl
    have hsplit := (Lexeme.word?_eq hword).1
    have hafter : past ++ ['#'] ++ w ++ afterWord = source := by
      rw [List.append_assoc _ w, hsplit, hplace]
    rw [hw, textBetween_eq hafter, Checked.ok_bind, whileAt_eq hafter ascii_isGap,
      Option.bind_eq_bind, Option.bind_some]
    dsimp only
    by_cases hlang : w = "lang".toList
    · have hgap := @List.takeWhile_append_dropWhile _ isGap afterWord
      rw [if_neg (not_not_intro hlang)]
      -- Blanks, the equals sign and the name are ASCII: every look begins where the last one ended.
      generalize afterWord.takeWhile isGap = gap at *
      generalize afterWord.dropWhile isGap = tail at *
      have hequals : past ++ ['#'] ++ w ++ gap ++ tail = source := by
        rw [List.append_assoc _ gap, hgap, hafter]
      rw [holdsAt_eq hequals (ascii_eq (by decide))]
      split
      · rename_i hhead
        obtain ⟨afterEquals, rfl⟩ : ∃ afterEquals, tail = '=' :: afterEquals := by
          obtain ⟨x, hx, heq⟩ := (Option.any_eq_true _ _).mp hhead.2
          obtain ⟨afterEquals, rfl⟩ := List.head?_eq_some_iff.mp hx
          exact ⟨afterEquals, by rw [beq_iff_eq.mp heq]⟩
        have hnameChar : Ascii fun c => isWordChar c || c == '-' :=
          ascii_isWordChar.or (ascii_eq (by decide))
        have hvalue : past ++ ['#'] ++ w ++ gap ++ ['='] ++ afterEquals = source := by
          rw [List.append_assoc _ ['='], List.singleton_append, hequals]
        obtain ⟨hstart, hstop, htext⟩ := nameBehindGap_eq hvalue hnameChar
        rw [byteLength_snoc (c := '=') rfl, hstart, hstop, htext, Checked.ok_bind]
        simp only [Option.bind_eq_bind]
        cases Dialect.ofName? _ with
        | none => rfl
        | some dialect =>
          simp only [Option.map_some, Option.bind_some, List.append_assoc, List.cons_append,
            List.nil_append]
      · rename_i hhead
        split
        · exact absurd ⟨hlang, by simp⟩ hhead
        · rfl
    · rw [if_neg (fun hand => hlang hand.1), if_pos hlang]
      rfl

theorem exists_pragma_of_readDialect? {cs rest : List Char} {l : Lexeme}
    (h : Lexeme.readDialect? cs = some (l, rest)) : ∃ text dialect, l = .pragma text dialect := by
  unfold Lexeme.readDialect? at h
  obtain ⟨⟨w, afterWord⟩, -, h⟩ := Option.bind_eq_some_iff.mp h
  dsimp only at h
  split at h
  · cases h
  · simp only [Option.bind_eq_bind] at h
    split at h
    · obtain ⟨d, -, h⟩ := Option.bind_eq_some_iff.mp h
      cases h
      exact ⟨_, _, rfl⟩
    · cases h

theorem newline_not_mem_pragma {text : List Char} {dialect : Dialect} (h : IsPragma text dialect) :
    '\n' ∉ text := by
  obtain ⟨gap, gap', name, rfl, hgap, hgap', hname, -⟩ := h
  intro hmem
  have hlang : '\n' ∉ "#lang".toList := by decide
  simp only [List.mem_append, List.mem_cons] at hmem
  rcases hmem with ((hmem | hmem) | hmem | hmem) | hmem
  · exact hlang hmem
  · exact absurd (hgap _ hmem) (by decide)
  · exact absurd hmem (by decide)
  · exact absurd (hgap' _ hmem) (by decide)
  · exact absurd (hname _ hmem) (by decide)

theorem trimEnd_prefix (cs : List Char) : trimEnd cs <+: cs := by
  have := List.reverse_prefix.mpr (List.dropWhile_suffix (l := cs.reverse) isBlank)
  rwa [List.reverse_reverse] at this

theorem pragma_eq {cs : List Char} (h : At source past ('#' :: cs) s) :
    pragma source s.bytewise = ofRead track s ('#' :: cs) (Lexeme.readPragma cs) := by
  rw [pragma, h.offset, dialectAt?_eq h.split, Lexeme.readPragma, Checked.ok_bind]
  cases hread : Lexeme.readDialect? cs with
  | none =>
    have htake : ('#' :: cs).takeWhile (· != '\n') = '#' :: cs.takeWhile (· != '\n') := rfl
    rw [Option.bind_none, textFrom_eq h.split, Checked.ok_bind, htake]
    dsimp only
    obtain ⟨tail, htail⟩ := trimEnd_prefix ('#' :: cs.takeWhile (· != '\n'))
    have hline := newline_not_mem_takeWhile (q := (· != '\n')) rfl ('#' :: cs)
    rw [htake, ← htail, List.mem_append, not_or] at hline
    generalize trimEnd ('#' :: cs.takeWhile (· != '\n')) = text at *
    have hrest : text ++ (tail ++ cs.dropWhile (· != '\n')) = '#' :: cs := by
      rw [← List.append_assoc, htail, List.cons_append, List.takeWhile_append_dropWhile]
    have hopen := h.spanAt_here (.unknownPragma (String.ofList text)) hrest hline.1
    rw [← byteLength_append, textBetween_eq (by rw [List.append_assoc, hrest, h.split]),
      Checked.ok_bind, hopen]
    rfl
  | some r =>
    obtain ⟨l, rest⟩ := r
    obtain ⟨text, dialect, rfl⟩ := exists_pragma_of_readDialect? hread
    have hchars := (Lexeme.readDialect?_eq hread).1
    have hline : '\n' ∉ (Lexeme.pragma text dialect).chars :=
      newline_not_mem_pragma (Lexeme.fits_readDialect? hread).1
    have hspan := h.spanAt_ahead hchars hline
    rw [Option.bind_some]
    dsimp only
    rw [show byteLength (past ++ text)
        = byteLength (past ++ (Lexeme.pragma text dialect).chars) from rfl,
      hspan, Checked.ok_bind, ofRead, accept_silent rfl, Checked.ofScan,
      (h.observe (.pragma text dialect)).bytewise_beyond_line hline]
    rfl

/-! ## Names -/

/-- The offsets around the words of a name behind the first, which ends where `past` does. -/
def memberOffsets (past : List Char) : List (List Char) → List (Nat × Nat)
  | [] => []
  | w :: ws =>
    (byteLength (past ++ ['.']), byteLength (past ++ ['.'] ++ w)) ::
      memberOffsets (past ++ ['.'] ++ w) ws

/-- The words behind a point are found one after the other, as they are read. -/
theorem wordsFrom_eq (words : List (List Char)) (cs : List Char) {past : List Char} {fuel : Nat}
    (h : past ++ cs = source) (hfuel : cs.length < fuel) :
    ∃ more, (Lexeme.readMore words cs).1 = words.reverse ++ more ∧
      wordsFrom source fuel (byteLength past) = .ok (memberOffsets past more) := by
  have hpoint : byteLength past + 1 = byteLength (past ++ ['.']) := byteLength_snoc rfl
  fun_induction Lexeme.readMore words cs generalizing past fuel with
  | case1 words rest w rest' hword ih =>
    obtain ⟨fuel, rfl⟩ : ∃ n, fuel = n + 1 := ⟨fuel - 1, by omega⟩
    have hplace : past ++ ['.'] ++ rest = source := by simpa using h
    obtain ⟨hsplit, hne⟩ := Lexeme.word?_eq hword
    have hw : wordOf rest = w := by rw [wordOf, hword]; rfl
    have hplace' : past ++ ['.'] ++ w ++ rest' = source := by
      rw [List.append_assoc _ w, hsplit, hplace]
    have hpos := List.length_pos_iff.mpr hne
    have hbytes := length_le_byteLength w
    -- A point and a word are left behind, so what is ahead still fits the fuel.
    have hlength := Lexeme.word?_length hword
    obtain ⟨more, hmore, hwords⟩ := @ih _ fuel hplace' (by rw [List.length_cons] at hfuel; omega)
      (byteLength_snoc rfl)
    refine ⟨w :: more, by simpa using hmore, ?_⟩
    rw [wordsFrom, holdsAt_eq h (ascii_eq (by decide)), hpoint, wordEnd_eq hplace, hw,
      if_pos ⟨rfl, by rw [byteLength_append _ w]; omega⟩, hwords]
    rfl
  | case2 words rest hword =>
    obtain ⟨fuel, rfl⟩ : ∃ n, fuel = n + 1 := ⟨fuel - 1, by omega⟩
    have hplace : past ++ ['.'] ++ rest = source := by simpa using h
    have hw : wordOf rest = [] := by rw [wordOf, hword]; rfl
    refine ⟨[], by simp, ?_⟩
    rw [wordsFrom, hpoint, wordEnd_eq hplace, hw, List.append_nil, if_neg (fun hand => hand.2 rfl)]
    rfl
  | case3 words cs hother =>
    obtain ⟨fuel, rfl⟩ : ∃ n, fuel = n + 1 := ⟨fuel - 1, by omega⟩
    refine ⟨[], by simp, ?_⟩
    have hhead : cs.head?.any (· == '.') = false := by
      cases cs with
      | nil => rfl
      | cons c cs =>
        rw [List.head?_cons, Option.any_some, beq_eq_false_iff_ne]
        rintro rfl
        exact hother _ rfl
    rw [wordsFrom, holdsAt_eq h (ascii_eq (by decide)), hhead,
      if_neg (fun hand => Bool.false_ne_true hand.1)]
    rfl

theorem byteLength_word {w : List Char} (h : IsWord w) : byteLength w = w.length :=
  byteLength_of_isAscii fun c hc => ascii_isWordChar c (h.isWordChar c hc)

/-- The words behind the first are not too long, or the first that is too long is found. -/
theorem At.checkWords_eq {more : List (List Char)} {taken rest' : List Char}
    (h : At source past rest s) (hrest : taken ++ more.flatMap ('.' :: ·) ++ rest' = rest)
    (hline : '\n' ∉ taken) (hwords : ∀ w ∈ more, IsWord w) :
    checkWords source s.bytewise.lineStarts (memberOffsets (past ++ taken) more)
      = match Lexeme.longWord? more (taken.length + 1) with
        | none => .ok ()
        | some f => .error (f.errorAt s.cursor.position rest) := by
  induction more generalizing taken with
  | nil => rfl
  | cons w ws ih =>
    have hword := hwords w List.mem_cons_self
    have hlength := byteLength_word hword
    have hbehind : '\n' ∉ taken ++ ['.'] ++ w := by
      simp only [List.mem_append, not_or]
      exact ⟨⟨hline, by simp⟩, hword.newline_not_mem⟩
    have hparts : taken ++ ['.'] ++ w ++ ws.flatMap ('.' :: ·) ++ rest' = rest := by
      rw [← hrest]
      simp
    have hspan := h.spanAt_fault (.identifierTooLong w.length)
      (show taken ++ ['.'] ++ w ++ (ws.flatMap ('.' :: ·) ++ rest') = rest by
        rw [← List.append_assoc, hparts])
      (known_of_no_newline past fun hmem => hbehind (List.mem_append_left w hmem))
      (by rw [List.append_assoc]; exact known_of_no_newline past hbehind)
    rw [← h.lineStarts, List.length_append, ← List.append_assoc] at hspan
    have ih := @ih (taken ++ ['.'] ++ w) hparts hbehind
      fun v hv => hwords v (List.mem_cons_of_mem _ hv)
    rw [memberOffsets, checkWords, minus_byteLength, Checked.ok_bind, hlength, Lexeme.longWord?]
    split
    · rw [hspan]
      rfl
    · have hcount : taken.length + 1 + w.length + 1 = (taken ++ ['.'] ++ w).length + 1 := by
        simp only [List.length_append, List.length_singleton]
      rw [hcount, ← ih]
      simp only [List.append_assoc]

theorem push_cursor {s' : Scan} {t : Token} (h : s.push track t = .ok s') :
    s'.cursor = s.cursor := by
  unfold Scan.push at h
  split at h
  · cases h
  · cases h
    rfl

/-- Two tokens one after the other. -/
theorem pushToken_pair {t u : Token} {a b c d : Nat} {f : State → Checked State}
    {g : Scan → Except (LexError × Scan) Scan}
    (ht : spanAt source s.cursor.lineStarts a b = .ok t.span)
    (hu : spanAt source s.cursor.lineStarts c d = .ok u.span)
    (hf : ∀ s', s'.cursor = s.cursor → f s'.bytewise = .ofScan (g s')) :
    (do
      let m ← pushToken source track t.kind t.text a b s.bytewise
      let m ← pushToken source track u.kind u.text c d m
      f m) = .ofScan (do
        let s ← s.push track t
        let s ← s.push track u
        g s) := by
  rw [pushToken_eq ht]
  refine ofScan_bind _ _ _ fun s₁ h₁ => ?_
  have hcursor := push_cursor h₁
  rw [pushToken_eq (by rw [hcursor, hu])]
  refine ofScan_bind _ _ _ fun s₂ h₂ => ?_
  exact hf s₂ (by rw [push_cursor h₂, hcursor])

theorem pushOpenings_eq {n : Nat} (h : past ++ rest = source)
    (hknown : Known s.cursor.lineStarts past) :
    pushOpenings source track (byteLength past) n s.bytewise
      = .ofScan ((memberOpenings (Position.start.after past) n).foldlM (Scan.push track) s) := by
  have hspan := spanAt_point h hknown
  induction n generalizing s with
  | zero => rfl
  | succ n ih =>
    rw [memberOpenings, List.foldlM_cons]
    simp only [List.foldlM_cons]
    refine pushToken_pair (t := { kind := .operator, text := "(", span := _ })
      (u := { kind := .operator, text := ".", span := _ }) hspan hspan fun s' hs' => ?_
    exact ih (by rw [hs']; exact hknown) (by rw [hs']; exact hspan)

/-- The words of a name are added as they are in the scan, which has come through them. -/
theorem pushMembers_eq {more : List (List Char)}
    (h : past ++ more.flatMap ('.' :: ·) ++ rest = source)
    (hstarts : s.cursor.lineStarts
      = (Cursor.start.after (past ++ more.flatMap ('.' :: ·))).lineStarts) :
    pushMembers source track (memberOffsets past more) s.bytewise
      = .ofScan ((memberTokens (Position.start.after past) more).foldlM (Scan.push track) s) := by
  induction more generalizing past s with
  | nil => rfl
  | cons w ws ih =>
    have hparts : past ++ (w :: ws).flatMap ('.' :: ·)
        = past ++ ['.'] ++ w ++ ws.flatMap ('.' :: ·) := by simp
    rw [hparts] at h hstarts
    have hplace : past ++ ['.'] ++ w ++ (ws.flatMap ('.' :: ·) ++ rest) = source := by
      rw [← List.append_assoc, h]
    have hstop : Known s.cursor.lineStarts (past ++ ['.'] ++ w) := ⟨_, hstarts⟩
    have hstart : Known s.cursor.lineStarts (past ++ ['.']) :=
      ⟨w ++ ws.flatMap ('.' :: ·), by rw [← List.append_assoc, hstarts]⟩
    have hword := spanAt_eq hplace hstart hstop
    have hclose := spanAt_point hplace hstop
    have hnext : Position.start.after (past ++ ['.']) = (Position.start.after past).next '.' := by
      rw [Position.after_append]
      rfl
    rw [memberOffsets, pushMembers, textBetween_eq hplace, Checked.ok_bind, memberTokens,
      List.foldlM_cons]
    simp only [List.foldlM_cons]
    refine pushToken_pair (t := { kind := .identifier, text := String.ofList w, span := _ })
      (u := { kind := .operator, text := ")", span := _ }) ?_ ?_ fun s' hs' => ?_
    · rw [hword, hnext]
    · rw [hclose, Position.after_append, hnext]
    · rw [ih h (by rw [hs', hstarts]),
        Position.after_append, hnext]

/-- A name ends where its last word does. -/
theorem getLast?_memberOffsets (a d : Nat) (past : List Char) (more : List (List Char)) :
    (((a, byteLength past) :: memberOffsets past more).getLast?.elim d Prod.snd)
      = byteLength (past ++ more.flatMap ('.' :: ·)) := by
  induction more generalizing a past with
  | nil => simp [memberOffsets]
  | cons w ws ih =>
    rw [memberOffsets, List.getLast?_cons_cons, ih]
    simp

theorem length_memberOffsets (past : List Char) (more : List (List Char)) :
    (memberOffsets past more).length = more.length := by
  induction more generalizing past with
  | nil => rfl
  | cons w ws ih => rw [memberOffsets, List.length_cons, ih, List.length_cons]

/-- The words of a name are not too long, or the first that is too long is found. -/
theorem At.checkName_eq {first rest' : List Char} {more : List (List Char)}
    (h : At source past rest s) (hrest : first ++ more.flatMap ('.' :: ·) ++ rest' = rest)
    (hfirst : IsWord first) (hmore : ∀ w ∈ more, IsWord w) :
    checkWords source s.bytewise.lineStarts
        ((byteLength past, byteLength (past ++ first)) :: memberOffsets (past ++ first) more)
      = match Lexeme.longWord? (first :: more) 0 with
        | none => .ok ()
        | some f => .error (f.errorAt s.cursor.position rest) := by
  have hspan := h.spanAt_here (.identifierTooLong first.length)
    (by rw [← hrest, List.append_assoc]) hfirst.newline_not_mem
  rw [checkWords, minus_byteLength, Checked.ok_bind, byteLength_word hfirst, Lexeme.longWord?]
  split
  · rw [hspan]
    rfl
  · rw [h.checkWords_eq hrest hfirst.newline_not_mem hmore, Nat.zero_add]

theorem newline_not_mem_name {first : List Char} {more : List (List Char)} (hfirst : IsWord first)
    (hmore : ∀ w ∈ more, IsWord w) : '\n' ∉ (Lexeme.name first more).chars := by
  simp only [Lexeme.chars, List.mem_append, List.mem_flatMap, List.mem_cons, not_or, not_exists,
    not_and]
  exact ⟨hfirst.newline_not_mem, fun w hw => ⟨by decide, (hmore w hw).newline_not_mem⟩⟩

/-- The tokens of a name with points are added as they are in the scan. -/
theorem At.members_eq {first w rest' : List Char} {ws : List (List Char)}
    (h : At source past rest s) (hrest : (Lexeme.name first (w :: ws)).chars ++ rest' = rest)
    (hfirst : IsWord first) (hmore : ∀ v ∈ w :: ws, IsWord v) :
    (do
      let m ← pushOpenings source track (byteLength past) (w :: ws).length { s.bytewise with
        offset := byteLength (past ++ (Lexeme.name first (w :: ws)).chars) }
      let m ← pushToken source track .identifier (String.ofList first) (byteLength past)
        (byteLength (past ++ first)) m
      pushMembers source track (memberOffsets (past ++ first) (w :: ws)) m)
      = .ofScan (s.accept track (.name first (w :: ws))) := by
  -- While the tokens are added the scan is behind the whole name already, but on the same line.
  have hline := newline_not_mem_name hfirst hmore
  have hbeyond := h.bytewise_beyond_line hline
  generalize hs : s.beyond (Lexeme.name first (w :: ws)).chars = s₁ at hbeyond
  have hcursor : s₁.cursor = Cursor.start.after (past ++ (Lexeme.name first (w :: ws)).chars) := by
    rw [Cursor.after_append, ← h.cursor, ← hs]
    rfl
  have hchars : past ++ (Lexeme.name first (w :: ws)).chars
      = past ++ first ++ (w :: ws).flatMap ('.' :: ·) := by
    rw [List.append_assoc]
    rfl
  have hknown : Known s₁.cursor.lineStarts past := by rw [hcursor]; exact known_of_append _ _
  have hknown' : Known s₁.cursor.lineStarts (past ++ first) := by
    rw [hcursor, hchars]
    exact known_of_append _ _
  have hsplit : past ++ first ++ (w :: ws).flatMap ('.' :: ·) ++ rest' = source := by
    rw [← hchars, List.append_assoc, hrest, h.split]
  have hspan := spanAt_eq (by rw [← List.append_assoc, hsplit]) hknown hknown'
  let t : Token :=
    { kind := .identifier
      text := String.ofList first
      span := ⟨Position.start.after past, (Position.start.after past).after first⟩ }
  have haccept : s.accept track (.name first (w :: ws)) = (do
      let s' ← (memberOpenings (Position.start.after past) (w :: ws).length).foldlM
        (Scan.push track) s₁
      let s' ← s'.push track t
      (memberTokens (Position.start.after (past ++ first)) (w :: ws)).foldlM
        (Scan.push track) s') := by
    rw [Scan.accept, h.position, ← hs, Lexeme.tokens, List.foldlM_append, Position.after_append]
    · rfl
    · exact List.cons_ne_nil _ _
  rw [← hbeyond, haccept, pushOpenings_eq h.split hknown]
  refine ofScan_bind _ _ _ fun s₂ h₂ => ?_
  have hcursor₂ := (Scan.foldlM_push_ok h₂).1
  rw [show pushToken source track .identifier (String.ofList first) (byteLength past)
    (byteLength (past ++ first)) s₂.bytewise = .ofScan (s₂.push track t) from
      pushToken_eq (t := t) (by rw [hcursor₂, hspan])]
  refine ofScan_bind _ _ _ fun s₃ h₃ => ?_
  exact pushMembers_eq hsplit (by rw [push_cursor h₃, hcursor₂, hcursor, hchars])

theorem name_eq {c : Char} {cs : List Char} (h : At source past (c :: cs) s)
    (hc : isWordStart c = true) :
    name source track s.bytewise = ofRead track s (c :: cs) (Lexeme.readName (c :: cs)) := by
  have hchar := isWordChar_of_isWordStart hc
  have hword : wordOf (c :: cs) = (c :: cs).takeWhile isWordChar := by
    rw [wordOf, word?, if_pos hc, List.takeWhile_cons_of_pos hchar]
    rfl
  have hsplit := @List.takeWhile_append_dropWhile _ isWordChar (c :: cs)
  have hfirst := Lexeme.isWord_takeWhile cs hc
  have hends := ends_dropWhile isWordChar (c :: cs)
  rw [name, h.offset, wordEnd_eq h.split, hword, Lexeme.readName]
  generalize (c :: cs).takeWhile isWordChar = first at *
  generalize (c :: cs).dropWhile isWordChar = tail at *
  have hplace : past ++ first ++ tail = source := by rw [List.append_assoc, hsplit, h.split]
  have hfuel : tail.length < byteLength source + 1 := by
    have := length_le_byteLength tail
    rw [← hplace, byteLength_append]
    omega
  obtain ⟨more, hmore, hwords⟩ := wordsFrom_eq [] tail hplace hfuel
  have hrest := Lexeme.readMore_eq [] tail
  have hisWord := (Lexeme.readMore_isWord [] tail (by simp) hends).1
  rw [hmore] at hrest hisWord
  rw [List.reverse_nil, List.nil_append] at hmore hrest hisWord
  rw [List.flatMap_nil, List.nil_append] at hrest
  have hparts : first ++ more.flatMap ('.' :: ·) ++ (Lexeme.readMore [] tail).2 = c :: cs := by
    rw [List.append_assoc, hrest, hsplit]
  have hcheck := h.checkName_eq hparts hfirst hisWord
  dsimp only
  rw [hwords, Checked.ok_bind, hcheck, hmore]
  cases hlong : Lexeme.longWord? (first :: more) 0 with
  | some f => rfl
  | none =>
    have hstop : ((byteLength past, byteLength (past ++ first)) ::
        memberOffsets (past ++ first) more).getLast?.elim (byteLength past) Prod.snd
          = byteLength (past ++ (Lexeme.name first more).chars) := by
      rw [getLast?_memberOffsets, List.append_assoc]
      rfl
    simp only [Checked.ok_bind, hstop, textBetween_eq hplace]
    cases more with
    | nil =>
      have hchars : (Lexeme.name first []).chars = first := List.append_nil _
      have hlexeme := @At.pushToken_lexeme source past (c :: cs) track s (.name first [])
        { kind := if Category.keyword.has (String.ofList first) then .keyword else .identifier
          text := String.ofList first
          span := ⟨s.cursor.position, s.cursor.position.after (Lexeme.name first []).chars⟩ }
        _ h hparts (newline_not_mem_name hfirst hisWord) rfl rfl rfl
      rw [hchars] at hlexeme ⊢
      exact hlexeme
    | cons w ws =>
      have hmembers := @At.members_eq source past _ track s _ _ _ _ h hparts hfirst hisWord
      rw [← length_memberOffsets (past ++ first)] at hmembers
      exact hmembers

/-! ## Operators, keywords and the rest -/

theorem isAscii_of_all {words : List (List Char)} (h : (words.all fun w => w.all isAscii) = true) :
    ∀ w ∈ words, ∀ c ∈ w, isAscii c = true :=
  fun w hw => List.all_eq_true.mp (List.all_eq_true.mp h w hw)

theorem other_eq {c : Char} {cs : List Char} (h : At source past (c :: cs) s) (hc : c ≠ '\n') :
    other source track c s.bytewise = ofRead track s (c :: cs) (Lexeme.readOther c cs) := by
  rw [other, Lexeme.readOther]
  split
  · rename_i hhash
    subst hhash
    exact pragma_eq h
  split
  · rename_i hstart
    exact name_eq h hstart
  have hline : '\n' ∉ [c] := by simpa using hc.symm
  split
  · rename_i hgap
    rw [h.offset, byteLength_snoc (ascii_isGap c hgap), ofRead, accept_silent rfl, Checked.ofScan]
    exact congrArg Checked.ok ((h.observe (.blank c)).bytewise_beyond_line hline).symm
  · have hopen := h.spanAt_here (.invalidCharacter c) List.singleton_append hline
    rw [byteLength_append, byteLength_cons, byteLength_nil, Nat.add_zero] at hopen
    rw [h.offset, hopen]
    rfl

theorem symbol_eq {c : Char} {cs : List Char} (h : At source past (c :: cs) s) (hc : c ≠ '\n') :
    symbol source track c s.bytewise = ofRead track s (c :: cs) (Lexeme.readSymbol c cs) := by
  have hoperators : (operatorSpellings.all fun w => w.all isAscii) = true := by decide +kernel
  have hkeywords : (keywordSpellings.all fun w => w.all isAscii) = true := by decide +kernel
  rw [symbol, Lexeme.readSymbol, h.offset, matchAt_eq h.split (isAscii_of_all hoperators),
    matchAt_eq h.split (isAscii_of_all hkeywords)]
  cases hoperator : firstMatch? operatorSpellings (c :: cs) with
  | some w =>
    obtain ⟨hchars, hmem⟩ := Lexeme.firstMatch?_eq hoperator
    dsimp only
    rw [← byteLength_append]
    exact h.pushToken_lexeme (l := .operator w)
      (t := { kind := .operator, text := String.ofList (trim w), span := _ })
      hchars (newline_not_mem_operatorSpellings w hmem) rfl rfl rfl
  | none =>
    rw [Lexeme.keyword?]
    cases hkeyword : firstMatch? keywordSpellings (c :: cs) with
    | none => exact other_eq h hc
    | some w =>
      obtain ⟨hchars, hmem⟩ := Lexeme.firstMatch?_eq hkeyword
      have hplace : past ++ w ++ (c :: cs).drop w.length = source := by
        rw [List.append_assoc, hchars, h.split]
      have hends : holdsAt source isWordChar (byteLength (past ++ w))
          = ((((c :: cs).drop w.length).head?.map isWordChar).getD false) := by
        rw [holdsAt_eq hplace ascii_isWordChar]
        cases ((c :: cs).drop w.length).head? <;> rfl
      rw [Option.bind_eq_bind, Option.bind_some]
      dsimp only
      rw [← byteLength_append, hends]
      split
      · exact other_eq h hc
      · exact h.pushToken_lexeme (l := .keyword w)
          (t := { kind := .keyword, text := String.ofList w, span := _ })
          hchars (newline_not_mem_keywordSpellings w hmem) rfl rfl rfl

end Bytewise

end FormScript
