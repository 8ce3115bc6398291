import FormScript.Proofs.Lookahead
import FormScript.Proofs.Reading

/-!
# Lines can be scanned apart

A text that consists of whole lines can be put in front of another one, and the scan of both is the
scan of the first followed by the scan of the second, moved. That has two sides. The first text is
scanned as if nothing followed, because no reader looks past its last newline (`Scan.run_append`).
The second is scanned as if nothing stood before it: the two scans run side by side, one of them
with the first text's tokens in front and every place moved, and **`Scan.Follows`** is what stays
true of them at each lexeme. The one thing that is not the same is how much room there is for
tokens, so the scan of both texts may stop early; then it says that there are too many tokens.

An annotation at the end of the first text would be carried over to the second, and is what has to
be excluded.
-/

namespace FormScript

/-! ## Moving places behind a text -/

/-- The place, once some lines stand in front of its text. -/
def Position.behind (lines : List Char) (p : Position) : Position :=
  ⟨p.offset + byteLength lines, p.line + lines.count '\n', p.column⟩

/-- The span, once some lines stand in front of its text. -/
def Span.behind (lines : List Char) (s : Span) : Span :=
  ⟨s.start.behind lines, s.stop.behind lines⟩

/-- The token, once some lines stand in front of its text. -/
def Token.behind (lines : List Char) (t : Token) : Token := { t with span := t.span.behind lines }

/-- The error, once some lines stand in front of its text. -/
def LexError.behind (lines : List Char) (e : LexError) : LexError :=
  { e with span := e.span.behind lines }

/-- The switch, once so many tokens come before it. -/
def DialectSwitch.behind (count : Nat) (s : DialectSwitch) : DialectSwitch :=
  { s with tokenIndex := s.tokenIndex + count }

section Moving

variable (lines : List Char)

theorem Position.next_behind (p : Position) (c : Char) :
    (p.behind lines).next c = (p.next c).behind lines := by
  unfold Position.next Position.behind
  split
  · simp only [Position.mk.injEq, and_true]
    omega
  · simp only [Position.mk.injEq, and_true]
    omega

theorem Position.after_behind (p : Position) (cs : List Char) :
    (p.behind lines).after cs = (p.after cs).behind lines := by
  induction cs generalizing p with
  | nil => rfl
  | cons c cs ih => rw [Position.after_cons, Position.next_behind, ih, Position.after_cons]

/-- Behind whole lines, a text begins in the first column. -/
theorem Position.start_after_lines {lines : List Char} (h : lines.getLast? = some '\n') :
    Position.start.after lines = Position.start.behind lines := by
  have hoffset := Position.offset_after .start lines
  have hline := Position.line_after .start lines
  have hcolumn : (Position.start.after lines).column = 1 := by
    obtain ⟨init, rfl⟩ := List.getLast?_eq_some_iff.mp h
    rw [Position.after_append, Position.after_cons, Position.after_nil, Position.next, if_pos rfl]
  rw [Position.behind, Position.mk.injEq]
  exact ⟨hoffset, hline, hcolumn⟩

theorem memberTokens_behind (p : Position) (ws : List (List Char)) :
    memberTokens (p.behind lines) ws = (memberTokens p ws).map (·.behind lines) := by
  induction ws generalizing p with
  | nil => rfl
  | cons w ws ih =>
    rw [memberTokens, memberTokens, Position.next_behind, Position.after_behind, ih]
    rfl

theorem memberOpenings_behind (p : Position) (n : Nat) :
    memberOpenings (p.behind lines) n = (memberOpenings p n).map (·.behind lines) := by
  induction n with
  | zero => rfl
  | succ n ih =>
    rw [memberOpenings, memberOpenings, ih]
    rfl

/-- A lexeme stands for the same tokens wherever it stands. -/
theorem Lexeme.tokens_behind (l : Lexeme) (p : Position) :
    l.tokens (p.behind lines) = (l.tokens p).map (·.behind lines) := by
  unfold Lexeme.tokens
  split
  case h_6 first more _ =>
    dsimp only
    rw [memberOpenings_behind, Position.after_behind, memberTokens_behind, List.map_append]
    rfl
  case h_7 => rfl
  all_goals
    dsimp only
    rw [Position.after_behind]
    rfl

theorem Fault.errorAt_behind (f : Fault) (p : Position) (text : List Char) :
    f.errorAt (p.behind lines) text = (f.errorAt p text).behind lines := by
  unfold Fault.errorAt
  dsimp only
  rw [Position.after_behind, Position.after_behind]
  rfl

end Moving

namespace Scan

variable {track : Bool}

/-! ## The first text -/

/-- **Whole lines are scanned as if nothing followed.** -/
theorem run_append {lines : List Char} {s s' : Scan} (h : s.run track lines = .ok s')
    (hlast : ∀ c ∈ lines.getLast?, c = '\n') (more : List Char) :
    s.run track (lines ++ more) = s'.run track more := by
  fun_induction run track s lines with
  | case1 s =>
    cases h
    rfl
  | case2 => cases h
  | case3 => cases h
  | case4 s c cs l rest hread s'' haccept ih =>
    have hmem : '\n' ∈ c :: cs := by
      have hne : c :: cs ≠ [] := List.cons_ne_nil c cs
      rw [← hlast _ (List.getLast?_eq_some_getLast hne)]
      exact List.getLast_mem hne
    have hrest : ∀ d ∈ rest.getLast?, d = '\n' := by
      intro d hd
      refine hlast d ?_
      rw [← (Lexeme.read_eq hread).1, List.getLast?_append, Option.mem_def.mp hd]
      rfl
    rw [List.cons_append, run_cons_ok s (Lexeme.read_append hmem hread more), haccept]
    exact ih h hrest

theorem run_position {cs : List Char} {s : Scan} (h : run track {} cs = .ok s) :
    s.cursor.position = Position.start.after cs := by
  have hstep : ∀ {before c cs l rest s s'},
      (s : Scan).cursor.position = Position.start.after before →
      Lexeme.read c cs = .ok (l, rest) → s.accept track l = .ok s' →
      s'.cursor.position = Position.start.after (before ++ l.chars) := by
    intro before c cs l rest s s' hposition _ haccept
    rw [(accept_ok haccept).1, Cursor.position_after, hposition, Position.after_append]
  exact @run_invariant track (fun before _ s => s.cursor.position = Position.start.after before)
    hstep {} s [] cs rfl h

/-! ## The second text -/

/-- The second scan has come as far as the first one, behind some lines and their own scan. -/
structure Follows (lines : List Char) (base s t : Scan) : Prop where
  position : t.cursor.position = s.cursor.position.behind lines
  tokens : t.tokens.toList = base.tokens.toList ++ s.tokens.toList.map (·.behind lines)
  pending : t.pending = s.pending.map fun w => (w.1, w.2.behind lines)
  switches : t.switches.toList
    = base.switches.toList ++ s.switches.toList.map (·.behind base.tokens.size)

/-- What came of the two scans: both went on, or both stopped for the same reason, or the second
has no room for a token. -/
def Agree (lines : List Char) (base : Scan) (r r' : Except (LexError × Scan) Scan) : Prop :=
  (∃ n span t, r' = .error (⟨.tooManyTokens n, span⟩, t)) ∨
    match r with
    | .ok s => ∃ t, r' = .ok t ∧ Follows lines base s t
    | .error (e, _) => ∃ t, r' = .error (e.behind lines, t)

variable {lines : List Char} {base s t : Scan}

theorem Agree.bind {r r' : Except (LexError × Scan) Scan}
    {f g : Scan → Except (LexError × Scan) Scan} (h : Agree lines base r r')
    (hf : ∀ s t, Follows lines base s t → Agree lines base (f s) (g t)) :
    Agree lines base (r.bind f) (r'.bind g) := by
  rcases h with ⟨n, span, t, rfl⟩ | h
  · exact .inl ⟨n, span, t, rfl⟩
  · cases r with
    | ok s =>
      obtain ⟨t, rfl, hst⟩ := h
      exact hf s t hst
    | error e =>
      obtain ⟨t, rfl⟩ := h
      exact .inr ⟨t, rfl⟩

theorem Follows.agree (h : Follows lines base s t) : Agree lines base (.ok s) (.ok t) :=
  .inr ⟨t, rfl, h⟩

theorem Follows.size (h : Follows lines base s t) :
    t.tokens.size = base.tokens.size + s.tokens.size := by
  have := congrArg List.length h.tokens
  simpa using this

/-- One token more. There is no less room for it in the first scan. -/
theorem Follows.push (h : Follows lines base s t) (tok : Token) :
    Agree lines base (s.push track tok) (t.push track (tok.behind lines)) := by
  have hsize := h.size
  unfold Scan.push
  by_cases hroom : Limits.tokenCount ≤ t.tokens.size
  · rw [if_pos hroom]
    exact .inl ⟨_, _, _, rfl⟩
  · rw [if_neg hroom, if_neg (by omega)]
    refine Follows.agree ⟨h.position, ?_, rfl, h.switches⟩
    dsimp only
    rw [Array.toList_push, Array.toList_push, List.map_append, h.tokens, h.pending,
      Option.map_map, List.append_assoc]
    rfl

theorem Follows.foldlM_push (h : Follows lines base s t) (ts : List Token) :
    Agree lines base (ts.foldlM (Scan.push track) s)
      ((ts.map (·.behind lines)).foldlM (Scan.push track) t) := by
  induction ts generalizing s t with
  | nil => exact h.agree
  | cons tok ts ih =>
    rw [List.map_cons, List.foldlM_cons, List.foldlM_cons]
    exact (h.push tok).bind fun s t hst => ih hst

theorem Follows.observe (h : Follows lines base s t) (l : Lexeme) :
    Follows lines base (s.observe l) (t.observe l) := by
  unfold Scan.observe
  split
  case h_4 w =>
    refine ⟨h.position, h.tokens, ?_, h.switches⟩
    dsimp only
    rw [h.position, Position.after_behind]
    rfl
  case h_5 text dialect =>
    refine ⟨h.position, h.tokens, h.pending, ?_⟩
    dsimp only
    rw [Array.toList_push, Array.toList_push, List.map_append, h.switches, h.size,
      List.append_assoc, Nat.add_comm]
    rfl
  all_goals exact ⟨h.position, h.tokens, h.pending, h.switches⟩

theorem Follows.accept (h : Follows lines base s t) (l : Lexeme) :
    Agree lines base (s.accept track l) (t.accept track l) := by
  unfold Scan.accept
  dsimp only
  rw [h.position, Lexeme.tokens_behind]
  have hobserve := h.observe l
  have hmoved : ((t.observe l).cursor.after l.chars).position
      = ((s.observe l).cursor.after l.chars).position.behind lines := by
    rw [Cursor.position_after, Cursor.position_after, hobserve.position, Position.after_behind]
  exact Follows.foldlM_push (s := { s.observe l with cursor := _ })
    (t := { t.observe l with cursor := _ })
    ⟨hmoved, hobserve.tokens, hobserve.pending, hobserve.switches⟩ _

theorem run_cons_error (s : Scan) {c : Char} {cs : List Char} {f : Fault}
    (h : Lexeme.read c cs = .error f) :
    s.run track (c :: cs) = .error (f.errorAt s.cursor.position (c :: cs), s) := by
  rw [run]
  split
  · rename_i hf
    rw [h] at hf
    cases hf
    rfl
  · rename_i hr
    rw [h] at hr
    cases hr

/-- **The second text is scanned as if nothing stood before it**, lexeme by lexeme. -/
theorem Follows.run {s t : Scan} (h : Follows lines base s t) (cs : List Char) :
    Agree lines base (s.run track cs) (t.run track cs) := by
  cases cs with
  | nil =>
    rw [Scan.run, Scan.run]
    exact h.agree
  | cons c cs =>
    cases hread : Lexeme.read c cs with
    | error f =>
      rw [run_cons_error s hread, run_cons_error t hread, h.position, Fault.errorAt_behind]
      exact .inr ⟨t, rfl⟩
    | ok next =>
      obtain ⟨l, rest⟩ := next
      rw [run_cons_ok s hread, run_cons_ok t hread]
      exact (h.accept l).bind fun s t hst => hst.run rest
termination_by cs.length
decreasing_by exact Lexeme.read_length hread

theorem Follows.finish (h : Follows lines base s t) :
    Agree lines base (s.finish track) (t.finish track) := by
  have hclose : ∀ s t, Follows lines base s t → Follows lines base
      { s with
        tokens := s.tokens.push (.closing (.point s.cursor.position))
        tally := { s.tally with lines := s.cursor.lineStarts.size } }
      { t with
        tokens := t.tokens.push (.closing (.point t.cursor.position))
        tally := { t.tally with lines := t.cursor.lineStarts.size } } := by
    intro s t h
    refine ⟨h.position, ?_, h.pending, h.switches⟩
    dsimp only
    rw [Array.toList_push, Array.toList_push, List.map_append, h.tokens, h.position,
      List.append_assoc]
    rfl
  unfold Scan.finish
  rw [h.pending]
  cases hpending : s.pending with
  | none => exact (hclose s t h).agree
  | some w =>
    have hnone : Follows lines base { s with pending := none } { t with pending := none } :=
      ⟨h.position, h.tokens, rfl, h.switches⟩
    exact (hnone.push { kind := .ascription, text := w.1, span := w.2 }).bind
      fun s t hst => (hclose s t hst).agree

/-! ## Both texts -/

theorem not_mem_of_carriageReturn? {source : List Char} (h : carriageReturn? source = none) :
    '\r' ∉ source := by
  intro hmem
  have hlength : (source.takeWhile (· != '\r')).length < source.length := by
    have hdrop : '\r' ∈ source.dropWhile (· != '\r') := mem_dropWhile_of_mem hmem (by decide)
    have hpos := List.length_pos_of_mem hdrop
    have hsum := congrArg List.length
      (List.takeWhile_append_dropWhile (p := (· != '\r')) (l := source))
    rw [List.length_append] at hsum
    omega
  rw [carriageReturn?, if_pos hlength] at h
  cases h

theorem carriageReturn?_append {lines : List Char} (hlines : '\r' ∉ lines)
    (hlast : lines.getLast? = some '\n') (more : List Char) :
    carriageReturn? (lines ++ more) = (carriageReturn? more).map (·.behind lines) := by
  have hall : ∀ c ∈ lines, (c != '\r') = true := by
    intro c hc
    rw [bne_iff_ne]
    rintro rfl
    exact hlines hc
  unfold carriageReturn?
  dsimp only
  rw [List.takeWhile_append_of_pos hall, List.length_append, List.length_append]
  by_cases hlength : (more.takeWhile (· != '\r')).length < more.length
  · have herror : Fault.errorAt
        ⟨.carriageReturn, lines.length + (more.takeWhile (· != '\r')).length, 1⟩ .start
          (lines ++ more)
        = Fault.errorAt ⟨.carriageReturn, (more.takeWhile (· != '\r')).length, 1⟩
          (Position.start.after lines) more := by
      unfold Fault.errorAt
      dsimp only
      rw [List.take_length_add_append, List.drop_length_add_append, Position.after_append]
    rw [if_pos (by omega), if_pos hlength, herror, Position.start_after_lines hlast,
      Fault.errorAt_behind]
    rfl
  · rw [if_neg (by omega), if_neg hlength]
    rfl

/-- Scanning two texts at once, the first of which is whole lines. -/
theorem agree_ofSource {lines : List Char} {base : Scan} (hcr : carriageReturn? lines = none)
    (hlast : lines.getLast? = some '\n') (hrun : run track {} lines = .ok base)
    (hpending : base.pending = none) (more : List Char) :
    Agree lines base (ofSource more track) (ofSource (lines ++ more) track) := by
  have hstart : Follows lines base {} base := by
    refine ⟨?_, ?_, hpending, ?_⟩
    · rw [run_position hrun, Position.start_after_lines hlast]
      rfl
    · exact (List.append_nil _).symm
    · exact (List.append_nil _).symm
  have happend : run track {} (lines ++ more) = base.run track more :=
    run_append hrun (fun c hc => by simpa [hlast] using hc.symm) more
  unfold ofSource
  rw [carriageReturn?_append (not_mem_of_carriageReturn? hcr) hlast, happend]
  cases carriageReturn? more with
  | some e => exact .inr ⟨{}, rfl⟩
  | none => exact (hstart.run more).bind fun s t hst => hst.finish

/-- A scan that leaves no annotation behind as a token had none waiting. -/
theorem pending_eq_none_of_finish {s s' : Scan} (h : s.finish track = .ok s')
    (hkinds : ∀ t ∈ s'.tokens.toList, t.kind ≠ .ascription) : s.pending = none := by
  obtain ⟨-, -, htokens⟩ := finish_ok h
  cases hpending : s.pending with
  | none => rfl
  | some w =>
    refine absurd rfl (hkinds { kind := .ascription, text := w.1, span := w.2 } ?_)
    rw [htokens, hpending]
    simp

end Scan

/-- **Scanning is compositional at line ends.** Let some lines be scanned without an annotation left
over, and let there be room for the tokens of those lines and of a text behind them. Then lines and
text are scanned exactly if the text is. The tokens are those of the lines, the end of input apart,
and those of the text, moved; so are the switches of dialect; and an error is that of the text,
moved. -/
theorem tokenize_lines_append (track : Bool) (lines text : List Char) (first : TokenStream)
    (tally : Tally) (hfirst : tokenize lines track = .ok (first, tally))
    (hlast : lines.getLast? = some '\n') (hkinds : ∀ t ∈ first.remaining, t.kind ≠ .ascription)
    (hroom : ∀ n span, tokenize (lines ++ text) track ≠ .error ⟨.tooManyTokens n, span⟩) :
    ((∃ r, tokenize (lines ++ text) track = .ok r) ↔ ∃ r, tokenize text track = .ok r) ∧
    (∀ both second tally₁ tally₂, tokenize (lines ++ text) track = .ok (both, tally₁) →
      tokenize text track = .ok (second, tally₂) →
      both.remaining = first.remaining.dropLast ++ second.remaining.map (·.behind lines) ∧
        both.switches = first.switches
          ++ second.switches.map (·.behind first.remaining.dropLast.length)) ∧
    ∀ e, tokenize text track = .error e →
      tokenize (lines ++ text) track = .error (e.behind lines) := by
  obtain ⟨s, hs, rfl, -⟩ := Scan.ofSource_of_tokenize hfirst
  rw [Scan.stream_remaining hs] at hkinds ⊢
  obtain ⟨hcr, base, hrun, hfinish⟩ : Scan.carriageReturn? lines = none ∧
      ∃ base, Scan.run track {} lines = .ok base ∧ base.finish track = .ok s := by
    refine ⟨?_, Scan.ofSource_ok hs⟩
    cases hcr : Scan.carriageReturn? lines with
    | none => rfl
    | some e =>
      rw [Scan.ofSource, hcr] at hs
      cases hs
  have hpending := Scan.pending_eq_none_of_finish hfinish hkinds
  obtain ⟨-, hswitches, htokens⟩ := Scan.finish_ok hfinish
  rw [hpending, Option.map_none, Option.toList_none, List.append_nil] at htokens
  have hdrop : s.tokens.toList.dropLast = base.tokens.toList := by
    rw [htokens, List.dropLast_concat]
  rw [hdrop, Array.length_toList]
  -- What the two scans have come to; running out of room is excluded.
  have hagree := (Scan.agree_ofSource hcr hlast hrun hpending text).resolve_left (by
    rintro ⟨n, span, t, htoo⟩
    refine hroom n span ?_
    rw [tokenize, htoo])
  cases hsecond : Scan.ofSource text track with
  | error e =>
    obtain ⟨e, t⟩ := e
    rw [hsecond] at hagree
    obtain ⟨t', hboth⟩ := hagree
    have htext : tokenize text track = .error e := by rw [tokenize, hsecond]
    have happend : tokenize (lines ++ text) track = .error (e.behind lines) := by
      rw [tokenize, hboth]
    rw [htext, happend]
    refine ⟨?_, ?_, ?_⟩
    · simp
    · intro both second tally₁ tally₂ hok
      cases hok
    · intro e' he'
      cases he'
      rfl
  | ok u =>
    rw [hsecond] at hagree
    obtain ⟨t, hboth, hfollows⟩ := hagree
    have htext := Scan.tokenize_of_ofSource hsecond
    have happend := Scan.tokenize_of_ofSource hboth
    rw [htext, happend]
    refine ⟨⟨fun _ => ⟨_, rfl⟩, fun _ => ⟨_, rfl⟩⟩, ?_, ?_⟩
    · intro both second tally₁ tally₂ h₁ h₂
      cases h₁
      cases h₂
      rw [Scan.stream_remaining hboth, Scan.stream_remaining hsecond, hfollows.tokens]
      refine ⟨rfl, ?_⟩
      show t.switches.toList = s.switches.toList ++ u.switches.toList.map _
      rw [hfollows.switches, hswitches]
    · intro e he
      cases he

/-- A line with a comment that would open a string, in front of a pragma and a dotted name. -/
theorem tokenize_comment_then_name : ∃ first both second,
    (tokenize "x // it's\n".toList).toOption.map Prod.fst = some first ∧
    (tokenize "x // it's\n#lang = nih-sexpr\na.b".toList).toOption.map Prod.fst = some both ∧
    (tokenize "#lang = nih-sexpr\na.b".toList).toOption.map Prod.fst = some second ∧
    both.remaining = first.remaining.dropLast
      ++ second.remaining.map (·.behind "x // it's\n".toList) ∧
    both.switches = first.switches ++ second.switches.map (·.behind 1) := by
  have hfirst : ((tokenize "x // it's\n".toList).toOption.map fun r =>
      (r.1.remaining.dropLast.length, r.1.remaining.all (·.kind != .ascription)))
      = some (1, true) := by decide +kernel
  have hboth :
      (tokenize ("x // it's\n".toList ++ "#lang = nih-sexpr\na.b".toList)).isOk = true := by
    decide +kernel
  cases h₁ : tokenize "x // it's\n".toList with
  | error e =>
    rw [h₁] at hfirst
    cases hfirst
  | ok first =>
    cases h₂ : tokenize ("x // it's\n".toList ++ "#lang = nih-sexpr\na.b".toList) with
    | error e =>
      rw [h₂] at hboth
      cases hboth
    | ok both =>
      rw [h₁, Except.toOption, Option.map_some, Option.some.injEq, Prod.mk.injEq] at hfirst
      obtain ⟨hcount, hkinds⟩ := hfirst
      obtain ⟨hiff, hok, -⟩ := tokenize_lines_append false "x // it's\n".toList
        "#lang = nih-sexpr\na.b".toList first.1 first.2 h₁ (by decide +kernel)
        (fun t ht => by simpa using List.all_eq_true.mp hkinds t ht)
        (fun n span h => by rw [h₂] at h; cases h)
      obtain ⟨second, h₃⟩ := hiff.mp ⟨both, h₂⟩
      obtain ⟨htokens, hswitches⟩ := hok both.1 second.1 both.2 second.2 h₂ h₃
      rw [hcount] at hswitches
      refine ⟨first.1, both.1, second.1, rfl, ?_, ?_, htokens, hswitches⟩
      · rw [show "x // it's\n#lang = nih-sexpr\na.b".toList
          = "x // it's\n".toList ++ "#lang = nih-sexpr\na.b".toList by decide +kernel, h₂]
        rfl
      · rw [h₃]
        rfl

end FormScript
