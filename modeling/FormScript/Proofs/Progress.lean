import FormScript.Proofs.Bytewise.Nesting
import FormScript.Proofs.Places

/-!
# Scanning ends and moves on

The scanner by offsets, round by round: each round reads one lexeme and takes it in, so that it ends
behind at least one more character, and after as many rounds as there are bytes the text is used up.
`Bytewise.tokenize_eq` puts the rounds together: whatever the text, the result is that of `tokenize`
and never a crash, a round that does not move or too few rounds. `Scan.error_upright` adds that an
error is about some part of the text, unless there are too many tokens.
-/

namespace FormScript

namespace Bytewise

variable {source past rest : List Char} {track : Bool} {s : Scan}

/-! ## One round -/

theorem of_startsLineComment {c : Char} {cs : List Char}
    (h : Lexeme.startsLineComment (c :: cs) = true) : isAscii c = true ∧ c ≠ '\n' := by
  rw [startsLineComment_cons] at h
  split at h
  · rename_i hc
    exact ⟨by rw [hc]; rfl, by rw [hc]; decide⟩
  split at h
  · rename_i hc
    exact ⟨by rw [hc]; rfl, by rw [hc]; decide⟩
  · rw [beq_iff_eq] at h
    exact ⟨by rw [h]; rfl, by rw [h]; decide⟩

/-- **One round** by offsets is one lexeme read and taken in. -/
theorem next_eq {c : Char} {cs : List Char} (h : At source past (c :: cs) s) :
    next source track s.bytewise = ofRead track s (c :: cs) (Lexeme.read c cs) := by
  rw [next, h.offset, textFrom_eq h.split, Checked.ok_bind, Lexeme.read, atLineComment_eq h.split,
    startsWithAt_eq h.split (by simp; decide)]
  dsimp only
  split
  · rename_i hc
    subst hc
    rw [ofRead, accept_silent rfl, ← h.offset]
    exact congrArg Checked.ok h.beyond_newline
  rename_i hnewline
  split
  · rename_i hdigit
    exact number_eq h hdigit
  split
  · rename_i hquote
    exact string_eq h hquote
  split
  · rename_i hcomment
    exact lineComment_eq h (of_startsLineComment hcomment).1 hnewline
  split
  · rename_i hopen
    obtain ⟨tail, htail⟩ := List.isPrefixOf_iff_prefix.mp hopen
    rw [List.cons_append, List.singleton_append] at htail
    rw [← htail] at h ⊢
    injection htail with hc hcs
    rw [← hcs]
    exact h.comment_eq
  split
  · rename_i hcolon
    subst hcolon
    exact ascription_eq h
  · exact symbol_eq h hnewline

/-! ## Whole texts -/

/-- A scan that has come through `past`, with the annotation that waits, if there is one, at a
stretch of the text. -/
structure Runs (source past rest : List Char) (s : Scan) : Prop extends At source past rest s where
  pending : ∀ w span, s.pending = some (w, span) → ∃ a mid more, a ++ mid ++ more = source ∧
    span = ⟨Position.start.after a, (Position.start.after a).after mid⟩

theorem runs_start (source : List Char) : Runs source [] source {} :=
  ⟨⟨rfl, rfl⟩, by simp⟩

theorem Runs.accept {c : Char} {cs : List Char} {l : Lexeme} {s' : Scan}
    (h : Runs source past (c :: cs) s) (hread : Lexeme.read c cs = .ok (l, rest))
    (haccept : s.accept track l = .ok s') : Runs source (past ++ l.chars) rest s' := by
  obtain ⟨hcursor, -, hpending⟩ := Scan.accept_ok haccept
  have hsplit : past ++ l.chars ++ rest = source := by
    rw [List.append_assoc, (Lexeme.read_eq hread).1, h.split]
  refine ⟨⟨hsplit, by rw [hcursor, h.cursor, Cursor.after_append]⟩, ?_⟩
  intro w span hw
  rw [hpending] at hw
  split at hw
  · rcases Scan.observe_pending s l with heq | ⟨v, -, heq⟩
    · exact h.pending w span (heq ▸ hw)
    · rw [heq, Option.some.injEq, Prod.mk.injEq, h.position] at hw
      exact ⟨past, l.chars, rest, hsplit, hw.2.symm⟩
  · cases hw

theorem finish_eq (h : Runs source source [] s) :
    finish source track s.bytewise = .ofScan (s.finish track) := by
  have hknown (cs : List Char) (more : List Char) (hcs : cs ++ more = source) :
      Known s.cursor.lineStarts cs := ⟨more, by rw [hcs, h.cursor]⟩
  have hend (s' : Scan) (hs' : s'.cursor = s.cursor) :
      spanAt source s'.cursor.lineStarts (byteLength source) (byteLength source)
        = .ok (.point s'.cursor.position) := by
    rw [hs', spanAt_point (List.append_nil source) (hknown _ [] (by simp)), h.position]
  -- Behind the annotation that waits, if there is one, comes the end of the text.
  have hclose (s' : Scan) (hs' : s'.cursor = s.cursor) :
      (do
        let span ← spanAt source s'.bytewise.lineStarts (byteLength source) (byteLength source)
        .ok { s'.bytewise with
          tokens := s'.bytewise.tokens.push (.closing span)
          tally :=
            { s'.bytewise.tally with lines := s'.bytewise.lineStarts.size } } : Checked State)
        = .ofScan (.ok { s' with
          tokens := s'.tokens.push (.closing (.point s'.cursor.position))
          tally := { s'.tally with lines := s'.cursor.lineStarts.size } }) := by
    rw [show s'.bytewise.lineStarts = s'.cursor.lineStarts from rfl, hend s' hs']
    rfl
  rw [finish, Scan.finish, show s.bytewise.pending
    = s.pending.map fun p => (p.1, p.2.start.offset, p.2.stop.offset) from rfl]
  cases hpending : s.pending with
  | none => exact hclose s rfl
  | some p =>
    obtain ⟨w, span⟩ := p
    obtain ⟨a, mid, more, hsplit, rfl⟩ := h.pending w span hpending
    have hspan := spanAt_eq hsplit (hknown a (mid ++ more) (by rw [← List.append_assoc, hsplit]))
      (hknown (a ++ mid) more hsplit)
    have hpush := @pushToken_eq source track { s with pending := none }
      { kind := .ascription
        text := w
        span := ⟨Position.start.after a, (Position.start.after a).after mid⟩ } _ _ hspan
    rw [← Laid.offset_start_after a, ← Laid.offset_start_after (a ++ mid),
      Position.after_append] at hpush
    simp only [Option.map_some]
    rw [show pushToken source track .ascription w _ _ { s.bytewise with pending := none } = _
      from hpush]
    exact ofScan_bind _ _ _ fun s' hs' => hclose s' (by rw [push_cursor hs'])

theorem lineStarts_eq (k : Cursor) (cs : List Char) :
    (k.after cs).lineStarts.toList = k.lineStarts.toList ++ lineStartsIn k.position.offset cs := by
  induction cs generalizing k with
  | nil => simp [lineStartsIn]
  | cons c cs ih =>
    rw [Cursor.after_cons, ih, lineStartsIn, Cursor.next]
    dsimp only
    rw [Position.offset_next]
    split <;> simp

theorem takeWhile_of_mem_return (h : '\r' ∈ source) :
    ∃ after, source.takeWhile (· != '\r') ++ '\r' :: after = source := by
  have hsplit := @List.takeWhile_append_dropWhile _ (· != '\r') source
  have hhead := List.head?_dropWhile_not (· != '\r') source
  cases hrest : source.dropWhile (· != '\r') with
  | nil =>
    rw [hrest, List.append_nil] at hsplit
    rw [← hsplit] at h
    have := List.all_eq_true.mp List.all_takeWhile _ h
    simp at this
  | cons c after =>
    rw [hrest, List.head?_cons] at hhead
    simp only [bne_eq_false_iff_eq] at hhead
    rw [hrest, hhead] at hsplit
    exact ⟨after, hsplit⟩

theorem checkLineEnds_eq :
    checkLineEnds source = match Scan.carriageReturn? source with
      | none => .ok ()
      | some e => .error e := by
  rw [checkLineEnds]
  split
  · rename_i hmem
    obtain ⟨after, hsplit⟩ := takeWhile_of_mem_return hmem
    rw [Scan.carriageReturn?]
    generalize source.takeWhile (· != '\r') = before at *
    have hstarts : (0 :: lineStartsIn 0 before).toArray
        = (Cursor.start.after before).lineStarts := by
      rw [← Array.toList_inj, lineStarts_eq]
      rfl
    have hspan := @spanAt_eq source before ['\r'] after (Cursor.start.after before).lineStarts
      (by simpa using hsplit) (known_self before) (known_of_no_newline before (by simp))
    have hlt : before.length < source.length := by
      rw [← hsplit, List.length_append, List.length_cons]
      omega
    rw [← byteLength_snoc rfl] at hspan
    dsimp only
    rw [show (0 : Nat) = byteLength [] from rfl, ← List.nil_append before]
    rw [textBetween_eq (by rw [List.nil_append, hsplit]), Checked.ok_bind, List.nil_append,
      byteLength_nil, hstarts, hspan, if_pos hlt, ← hsplit, Fault.errorAt_append]
    rfl
  · rename_i hmem
    rw [Scan.carriageReturn?_eq_none hmem]

/-- A round that is not the last one. -/
theorem Runs.rounds_succ {c : Char} {cs : List Char} {fuel : Nat} {last : Option Nat}
    (h : Runs source past (c :: cs) s) (hlast : ∀ n, last = some n → n < byteLength past) :
    rounds source track (fuel + 1) last s.bytewise
      = outcome (ofRead track s (c :: cs) (Lexeme.read c cs))
        (rounds source track fuel (some s.bytewise.offset)) := by
  have hlt : byteLength past < byteLength source := by
    have := c.utf8Size_pos
    rw [← h.split, byteLength_append, byteLength_cons]
    omega
  rw [rounds, h.offset, if_pos hlt, if_neg (fun heq => Nat.lt_irrefl _ (hlast _ heq)),
    next_eq h.toAt]

/-- **Round after round** a text is scanned by offsets as it is by characters: no look goes wrong,
no round stays where it is, and one round more than the text has bytes is enough. -/
theorem rounds_eq {fuel : Nat} {last : Option Nat} (h : Runs source past rest s)
    (hfuel : byteLength rest < fuel) (hlast : ∀ n, last = some n → n < byteLength past) :
    rounds source track fuel last s.bytewise
      = .done (match (s.run track rest).bind (Scan.finish track) with
        | .error (e, _) => .error e
        | .ok s => .ok (s.stream source, s.tally)) := by
  obtain ⟨fuel, rfl⟩ : ∃ n, fuel = n + 1 := ⟨fuel - 1, by omega⟩
  -- The induction is on the scan by characters. The last round began before what has been read.
  fun_induction Scan.run track s rest generalizing past fuel last with
  | case1 s =>
    have hpast : past = source := by simpa using h.split
    subst hpast
    have hbind : (Except.ok s : Except (LexError × Scan) Scan).bind (Scan.finish track)
        = s.finish track := rfl
    rw [rounds, h.offset, if_neg (Nat.lt_irrefl _), finish_eq h, hbind]
    cases s.finish track with
    | error e => rfl
    | ok s' => rfl
  | case2 s c cs f hread =>
    rw [h.rounds_succ hlast, hread]
    rfl
  | case3 s c cs l rest hread e haccept =>
    rw [h.rounds_succ hlast, hread, ofRead, haccept]
    rfl
  | case4 s c cs l rest hread s' haccept ih =>
    obtain ⟨hchars, hne⟩ := Lexeme.read_eq hread
    have hpos := List.length_pos_iff.mpr hne
    have hbytes := length_le_byteLength l.chars
    rw [← hchars, byteLength_append] at hfuel
    obtain ⟨fuel, rfl⟩ : ∃ n, fuel = n + 1 := ⟨fuel - 1, by omega⟩
    rw [h.rounds_succ hlast, hread, ofRead, haccept]
    refine ih (h.accept hread haccept) ?_ fuel (by omega)
    intro n hn
    rw [← Option.some.inj hn, h.offset, byteLength_append]
    omega

theorem tokenize_eq {fuel : Nat} (hfuel : byteLength source < fuel) :
    tokenize source track fuel = .done (FormScript.tokenize source track) := by
  rw [tokenize, checkLineEnds_eq, FormScript.tokenize, Scan.ofSource]
  cases Scan.carriageReturn? source with
  | some e => rfl
  | none =>
    exact rounds_eq (runs_start source) hfuel (by simp)

/-- The states that the main loop comes through. -/
inductive Reaches (source : List Char) (track : Bool) : State → Prop where
  | start : Reaches source track {}
  | next {m m' : State} (reaches : Reaches source track m) (before : m.offset < byteLength source)
      (step : next source track m = .ok m') : Reaches source track m'

theorem Runs.exists_cons (h : Runs source past rest s)
    (hlt : s.bytewise.offset < byteLength source) : ∃ c cs, rest = c :: cs := by
  cases rest with
  | nil =>
    rw [h.offset, ← h.split, List.append_nil] at hlt
    exact absurd hlt (Nat.lt_irrefl _)
  | cons c cs => exact ⟨c, cs, rfl⟩

theorem ofRead_ne_crash (cs : List Char) (r : Except Fault (Lexeme × List Char)) :
    ofRead track s cs r ≠ .crash := by
  intro hcrash
  cases r with
  | error f => cases hcrash
  | ok r =>
    rw [ofRead] at hcrash
    cases haccept : s.accept track r.1 with
    | error e => rw [haccept] at hcrash; cases hcrash
    | ok s' => rw [haccept] at hcrash; cases hcrash

theorem exists_accept_of_ofRead {cs : List Char} {r : Except Fault (Lexeme × List Char)} {m : State}
    (h : ofRead track s cs r = .ok m) :
    ∃ l rest s', r = .ok (l, rest) ∧ s.accept track l = .ok s' ∧ m = s'.bytewise := by
  cases r with
  | error f => cases h
  | ok r =>
    rw [ofRead] at h
    cases haccept : s.accept track r.1 with
    | error e => rw [haccept] at h; cases h
    | ok s' =>
      rw [haccept] at h
      cases h
      exact ⟨r.1, r.2, s', rfl, haccept, rfl⟩

/-- A round that goes well takes in a lexeme, so it moves on and stays within the text. -/
theorem Runs.next_ok {m' : State} {c : Char} {cs : List Char} (h : Runs source past (c :: cs) s)
    (hnext : next source track s.bytewise = .ok m') :
    ∃ past' rest' s', Runs source past' rest' s' ∧ m' = s'.bytewise ∧
      byteLength past < byteLength past' := by
  rw [next_eq h.toAt] at hnext
  obtain ⟨l, rest', s', hread, haccept, hm'⟩ := exists_accept_of_ofRead hnext
  -- A lexeme has at least one character, and that has at least one byte.
  have hpos := List.length_pos_iff.mpr (Lexeme.read_eq hread).2
  have hbytes := length_le_byteLength l.chars
  refine ⟨past ++ l.chars, rest', s', h.accept hread haccept, hm', ?_⟩
  rw [byteLength_append]
  omega

theorem Reaches.exists_runs {m : State} (h : Reaches source track m) :
    ∃ s past rest, Runs source past rest s ∧ m = s.bytewise := by
  induction h with
  | start => exact ⟨{}, [], source, runs_start source, rfl⟩
  | next _ before step ih =>
    obtain ⟨s, past, rest, hruns, rfl⟩ := ih
    obtain ⟨c, cs, rfl⟩ := hruns.exists_cons before
    obtain ⟨past', rest', s', hruns', rfl, -⟩ := hruns.next_ok step
    exact ⟨s', past', rest', hruns', rfl⟩

end Bytewise

/-! ## Where errors point -/

/-- A fault concerns at least one of the characters ahead. -/
def Fault.IsAhead (f : Fault) (cs : List Char) : Prop := f.skip < cs.length ∧ 0 < f.width

theorem Lexeme.lt_of_longWord? {ws : List (List Char)} {skip : Nat} {f : Fault}
    (h : longWord? ws skip = some f) :
    f.skip + f.width < skip + (ws.flatMap ('.' :: ·)).length ∧ 0 < f.width := by
  induction ws generalizing skip with
  | nil => cases h
  | cons w ws ih =>
    rw [longWord?] at h
    rw [List.flatMap_cons, List.length_append, List.length_cons]
    split at h
    · rename_i hlong
      cases h
      exact ⟨by dsimp only; omega, Nat.lt_of_le_of_lt (Nat.zero_le _) hlong⟩
    · have := ih h
      omega

/-- A fault of a block comment concerns characters that were read or come next. -/
theorem Lexeme.lt_of_readBlockComment {k : CommentState} {cs : List Char} {f : Fault}
    (hk : ∀ i ∈ k.innermost :: k.outer, i < k.chars) (h : readBlockComment k cs = .error f) :
    f.skip < k.chars + cs.length ∧ 0 < f.width := by
  have hpos : 0 < k.chars := Nat.lt_of_le_of_lt (Nat.zero_le _) (hk _ List.mem_cons_self)
  fun_induction readBlockComment k cs with
  | case1 k =>
    cases h
    exact ⟨hk _ List.mem_cons_self, Nat.zero_lt_two⟩
  | case2 k cs hdepth =>
    cases h
    exact ⟨by dsimp only [List.length_cons]; omega, Nat.zero_lt_two⟩
  | case3 k cs hdepth hlong =>
    cases h
    exact ⟨by dsimp only; omega, Nat.zero_lt_two⟩
  | case4 k cs hdepth hlong ih =>
    have := ih (by
      intro i hi
      rcases List.mem_cons.mp hi with rfl | hi
      · exact Nat.lt_add_of_pos_right Nat.zero_lt_two
      · exact Nat.lt_add_right 2 (hk i hi)) h (by dsimp only; omega)
    dsimp only [List.length_cons] at this ⊢
    omega
  | case5 k cs hlong =>
    cases h
    exact ⟨by dsimp only; omega, Nat.zero_lt_two⟩
  | case6 => cases h
  | case7 k cs hlong next outer houter ih =>
    have := ih (by
      intro i hi
      exact Nat.lt_add_right 2 (hk i (List.mem_cons_of_mem _ (houter ▸ hi)))) h
      (by dsimp only; omega)
    dsimp only [List.length_cons] at this ⊢
    omega
  | case8 k c cs =>
    cases h
    exact ⟨by dsimp only; omega, Nat.zero_lt_two⟩
  | case9 k c cs hopen hclose hlong ih =>
    have := ih (fun i hi => Nat.lt_add_right 1 (hk i hi)) h (by dsimp only; omega)
    dsimp only [List.length_cons] at this ⊢
    omega

theorem Lexeme.readString_isAhead {c : Char} {cs : List Char} {f : Fault}
    (h : readString c cs = .error f) : f.IsAhead (c :: cs) := by
  have hdelimiter := List.length_pos_iff.mpr (delimiterOf_eq c cs).2
  unfold readString at h
  dsimp only at h
  split at h
  · cases h
    exact ⟨Nat.zero_lt_succ _, hdelimiter⟩
  split at h
  · cases h
    exact ⟨Nat.zero_lt_succ _, hdelimiter⟩
  · cases h

theorem Lexeme.readComment_isAhead {a b : Char} {cs : List Char} {f : Fault}
    (h : readComment cs = .error f) : f.IsAhead (a :: b :: cs) := by
  unfold readComment at h
  split at h
  · rename_i f' hread
    cases h
    obtain ⟨hlt, hwidth⟩ := lt_of_readBlockComment (by simp) hread
    refine ⟨?_, hwidth⟩
    rw [List.length_cons, List.length_cons]
    dsimp only at hlt
    omega
  · cases h

theorem Lexeme.readName_isAhead {cs : List Char} {f : Fault} (h : readName cs = .error f) :
    f.IsAhead cs := by
  unfold readName at h
  dsimp only at h
  split at h
  · rename_i f' hlong
    cases h
    obtain ⟨hlt, hwidth⟩ := lt_of_longWord? hlong
    refine ⟨?_, hwidth⟩
    have hsplit := congrArg List.length (@List.takeWhile_append_dropWhile _ isWordChar cs)
    have hmore := congrArg List.length (readMore_eq [] (cs.dropWhile isWordChar))
    rw [List.length_append] at hsplit
    rw [List.reverse_nil, List.flatMap_nil, List.nil_append, List.length_append] at hmore
    rw [List.flatMap_cons, List.length_append, List.length_cons] at hlt
    omega
  · cases h

theorem Lexeme.readOther_isAhead {c : Char} {cs : List Char} {f : Fault}
    (h : readOther c cs = .error f) : f.IsAhead (c :: cs) := by
  unfold readOther at h
  split at h
  · unfold readPragma at h
    split at h
    · cases h
    · cases h
      refine ⟨Nat.zero_lt_succ _, ?_⟩
      dsimp only
      rw [trimEnd_cons (by decide)]
      exact Nat.zero_lt_succ _
  split at h
  · exact readName_isAhead h
  split at h
  · cases h
  · cases h
    exact ⟨Nat.zero_lt_succ _, Nat.zero_lt_one⟩

/-- **What reading blames** is there to be blamed. -/
theorem Lexeme.read_isAhead {c : Char} {cs : List Char} {f : Fault} (h : read c cs = .error f) :
    f.IsAhead (c :: cs) := by
  unfold read at h
  split at h
  · cases h
  split at h
  · cases h
  split at h
  · exact readString_isAhead h
  split at h
  · unfold readLineComment at h
    dsimp only at h
    split at h
    · cases h
      exact ⟨Nat.zero_lt_succ _, Nat.zero_lt_one⟩
    · cases h
  split at h
  · rename_i hopen
    obtain ⟨tail, htail⟩ := List.isPrefixOf_iff_prefix.mp hopen
    rw [List.cons_append, List.singleton_append] at htail
    injection htail with hc hcs
    subst hcs
    exact readComment_isAhead h
  split at h
  · unfold readAscription at h
    split at h
    · cases h
    · cases h
      exact ⟨Nat.zero_lt_succ _, Nat.zero_lt_one⟩
  unfold readSymbol at h
  split at h
  · cases h
  split at h
  · cases h
  · exact readOther_isAhead h

theorem Position.offset_le_after (p : Position) (cs : List Char) :
    p.offset ≤ (p.after cs).offset := by
  rw [Position.offset_after]
  omega

/-- No token ends before it begins. -/
theorem Lexeme.tokens_upright {l : Lexeme} {p : Position} {t : Token} (h : t ∈ l.tokens p) :
    t.span.start.offset ≤ t.span.stop.offset := by
  have hmembers (p : Position) (ws : List (List Char)) (h : t ∈ memberTokens p ws) :
      t.span.start.offset ≤ t.span.stop.offset := by
    induction ws generalizing p with
    | nil => cases h
    | cons w ws ih =>
      simp only [memberTokens, List.mem_cons] at h
      rcases h with rfl | rfl | h
      · exact Position.offset_le_after _ _
      · exact Nat.le_refl _
      · exact ih _ h
  unfold Lexeme.tokens at h
  dsimp only at h
  split at h
  case h_6 first more _ =>
    rcases List.mem_append.mp h with h | h
    · rw [memberOpenings_span h]
      exact Nat.le_refl _
    rcases List.mem_cons.mp h with rfl | h
    · exact Position.offset_le_after _ _
    · exact hmembers _ _ h
  case h_7 => cases h
  all_goals
    rw [List.mem_singleton] at h
    subst h
    exact Position.offset_le_after _ _

theorem Scan.push_cause {track : Bool} {s s' : Scan} {t : Token} {e : LexError}
    (h : push track s t = .error (e, s')) : ∃ n, e.cause = .tooManyTokens n := by
  unfold push at h
  split at h
  · cases h
    exact ⟨_, rfl⟩
  · cases h

theorem Scan.foldlM_push_cause {track : Bool} {s s' : Scan} {ts : List Token} {e : LexError}
    (h : ts.foldlM (push track) s = .error (e, s')) : ∃ n, e.cause = .tooManyTokens n := by
  induction ts generalizing s with
  | nil => cases h
  | cons t ts ih =>
    rw [List.foldlM_cons] at h
    cases hpush : push track s t with
    | ok s₁ =>
      rw [hpush] at h
      exact ih h
    | error r =>
      rw [hpush] at h
      cases h
      exact push_cause hpush

theorem Scan.finish_cause {track : Bool} {s s' : Scan} {e : LexError}
    (h : s.finish track = .error (e, s')) : ∃ n, e.cause = .tooManyTokens n := by
  unfold finish at h
  split at h
  · cases h
  · rename_i w span _
    cases hpush : push track { s with pending := none }
        { kind := .ascription, text := w, span } with
    | ok s₁ =>
      rw [hpush] at h
      cases h
    | error r =>
      rw [hpush] at h
      cases h
      exact push_cause hpush

theorem Fault.lt_errorAt {f : Fault} {text : List Char} (p : Position)
    (h : f.IsAhead text) :
    (f.errorAt p text).span.start.offset < (f.errorAt p text).span.stop.offset := by
  obtain ⟨hskip, hwidth⟩ := h
  have hlength := length_le_byteLength ((text.drop f.skip).take f.width)
  rw [List.length_take, List.length_drop] at hlength
  rw [Fault.errorAt]
  dsimp only
  rw [Position.offset_after _ ((text.drop f.skip).take f.width)]
  omega

theorem Scan.ofSource_of_tokenize_error {source : List Char} {track : Bool} {e : LexError}
    (h : tokenize source track = .error e) : ∃ s, ofSource source track = .error (e, s) := by
  unfold tokenize at h
  split at h
  · rename_i e' s hsource
    cases h
    exact ⟨s, hsource⟩
  · cases h

/-- The span of an error covers some text, unless there were too many tokens: then it is that of the
first token too many, which may cover none. -/
theorem Scan.error_upright {source : List Char} {track : Bool} {s : Scan} {e : LexError}
    (h : ofSource source track = .error (e, s)) :
    e.span.start.offset < e.span.stop.offset ∨
      (∃ n, e.cause = .tooManyTokens n) ∧ e.span.start.offset ≤ e.span.stop.offset := by
  unfold ofSource at h
  split at h
  · -- A carriage return is looked for first, and is one character wide.
    rename_i e' hreturn
    cases h
    unfold carriageReturn? at hreturn
    dsimp only at hreturn
    split at hreturn
    · rename_i hlt
      cases hreturn
      exact .inl (Fault.lt_errorAt _ ⟨hlt, Nat.zero_lt_one⟩)
    · cases hreturn
  cases hrun : run track {} source with
  | error r =>
    rw [hrun] at h
    cases h
    obtain ⟨before, c, cs, s', -, -, hcases⟩ :=
      run_error Bytewise.Runs.accept (Bytewise.runs_start source) hrun
    rcases hcases with ⟨f, hread, rfl⟩ | ⟨l, rest, -, haccept⟩
    · exact .inl (Fault.lt_errorAt _ (Lexeme.read_isAhead hread))
    · obtain ⟨t, ht, hspan⟩ := accept_error haccept
      rw [hspan]
      exact .inr ⟨foldlM_push_cause haccept, Lexeme.tokens_upright ht⟩
  | ok s' =>
    rw [hrun] at h
    have hruns := run_invariant Bytewise.Runs.accept (Bytewise.runs_start source) hrun
    obtain ⟨w, span, hpending, hspan⟩ := finish_error h
    obtain ⟨a, mid, -, -, rfl⟩ := hruns.pending w span hpending
    rw [hspan]
    exact .inr ⟨finish_cause h, Position.offset_le_after _ _⟩

/-- **Scanning by offsets goes well on every text.** It takes at most one round for each byte and
one to close the list, and ends with what `tokenize` says, so on the way nothing is looked up,
subtracted or spanned that is not there, and no round stays where it is. A round begins between two
characters and, if it goes well, ends further on and still within the text. An error covers some of
the text, but for the one that there are too many tokens. -/
theorem scan_by_offsets_total (source : List Char) (track : Bool) :
    (∀ fuel, byteLength source < fuel →
      Bytewise.tokenize source track fuel = .done (tokenize source track)) ∧
    (∀ m, Bytewise.Reaches source track m →
      (∃ past rest, past ++ rest = source ∧ m.offset = byteLength past) ∧
      (m.offset < byteLength source → Bytewise.next source track m ≠ .crash ∧
        ∀ m', Bytewise.next source track m = .ok m' →
          m.offset < m'.offset ∧ m'.offset ≤ byteLength source)) ∧
    ∀ e, tokenize source track = .error e →
      e.span.IsIn source ∧ e.span.start.offset ≤ e.span.stop.offset ∧
        (e.span.start.offset = e.span.stop.offset → ∃ n, e.cause = .tooManyTokens n) := by
  refine ⟨fun fuel => Bytewise.tokenize_eq, ?_, ?_⟩
  · intro m hm
    obtain ⟨s, past, rest, hruns, rfl⟩ := hm.exists_runs
    refine ⟨⟨past, rest, hruns.split, hruns.offset⟩, fun hlt => ?_⟩
    obtain ⟨c, cs, rfl⟩ := hruns.exists_cons hlt
    refine ⟨?_, fun m' hnext => ?_⟩
    · rw [Bytewise.next_eq hruns.toAt]
      exact Bytewise.ofRead_ne_crash _ _
    obtain ⟨past', rest', s', hruns', rfl, hmoved⟩ := hruns.next_ok hnext
    rw [hruns.offset, hruns'.offset, ← hruns'.split, byteLength_append]
    exact ⟨hmoved, Nat.le_add_right _ _⟩
  · intro e he
    obtain ⟨s, hsource⟩ := Scan.ofSource_of_tokenize_error he
    refine ⟨Scan.error_isIn hsource, ?_⟩
    rcases Scan.error_upright hsource with hlt | ⟨hcause, hle⟩
    · exact ⟨Nat.le_of_lt hlt, fun heq => absurd heq (Nat.ne_of_lt hlt)⟩
    · exact ⟨hle, fun _ => hcause⟩

/-- A string and a letter that begins no token, both with more bytes than characters. -/
def accentedSource : List Char := ['\x22', 'ü', '\x22', ' ', 'é']

theorem accentedSource_by_offsets :
    Bytewise.tokenize accentedSource false 8 = .done (tokenize accentedSource false) ∧
    (∃ m, Bytewise.next accentedSource false {} = .ok m ∧
      0 < m.offset ∧ m.offset ≤ byteLength accentedSource) ∧
    ∃ e, tokenize accentedSource false = .error e ∧ e.span.IsIn accentedSource ∧
      e.span.start.offset ≠ e.span.stop.offset := by
  obtain ⟨hdone, hmoves, herror⟩ := scan_by_offsets_total accentedSource false
  have hdone := hdone 8 (by decide)
  refine ⟨hdone, ?_, ?_⟩
  · have hstep : ∃ m, Bytewise.next accentedSource false {} = .ok m := ⟨_, rfl⟩
    obtain ⟨m, hm⟩ := hstep
    exact ⟨m, hm, ((hmoves _ .start).2 (by decide)).2 m hm⟩
  · have hbytes : Bytewise.tokenize accentedSource false 8
        = .done (.error ⟨.invalidCharacter 'é', ⟨⟨5, 1, 5⟩, ⟨7, 1, 6⟩⟩⟩) := rfl
    have he := Bytewise.Outcome.done.inj (hdone.symm.trans hbytes)
    obtain ⟨hin, -, hwide⟩ := herror _ he
    exact ⟨_, he, hin, fun heq => by obtain ⟨n, hn⟩ := hwide heq; cases hn⟩

end FormScript
