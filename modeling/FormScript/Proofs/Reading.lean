import FormScript.Token.Scan
import FormScript.Proofs.Location

/-!
# A scan, lexeme by lexeme

What a scan does to a text happens in two steps that do not know of each other. The text is cut
into lexemes (`Reads`), each of which depends on the characters ahead only; then the lexemes are
taken in from left to right, and what one of them adds depends on the place it stands at and on
the annotation that is waiting. `Scan.run_of_reads` takes a run apart into these two steps, and
`Scan.accept_ok` says all that taking in one lexeme does to cursor, tokens and waiting annotation.
What an invariant of the second step gives for whole runs is `Scan.run_invariant`. Later proofs use
these and never open the scanner again.
-/

namespace FormScript

/-- A text and the lexemes that it is read as, one behind the other. -/
inductive Reads : List Char → List Lexeme → Prop
  | nil : Reads [] []
  | cons {c : Char} {cs rest : List Char} {l : Lexeme} {ls : List Lexeme}
      (first : Lexeme.read c cs = .ok (l, rest)) (more : Reads rest ls) : Reads (c :: cs) (l :: ls)

/-! ## Tokens of a lexeme -/

/-- The spans of the tokens begin and end inside the text behind `p`. -/
theorem memberTokens_span {p : Position} {ws : List (List Char)} {t : Token}
    (h : t ∈ memberTokens p ws) :
    ∃ a b, a <+: ws.flatMap ('.' :: ·) ∧ b <+: ws.flatMap ('.' :: ·) ∧
      t.span = ⟨p.after a, p.after b⟩ := by
  induction ws generalizing p with
  | nil => simp [memberTokens] at h
  | cons w ws ih =>
    have hword : '.' :: w <+: ('.' :: w) ++ ws.flatMap ('.' :: ·) := List.prefix_append _ _
    rw [List.flatMap_cons]
    simp only [memberTokens, List.mem_cons] at h
    rcases h with rfl | rfl | h
    · refine ⟨['.'], '.' :: w, ?_, hword, rfl⟩
      exact List.prefix_append ['.'] (w ++ ws.flatMap ('.' :: ·))
    · exact ⟨'.' :: w, '.' :: w, hword, hword, rfl⟩
    · obtain ⟨a, b, ha, hb, hspan⟩ := ih h
      refine ⟨('.' :: w) ++ a, ('.' :: w) ++ b, ?_, ?_, ?_⟩
      · exact (List.prefix_append_right_inj _).mpr ha
      · exact (List.prefix_append_right_inj _).mpr hb
      · rw [hspan, Position.after_append, Position.after_append]
        rfl

theorem memberOpenings_span {p : Position} {n : Nat} {t : Token} (h : t ∈ memberOpenings p n) :
    t.span = .point p := by
  induction n with
  | zero => simp [memberOpenings] at h
  | succ n ih =>
    simp only [memberOpenings, List.mem_cons] at h
    rcases h with rfl | rfl | h
    · rfl
    · rfl
    · exact ih h

/-- The spans of a lexeme's tokens begin and end inside the lexeme. -/
theorem Lexeme.tokens_span {l : Lexeme} {p : Position} {t : Token} (h : t ∈ l.tokens p) :
    ∃ a b, a <+: l.chars ∧ b <+: l.chars ∧ t.span = ⟨p.after a, p.after b⟩ := by
  have whole : t.span = ⟨p, p.after l.chars⟩ →
      ∃ a b, a <+: l.chars ∧ b <+: l.chars ∧ t.span = ⟨p.after a, p.after b⟩ :=
    fun hspan => ⟨[], l.chars, List.nil_prefix, List.prefix_rfl, hspan⟩
  unfold Lexeme.tokens at h
  dsimp only at h
  split at h
  case h_6 first more _ =>
    have hfirst : first <+: (name first more).chars := List.prefix_append _ _
    rcases List.mem_append.mp h with h | h
    · rw [memberOpenings_span h]
      exact ⟨[], [], List.nil_prefix, List.nil_prefix, rfl⟩
    rcases List.mem_cons.mp h with rfl | h
    · exact ⟨[], first, List.nil_prefix, hfirst, rfl⟩
    · obtain ⟨a, b, ha, hb, hspan⟩ := memberTokens_span h
      refine ⟨first ++ a, first ++ b, ?_, ?_, ?_⟩
      · exact (List.prefix_append_right_inj _).mpr ha
      · exact (List.prefix_append_right_inj _).mpr hb
      · rw [hspan, Position.after_append, Position.after_append]
  case h_7 => simp at h
  all_goals
    rw [List.mem_singleton] at h
    subst h
    exact whole rfl

/-- Tokens come without annotations out of a lexeme, and none of them is an annotation or an end of
input. -/
theorem memberTokens_ascription {p : Position} {ws : List (List Char)} {t : Token}
    (h : t ∈ memberTokens p ws) :
    t.ascription = none ∧ t.kind ≠ .ascription ∧ t.kind ≠ .eof := by
  induction ws generalizing p with
  | nil => simp [memberTokens] at h
  | cons w ws ih =>
    simp only [memberTokens, List.mem_cons] at h
    rcases h with rfl | rfl | h
    · exact ⟨rfl, by simp⟩
    · exact ⟨rfl, by simp⟩
    · exact ih h

theorem memberOpenings_ascription {p : Position} {n : Nat} {t : Token}
    (h : t ∈ memberOpenings p n) :
    t.ascription = none ∧ t.kind ≠ .ascription ∧ t.kind ≠ .eof := by
  induction n with
  | zero => simp [memberOpenings] at h
  | succ n ih =>
    simp only [memberOpenings, List.mem_cons] at h
    rcases h with rfl | rfl | h
    · exact ⟨rfl, by simp⟩
    · exact ⟨rfl, by simp⟩
    · exact ih h

theorem Lexeme.tokens_ascription {l : Lexeme} {p : Position} {t : Token} (h : t ∈ l.tokens p) :
    t.ascription = none ∧ t.kind ≠ .ascription ∧ t.kind ≠ .eof := by
  unfold Lexeme.tokens at h
  dsimp only at h
  split at h
  case h_6 =>
    rcases List.mem_append.mp h with h | h
    · exact memberOpenings_ascription h
    rcases List.mem_cons.mp h with rfl | h
    · exact ⟨rfl, by simp⟩
    · exact memberTokens_ascription h
  case h_5 =>
    rw [List.mem_singleton] at h
    subst h
    refine ⟨rfl, ?_⟩
    dsimp only
    split <;> simp
  case h_7 => simp at h
  all_goals
    rw [List.mem_singleton] at h
    subst h
    exact ⟨rfl, by simp⟩

/-! ## Taking lexemes in -/

/-- The annotation that waits rides on the first of some tokens, and on that one only. -/
def carry (waiting : Option String) : List Token → List Token
  | [] => []
  | t :: ts => { t with ascription := waiting } :: carry none ts

theorem carry_none {ts : List Token} (h : ∀ t ∈ ts, t.ascription = none) :
    carry none ts = ts := by
  induction ts with
  | nil => rfl
  | cons t ts ih =>
    rw [carry, ih fun u hu => h u (List.mem_cons_of_mem _ hu)]
    congr 1
    rw [← h t List.mem_cons_self]

theorem length_carry (waiting : Option String) (ts : List Token) :
    (carry waiting ts).length = ts.length := by
  induction ts generalizing waiting with
  | nil => rfl
  | cons t ts ih => rw [carry, List.length_cons, ih, List.length_cons]

theorem exists_of_mem_carry {waiting : Option String} {ts : List Token} {t : Token}
    (h : t ∈ carry waiting ts) :
    ∃ u ∈ ts, ∃ a, (a = none ∨ a = waiting) ∧ t = { u with ascription := a } := by
  induction ts generalizing waiting with
  | nil => simp [carry] at h
  | cons u us ih =>
    rw [carry, List.mem_cons] at h
    rcases h with rfl | h
    · exact ⟨u, List.mem_cons_self, waiting, .inr rfl, rfl⟩
    · obtain ⟨v, hv, a, ha, hsame⟩ := ih h
      refine ⟨v, List.mem_cons_of_mem _ hv, a, .inl ?_, hsame⟩
      exact ha.elim id id

theorem mem_carry {waiting : Option String} {ts : List Token} {t : Token}
    (h : t ∈ carry waiting ts) : ∃ u ∈ ts, t.kind = u.kind ∧ t.span = u.span := by
  obtain ⟨u, hu, a, -, rfl⟩ := exists_of_mem_carry h
  exact ⟨u, hu, rfl, rfl⟩

/-- The tokens of lexemes, the first of which stands at a position. -/
def tokensFrom (p : Position) : List Lexeme → List Token
  | [] => []
  | l :: ls => l.tokens p ++ tokensFrom (p.after l.chars) ls

theorem tokensFrom_append (p : Position) (ls ms : List Lexeme) :
    tokensFrom p (ls ++ ms)
      = tokensFrom p ls ++ tokensFrom (p.after (ls.flatMap Lexeme.chars)) ms := by
  induction ls generalizing p with
  | nil => rfl
  | cons l ls ih =>
    rw [List.cons_append, tokensFrom, tokensFrom, ih, List.flatMap_cons, Position.after_append,
      List.append_assoc]

/-- Neither an annotation nor a pragma. -/
def Lexeme.isQuiet : Lexeme → Bool
  | ascription _ | pragma _ _ => false
  | _ => true

namespace Scan

/-- The annotation that waits. -/
def waiting (s : Scan) : Option String := s.pending.map Prod.fst

theorem foldlM_push_ok {track : Bool} {s s' : Scan} {ts : List Token}
    (h : ts.foldlM (push track) s = .ok s') :
    s'.cursor = s.cursor ∧ s'.switches = s.switches ∧
      s'.tokens.toList = s.tokens.toList ++ carry s.waiting ts ∧
      s'.pending = if ts = [] then s.pending else none := by
  induction ts generalizing s with
  | nil =>
    obtain rfl : s = s' := by simpa [pure, Except.pure] using h
    simp [carry]
  | cons t ts ih =>
    rw [List.foldlM_cons] at h
    unfold push at h
    split at h
    · simp [bind, Except.bind] at h
    · obtain ⟨hcursor, hswitches, htokens, hpending⟩ := ih h
      refine ⟨hcursor, hswitches, ?_, ?_⟩
      · rw [htokens]
        simp [carry, waiting]
      · rw [hpending]
        simp

/-- A scan that has room for the tokens takes them. -/
theorem foldlM_push_of_le {track : Bool} (s : Scan) {ts : List Token}
    (h : s.tokens.size + ts.length ≤ Limits.tokenCount) :
    ∃ s', ts.foldlM (push track) s = .ok s' := by
  induction ts generalizing s with
  | nil => exact ⟨s, rfl⟩
  | cons t ts ih =>
    rw [List.length_cons] at h
    rw [List.foldlM_cons, push, if_neg (by omega)]
    refine ih _ ?_
    simp only [Array.size_push]
    omega

/-- A token for which there is no room is what the error is about. -/
theorem foldlM_push_error {track : Bool} {s s' : Scan} {ts : List Token} {e : LexError}
    (h : ts.foldlM (push track) s = .error (e, s')) : ∃ t ∈ ts, e.span = t.span := by
  induction ts generalizing s with
  | nil => simp [pure, Except.pure] at h
  | cons t ts ih =>
    rw [List.foldlM_cons] at h
    unfold push at h
    split at h
    · simp only [bind, Except.bind, Except.error.injEq, Prod.mk.injEq] at h
      exact ⟨t, List.mem_cons_self, by rw [← h.1]⟩
    · obtain ⟨u, hu, hspan⟩ := ih h
      exact ⟨u, List.mem_cons_of_mem _ hu, hspan⟩

@[simp] theorem observe_cursor (s : Scan) (l : Lexeme) : (s.observe l).cursor = s.cursor := by
  unfold observe; split <;> rfl

@[simp] theorem observe_tokens (s : Scan) (l : Lexeme) : (s.observe l).tokens = s.tokens := by
  unfold observe; split <;> rfl

/-- The annotation that waits after a lexeme was waiting before, or is the lexeme. -/
theorem observe_pending (s : Scan) (l : Lexeme) :
    (s.observe l).pending = s.pending ∨
      ∃ w, l = .ascription w ∧ (s.observe l).pending
        = some (String.ofList w, ⟨s.cursor.position, s.cursor.position.after l.chars⟩) := by
  unfold observe
  split
  case h_4 w => exact .inr ⟨w, rfl, rfl⟩
  all_goals exact .inl rfl

/-- **Taking in a lexeme.** The cursor moves past it, its tokens are added with the annotation that
was waiting, and only a lexeme without tokens leaves an annotation waiting. -/
theorem accept_ok {track : Bool} {s s' : Scan} {l : Lexeme} (h : s.accept track l = .ok s') :
    s'.cursor = s.cursor.after l.chars ∧
      s'.tokens.toList
        = s.tokens.toList ++ carry (s.observe l).waiting (l.tokens s.cursor.position) ∧
      s'.pending = if l.tokens s.cursor.position = [] then (s.observe l).pending else none := by
  unfold accept at h
  obtain ⟨hcursor, -, htokens, hpending⟩ := foldlM_push_ok h
  exact ⟨by rw [hcursor, observe_cursor], by rw [htokens, observe_tokens]; rfl, hpending⟩

theorem accept_of_le {track : Bool} (s : Scan) (l : Lexeme)
    (h : s.tokens.size + (l.tokens s.cursor.position).length ≤ Limits.tokenCount) :
    ∃ s', s.accept track l = .ok s' := by
  refine foldlM_push_of_le _ ?_
  rwa [observe_tokens]

theorem accept_switches {track : Bool} {s s' : Scan} {l : Lexeme} (h : s.accept track l = .ok s') :
    s'.switches = (s.observe l).switches := by
  unfold accept at h
  exact (foldlM_push_ok h).2.1

theorem accept_error {track : Bool} {s s' : Scan} {l : Lexeme} {e : LexError}
    (h : s.accept track l = .error (e, s')) :
    ∃ t ∈ l.tokens s.cursor.position, e.span = t.span :=
  foldlM_push_error h

theorem observe_of_isQuiet (s : Scan) {l : Lexeme} (h : l.isQuiet = true) :
    (s.observe l).pending = s.pending ∧ (s.observe l).switches = s.switches := by
  cases l with
  | ascription | pragma => cases h
  | _ => exact ⟨rfl, rfl⟩

/-- **Taking in lexemes that are neither annotations nor pragmas** adds their tokens as they are, if
there is room for them, and changes nothing else but the place. -/
theorem foldlM_accept_of_isQuiet {track : Bool} {ls : List Lexeme}
    (hquiet : ∀ l ∈ ls, l.isQuiet = true) (s : Scan) (hpending : s.pending = none)
    (hroom : s.tokens.size + (tokensFrom s.cursor.position ls).length ≤ Limits.tokenCount) :
    ∃ s', ls.foldlM (accept track) s = .ok s' ∧ s'.pending = none ∧ s'.switches = s.switches ∧
      s'.tokens.toList = s.tokens.toList ++ tokensFrom s.cursor.position ls := by
  induction ls generalizing s with
  | nil => exact ⟨s, rfl, hpending, rfl, (List.append_nil _).symm⟩
  | cons l ls ih =>
    rw [tokensFrom, List.length_append] at hroom
    obtain ⟨s₁, haccept⟩ := @accept_of_le track s l (by omega)
    obtain ⟨hcursor, htokens, hwaiting⟩ := accept_ok haccept
    obtain ⟨hkeeps, hswitches⟩ := s.observe_of_isQuiet (hquiet l List.mem_cons_self)
    have hcarry : carry (s.observe l).waiting (l.tokens s.cursor.position)
        = l.tokens s.cursor.position := by
      rw [waiting, hkeeps, hpending]
      exact carry_none fun t ht => (Lexeme.tokens_ascription ht).1
    have hpending₁ : s₁.pending = none := by
      rw [hwaiting, hkeeps, hpending, ite_self]
    have hposition : s₁.cursor.position = s.cursor.position.after l.chars := by
      rw [hcursor, Cursor.position_after]
    have hsize : s₁.tokens.size = s.tokens.size + (l.tokens s.cursor.position).length := by
      rw [← Array.length_toList, htokens, hcarry, List.length_append, Array.length_toList]
    obtain ⟨s', hfold, hpending', hswitches', htokens'⟩ :=
      ih (fun m hm => hquiet m (List.mem_cons_of_mem _ hm)) s₁ hpending₁
        (by rw [hposition]; omega)
    refine ⟨s', ?_, hpending', ?_, ?_⟩
    · rw [List.foldlM_cons, haccept]
      exact hfold
    · rw [hswitches', accept_switches haccept, hswitches]
    · rw [htokens', htokens, hcarry, hposition, tokensFrom, List.append_assoc]

/-! ## Runs -/

theorem run_cons_ok {track : Bool} (s : Scan) {c : Char} {cs rest : List Char} {l : Lexeme}
    (h : Lexeme.read c cs = .ok (l, rest)) :
    s.run track (c :: cs) = (s.accept track l).bind fun s => s.run track rest := by
  rw [run]
  split
  · rename_i hf
    rw [h] at hf
    cases hf
  · rename_i hr
    rw [h] at hr
    cases hr
    cases s.accept track l <;> rfl

/-- A text that can be cut into lexemes is scanned by taking them in. -/
theorem run_of_reads {track : Bool} {cs : List Char} {ls : List Lexeme} (h : Reads cs ls)
    (s : Scan) : s.run track cs = ls.foldlM (accept track) s := by
  induction h generalizing s with
  | nil => rw [run]; rfl
  | cons first _ ih =>
    rw [run_cons_ok s first, List.foldlM_cons]
    exact congrArg (Except.bind (s.accept track _)) (funext fun s => ih s)

/-- What holds of a scan at the start of a text, and is kept by taking in each lexeme, holds at
the end of the text. The invariant speaks of what has been read and what is still to be read. -/
theorem run_invariant {track : Bool} {I : List Char → List Char → Scan → Prop}
    (step : ∀ {before c cs l rest s s'}, I before (c :: cs) s → Lexeme.read c cs = .ok (l, rest) →
      s.accept track l = .ok s' → I (before ++ l.chars) rest s')
    {s s' : Scan} {before cs : List Char} (start : I before cs s)
    (h : s.run track cs = .ok s') : I (before ++ cs) [] s' := by
  fun_induction run track s cs generalizing before with
  | case1 =>
    cases h
    simpa using start
  | case2 => cases h
  | case3 => cases h
  | case4 s c cs l rest hread s'' haccept ih =>
    have := ih (step start hread haccept) h
    rwa [List.append_assoc, (Lexeme.read_eq hread).1] at this

/-- Where a run stops, either no lexeme can be read or one has no room for its tokens; the
invariant holds up to there. -/
theorem run_error {track : Bool} {I : List Char → List Char → Scan → Prop}
    (step : ∀ {before c cs l rest s s'}, I before (c :: cs) s → Lexeme.read c cs = .ok (l, rest) →
      s.accept track l = .ok s' → I (before ++ l.chars) rest s')
    {s s' : Scan} {before cs : List Char} (start : I before cs s) {e : LexError}
    (h : s.run track cs = .error (e, s')) :
    ∃ before' c cs' s'', before ++ cs = before' ++ c :: cs' ∧ I before' (c :: cs') s'' ∧
      ((∃ f, Lexeme.read c cs' = .error f ∧ e = f.errorAt s''.cursor.position (c :: cs')) ∨
        ∃ l rest, Lexeme.read c cs' = .ok (l, rest) ∧ s''.accept track l = .error (e, s')) := by
  fun_induction run track s cs generalizing before with
  | case1 => cases h
  | case2 s c cs f hread =>
    cases h
    exact ⟨before, c, cs, _, rfl, start, .inl ⟨f, hread, rfl⟩⟩
  | case3 s c cs l rest hread e' haccept =>
    cases h
    exact ⟨before, c, cs, s, rfl, start, .inr ⟨l, rest, hread, haccept⟩⟩
  | case4 s c cs l rest hread s'' haccept ih =>
    obtain ⟨before', c', cs', s₃, heq, hI, hcases⟩ := ih (step start hread haccept) h
    rw [List.append_assoc, (Lexeme.read_eq hread).1] at heq
    exact ⟨before', c', cs', s₃, heq, hI, hcases⟩

/-! ## Whole texts -/

/-- Adding the end of input, and in front of it an annotation that is still waiting. -/
theorem finish_ok {track : Bool} {s s' : Scan} (h : s.finish track = .ok s') :
    s'.cursor = s.cursor ∧ s'.switches = s.switches ∧
      s'.tokens.toList = s.tokens.toList
        ++ (s.pending.map fun w => { kind := .ascription, text := w.1, span := w.2 : Token }).toList
        ++ [Token.closing (.point s.cursor.position)] := by
  unfold finish at h
  split at h
  · rename_i hnone
    cases h
    simp [hnone]
  · rename_i w span hsome
    unfold push at h
    split at h
    · cases h
    · cases h
      simp [hsome]

theorem finish_error {track : Bool} {s s' : Scan} {e : LexError}
    (h : s.finish track = .error (e, s')) :
    ∃ w span, s.pending = some (w, span) ∧ e.span = span := by
  unfold finish at h
  split at h
  · cases h
  · rename_i w span hsome
    refine ⟨w, span, hsome, ?_⟩
    unfold push at h
    split at h
    · cases h
      rfl
    · cases h

theorem finish_of_pending {track : Bool} {s : Scan} (h : s.pending = none) :
    ∃ s', s.finish track = .ok s' := by
  cases hfinish : s.finish track with
  | ok s' => exact ⟨s', rfl⟩
  | error e =>
    obtain ⟨w, span, hsome, -⟩ := finish_error hfinish
    rw [h] at hsome
    cases hsome

theorem ofSource_ok {track : Bool} {source : List Char} {s : Scan}
    (h : ofSource source track = .ok s) :
    ∃ s', run track {} source = .ok s' ∧ finish track s' = .ok s := by
  unfold ofSource at h
  split at h
  · cases h
  · cases hrun : run track {} source with
    | error e => rw [hrun] at h; cases h
    | ok s' =>
      rw [hrun] at h
      exact ⟨s', rfl, h⟩

theorem carriageReturn?_eq_none {source : List Char} (h : '\r' ∉ source) :
    carriageReturn? source = none := by
  have hne : ∀ c ∈ source, (c != '\r') = true := by
    intro c hc
    rw [bne_iff_ne]
    rintro rfl
    exact h hc
  have hall : source.takeWhile (· != '\r') = source := by
    simpa using @List.takeWhile_append_of_pos _ _ source [] hne
  rw [carriageReturn?, hall]
  exact if_neg (Nat.lt_irrefl _)

/-- A text without carriage returns is scanned by taking in the lexemes it is read as. -/
theorem ofSource_of_reads {track : Bool} {source : List Char} {ls : List Lexeme}
    (hcr : '\r' ∉ source) (h : Reads source ls) :
    ofSource source track = (ls.foldlM (accept track) {}).bind (finish track) := by
  rw [ofSource, carriageReturn?_eq_none hcr, ← run_of_reads h]

/-- The stream of a scan has the scan's tokens; the last one is the end of input already. -/
theorem stream_remaining {track : Bool} {source : List Char} {s : Scan}
    (h : ofSource source track = .ok s) : (s.stream source).remaining = s.tokens.toList := by
  obtain ⟨s', -, hfinish⟩ := ofSource_ok h
  obtain ⟨-, -, htokens⟩ := finish_ok hfinish
  have hlast : TokenStream.missingEnd s.tokens.toList = [] := by
    rw [TokenStream.missingEnd, htokens, List.getLast?_append]
    rfl
  show (TokenStream.ofTokens s.tokens.toList).remaining = s.tokens.toList
  unfold TokenStream.ofTokens
  split
  · rename_i hnil
    rw [hnil] at htokens
    simp at htokens
  · rename_i t ts hcons
    rw [hcons] at hlast
    rw [TokenStream.remaining, hlast, List.append_nil, hcons]

theorem tokenize_of_ofSource {track : Bool} {source : List Char} {s : Scan}
    (h : ofSource source track = .ok s) :
    tokenize source track = .ok (s.stream source, s.tally) := by
  rw [tokenize, h]

/-- What tokenizing returns comes from a scan. -/
theorem ofSource_of_tokenize {track : Bool} {source : List Char} {stream : TokenStream}
    {tally : Tally} (h : tokenize source track = .ok (stream, tally)) :
    ∃ s, ofSource source track = .ok s ∧ stream = s.stream source ∧ tally = s.tally := by
  unfold tokenize at h
  split at h
  · cases h
  · rename_i s hs
    cases h
    exact ⟨s, hs, rfl, rfl⟩

end Scan

end FormScript
