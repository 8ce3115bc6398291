import FormScript.Proofs.Wording

/-!
# The dialect in force

A pragma is remembered by the number of tokens in front of it, and asked for by the index of a
token. The text tells the same in another way: a token is under the dialect that the last pragma
names that ends at the token or before it. That the two agree is a matter of order. Both lists, of
the switches (`switchesFrom`) and of the pragmas (`pragmasFrom`), are in the order of the lexemes,
so that those in front of the lexeme of a token come first in either of them, and no others are
counted.

An annotation that is left over at the end is the one token that is not where it was read: the
pragmas behind it in the text come before it in the list of tokens.
-/

namespace FormScript

/-! ## Pragmas and switches -/

/-- The dialect that a lexeme asks for. -/
def Lexeme.dialect? : Lexeme → Option Dialect
  | pragma _ dialect => some dialect
  | _ => none

/-- The pragmas among lexemes that begin at an offset: where each of them ends, and the dialect that
it names. -/
def pragmasFrom (offset : Nat) : List Lexeme → List (Nat × Dialect)
  | [] => []
  | l :: ls =>
    let stop := offset + byteLength l.chars
    (l.dialect?.map (stop, ·)).toList ++ pragmasFrom stop ls

/-- The dialect named by the last of the pragmas that end at the offset or before it. -/
def dialectUpTo (offset : Nat) (pragmas : List (Nat × Dialect)) : Dialect :=
  ((pragmas.filter (·.1 ≤ offset)).getLast?.map Prod.snd).getD .plain

/-- The switches of lexemes that begin at a position, with so many tokens in front. -/
def switchesFrom (index : Nat) (p : Position) : List Lexeme → List DialectSwitch
  | [] => []
  | l :: ls =>
    (l.dialect?.map (DialectSwitch.mk index)).toList
      ++ switchesFrom (index + (l.tokens p).length) (p.after l.chars) ls

section Lexemes

variable {index offset : Nat} {p : Position} {ls : List Lexeme}

theorem pragmasFrom_append (offset : Nat) (ls ms : List Lexeme) :
    pragmasFrom offset (ls ++ ms)
      = pragmasFrom offset ls
        ++ pragmasFrom (offset + byteLength (ls.flatMap Lexeme.chars)) ms := by
  induction ls generalizing offset with
  | nil => rfl
  | cons l ls ih =>
    rw [List.cons_append, pragmasFrom, pragmasFrom, ih, List.flatMap_cons, byteLength_append,
      List.append_assoc, Nat.add_assoc]

theorem switchesFrom_append (index : Nat) (p : Position) (ls ms : List Lexeme) :
    switchesFrom index p (ls ++ ms)
      = switchesFrom index p ls ++ switchesFrom (index + (tokensFrom p ls).length)
          (p.after (ls.flatMap Lexeme.chars)) ms := by
  induction ls generalizing index p with
  | nil => rfl
  | cons l ls ih =>
    rw [List.cons_append, switchesFrom, switchesFrom, ih, List.flatMap_cons, Position.after_append,
      tokensFrom, List.length_append, List.append_assoc, Nat.add_assoc]

/-- Both lists name the same dialects in the same order. -/
theorem dialects_of_switchesFrom (index offset : Nat) (p : Position) (ls : List Lexeme) :
    (switchesFrom index p ls).map DialectSwitch.dialect
      = (pragmasFrom offset ls).map Prod.snd := by
  induction ls generalizing index offset p with
  | nil => rfl
  | cons l ls ih =>
    rw [switchesFrom, pragmasFrom, List.map_append, List.map_append]
    rw [ih _ (offset + byteLength l.chars)]
    cases l.dialect? with
    | none => rfl
    | some dialect => rfl

/-- Switches are counted from the tokens in front, and no switch is behind all tokens. -/
theorem mem_switchesFrom {switch : DialectSwitch} (h : switch ∈ switchesFrom index p ls) :
    index ≤ switch.tokenIndex ∧ switch.tokenIndex ≤ index + (tokensFrom p ls).length := by
  induction ls generalizing index p with
  | nil => cases h
  | cons l ls ih =>
    rw [tokensFrom, List.length_append]
    rcases List.mem_append.mp h with h | h
    · obtain ⟨dialect, -, rfl⟩ := Option.map_eq_some_iff.mp (Option.mem_toList.mp h)
      exact ⟨Nat.le_refl _, Nat.le_add_right _ _⟩
    · obtain ⟨hle, hge⟩ := ih h
      omega

/-- A pragma takes up some text, so it ends behind where the lexemes begin. -/
theorem mem_pragmasFrom {pragma : Nat × Dialect} (hne : ∀ l ∈ ls, l.chars ≠ [])
    (h : pragma ∈ pragmasFrom offset ls) :
    offset < pragma.1 ∧ pragma.1 ≤ offset + byteLength (ls.flatMap Lexeme.chars) := by
  induction ls generalizing offset with
  | nil => cases h
  | cons l ls ih =>
    have hpos : 0 < byteLength l.chars := by
      obtain ⟨c, cs, hchars⟩ := List.exists_cons_of_ne_nil (hne l List.mem_cons_self)
      have := c.utf8Size_pos
      rw [hchars, byteLength_cons]
      omega
    rw [List.flatMap_cons, byteLength_append]
    rcases List.mem_append.mp h with h | h
    · obtain ⟨dialect, -, rfl⟩ := Option.map_eq_some_iff.mp (Option.mem_toList.mp h)
      dsimp only
      omega
    · obtain ⟨hlt, hle⟩ := ih (fun m hm => hne m (List.mem_cons_of_mem _ hm)) h
      omega

/-- The lexeme that a token comes from, with the lexemes in front of it. -/
theorem exists_lexeme_of_getElem? {i : Nat} {t : Token} (h : (tokensFrom p ls)[i]? = some t) :
    ∃ ls₁ l ls₂, ls = ls₁ ++ l :: ls₂ ∧ t ∈ l.tokens (p.after (ls₁.flatMap Lexeme.chars)) ∧
      (tokensFrom p ls₁).length ≤ i ∧
      i < (tokensFrom p (ls₁ ++ [l])).length := by
  induction ls generalizing i p with
  | nil => cases h
  | cons l ls ih =>
    rw [tokensFrom, List.getElem?_append] at h
    split at h
    · rename_i hlt
      refine ⟨[], l, ls, rfl, List.mem_of_getElem? h, Nat.zero_le _, ?_⟩
      rw [List.nil_append, tokensFrom, List.length_append]
      omega
    · rename_i hge
      obtain ⟨ls₁, m, ls₂, rfl, hmem, hle, hlt⟩ := ih h
      refine ⟨l :: ls₁, m, ls₂, rfl, ?_, ?_, ?_⟩
      · rwa [List.flatMap_cons, Position.after_append]
      · rw [tokensFrom, List.length_append]
        omega
      · rw [List.cons_append, tokensFrom, List.length_append]
        omega

end Lexemes

/-- **The two ways to look a dialect up agree** if the same pragmas count for both. -/
theorem dialectAt_eq_dialectUpTo {stream : TokenStream} {i offset : Nat}
    {switches switches' : List DialectSwitch} {pragmas pragmas' : List (Nat × Dialect)}
    (hswitches : stream.switches = switches ++ switches')
    (hbefore : ∀ x ∈ switches, x.tokenIndex ≤ i) (hbehind : ∀ x ∈ switches', i < x.tokenIndex)
    (hends : ∀ x ∈ pragmas, x.1 ≤ offset) (hlater : ∀ x ∈ pragmas', offset < x.1)
    (hsame : switches.map DialectSwitch.dialect = pragmas.map Prod.snd) :
    stream.dialectAt i = dialectUpTo offset (pragmas ++ pragmas') := by
  have htake : stream.switches.takeWhile (·.tokenIndex ≤ i) = switches := by
    rw [hswitches, List.takeWhile_append_of_pos fun x hx => decide_eq_true (hbefore x hx)]
    cases switches' with
    | nil => exact List.append_nil _
    | cons x xs =>
      have hx := hbehind x List.mem_cons_self
      rw [List.takeWhile_cons_of_neg (by simpa using hx), List.append_nil]
  have hfilter : (pragmas ++ pragmas').filter (·.1 ≤ offset) = pragmas := by
    have hnone : pragmas'.filter (·.1 ≤ offset) = [] :=
      List.filter_eq_nil_iff.mpr fun x hx => by simpa using hlater x hx
    have hall : pragmas.filter (·.1 ≤ offset) = pragmas :=
      List.filter_eq_self.mpr fun x hx => decide_eq_true (hends x hx)
    rw [List.filter_append, hnone, hall, List.append_nil]
  have hlast : switches.getLast?.map DialectSwitch.dialect = pragmas.getLast?.map Prod.snd := by
    rw [← List.getLast?_map, hsame, List.getLast?_map]
  rw [TokenStream.dialectAt, htake, dialectUpTo, hfilter, ← hlast]
  cases switches.getLast? with
  | none => rfl
  | some switch => rfl

/-! ## Scans -/

namespace Scan

variable {track : Bool} {s s' : Scan}

/-- A scan that comes to the end has read lexemes. -/
theorem exists_reads_of_run {cs : List Char} (h : s.run track cs = .ok s') :
    ∃ ls, Reads cs ls ∧ ls.foldlM (accept track) s = .ok s' := by
  fun_induction run track s cs with
  | case1 =>
    cases h
    exact ⟨[], .nil, rfl⟩
  | case2 => cases h
  | case3 => cases h
  | case4 s c cs l rest hread s'' haccept ih =>
    obtain ⟨ls, hreads, hfold⟩ := ih h
    refine ⟨l :: ls, .cons hread hreads, ?_⟩
    rw [List.foldlM_cons, haccept]
    exact hfold

theorem observe_switches (s : Scan) (l : Lexeme) : (s.observe l).switches.toList
    = s.switches.toList ++ (l.dialect?.map (DialectSwitch.mk s.tokens.size)).toList := by
  cases l with
  | pragma text dialect => exact Array.toList_push
  | _ => exact (List.append_nil _).symm

end Scan

theorem map_carry (waiting : Option String) (ts : List Token) :
    (carry waiting ts).map (fun t => (t.kind, t.span)) = ts.map fun t => (t.kind, t.span) := by
  induction ts generalizing waiting with
  | nil => rfl
  | cons t ts ih => rw [carry, List.map_cons, List.map_cons, ih]

/-- What lexemes leave in a scan: their switches, and their tokens up to the annotations. -/
theorem Scan.foldlM_accept_ok {track : Bool} {s s' : Scan} {ls : List Lexeme}
    (h : ls.foldlM (accept track) s = .ok s') :
    s'.cursor.position = s.cursor.position.after (ls.flatMap Lexeme.chars) ∧
      s'.switches.toList
        = s.switches.toList ++ switchesFrom s.tokens.size s.cursor.position ls ∧
      s'.tokens.toList.map (fun t => (t.kind, t.span))
        = (s.tokens.toList ++ tokensFrom s.cursor.position ls).map fun t => (t.kind, t.span) := by
  induction ls generalizing s with
  | nil =>
    cases h
    simp [switchesFrom, tokensFrom]
  | cons l ls ih =>
    rw [List.foldlM_cons] at h
    cases haccept : s.accept track l with
    | error e =>
      rw [haccept] at h
      cases h
    | ok s₁ =>
      rw [haccept] at h
      obtain ⟨hposition, hswitches, htokens⟩ := ih h
      obtain ⟨hcursor₁, htokens₁, -⟩ := accept_ok haccept
      have hswitches₁ := accept_switches haccept
      have hposition₁ : s₁.cursor.position = s.cursor.position.after l.chars := by
        rw [hcursor₁, Cursor.position_after]
      have hsize₁ : s₁.tokens.size = s.tokens.size + (l.tokens s.cursor.position).length := by
        rw [← Array.length_toList, htokens₁, List.length_append, length_carry, Array.length_toList]
      refine ⟨?_, ?_, ?_⟩
      · rw [hposition, hposition₁, List.flatMap_cons, Position.after_append]
      · rw [hswitches, hswitches₁, observe_switches, hsize₁, hposition₁, List.append_assoc,
          switchesFrom]
      · rw [htokens, htokens₁, hposition₁, tokensFrom]
        simp only [List.map_append, map_carry, List.append_assoc]

theorem Lexeme.dialect?_of_mem_tokens {l : Lexeme} {p : Position} {t : Token} (h : t ∈ l.tokens p) :
    l.dialect? = none := by
  cases l with
  | pragma text dialect => cases h
  | _ => rfl

/-- What is read has characters, and a pragma that is read is one. -/
theorem Reads.lexemes {source : List Char} {ls : List Lexeme} (h : Reads source ls) :
    ∀ l ∈ ls, l.chars ≠ [] ∧ ∃ rest, l.Fits rest := by
  induction h with
  | nil => exact List.forall_mem_nil _
  | cons first more ih =>
    exact List.forall_mem_cons.mpr
      ⟨⟨(Lexeme.read_eq first).2, _, Lexeme.fits_of_read first⟩, ih⟩

/-- A token of a lexeme begins and ends in it. -/
theorem Lexeme.offset_of_mem_tokens {l : Lexeme} {p q : Position} {t : Token}
    (h : t ∈ l.tokens p) (hq : q = t.span.start ∨ q = t.span.stop) :
    p.offset ≤ q.offset ∧ q.offset ≤ p.offset + byteLength l.chars := by
  have hinside : ∀ cs, cs <+: l.chars → p.offset ≤ (p.after cs).offset ∧
      (p.after cs).offset ≤ p.offset + byteLength l.chars := by
    rintro cs ⟨ds, hds⟩
    rw [← hds, byteLength_append, Position.offset_after]
    omega
  obtain ⟨a, b, ha, hb, hspan⟩ := Lexeme.tokens_span h
  rw [hspan] at hq
  rcases hq with rfl | rfl
  · exact hinside a ha
  · exact hinside b hb

section Lookup

variable {stream : TokenStream} {i : Nat} {q : Position}

/-- **The dialect of a lexeme's tokens** is that of the last pragma in front of the lexeme, and so
of the last one in front of any place in it. -/
theorem dialectAt_of_lexeme {ls₁ ls₂ : List Lexeme} {l : Lexeme} {t : Token}
    (hswitches : stream.switches = switchesFrom 0 .start (ls₁ ++ l :: ls₂))
    (hne : ∀ m ∈ ls₁ ++ l :: ls₂, m.chars ≠ [])
    (ht : t ∈ l.tokens (Position.start.after (ls₁.flatMap Lexeme.chars)))
    (hq : q = t.span.start ∨ q = t.span.stop)
    (hle : (tokensFrom .start ls₁).length ≤ i)
    (hlt : i < (tokensFrom .start (ls₁ ++ [l])).length) :
    stream.dialectAt i = dialectUpTo q.offset (pragmasFrom 0 (ls₁ ++ l :: ls₂)) := by
  have hquiet := Lexeme.dialect?_of_mem_tokens ht
  obtain ⟨hstart, hstop⟩ := Lexeme.offset_of_mem_tokens ht hq
  rw [Position.offset_after] at hstart hstop
  rw [switchesFrom_append, switchesFrom, hquiet] at hswitches
  rw [pragmasFrom_append, pragmasFrom, hquiet]
  have hlength : (tokensFrom .start (ls₁ ++ [l])).length = (tokensFrom .start ls₁).length
      + (l.tokens (Position.start.after (ls₁.flatMap Lexeme.chars))).length := by
    rw [tokensFrom_append, List.length_append, tokensFrom, tokensFrom, List.append_nil]
  have hzero : Position.start.offset = 0 := rfl
  refine dialectAt_eq_dialectUpTo hswitches ?_ ?_ ?_ ?_ (dialects_of_switchesFrom _ _ _ _)
  · intro x hx
    have := (mem_switchesFrom hx).2
    omega
  · intro x hx
    have := (mem_switchesFrom hx).1
    omega
  · intro x hx
    have := (mem_pragmasFrom (fun m hm => hne m (List.mem_append_left _ hm)) hx).2
    omega
  · intro x hx
    have hne₂ : ∀ m ∈ ls₂, m.chars ≠ [] :=
      fun m hm => hne m (List.mem_append_right _ (List.mem_cons_of_mem _ hm))
    have := (mem_pragmasFrom hne₂ hx).1
    omega

/-- Behind all lexemes every pragma counts. -/
theorem dialectAt_behind_lexemes {ls : List Lexeme}
    (hswitches : stream.switches = switchesFrom 0 .start ls) (hne : ∀ l ∈ ls, l.chars ≠ [])
    (hi : (tokensFrom .start ls).length ≤ i)
    (hq : q = Position.start.after (ls.flatMap Lexeme.chars)) :
    stream.dialectAt i = dialectUpTo q.offset (pragmasFrom 0 ls) := by
  have hoffset : q.offset = 0 + byteLength (ls.flatMap Lexeme.chars) := by
    rw [hq, Position.offset_after]
    rfl
  rw [← List.append_nil (switchesFrom 0 .start ls)] at hswitches
  rw [← List.append_nil (pragmasFrom 0 ls)]
  refine dialectAt_eq_dialectUpTo hswitches ?_ (List.forall_mem_nil _) ?_ (List.forall_mem_nil _)
    (dialects_of_switchesFrom _ _ _ _)
  · intro x hx
    have := (mem_switchesFrom hx).2
    omega
  · intro x hx
    have := (mem_pragmasFrom hne hx).2
    omega

end Lookup

/-- The stream gives each token the dialect that the pragmas give it, at its beginning and at its
end. An annotation is left out: as a token it stands behind all pragmas. -/
def TokenStream.FollowsPragmas (stream : TokenStream) (pragmas : List (Nat × Dialect)) : Prop :=
  ∀ (before : List Token) (t : Token) (after : List Token),
    stream.remaining = before ++ t :: after → t.kind ≠ .ascription →
    ∀ q : Position, q = t.span.start ∨ q = t.span.stop →
      stream.dialectAt (stream.position + before.length) = dialectUpTo q.offset pragmas

theorem Scan.position_stream (s : Scan) (source : List Char) : (s.stream source).position = 0 := by
  show (TokenStream.ofTokens s.tokens.toList).position = 0
  cases s.tokens.toList with
  | nil => rfl
  | cons t ts => rfl

/-- **The dialect follows the pragmas** of the lexemes that a text is read as. -/
theorem Scan.followsPragmas {track : Bool} {source : List Char} {s : Scan}
    (h : ofSource source track = .ok s) :
    ∃ ls, Reads source ls ∧ (s.stream source).FollowsPragmas (pragmasFrom 0 ls) := by
  obtain ⟨s', hrun, hfinish⟩ := ofSource_ok h
  obtain ⟨ls, hreads, hfold⟩ := exists_reads_of_run hrun
  obtain ⟨hcursor, hswitches, htokens⟩ := foldlM_accept_ok hfold
  obtain ⟨-, hswitches', htokens'⟩ := finish_ok hfinish
  have hall : (s.stream source).switches = switchesFrom 0 .start ls := by
    show s.switches.toList = _
    rw [hswitches', hswitches]
    rfl
  have hne : ∀ l ∈ ls, l.chars ≠ [] := fun l hl => (hreads.lexemes l hl).1
  refine ⟨ls, hreads, ?_⟩
  intro before t after hsplit hkind q hq
  rw [position_stream, Nat.zero_add]
  have hget : (s.stream source).remaining[before.length]? = some t := by
    rw [hsplit, List.getElem?_append_right (Nat.le_refl _), Nat.sub_self]
    rfl
  rw [stream_remaining h, htokens', List.append_assoc] at hget
  by_cases hlt : before.length < s'.tokens.toList.length
  · -- The token comes from a lexeme, and so does its place.
    rw [List.getElem?_append_left hlt] at hget
    have hmap := congrArg (·[before.length]?) htokens
    dsimp only at hmap
    rw [List.getElem?_map, hget, List.getElem?_map] at hmap
    obtain ⟨u, hu, hsame⟩ := Option.map_eq_some_iff.mp hmap.symm
    obtain ⟨ls₁, l, ls₂, rfl, hmem, hle, hlt'⟩ := exists_lexeme_of_getElem? hu
    have hspan : t.span = u.span := (congrArg Prod.snd hsame).symm
    rw [hspan] at hq
    exact dialectAt_of_lexeme hall hne hmem hq hle hlt'
  · -- Behind them there are only the annotation that is left over and the end of input.
    rw [List.getElem?_append_right (Nat.le_of_not_lt hlt)] at hget
    have heof : t = Token.closing (.point s'.cursor.position) := by
      rcases List.mem_append.mp (List.mem_of_getElem? hget) with hmem | hmem
      · obtain ⟨w, -, rfl⟩ := Option.map_eq_some_iff.mp (Option.mem_toList.mp hmem)
        exact absurd rfl hkind
      · exact List.mem_singleton.mp hmem
    have hlength : (tokensFrom .start ls).length ≤ before.length := by
      have := congrArg List.length htokens
      simp only [List.length_map] at this
      change _ = (tokensFrom .start ls).length at this
      omega
    refine dialectAt_behind_lexemes hall hne hlength ?_
    rw [heof] at hq
    exact (hq.elim id id).trans hcursor

/-! ## Opening parentheses -/

theorem kind_of_mem_memberTokens {p : Position} {ws : List (List Char)} {t : Token}
    (h : t ∈ memberTokens p ws) : t.kind = .identifier ∨ t.kind = .operator := by
  induction ws generalizing p with
  | nil => cases h
  | cons w ws ih =>
    rw [memberTokens, List.mem_cons, List.mem_cons] at h
    rcases h with rfl | rfl | h
    · exact .inl rfl
    · exact .inr rfl
    · exact ih h

/-- Of the tokens that a lexeme stands for, only operators open a form. -/
theorem Lexeme.operator_of_isOpen {l : Lexeme} {rest : List Char} {p : Position} {t : Token}
    (hfits : l.Fits rest) (h : t ∈ l.tokens p) (hopen : t.isOpen = true) : t.kind = .operator := by
  have hparen : ∀ w, t.text = String.ofList w → w = ['('] := by
    intro w hw
    simp only [Token.isOpen, Token.isSymbol, Bool.and_eq_true, beq_iff_eq] at hopen
    rw [← String.toList_ofList (l := w), ← hw, hopen.2]
    rfl
  have hplain : t.kind.isSymbol = false → t.kind = .operator := by
    intro hkind
    rw [(Grammar.not_paren_of_kind hkind).1] at hopen
    cases hopen
  unfold Lexeme.tokens at h
  dsimp only at h
  split at h
  case h_3 =>
    rw [List.mem_singleton] at h
    rw [h]
  case h_4 spelling =>
    rw [List.mem_singleton] at h
    have hmem := hfits.1
    rw [hparen spelling (by rw [h])] at hmem
    exact absurd hmem (by decide)
  case h_5 first =>
    rw [List.mem_singleton] at h
    have hword := hfits.1
    rw [hparen first (by rw [h])] at hword
    exact absurd hword.1 (by decide)
  case h_6 first more _ =>
    rcases List.mem_append.mp h with h | h
    · exact kind_of_mem_memberOpenings h
    rcases List.mem_cons.mp h with rfl | h
    · exact hplain rfl
    · rcases kind_of_mem_memberTokens h with hkind | hkind
      · exact hplain (by rw [hkind]; rfl)
      · exact hkind
  case h_7 => cases h
  all_goals
    rw [List.mem_singleton] at h
    exact hplain (by rw [h]; rfl)

theorem Scan.operator_of_ofSource {track : Bool} {source : List Char} {s : Scan}
    (h : ofSource source track = .ok s) :
    ∀ t ∈ s.tokens.toList, t.isOpen = true → t.kind = .operator := by
  obtain ⟨s', hrun, hfinish⟩ := ofSource_ok h
  have hoperators : ∀ t ∈ s'.tokens.toList, t.isOpen = true → t.kind = .operator := by
    refine @run_invariant track
      (fun _ _ s => ∀ t ∈ s.tokens.toList, t.isOpen = true → t.kind = .operator)
      ?_ {} s' [] source (List.forall_mem_nil _) hrun
    intro _ _ _ _ _ _ _ hs hread haccept t ht hopen
    obtain ⟨-, htokens, -⟩ := accept_ok haccept
    rw [htokens, List.mem_append] at ht
    rcases ht with ht | ht
    · exact hs t ht hopen
    · obtain ⟨u, hu, a, -, rfl⟩ := exists_of_mem_carry ht
      exact Lexeme.operator_of_isOpen (t := u) (Lexeme.fits_of_read hread) hu hopen
  obtain ⟨-, -, htokens⟩ := finish_ok hfinish
  intro t ht hopen
  rw [htokens, List.mem_append, List.mem_append, Option.mem_toList, List.mem_singleton] at ht
  rcases ht with (ht | ht) | rfl
  · exact hoperators t ht hopen
  · obtain ⟨w, -, rfl⟩ := Option.map_eq_some_iff.mp ht
    cases hopen
  · cases hopen

end FormScript
