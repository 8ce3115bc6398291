import FormScript.Proofs.Lines
import FormScript.Proofs.Places
import FormScript.Proofs.Pragmas

/-!
# Tallies and recounts

A tally is kept while a text is scanned, at several places: with each token that is added, with each
string, comment and pragma that is met, and once more at the end. A recount goes over the finished
tokens. Both come to the numbers that can be read off the token list: how many tokens are of a kind
(`Tally.ofKind`, `TokenCounts.ofKind`), how many carry an annotation, how often an operator is
written (`Uses`). For the recount this is a fold over the list. For the tally it is kept whenever a
token is added (`Tally.Counts`), with one exception: the length of a string is noted before its
token is added, so that the longest string (`LongestString`) is right only when a lexeme has been
taken in as a whole. `Scan.Kept` is what holds between lexemes.

The annotation that is left over at the end is counted differently by the two, as a token that is an
annotation and as a token without one; **`tally_matches_recount`** says by how much they differ.
-/

namespace FormScript

/-! ## Uses of words -/

/-- The words of a list with the number of times that each is in it. -/
structure Uses (use : List (String × Nat)) (words : List String) : Prop where
  keys : (use.map Prod.fst).Nodup
  lookup : ∀ w, use.lookup w = if w ∈ words then some (words.count w) else none

theorem keys_countUse (word : String) (use : List (String × Nat)) :
    (countUse word use).map Prod.fst
      = if word ∈ use.map Prod.fst then use.map Prod.fst else use.map Prod.fst ++ [word] := by
  induction use with
  | nil => rfl
  | cons entry use ih =>
    obtain ⟨w, n⟩ := entry
    rw [countUse]
    by_cases hw : w = word
    · simp [hw]
    · rw [if_neg hw, List.map_cons, ih]
      have hne : word ≠ w := Ne.symm hw
      by_cases hmem : word ∈ use.map Prod.fst
      · simp [hmem]
      · simp [hmem, hne]

theorem lookup_entry (w v : String) (n : Nat) (use : List (String × Nat)) :
    ((v, n) :: use).lookup w = if w = v then some n else use.lookup w := by
  by_cases hw : w = v
  · rw [hw, List.lookup_cons_self, if_pos rfl]
  · rw [List.lookup_cons, beq_false_of_ne hw, if_neg hw]

theorem lookup_countUse (word w : String) (use : List (String × Nat)) :
    (countUse word use).lookup w
      = if w = word then some ((use.lookup word).getD 0 + 1) else use.lookup w := by
  induction use with
  | nil => exact lookup_entry w word 1 []
  | cons entry use ih =>
    obtain ⟨v, n⟩ := entry
    rw [countUse]
    by_cases hv : v = word
    · subst hv
      rw [if_pos rfl, lookup_entry, List.lookup_cons_self, lookup_entry]
      split <;> rfl
    · rw [if_neg hv, lookup_entry, ih, lookup_entry, lookup_entry, if_neg (Ne.symm hv)]
      by_cases hw : w = v
      · rw [if_pos hw, if_neg (hw ▸ hv), if_pos hw]
      · rw [if_neg hw, if_neg hw]

theorem Uses.nil : Uses [] [] := ⟨List.nodup_nil, by simp⟩

theorem Uses.eq_nil {use : List (String × Nat)} (h : Uses use []) : use = [] := by
  cases use with
  | nil => rfl
  | cons entry use =>
    have hlookup := h.lookup entry.1
    rw [List.lookup_cons_self] at hlookup
    cases hlookup

/-- One more word. -/
theorem Uses.countUse {use : List (String × Nat)} {words : List String} (h : Uses use words)
    (word : String) : Uses (countUse word use) (words ++ [word]) where
  keys := by
    rw [keys_countUse]
    split
    · exact h.keys
    · rename_i hnew
      refine List.nodup_append.mpr ⟨h.keys, by simp, ?_⟩
      rintro key hkey _ hword rfl
      exact hnew (List.mem_singleton.mp hword ▸ hkey)
  lookup := by
    intro w
    rw [lookup_countUse, h.lookup, h.lookup, List.count_append, List.count_singleton]
    by_cases hw : w = word
    · subst hw
      by_cases hmem : w ∈ words
      · simp [hmem]
      · simp [hmem, List.count_eq_zero.mpr hmem]
    · have hne : (word == w) = false := beq_false_of_ne (Ne.symm hw)
      simp [hw, hne]

/-! ## Counts that can be read off the tokens -/

/-- The operators among tokens, as they are written. -/
def operatorTexts (tokens : List Token) : List String :=
  (tokens.filter (·.kind == .operator)).map Token.text

theorem operatorTexts_concat (tokens : List Token) (t : Token) :
    operatorTexts (tokens ++ [t])
      = operatorTexts tokens ++ if t.kind == .operator then [t.text] else [] := by
  cases h : t.kind == .operator <;> simp [operatorTexts, h]

/-- Annotations and ends of input have no count of their own. -/
def TokenKind.isCounted : TokenKind → Bool
  | ascription | eof => false
  | _ => true

/-- How many tokens of a kind have been met. -/
def Tally.ofKind (t : Tally) : TokenKind → Nat
  | .keyword => t.keywords
  | .identifier => t.identifiers
  | .operator => t.operators
  | .string => t.strings
  | .number => t.numbers
  | .ascription | .eof => 0

/-- How many tokens of a kind have been counted. -/
def TokenCounts.ofKind (n : TokenCounts) : TokenKind → Nat
  | .keyword => n.keywords
  | .identifier => n.identifiers
  | .operator => n.operators
  | .string => n.strings
  | .number => n.numbers
  | .ascription | .eof => 0

namespace Tally

variable (t : Tally) (track : Bool) (token : Token)

theorem total_addToken : (t.addToken track token).total = t.total + 1 := by
  cases hkind : token.kind <;> simp [addToken, addKind, hkind]

theorem annotated_addToken : (t.addToken track token).annotated
    = t.annotated + if token.ascription.isSome then 1 else 0 := by
  cases hkind : token.kind <;> simp [addToken, addKind, hkind] <;> split <;> rfl

theorem ofKind_addToken (kind : TokenKind) (h : kind.isCounted = true) :
    (t.addToken track token).ofKind kind
      = t.ofKind kind + if token.kind == kind then 1 else 0 := by
  cases kind with
  | ascription | eof => cases h
  | _ => cases hkind : token.kind <;> simp [addToken, addKind, ofKind, hkind]

theorem operatorUse_addToken : (t.addToken track token).operatorUse
    = if track && token.kind == .operator then countUse token.text t.operatorUse
      else t.operatorUse := by
  cases hkind : token.kind <;> simp [addToken, addKind, hkind]

/-- What else is tallied does not depend on tokens. -/
theorem rest_addToken : (t.addToken track token).longestString = t.longestString ∧
    (t.addToken track token).switches = t.switches := by
  cases hkind : token.kind <;> simp [addToken, addKind, hkind]

end Tally

namespace TokenCounts

theorem total_add (n : TokenCounts) (t : Token) :
    (n.add t).total = n.total + if t.isEof then 0 else 1 := by
  cases hkind : t.kind <;> simp [add, Token.isEof, hkind]

theorem ofKind_add (n : TokenCounts) (t : Token) (kind : TokenKind) (h : kind.isCounted = true) :
    (n.add t).ofKind kind = n.ofKind kind + if t.kind == kind then 1 else 0 := by
  cases kind with
  | ascription | eof => cases h
  | _ => cases hkind : t.kind <;> simp [add, Token.isEof, ofKind, hkind]

theorem ascriptions_add (n : TokenCounts) (t : Token) :
    (n.add t).ascriptions = n.ascriptions + (if t.ascription.isSome && !t.isEof then 1 else 0)
      + if t.kind == .ascription then 1 else 0 := by
  cases hkind : t.kind <;> cases hascription : t.ascription <;>
    simp [add, Token.isEof, hkind, hascription]

/-- What goes up by one with certain tokens counts these tokens. -/
theorem foldl_add {f : TokenCounts → Nat} {q : Token → Bool}
    (step : ∀ n t, f (n.add t) = f n + if q t then 1 else 0) (n : TokenCounts)
    (tokens : List Token) : f (tokens.foldl add n) = f n + tokens.countP q := by
  induction tokens generalizing n with
  | nil => rfl
  | cons t tokens ih =>
    rw [List.foldl_cons, ih, step, List.countP_cons]
    omega

theorem total_ofTokens (tokens : List Token) :
    (ofTokens tokens).total = tokens.countP (!·.isEof) := by
  have h := @foldl_add total (!·.isEof)
    (fun n t => by rw [total_add]; cases t.isEof <;> rfl) {} tokens
  rwa [Nat.zero_add] at h

theorem ofKind_ofTokens (tokens : List Token) {kind : TokenKind} (h : kind.isCounted = true) :
    (ofTokens tokens).ofKind kind = tokens.countP (·.kind == kind) := by
  have hzero : ofKind {} kind = 0 := by cases kind <;> rfl
  have hfold := @foldl_add (ofKind · kind) _ (fun n t => ofKind_add n t kind h) {} tokens
  rwa [hzero, Nat.zero_add] at hfold

/-- Annotations are counted on tokens and as tokens. -/
theorem ascriptions_ofTokens (tokens : List Token) :
    (ofTokens tokens).ascriptions = tokens.countP (fun t => t.ascription.isSome && !t.isEof)
      + tokens.countP (·.kind == .ascription) := by
  have hfold : ∀ n : TokenCounts, (tokens.foldl add n).ascriptions
      = n.ascriptions + tokens.countP (fun t => t.ascription.isSome && !t.isEof)
        + tokens.countP (·.kind == .ascription) := by
    induction tokens with
    | nil => exact fun n => rfl
    | cons t tokens ih =>
      intro n
      rw [List.foldl_cons, ih, ascriptions_add, List.countP_cons, List.countP_cons]
      omega
  have hempty := hfold {}
  rwa [Nat.zero_add] at hempty

end TokenCounts

/-- A tally has what can be read off the tokens. Operators are listed on request. -/
structure Tally.Counts (track : Bool) (tokens : List Token) (t : Tally) : Prop where
  total : t.total = tokens.length
  ofKind : ∀ kind : TokenKind, kind.isCounted = true →
    t.ofKind kind = tokens.countP (·.kind == kind)
  annotated : t.annotated = tokens.countP (·.ascription.isSome)
  uses : Uses t.operatorUse (if track then operatorTexts tokens else [])

namespace Tally.Counts

variable {track : Bool} {tokens : List Token} {t : Tally}

theorem nil : Counts track [] {} where
  total := rfl
  ofKind := by intro kind _; cases kind <;> rfl
  annotated := rfl
  uses := by cases track <;> exact .nil

/-- **One more token.** -/
theorem addToken (h : t.Counts track tokens) (token : Token) :
    (t.addToken track token).Counts track (tokens ++ [token]) where
  total := by rw [total_addToken, h.total, List.length_append, List.length_singleton]
  ofKind := by
    intro kind hkind
    rw [ofKind_addToken _ _ _ _ hkind, h.ofKind kind hkind, List.countP_append,
      List.countP_singleton]
  annotated := by
    rw [annotated_addToken, h.annotated, List.countP_append, List.countP_singleton]
  uses := by
    have huses := h.uses
    rw [operatorUse_addToken, operatorTexts_concat]
    cases track with
    | false => exact huses
    | true =>
      cases hoperator : token.kind == .operator with
      | false => simpa [hoperator] using huses
      | true => simpa [hoperator] using huses.countUse token.text

end Tally.Counts

/-! ## The longest string -/

/-- So many bytes has the longest string among tokens, and zero if there is none. -/
structure LongestString (tokens : List Token) (bytes : Nat) : Prop where
  bound : ∀ t ∈ tokens, t.kind = .string → byteLength t.text.toList ≤ bytes
  reached : bytes = 0 ∨ ∃ t ∈ tokens, t.kind = .string ∧ byteLength t.text.toList = bytes

namespace LongestString

variable {tokens more : List Token} {bytes : Nat}

theorem append_plain (h : LongestString tokens bytes) (hmore : ∀ t ∈ more, t.kind ≠ .string) :
    LongestString (tokens ++ more) bytes where
  bound := by
    intro t ht hkind
    rcases List.mem_append.mp ht with ht | ht
    · exact h.bound t ht hkind
    · exact absurd hkind (hmore t ht)
  reached := h.reached.imp_right fun ⟨t, ht, hlength⟩ => ⟨t, List.mem_append_left _ ht, hlength⟩

theorem append_string (h : LongestString tokens bytes) {t : Token} (hkind : t.kind = .string) :
    LongestString (tokens ++ [t]) (max bytes (byteLength t.text.toList)) where
  bound := by
    intro u hu hstring
    rcases List.mem_append.mp hu with hu | hu
    · exact Nat.le_trans (h.bound u hu hstring) (Nat.le_max_left _ _)
    · rw [List.mem_singleton.mp hu]
      exact Nat.le_max_right _ _
  reached := by
    by_cases hle : bytes ≤ byteLength t.text.toList
    · rw [Nat.max_eq_right hle]
      exact .inr ⟨t, by simp, hkind, rfl⟩
    · rw [Nat.max_eq_left (Nat.le_of_not_le hle)]
      exact h.reached.imp_right fun ⟨u, hu, hlength⟩ => ⟨u, List.mem_append_left _ hu, hlength⟩

end LongestString

/-- Of all lexemes only a string stands for tokens that are strings. -/
theorem Lexeme.kind_ne_string {l : Lexeme} (hl : ∀ delimiter body, l ≠ .string delimiter body)
    {p : Position} {t : Token} (h : t ∈ l.tokens p) : t.kind ≠ .string := by
  unfold Lexeme.tokens at h
  dsimp only at h
  split at h
  case h_2 delimiter body => exact absurd rfl (hl delimiter body)
  case h_5 first =>
    rw [List.mem_singleton.mp h]
    dsimp only
    split <;> decide
  case h_6 first more _ =>
    rcases List.mem_append.mp h with h | h
    · rw [kind_of_mem_memberOpenings h]
      decide
    rcases List.mem_cons.mp h with rfl | h
    · simp
    · rcases kind_of_mem_memberTokens h with hkind | hkind <;> rw [hkind] <;> decide
  case h_7 => cases h
  all_goals
    rw [List.mem_singleton.mp h]
    simp

/-! ## What a scan keeps -/

namespace Scan

variable {track : Bool} {s s' : Scan} {l : Lexeme}

/-- A token that is added is tallied; the longest string and the switches are tallied elsewhere. -/
theorem tally_push {t : Token} (h : s.push track t = .ok s') :
    (s.tally.Counts track s.tokens.toList → s'.tally.Counts track s'.tokens.toList) ∧
      s'.tally.longestString = s.tally.longestString ∧ s'.tally.switches = s.tally.switches := by
  unfold push at h
  split at h
  · cases h
  · cases h
    refine ⟨fun hcounts => ?_, Tally.rest_addToken _ _ _⟩
    rw [Array.toList_push]
    exact hcounts.addToken _

theorem tally_foldlM_push {ts : List Token} (h : ts.foldlM (push track) s = .ok s') :
    (s.tally.Counts track s.tokens.toList → s'.tally.Counts track s'.tokens.toList) ∧
      s'.tally.longestString = s.tally.longestString ∧ s'.tally.switches = s.tally.switches := by
  induction ts generalizing s with
  | nil =>
    cases h
    exact ⟨id, rfl, rfl⟩
  | cons t ts ih =>
    rw [List.foldlM_cons] at h
    cases hpush : s.push track t with
    | error e =>
      rw [hpush] at h
      cases h
    | ok s₁ =>
      rw [hpush] at h
      obtain ⟨hcounts, hlongest, hswitches⟩ := tally_push hpush
      obtain ⟨hcounts', hlongest', hswitches'⟩ := ih h
      exact ⟨fun hs => hcounts' (hcounts hs), hlongest'.trans hlongest, hswitches'.trans hswitches⟩

/-- A lexeme that is met changes none of the counts of tokens. -/
theorem counts_observe (h : s.tally.Counts track s.tokens.toList) (l : Lexeme) :
    (s.observe l).tally.Counts track (s.observe l).tokens.toList := by
  rw [observe_tokens]
  cases l <;> exact ⟨h.total, h.ofKind, h.annotated, h.uses⟩

/-- A pragma is a switch, and it is counted when it is met. -/
theorem switches_observe (h : s.tally.switches = s.switches.toList.length) (l : Lexeme) :
    (s.observe l).tally.switches = (s.observe l).switches.toList.length := by
  cases l with
  | pragma text dialect =>
    show s.tally.switches + 1 = (s.switches.push ⟨s.tokens.size, dialect⟩).toList.length
    rw [h, Array.toList_push, List.length_append]
    rfl
  | _ => exact h

/-- **One more lexeme.** The length of a string is noted when it is met, before there is a token
for it. -/
theorem longest_accept (h : LongestString s.tokens.toList s.tally.longestString)
    (haccept : s.accept track l = .ok s') :
    LongestString s'.tokens.toList (s.observe l).tally.longestString := by
  obtain ⟨-, htokens, -⟩ := accept_ok haccept
  rw [htokens]
  by_cases hl : ∃ delimiter body, l = .string delimiter body
  · obtain ⟨delimiter, body, rfl⟩ := hl
    have hstring := @LongestString.append_string _ _ h
      { kind := .string, text := String.ofList body
        ascription := (s.observe (.string delimiter body)).waiting
        span := ⟨s.cursor.position, s.cursor.position.after (delimiter ++ body ++ delimiter)⟩ } rfl
    rw [String.toList_ofList] at hstring
    exact hstring
  · have hplain : ∀ t ∈ carry (s.observe l).waiting (l.tokens s.cursor.position),
        t.kind ≠ .string := by
      intro t ht
      obtain ⟨u, hu, hkind, -⟩ := mem_carry ht
      rw [hkind]
      exact Lexeme.kind_ne_string (fun delimiter body heq => hl ⟨delimiter, body, heq⟩) hu
    have hsame : (s.observe l).tally.longestString = s.tally.longestString := by
      cases l with
      | string delimiter body => exact absurd ⟨delimiter, body, rfl⟩ hl
      | _ => rfl
    rw [hsame]
    exact h.append_plain hplain

/-- What is true of a scan under way, between two lexemes: none of its tokens is an annotation or an
end of input, and its tally is up to date. -/
structure Kept (track : Bool) (s : Scan) : Prop where
  plain : ∀ t ∈ s.tokens.toList, t.kind ≠ .ascription ∧ t.kind ≠ .eof
  counts : s.tally.Counts track s.tokens.toList
  switches : s.tally.switches = s.switches.toList.length
  longest : LongestString s.tokens.toList s.tally.longestString

theorem Kept.accept (h : Kept track s) (haccept : s.accept track l = .ok s') : Kept track s' := by
  have hpushed := tally_foldlM_push (show _ = Except.ok s' from haccept)
  obtain ⟨hcounts, hlongest, hswitches⟩ := hpushed
  refine ⟨fun t ht => ?_, hcounts (counts_observe h.counts l), ?_, ?_⟩
  · obtain ⟨-, htokens, -⟩ := accept_ok haccept
    rw [htokens, List.mem_append] at ht
    rcases ht with ht | ht
    · exact h.plain t ht
    · obtain ⟨u, hu, hkind, -⟩ := mem_carry ht
      rw [hkind]
      exact (Lexeme.tokens_ascription hu).2
  · rw [hswitches, accept_switches haccept]
    exact switches_observe h.switches l
  · rw [hlongest]
    exact longest_accept h.longest haccept

theorem kept_of_run {source : List Char} (h : run track {} source = .ok s) : Kept track s := by
  have hstart : Kept track {} :=
    ⟨List.forall_mem_nil _, .nil, rfl, List.forall_mem_nil _, .inl rfl⟩
  refine @run_invariant track (fun _ _ => Kept track) ?_ {} s [] source hstart h
  intro _ _ _ _ _ _ _ hs _ haccept
  exact hs.accept haccept

/-- **The tokens of a finished scan**: those of the lexemes, the annotation that is left over if
there is one, and the end of input. All but the last are tallied. -/
theorem Kept.finish (h : Kept track s) (hfinish : s.finish track = .ok s') :
    ∃ (tokens left : List Token),
      s'.tokens.toList = tokens ++ left ++ [Token.closing (.point s.cursor.position)] ∧
      (∀ t ∈ tokens, t.kind ≠ .ascription ∧ t.kind ≠ .eof) ∧
      (left = [] ∨ ∃ t, left = [t] ∧ t.kind = .ascription ∧ t.ascription = none) ∧
      s'.tally.Counts track (tokens ++ left) ∧ LongestString tokens s'.tally.longestString ∧
      s'.tally.switches = s'.switches.toList.length ∧
      s'.tally.lines = s'.cursor.lineStarts.size := by
  unfold Scan.finish at hfinish
  split at hfinish
  · cases hfinish
    have hcounts := h.counts
    refine ⟨s.tokens.toList, [], by simp, h.plain, .inl rfl, ?_, h.longest, h.switches, rfl⟩
    rw [List.append_nil]
    exact ⟨hcounts.total, hcounts.ofKind, hcounts.annotated, hcounts.uses⟩
  · rename_i w span hpending
    unfold Scan.push at hfinish
    split at hfinish
    · cases hfinish
    · cases hfinish
      have hcounts := h.counts.addToken { kind := .ascription, text := w, span }
      exact ⟨s.tokens.toList, [{ kind := .ascription, text := w, span }], by simp, h.plain,
        .inr ⟨_, rfl, rfl, rfl⟩,
        ⟨hcounts.total, hcounts.ofKind, hcounts.annotated, hcounts.uses⟩, h.longest, h.switches,
        rfl⟩

end Scan

/-! ## The whole stream -/

section Closed

variable {tokens left : List Token} {span : Span}

/-- The end of input adds nothing to a count that does not ask for it. -/
theorem countP_closed {q : Token → Bool} (h : q (.closing span) = false) (ts : List Token) :
    (ts ++ [Token.closing span]).countP q = ts.countP q := by
  rw [List.countP_append, List.countP_singleton, h]
  rfl

theorem recount_total (h : ∀ t ∈ tokens, t.kind ≠ .eof) :
    (TokenCounts.ofTokens (tokens ++ [Token.closing span])).total = tokens.length := by
  rw [TokenCounts.total_ofTokens, countP_closed rfl, List.countP_eq_length]
  intro t ht
  simpa [Token.isEof] using h t ht

theorem countP_kind_closed {kind : TokenKind} (h : kind.isCounted = true) (ts : List Token) :
    (ts ++ [Token.closing span]).countP (·.kind == kind) = ts.countP (·.kind == kind) := by
  refine countP_closed ?_ ts
  cases kind with
  | eof => cases h
  | _ => rfl

/-- Annotations are found on tokens, and one more as the last token in front of the end if it is one
itself. -/
theorem recount_ascriptions (hplain : ∀ t ∈ tokens, t.kind ≠ .ascription ∧ t.kind ≠ .eof)
    (hleft : left = [] ∨ ∃ t, left = [t] ∧ t.kind = .ascription ∧ t.ascription = none) :
    (TokenCounts.ofTokens (tokens ++ left ++ [Token.closing span])).ascriptions
      = (tokens ++ left).countP (·.ascription.isSome)
        + if (tokens ++ left).getLast?.map Token.kind = some .ascription then 1 else 0 := by
  rw [TokenCounts.ascriptions_ofTokens, countP_closed rfl, countP_closed rfl]
  have hnone : tokens.countP (·.kind == .ascription) = 0 := by
    rw [List.countP_eq_zero]
    intro t ht
    simpa using (hplain t ht).1
  have hriding : tokens.countP (fun t => t.ascription.isSome && !t.isEof)
      = tokens.countP (·.ascription.isSome) := by
    refine List.countP_congr fun t ht => ?_
    simp [Token.isEof, (hplain t ht).2]
  rw [List.countP_append, List.countP_append, hnone, hriding, List.countP_append]
  rcases hleft with rfl | ⟨t, rfl, hkind, hbare⟩
  · have hlast : ¬ tokens.getLast?.map Token.kind = some .ascription := by
      intro hlast
      obtain ⟨t, ht, hkind⟩ := Option.map_eq_some_iff.mp hlast
      exact (hplain t (List.mem_of_getLast? ht)).1 hkind
    rw [List.append_nil, if_neg hlast]
    rfl
  · rw [List.getLast?_concat, Option.map_some, hkind, if_pos rfl]
    simp [hkind, hbare]

end Closed

theorem Scan.size_stream {track : Bool} {source : List Char} {s : Scan}
    (h : ofSource source track = .ok s) : (s.stream source).size = s.tokens.toList.length := by
  rw [← stream_remaining h, TokenStream.size, position_stream, TokenStream.remaining,
    List.length_cons]
  omega

/-- **The tally of a scan agrees with a recount.** Whether operators are tracked or not, let a text
be tokenized. As many tokens are tallied as the stream has, its end apart, and as a recount finds,
and of every kind as many as a recount finds, which is as many as there are. A recount of
annotations finds those that ride on tokens, as many as are tallied, and the token that an
annotation left over at the end has become. The longest string, the lines and the switches are those
of the stream and of the text. Tracked operators are listed with the number of times that each is
written, and nothing else is. -/
theorem tally_matches_recount {source : List Char} {track : Bool} {stream : TokenStream}
    {tally : Tally} (h : tokenize source track = .ok (stream, tally)) :
    tally.total = stream.size - 1 ∧
    tally.total = (TokenCounts.ofTokens stream.remaining).total ∧
    tally.keywords = (TokenCounts.ofTokens stream.remaining).keywords ∧
    tally.identifiers = (TokenCounts.ofTokens stream.remaining).identifiers ∧
    tally.operators = (TokenCounts.ofTokens stream.remaining).operators ∧
    tally.strings = (TokenCounts.ofTokens stream.remaining).strings ∧
    tally.numbers = (TokenCounts.ofTokens stream.remaining).numbers ∧
    (∀ kind : TokenKind, kind.isCounted = true →
      tally.ofKind kind = stream.remaining.countP (·.kind == kind)) ∧
    (TokenCounts.ofTokens stream.remaining).ascriptions = tally.annotated
      + (if stream.remaining.dropLast.getLast?.map Token.kind = some .ascription then 1 else 0) ∧
    tally.annotated = stream.remaining.countP (·.ascription.isSome) ∧
    LongestString stream.remaining tally.longestString ∧
    tally.lines = 1 + source.count '\n' ∧
    tally.switches = stream.switches.length ∧
    (track = true → Uses tally.operatorUse (operatorTexts stream.remaining)) ∧
    (track = false → tally.operatorUse = []) := by
  obtain ⟨s, hs, rfl, rfl⟩ := Scan.ofSource_of_tokenize h
  obtain ⟨s', hrun, hfinish⟩ := Scan.ofSource_ok hs
  obtain ⟨tokens, left, htokens, hplain, hleft, hcounts, hlongest, hswitches, hlines⟩ :=
    (Scan.kept_of_run hrun).finish hfinish
  have hremaining := Scan.stream_remaining hs
  rw [htokens] at hremaining
  rw [hremaining, Scan.size_stream hs, htokens]
  have hleftKind : ∀ t ∈ left, t.kind = .ascription := by
    intro t ht
    rcases hleft with rfl | ⟨u, rfl, hkind, -⟩
    · cases ht
    · rw [List.mem_singleton.mp ht, hkind]
  have hends : ∀ t ∈ tokens ++ left, t.kind ≠ .eof := by
    intro t ht
    rcases List.mem_append.mp ht with ht | ht
    · exact (hplain t ht).2
    · simp [hleftKind t ht]
  have hkinds : ∀ kind : TokenKind, kind.isCounted = true →
      s.tally.ofKind kind = (tokens ++ left ++ [Token.closing (.point s'.cursor.position)]).countP
        (·.kind == kind) := by
    intro kind hkind
    rw [countP_kind_closed hkind, hcounts.ofKind kind hkind]
  have hrecount : ∀ kind : TokenKind, kind.isCounted = true → s.tally.ofKind kind
      = (TokenCounts.ofTokens
          (tokens ++ left ++ [Token.closing (.point s'.cursor.position)])).ofKind kind := by
    intro kind hkind
    rw [TokenCounts.ofKind_ofTokens _ hkind, hkinds kind hkind]
  refine ⟨?_, ?_, hrecount .keyword rfl, hrecount .identifier rfl, hrecount .operator rfl,
    hrecount .string rfl, hrecount .number rfl, hkinds, ?_, ?_, ?_, ?_, hswitches, ?_, ?_⟩
  · rw [hcounts.total, @List.length_append _ _ [_]]
    rfl
  · rw [hcounts.total, recount_total hends]
  · rw [recount_ascriptions hplain hleft, List.dropLast_concat, hcounts.annotated]
  · rw [hcounts.annotated]
    exact (countP_closed rfl _).symm
  · -- No string comes behind the tokens of the lexemes.
    rw [List.append_assoc]
    refine hlongest.append_plain fun t ht => ?_
    rcases List.mem_append.mp ht with ht | ht
    · simp [hleftKind t ht]
    · simp [List.mem_singleton.mp ht, Token.closing]
  · -- The scan has recorded the line starts of the whole text.
    have hstarts := congrArg List.length (Scan.table_stream hs).1
    have hcount := LineTable.lineCount_ofSource source
    rw [LineTable.lineCount, ← hstarts] at hcount
    rw [hlines, Nat.add_comm]
    exact hcount
  · rintro rfl
    have huses := hcounts.uses
    rw [if_pos rfl] at huses
    rw [operatorTexts_concat]
    simpa [Token.closing] using huses
  · rintro rfl
    exact hcounts.uses.eq_nil

/-- In two parentheses, the string `ab`, a newline and `:t` the annotation is left over: it is a
token that a recount finds as an annotation, while no annotation was tallied. -/
theorem tally_of_leftover_annotation : ∃ stream tally,
    tokenize ['(', '(', '\x22', 'a', 'b', '\x22', '\n', ':', 't'] true = .ok (stream, tally) ∧
    tally.total = 4 ∧ (TokenCounts.ofTokens stream.remaining).total = 4 ∧
    tally.annotated = 0 ∧ (TokenCounts.ofTokens stream.remaining).ascriptions = 1 ∧
    LongestString stream.remaining 2 ∧ tally.lines = 2 ∧
    Uses [("(", 2)] (operatorTexts stream.remaining) := by
  have hreads : Reads ['(', '(', '\x22', 'a', 'b', '\x22', '\n', ':', 't']
      [.operator ['('], .operator ['('], .string ['\x22'] ['a', 'b'], .newline,
        .ascription ['t']] :=
    .cons (by rfl) (.cons (by rfl) (.cons (by rfl) (.cons (by rfl) (.cons (by rfl) .nil))))
  have htokenize := Scan.tokenize_of_ofSource
    ((@Scan.ofSource_of_reads true _ _ (by decide) hreads).trans rfl)
  obtain ⟨-, htotal, -, -, -, -, -, -, hascriptions, -, hlongest, hlines, -, huses, -⟩ :=
    tally_matches_recount htokenize
  exact ⟨_, _, htokenize, rfl, htotal.symm.trans rfl, rfl, hascriptions.trans rfl, hlongest,
    hlines.trans rfl, huses rfl⟩

end FormScript
