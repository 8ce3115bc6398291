import FormScript.Proofs.Bytewise
import FormScript.Proofs.Lines
import Mathlib.Data.List.Sort

/-!
# Line starts recorded elsewhere

A line table may be made from any numbers whatever: out of order, repeated, behind the end of the
text or inside a character. `LineTable.ofStarts` brings them in order, and all that a look-up relies
on is what comes of that (`LineTable.inOrder_ofStarts`): the table begins with zero and ascends.
Hence a line is found for every offset, it does not begin behind the offset, and only the first line
begins at zero.

The look-ups themselves cannot fail, as a difference of numbers is never less than zero. So that
there is something to prove they are written down once more with every step checked that could go
wrong on machine numbers (`checkedPosition`, `checkedLine`, `checkedExcerpt`), with any search of
the table in place of a walk along it, and with the line and the column kept in 32 bits.
**`recorded_starts_safe`** says that nothing goes wrong and that the results are the same, what a
position means under such a table, and that nothing but the set of the numbers counts. A line is
found by its index in the table, which has no bound; the number that is kept for it is the index
and one, modulo `2 ^ 32`.
-/

namespace FormScript

/-! ## Tables in order -/

/-- Where repetitions are erased from an ascending list, the same numbers are left, each once. -/
theorem eraseRepsBy_loop_spec (n : Nat) (ns acc : List Nat) :
    ∃ out, List.eraseRepsBy.loop (· == ·) n ns acc = acc.reverse ++ out ∧
      (∀ x, x ∈ out ↔ x ∈ n :: ns) ∧ ((n :: ns).Pairwise (· ≤ ·) → out.Pairwise (· < ·)) := by
  induction ns generalizing n acc with
  | nil => exact ⟨[n], by simp [List.eraseRepsBy.loop], by simp, by simp⟩
  | cons m ns ih =>
    rw [List.eraseRepsBy.loop]
    by_cases hnm : n = m
    · subst hnm
      obtain ⟨out, hloop, hmem, hascends⟩ := ih n acc
      refine ⟨out, by simpa using hloop, fun x => ?_, fun h => hascends h.of_cons⟩
      rw [hmem]
      simp
    · obtain ⟨out, hloop, hmem, hascends⟩ := ih m (n :: acc)
      have hne : (n == m) = false := beq_false_of_ne hnm
      refine ⟨n :: out, by simp [hne, hloop], fun x => ?_, fun h => ?_⟩
      · rw [List.mem_cons, hmem, List.mem_cons (l := m :: ns)]
      · refine List.pairwise_cons.mpr ⟨fun x hx => ?_, hascends h.of_cons⟩
        -- Everything left is at or behind the next number, which is not `n` itself.
        have hm : n ≤ m := List.rel_of_pairwise_cons h List.mem_cons_self
        rcases List.mem_cons.mp ((hmem x).mp hx) with rfl | hx
        · omega
        · have : m ≤ x := List.rel_of_pairwise_cons h.of_cons hx
          omega

theorem eraseReps_spec (ns : List Nat) :
    (∀ x, x ∈ ns.eraseReps ↔ x ∈ ns) ∧
      (ns.Pairwise (· ≤ ·) → ns.eraseReps.Pairwise (· < ·)) := by
  cases ns with
  | nil => exact ⟨fun x => Iff.rfl, fun _ => List.Pairwise.nil⟩
  | cons n ns =>
    obtain ⟨out, hloop, hspec⟩ := eraseRepsBy_loop_spec n ns []
    rw [List.eraseReps, List.eraseRepsBy, hloop]
    exact hspec

/-- An ascending list is cut in two behind the last number that is not greater than `x`, if there is
one. -/
theorem exists_split_of_ascending {ns : List Nat} {m x : Nat} (hascends : ns.Pairwise (· < ·))
    (hm : m ∈ ns) (hmx : m ≤ x) :
    ∃ before last after, ns = before ++ last :: after ∧ last ≤ x ∧ (∀ n ∈ before, n < last) ∧
      ∀ n ∈ after, x < n := by
  induction ns generalizing m with
  | nil => cases hm
  | cons k ns ih =>
    by_cases hmore : ∃ n ∈ ns, n ≤ x
    · obtain ⟨n, hn, hnx⟩ := hmore
      obtain ⟨before, last, after, rfl, hlast, hbefore, hafter⟩ := ih hascends.of_cons hn hnx
      refine ⟨k :: before, last, after, rfl, hlast, ?_, hafter⟩
      rw [List.forall_mem_cons]
      exact ⟨List.rel_of_pairwise_cons hascends (by simp), hbefore⟩
    · have hafter : ∀ n ∈ ns, x < n := fun n hn => Nat.lt_of_not_le fun hnx => hmore ⟨n, hn, hnx⟩
      refine ⟨[], k, ns, rfl, ?_, List.forall_mem_nil _, hafter⟩
      rcases List.mem_cons.mp hm with rfl | hm
      · exact hmx
      · exact absurd (hafter m hm) (Nat.not_lt_of_le hmx)

theorem lt_of_ascending {ns : List Nat} (h : ns.Pairwise (· < ·)) {i a b : Nat}
    (ha : ns[i]? = some a) (hb : ns[i + 1]? = some b) : a < b := by
  obtain ⟨hi, rfl⟩ := List.getElem?_eq_some_iff.mp ha
  obtain ⟨hi', rfl⟩ := List.getElem?_eq_some_iff.mp hb
  exact List.pairwise_iff_getElem.mp h i (i + 1) hi hi' (Nat.lt_succ_self i)

/-- An ascending list has no more numbers in front of one than there are smaller ones. -/
theorem le_of_ascending {ns : List Nat} (h : ns.Pairwise (· < ·)) {i a : Nat}
    (ha : ns[i]? = some a) : i ≤ a := by
  induction i generalizing a with
  | zero => exact Nat.zero_le a
  | succ i ih =>
    have hi : i < ns.length := Nat.lt_of_succ_lt (List.getElem?_eq_some_iff.mp ha).1
    have hlt := lt_of_ascending h (List.getElem?_eq_getElem hi) ha
    have hle := ih (List.getElem?_eq_getElem hi)
    omega

/-- What a look-up relies on. -/
structure LineTable.InOrder (t : LineTable) : Prop where
  ascends : t.starts.Pairwise (· < ·)
  zero : 0 ∈ t.starts

namespace LineTable

theorem mem_ofStarts (source : List Char) (starts : List Nat) (n : Nat) :
    n ∈ (ofStarts source starts).starts ↔ n ∈ 0 :: starts := by
  rw [ofStarts, (eraseReps_spec _).1, List.mem_mergeSort]

/-- **Any numbers make a table in order.** -/
theorem inOrder_ofStarts (source : List Char) (starts : List Nat) :
    (ofStarts source starts).InOrder where
  ascends := by
    have hsorted := @List.pairwise_mergeSort _ (fun a b : Nat => decide (a ≤ b))
      (fun a b c hab hbc => by simp only [decide_eq_true_eq] at *; omega)
      (fun a b => by simp only [Bool.or_eq_true, decide_eq_true_eq]; omega) (0 :: starts)
    exact (eraseReps_spec _).2 (hsorted.imp of_decide_eq_true)
  zero := (mem_ofStarts source starts 0).mpr List.mem_cons_self

end LineTable

/-! ## Looking up -/

/-- A search has an answer. -/
theorem exists_searched {ns : List Nat} {m x : Nat} (hascends : ns.Pairwise (· < ·)) (hm : m ∈ ns)
    (hmx : m ≤ x) : ∃ answer, Searched ns x answer := by
  obtain ⟨before, last, after, rfl, hlast, hbefore, hafter⟩ :=
    exists_split_of_ascending hascends hm hmx
  by_cases hx : last = x
  · exact ⟨.ok before.length, by simp [Searched, hx]⟩
  · refine ⟨.error (before.length + 1), ?_⟩
    have hlength : before.length + 1 = (before ++ [last]).length := by simp
    rw [List.append_cons, hlength]
    refine ⟨by simp, ?_, by simpa using hafter⟩
    intro n hn
    rw [List.take_left, List.mem_append, List.mem_singleton] at hn
    rcases hn with hn | rfl
    · have := hbefore n hn
      omega
    · omega

/-- The text between two offsets, which lie between characters. -/
def Between (source : List Char) (a b : Nat) (mid : List Char) : Prop :=
  ∃ before after, before ++ mid ++ after = source ∧ byteLength before = a ∧
    byteLength (before ++ mid) = b

theorem exists_of_cut?_go {n : Nat} {cs before : List Char} {r : List Char × List Char}
    (h : cut?.go n cs before = some r) :
    ∃ mid, r.1 = before.reverse ++ mid ∧ mid ++ r.2 = cs ∧ byteLength mid = n := by
  fun_induction cut?.go n cs before with
  | case1 cs before =>
    cases h
    exact ⟨[], by simp, rfl, rfl⟩
  | case2 => cases h
  | case3 n c cs before hle ih =>
    obtain ⟨mid, hbefore, hcs, hbytes⟩ := ih h
    refine ⟨c :: mid, by simpa using hbefore, by rw [List.cons_append, hcs], ?_⟩
    rw [byteLength_cons, hbytes]
    omega
  | case4 => cases h

theorem slice?_eq_some_iff {source mid : List Char} {a b : Nat} :
    slice? a b source = some mid ↔ Between source a b mid := by
  constructor
  · intro h
    unfold slice? at h
    split at h
    · rename_i hab
      obtain ⟨⟨before, rest⟩, hcut, h⟩ := Option.bind_eq_some_iff.mp h
      obtain ⟨⟨mid', after⟩, hcut', rfl⟩ := Option.map_eq_some_iff.mp h
      obtain ⟨_, hbefore, hsource, ha⟩ := exists_of_cut?_go hcut
      obtain ⟨_, hmid, hrest, hb⟩ := exists_of_cut?_go hcut'
      dsimp only [List.reverse_nil, List.nil_append] at *
      subst hbefore hmid
      refine ⟨before, after, by rw [List.append_assoc, hrest, hsource], ha, ?_⟩
      rw [byteLength_append]
      omega
    · cases h
  · rintro ⟨before, after, rfl, rfl, rfl⟩
    exact slice?_append before mid after

theorem Between.add_length_le {source mid : List Char} {a b : Nat} (h : Between source a b mid) :
    a + mid.length ≤ b := by
  obtain ⟨before, after, -, rfl, rfl⟩ := h
  rw [byteLength_append]
  exact Nat.add_le_add_left (length_le_byteLength mid) _

namespace LineTable

/-- The line that a search leads to: the one that begins there, or the one in front. -/
def lineOfAnswer : Except Nat Nat → Nat
  | .ok i => i
  | .error i => i - 1

/-- The place of an offset, with every step checked: the line must be one of the table, and it must
not begin behind the offset, whether its length in bytes is asked for or not. The numbers of the
line and of the column are cut to 32 bits. -/
def checkedPosition (t : LineTable) (answer : Except Nat Nat) (offset : Nat) :
    Checked StoredPosition := do
  let offset := min offset (byteLength t.source)
  let line := lineOfAnswer answer
  let lineStart ← .of t.starts[line]?
  let bytes ← Bytewise.minus offset lineStart
  let column := match slice? lineStart offset t.source with
    | some cs => cs.length
    | none => bytes
  .ok ⟨offset, .ofNat (line + 1), .ofNat (column + 1)⟩

/-- A line by its number, with every step checked: behind a line no other may begin at zero. -/
def checkedLine (t : LineTable) : Nat → Checked (Option (List Char))
  | 0 => .ok none
  | n + 1 =>
    match t.starts[n]? with
    | none => .ok none
    | some start => do
      let stop ← match t.starts[n + 1]? with
        | some next => Bytewise.minus next 1
        | none => .ok (byteLength t.source)
      .ok (slice? start stop t.source)

/-- An excerpt, with every step checked. Blanks and carets are counted without going below zero. -/
def checkedExcerpt (t : LineTable) (file : String) (span : Span) (message : String) :
    Checked String := do
  let place := s!"error: {message}\n  --> {file}:{span.start.line}:{span.start.column}\n"
  match ← t.checkedLine span.start.line with
  | none => .ok place
  | some line =>
    .ok (place ++ underlined span.start.line line (span.start.column - 1)
      (caretCount span line.length))

variable {t : LineTable}

/-- **The line of an offset** is the last of the table that begins at or before it. -/
theorem InOrder.exists_lineStart (h : t.InOrder) (x : Nat) :
    ∃ lineStart, t.starts[t.lineIndex x]? = some lineStart ∧ lineStart ≤ x ∧
      ∀ n ∈ t.starts, n ≤ x → n ≤ lineStart := by
  obtain ⟨before, last, after, hsplit, hlast, hbefore, hafter⟩ :=
    exists_split_of_ascending h.ascends h.zero (Nat.zero_le x)
  have hindex : t.lineIndex x = before.length := by
    rw [List.append_cons] at hsplit
    rw [lineIndex_of_append hsplit ?_ hafter]
    · simp
    · intro n hn
      rw [List.mem_append, List.mem_singleton] at hn
      rcases hn with hn | rfl
      · have := hbefore n hn
        omega
      · exact hlast
  refine ⟨last, ?_, hlast, fun n hn hnx => ?_⟩
  · rw [hindex, hsplit, List.getElem?_append_right (Nat.le_refl _), Nat.sub_self]
    rfl
  · rw [hsplit, List.mem_append, List.mem_cons] at hn
    rcases hn with hn | rfl | hn
    · exact Nat.le_of_lt (hbefore n hn)
    · exact Nat.le_refl _
    · exact absurd (hafter n hn) (Nat.not_lt_of_le hnx)

theorem InOrder.checkedPosition_eq (h : t.InOrder) {offset : Nat} {answer : Except Nat Nat}
    (hanswer : Searched t.starts (min offset (byteLength t.source)) answer) :
    t.checkedPosition answer offset = .ok (t.positionAt offset).stored := by
  have hsearch := lineIndex_of_searched h.ascends hanswer
  have hline : lineOfAnswer answer = t.lineIndex (min offset (byteLength t.source)) := by
    cases answer with
    | ok i => exact (hsearch.1 i rfl).symm
    | error i => exact (hsearch.2 i rfl).symm
  obtain ⟨lineStart, hget, hle, -⟩ := h.exists_lineStart (min offset (byteLength t.source))
  unfold checkedPosition
  dsimp only
  rw [hline, hget]
  unfold positionAt
  dsimp only
  rw [List.getD_eq_getElem?_getD, hget]
  show (Bytewise.minus (min offset (byteLength t.source)) lineStart >>= fun bytes => _) = _
  rw [Bytewise.minus, if_pos hle]
  rfl

theorem InOrder.checkedLine_eq (h : t.InOrder) (n : Nat) :
    t.checkedLine n = .ok (t.line? n) := by
  cases n with
  | zero => rfl
  | succ n =>
    rw [checkedLine, line?]
    cases hstart : t.starts[n]? with
    | none => rfl
    | some start =>
      cases hnext : t.starts[n + 1]? with
      | none => rfl
      | some next =>
        -- The line behind another begins behind it, so not at zero.
        have hlt : start < next := lt_of_ascending h.ascends hstart hnext
        dsimp only
        rw [Bytewise.minus, if_pos (by omega)]
        rfl

theorem InOrder.checkedExcerpt_eq (h : t.InOrder) (file : String) (span : Span)
    (message : String) :
    t.checkedExcerpt file span message = .ok (t.excerpt file span message) := by
  unfold checkedExcerpt
  rw [h.checkedLine_eq]
  cases hline : t.line? span.start.line with
  | none =>
    simp only [excerpt, hline, Position.text, toString, String.append_assoc]
    rfl
  | some line =>
    rw [excerpt_of_line? hline]
    rfl

/-- **What a position says of an offset.** An offset behind the end is taken for the end. The line
is the one with number `i` in the table, and the column counts the characters from its start on, or
the bytes if one of the two places lies inside a character. Neither number is greater than the bytes
in front allow. -/
theorem InOrder.positionAt_spec (h : t.InOrder) (offset : Nat) :
    ∃ i lineStart, t.starts[i]? = some lineStart ∧ (t.positionAt offset).line = i + 1 ∧
      (t.positionAt offset).offset = min offset (byteLength t.source) ∧
      lineStart ≤ min offset (byteLength t.source) ∧
      (∀ n ∈ t.starts, n ≤ min offset (byteLength t.source) → n ≤ lineStart) ∧
      (∀ mid, Between t.source lineStart (min offset (byteLength t.source)) mid →
        (t.positionAt offset).column = mid.length + 1) ∧
      ((∀ mid, ¬ Between t.source lineStart (min offset (byteLength t.source)) mid) →
        (t.positionAt offset).column = min offset (byteLength t.source) - lineStart + 1) ∧
      i ≤ lineStart ∧
      lineStart + (t.positionAt offset).column ≤ min offset (byteLength t.source) + 1 := by
  obtain ⟨lineStart, hget, hle, hlast⟩ := h.exists_lineStart (min offset (byteLength t.source))
  have hstart : t.starts.getD (t.lineIndex (min offset (byteLength t.source))) 0 = lineStart := by
    rw [List.getD_eq_getElem?_getD, hget]
    rfl
  have hcolumn : ∀ answer, slice? lineStart (min offset (byteLength t.source)) t.source = answer →
      (t.positionAt offset).column
        = (answer.map List.length).getD (min offset (byteLength t.source) - lineStart) + 1 := by
    rintro answer rfl
    unfold positionAt
    dsimp only
    rw [hstart]
    cases slice? lineStart (min offset (byteLength t.source)) t.source <;> rfl
  refine ⟨_, lineStart, hget, rfl, rfl, hle, hlast, fun mid hmid => ?_, fun hnone => ?_,
    le_of_ascending h.ascends hget, ?_⟩
  · exact hcolumn (some mid) (slice?_eq_some_iff.mpr hmid)
  · refine hcolumn none (Option.eq_none_iff_forall_ne_some.mpr fun mid hslice => ?_)
    exact hnone mid (slice?_eq_some_iff.mp hslice)
  · -- A column in characters is no greater than one in bytes.
    rw [hcolumn _ rfl]
    cases hslice : slice? lineStart (min offset (byteLength t.source)) t.source with
    | none =>
      simp only [Option.map_none, Option.getD_none]
      omega
    | some mid =>
      have hlength := (slice?_eq_some_iff.mp hslice).add_length_le
      simp only [Option.map_some, Option.getD_some]
      omega

end LineTable

/-! ## The line starts of a text -/

/-- A line begins at zero and behind every newline. -/
def IsLineStart (source : List Char) (n : Nat) : Prop :=
  n = 0 ∨ ∃ before after, before ++ '\n' :: after = source ∧ byteLength before + 1 = n

theorem Cursor.mem_lineStarts_iff (k : Cursor) (cs : List Char) (n : Nat) :
    n ∈ (k.after cs).lineStarts.toList ↔ n ∈ k.lineStarts.toList ∨
      ∃ before after, before ++ '\n' :: after = cs ∧
        k.position.offset + (byteLength before + 1) = n := by
  induction cs generalizing k with
  | nil => simp
  | cons c cs ih =>
    have hoffset : (k.next c).position.offset = k.position.offset + c.utf8Size :=
      Position.offset_next _ _
    -- A newline of the text is its first character or one of the others.
    have hcons : (∃ before after, before ++ '\n' :: after = c :: cs ∧
        k.position.offset + (byteLength before + 1) = n) ↔
        (c = '\n' ∧ k.position.offset + 1 = n) ∨ ∃ before after, before ++ '\n' :: after = cs ∧
          (k.next c).position.offset + (byteLength before + 1) = n := by
      rw [hoffset]
      constructor
      · rintro ⟨before, after, hsplit, rfl⟩
        cases before with
        | nil => exact .inl ⟨(List.cons.inj hsplit).1.symm, rfl⟩
        | cons d before =>
          obtain ⟨rfl, rfl⟩ := List.cons.inj hsplit
          exact .inr ⟨before, after, rfl, by rw [byteLength_cons]; omega⟩
      · rintro (⟨rfl, rfl⟩ | ⟨before, after, rfl, rfl⟩)
        · exact ⟨[], cs, rfl, rfl⟩
        · exact ⟨c :: before, after, rfl, by rw [byteLength_cons]; omega⟩
    rw [Cursor.after_cons, ih, hcons, ← or_assoc]
    refine or_congr_left ?_
    by_cases hc : c = '\n'
    · subst hc
      have hsize : '\n'.utf8Size = 1 := rfl
      rw [Cursor.next, if_pos rfl, Array.toList_push, List.mem_append, List.mem_singleton,
        Position.offset_next, hsize, eq_comm (a := n)]
      simp
    · rw [Cursor.next, if_neg hc]
      simp [hc]

namespace LineTable

theorem mem_ofSource (source : List Char) (n : Nat) :
    n ∈ (ofSource source).starts ↔ IsLineStart source n := by
  have h := Cursor.start.mem_lineStarts_iff source n
  have hzero : n ∈ Cursor.start.lineStarts.toList ↔ n = 0 := List.mem_singleton
  have hoffset : Cursor.start.position.offset = 0 := rfl
  simp only [hzero, hoffset, Nat.zero_add] at h
  exact h

/-- **Nothing but the set of the numbers counts**: where they are the line starts of the text, the
table is that of the text. -/
theorem ofStarts_eq_ofSource {source : List Char} {starts : List Nat}
    (h : ∀ n, n ∈ 0 :: starts ↔ IsLineStart source n) :
    ofStarts source starts = ofSource source := by
  have hstarts : (ofStarts source starts).starts = (ofSource source).starts := by
    refine List.Pairwise.eq_of_mem_iff (inOrder_ofStarts source starts).ascends
      (Cursor.tracks_after source).ascending fun n => ?_
    exact (mem_ofStarts source starts n).trans ((h n).trans (mem_ofSource source n).symm)
  exact congrArg (LineTable.mk source) hstarts

end LineTable

open LineTable

/-- **Line starts may be recorded in any order, and any numbers are safe.** Make a table of a text
from any list of numbers. Every offset can be searched for, and whatever the search answers, nothing
goes wrong on the way to the position that is kept; nor does anything go wrong for any number of a
line and for an excerpt of any span. The position of an offset is on the line that begins at the
greatest of the numbers, zero included, that is not behind the offset. If that line has number `i`
in the table, the line that is kept is `i + 1` modulo `2 ^ 32`, and the column that is kept counts
from the start of the line, modulo `2 ^ 32` too; in a text of fewer than `2 ^ 32 - 1` bytes both are
what is counted. If the numbers are the line starts of the text, in whatever order and however
often, every position and every line is that of the text's own table. -/
theorem recorded_starts_safe (source : List Char) (starts : List Nat) :
    (∀ offset,
      (∃ answer, Searched (ofStarts source starts).starts (min offset (byteLength source)) answer) ∧
      ∀ answer, Searched (ofStarts source starts).starts (min offset (byteLength source)) answer →
        (ofStarts source starts).checkedPosition answer offset
          = .ok ((ofStarts source starts).positionAt offset).stored) ∧
    (∀ n, (ofStarts source starts).checkedLine n = .ok ((ofStarts source starts).line? n)) ∧
    (∀ file span message, (ofStarts source starts).checkedExcerpt file span message
      = .ok ((ofStarts source starts).excerpt file span message)) ∧
    (∀ offset, ∃ i, ∃ lineStart ∈ 0 :: starts,
      (ofStarts source starts).starts[i]? = some lineStart ∧
      lineStart ≤ min offset (byteLength source) ∧
      (∀ n ∈ 0 :: starts, n ≤ min offset (byteLength source) → n ≤ lineStart) ∧
      ((ofStarts source starts).positionAt offset).stored.offset
        = min offset (byteLength source) ∧
      ((ofStarts source starts).positionAt offset).stored.line.toNat = (i + 1) % UInt32.size ∧
      (∀ mid, Between source lineStart (min offset (byteLength source)) mid →
        ((ofStarts source starts).positionAt offset).stored.column.toNat
          = (mid.length + 1) % UInt32.size) ∧
      ((∀ mid, ¬ Between source lineStart (min offset (byteLength source)) mid) →
        ((ofStarts source starts).positionAt offset).stored.column.toNat
          = (min offset (byteLength source) - lineStart + 1) % UInt32.size) ∧
      (byteLength source < UInt32.size - 1 →
        ((ofStarts source starts).positionAt offset).stored.line.toNat = i + 1 ∧
        ((ofStarts source starts).positionAt offset).stored.column.toNat
          = ((ofStarts source starts).positionAt offset).column)) ∧
    ((∀ n, n ∈ 0 :: starts ↔ IsLineStart source n) →
      (∀ offset, (ofStarts source starts).positionAt offset = (ofSource source).positionAt offset) ∧
      ∀ n, (ofStarts source starts).line? n = (ofSource source).line? n) := by
  have hinOrder := inOrder_ofStarts source starts
  have hmem := mem_ofStarts source starts
  refine ⟨fun offset => ⟨?_, fun answer => hinOrder.checkedPosition_eq⟩, hinOrder.checkedLine_eq,
    hinOrder.checkedExcerpt_eq, fun offset => ?_, fun h => ?_⟩
  · exact exists_searched hinOrder.ascends hinOrder.zero (Nat.zero_le _)
  · obtain ⟨i, lineStart, hget, hline, hoffset, hle, hlast, hchars, hbytes, hindex, hcolumn⟩ :=
      hinOrder.positionAt_spec offset
    rw [Position.stored_line, Position.stored_column, hline]
    refine ⟨i, lineStart, (hmem _).mp (List.mem_of_getElem? hget), hget, hle,
      fun n hn => hlast n ((hmem n).mpr hn), hoffset, rfl, fun mid hmid => ?_, fun hnone => ?_,
      fun hsize => ?_⟩
    · rw [hchars mid hmid]
    · rw [hbytes hnone]
      rfl
    · -- Neither the line nor the column is greater than the bytes and one.
      have hclamped : min offset (byteLength (ofStarts source starts).source) ≤ byteLength source :=
        Nat.min_le_right _ _
      exact ⟨Nat.mod_eq_of_lt (by omega), Nat.mod_eq_of_lt (by omega)⟩
  · rw [ofStarts_eq_ofSource h]
    exact ⟨fun _ => rfl, fun _ => rfl⟩

/-- The lines of `a`, newline, `é`, newline, `c` begin at zero, two and five, here recorded
backwards and one of them twice. -/
theorem recorded_starts_backwards :
    (∀ n, n ∈ [0, 5, 5, 2] ↔ IsLineStart ['a', '\n', 'é', '\n', 'c'] n) ∧
    (ofStarts ['a', '\n', 'é', '\n', 'c'] [5, 5, 2]).positionAt 6 = ⟨6, 3, 2⟩ ∧
    (ofStarts ['a', '\n', 'é', '\n', 'c'] [5, 5, 2]).line? 2 = some ['é'] := by
  have hstarts : ∀ n, n ∈ [0, 5, 5, 2] ↔ IsLineStart ['a', '\n', 'é', '\n', 'c'] n := by
    intro n
    rw [← mem_ofSource, show (ofSource ['a', '\n', 'é', '\n', 'c']).starts = [0, 2, 5] from rfl]
    simp only [List.mem_cons, List.not_mem_nil, or_false]
    omega
  obtain ⟨-, -, -, -, hown⟩ := recorded_starts_safe ['a', '\n', 'é', '\n', 'c'] [5, 5, 2]
  obtain ⟨hposition, hline⟩ := hown hstarts
  exact ⟨hstarts, (hposition 6).trans rfl, (hline 2).trans rfl⟩

end FormScript
