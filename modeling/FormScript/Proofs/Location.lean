import FormScript.Text.LineTable

/-!
# Places in a text

A position is carried along character by character, while a line table looks a position up. The
two agree because a cursor, wherever it has come to, knows where the current line began:
`Cursor.Tracks` says so, and one more character keeps it. **`positionAt_byteLength`** is the
agreement, for every place between two characters of a text; it does not matter that the cursor
met only the newlines before that place, since later ones begin lines behind it.

`Position.IsIn` is what the scanner and all stages behind it can promise of the places they hand
on: somebody who read the text from its start would come through here.
-/

namespace FormScript

/-! ## Bytes -/

theorem foldl_utf8Size (n : Nat) (cs : List Char) :
    cs.foldl (fun n c => n + c.utf8Size) n = n + byteLength cs := by
  induction cs generalizing n with
  | nil => rfl
  | cons c cs ih =>
    rw [byteLength, List.foldl_cons, List.foldl_cons, ih, ih (0 + c.utf8Size)]
    omega

@[simp] theorem byteLength_nil : byteLength [] = 0 := rfl

@[simp] theorem byteLength_cons (c : Char) (cs : List Char) :
    byteLength (c :: cs) = c.utf8Size + byteLength cs := by
  rw [byteLength, List.foldl_cons, foldl_utf8Size]
  omega

@[simp] theorem byteLength_append (cs ds : List Char) :
    byteLength (cs ++ ds) = byteLength cs + byteLength ds := by
  induction cs with
  | nil => simp
  | cons c cs ih =>
    rw [List.cons_append, byteLength_cons, byteLength_cons, ih]
    omega

theorem length_le_byteLength (cs : List Char) : cs.length ≤ byteLength cs := by
  induction cs with
  | nil => exact Nat.zero_le _
  | cons c cs ih =>
    have := c.utf8Size_pos
    rw [byteLength_cons, List.length_cons]
    omega

theorem Position.offset_after (p : Position) (cs : List Char) :
    (p.after cs).offset = p.offset + byteLength cs := by
  induction cs generalizing p with
  | nil => rfl
  | cons c cs ih =>
    rw [Position.after_cons, ih, Position.offset_next, byteLength_cons]
    omega

theorem Position.line_after (p : Position) (cs : List Char) :
    (p.after cs).line = p.line + cs.count '\n' := by
  induction cs generalizing p with
  | nil => rfl
  | cons c cs ih =>
    rw [Position.after_cons, ih, List.count_cons]
    by_cases hc : c = '\n'
    · subst hc
      simp only [Position.next, if_pos, beq_self_eq_true]
      omega
    · rw [Position.next, if_neg hc, if_neg (by simpa using hc)]
      rfl

theorem cut?_go_append (a b before : List Char) :
    cut?.go (byteLength a) (a ++ b) before = some (before.reverse ++ a, b) := by
  induction a generalizing before with
  | nil => simp [cut?.go]
  | cons c a ih =>
    have hpos := c.utf8Size_pos
    obtain ⟨n, hn⟩ : ∃ n, byteLength (c :: a) = n + 1 :=
      ⟨byteLength (c :: a) - 1, by rw [byteLength_cons]; omega⟩
    have hrest : n + 1 - c.utf8Size = byteLength a := by
      rw [← hn, byteLength_cons]
      omega
    have hle : c.utf8Size ≤ n + 1 := by
      rw [← hn, byteLength_cons]
      omega
    rw [hn, List.cons_append, cut?.go, if_pos hle, hrest, ih]
    simp

/-- A text falls apart at the end of any of its beginnings. -/
theorem cut?_append (a b : List Char) : cut? (byteLength a) (a ++ b) = some (a, b) := by
  rw [cut?, cut?_go_append]
  rfl

/-- The offsets around a stretch of text cut out that stretch. -/
theorem slice?_append (a b c : List Char) :
    slice? (byteLength a) (byteLength (a ++ b)) (a ++ b ++ c) = some b := by
  have hlen : byteLength (a ++ b) - byteLength a = byteLength b := by
    rw [byteLength_append]
    omega
  rw [slice?, if_pos (by rw [byteLength_append]; omega), List.append_assoc, cut?_append,
    Option.bind_some, hlen, cut?_append]
  rfl

/-! ## Cursors -/

/-- What a cursor knows that has read `read`: the offset and the line it has come to, where that
line began, and that every line began at or before this place. -/
structure Cursor.Tracks (k : Cursor) (read : List Char) : Prop where
  offset : k.position.offset = byteLength read
  line : k.lineStarts.toList.length = k.position.line
  first : k.lineStarts.toList.head? = some 0
  current : ∃ before line, before ++ line = read ∧
    k.lineStarts.toList.getLast? = some (byteLength before) ∧ k.position.column = line.length + 1
  ascending : k.lineStarts.toList.Pairwise (· < ·)
  reached : ∀ n ∈ k.lineStarts.toList, n ≤ byteLength read

theorem Cursor.tracks_start : Cursor.start.Tracks [] where
  offset := rfl
  line := rfl
  first := rfl
  current := ⟨[], [], rfl, rfl, rfl⟩
  ascending := by simp [Cursor.start]
  reached := by simp [Cursor.start]

/-- One more character. Only a newline begins a line, and then behind all others. -/
theorem Cursor.Tracks.next {k : Cursor} {read : List Char} (h : k.Tracks read) (c : Char) :
    (k.next c).Tracks (read ++ [c]) := by
  have hpos := c.utf8Size_pos
  have hoffset : (k.position.next c).offset = byteLength (read ++ [c]) := by
    rw [Position.offset_next, h.offset, byteLength_append, byteLength_cons, byteLength_nil,
      Nat.add_zero]
  by_cases hc : c = '\n'
  · -- A line begins at the end of what is read, behind every line so far.
    have hstarts : (k.next c).lineStarts.toList
        = k.lineStarts.toList ++ [byteLength (read ++ [c])] := by
      rw [Cursor.next, if_pos hc, Array.toList_push, hoffset]
    refine ⟨hoffset, ?_, ?_, ?_, ?_, ?_⟩
    · rw [hstarts, List.length_append, h.line, Cursor.next, Position.next, if_pos hc]
      rfl
    · rw [hstarts, List.head?_append, h.first]
      rfl
    · refine ⟨read ++ [c], [], by simp, ?_, ?_⟩
      · rw [hstarts, List.getLast?_append]
        rfl
      · rw [Cursor.next, Position.next, if_pos hc]
        rfl
    · rw [hstarts, List.pairwise_append]
      refine ⟨h.ascending, by simp, ?_⟩
      intro n hn m hm
      have := h.reached n hn
      rw [List.mem_singleton.mp hm, byteLength_append, byteLength_cons]
      omega
    · intro n hn
      rw [hstarts, List.mem_append] at hn
      rcases hn with hn | hn
      · have := h.reached n hn
        rw [byteLength_append]
        omega
      · exact Nat.le_of_eq (List.mem_singleton.mp hn)
  · have hstarts : (k.next c).lineStarts = k.lineStarts := by rw [Cursor.next, if_neg hc]
    obtain ⟨before, line, hread, hlast, hcolumn⟩ := h.current
    refine ⟨hoffset, ?_, ?_, ?_, ?_, ?_⟩
    · rw [hstarts, h.line, Cursor.next, Position.next, if_neg hc]
    · rw [hstarts, h.first]
    · refine ⟨before, line ++ [c], by rw [← hread, List.append_assoc], ?_, ?_⟩
      · rw [hstarts, hlast]
      · rw [Cursor.next, Position.next, if_neg hc]
        simp [hcolumn]
    · rw [hstarts]
      exact h.ascending
    · intro n hn
      rw [hstarts] at hn
      have := h.reached n hn
      rw [byteLength_append]
      omega

theorem Cursor.Tracks.after {k : Cursor} {read : List Char} (h : k.Tracks read)
    (cs : List Char) : (k.after cs).Tracks (read ++ cs) := by
  induction cs generalizing k read with
  | nil => simpa using h
  | cons c cs ih =>
    have := ih (h.next c)
    rwa [List.append_assoc, List.singleton_append] at this

theorem Cursor.tracks_after (cs : List Char) : (Cursor.start.after cs).Tracks cs := by
  simpa using Cursor.tracks_start.after cs

/-- Reading on only adds line starts, and all of them behind the place reached before. -/
theorem Cursor.lineStarts_after (k : Cursor) (cs : List Char) :
    ∃ more, (k.after cs).lineStarts.toList = k.lineStarts.toList ++ more ∧
      ∀ n ∈ more, k.position.offset < n := by
  induction cs generalizing k with
  | nil => exact ⟨[], by simp, by simp⟩
  | cons c cs ih =>
    have hpos := c.utf8Size_pos
    obtain ⟨more, hmore, hlt⟩ := ih (k.next c)
    have hoffset : (k.next c).position.offset = k.position.offset + c.utf8Size :=
      Position.offset_next _ _
    by_cases hc : c = '\n'
    · refine ⟨(k.next c).position.offset :: more, ?_, ?_⟩
      · rw [Cursor.after_cons, hmore]
        simp [Cursor.next, hc]
      · intro n hn
        rcases List.mem_cons.mp hn with rfl | hn
        · omega
        · have := hlt n hn
          omega
    · refine ⟨more, ?_, ?_⟩
      · rw [Cursor.after_cons, hmore, Cursor.next, if_neg hc]
      · intro n hn
        have := hlt n hn
        omega

/-- Only newlines begin lines. -/
theorem Cursor.lineStarts_of_no_newline (k : Cursor) {cs : List Char} (h : '\n' ∉ cs) :
    (k.after cs).lineStarts = k.lineStarts := by
  induction cs generalizing k with
  | nil => rfl
  | cons c cs ih =>
    have hc : c ≠ '\n' := fun hc => h (by rw [hc]; exact List.mem_cons_self)
    rw [Cursor.after_cons, ih _ fun hmem => h (List.mem_cons_of_mem _ hmem), Cursor.next, if_neg hc]

/-! ## Looking up a place -/

namespace LineTable

/-- The lines of a text that begin at or before the end of `before` are the lines of `before`. -/
theorem takeWhile_starts (before after : List Char) :
    (ofSource (before ++ after)).starts.takeWhile (· ≤ byteLength before)
      = (Cursor.start.after before).lineStarts.toList := by
  have htracks := Cursor.tracks_after before
  obtain ⟨more, hmore, hlt⟩ := (Cursor.start.after before).lineStarts_after after
  have hmore_nil : more.takeWhile (· ≤ byteLength before) = [] := by
    cases more with
    | nil => rfl
    | cons n ns =>
      have hn := hlt n (by simp)
      rw [htracks.offset] at hn
      exact List.takeWhile_cons_of_neg (by simpa using hn)
  rw [ofSource, Cursor.after_append, hmore, List.takeWhile_append_of_pos, hmore_nil,
    List.append_nil]
  intro n hn
  simpa using htracks.reached n hn

/-- **Looking a place up.** At the end of any beginning of a text, its line table finds the
position that reading up to there leads to. -/
theorem positionAt_byteLength (before after : List Char) :
    (ofSource (before ++ after)).positionAt (byteLength before) = Position.start.after before := by
  have htracks := Cursor.tracks_after before
  have hposition : (Cursor.start.after before).position = Position.start.after before :=
    Cursor.position_after _ _
  obtain ⟨past, line, hread, hlast, hcolumn⟩ := htracks.current
  have hne : (Cursor.start.after before).lineStarts.toList ≠ [] := by
    intro hnil
    rw [hnil] at hlast
    simp at hlast
  have hmin : min (byteLength before) (byteLength (before ++ after)) = byteLength before := by
    rw [byteLength_append]
    omega
  -- The line at hand is the last that was begun in `before`; what follows begins later ones.
  have hindex : (ofSource (before ++ after)).lineIndex (byteLength before)
      = (Cursor.start.after before).lineStarts.toList.length - 1 := by
    rw [lineIndex, takeWhile_starts]
  have hstart : (ofSource (before ++ after)).starts.getD
      ((Cursor.start.after before).lineStarts.toList.length - 1) 0 = byteLength past := by
    obtain ⟨more, hmore, -⟩ := (Cursor.start.after before).lineStarts_after after
    have hpos := List.length_pos_iff.mpr hne
    rw [ofSource, Cursor.after_append, hmore, List.getD_eq_getElem?_getD,
      List.getElem?_append_left (by omega), ← List.getLast?_eq_getElem?, hlast]
    rfl
  have hslice : slice? (byteLength past) (byteLength before) (before ++ after) = some line := by
    rw [← hread]
    exact slice?_append past line after
  have hline := htracks.line
  have hpos := List.length_pos_iff.mpr hne
  rw [positionAt]
  simp only [show (ofSource (before ++ after)).source = before ++ after from rfl, hmin, hindex,
    hstart, hslice]
  rw [← hposition, ← hcolumn]
  show (⟨byteLength before, _, (Cursor.start.after before).position.column⟩ : Position)
    = (Cursor.start.after before).position
  rw [← htracks.offset, show (Cursor.start.after before).lineStarts.toList.length - 1 + 1
    = (Cursor.start.after before).position.line by omega]

/-- The line that an offset lies on is the last of those that begin at or before it. -/
theorem getD_lineIndex {t : LineTable} {offset : Nat}
    (hne : t.starts.takeWhile (· ≤ offset) ≠ []) :
    some (t.starts.getD (t.lineIndex offset) 0)
      = (t.starts.takeWhile (· ≤ offset)).getLast? := by
  have hpos := List.length_pos_iff.mpr hne
  have hlt : t.lineIndex offset < (t.starts.takeWhile (· ≤ offset)).length := by
    rw [lineIndex]
    omega
  have hsplit := @List.takeWhile_append_dropWhile _ (· ≤ offset) t.starts
  have hget : t.starts[t.lineIndex offset]?
      = (t.starts.takeWhile (· ≤ offset))[t.lineIndex offset]? := by
    rw [← List.getElem?_append_left hlt, hsplit]
  rw [List.getD_eq_getElem?_getD, hget, List.getLast?_eq_getElem?, ← lineIndex,
    List.getElem?_eq_getElem hlt]
  rfl

/-- A look-up depends on no line starts but those at or before the offset. -/
theorem positionAt_congr {t t' : LineTable} {offset : Nat} (hsource : t.source = t'.source)
    (hle : offset ≤ byteLength t.source)
    (hstarts : t.starts.takeWhile (· ≤ offset) = t'.starts.takeWhile (· ≤ offset))
    (hne : t.starts.takeWhile (· ≤ offset) ≠ []) :
    t.positionAt offset = t'.positionAt offset := by
  have hindex : t.lineIndex offset = t'.lineIndex offset := by rw [lineIndex, lineIndex, hstarts]
  have hget : t.starts.getD (t.lineIndex offset) 0 = t'.starts.getD (t'.lineIndex offset) 0 := by
    have := getD_lineIndex hne
    rw [hstarts, ← getD_lineIndex (hstarts ▸ hne)] at this
    exact Option.some.inj this
  have hmin : min offset (byteLength t.source) = offset := Nat.min_eq_left hle
  rw [hindex] at hget
  rw [positionAt, positionAt, ← hsource]
  simp only [hmin, hindex, hget]

theorem eraseRepsBy_loop_of_ascending (n : Nat) (ns acc : List Nat)
    (h : (n :: ns).Pairwise (· < ·)) :
    List.eraseRepsBy.loop (· == ·) n ns acc = acc.reverse ++ n :: ns := by
  induction ns generalizing n acc with
  | nil => simp [List.eraseRepsBy.loop]
  | cons m ns ih =>
    have hlt : n < m := List.rel_of_pairwise_cons h (by simp)
    have hne : (n == m) = false := by simpa using Nat.ne_of_lt hlt
    rw [List.eraseRepsBy.loop, hne]
    simp [ih m (n :: acc) h.of_cons]

/-- A table that was recorded while reading the text is adopted as it is. -/
theorem ofStarts_lineStarts (source : List Char) :
    ofStarts source (Cursor.start.after source).lineStarts.toList = ofSource source := by
  have htracks := Cursor.tracks_after source
  obtain ⟨ns, hns⟩ := List.head?_eq_some_iff.mp htracks.first
  have hascending := htracks.ascending
  rw [ofStarts, ofSource, hns] at *
  have hsorted : (0 :: 0 :: ns).Pairwise (fun a b => decide (a ≤ b) = true) := by
    refine List.Pairwise.cons (by simp) (hascending.imp ?_)
    intro a b hab
    simpa using Nat.le_of_lt hab
  rw [List.mergeSort_of_pairwise hsorted, List.eraseReps, List.eraseRepsBy,
    List.eraseRepsBy.loop]
  simp [eraseRepsBy_loop_of_ascending 0 ns [] hascending]

end LineTable

/-! ## Places that reading comes through -/

/-- Reading the text from its start leads through this place. -/
def Position.IsIn (p : Position) (source : List Char) : Prop :=
  ∃ before after, before ++ after = source ∧ p = Position.start.after before

/-- Both ends of a span are places of the text. -/
def Span.IsIn (s : Span) (source : List Char) : Prop :=
  s.start.IsIn source ∧ s.stop.IsIn source

/-- Both ends of a span are where the text's own line table finds their offsets. -/
def Span.Resolves (s : Span) (source : List Char) : Prop :=
  s.start = (LineTable.ofSource source).positionAt s.start.offset ∧
    s.stop = (LineTable.ofSource source).positionAt s.stop.offset

theorem Position.IsIn.resolves {p : Position} {source : List Char} (h : p.IsIn source) :
    p = (LineTable.ofSource source).positionAt p.offset := by
  obtain ⟨before, after, rfl, rfl⟩ := h
  rw [Position.offset_after, show Position.start.offset = 0 from rfl, Nat.zero_add,
    LineTable.positionAt_byteLength]

theorem Span.IsIn.resolves {s : Span} {source : List Char} (h : s.IsIn source) :
    s.Resolves source :=
  ⟨h.1.resolves, h.2.resolves⟩

/-- A span put together from two others begins and ends where one of them does. -/
theorem Span.IsIn.merge {s t : Span} {source : List Char} (hs : s.IsIn source)
    (ht : t.IsIn source) : (s.merge t).IsIn source := by
  constructor
  · simp only [Span.merge]
    split
    · exact hs.1
    · exact ht.1
  · simp only [Span.merge]
    split
    · exact hs.2
    · exact ht.2

end FormScript
