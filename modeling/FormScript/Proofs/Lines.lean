import FormScript.Proofs.Location

/-!
# Lines and columns

A position is counted along character by character. What it comes to is a property of the text in
front of it: the line is one more than the newlines there, and the column one more than the
characters behind the last of them (`Position.start_after`). As every character moves a place on in
the order of lines and columns, places of a text and offsets between its characters correspond
(**`offsets_correspond_to_positions`**).

Lines are what newlines leave between them. The table finds them by their starts, so a line has to
be recognized by what stands around it: `WholeLine past line rest` says that `line` is whole, and
then the table has it under the number of newlines in `past` (`LineTable.line?_of_wholeLine`). An
excerpt shows one such line, cut in two at the place it is about
(**`excerpt_shows_line_and_carets`**).

Lines and columns are numbers without bound here. In a text shorter than `2 ^ 32 - 1` bytes all of
them fit into 32 bits, which both results say along the way.
-/

namespace FormScript

/-! ## The place behind a text -/

/-- The text behind the last newline, or all of it if there is none. -/
def lastLine (cs : List Char) : List Char := (cs.reverse.takeWhile (· != '\n')).reverse

/-- The text up to the first newline, or all of it if there is none. -/
def firstLine (cs : List Char) : List Char := cs.takeWhile (· != '\n')

theorem not_mem_takeWhile_newline (cs : List Char) : '\n' ∉ cs.takeWhile (· != '\n') := by
  intro h
  have hne := List.all_eq_true.mp (@List.all_takeWhile _ (· != '\n') cs) '\n' h
  simp at hne

theorem not_mem_lastLine (cs : List Char) : '\n' ∉ lastLine cs := by
  rw [lastLine, List.mem_reverse]
  exact not_mem_takeWhile_newline _

/-- What stands in front of the last line is nothing, or it ends in a newline. -/
theorem exists_append_lastLine (cs : List Char) : ∃ past, past ++ lastLine cs = cs ∧
    (past = [] ∨ ∃ more, past = more ++ ['\n']) := by
  refine ⟨(cs.reverse.dropWhile (· != '\n')).reverse, ?_, ?_⟩
  · rw [lastLine, ← List.reverse_append, List.takeWhile_append_dropWhile, List.reverse_reverse]
  · cases hdrop : cs.reverse.dropWhile (· != '\n') with
    | nil => exact .inl rfl
    | cons c rest =>
      have hc := List.head?_dropWhile_not (· != '\n') cs.reverse
      simp only [hdrop, List.head?_cons, bne_eq_false_iff_eq] at hc
      exact .inr ⟨rest.reverse, by rw [List.reverse_cons, hc]⟩

/-- What stands behind the first line is nothing, or it begins with a newline. -/
theorem exists_firstLine_append (cs : List Char) : ∃ rest, firstLine cs ++ rest = cs ∧
    (rest = [] ∨ ∃ more, rest = '\n' :: more) := by
  refine ⟨cs.dropWhile (· != '\n'), List.takeWhile_append_dropWhile, ?_⟩
  cases hdrop : cs.dropWhile (· != '\n') with
  | nil => exact .inl rfl
  | cons c rest =>
    have hc := List.head?_dropWhile_not (· != '\n') cs
    simp only [hdrop, List.head?_cons, bne_eq_false_iff_eq] at hc
    exact .inr ⟨rest, by rw [hc]⟩

theorem firstLine_append_of_not_mem {a : List Char} (h : '\n' ∉ a) (b : List Char) :
    firstLine (a ++ b) = a ++ firstLine b := by
  refine List.takeWhile_append_of_pos fun c hc => ?_
  rw [bne_iff_ne]
  rintro rfl
  exact h hc

theorem firstLine_append_of_mem {a : List Char} (h : '\n' ∈ a) (b : List Char) :
    firstLine (a ++ b) = firstLine a := by
  have hnot : '\n' ∉ firstLine a := not_mem_takeWhile_newline a
  obtain ⟨rest, hsplit, rfl | ⟨more, rfl⟩⟩ := exists_firstLine_append a
  · rw [List.append_nil] at hsplit
    rw [hsplit] at hnot
    exact absurd h hnot
  · conv => lhs; rw [← hsplit, List.append_assoc, firstLine_append_of_not_mem hnot]
    exact List.append_nil _

namespace Position

/-- Inside a line the column counts characters. -/
theorem column_after (p : Position) {cs : List Char} (h : '\n' ∉ cs) :
    (p.after cs).column = p.column + cs.length := by
  induction cs generalizing p with
  | nil => rfl
  | cons c cs ih =>
    have hc : c ≠ '\n' := fun hc => h (by rw [hc]; exact List.mem_cons_self)
    rw [after_cons, ih _ fun hmem => h (List.mem_cons_of_mem _ hmem), next, if_neg hc,
      List.length_cons]
    dsimp only
    omega

/-- **The place behind a text**, read off the text. -/
theorem start_after (cs : List Char) :
    start.after cs = ⟨byteLength cs, 1 + cs.count '\n', 1 + (lastLine cs).length⟩ := by
  have hoffset : (start.after cs).offset = byteLength cs := by
    rw [offset_after]
    exact Nat.zero_add _
  have hline : (start.after cs).line = 1 + cs.count '\n' := line_after _ _
  have hcolumn : (start.after cs).column = 1 + (lastLine cs).length := by
    obtain ⟨past, hsplit, hpast⟩ := exists_append_lastLine cs
    -- A line begins in the first column, whether at the start of the text or behind a newline.
    have hbegin : (start.after past).column = 1 := by
      rcases hpast with rfl | ⟨more, rfl⟩
      · rfl
      · rw [after_append]
        rfl
    conv => lhs; rw [← hsplit]
    rw [after_append, column_after _ (not_mem_lastLine cs), hbegin]
  rw [← hoffset, ← hline, ← hcolumn]

/-- The order of places on a page: by line, and on one line by column. -/
def Precedes (p q : Position) : Prop := p.line < q.line ∨ p.line = q.line ∧ p.column < q.column

theorem Precedes.trans {p q r : Position} (hpq : p.Precedes q) (hqr : q.Precedes r) :
    p.Precedes r := by
  unfold Precedes at *
  omega

theorem precedes_next (p : Position) (c : Char) : p.Precedes (p.next c) := by
  unfold Precedes next
  split
  · exact .inl (Nat.lt_succ_self _)
  · exact .inr ⟨rfl, Nat.lt_succ_self _⟩

/-- **Reading on leads further down the page**, by however little. -/
theorem precedes_after (p : Position) {cs : List Char} (h : cs ≠ []) : p.Precedes (p.after cs) := by
  induction cs generalizing p with
  | nil => exact absurd rfl h
  | cons c cs ih =>
    rw [after_cons]
    by_cases hcs : cs = []
    · rw [hcs]
      exact p.precedes_next c
    · exact (p.precedes_next c).trans (ih _ hcs)

/-- The numbers of a place are no greater than the bytes in front of it allow. -/
theorem start_after_le (cs : List Char) :
    (start.after cs).line ≤ 1 + byteLength cs ∧ (start.after cs).column ≤ 1 + byteLength cs := by
  have hbytes := length_le_byteLength cs
  have hcount := @List.count_le_length _ _ '\n' cs
  have hlast : (lastLine cs).length ≤ cs.length := by
    obtain ⟨past, hsplit, -⟩ := exists_append_lastLine cs
    have hlength := congrArg List.length hsplit
    rw [List.length_append] at hlength
    omega
  rw [start_after]
  dsimp only
  omega

end Position

/-- Of two beginnings of a text the one with fewer bytes begins the other. -/
theorem exists_append_of_byteLength_lt {source a b : List Char} (ha : a <+: source)
    (hb : b <+: source) (h : byteLength a < byteLength b) : ∃ mid, mid ≠ [] ∧ b = a ++ mid := by
  rcases List.prefix_or_prefix_of_prefix ha hb with ⟨mid, rfl⟩ | ⟨mid, rfl⟩
  · refine ⟨mid, ?_, rfl⟩
    rintro rfl
    rw [List.append_nil] at h
    omega
  · rw [byteLength_append] at h
    omega

/-! ## Searching the table -/

/-- What a search for `x` in an ascending list may answer: a place where `x` stands, or the place
where it would have to be put. -/
def Searched (ns : List Nat) (x : Nat) : Except Nat Nat → Prop
  | .ok i => ns[i]? = some x
  | .error i => i ≤ ns.length ∧ (∀ n ∈ ns.take i, n < x) ∧ ∀ n ∈ ns.drop i, x < n

namespace LineTable

theorem lineIndex_of_append {t : LineTable} {offset : Nat} {upto behind : List Nat}
    (hsplit : t.starts = upto ++ behind) (hupto : ∀ n ∈ upto, n ≤ offset)
    (hbehind : ∀ n ∈ behind, offset < n) : t.lineIndex offset = upto.length - 1 := by
  have hnone : behind.takeWhile (· ≤ offset) = [] := by
    cases behind with
    | nil => rfl
    | cons n ns =>
      have hn := hbehind n List.mem_cons_self
      exact List.takeWhile_cons_of_neg (by simpa using hn)
  rw [lineIndex, hsplit, List.takeWhile_append_of_pos (by simpa using hupto), hnone,
    List.append_nil]

/-- **However the table is searched**, the line found is the same: the one that begins at the
offset, or the one in front of the place where the offset would have to be put. -/
theorem lineIndex_of_searched {t : LineTable} {offset : Nat} {answer : Except Nat Nat}
    (hascending : t.starts.Pairwise (· < ·)) (h : Searched t.starts offset answer) :
    (∀ i, answer = .ok i → t.lineIndex offset = i) ∧
      ∀ i, answer = .error i → t.lineIndex offset = i - 1 := by
  constructor
  · rintro i rfl
    obtain ⟨hlt, hget⟩ := List.getElem?_eq_some_iff.mp h
    have hsplit : t.starts = (t.starts.take i ++ [offset]) ++ t.starts.drop (i + 1) := by
      rw [← hget, List.append_assoc, List.singleton_append, List.getElem_cons_drop,
        List.take_append_drop]
    have hpairs := hascending
    rw [hsplit, List.pairwise_append, List.pairwise_append] at hpairs
    obtain ⟨⟨-, -, hbefore⟩, -, hafter⟩ := hpairs
    rw [lineIndex_of_append hsplit, List.length_append, List.length_take]
    · simp only [List.length_singleton]
      omega
    · intro n hn
      rcases List.mem_append.mp hn with hn | hn
      · exact Nat.le_of_lt (hbefore n hn offset (List.mem_singleton.mpr rfl))
      · exact Nat.le_of_eq (List.mem_singleton.mp hn)
    · intro n hn
      exact hafter offset (by simp) n hn
  · rintro i rfl
    obtain ⟨hle, hbefore, hbehind⟩ := h
    rw [lineIndex_of_append (List.take_append_drop i t.starts).symm
      (fun n hn => Nat.le_of_lt (hbefore n hn)) hbehind, List.length_take]
    omega

end LineTable

/-- **Offsets and places correspond.** In a text of fewer than `2 ^ 32 - 1` bytes, look up an offset
between two characters, that is, the end of a beginning of the text. The line is one more than the
newlines in front of it and the column one more than the characters behind the last of these, and
both fit into 32 bits; any search of the table leads to that line. A greater offset is further down
the page, so no two offsets have the same line and column. An offset behind the end is taken for the
end. -/
theorem offsets_correspond_to_positions {source : List Char}
    (hsize : byteLength source < UInt32.size - 1) :
    (∀ before, before <+: source →
      (LineTable.ofSource source).positionAt (byteLength before)
        = ⟨byteLength before, 1 + before.count '\n', 1 + (lastLine before).length⟩ ∧
      1 + before.count '\n' < UInt32.size ∧ 1 + (lastLine before).length < UInt32.size ∧
      ∀ answer, Searched (LineTable.ofSource source).starts (byteLength before) answer →
        (∀ i, answer = .ok i → i = before.count '\n') ∧
          ∀ i, answer = .error i → i - 1 = before.count '\n') ∧
    (∀ a b, a <+: source → b <+: source → byteLength a < byteLength b →
      ((LineTable.ofSource source).positionAt (byteLength a)).Precedes
        ((LineTable.ofSource source).positionAt (byteLength b))) ∧
    (∀ a b, a <+: source → b <+: source →
      ((LineTable.ofSource source).positionAt (byteLength a)).line
        = ((LineTable.ofSource source).positionAt (byteLength b)).line →
      ((LineTable.ofSource source).positionAt (byteLength a)).column
        = ((LineTable.ofSource source).positionAt (byteLength b)).column → a = b) ∧
    ∀ offset, byteLength source ≤ offset →
      (LineTable.ofSource source).positionAt offset
        = (LineTable.ofSource source).positionAt (byteLength source) := by
  have hposition : ∀ before, before <+: source →
      (LineTable.ofSource source).positionAt (byteLength before)
        = Position.start.after before := by
    rintro before ⟨after, rfl⟩
    exact LineTable.positionAt_byteLength before after
  have hprecedes : ∀ a b, a <+: source → b <+: source → byteLength a < byteLength b →
      (Position.start.after a).Precedes (Position.start.after b) := by
    intro a b ha hb hlt
    obtain ⟨mid, hmid, rfl⟩ := exists_append_of_byteLength_lt ha hb hlt
    rw [Position.after_append]
    exact Position.precedes_after _ hmid
  refine ⟨fun before hbefore => ?_, fun a b ha hb hlt => ?_, fun a b ha hb hline hcolumn => ?_, ?_⟩
  · have hle : byteLength before ≤ byteLength source := by
      obtain ⟨after, rfl⟩ := hbefore
      rw [byteLength_append]
      omega
    have hfits := Position.start_after_le before
    have hlookup := hposition before hbefore
    rw [Position.start_after] at hfits hlookup
    dsimp only at hfits
    refine ⟨hlookup, by omega, by omega, fun answer hanswer => ?_⟩
    -- The look-up is at the end of a beginning, so it does not clamp; its line is the index found.
    have hindex : (LineTable.ofSource source).lineIndex (byteLength before)
        = before.count '\n' := by
      have hline : ((LineTable.ofSource source).positionAt (byteLength before)).line
          = (LineTable.ofSource source).lineIndex
            (min (byteLength before) (byteLength source)) + 1 := rfl
      rw [Nat.min_eq_left hle, hlookup] at hline
      dsimp only at hline
      omega
    have hsearch := LineTable.lineIndex_of_searched (Cursor.tracks_after source).ascending hanswer
    rw [← hindex]
    exact ⟨fun i hi => (hsearch.1 i hi).symm, fun i hi => (hsearch.2 i hi).symm⟩
  · rw [hposition a ha, hposition b hb]
    exact hprecedes a b ha hb hlt
  · rw [hposition a ha, hposition b hb] at hline hcolumn
    -- Equal lines and columns leave neither beginning shorter than the other.
    have hsame : ∀ {a b : List Char}, a <+: source → b <+: source →
        (Position.start.after a).line = (Position.start.after b).line →
        (Position.start.after a).column = (Position.start.after b).column →
        ¬ byteLength a < byteLength b := by
      intro a b ha hb hline hcolumn hlt
      have hab := hprecedes a b ha hb hlt
      unfold Position.Precedes at hab
      omega
    have hab := hsame ha hb hline hcolumn
    have hba := hsame hb ha hline.symm hcolumn.symm
    rcases List.prefix_or_prefix_of_prefix ha hb with ⟨mid, rfl⟩ | ⟨mid, rfl⟩
    · have hmid := length_le_byteLength mid
      rw [byteLength_append] at hab
      rw [List.length_eq_zero_iff.mp (show mid.length = 0 by omega), List.append_nil]
    · have hmid := length_le_byteLength mid
      rw [byteLength_append] at hba
      rw [List.length_eq_zero_iff.mp (show mid.length = 0 by omega), List.append_nil]
  · intro offset hoffset
    unfold LineTable.positionAt
    rw [show (LineTable.ofSource source).source = source from rfl, Nat.min_eq_right hoffset,
      Nat.min_self]

/-- In `é`, newline, `xy` the place between `x` and `y` is at offset four, in the second column of
the second line, and comes behind the one in front of the newline. -/
theorem positions_behind_wide_character :
    byteLength ['é', '\n', 'x', 'y'] < UInt32.size - 1 ∧
    (LineTable.ofSource ['é', '\n', 'x', 'y']).positionAt 4 = ⟨4, 2, 2⟩ ∧
    ((LineTable.ofSource ['é', '\n', 'x', 'y']).positionAt 2).Precedes
      ((LineTable.ofSource ['é', '\n', 'x', 'y']).positionAt 4) ∧
    (LineTable.ofSource ['é', '\n', 'x', 'y']).positionAt 9
      = (LineTable.ofSource ['é', '\n', 'x', 'y']).positionAt 5 := by
  have hsize : byteLength ['é', '\n', 'x', 'y'] < UInt32.size - 1 := by decide
  obtain ⟨hposition, hprecedes, -, hbehind⟩ := offsets_correspond_to_positions hsize
  exact ⟨hsize, (hposition ['é', '\n', 'x'] (by decide)).1,
    hprecedes ['é'] ['é', '\n', 'x'] (by decide) (by decide) (by decide),
    hbehind 9 (by decide)⟩

/-! ## Lines -/

/-- Induction along the lines of a text: the last line, or one more line in front. -/
@[elab_as_elim]
theorem lines_induction {motive : List Char → Prop} (source : List Char)
    (last : ∀ line, '\n' ∉ line → motive line)
    (more : ∀ line rest, '\n' ∉ line → motive rest → motive (line ++ '\n' :: rest)) :
    motive source := by
  have hfirst : '\n' ∉ firstLine source := not_mem_takeWhile_newline source
  obtain ⟨rest, hsplit, rfl | ⟨behind, rfl⟩⟩ := exists_firstLine_append source
  · rw [← hsplit, List.append_nil]
    exact last _ hfirst
  · have hshorter : behind.length < source.length := by
      rw [← hsplit, List.length_append, List.length_cons]
      omega
    rw [← hsplit]
    exact more _ _ hfirst (lines_induction behind last more)
termination_by source.length

/-- Between `past` and `rest` stands a whole line. -/
structure WholeLine (past line rest : List Char) : Prop where
  begins : past = [] ∨ ∃ more, past = more ++ ['\n']
  inside : '\n' ∉ line
  ends : rest = [] ∨ ∃ more, rest = '\n' :: more

/-- The lines of a text, by their numbers: each is whole, with as many newlines in front of it. -/
theorem exists_wholeLine {source line : List Char} {n : Nat}
    (h : (source.splitOn '\n')[n]? = some line) :
    ∃ past rest, past ++ line ++ rest = source ∧ WholeLine past line rest ∧
      past.count '\n' = n := by
  induction source using lines_induction generalizing n with
  | last only honly =>
    rw [List.splitOn_eq_singleton honly, List.getElem?_singleton] at h
    split at h
    · rename_i hn
      obtain rfl := Option.some.inj h
      exact ⟨[], [], List.append_nil _, ⟨.inl rfl, honly, .inl rfl⟩, hn.symm⟩
    · cases h
  | more first behind hfirst ih =>
    rw [List.splitOn_append_cons_self_of_not_mem hfirst] at h
    cases n with
    | zero =>
      obtain rfl : first = line := Option.some.inj h
      exact ⟨[], '\n' :: behind, rfl, ⟨.inl rfl, hfirst, .inr ⟨behind, rfl⟩⟩, rfl⟩
    | succ n =>
      rw [List.getElem?_cons_succ] at h
      obtain ⟨past, rest, rfl, hline, hcount⟩ := ih h
      refine ⟨first ++ '\n' :: past, rest, by simp, ⟨?_, hline.inside, hline.ends⟩, ?_⟩
      · rcases hline.begins with rfl | ⟨init, rfl⟩
        · exact .inr ⟨first, rfl⟩
        · exact .inr ⟨first ++ '\n' :: init, by simp⟩
      · rw [List.count_append, List.count_cons_self, List.count_eq_zero.mpr hfirst, hcount]
        omega

theorem length_splitOn_newline (source : List Char) :
    (source.splitOn '\n').length = source.count '\n' + 1 := by
  induction source using lines_induction with
  | last only honly =>
    rw [List.splitOn_eq_singleton honly, List.count_eq_zero.mpr honly, List.length_singleton]
  | more first behind hfirst ih =>
    rw [List.splitOn_append_cons_self_of_not_mem hfirst, List.length_cons, ih, List.count_append,
      List.count_cons_self, List.count_eq_zero.mpr hfirst]
    omega

namespace LineTable

theorem lineCount_ofSource (source : List Char) :
    (ofSource source).lineCount = source.count '\n' + 1 := by
  have hline := (Cursor.tracks_after source).line
  rw [Cursor.position_after, Position.line_after] at hline
  rw [lineCount, ofSource, hline]
  exact Nat.add_comm _ _

/-- **A whole line is found under its number.** -/
theorem line?_of_wholeLine {past line rest : List Char} (h : WholeLine past line rest) :
    (ofSource (past ++ line ++ rest)).line? (past.count '\n' + 1) = some line := by
  have htracks := Cursor.tracks_after past
  have hcount : (Cursor.start.after past).lineStarts.toList.length = past.count '\n' + 1 := by
    have hlines := lineCount_ofSource past
    rwa [lineCount, ofSource] at hlines
  -- The line begins where the last line of `past` does, which is empty.
  have hlast : (Cursor.start.after past).lineStarts.toList.getLast? = some (byteLength past) := by
    rcases h.begins with rfl | ⟨more, rfl⟩
    · rfl
    · have hoffset := htracks.offset
      rw [Cursor.after_append, Cursor.after_cons, Cursor.after_nil] at hoffset ⊢
      rw [← hoffset, Cursor.next, if_pos rfl, Array.toList_push, List.getLast?_concat]
  have hinside : ((Cursor.start.after past).after line).lineStarts
      = (Cursor.start.after past).lineStarts := Cursor.lineStarts_of_no_newline _ h.inside
  have hstart : ∀ more, ((Cursor.start.after past).lineStarts.toList ++ more)[past.count '\n']?
      = some (byteLength past) := by
    intro more
    rw [List.getElem?_append_left (by omega), ← hlast, List.getLast?_eq_getElem?, hcount]
    rfl
  rcases h.ends with rfl | ⟨more, rfl⟩
  · -- The last line of the text goes up to its end.
    have hstarts : (ofSource (past ++ line ++ [])).starts
        = (Cursor.start.after past).lineStarts.toList ++ [] := by
      rw [ofSource, List.append_nil, List.append_nil, Cursor.after_append, hinside]
    have hnext : (ofSource (past ++ line ++ [])).starts[past.count '\n' + 1]? = none := by
      rw [hstarts, List.append_nil, List.getElem?_eq_none_iff]
      omega
    rw [line?, hnext, hstarts, hstart]
    show slice? (byteLength past) (byteLength (past ++ line ++ [])) (past ++ line ++ []) = some line
    rw [List.append_nil]
    simpa using slice?_append past line []
  · -- Any other one goes up to the newline, and the next begins behind that.
    have hoffset : ((Cursor.start.after past).after line).position.offset
        = byteLength (past ++ line) := by
      rw [← Cursor.after_append]
      exact (Cursor.tracks_after (past ++ line)).offset
    obtain ⟨later, hlater, -⟩ :=
      (((Cursor.start.after past).after line).next '\n').lineStarts_after more
    have hstarts : (ofSource (past ++ line ++ '\n' :: more)).starts
        = (Cursor.start.after past).lineStarts.toList
          ++ (byteLength (past ++ line) + 1) :: later := by
      rw [ofSource, Cursor.after_append, Cursor.after_append, Cursor.after_cons, hlater,
        Cursor.next, if_pos rfl, hinside, Array.toList_push, Position.offset_next, hoffset]
      exact List.append_assoc _ _ _
    have hnext : (ofSource (past ++ line ++ '\n' :: more)).starts[past.count '\n' + 1]?
        = some (byteLength (past ++ line) + 1) := by
      rw [hstarts, ← hcount, List.getElem?_append_right (Nat.le_refl _), Nat.sub_self]
      rfl
    rw [line?, hnext, hstarts, hstart]
    exact slice?_append past line ('\n' :: more)

/-- The lines of a table are what newlines leave between them. -/
theorem line?_eq_splitOn (source : List Char) (n : Nat) :
    (ofSource source).line? (n + 1) = (source.splitOn '\n')[n]? := by
  cases hline : (source.splitOn '\n')[n]? with
  | none =>
    rw [List.getElem?_eq_none_iff, length_splitOn_newline] at hline
    have hcount := lineCount_ofSource source
    have hnone : (ofSource source).starts[n]? = none := by
      rw [List.getElem?_eq_none_iff]
      rw [lineCount] at hcount
      omega
    rw [line?, hnone]
    rfl
  | some line =>
    obtain ⟨past, rest, rfl, hwhole, rfl⟩ := exists_wholeLine hline
    exact line?_of_wholeLine hwhole

end LineTable

/-! ## Excerpts -/

/-- A line with its number in a margin, and below it blanks and carets. -/
def underlined (number : Nat) (line : List Char) (lead carets : Nat) : String :=
  let margin := String.ofList (List.replicate (toString number).length ' ')
  let marks := String.ofList (List.replicate lead ' ' ++ List.replicate carets '^')
  s!" {margin} |\n {number} | {String.ofList line}\n {margin} | {marks}\n"

theorem pushn_empty (c : Char) (n : Nat) : "".pushn c n = String.ofList (List.replicate n c) := by
  rw [String.pushn_eq_repeat_push]
  induction n with
  | zero => rfl
  | succ n ih =>
    rw [Nat.repeat, ih, List.replicate_succ', ← String.toList_inj]
    simp

/-- What an excerpt shows of a line that is there. -/
theorem LineTable.excerpt_of_line? {t : LineTable} {span : Span} {line : List Char}
    (h : t.line? span.start.line = some line) (file message : String) :
    t.excerpt file span message
      = s!"error: {message}\n  --> {file}:{span.start.line}:{span.start.column}\n" ++
        underlined span.start.line line (span.start.column - 1) (caretCount span line.length) := by
  unfold excerpt
  rw [h]
  simp only [pushn_empty, underlined, Position.text, String.ofList_append, String.append_assoc,
    toString]

/-- **The line that a place is on**: what stands behind the newline in front of the place, and what
stands in front of the next newline. -/
theorem LineTable.line?_around (before after : List Char) :
    (ofSource (before ++ after)).line? (Position.start.after before).line
      = some (lastLine before ++ firstLine after) := by
  obtain ⟨past, hbefore, hpast⟩ := exists_append_lastLine before
  obtain ⟨rest, hafter, hrest⟩ := exists_firstLine_append after
  have hwhole : WholeLine past (lastLine before ++ firstLine after) rest := by
    refine ⟨hpast, ?_, hrest⟩
    rw [List.mem_append, not_or]
    exact ⟨not_mem_lastLine before, not_mem_takeWhile_newline after⟩
  have hsplit : before ++ after = past ++ (lastLine before ++ firstLine after) ++ rest := by
    conv => lhs; rw [← hbefore, ← hafter]
    simp only [List.append_assoc]
  -- The last line has no newline, so all newlines of `before` are in front of it.
  have hcount : before.count '\n' = past.count '\n' := by
    conv => lhs; rw [← hbefore]
    rw [List.count_append, List.count_eq_zero.mpr (not_mem_lastLine before), Nat.add_zero]
  rw [hsplit, Position.line_after, Nat.add_comm, hcount]
  exact line?_of_wholeLine hwhole

/-- Of a span from `before` on, the carets cover what is on its first line. -/
theorem caretCount_eq (before mid after : List Char) :
    LineTable.caretCount ⟨Position.start.after before, Position.start.after (before ++ mid)⟩
        (lastLine before ++ firstLine (mid ++ after)).length
      = max 1 (firstLine mid).length := by
  unfold LineTable.caretCount
  dsimp only
  by_cases hmid : '\n' ∈ mid
  · -- The span leaves the line, so its first line goes on to the end.
    have hline : (Position.start.after before).line
        ≠ (Position.start.after (before ++ mid)).line := by
      have hpos := List.count_pos_iff.mpr hmid
      rw [Position.line_after, Position.line_after, List.count_append]
      omega
    have hfirst := firstLine_append_of_mem hmid after
    rw [if_neg hline, Position.start_after, hfirst, List.length_append]
    dsimp only
    congr 1
    omega
  · have hline : (Position.start.after before).line
        = (Position.start.after (before ++ mid)).line := by
      rw [Position.line_after, Position.line_after, List.count_append, List.count_eq_zero.mpr hmid]
      rfl
    have hfirst : firstLine mid = mid := by
      simpa [firstLine] using firstLine_append_of_not_mem hmid []
    rw [if_pos hline, Position.after_append, Position.column_after _ hmid, hfirst]
    congr 1
    omega

/-- **Diagnostics show the right line and carets.** In a text of fewer than `2 ^ 32 - 1` bytes, the
lines under the numbers from one on hold no newline and give back the text if they are joined with
newlines. Let a span reach from the end of `before` to the end of `before ++ mid`. Its excerpt gives
the place, shows the line around it, and below that line as many blanks as characters stand in front
of the place, followed by carets under the characters of `mid` that are on the line, and by one
caret if there are none. All numbers of lines and columns fit into 32 bits. -/
theorem excerpt_shows_line_and_carets {source : List Char}
    (hsize : byteLength source < UInt32.size - 1) :
    (∃ lines : List (List Char), (∀ n, (LineTable.ofSource source).line? (n + 1) = lines[n]?) ∧
      lines.length = (LineTable.ofSource source).lineCount ∧ lines.length < UInt32.size ∧
      (∀ line ∈ lines, '\n' ∉ line) ∧ ['\n'].intercalate lines = source) ∧
    ∀ before mid after, before ++ mid ++ after = source → ∀ file message : String, ∃ span,
      (LineTable.ofSource source).span? (byteLength before) (byteLength (before ++ mid))
        = some span ∧
      span.start.column = (lastLine before).length + 1 ∧
      (∀ p, p = span.start ∨ p = span.stop → p.line < UInt32.size ∧ p.column < UInt32.size) ∧
      (LineTable.ofSource source).line? span.start.line
        = some (lastLine before ++ firstLine (mid ++ after)) ∧
      firstLine mid <+: firstLine (mid ++ after) ∧
      (LineTable.ofSource source).excerpt file span message
        = s!"error: {message}\n  --> {file}:{span.start.line}:{span.start.column}\n" ++
          underlined span.start.line (lastLine before ++ firstLine (mid ++ after))
            (span.start.column - 1) (max 1 (firstLine mid).length) := by
  constructor
  · have hlength := length_splitOn_newline source
    have hcount := @List.count_le_length _ _ '\n' source
    have hbytes := length_le_byteLength source
    refine ⟨source.splitOn '\n', LineTable.line?_eq_splitOn source, ?_, by omega, ?_,
      List.intercalate_splitOn '\n'⟩
    · rw [LineTable.lineCount_ofSource, hlength]
    · intro line hline
      obtain ⟨n, hn⟩ := List.getElem?_of_mem hline
      obtain ⟨past, rest, -, hwhole, -⟩ := exists_wholeLine hn
      exact hwhole.inside
  · rintro before mid after rfl file message
    have hstart : (LineTable.ofSource (before ++ mid ++ after)).positionAt (byteLength before)
        = Position.start.after before := by
      rw [List.append_assoc]
      exact LineTable.positionAt_byteLength before (mid ++ after)
    have hstop := LineTable.positionAt_byteLength (before ++ mid) after
    have hfits := Position.start_after_le before
    have hfits' := Position.start_after_le (before ++ mid)
    simp only [byteLength_append] at hsize hfits'
    have hline : (LineTable.ofSource (before ++ mid ++ after)).line?
        (Position.start.after before).line
          = some (lastLine before ++ firstLine (mid ++ after)) := by
      rw [List.append_assoc]
      exact LineTable.line?_around before (mid ++ after)
    have hcovered : firstLine mid <+: firstLine (mid ++ after) := by
      by_cases hmid : '\n' ∈ mid
      · exact ⟨[], by rw [List.append_nil, firstLine_append_of_mem hmid]⟩
      · rw [firstLine_append_of_not_mem hmid]
        exact (List.takeWhile_prefix _).trans (List.prefix_append _ _)
    refine ⟨⟨Position.start.after before, Position.start.after (before ++ mid)⟩, ?_, ?_, ?_, hline,
      hcovered, ?_⟩
    · rw [LineTable.span?, hstart, hstop, Span.between?, if_pos]
      rw [Position.after_append, Position.offset_after _ mid]
      omega
    · rw [Position.start_after]
      exact Nat.add_comm _ _
    · rintro p (rfl | rfl)
      · dsimp only
        omega
      · dsimp only
        omega
    · rw [LineTable.excerpt_of_line? hline, caretCount_eq]

/-- In `ab`, newline, `é(c`, newline, a span from the parenthesis to the end of the text is
underlined as far as the second line goes. -/
theorem excerpt_of_open_span :
    byteLength ['a', 'b', '\n', 'é', '(', 'c', '\n'] < UInt32.size - 1 ∧
    ∃ span, (LineTable.ofSource ['a', 'b', '\n', 'é', '(', 'c', '\n']).span? 5 8 = some span ∧
      (LineTable.ofSource ['a', 'b', '\n', 'é', '(', 'c', '\n']).excerpt "f" span "m"
        = "error: m\n  --> f:2:2\n   |\n 2 | é(c\n   |  ^^\n" := by
  have hsize : byteLength ['a', 'b', '\n', 'é', '(', 'c', '\n'] < UInt32.size - 1 := by decide
  obtain ⟨-, hexcerpt⟩ := excerpt_shows_line_and_carets hsize
  obtain ⟨span, hspan, -, -, -, -, htext⟩ :=
    hexcerpt ['a', 'b', '\n', 'é'] ['(', 'c', '\n'] [] rfl "f" "m"
  refine ⟨hsize, span, hspan, htext.trans ?_⟩
  obtain rfl := Option.some.inj hspan
  decide +kernel

end FormScript
