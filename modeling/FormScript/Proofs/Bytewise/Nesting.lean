import FormScript.Proofs.Bytewise.Lexemes

/-!
# Block comments by offsets

A block comment is read byte by byte, and its limit is checked after every byte, while
`Lexeme.readBlockComment` goes character by character and checks after every one.
`Bytewise.CommentAt` says how the two correspond between characters. Inside a character of several
bytes nothing matches a delimiter or a newline, so the rounds in between only count: the limit is
passed at one of these bytes exactly if it is passed by the character.
-/

namespace FormScript.Bytewise

variable {source past rest : List Char} {track : Bool} {s : Scan}

section Rounds

variable {start fuel innermost deepest : Nat} {outer : List Nat} {m : State} {span : Span}

theorem bytesFrom_succ {offset : Nat} {b : UInt8} {bs : List UInt8}
    (h : bytesFrom source offset = .ok (b :: bs)) : bytesFrom source (offset + 1) = .ok bs := by
  unfold bytesFrom at h ⊢
  split at h
  · rename_i hle
    have hdrop : (utf8 source).drop offset = b :: bs := by injection h
    have hlength := congrArg List.length hdrop
    rw [List.length_drop, length_utf8, List.length_cons] at hlength
    rw [if_pos (by omega), ← List.drop_drop, hdrop]
    rfl
  · cases h

/-- A round that meets no delimiter goes one byte ahead. -/
theorem blockComment_round {b : UInt8} {bs : List UInt8}
    (hbytes : bytesFrom source m.offset = .ok (b :: bs))
    (hopen : (utf8 ['/', '*']).isPrefixOf (b :: bs) = false)
    (hclose : (utf8 ['*', '/']).isPrefixOf (b :: bs) = false) :
    blockComment source start (fuel + 1) innermost outer deepest m =
      let m' := { m with offset := m.offset + 1 }
      let m' := if onByte (· == '\n') b then m'.recordLineStart m'.offset else m'
      withinLimit source start m' fun _ =>
        blockComment source start fuel innermost outer deepest m' := by
  rw [blockComment, hbytes, Checked.ok_bind, hopen, hclose]
  rfl

theorem withinLimit_eq {next : Nat → Checked State} (hstart : start ≤ m.offset)
    (hspan : spanAt source m.lineStarts start (start + 2) = .ok span) :
    withinLimit source start m next
      = if Limits.commentBytes < m.offset - start then
          .error ⟨.commentTooLong (m.offset - start), span⟩
        else next (m.offset - start) := by
  rw [withinLimit, minus_of_le hstart, Checked.ok_bind, hspan]
  rfl

/-- Bytes inside a character are passed one by one. The limit is noticed at the first byte too
many. -/
theorem blockComment_skip {bs tail : List UInt8} (hbs : ∀ b ∈ bs, 128 ≤ b.toNat)
    (hbytes : bytesFrom source m.offset = .ok (bs ++ tail)) (hstart : start ≤ m.offset)
    (hlimit : m.offset - start ≤ Limits.commentBytes)
    (hspan : spanAt source m.lineStarts start (start + 2) = .ok span) :
    blockComment source start (fuel + bs.length) innermost outer deepest m
      = if Limits.commentBytes < m.offset + bs.length - start then
          .error ⟨.commentTooLong (Limits.commentBytes + 1), span⟩
        else blockComment source start fuel innermost outer deepest
          { m with offset := m.offset + bs.length } := by
  induction bs generalizing m with
  | nil => rw [List.length_nil, Nat.add_zero, Nat.add_zero, if_neg (by omega)]
  | cons b bs ih =>
    -- Such a byte begins no delimiter and is no newline.
    have hb := hbs b List.mem_cons_self
    have hno (c d : Char) (hc : isAscii c = true) :
        (utf8 [c, d]).isPrefixOf (b :: (bs ++ tail)) = false := by
      rw [utf8_cons_of_isAscii hc, List.isPrefixOf_cons_cons, toUInt8_beq_of_le hc hb,
        Bool.false_and]
    rw [List.cons_append] at hbytes
    have ih := @ih { m with offset := m.offset + 1 } (fun d hd => hbs d (List.mem_cons_of_mem _ hd))
      (bytesFrom_succ hbytes) (Nat.le_succ_of_le hstart)
    rw [List.length_cons, ← Nat.add_assoc, blockComment_round hbytes (hno _ _ rfl) (hno _ _ rfl),
      onByte_of_le _ hb]
    dsimp only at ih ⊢
    rw [if_neg Bool.false_ne_true, withinLimit_eq (m := { m with offset := m.offset + 1 })
      (Nat.le_succ_of_le hstart) hspan]
    dsimp only
    split
    · rw [if_pos (by omega), show m.offset + 1 - start = Limits.commentBytes + 1 by omega]
    · rw [ih (by omega) hspan, show m.offset + 1 + bs.length = m.offset + (bs.length + 1) by omega]

end Rounds

/-- How far a block comment has been read, by offsets and by characters: `done` is what was read of
it, and each comment that is still open begins with its delimiter there. -/
structure CommentAt (past done : List Char) (k : Lexeme.CommentState) (innermost : Nat)
    (outer : List Nat) : Prop where
  chars : k.chars = done.length
  bytes : k.bytes = byteLength done
  within : k.bytes ≤ Limits.commentBytes
  opens : ∃ tail, done = '/' :: '*' :: tail
  marks : ∀ i ∈ k.innermost :: k.outer, ∃ tail, done.drop i = '/' :: '*' :: tail
  innermost : innermost = byteLength (past ++ done.take k.innermost)
  outer : outer = k.outer.map fun i => byteLength (past ++ done.take i)

theorem lt_of_mark {done tail : List Char} {i : Nat} (h : done.drop i = '/' :: '*' :: tail) :
    i < done.length := by
  have hlength := congrArg List.length h
  rw [List.length_drop, List.length_cons] at hlength
  omega

/-- Reading on changes nothing about the comments that are open. -/
theorem CommentAt.extend {past done : List Char} {k : Lexeme.CommentState} {innermost : Nat}
    {outer : List Nat} (h : CommentAt past done k innermost outer) (more : List Char)
    (hwithin : k.bytes + byteLength more ≤ Limits.commentBytes) :
    CommentAt past (done ++ more)
      { k with chars := k.chars + more.length, bytes := k.bytes + byteLength more }
      innermost outer := by
  -- The comments that are open begin in `done`.
  have htake (i : Nat) (hi : i ∈ k.innermost :: k.outer) : (done ++ more).take i = done.take i := by
    obtain ⟨tail, hmark⟩ := h.marks i hi
    exact List.take_append_of_le_length (Nat.le_of_lt (lt_of_mark hmark))
  refine ⟨?_, ?_, hwithin, ?_, ?_, ?_, ?_⟩
  · rw [List.length_append, ← h.chars]
  · rw [byteLength_append, ← h.bytes]
  · obtain ⟨tail, hopens⟩ := h.opens
    exact ⟨tail ++ more, by rw [hopens]; rfl⟩
  · intro i hi
    obtain ⟨tail, hmark⟩ := h.marks i hi
    refine ⟨tail ++ more, ?_⟩
    rw [List.drop_append_of_le_length (Nat.le_of_lt (lt_of_mark hmark)), hmark]
    rfl
  · rw [h.innermost, htake _ List.mem_cons_self]
  · rw [h.outer]
    refine List.map_congr_left fun i hi => ?_
    rw [htake i (List.mem_cons_of_mem _ hi)]

section Comment

variable {done cs : List Char} {k : Lexeme.CommentState} {innermost : Nat} {outer : List Nat}

/-- The span of a delimiter that has been read. -/
theorem At.spanAt_mark {tail : List Char} {i : Nat} (h : At source past (done ++ cs) s)
    (hmark : done.drop i = '/' :: '*' :: tail) (cause : LexCause) :
    spanAt source (s.beyond done).bytewise.lineStarts (byteLength (past ++ done.take i))
        (byteLength (past ++ done.take i) + 2)
      = .ok (Fault.errorAt ⟨cause, i, 2⟩ s.cursor.position (done ++ cs)).span := by
  have hlength : (done.take i).length = i :=
    List.length_take_of_le (Nat.le_of_lt (lt_of_mark hmark))
  have hdone : done.take i ++ ['/', '*'] ++ tail = done := by
    rw [List.append_assoc, List.cons_append, List.singleton_append, ← hmark, List.take_append_drop]
  have hstarts : (s.beyond done).bytewise.lineStarts
      = (Cursor.start.after (past ++ (done.take i ++ ['/', '*'] ++ tail))).lineStarts := by
    rw [h.bytewise_beyond, hdone]
  have hstart : Known (s.beyond done).bytewise.lineStarts (past ++ done.take i) :=
    ⟨['/', '*'] ++ tail, by rw [hstarts]; simp only [List.append_assoc]⟩
  have hstop : Known (s.beyond done).bytewise.lineStarts (past ++ done.take i ++ ['/', '*']) :=
    ⟨tail, by rw [hstarts]; simp only [List.append_assoc]⟩
  have hspan := h.spanAt_fault cause
    (show done.take i ++ ['/', '*'] ++ (tail ++ cs) = done ++ cs by rw [← List.append_assoc, hdone])
    hstart hstop
  rw [byteLength_append _ ['/', '*'], show byteLength ['/', '*'] = 2 from rfl, hlength] at hspan
  exact hspan

/-- The span of the delimiter that a comment began with. -/
theorem At.spanAt_open {tail : List Char} (h : At source past (done ++ cs) s)
    (hopens : done = '/' :: '*' :: tail) (cause : LexCause) :
    spanAt source (s.beyond done).bytewise.lineStarts (byteLength past) (byteLength past + 2)
      = .ok (Fault.errorAt ⟨cause, 0, 2⟩ s.cursor.position (done ++ cs)).span := by
  have hspan := h.spanAt_mark (i := 0) (by rw [List.drop_zero, hopens]) cause
  rwa [List.take_zero, List.append_nil] at hspan

/-- The check made once `more` has been read. -/
theorem At.withinLimit_beyond {more : List Char} (h : At source past (done ++ more ++ cs) s)
    (hk : CommentAt past done k innermost outer) (next : Nat → Checked State) :
    withinLimit source (byteLength past) (s.beyond (done ++ more)).bytewise next
      = if Limits.commentBytes < k.bytes + byteLength more then
          .error (Fault.errorAt ⟨.commentTooLong (k.bytes + byteLength more), 0, 2⟩
            s.cursor.position (done ++ more ++ cs))
        else next (k.bytes + byteLength more) := by
  have hoffset : (s.beyond (done ++ more)).bytewise.offset
      = byteLength past + (k.bytes + byteLength more) := by
    rw [h.beyond.offset, byteLength_append, byteLength_append, hk.bytes]
  obtain ⟨tail, hopens⟩ := hk.opens
  have hspan := h.spanAt_open (show done ++ more = '/' :: '*' :: (tail ++ more) by rw [hopens]; rfl)
    (.commentTooLong (k.bytes + byteLength more))
  rw [withinLimit_eq (by omega) hspan, hoffset, Nat.add_sub_cancel_left]
  rfl

/-- One byte ahead, behind an ASCII character. -/
theorem At.beyond_ascii {c : Char} (h : At source past (c :: cs) s) (hc : isAscii c = true) :
    (if onByte (· == '\n') c.toUInt8 then
        { s.bytewise with offset := s.bytewise.offset + 1 }.recordLineStart (s.bytewise.offset + 1)
      else { s.bytewise with offset := s.bytewise.offset + 1 }) = (s.beyond [c]).bytewise := by
  rw [onByte_toUInt8 _ hc]
  by_cases hnewline : c = '\n'
  · subst hnewline
    exact h.beyond_newline
  · rw [if_neg (by simpa using hnewline), h.bytewise_beyond_line (by simpa using Ne.symm hnewline),
      h.offset, byteLength_snoc hc]

/-- A character inside a comment that begins no delimiter. -/
theorem At.blockComment_char {c : Char} {fuel : Nat} (h : At source past (done ++ c :: cs) s)
    (hk : CommentAt past done k innermost outer)
    (hopen : ['/', '*'].isPrefixOf (c :: cs) = false)
    (hclose : ['*', '/'].isPrefixOf (c :: cs) = false) :
    blockComment source (byteLength past) (fuel + c.utf8Size) innermost outer k.deepest
        (s.beyond done).bytewise
      = if Limits.commentBytes < k.bytes + c.utf8Size then
          .error (Fault.errorAt ⟨.commentTooLong (Limits.commentBytes + 1), 0, 2⟩ s.cursor.position
            (done ++ c :: cs))
        else blockComment source (byteLength past) fuel innermost outer k.deepest
          (s.beyond (done ++ [c])).bytewise := by
  have hbeyond := h.beyond
  have hbytes := bytesFrom_eq hbeyond.split
  rw [← hbeyond.offset] at hbytes
  have hwithin := hk.within
  cases hc : isAscii c with
  | true =>
    have hno {w : List Char} (hw : ∀ d ∈ w, isAscii d = true)
        (hno : w.isPrefixOf (c :: cs) = false) :
        (utf8 w).isPrefixOf (c.toUInt8 :: utf8 cs) = false := by
      rw [← utf8_cons_of_isAscii hc, isPrefixOf_utf8 hw, hno]
    have happend : done ++ [c] ++ cs = done ++ c :: cs := by simp
    have hnext : At source past (done ++ [c] ++ cs) s := by rwa [happend]
    have hsize : byteLength [c] = 1 := byteLength_of_isAscii (by simpa using hc)
    rw [utf8_cons_of_isAscii hc] at hbytes
    rw [utf8Size_of_isAscii hc, blockComment_round hbytes (hno (by simp; decide) hopen)
      (hno (by simp; decide) hclose)]
    dsimp only
    rw [hbeyond.beyond_ascii hc, ← Scan.beyond_append, hnext.withinLimit_beyond hk, hsize, happend]
    split
    · rw [show k.bytes + 1 = Limits.commentBytes + 1 by omega]
    · rfl
  | false =>
    -- None of its bytes is one of an ASCII character, so each is a round of its own.
    have hline : '\n' ∉ [c] := by
      intro hmem
      rw [← List.mem_singleton.mp hmem] at hc
      cases hc
    have hoffset : (s.beyond done).bytewise.offset = byteLength past + k.bytes := by
      rw [hbeyond.offset, byteLength_append, hk.bytes]
    obtain ⟨tail, hopens⟩ := hk.opens
    have hspan := h.spanAt_open hopens (.commentTooLong (Limits.commentBytes + 1))
    rw [utf8_cons] at hbytes
    have hskip := @blockComment_skip source (byteLength past) fuel innermost k.deepest outer
      (s.beyond done).bytewise _ _ _ (fun b hb => le_of_mem_utf8EncodeChar hc hb) hbytes
      (by omega) (by omega) hspan
    rw [String.length_utf8EncodeChar] at hskip
    rw [hskip, Scan.beyond_append, hbeyond.bytewise_beyond_line hline, byteLength_append _ [c],
      byteLength_cons, ← hbeyond.offset, hoffset,
      show byteLength past + k.bytes + c.utf8Size - byteLength past = k.bytes + c.utf8Size by omega]
    rfl

/-- A delimiter inside a comment moves the offset by two. -/
theorem At.beyond_mark {c d : Char} (h : At source past (done ++ [c, d] ++ cs) s)
    (hascii : ∀ x ∈ [c, d], isAscii x = true) (hline : '\n' ∉ [c, d]) :
    { (s.beyond done).bytewise with offset := (s.beyond done).bytewise.offset + 2 }
      = (s.beyond (done ++ [c, d])).bytewise := by
  rw [List.append_assoc] at h
  rw [Scan.beyond_append, h.beyond.bytewise_beyond_line hline, h.beyond.offset,
    byteLength_append _ [c, d], byteLength_of_isAscii hascii]
  rfl

/-- At the end of the text, the comment opened last is to blame. -/
theorem At.blockComment_end {fuel : Nat} (h : At source past (done ++ []) s)
    (hk : CommentAt past done k innermost outer) :
    blockComment source (byteLength past) (fuel + 1) innermost outer k.deepest
        (s.beyond done).bytewise
      = .error (Fault.errorAt ⟨.unterminatedComment, k.innermost, 2⟩ s.cursor.position
          (done ++ [])) := by
  have hbytes := bytesFrom_eq h.beyond.split
  rw [← h.beyond.offset] at hbytes
  obtain ⟨tail, hmark⟩ := hk.marks _ List.mem_cons_self
  have hspan := h.spanAt_mark hmark .unterminatedComment
  rw [← hk.innermost] at hspan
  rw [blockComment, hbytes, Checked.ok_bind, if_pos (show (utf8 []).isEmpty = true from rfl), hspan]
  rfl

theorem isEmpty_utf8_cons {c : Char} (hc : isAscii c = true) (cs : List Char) :
    ¬ (utf8 (c :: cs)).isEmpty = true := by
  rw [utf8_cons_of_isAscii hc]
  exact Bool.false_ne_true

/-- A comment is opened inside another, if they are not nested too deep. -/
theorem At.blockComment_open {fuel : Nat} (h : At source past (done ++ ['/', '*'] ++ cs) s)
    (hk : CommentAt past done k innermost outer) :
    blockComment source (byteLength past) (fuel + 1) innermost outer k.deepest
        (s.beyond done).bytewise
      = if Limits.commentDepth ≤ k.depth then
          .error (Fault.errorAt ⟨.commentNestingTooDeep (k.depth + 1), k.chars, 2⟩ s.cursor.position
            (done ++ ['/', '*'] ++ cs))
        else if Limits.commentBytes < k.bytes + 2 then
          .error (Fault.errorAt ⟨.commentTooLong (k.bytes + 2), 0, 2⟩ s.cursor.position
            (done ++ ['/', '*'] ++ cs))
        else blockComment source (byteLength past) fuel (byteLength (past ++ done))
          (innermost :: outer) (max k.deepest (k.depth + 1))
          (s.beyond (done ++ ['/', '*'])).bytewise := by
  have hascii : ∀ x ∈ ['/', '*'], isAscii x = true := by simp; decide
  have hstate := h.beyond_mark hascii (by simp)
  have hhere : At source (past ++ done) ('/' :: '*' :: cs) (s.beyond done) := by
    rw [List.append_assoc] at h
    exact h.beyond
  have hbytes := bytesFrom_eq hhere.split
  have houter : outer.length + 1 = k.depth := by
    rw [hk.outer, List.length_map]
    rfl
  have hspan := hhere.spanAt_here (.commentNestingTooDeep (k.depth + 1))
    (show ['/', '*'] ++ cs = '/' :: '*' :: cs from rfl) (by simp)
  rw [blockComment, hstate, hhere.offset, hbytes, Checked.ok_bind, if_neg (isEmpty_utf8_cons rfl _),
    if_pos (by rw [isPrefixOf_utf8 hascii]; rfl), houter]
  split
  · have hstop : byteLength (past ++ done) + 2 = byteLength (past ++ done ++ ['/', '*']) := by
      rw [byteLength_append (past ++ done), byteLength_of_isAscii hascii]
      rfl
    have hposition : s.cursor.position.after done = (s.beyond done).cursor.position :=
      (Cursor.position_after _ _).symm
    rw [hstop, hspan, hk.chars, List.append_assoc, Fault.errorAt_append, hposition, Checked.ok_bind,
      show outer.length + 2 = k.depth + 1 by omega]
    rfl
  · rw [h.withinLimit_beyond hk, show outer.length + 2 = k.depth + 1 by omega]
    rfl

/-- A comment is closed, and if it was the first, that is the end. -/
theorem At.blockComment_close {fuel : Nat} (h : At source past (done ++ ['*', '/'] ++ cs) s) :
    CommentAt past done k innermost outer →
    blockComment source (byteLength past) (fuel + 1) innermost outer k.deepest
        (s.beyond done).bytewise
      = if Limits.commentBytes < k.bytes + 2 then
          .error (Fault.errorAt ⟨.commentTooLong (k.bytes + 2), 0, 2⟩ s.cursor.position
            (done ++ ['*', '/'] ++ cs))
        else match outer with
          | [] => .ok { (s.beyond (done ++ ['*', '/'])).bytewise with
              tally := s.tally.addComment (k.bytes + 2) k.deepest }
          | next :: outer => blockComment source (byteLength past) fuel next outer k.deepest
              (s.beyond (done ++ ['*', '/'])).bytewise := by
  intro hk
  have hascii : ∀ x ∈ ['*', '/'], isAscii x = true := by simp; decide
  have hstate := h.beyond_mark hascii (by simp)
  have hhere : At source (past ++ done) ('*' :: '/' :: cs) (s.beyond done) := by
    rw [List.append_assoc] at h
    exact h.beyond
  have hbytes := bytesFrom_eq hhere.split
  rw [blockComment, hstate, hhere.offset, hbytes, Checked.ok_bind, if_neg (isEmpty_utf8_cons rfl _),
    if_neg (by rw [isPrefixOf_utf8 (by simp; decide)]; exact Bool.false_ne_true),
    if_pos (by rw [isPrefixOf_utf8 hascii]; rfl)]
  rw [h.withinLimit_beyond hk]
  rfl

/-- What a comment that is opened adds to those that are open. -/
theorem CommentAt.opened (hk : CommentAt past done k innermost outer)
    (hwithin : k.bytes + 2 ≤ Limits.commentBytes) :
    CommentAt past (done ++ ['/', '*'])
      { chars := k.chars + 2, bytes := k.bytes + 2, innermost := k.chars,
        outer := k.innermost :: k.outer, deepest := max k.deepest (k.depth + 1) }
      (byteLength (past ++ done)) (innermost :: outer) := by
  have hmore := hk.extend ['/', '*'] hwithin
  have hchars : (done ++ ['/', '*']).take k.chars = done := by rw [hk.chars, List.take_left]
  refine ⟨hmore.chars, hmore.bytes, hmore.within, hmore.opens, ?_, ?_, ?_⟩
  · intro i hi
    rcases List.mem_cons.mp hi with rfl | hi
    · exact ⟨[], by rw [hk.chars, List.drop_left]⟩
    · exact hmore.marks i hi
  · rw [hchars]
  · rw [List.map_cons, ← hmore.outer]
    exact congrArg (· :: outer) hmore.innermost

/-- What is open once a comment inside another is closed. -/
theorem CommentAt.closed {next : Nat} {more : List Nat} (hk : CommentAt past done k innermost outer)
    (houter : k.outer = next :: more) (hwithin : k.bytes + 2 ≤ Limits.commentBytes) :
    ∃ innermost' outer', outer = innermost' :: outer' ∧ CommentAt past (done ++ ['*', '/'])
      { k with chars := k.chars + 2, bytes := k.bytes + 2, innermost := next, outer := more }
      innermost' outer' := by
  have hmore := hk.extend ['*', '/'] hwithin
  have hmap := hmore.outer
  have hmarks := hmore.marks
  dsimp only at hmap hmarks
  rw [houter] at hmarks
  rw [houter, List.map_cons] at hmap
  refine ⟨_, _, hmap, hmore.chars, hmore.bytes, hmore.within, hmore.opens, ?_, rfl, rfl⟩
  exact fun i hi => hmarks i (List.mem_cons_of_mem _ hi)

theorem isPrefixOf_pair_eq_false {a b c : Char} {cs : List Char}
    (h : ∀ tail, c = a → cs = b :: tail → False) : [a, b].isPrefixOf (c :: cs) = false := by
  rw [← Bool.not_eq_true, List.isPrefixOf_iff_prefix]
  rintro ⟨tail, htail⟩
  rw [List.cons_append, List.singleton_append] at htail
  injection htail with hc hcs
  exact h tail hc.symm hcs.symm

theorem append_pair (done : List Char) (a b : Char) (cs : List Char) :
    done ++ a :: b :: cs = done ++ [a, b] ++ cs := by simp

theorem byteLength_pair {a b : Char} (ha : isAscii a = true) (hb : isAscii b = true)
    (cs : List Char) : byteLength (a :: b :: cs) = byteLength cs + 2 := by
  rw [byteLength_cons, byteLength_cons, utf8Size_of_isAscii ha, utf8Size_of_isAscii hb]
  omega

/-- **Block comments** are read alike by bytes and by characters. -/
theorem At.blockComment_eq {fuel : Nat} (h : At source past (done ++ cs) s)
    (hk : CommentAt past done k innermost outer) (hfuel : byteLength cs < fuel) :
    blockComment source (byteLength past) fuel innermost outer k.deepest (s.beyond done).bytewise
      = match Lexeme.readBlockComment k cs with
        | .error f => .error (f.errorAt s.cursor.position (done ++ cs))
        | .ok (k', _) => .ok { (s.beyond ((done ++ cs).take k'.chars)).bytewise with
            tally := s.tally.addComment (byteLength ((done ++ cs).take k'.chars)) k'.deepest } := by
  obtain ⟨fuel, rfl⟩ : ∃ n, fuel = n + 1 := ⟨fuel - 1, by omega⟩
  -- The induction is on the characters ahead; a character takes as many rounds as it has bytes.
  fun_induction Lexeme.readBlockComment k cs generalizing done fuel innermost outer with
  | case1 k => exact h.blockComment_end hk
  | case2 k cs hdepth =>
    rw [append_pair] at h ⊢
    rw [h.blockComment_open hk, if_pos hdepth]
  | case3 k cs hdepth hlong =>
    rw [append_pair] at h ⊢
    rw [h.blockComment_open hk, if_neg hdepth, if_pos hlong]
  | case4 k cs hdepth hlong ih =>
    rw [append_pair] at h ⊢
    rw [h.blockComment_open hk, if_neg hdepth, if_neg hlong]
    rw [byteLength_pair rfl rfl] at hfuel
    obtain ⟨fuel, rfl⟩ : ∃ n, fuel = n + 1 := ⟨fuel - 1, by omega⟩
    exact ih h (hk.opened (by omega)) fuel (by omega)
  | case5 k cs hlong =>
    rw [append_pair] at h ⊢
    rw [h.blockComment_close hk, if_pos hlong]
  | case6 k cs hlong houter =>
    rw [append_pair] at h ⊢
    have hnone : outer = [] := by rw [hk.outer, houter, List.map_nil]
    have htake : (done ++ ['*', '/'] ++ cs).take (k.chars + 2) = done ++ ['*', '/'] := by
      rw [List.take_left' (by rw [hk.chars, List.length_append]; rfl)]
    have hbytes : byteLength (done ++ ['*', '/']) = k.bytes + 2 := by
      rw [byteLength_append, hk.bytes]
      rfl
    subst hnone
    rw [h.blockComment_close hk, if_neg hlong]
    dsimp only
    rw [htake, hbytes]
  | case7 k cs hlong next outer' houter ih =>
    rw [append_pair] at h ⊢
    rw [byteLength_pair rfl rfl] at hfuel
    obtain ⟨fuel, rfl⟩ : ∃ n, fuel = n + 1 := ⟨fuel - 1, by omega⟩
    obtain ⟨innermost', outer'', rfl, hk'⟩ := hk.closed houter (by omega)
    rw [h.blockComment_close hk, if_neg hlong]
    exact ih h hk' fuel (by omega)
  | case8 k c cs hopen hclose hlong =>
    rw [byteLength_cons] at hfuel
    obtain ⟨n, hn⟩ : ∃ n, fuel + 1 = n + 1 + c.utf8Size := ⟨fuel - c.utf8Size, by omega⟩
    rw [hn, h.blockComment_char hk (isPrefixOf_pair_eq_false hopen)
      (isPrefixOf_pair_eq_false hclose), if_pos hlong]
  | case9 k c cs hopen hclose hlong ih =>
    rw [byteLength_cons] at hfuel
    have happend : done ++ c :: cs = done ++ [c] ++ cs := by simp
    obtain ⟨n, hn⟩ : ∃ n, fuel + 1 = n + 1 + c.utf8Size := ⟨fuel - c.utf8Size, by omega⟩
    rw [hn, h.blockComment_char hk (isPrefixOf_pair_eq_false hopen)
      (isPrefixOf_pair_eq_false hclose), if_neg hlong, happend]
    rw [happend] at h
    have hsize : byteLength [c] = c.utf8Size := by
      rw [byteLength_cons, byteLength_nil, Nat.add_zero]
    have hk' := hk.extend [c] (by rw [hsize]; omega)
    rw [hsize] at hk'
    exact ih h hk' n (by omega)

/-- A block comment is taken in as it is read. -/
theorem At.comment_eq {cs : List Char} (h : At source past ('/' :: '*' :: cs) s) :
    blockComment source (byteLength past) (byteLength source) (byteLength past) [] 1
        { s.bytewise with offset := byteLength past + 2 }
      = ofRead track s ('/' :: '*' :: cs) (Lexeme.readComment cs) := by
  have hstart : At source past (['/', '*'] ++ cs) s := h
  have hfuel : byteLength cs < byteLength source := by
    rw [← h.split, byteLength_append, byteLength_pair rfl rfl]
    omega
  have hk : CommentAt past ['/', '*'] ⟨2, 2, 0, [], 1⟩ (byteLength past) [] := by
    refine ⟨rfl, rfl, by decide, ⟨[], rfl⟩, ?_, ?_, rfl⟩
    · intro i hi
      rw [List.mem_singleton] at hi
      exact ⟨[], by rw [hi]; rfl⟩
    · rw [List.take_zero, List.append_nil]
  have hstate : { s.bytewise with offset := byteLength past + 2 }
      = (s.beyond ['/', '*']).bytewise := by
    rw [h.bytewise_beyond_line (by simp), byteLength_append]
    rfl
  rw [hstate, hstart.blockComment_eq hk hfuel, Lexeme.readComment]
  cases hread : Lexeme.readBlockComment ⟨2, 2, 0, [], 1⟩ cs with
  | error f => rfl
  | ok r =>
    obtain ⟨k, rest⟩ := r
    obtain ⟨text, -, hchars⟩ := Lexeme.readBlockComment_eq hread
    have htake : (['/', '*'] ++ cs).take k.chars = '/' :: '*' :: cs.take (k.chars - 2) := by
      rw [List.take_append, List.take_of_length_le (by rw [hchars]; simp)]
      rfl
    dsimp only
    rw [htake, ofRead, accept_silent rfl]
    rfl

end Comment

end FormScript.Bytewise
