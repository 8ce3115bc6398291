import FormScript.Proofs.Reading
import FormScript.Proofs.Shape

/-!
# Block comments end at their match

A block comment may hold others. It ends where a counter that goes up at every `/*` and down at
every `*/` first comes back to zero, and there are two limits: on the counter and on the bytes. The
reader keeps a stack of the places of open marks instead, and looks at the limits in an order of its
own. Here the text is cut into marks and other characters once and for all (`CommentPiece.cut`), and
what the reader does is said in terms of the counter after each of these pieces.

A comment *stays open* through some pieces if after each of them the counter is positive and neither
limit is passed (`StaysOpen`). What comes next decides: the mark that closes the comment
(`Closes`), or one of the three errors (`Stops`). The invariant is `CommentState.Describes`: the
stack of the reader, from top to bottom, are the marks behind which all others are paired.
-/

namespace FormScript

/-- A mark, or a character that is no part of one. -/
inductive CommentPiece where
  | opening
  | closing
  | other (c : Char)
deriving DecidableEq, Repr

namespace CommentPiece

/-- How a piece is written. -/
def chars : CommentPiece → List Char
  | opening => ['/', '*']
  | closing => ['*', '/']
  | other c => [c]

/-- Marks are found from left to right, and no two of them overlap. -/
def cut : List Char → List CommentPiece
  | [] => []
  | '/' :: '*' :: cs => opening :: cut cs
  | '*' :: '/' :: cs => closing :: cut cs
  | c :: cs => other c :: cut cs

/-- The text that pieces make up. -/
def text (ps : List CommentPiece) : List Char := ps.flatMap chars

/-- The bytes of that text. -/
def size (ps : List CommentPiece) : Nat := byteLength (text ps)

/-- The counter: opening marks less closing marks. -/
def level (ps : List CommentPiece) : Int := ps.count opening - ps.count closing

/-- After each of the pieces a comment is open, and neither limit is passed. -/
def StaysOpen (done : List CommentPiece) : Prop :=
  ∀ ps, ps <+: done → ps ≠ [] →
    0 < level ps ∧ level ps ≤ Limits.commentDepth ∧ size ps ≤ Limits.commentBytes

/-- The largest value that the counter takes. -/
def IsDeepest (depth : Nat) (done : List CommentPiece) : Prop :=
  (∃ ps, ps <+: done ∧ level ps = depth) ∧ ∀ ps, ps <+: done → level ps ≤ depth

/-- Every mark has its match among the pieces. -/
def Paired (ps : List CommentPiece) : Prop := level ps = 0 ∧ ∀ qs, qs <+: ps → 0 ≤ level qs

/-- The comment that starts with the pieces is closed behind `done`, by the first mark to do so. -/
structure Closes (ps done rest : List CommentPiece) (depth : Nat) : Prop where
  split : ps = done ++ closing :: rest
  stays : StaysOpen done
  last : level done = 1
  short : size (done ++ [closing]) ≤ Limits.commentBytes
  deepest : IsDeepest depth done

/-- Bytes taken when the limit is passed: a mark is taken as a whole, another character byte by
byte. -/
def taken (done : List CommentPiece) : CommentPiece → Nat
  | other _ => Limits.commentBytes + 1
  | mark => size (done ++ [mark])

/-- The error that stops the comment at a position which starts with the pieces. -/
inductive Stops (ps : List CommentPiece) (p : Position) : LexError → Prop
  | tooDeep {done rest : List CommentPiece} (split : ps = done ++ opening :: rest)
      (stays : StaysOpen done) (full : level done = Limits.commentDepth) :
      Stops ps p ⟨.commentNestingTooDeep (Limits.commentDepth + 1),
        ⟨p.after (text done), p.after (text (done ++ [opening]))⟩⟩
  | tooLong {done rest : List CommentPiece} {next : CommentPiece}
      (split : ps = done ++ next :: rest) (stays : StaysOpen done)
      (room : next = opening → level done < Limits.commentDepth)
      (long : Limits.commentBytes < size (done ++ [next])) :
      Stops ps p ⟨.commentTooLong (taken done next), ⟨p, p.after (text [opening])⟩⟩
  | unterminated {outer inner : List CommentPiece} (split : ps = outer ++ opening :: inner)
      (stays : StaysOpen ps) (innermost : Paired inner) :
      Stops ps p ⟨.unterminatedComment, ⟨p.after (text outer), p.after (text (outer ++ [opening]))⟩⟩

/-! ## Pieces and text -/

theorem text_append (ps qs : List CommentPiece) : text (ps ++ qs) = text ps ++ text qs :=
  List.flatMap_append

theorem size_append (ps qs : List CommentPiece) : size (ps ++ qs) = size ps + size qs := by
  rw [size, text_append, byteLength_append]
  rfl

theorem size_other (c : Char) : size [other c] = c.utf8Size := Nat.zero_add _

theorem text_cut (cs : List Char) : text (cut cs) = cs := by
  fun_induction cut cs with
  | case1 => rfl
  | case2 cs ih => exact congrArg ('/' :: '*' :: ·) ih
  | case3 cs ih => exact congrArg ('*' :: '/' :: ·) ih
  | case4 c cs _ _ ih => exact congrArg (c :: ·) ih

/-! ## The counter -/

theorem level_append (ps qs : List CommentPiece) : level (ps ++ qs) = level ps + level qs := by
  simp only [level, List.count_append]
  omega

theorem level_opening (ps : List CommentPiece) : level (ps ++ [opening]) = level ps + 1 :=
  level_append ps [opening]

theorem level_closing (ps : List CommentPiece) : level (ps ++ [closing]) = level ps - 1 :=
  level_append ps [closing]

theorem level_other (ps : List CommentPiece) (c : Char) : level (ps ++ [other c]) = level ps := by
  have hother : level [other c] = 0 := by simp [level]
  rw [level_append, hother]
  omega

section Snoc

variable {done : List CommentPiece} {next : CommentPiece}

/-- One piece further. -/
theorem StaysOpen.snoc (h : StaysOpen done) (hpos : 0 < level (done ++ [next]))
    (hdepth : level (done ++ [next]) ≤ Limits.commentDepth)
    (hsize : size (done ++ [next]) ≤ Limits.commentBytes) : StaysOpen (done ++ [next]) := by
  intro ps hps hne
  rcases List.prefix_concat_iff.mp hps with rfl | hps
  · exact ⟨hpos, hdepth, hsize⟩
  · exact h ps hps hne

theorem IsDeepest.snoc {depth : Nat} (h : IsDeepest depth done)
    (hle : level (done ++ [next]) ≤ depth) : IsDeepest depth (done ++ [next]) := by
  obtain ⟨⟨ps, hps, hlevel⟩, hall⟩ := h
  refine ⟨⟨ps, hps.trans (List.prefix_append _ _), hlevel⟩, fun qs hqs => ?_⟩
  rcases List.prefix_concat_iff.mp hqs with rfl | hqs
  · exact hle
  · exact hall qs hqs

/-- A mark that opens a comment may take the counter to a new height. -/
theorem IsDeepest.opening {depth height : Nat} (h : IsDeepest depth done)
    (hheight : level (done ++ [opening]) = height) :
    IsDeepest (max depth height) (done ++ [opening]) := by
  obtain ⟨⟨ps, hps, hlevel⟩, hall⟩ := h
  constructor
  · by_cases hle : height ≤ depth
    · exact ⟨ps, hps.trans (List.prefix_append _ _), by rw [hlevel, Nat.max_eq_left hle]⟩
    · exact ⟨_, List.prefix_rfl, by rw [hheight, Nat.max_eq_right (by omega)]⟩
  · intro qs hqs
    rcases List.prefix_concat_iff.mp hqs with rfl | hqs
    · omega
    · have := hall qs hqs
      omega

theorem paired_nil : Paired [] := by
  refine ⟨rfl, fun qs hqs => ?_⟩
  rw [List.prefix_nil.mp hqs]
  decide

theorem Paired.append {ps qs : List CommentPiece} (hps : Paired ps) (hqs : Paired qs) :
    Paired (ps ++ qs) := by
  refine ⟨by rw [level_append, hps.1, hqs.1]; rfl, fun rs hrs => ?_⟩
  rcases List.prefix_or_prefix_of_prefix hrs (List.prefix_append ps qs) with h | ⟨ts, rfl⟩
  · exact hps.2 rs h
  · rw [level_append, hps.1]
    have := hqs.2 ts ((List.prefix_append_right_inj ps).mp hrs)
    omega

theorem paired_other (c : Char) : Paired [other c] := by
  refine ⟨level_other [] c, fun qs hqs => ?_⟩
  rcases List.prefix_concat_iff.mp (show qs <+: [] ++ [other c] from hqs) with rfl | hqs
  · rw [level_other]
    decide
  · rw [List.prefix_nil.mp hqs]
    decide

/-- A comment that is closed. -/
theorem Paired.wrap {ps : List CommentPiece} (h : Paired ps) :
    Paired (opening :: ps ++ [closing]) := by
  have hopening : ∀ qs, level (opening :: qs) = level qs + 1 := by
    intro qs
    rw [← List.singleton_append, level_append]
    show 1 + level qs = _
    omega
  refine ⟨by rw [level_closing, hopening, h.1]; rfl, fun qs hqs => ?_⟩
  rcases List.prefix_concat_iff.mp hqs with rfl | hqs
  · rw [level_closing, hopening, h.1]
    decide
  cases qs with
  | nil => decide
  | cons q qs =>
    obtain ⟨rfl, hinner⟩ := List.cons_prefix_cons.mp hqs
    have := h.2 qs hinner
    rw [hopening]
    omega

end Snoc

/-! ## The stack of the reader -/

/-- The places of the marks that are open behind the pieces, from the innermost outwards: behind
each of them the marks are paired, up to the next one in. -/
def OpenAt (done : List CommentPiece) : List Nat → Prop
  | [] => Paired done
  | place :: places => ∃ outer inner, done = outer ++ opening :: inner ∧ Paired inner ∧
      place = (text outer).length ∧ OpenAt outer places

theorem OpenAt.append {done ps : List CommentPiece} {places : List Nat} (h : OpenAt done places)
    (hps : Paired ps) : OpenAt (done ++ ps) places := by
  cases places with
  | nil => exact Paired.append h hps
  | cons place places =>
    obtain ⟨outer, inner, rfl, hinner, hplace, houter⟩ := h
    exact ⟨outer, inner ++ ps, by simp, hinner.append hps, hplace, houter⟩

theorem OpenAt.opening {done : List CommentPiece} {places : List Nat} (h : OpenAt done places) :
    OpenAt (done ++ [opening]) ((text done).length :: places) :=
  ⟨done, [], rfl, paired_nil, rfl, h⟩

theorem OpenAt.closing {done : List CommentPiece} {place : Nat} {places : List Nat}
    (h : OpenAt done (place :: places)) : OpenAt (done ++ [closing]) places := by
  obtain ⟨outer, inner, rfl, hinner, -, houter⟩ := h
  rw [List.append_assoc]
  exact houter.append hinner.wrap

end CommentPiece

open CommentPiece

/-- What the reader knows of a comment behind the pieces that it has read. -/
structure Lexeme.CommentState.Describes (s : Lexeme.CommentState) (done : List CommentPiece) :
    Prop where
  starts : [opening] <+: done
  chars : s.chars = (text done).length
  bytes : s.bytes = size done
  depth : level done = s.depth
  stays : StaysOpen done
  deepest : IsDeepest s.deepest done
  places : OpenAt done (s.innermost :: s.outer)

namespace Lexeme

theorem describes_start : CommentState.Describes ⟨2, 2, 0, [], 1⟩ [opening] where
  starts := List.prefix_rfl
  chars := rfl
  bytes := rfl
  depth := rfl
  stays := by
    intro ps hps hne
    rcases List.prefix_concat_iff.mp (show ps <+: [] ++ [opening] from hps) with rfl | hps
    · decide
    · exact absurd (List.prefix_nil.mp hps) hne
  deepest := by
    refine ⟨⟨[opening], List.prefix_rfl, rfl⟩, fun ps hps => ?_⟩
    rcases List.prefix_concat_iff.mp (show ps <+: [] ++ [opening] from hps) with rfl | hps
    · decide
    · rw [List.prefix_nil.mp hps]
      decide
  places := ⟨[], [], rfl, paired_nil, rfl, paired_nil⟩

namespace CommentState.Describes

variable {s : CommentState} {done : List CommentPiece}

theorem level_le (h : s.Describes done) : level done ≤ Limits.commentDepth := by
  have hne : done ≠ [] := by
    rintro rfl
    have hzero : (0 : Int) = (s.outer.length + 1 : Nat) := h.depth
    omega
  exact (h.stays done List.prefix_rfl hne).2.1

theorem size_snoc (h : s.Describes done) (next : CommentPiece) :
    size (done ++ [next]) = s.bytes + size [next] := by
  rw [size_append, h.bytes]

/-- Another comment is opened. -/
theorem opening (h : s.Describes done) (hdepth : s.depth < Limits.commentDepth)
    (hsize : s.bytes + 2 ≤ Limits.commentBytes) :
    CommentState.Describes
      { chars := s.chars + 2, bytes := s.bytes + 2, innermost := s.chars,
        outer := s.innermost :: s.outer, deepest := max s.deepest (s.depth + 1) }
      (done ++ [CommentPiece.opening]) := by
  have hlevel : level (done ++ [CommentPiece.opening]) = (s.depth + 1 : Nat) := by
    rw [level_opening, h.depth]
    rfl
  have hsize' : size (done ++ [CommentPiece.opening]) = s.bytes + 2 := h.size_snoc .opening
  refine ⟨h.starts.trans (List.prefix_append _ _), ?_, hsize'.symm, hlevel, ?_,
    h.deepest.opening hlevel, ?_⟩
  · rw [text_append, List.length_append, ← h.chars]
    rfl
  · exact h.stays.snoc (by omega) (by omega) (by omega)
  · rw [h.chars]
    exact h.places.opening

/-- A comment inside is closed. -/
theorem closing (h : s.Describes done) {next : Nat} {outer : List Nat}
    (houter : s.outer = next :: outer) (hsize : s.bytes + 2 ≤ Limits.commentBytes) :
    CommentState.Describes
      { s with chars := s.chars + 2, bytes := s.bytes + 2, innermost := next, outer }
      (done ++ [CommentPiece.closing]) := by
  have hdepth : (s.depth : Int) = outer.length + 2 := by
    rw [CommentState.depth, houter, List.length_cons]
    omega
  have hlevel : level (done ++ [CommentPiece.closing]) = (outer.length + 1 : Nat) := by
    rw [level_closing, h.depth, hdepth]
    omega
  have hsize' : size (done ++ [CommentPiece.closing]) = s.bytes + 2 := h.size_snoc .closing
  have hdone := h.level_le
  rw [h.depth] at hdone
  refine ⟨h.starts.trans (List.prefix_append _ _), ?_, hsize'.symm, hlevel, ?_, ?_, ?_⟩
  · rw [text_append, List.length_append, ← h.chars]
    rfl
  · exact h.stays.snoc (by omega) (by omega) (by omega)
  · refine h.deepest.snoc ?_
    have := h.deepest.2 done List.prefix_rfl
    rw [level_closing]
    omega
  · have hplaces := h.places
    rw [houter] at hplaces
    exact hplaces.closing

/-- Another character is passed. -/
theorem other (h : s.Describes done) {c : Char}
    (hsize : s.bytes + c.utf8Size ≤ Limits.commentBytes) :
    CommentState.Describes { s with chars := s.chars + 1, bytes := s.bytes + c.utf8Size }
      (done ++ [CommentPiece.other c]) := by
  have hsize' : size (done ++ [CommentPiece.other c]) = s.bytes + c.utf8Size := by
    rw [h.size_snoc, size_other]
  have hlevel : level (done ++ [CommentPiece.other c]) = s.depth :=
    (level_other done c).trans h.depth
  have hdone := h.level_le
  rw [h.depth] at hdone
  have hpos : 0 < s.depth := Nat.succ_pos _
  refine ⟨h.starts.trans (List.prefix_append _ _), ?_, hsize'.symm, hlevel, ?_, ?_,
    h.places.append (paired_other c)⟩
  · rw [text_append, List.length_append, ← h.chars]
    rfl
  · exact h.stays.snoc (by omega) (by omega) (by omega)
  · refine h.deepest.snoc ?_
    rw [level_other]
    exact h.deepest.2 done List.prefix_rfl

end CommentState.Describes

theorem cut_other {c : Char} {cs : List Char} (hopen : ∀ ds, c = '/' → cs = '*' :: ds → False)
    (hclose : ∀ ds, c = '*' → cs = '/' :: ds → False) : cut (c :: cs) = other c :: cut cs := by
  rw [cut]
  · exact hopen
  · exact hclose

/-- **Where a comment ends**, if it is read to its end behind `done`. -/
theorem closes_of_readBlockComment {s t : CommentState} {done : List CommentPiece}
    (h : s.Describes done) {cs rest : List Char} (hread : readBlockComment s cs = .ok (t, rest)) :
    ∃ done' rest', Closes (done ++ cut cs) done' rest' t.deepest ∧ text rest' = rest := by
  -- The induction follows the reader: four cases at an opening mark or the end of the text, three
  -- at a closing mark, two at another character. Where it goes on, one piece moves into `done`.
  fun_induction readBlockComment s cs generalizing done with
  | case1 | case2 | case3 | case5 | case8 => cases hread
  | case4 s cs hdepth hsize ih =>
    obtain ⟨done', rest', hcloses, hrest⟩ := ih (h.opening (by omega) (by omega)) hread
    rw [List.append_assoc] at hcloses
    exact ⟨done', rest', hcloses, hrest⟩
  | case6 s cs hsize houter =>
    -- Only the mark of the comment itself is on the stack.
    cases hread
    have hlevel : level done = 1 := by
      rw [h.depth, CommentState.depth, houter]
      rfl
    have hsize' : size (done ++ [closing]) = s.bytes + 2 := h.size_snoc .closing
    exact ⟨done, cut rest, ⟨rfl, h.stays, hlevel, by omega, h.deepest⟩, text_cut rest⟩
  | case7 s cs hsize next outer houter ih =>
    obtain ⟨done', rest', hcloses, hrest⟩ := ih (h.closing houter (by omega)) hread
    rw [List.append_assoc] at hcloses
    exact ⟨done', rest', hcloses, hrest⟩
  | case9 s c cs hopen hclose hsize ih =>
    obtain ⟨done', rest', hcloses, hrest⟩ := ih (h.other (by omega)) hread
    rw [List.append_assoc] at hcloses
    rw [cut_other hopen hclose]
    exact ⟨done', rest', hcloses, hrest⟩

/-- A fault at an opening mark. -/
theorem errorAt_opening (cause : LexCause) (p : Position) (done : List CommentPiece)
    (cs : List Char) :
    Fault.errorAt ⟨cause, (text done).length, 2⟩ p (text done ++ '/' :: '*' :: cs)
      = ⟨cause, ⟨p.after (text done), p.after (text (done ++ [opening]))⟩⟩ := by
  simp only [Fault.errorAt, List.take_left, List.drop_left]
  rw [text_append, Position.after_append]
  rfl

/-- A fault at the mark that a comment starts with. -/
theorem errorAt_start (cause : LexCause) (p : Position) {done : List CommentPiece}
    (h : [opening] <+: done) (cs : List Char) :
    Fault.errorAt ⟨cause, 0, 2⟩ p (text done ++ cs) = ⟨cause, ⟨p, p.after (text [opening])⟩⟩ := by
  obtain ⟨more, rfl⟩ := h
  rfl

/-- **Why a comment is not read to its end**, behind `done`. -/
theorem stops_of_readBlockComment {s : CommentState} {done : List CommentPiece}
    (h : s.Describes done) {cs : List Char} {f : Fault} (hread : readBlockComment s cs = .error f)
    (p : Position) : Stops (done ++ cut cs) p (f.errorAt p (text done ++ cs)) := by
  fun_induction readBlockComment s cs generalizing done with
  | case1 s =>
    -- The text has ended, and the top of the stack is the innermost mark that is open.
    cases hread
    have hstays := h.stays
    obtain ⟨outer, inner, rfl, hinner, hplace, -⟩ := h.places
    rw [hplace, text_append, List.append_nil]
    have herror := errorAt_opening .unterminatedComment p outer (text inner)
    rw [← List.append_nil (outer ++ _)] at hstays
    exact herror ▸ .unterminated (List.append_nil _) hstays hinner
  | case2 s cs hdepth =>
    cases hread
    -- Neither the stack nor the counter has been above the limit, so both are at it.
    have hfull : level done = Limits.commentDepth := by
      have := h.level_le
      rw [h.depth] at this ⊢
      omega
    have hdepth' : s.depth = Limits.commentDepth := by
      have := h.depth
      omega
    rw [h.chars, errorAt_opening, hdepth']
    exact .tooDeep rfl h.stays hfull
  | case3 s cs hdepth hsize =>
    cases hread
    have hsize' : size (done ++ [opening]) = s.bytes + 2 := h.size_snoc .opening
    rw [errorAt_start _ p h.starts, ← hsize']
    refine .tooLong rfl h.stays (fun _ => ?_) (by omega)
    rw [h.depth]
    omega
  | case4 s cs hdepth hsize ih =>
    have hnext := ih (h.opening (by omega) (by omega)) hread
    rwa [List.append_assoc, text_append, List.append_assoc] at hnext
  | case5 s cs hsize =>
    cases hread
    have hsize' : size (done ++ [closing]) = s.bytes + 2 := h.size_snoc .closing
    rw [errorAt_start _ p h.starts, ← hsize']
    exact .tooLong rfl h.stays (fun hnext => by cases hnext) (by omega)
  | case6 => cases hread
  | case7 s cs hsize next outer houter ih =>
    have hnext := ih (h.closing houter (by omega)) hread
    rwa [List.append_assoc, text_append, List.append_assoc] at hnext
  | case8 s c cs hopen hclose hsize =>
    cases hread
    have hsize' : size (done ++ [other c]) = s.bytes + c.utf8Size := by
      rw [h.size_snoc, size_other]
    rw [errorAt_start _ p h.starts, cut_other hopen hclose]
    exact .tooLong rfl h.stays (fun hnext => by cases hnext) (by omega)
  | case9 s c cs hopen hclose hsize ih =>
    have hnext := ih (h.other (by omega)) hread
    rw [List.append_assoc, text_append, List.append_assoc] at hnext
    rw [cut_other hopen hclose]
    exact hnext

/-- **A block comment** is closed by its match, or one of the three errors stops it. -/
theorem read_comment_cases (cs : List Char) :
    (∃ done rest depth, Closes (cut ('/' :: '*' :: cs)) done rest depth ∧
      read '/' ('*' :: cs) = .ok (blockComment (text (done ++ [closing])) depth, text rest)) ∨
    ∃ f, read '/' ('*' :: cs) = .error f ∧
      ∀ p, Stops (cut ('/' :: '*' :: cs)) p (f.errorAt p ('/' :: '*' :: cs)) := by
  have hread : read '/' ('*' :: cs) = readComment cs := rfl
  cases hblock : readBlockComment ⟨2, 2, 0, [], 1⟩ cs with
  | error f =>
    refine .inr ⟨f, ?_, fun p => stops_of_readBlockComment describes_start hblock p⟩
    rw [hread, readComment, hblock]
  | ok result =>
    obtain ⟨t, tail⟩ := result
    obtain ⟨done, rest, hcloses, rfl⟩ := closes_of_readBlockComment describes_start hblock
    have hok : read '/' ('*' :: cs)
        = .ok (blockComment ('/' :: '*' :: cs.take (t.chars - 2)) t.deepest, text rest) := by
      rw [hread, readComment, hblock]
    -- What has been read is what the pieces up to the closing mark make up.
    have hchars : '/' :: '*' :: cs.take (t.chars - 2) = text (done ++ [closing]) := by
      have hwhole : '/' :: '*' :: cs = text (done ++ [closing]) ++ text rest := by
        rw [← text_append, List.append_assoc, List.singleton_append, ← hcloses.split]
        exact congrArg ('/' :: '*' :: ·) (text_cut cs).symm
      exact List.append_cancel_right ((read_eq hok).1.trans hwhole)
    rw [hchars] at hok
    exact .inl ⟨done, rest, t.deepest, hcloses, hok⟩

end Lexeme

/-! ## Success in terms of the counter -/

namespace CommentPiece

/-- The counter comes back to zero before either limit is passed. -/
def Returns (ps : List CommentPiece) : Prop :=
  ∃ qs, qs <+: ps ∧ qs ≠ [] ∧ level qs = 0 ∧ size qs ≤ Limits.commentBytes ∧
    ∀ rs, rs <+: qs → level rs ≤ Limits.commentDepth

theorem Closes.returns {ps done rest : List CommentPiece} {depth : Nat}
    (h : Closes ps done rest depth) : Returns ps := by
  have hzero : level (done ++ [closing]) = 0 := by
    rw [level_closing, h.last]
    rfl
  refine ⟨done ++ [closing], ⟨rest, by rw [h.split]; simp⟩, by simp, hzero, h.short,
    fun rs hrs => ?_⟩
  rcases List.prefix_concat_iff.mp hrs with rfl | hrs
  · rw [hzero]
    decide
  by_cases hne : rs = []
  · rw [hne]
    decide
  · exact (h.stays rs hrs hne).2.1

/-- Where the counter is back at zero, the piece behind which the comment was still open has been
passed. -/
theorem StaysOpen.prefix_of_level {ps done rest qs : List CommentPiece} {next : CommentPiece}
    (h : StaysOpen done) (hsplit : ps = done ++ next :: rest) (hqs : qs <+: ps) (hne : qs ≠ [])
    (hzero : level qs = 0) : done ++ [next] <+: qs := by
  have hnext : done ++ [next] <+: ps := ⟨rest, by rw [hsplit]; simp⟩
  rcases List.prefix_or_prefix_of_prefix hqs hnext with hshort | hlong
  · rcases List.prefix_concat_iff.mp hshort with rfl | hshort
    · exact List.prefix_rfl
    · have := (h qs hshort hne).1
      omega
  · exact hlong

theorem Stops.not_returns {ps : List CommentPiece} {p : Position} {e : LexError}
    (h : Stops ps p e) : ¬ Returns ps := by
  rintro ⟨qs, hqs, hne, hzero, hsize, hlevels⟩
  cases h with
  | tooDeep split stays full =>
    have hdeep := hlevels _ (stays.prefix_of_level split hqs hne hzero)
    rw [level_opening, full] at hdeep
    omega
  | tooLong split stays room long =>
    obtain ⟨more, rfl⟩ := stays.prefix_of_level split hqs hne hzero
    rw [size_append] at hsize
    omega
  | unterminated split stays innermost =>
    have := (stays qs hqs hne).1
    omega

end CommentPiece

/-! ## Comments in a scan -/

theorem Cursor.mem_lineStarts_after (k : Cursor) (cs : List Char) {offset : Nat}
    (h : offset ∈ k.lineStarts) : offset ∈ (k.after cs).lineStarts := by
  induction cs generalizing k with
  | nil => exact h
  | cons c cs ih =>
    refine ih (k.next c) ?_
    unfold Cursor.next
    dsimp only
    split
    · exact Array.mem_push_of_mem _ h
    · exact h

/-- A line starts behind every newline that has been read. -/
theorem Cursor.newline_mem_lineStarts (k : Cursor) (before after : List Char) :
    k.position.offset + byteLength before + 1 ∈ (k.after (before ++ '\n' :: after)).lineStarts := by
  rw [Cursor.after_append, Cursor.after_cons]
  refine Cursor.mem_lineStarts_after _ _ ?_
  have hoffset : ((k.after before).position.next '\n').offset
      = k.position.offset + byteLength before + 1 := by
    rw [Position.offset_next, Cursor.position_after, Position.offset_after]
    rfl
  rw [← hoffset]
  exact Array.mem_push_self

/-- **Block comments end at their match.** Let a text start with an opening mark, and let it be cut
into marks and other characters from left to right. The text starts with a block comment if and only
if the counter of marks comes back to zero before the limits on bytes and depth are passed. Then the
scan goes on just behind the mark at which it first does. Its tally has one more comment, and the
bytes of this one and the largest value of the counter where they exceed what was met before; the
rest of the tally is as it was, nothing else is taken in, and every newline of the comment is in the
line table. If not, the scan stops with the error for what comes first: a mark for which there
is no room on the counter, a piece that passes the limit on bytes, or the end of the text, and then
the error is at the innermost mark that is still open. -/
theorem block_comment_ends_at_match (track : Bool) (s : Scan) (cs : List Char) :
    ((∃ l rest, Lexeme.read '/' ('*' :: cs) = .ok (l, rest)) ↔ Returns (cut ('/' :: '*' :: cs))) ∧
    ((∃ (done rest : List CommentPiece) (depth : Nat) (s' : Scan),
        Closes (cut ('/' :: '*' :: cs)) done rest depth ∧
        s.run track ('/' :: '*' :: cs) = s'.run track (text rest) ∧
        s'.cursor.position = s.cursor.position.after (text (done ++ [closing])) ∧
        s'.cursor.position.offset = s.cursor.position.offset + size (done ++ [closing]) ∧
        s'.tally = { s.tally with
          comments := s.tally.comments + 1
          longestComment := max s.tally.longestComment (size (done ++ [closing]))
          deepestComment := max s.tally.deepestComment depth } ∧
        s'.tokens = s.tokens ∧ s'.pending = s.pending ∧ s'.switches = s.switches ∧
        ∀ before after, text (done ++ [closing]) = before ++ '\n' :: after →
          s.cursor.position.offset + byteLength before + 1 ∈ s'.cursor.lineStarts) ∨
      ∃ e, s.run track ('/' :: '*' :: cs) = .error (e, s) ∧
        Stops (cut ('/' :: '*' :: cs)) s.cursor.position e) := by
  rcases Lexeme.read_comment_cases cs with ⟨done, rest, depth, hcloses, hread⟩ | ⟨f, hread, hstops⟩
  · refine ⟨iff_of_true ⟨_, _, hread⟩ hcloses.returns, .inl ⟨done, rest, depth,
      { s with
        cursor := s.cursor.after (text (done ++ [closing]))
        tally := s.tally.addComment (size (done ++ [closing])) depth },
      hcloses, ?_, Cursor.position_after _ _, ?_, rfl, rfl, rfl, rfl, ?_⟩⟩
    · rw [Scan.run_cons_ok s hread]
      rfl
    · rw [Cursor.position_after, Position.offset_after]
      rfl
    · intro before after htext
      dsimp only
      rw [htext]
      exact Cursor.newline_mem_lineStarts _ _ _
  · refine ⟨iff_of_false ?_ (hstops .start).not_returns, .inr ⟨_, ?_, hstops _⟩⟩
    · rintro ⟨l, rest, hok⟩
      rw [hread] at hok
      cases hok
    · rw [Scan.run]
      split
      · rename_i hf
        rw [hread] at hf
        cases hf
        rfl
      · rename_i hok
        rw [hread] at hok
        cases hok

end FormScript
