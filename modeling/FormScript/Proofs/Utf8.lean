import FormScript.Proofs.Location
import FormScript.Token.Lexeme

/-!
# The bytes of a text

A character is written as one byte if it is an ASCII character, and else as bytes none of which is
an ASCII character. So whoever looks at the bytes of a text one by one and cares for ASCII
characters only sees what a reader of the characters sees. This is said here for the four ways in
which a scanner looks: at the byte it has come to (`head?_utf8`), for as long as bytes pass a test
(`takeWhile_utf8`), whether a word follows (`isPrefixOf_utf8`), and where a mark occurs first
(`findBytes_utf8`). Each time the place that is found lies between two characters.
-/

namespace FormScript

/-- The bytes that a text is written in. -/
def utf8 (cs : List Char) : List UInt8 := cs.flatMap String.utf8EncodeChar

@[simp] theorem utf8_nil : utf8 [] = [] := rfl

theorem utf8_cons (c : Char) (cs : List Char) :
    utf8 (c :: cs) = String.utf8EncodeChar c ++ utf8 cs := List.flatMap_cons

theorem utf8_append (cs ds : List Char) : utf8 (cs ++ ds) = utf8 cs ++ utf8 ds :=
  List.flatMap_append

theorem length_utf8 (cs : List Char) : (utf8 cs).length = byteLength cs := by
  induction cs with
  | nil => rfl
  | cons c cs ih =>
    rw [utf8_cons, List.length_append, String.length_utf8EncodeChar, ih, byteLength_cons]

/-- The bytes behind the beginning of a text are the bytes of the rest. -/
theorem drop_utf8 (past rest : List Char) :
    (utf8 (past ++ rest)).drop (byteLength past) = utf8 rest := by
  rw [utf8_append, ← length_utf8, List.drop_left]

/-! ## ASCII characters -/

/-- Whether a character is written as one byte. -/
def isAscii (c : Char) : Bool := c.toNat < 128

theorem utf8EncodeChar_of_isAscii {c : Char} (h : isAscii c = true) :
    String.utf8EncodeChar c = [c.toUInt8] := by
  have hlt : c.val.toNat ≤ 127 := by
    have : c.toNat < 128 := by simpa [isAscii] using h
    exact Nat.le_of_lt_succ this
  rw [String.utf8EncodeChar]
  simp only [hlt, if_true]
  rfl

theorem utf8Size_of_isAscii {c : Char} (h : isAscii c = true) : c.utf8Size = 1 := by
  rw [← String.length_utf8EncodeChar, utf8EncodeChar_of_isAscii h, List.length_singleton]

theorem utf8_cons_of_isAscii {c : Char} (h : isAscii c = true) (cs : List Char) :
    utf8 (c :: cs) = c.toUInt8 :: utf8 cs := by
  rw [utf8_cons, utf8EncodeChar_of_isAscii h, List.singleton_append]

theorem byteLength_of_isAscii {cs : List Char} (h : ∀ c ∈ cs, isAscii c = true) :
    byteLength cs = cs.length := by
  induction cs with
  | nil => rfl
  | cons c cs ih =>
    rw [byteLength_cons, utf8Size_of_isAscii (h c List.mem_cons_self),
      ih fun d hd => h d (List.mem_cons_of_mem _ hd), List.length_cons, Nat.add_comm]

/-- No byte of another character is one of an ASCII character. -/
theorem le_of_mem_utf8EncodeChar {c : Char} (h : isAscii c = false) {b : UInt8}
    (hb : b ∈ String.utf8EncodeChar c) : 128 ≤ b.toNat := by
  have hlt : ¬ c.val.toNat ≤ 127 := by
    have : ¬ c.toNat < 128 := by simpa [isAscii] using h
    exact fun hle => this (Nat.lt_succ_of_le hle)
  rw [String.utf8EncodeChar] at hb
  simp only [hlt, if_false] at hb
  split at hb
  · rcases List.mem_cons.mp hb with rfl | hb
    · rw [UInt8.toNat_ofNat']
      omega
    · rw [List.mem_singleton.mp hb, UInt8.toNat_ofNat']
      omega
  · split at hb
    · simp only [List.mem_cons, List.not_mem_nil, or_false] at hb
      rcases hb with rfl | rfl | rfl <;> rw [UInt8.toNat_ofNat'] <;> omega
    · simp only [List.mem_cons, List.not_mem_nil, or_false] at hb
      rcases hb with rfl | rfl | rfl | rfl <;> rw [UInt8.toNat_ofNat'] <;> omega

/-- Another character begins with a byte, which is not that of an ASCII character. -/
theorem exists_utf8EncodeChar {c : Char} (h : isAscii c = false) :
    ∃ b bs, String.utf8EncodeChar c = b :: bs ∧ 128 ≤ b.toNat := by
  cases hbytes : String.utf8EncodeChar c with
  | nil =>
    have hlength := String.length_utf8EncodeChar c
    have hpos := c.utf8Size_pos
    rw [hbytes, List.length_nil] at hlength
    omega
  | cons b bs =>
    exact ⟨b, bs, rfl, le_of_mem_utf8EncodeChar h (by rw [hbytes]; exact List.mem_cons_self)⟩

/-! ## Tests on bytes -/

/-- A test on characters, made on a byte, which must be that of an ASCII character that passes. -/
def onByte (q : Char → Bool) (b : UInt8) : Bool := decide (b.toNat < 128) && q (Char.ofUInt8 b)

theorem toNat_toUInt8 {c : Char} (h : isAscii c = true) : c.toUInt8.toNat = c.toNat := by
  have hlt : c.toNat < 128 := by simpa [isAscii] using h
  rw [Char.toUInt8, UInt32.toNat_toUInt8]
  exact Nat.mod_eq_of_lt (by show c.toNat < 2 ^ 8; omega)

theorem toUInt8_beq_of_le {c : Char} {b : UInt8} (h : isAscii c = true) (hb : 128 ≤ b.toNat) :
    (c.toUInt8 == b) = false := by
  have hlt : c.toNat < 128 := by simpa [isAscii] using h
  rw [beq_eq_false_iff_ne]
  rintro rfl
  rw [toNat_toUInt8 h] at hb
  omega

theorem onByte_toUInt8 (q : Char → Bool) {c : Char} (h : isAscii c = true) :
    onByte q c.toUInt8 = q c := by
  have hlt : c.toNat < 128 := by simpa [isAscii] using h
  have hchar : Char.ofUInt8 c.toUInt8 = c := by
    apply Char.ext
    apply UInt32.toNat_inj.mp
    show c.toUInt8.toUInt32.toNat = c.toNat
    rw [UInt8.toNat_toUInt32, toNat_toUInt8 h]
  rw [onByte, toNat_toUInt8 h, hchar, decide_eq_true hlt, Bool.true_and]

theorem onByte_of_le (q : Char → Bool) {b : UInt8} (h : 128 ≤ b.toNat) : onByte q b = false := by
  rw [onByte, decide_eq_false (by omega), Bool.false_and]

/-- A test that no other characters pass than ASCII characters. -/
def Ascii (q : Char → Bool) : Prop := ∀ c, q c = true → isAscii c = true

theorem Ascii.eq_false {q : Char → Bool} (hq : Ascii q) {c : Char} (h : isAscii c = false) :
    q c = false := by
  cases hc : q c with
  | false => rfl
  | true => rw [hq c hc] at h; cases h

theorem ascii_eq {c : Char} (h : isAscii c = true) : Ascii (· == c) := by
  intro d hd
  rw [beq_iff_eq.mp hd, h]

theorem Ascii.or {p q : Char → Bool} (hp : Ascii p) (hq : Ascii q) :
    Ascii fun c => p c || q c := by
  intro c hc
  rcases Bool.or_eq_true _ _ ▸ hc with hc | hc
  · exact hp c hc
  · exact hq c hc

theorem ascii_isDigit : Ascii Char.isDigit := by
  intro c hc
  have hle : c.val ≤ 57 := by
    delta Char.isDigit at hc
    simp only [Bool.and_eq_true, decide_eq_true_eq] at hc
    exact hc.2
  have : c.toNat ≤ 57 := hle
  simp only [isAscii, decide_eq_true_eq]
  omega

theorem ascii_isAlpha : Ascii Char.isAlpha := by
  intro c hc
  have hle : c.val ≤ 122 := by
    delta Char.isAlpha Char.isUpper Char.isLower at hc
    simp only [Bool.or_eq_true, Bool.and_eq_true, decide_eq_true_eq] at hc
    rcases hc with hc | hc
    · exact UInt32.le_trans hc.2 (by decide)
    · exact hc.2
  have : c.toNat ≤ 122 := hle
  simp only [isAscii, decide_eq_true_eq]
  omega

theorem ascii_isWordStart : Ascii isWordStart := ascii_isAlpha.or (ascii_eq (by decide))

theorem ascii_isWordChar : Ascii isWordChar :=
  (ascii_isAlpha.or ascii_isDigit).or (ascii_eq (by decide))

theorem ascii_isGap : Ascii isGap := (ascii_eq (by decide)).or (ascii_eq (by decide))

/-! ## Looking at bytes -/

section Looking

variable {q : Char → Bool}

/-- The byte at hand passes a test if the character at hand does. -/
theorem head?_utf8 (hq : Ascii q) (cs : List Char) :
    (utf8 cs).head?.any (onByte q) = cs.head?.any q := by
  cases cs with
  | nil => rfl
  | cons c cs =>
    cases hc : isAscii c with
    | true =>
      rw [utf8_cons_of_isAscii hc, List.head?_cons, Option.any_some, onByte_toUInt8 q hc]
      rfl
    | false =>
      obtain ⟨b, bs, hbytes, hb⟩ := exists_utf8EncodeChar hc
      rw [utf8_cons, hbytes, List.cons_append, List.head?_cons, Option.any_some,
        onByte_of_le q hb, List.head?_cons, Option.any_some, hq.eq_false hc]

/-- The byte just passed passes a test if the character just passed does. -/
theorem getLast?_utf8 (hq : Ascii q) (cs : List Char) :
    (utf8 cs).getLast?.any (onByte q) = cs.getLast?.any q := by
  rcases List.eq_nil_or_concat cs with rfl | ⟨cs, c, rfl⟩
  · rfl
  rw [List.concat_eq_append, utf8_append, List.getLast?_concat, Option.any_some, utf8_cons,
    utf8_nil, List.append_nil]
  cases hc : isAscii c with
  | true =>
    rw [utf8EncodeChar_of_isAscii hc, List.getLast?_concat, Option.any_some, onByte_toUInt8 q hc]
  | false =>
    obtain ⟨b, bs, hbytes, -⟩ := exists_utf8EncodeChar hc
    have hne : String.utf8EncodeChar c ≠ [] := by rw [hbytes]; exact List.cons_ne_nil b bs
    rw [List.getLast?_append, List.getLast?_eq_some_getLast hne, Option.some_or, Option.any_some,
      onByte_of_le q (le_of_mem_utf8EncodeChar hc (List.getLast_mem hne)), hq.eq_false hc]

/-- Going on while bytes pass a test leads past the characters that pass it. -/
theorem takeWhile_utf8 (hq : Ascii q) (cs : List Char) :
    (utf8 cs).takeWhile (onByte q) = utf8 (cs.takeWhile q) := by
  induction cs with
  | nil => rfl
  | cons c cs ih =>
    cases hc : isAscii c with
    | true =>
      rw [utf8_cons_of_isAscii hc, List.takeWhile_cons, onByte_toUInt8 q hc, List.takeWhile_cons]
      cases q c with
      | true => rw [if_pos rfl, if_pos rfl, utf8_cons_of_isAscii hc, ih]
      | false => rw [if_neg Bool.false_ne_true, if_neg Bool.false_ne_true, utf8_nil]
    | false =>
      obtain ⟨b, bs, hbytes, hb⟩ := exists_utf8EncodeChar hc
      rw [utf8_cons, hbytes, List.cons_append, List.takeWhile_cons, onByte_of_le q hb,
        List.takeWhile_cons, hq.eq_false hc]
      rfl

end Looking

/-- A word of ASCII characters is found among bytes where it is found among characters. -/
theorem isPrefixOf_utf8 {w : List Char} (hw : ∀ c ∈ w, isAscii c = true) (cs : List Char) :
    (utf8 w).isPrefixOf (utf8 cs) = w.isPrefixOf cs := by
  induction w generalizing cs with
  | nil => rfl
  | cons a w ih =>
    have ha := hw a List.mem_cons_self
    have ih := ih (fun c hc => hw c (List.mem_cons_of_mem _ hc))
    rw [utf8_cons_of_isAscii ha]
    cases cs with
    | nil => rfl
    | cons c cs =>
      cases hc : isAscii c with
      | true =>
        have hbyte : (a.toUInt8 == c.toUInt8) = (a == c) := by
          rw [Bool.eq_iff_iff, beq_iff_eq, beq_iff_eq]
          refine ⟨fun h => ?_, fun h => by rw [h]⟩
          have htoNat := congrArg UInt8.toNat h
          rw [toNat_toUInt8 ha, toNat_toUInt8 hc] at htoNat
          exact Char.toNat_inj.mp htoNat
        rw [utf8_cons_of_isAscii hc, List.isPrefixOf_cons_cons, List.isPrefixOf_cons_cons, hbyte,
          ih]
      | false =>
        obtain ⟨b, bs, hbytes, hb⟩ := exists_utf8EncodeChar hc
        have hchar : (a == c) = false := by
          rw [beq_eq_false_iff_ne]
          intro h
          rw [h, hc] at ha
          cases ha
        rw [utf8_cons, hbytes, List.cons_append, List.isPrefixOf_cons_cons,
          List.isPrefixOf_cons_cons,
          toUInt8_beq_of_le ha hb, hchar, Bool.false_and, Bool.false_and]

/-! ## Searching for a mark -/

/-- How many bytes come before the first occurrence of a mark. -/
def findBytes (mark : List UInt8) : List UInt8 → Option Nat
  | [] => none
  | b :: bs => if mark.isPrefixOf (b :: bs) then some 0 else (findBytes mark bs).map (· + 1)

/-- A mark that begins with an ASCII character does not begin inside another one. -/
theorem findBytes_append {a : UInt8} {mark bs : List UInt8} (ha : a.toNat < 128)
    (hbs : ∀ b ∈ bs, 128 ≤ b.toNat) (rest : List UInt8) :
    findBytes (a :: mark) (bs ++ rest) = (findBytes (a :: mark) rest).map (· + bs.length) := by
  induction bs with
  | nil => cases h : findBytes (a :: mark) rest <;> simp [h]
  | cons b bs ih =>
    have hb := hbs b List.mem_cons_self
    have hbyte : (a == b) = false := by
      rw [beq_eq_false_iff_ne]
      intro h
      rw [h] at ha
      omega
    have hno : ((a :: mark).isPrefixOf (b :: (bs ++ rest))) = false := by
      rw [List.isPrefixOf_cons_cons, hbyte, Bool.false_and]
    rw [List.cons_append, findBytes, hno, if_neg Bool.false_ne_true,
      ih fun d hd => hbs d (List.mem_cons_of_mem _ hd), Option.map_map]
    rfl

theorem splitAtMark?_go (mark cs before : List Char) :
    splitAtMark?.go mark cs before
      = (splitAtMark? mark cs).map fun r => (before.reverse ++ r.1, r.2) := by
  induction cs generalizing before with
  | nil => rfl
  | cons c cs ih =>
    rw [splitAtMark?, splitAtMark?.go, splitAtMark?.go]
    split
    · simp
    · rw [ih, ih [c], Option.map_map]
      congr 1
      funext r
      simp

theorem splitAtMark?_cons (mark : List Char) (c : Char) (cs : List Char) :
    splitAtMark? mark (c :: cs)
      = if mark.isPrefixOf (c :: cs) then some ([], (c :: cs).drop mark.length)
        else (splitAtMark? mark cs).map fun r => (c :: r.1, r.2) := by
  rw [splitAtMark?, splitAtMark?.go, splitAtMark?_go]
  rfl

/-- A mark of ASCII characters occurs first among the bytes where it occurs first among the
characters. -/
theorem findBytes_utf8 {mark : List Char} (hne : mark ≠ []) (hmark : ∀ c ∈ mark, isAscii c = true)
    (cs : List Char) :
    findBytes (utf8 mark) (utf8 cs) = (splitAtMark? mark cs).map fun r => byteLength r.1 := by
  induction cs with
  | nil => rfl
  | cons c cs ih =>
    have hprefix := isPrefixOf_utf8 hmark (c :: cs)
    rw [splitAtMark?_cons]
    cases hc : isAscii c with
    | true =>
      rw [utf8_cons_of_isAscii hc] at hprefix ⊢
      rw [findBytes, hprefix]
      split
      · rfl
      · rw [ih, Option.map_map, Option.map_map]
        congr 1
        funext r
        simp only [Function.comp_apply, byteLength_cons, utf8Size_of_isAscii hc, Nat.add_comm]
    | false =>
      obtain ⟨a, more, rfl⟩ := List.exists_cons_of_ne_nil hne
      have ha := hmark a List.mem_cons_self
      have hno : (a :: more).isPrefixOf (c :: cs) = false := by
        rw [List.isPrefixOf_cons_cons]
        cases hac : a == c with
        | false => rfl
        | true =>
          rw [beq_iff_eq.mp hac, hc] at ha
          cases ha
      have hlt : a.toUInt8.toNat < 128 := by
        rw [toNat_toUInt8 ha]
        simpa [isAscii] using ha
      rw [utf8_cons_of_isAscii ha] at ih ⊢
      rw [utf8_cons, findBytes_append hlt (fun b hb => le_of_mem_utf8EncodeChar hc hb), ih, hno,
        if_neg Bool.false_ne_true, Option.map_map, Option.map_map]
      congr 1
      funext r
      simp only [Function.comp_apply, byteLength_cons, String.length_utf8EncodeChar, Nat.add_comm]

end FormScript
