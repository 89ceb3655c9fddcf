import LuaFormatter.Proofs.Token.Gaps
import LuaFormatter.Proofs.Token.Reread

/-!
# Bytes of characters

A byte below 128 stands for a character of its own, and all bytes of other characters are larger. So
a question about such characters can be asked of bytes: `Bytewise` says that a test of bytes gives
for every byte of a character what a test of characters gives for the character. Scans with such
tests go equally far in a text and in its bytes, and so do the searches for a long bracket
(`bracketLevel?_utf8`, `splitAtFirst?_utf8`).
-/

namespace LuaFormatter

/-- A character below 128 is one byte. Counterpart of `utf8`. -/
theorem utf8EncodeChar_of_lt {c : Char} (h : c.toNat < 128) :
    String.utf8EncodeChar c = [UInt8.ofNat c.toNat] := by
  have hvalue : c.val.toNat = c.toNat := rfl
  unfold String.utf8EncodeChar
  dsimp only
  rw [if_pos (by omega), hvalue]

/-- The bytes of a character from 128 on are at least 128 as well. Counterpart of `utf8`. -/
theorem le_of_mem_utf8EncodeChar {c : Char} (hc : 128 ≤ c.toNat) {byte : UInt8}
    (h : byte ∈ String.utf8EncodeChar c) : 128 ≤ byte.toNat := by
  unfold String.utf8EncodeChar at h
  dsimp only at h
  have hvalue : c.val.toNat = c.toNat := rfl
  have hlarge : ∀ n : Nat, 128 ≤ n % 256 → 128 ≤ (UInt8.ofNat n).toNat := fun n hn => by
    rwa [UInt8.toNat_ofNat']
  split at h
  · omega
  · split at h
    · simp only [List.mem_cons, List.not_mem_nil, or_false] at h
      rcases h with rfl | rfl
      all_goals exact hlarge _ (by omega)
    · split at h
      · simp only [List.mem_cons, List.not_mem_nil, or_false] at h
        rcases h with rfl | rfl | rfl
        all_goals exact hlarge _ (by omega)
      · simp only [List.mem_cons, List.not_mem_nil, or_false] at h
        rcases h with rfl | rfl | rfl | rfl
        all_goals exact hlarge _ (by omega)

/-- The test of bytes gives for every byte of a character what the test of characters gives for
it. -/
def Bytewise (q : UInt8 → Bool) (p : Char → Bool) : Prop :=
  ∀ c : Char, ∀ byte ∈ String.utf8EncodeChar c, q byte = p c

/-- To compare bytes with an ASCII character is to compare characters. Counterpart of `Bytewise`. -/
theorem bytewise_beq {byte : UInt8} {d : Char} (h : byte.toNat = d.toNat) (hd : d.toNat < 128) :
    Bytewise (· == byte) (· == d) := by
  intro c other hmem
  dsimp only
  by_cases hc : c.toNat < 128
  · rw [utf8EncodeChar_of_lt hc, List.mem_singleton] at hmem
    subst hmem
    have hvalue : (UInt8.ofNat c.toNat).toNat = c.toNat := by
      rw [UInt8.toNat_ofNat']
      omega
    rw [Bool.eq_iff_iff, beq_iff_eq, beq_iff_eq, ← UInt8.toNat_inj, ← Char.toNat_inj, hvalue, h]
  · have hother := le_of_mem_utf8EncodeChar (Nat.le_of_not_lt hc) hmem
    have hbyte : other ≠ byte := by
      rintro rfl
      omega
    have hchar : c ≠ d := by
      rintro rfl
      omega
    rw [beq_false_of_ne hbyte, beq_false_of_ne hchar]

namespace Bytewise

variable {q q' : UInt8 → Bool} {p p' : Char → Bool}

/-- The first byte of a character. Counterpart of `Bytewise`. -/
theorem exists_first (h : Bytewise q p) (c : Char) :
    ∃ byte more, String.utf8EncodeChar c = byte :: more ∧ q byte = p c := by
  obtain ⟨byte, more, hbyte, -⟩ := exists_utf8EncodeChar c
  exact ⟨byte, more, hbyte, h c byte (by simp [hbyte])⟩

/-- Two tests of bytes, either of which is enough. Counterpart of `Bytewise`. -/
theorem or (h : Bytewise q p) (h' : Bytewise q' p') :
    Bytewise (fun byte => q byte || q' byte) fun c => p c || p' c :=
  fun c byte hmem => by
    dsimp only
    rw [h c byte hmem, h' c byte hmem]

/-- The opposite of a test of bytes. Counterpart of `Bytewise`. -/
theorem not (h : Bytewise q p) : Bytewise (fun byte => !q byte) fun c => !p c :=
  fun c byte hmem => congrArg Bool.not (h c byte hmem)

/-- Some byte passes a test if some character does. Counterpart of `Bytewise`. -/
theorem any_utf8 (h : Bytewise q p) (text : List Char) : (utf8 text).any q = text.any p := by
  induction text with
  | nil => rfl
  | cons c rest ih =>
    have hall : (String.utf8EncodeChar c).any q = p c := by
      cases hc : p c with
      | true =>
        obtain ⟨byte, more, hbyte, hfirst⟩ := h.exists_first c
        exact List.any_eq_true.2 ⟨byte, by simp [hbyte], hfirst.trans hc⟩
      | false => exact List.any_eq_false.2 fun byte hmem => by simp [h c byte hmem, hc]
    rw [utf8_cons, List.any_append, hall, ih, List.any_cons]

/-- The first byte passes a test if the first character does. Counterpart of `Bytewise`. -/
theorem head?_utf8 (h : Bytewise q p) (text : List Char) :
    (utf8 text).head?.any q = text.head?.any p := by
  cases text with
  | nil => rfl
  | cons c rest =>
    obtain ⟨byte, more, hbyte, hfirst⟩ := h.exists_first c
    rw [utf8_cons, hbyte]
    exact hfirst

/-- To drop bytes that pass a test is to drop characters. Counterpart of `Bytewise`. -/
theorem dropWhile_utf8 (h : Bytewise q p) (text : List Char) :
    (utf8 text).dropWhile q = utf8 (text.dropWhile p) := by
  induction text with
  | nil => rfl
  | cons c rest ih =>
    rw [utf8_cons]
    cases hc : p c with
    | true =>
      rw [List.dropWhile_append_of_pos fun byte hmem => by rw [h c byte hmem, hc], ih,
        List.dropWhile_cons_of_pos hc]
    | false =>
      obtain ⟨byte, more, hbyte, hfirst⟩ := h.exists_first c
      rw [hbyte, List.cons_append, List.dropWhile_cons_of_neg (by simp [hfirst, hc]),
        List.dropWhile_cons_of_neg (by simp [hc]), utf8_cons, hbyte, List.cons_append]

/-- An ASCII byte is among the bytes if its character is in the text. Counterpart of `Bytewise`. -/
theorem contains_utf8 {byte : UInt8} {d : Char} (h : byte.toNat = d.toNat) (hd : d.toNat < 128)
    (text : List Char) : (utf8 text).contains byte = text.contains d := by
  rw [List.contains_eq_any_beq, List.contains_eq_any_beq]
  simpa only [Bool.beq_comm] using (bytewise_beq h hd).any_utf8 text

/-- As many bytes as characters at the start are one ASCII character. Counterpart of `Bytewise`. -/
theorem length_takeWhile_utf8 {byte : UInt8} {d : Char} (h : byte.toNat = d.toNat)
    (hd : d.toNat < 128) (text : List Char) :
    ((utf8 text).takeWhile (· == byte)).length = (text.takeWhile (· == d)).length := by
  have hbyte : UInt8.ofNat d.toNat = byte := by rw [← h, UInt8.ofNat_toNat]
  induction text with
  | nil => rfl
  | cons c rest ih =>
    by_cases hc : c = d
    · subst hc
      rw [utf8_cons, utf8EncodeChar_of_lt hd, hbyte, List.singleton_append,
        List.takeWhile_cons_of_pos (by simp), List.takeWhile_cons_of_pos (by simp),
        List.length_cons, ih, List.length_cons]
    · obtain ⟨first, more, hfirst, hother⟩ := (bytewise_beq h hd).exists_first c
      rw [utf8_cons, hfirst, List.cons_append, List.takeWhile_cons_of_neg (by simp [hother, hc]),
        List.takeWhile_cons_of_neg (by simpa using hc)]
      rfl

end Bytewise

/-- The bytes of a text start with those of characters below 128 if the text starts with these.
Counterpart of `utf8`. -/
theorem isPrefixOf_utf8 {front : List Char} (h : ∀ c ∈ front, c.toNat < 128) (text : List Char) :
    (utf8 front).isPrefixOf (utf8 text) = front.isPrefixOf text := by
  induction front generalizing text with
  | nil => rfl
  | cons d front ih =>
    have hd := h d List.mem_cons_self
    rw [utf8_cons, utf8EncodeChar_of_lt hd, List.singleton_append]
    cases text with
    | nil => rfl
    | cons c rest =>
      have hvalue : (UInt8.ofNat d.toNat).toNat = d.toNat := by
        rw [UInt8.toNat_ofNat']
        omega
      obtain ⟨byte, more, hbyte, hfirst⟩ := (bytewise_beq hvalue hd).exists_first c
      by_cases hc : c = d
      · subst hc
        rw [utf8_cons, utf8EncodeChar_of_lt hd, List.singleton_append, List.isPrefixOf,
          List.isPrefixOf, beq_self_eq_true, beq_self_eq_true, ih fun c hc =>
          h c (List.mem_cons_of_mem _ hc)]
      · have hchar : (d == c) = false := beq_false_of_ne (Ne.symm hc)
        rw [utf8_cons, hbyte, List.cons_append, List.isPrefixOf, List.isPrefixOf, Bool.beq_comm,
          hfirst, Bool.beq_comm, hchar, Bool.false_and, Bool.false_and]

/-! ## Line breaks -/

/-- A line break is no blank of a line. Counterpart of `isLineBlank`. -/
theorem isLineBlank_eq_false {c : Char} (h : isLineBreak c = true) : isLineBlank c = false := by
  simp only [isLineBreak, Bool.or_eq_true, beq_iff_eq] at h
  rcases h with rfl | rfl <;> rfl

namespace Gap

/-- To look for blanks among bytes is to look among characters. Counterpart of `isSpace`. -/
theorem bytewise_isSpace : Bytewise isSpace isLineBlank :=
  (bytewise_beq (d := ' ') rfl (by decide)).or (bytewise_beq (d := '\t') rfl (by decide))

/-- To look for line breaks among bytes is to look among characters. Counterpart of `isBreak`. -/
theorem bytewise_isBreak : Bytewise isBreak isLineBreak :=
  (bytewise_beq (d := '\n') rfl (by decide)).or (bytewise_beq (d := '\r') rfl (by decide))

/-- A line break comes next in a text after spaces and tabs. Counterpart of `breaksNext`. -/
theorem breaksNext_utf8_iff (text : List Char) :
    breaksNext (utf8 text) = true ↔
      ∃ blanks c rest, text = blanks ++ c :: rest ∧ (∀ d ∈ blanks, isLineBlank d = true) ∧
        isLineBreak c = true := by
  rw [breaksNext, bytewise_isSpace.dropWhile_utf8, bytewise_isBreak.head?_utf8]
  constructor
  · intro h
    cases hrest : text.dropWhile isLineBlank with
    | nil =>
      rw [hrest] at h
      cases h
    | cons c rest =>
      rw [hrest] at h
      refine ⟨text.takeWhile isLineBlank, c, rest, ?_, List.all_eq_true.1 List.all_takeWhile, h⟩
      rw [← hrest, List.takeWhile_append_dropWhile]
  · rintro ⟨blanks, c, rest, rfl, hblanks, hc⟩
    rw [List.dropWhile_append_of_pos hblanks,
      List.dropWhile_cons_of_neg (by simp [isLineBlank_eq_false hc])]
    exact hc

/-- The line breaks of a source: a line feed, with or without a carriage return. -/
def lineBreaks : List (List Char) :=
  [['\n'], ['\r', '\n']]

/-- There are two line breaks. Counterpart of `lineBreaks`. -/
theorem mem_lineBreaks {lineBreak : List Char} :
    lineBreak ∈ lineBreaks ↔ lineBreak = ['\n'] ∨ lineBreak = ['\r', '\n'] := by
  simp [lineBreaks]

/-- A line break starts with a character that breaks lines. Counterpart of `lineBreaks`. -/
theorem exists_of_mem_lineBreaks {lineBreak : List Char} (h : lineBreak ∈ lineBreaks) :
    ∃ c more, lineBreak = c :: more ∧ isLineBreak c = true := by
  rcases mem_lineBreaks.1 h with rfl | rfl
  · exact ⟨'\n', [], rfl, rfl⟩
  · exact ⟨'\r', ['\n'], rfl, rfl⟩

/-- One line break is passed. Counterpart of `skipBreak`. -/
theorem skipBreak_utf8 {lineBreak : List Char} (h : lineBreak ∈ lineBreaks) (rest : List Char) :
    skipBreak (utf8 (lineBreak ++ rest)) = utf8 rest := by
  rcases mem_lineBreaks.1 h with rfl | rfl <;> rfl

/-! ## Long brackets -/

/-- An item is there and equal to another one. Counterpart of `Option.any`. -/
theorem any_beq {α : Type} [BEq α] (item? : Option α) (item : α) :
    item?.any (· == item) = (item? == some item) := by
  cases item? <;> rfl

/-- The bytes of a text start with a long bracket if the text does. Counterpart of
`bracketLevel?`. -/
theorem bracketLevel?_utf8 (text : List Char) :
    bracketLevel? (utf8 text) = Scan.bracketLevel? text := by
  have hopen : Bytewise (· == 0x5B) (· == '[') := bytewise_beq rfl (by decide)
  have hequals : Bytewise (· == 0x3D) (· == '=') := bytewise_beq rfl (by decide)
  cases text with
  | nil => rfl
  | cons c rest =>
    by_cases hc : c = '['
    · subst hc
      have hcount := @Bytewise.length_takeWhile_utf8 0x3D '=' rfl (by decide) rest
      have hnext : ((utf8 rest)[(rest.takeWhile (· == '=')).length]? == some 0x5B) =
          (rest[(rest.takeWhile (· == '=')).length]? == some '[') := by
        rw [Scan.getElem?_takeWhile_length, ← hcount, Scan.getElem?_takeWhile_length,
          hequals.dropWhile_utf8, ← any_beq, ← any_beq, hopen.head?_utf8]
      show bracketLevel? (0x5B :: utf8 rest) = _
      rw [bracketLevel?, Scan.bracketLevel?, hcount, hnext]
      rfl
    · obtain ⟨byte, more, hbyte, hfirst⟩ := hopen.exists_first c
      rw [Scan.bracketLevel?_of_ne hc, utf8_cons, hbyte, List.cons_append, bracketLevel?]
      simp [hfirst, hc]

/-- A pattern is not found where its first byte does not stand. Counterpart of `splitAtFirst?`. -/
theorem splitAtFirst?_append {first : UInt8} {front : List UInt8} (h : first ∉ front)
    (more back : List UInt8) :
    splitAtFirst? (first :: more) (front ++ back) =
      (splitAtFirst? (first :: more) back).map fun (body, rest) => (front ++ body, rest) := by
  induction front with
  | nil =>
    rw [List.nil_append]
    cases splitAtFirst? (first :: more) back <;> rfl
  | cons byte front ih =>
    rw [List.mem_cons, not_or] at h
    have hfirst : (first :: more).isPrefixOf (byte :: (front ++ back)) = false := by
      simp [List.isPrefixOf, h.1]
    rw [List.cons_append, splitAtFirst?, hfirst, if_neg Bool.false_ne_true, ih h.2, Option.map_map]
    rfl

/-- Each equals sign is one byte. Counterpart of `utf8`. -/
theorem utf8_equals (level : Nat) :
    utf8 (List.replicate level '=') = List.replicate level 0x3D := by
  induction level with
  | zero => rfl
  | succ level ih =>
    rw [List.replicate_succ, utf8_cons, ih]
    rfl

/-- The bytes of a closing bracket of a level. Counterpart of `closeBracket`. -/
theorem closeBracket_eq (level : Nat) :
    closeBracket level = utf8 (']' :: (List.replicate level '=' ++ [']'])) := by
  rw [utf8_cons, utf8_append, utf8_equals]
  rfl

/-- Behind the bytes of an opening bracket of a level. Counterpart of `skipComment?`. -/
theorem drop_open (level : Nat) (rest : List Char) :
    (utf8 ('[' :: (List.replicate level '=' ++ '[' :: rest))).drop (level + 2) = utf8 rest := by
  have hopen : utf8 ('[' :: (List.replicate level '=' ++ '[' :: rest)) =
      0x5B :: (List.replicate level 0x3D ++ 0x5B :: utf8 rest) := by
    rw [utf8_cons, utf8_append, utf8_equals]
    rfl
  rw [hopen, List.drop_succ_cons, List.drop_append]
  simp

/-- The first closing bracket among the bytes of a text is the first one in the text. Counterpart of
`splitAtFirst?`. -/
theorem splitAtFirst?_utf8 (level : Nat) (text : List Char) :
    splitAtFirst? (closeBracket level) (utf8 text) =
      (Scan.bracketLength? level text).map fun length =>
        (utf8 (text.take (length - (level + 2))), utf8 (text.drop length)) := by
  induction text with
  | nil => rfl
  | cons c rest ih =>
    -- Where nothing closes at a character, it belongs to the body.
    have hbody : ∀ length, Scan.bracketLength? level rest = some length →
        utf8 ((c :: rest).take (length + 1 - (level + 2))) =
          String.utf8EncodeChar c ++ utf8 (rest.take (length - (level + 2))) := by
      intro length hlength
      have hle := (Scan.le_of_bracketLength? hlength).1
      rw [Nat.sub_add_comm hle, List.take_succ_cons, utf8_cons]
    by_cases hc : c = ']'
    · subst hc
      have hprefix : (closeBracket level).isPrefixOf (0x5D :: utf8 rest) =
          Scan.closesBracket level (']' :: rest) := by
        show _ = List.isPrefixOf _ _
        rw [← isPrefixOf_utf8, ← closeBracket_eq]
        · rfl
        · exact fun d => Scan.toNat_lt_of_mem_closing
      show splitAtFirst? (closeBracket level) (0x5D :: utf8 rest) = _
      rw [splitAtFirst?, Scan.bracketLength?, hprefix]
      split
      · rename_i hcloses
        obtain ⟨back, hback⟩ := List.isPrefixOf_iff_prefix.1 hcloses
        have hlength : (']' :: (List.replicate level '=' ++ [']'])).length = level + 2 := by simp
        have hbytes : (0x5D :: utf8 rest).drop (closeBracket level).length = utf8 back := by
          show (utf8 (']' :: rest)).drop _ = _
          rw [← hback, utf8_append, ← closeBracket_eq, List.drop_left]
        rw [hbytes, ← hback, Option.map_some, Nat.sub_self, ← hlength, List.drop_left]
        rfl
      · rw [ih]
        cases hX : Scan.bracketLength? level rest with
        | none => rfl
        | some length =>
          rw [Option.map_some, Option.map_some, Option.map_some, Option.map_some, hbody length hX]
          rfl
    · have hbytes : 0x5D ∉ String.utf8EncodeChar c := fun hmem => by
        have hsame := @bytewise_beq 0x5D ']' rfl (by decide) c _ hmem
        exact hc (by simpa using hsame.symm)
      rw [utf8_cons, closeBracket, splitAtFirst?_append hbytes, ← closeBracket, ih,
        Scan.bracketLength?, Scan.closesBracket_of_ne hc, if_neg Bool.false_ne_true]
      cases hX : Scan.bracketLength? level rest with
      | none => rfl
      | some length =>
        rw [Option.map_some, Option.map_some, Option.map_some, Option.map_some, hbody length hX,
          List.drop_succ_cons]

end Gap

end LuaFormatter
