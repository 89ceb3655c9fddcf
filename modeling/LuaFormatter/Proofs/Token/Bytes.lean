import LuaFormatter.Proofs.Source.Bytes
import LuaFormatter.Proofs.Token.Closing
import LuaFormatter.Proofs.Token.Cover
import LuaFormatter.Token.Bytes

/-!
# The scan of bytes finds the tokens

Each byte of a character from 128 on is read as a character from 128 on, so what the readers see of
the bytes of a text are its own characters below 128, and between them some that pass no test
(`bytewise_glyph`). Each reader therefore goes as far in the bytes as it goes in the text, and
`scan_utf8` says that the scan of bytes finds the tokens of the text. So every token that it finds
starts and ends between two characters (`isCut_of_mem_scan`), although it never looks for their
ends.
-/

namespace LuaFormatter.ByteScan

open Scan

/-- What the readers see of the bytes of a text. -/
def glyphs (text : List Char) : List Char :=
  (utf8 text).map glyph

/-! ## Characters and their bytes -/

/-- A byte is read as the character with its number. Counterpart of `glyph`. -/
theorem toNat_glyph (byte : UInt8) : (glyph byte).toNat = byte.toNat := by
  have hbyte := byte.toNat_lt
  have hvalid : byte.toNat.isValidChar := .inl (by omega)
  rw [glyph, Char.ofNat, dif_pos hvalid]
  rfl

/-- A character below 128 is read as itself. Counterpart of `glyph`. -/
theorem glyph_ofNat {c : Char} (h : c.toNat < 128) : glyph (UInt8.ofNat c.toNat) = c := by
  rw [← Char.toNat_inj, toNat_glyph, UInt8.toNat_ofNat']
  omega

@[simp] theorem glyphs_nil : glyphs [] = [] :=
  rfl

@[simp] theorem glyphs_append (front back : List Char) :
    glyphs (front ++ back) = glyphs front ++ glyphs back := by
  simp [glyphs]

@[simp] theorem length_glyphs (text : List Char) : (glyphs text).length = byteLength text := by
  simp [glyphs]

/-- A first character below 128 is seen as it is. Counterpart of `glyphs`. -/
theorem glyphs_cons_of_lt {c : Char} (h : c.toNat < 128) (rest : List Char) :
    glyphs (c :: rest) = c :: glyphs rest := by
  simp [glyphs, utf8EncodeChar_of_lt h, glyph_ofNat h]

/-- A character below 128 takes one byte. Counterpart of `byteLength`. -/
theorem utf8Size_of_lt {c : Char} (h : c.toNat < 128) : c.utf8Size = 1 := by
  rw [← String.length_utf8EncodeChar, utf8EncodeChar_of_lt h, List.length_singleton]

/-- The readers see characters below 128 as they are. Counterpart of `glyphs`. -/
theorem glyphs_of_lt {text : List Char} (h : ∀ c ∈ text, c.toNat < 128) : glyphs text = text := by
  induction text with
  | nil => rfl
  | cons c rest ih =>
    obtain ⟨hc, hrest⟩ := List.forall_mem_cons.1 h
    rw [glyphs_cons_of_lt hc, ih hrest]

/-! ## Tests of characters -/

/-- The test is passed by characters below 128 only. -/
def IsLow (p : Char → Bool) : Prop :=
  ∀ c : Char, p c = true → c.toNat < 128

section
variable {p q : Char → Bool}

/-- Two tests for characters below 128 make one, as `isSkipped` is made of six. Counterpart of
`IsLow`. -/
theorem IsLow.or (hp : IsLow p) (hq : IsLow q) : IsLow fun c => p c || q c :=
  fun c h => (Bool.or_eq_true_iff.1 h).elim (hp c) (hq c)

/-- No character from 128 on passes the test. Counterpart of `IsLow`. -/
theorem IsLow.eq_false (hp : IsLow p) {c : Char} (hc : 128 ≤ c.toNat) : p c = false :=
  Bool.eq_false_iff.2 fun h => absurd (hp c h) (by omega)

/-- The test for a single character below 128, as the marks of `nextToken` are. Counterpart of
`IsLow`. -/
theorem isLow_beq {d : Char} (hd : d.toNat < 128) : IsLow (· == d) :=
  fun _ h => beq_iff_eq.1 h ▸ hd

/-- The test for a range that ends below 128, as the digits of `isHexDigit` are. Counterpart of
`IsLow`. -/
theorem isLow_range {first last : Char} (hlast : last.toNat < 128) :
    IsLow fun c => decide (first ≤ c) && decide (c ≤ last) := by
  intro c h
  have hle : c.toNat ≤ last.toNat := of_decide_eq_true (Bool.and_eq_true_iff.1 h).2
  omega

/-- Digits are below 128: the first test of `afterNumber`. Counterpart of `IsLow`. -/
theorem isLow_isDigit : IsLow Char.isDigit :=
  isLow_range (show '9'.toNat < 128 by decide)

/-- Letters are below 128: the letters of other scripts start no name. Counterpart of `IsLow`. -/
theorem isLow_isAlpha : IsLow Char.isAlpha := by
  intro c h
  rcases Bool.or_eq_true_iff.1 (show (c.isUpper || c.isLower) = true from h) with h | h
  · have hle : c.toNat ≤ 'Z'.toNat := (of_decide_eq_true h).2
    exact Nat.lt_of_le_of_lt hle (by decide)
  · have hle : c.toNat ≤ 'z'.toNat := of_decide_eq_true (Bool.and_eq_true_iff.1 h).2
    exact Nat.lt_of_le_of_lt hle (by decide)

/-- The test for the start of a name, as `nextToken` asks it. Counterpart of `isWordStart`. -/
theorem isLow_isWordStart : IsLow isWordStart :=
  isLow_isAlpha.or (isLow_beq (by decide))

/-- The test for the rest of a name, as `word` and `afterNumber` ask it. Counterpart of
`isWordChar`. -/
theorem isLow_isWordChar : IsLow isWordChar :=
  (isLow_isAlpha.or isLow_isDigit).or (isLow_beq (by decide))

/-- The test for the digits of a hexadecimal number. Counterpart of `isHexDigit`. -/
theorem isLow_isHexDigit : IsLow isHexDigit :=
  (isLow_isDigit.or (isLow_range (by decide))).or (isLow_range (by decide))

/-- The test for the blanks between tokens. Counterpart of `isSkipped`. -/
theorem isLow_isSkipped : IsLow isSkipped := by
  unfold isSkipped
  repeat apply IsLow.or
  all_goals exact isLow_beq (by decide)

/-- Such a test gives for the bytes of a character what it gives for the character. Counterpart of
`Bytewise`. -/
theorem IsLow.bytewise (h : IsLow p) : Bytewise (p ∘ glyph) p := by
  intro c byte hmem
  rw [Function.comp_apply]
  by_cases hc : c.toNat < 128
  · rw [utf8EncodeChar_of_lt hc, List.mem_singleton] at hmem
    rw [hmem, glyph_ofNat hc]
  · have hbyte := le_of_mem_utf8EncodeChar (Nat.le_of_not_lt hc) hmem
    rw [h.eq_false (Nat.le_of_not_lt hc), h.eq_false (by rwa [toNat_glyph])]

/-- A loop that passes over characters leaves the bytes of what it leaves of the text. Counterpart
of `Bytewise.dropWhile_utf8`. -/
theorem dropWhile_glyphs (h : Bytewise (p ∘ glyph) p) (text : List Char) :
    (glyphs text).dropWhile p = glyphs (text.dropWhile p) := by
  rw [glyphs, List.dropWhile_map, h.dropWhile_utf8]
  rfl

/-- A loop that collects characters collects their bytes. Counterpart of `List.takeWhile` in a
reader. -/
theorem takeWhile_glyphs (h : Bytewise (p ∘ glyph) p) (text : List Char) :
    (glyphs text).takeWhile p = glyphs (text.takeWhile p) := by
  refine List.append_cancel_right
    (?_ : _ ++ glyphs (text.dropWhile p) = _ ++ glyphs (text.dropWhile p))
  rw [← dropWhile_glyphs h, List.takeWhile_append_dropWhile, dropWhile_glyphs h, ← glyphs_append,
    List.takeWhile_append_dropWhile]

/-- Characters that pass a test are as many bytes as they are. Counterpart of `List.takeWhile` in a
reader. -/
theorem IsLow.takeWhile_glyphs (h : IsLow p) (text : List Char) :
    (glyphs text).takeWhile p = text.takeWhile p := by
  rw [ByteScan.takeWhile_glyphs h.bytewise]
  exact glyphs_of_lt fun c hc => h c (List.all_eq_true.1 List.all_takeWhile c hc)

/-- A test of the next character asks the next byte for the same. Counterpart of `List.head?` in a
reader. -/
theorem IsLow.any_head?_glyphs (h : IsLow p) (text : List Char) :
    (glyphs text).head?.any p = text.head?.any p := by
  rw [glyphs, List.head?_map, Option.any_map]
  exact h.bytewise.head?_utf8 text

/-- A character below 128 is among the bytes of a text if it is in the text. Counterpart of
`glyphs`. -/
theorem mem_glyphs {d : Char} (hd : d.toNat < 128) (text : List Char) :
    d ∈ glyphs text ↔ d ∈ text := by
  have hsame : (glyphs text).any (· == d) = text.any (· == d) := by
    rw [glyphs, List.any_map]
    exact (isLow_beq hd).bytewise.any_utf8 text
  rw [← List.contains_iff_mem, ← List.contains_iff_mem, List.contains_eq_any_beq,
    List.contains_eq_any_beq, ← Bool.eq_iff_iff]
  simpa only [Bool.beq_comm] using hsame

/-- A character below 128 comes next among the bytes of a text if it comes next in the text.
Counterpart of `List.head?` in a reader. -/
theorem head?_glyphs {d : Char} (hd : d.toNat < 128) (text : List Char) :
    (glyphs text).head? = some d ↔ text.head? = some d := by
  have hsame := (isLow_beq hd).any_head?_glyphs text
  rw [Gap.any_beq, Gap.any_beq] at hsame
  rw [← beq_iff_eq, hsame, beq_iff_eq]

end

/-! ## Readers -/

section
variable {p : Char → Bool}

/-- The bytes of a character from 128 on, as they are read. Counterpart of `glyphs`. -/
theorem exists_glyphs_cons {c : Char} (hc : 128 ≤ c.toNat) (rest : List Char) :
    ∃ first more, glyphs (c :: rest) = first :: more ++ glyphs rest ∧
      (first :: more).length = c.utf8Size ∧ ∀ g ∈ first :: more, 128 ≤ g.toNat := by
  obtain ⟨byte, bytes, hbytes, -⟩ := exists_utf8EncodeChar c
  refine ⟨glyph byte, bytes.map glyph, ?_, ?_, ?_⟩
  · rw [glyphs, utf8_cons, hbytes, List.map_append]
    rfl
  · rw [← String.length_utf8EncodeChar, hbytes, List.length_cons, List.length_cons, List.length_map]
  · rw [← List.map_cons, ← hbytes]
    intro g hg
    obtain ⟨other, hother, rfl⟩ := List.mem_map.1 hg
    rw [toNat_glyph]
    exact le_of_mem_utf8EncodeChar hc hother

/-- A character below 128 is the last byte of a text if it is its last character, as `lineLength`
asks for a carriage return. Counterpart of `lineLength`. -/
theorem getLast?_glyphs {d : Char} (hd : d.toNat < 128) (text : List Char) :
    (glyphs text).getLast? = some d ↔ text.getLast? = some d := by
  rcases List.eq_nil_or_concat text with rfl | ⟨front, c, rfl⟩
  · simp
  rw [List.concat_eq_append]
  by_cases hc : c.toNat < 128
  · rw [glyphs_append, glyphs_cons_of_lt hc]
    simp
  · obtain ⟨first, more, hbytes, -, hlarge⟩ := exists_glyphs_cons (Nat.le_of_not_lt hc) []
    rw [glyphs_append, hbytes]
    have hlast := hlarge _ (List.getLast_mem (List.cons_ne_nil first more))
    have hne : ∀ g : Char, 128 ≤ g.toNat → g ≠ d := by
      rintro g hg rfl
      omega
    simp [List.getLast?_eq_some_getLast (List.cons_ne_nil first more), hne _ hlast,
      hne _ (Nat.le_of_not_lt hc)]

/-- The bytes up to the end of the line, or up to the carriage return before it. Counterpart of
`lineLength`. -/
theorem lineLength_glyphs (rest : List Char) :
    lineLength (glyphs rest) = byteLength (rest.take (lineLength rest)) := by
  have hbreak : Bytewise ((· != '\n') ∘ glyph) (· != '\n') :=
    (isLow_beq (d := '\n') (by decide)).bytewise.not
  have hprefix := List.takeWhile_prefix (· != '\n') (l := rest)
  simp only [lineLength, takeWhile_glyphs hbreak, beq_iff_eq,
    getLast?_glyphs (d := '\r') (by decide), length_glyphs]
  split
  · rename_i hreturn
    obtain ⟨front, hfront⟩ := List.getLast?_eq_some_iff.1 hreturn
    rw [hfront] at hprefix ⊢
    have htake := List.prefix_iff_eq_take.1 ((List.prefix_append front ['\r']).trans hprefix)
    have hreturn : byteLength ['\r'] = 1 := rfl
    rw [List.length_append, List.length_singleton, Nat.add_sub_cancel, ← htake, byteLength_append,
      hreturn, Nat.add_sub_cancel]
  · rw [← List.prefix_iff_eq_take.1 hprefix]

/-- Characters below 128 start the bytes of a text if they start the text. Counterpart of
`isPrefixOf_utf8`. -/
theorem isPrefixOf_glyphs {front : List Char} (h : ∀ c ∈ front, c.toNat < 128) (text : List Char) :
    front.isPrefixOf (glyphs text) = front.isPrefixOf text := by
  induction front generalizing text with
  | nil => rfl
  | cons d front ih =>
    obtain ⟨hd, hfront⟩ := List.forall_mem_cons.1 h
    cases text with
    | nil => rfl
    | cons c rest =>
      by_cases hc : c.toNat < 128
      · rw [glyphs_cons_of_lt hc, List.isPrefixOf, List.isPrefixOf, ih hfront]
      · obtain ⟨first, more, hbytes, -, hlarge⟩ := exists_glyphs_cons (Nat.le_of_not_lt hc) rest
        have hfirst := (isLow_beq hd).eq_false (hlarge first List.mem_cons_self)
        have hchar := (isLow_beq hd).eq_false (Nat.le_of_not_lt hc)
        rw [hbytes, List.cons_append, List.isPrefixOf, List.isPrefixOf, Bool.beq_comm, hfirst,
          Bool.beq_comm, hchar, Bool.false_and, Bool.false_and]

/-- A long bracket opens among the bytes where it opens in the text. Counterpart of
`Gap.bracketLevel?_utf8`. -/
theorem bracketLevel?_glyphs (text : List Char) :
    bracketLevel? (glyphs text) = bracketLevel? text := by
  have hequals : IsLow (· == '=') := isLow_beq (by decide)
  by_cases hopen : text.head? = some '['
  · obtain ⟨rest, rfl⟩ := List.head?_eq_some_iff.1 hopen
    have hnext : (glyphs rest)[(rest.takeWhile (· == '=')).length]? = some '[' ↔
        rest[(rest.takeWhile (· == '=')).length]? = some '[' := by
      conv => lhs; rw [← hequals.takeWhile_glyphs, getElem?_takeWhile_length,
        dropWhile_glyphs hequals.bytewise, head?_glyphs (by decide)]
      rw [getElem?_takeWhile_length]
    rw [glyphs_cons_of_lt (by decide)]
    simp only [bracketLevel?, hequals.takeWhile_glyphs, beq_iff_eq, hnext]
  · have hnone : ∀ other : List Char, other.head? ≠ some '[' → bracketLevel? other = none := by
      intro other hother
      unfold bracketLevel?
      split
      · exact absurd rfl hother
      · rfl
    rw [hnone text hopen, hnone _ fun h => hopen ((head?_glyphs (by decide) text).1 h)]

/-- Nothing closes at characters that are no brackets. Counterpart of `bracketLength?`. -/
theorem bracketLength?_append_of_not_mem {level : Nat} {front : List Char} (h : ']' ∉ front)
    (back : List Char) :
    bracketLength? level (front ++ back) = (bracketLength? level back).map (· + front.length) := by
  induction front with
  | nil => simp
  | cons c front ih =>
    rw [List.mem_cons, not_or] at h
    rw [List.cons_append, bracketLength?, closesBracket_of_ne (Ne.symm h.1),
      if_neg Bool.false_ne_true, ih h.2, Option.map_map]
    rfl

/-- Characters below 128 are as many bytes as they are characters. Counterpart of `byteLength`. -/
theorem byteLength_of_lt {text : List Char} (h : ∀ c ∈ text, c.toNat < 128) :
    byteLength text = text.length := by
  rw [← length_glyphs, glyphs_of_lt h]

/-- The first bracket that closes among the bytes is the first one in the text. Counterpart of
`Gap.splitAtFirst?_utf8`. -/
theorem bracketLength?_glyphs (level : Nat) (text : List Char) :
    bracketLength? level (glyphs text) =
      (bracketLength? level text).map fun length => byteLength (text.take length) := by
  induction text with
  | nil => rfl
  | cons c rest ih =>
    by_cases hc : c = ']'
    · subst hc
      rw [glyphs_cons_of_lt (by decide), bracketLength?, bracketLength?]
      have hcloses : closesBracket level (']' :: glyphs rest) =
          closesBracket level (']' :: rest) := by
        rw [← glyphs_cons_of_lt (by decide)]
        exact isPrefixOf_glyphs (fun c => toNat_lt_of_mem_closing) _
      rw [hcloses]
      split
      · rename_i hprefix
        have htake := List.prefix_iff_eq_take.1 (List.isPrefixOf_iff_prefix.1 hprefix)
        have hlength : (']' :: (List.replicate level '=' ++ [']'])).length = level + 2 := by simp
        rw [hlength] at htake
        rw [Option.map_some, ← htake, byteLength_of_lt fun c => toNat_lt_of_mem_closing, hlength]
      · rw [ih, Option.map_map, Option.map_map]
        refine congrArg (Option.map · _) (funext fun length => ?_)
        exact Nat.add_comm _ 1
    · have hother : ']' ∉ [c] := by simpa using Ne.symm hc
      have hplain : ']' ∉ glyphs [c] := by rwa [mem_glyphs (by decide)]
      rw [← List.singleton_append, glyphs_append, bracketLength?_append_of_not_mem hplain, ih,
        bracketLength?_append_of_not_mem hother, Option.map_map, Option.map_map]
      refine congrArg (Option.map · _) (funext fun length => ?_)
      rw [Function.comp_apply, Function.comp_apply, length_glyphs, List.length_singleton,
        List.singleton_append, List.take_succ_cons, Nat.add_comm]
      rfl

/-- Characters that are neither quotes nor backslashes nor line feeds are taken one by one.
Counterpart of `quotedLength`. -/
theorem quotedLength_append_of_plain {quote : Char} {front : List Char}
    (h : ∀ c ∈ front, c ≠ '\\' ∧ c ≠ '\n' ∧ c ≠ quote) (back : List Char) :
    quotedLength quote (front ++ back) =
      ((quotedLength quote back).1, (quotedLength quote back).2 + front.length) := by
  induction front with
  | nil => rfl
  | cons c front ih =>
    obtain ⟨⟨hslash, hline, hclose⟩, hfront⟩ := List.forall_mem_cons.1 h
    rw [List.cons_append, quotedLength_cons hslash, if_neg hline, if_neg hclose, ih hfront]
    rfl

/-- A quoted string ends in the bytes where it ends in the text: a backslash takes one byte of the
next character along, and the bytes that are left of it are none that the reader asks for.
Counterpart of `quotedLength`. -/
theorem quotedLength_glyphs {quote : Char} (hquote : quote.toNat < 128) (text : List Char) :
    quotedLength quote (glyphs text) =
      ((quotedLength quote text).1, byteLength (text.take (quotedLength quote text).2)) := by
  have hlarge : ∀ g : Char, 128 ≤ g.toNat → g ≠ '\\' ∧ g ≠ '\n' ∧ g ≠ quote := by
    intro g hg
    have hne : ∀ d : Char, d.toNat < 128 → g ≠ d := by
      rintro d hd rfl
      omega
    exact ⟨hne _ (by decide), hne _ (by decide), hne _ hquote⟩
  fun_induction quotedLength quote text with
  | case1 | case2 => rfl
  | case3 c rest closed inner hinner ih =>
    rw [hinner] at ih
    dsimp only at ih
    rw [glyphs_cons_of_lt (by decide), List.take_succ_cons, List.take_succ_cons, byteLength,
      byteLength]
    by_cases hc : c.toNat < 128
    · rw [glyphs_cons_of_lt hc, quotedLength_escape, ih, utf8Size_of_lt hc,
        utf8Size_of_lt (by decide)]
      exact congrArg (Prod.mk closed) (by omega)
    · obtain ⟨first, more, hbytes, hsize, hmore⟩ := exists_glyphs_cons (Nat.le_of_not_lt hc) rest
      rw [hbytes, List.cons_append, quotedLength_escape, quotedLength_append_of_plain
        fun g hg => hlarge g (hmore g (List.mem_cons_of_mem _ hg)), ih, ← hsize, List.length_cons,
        utf8Size_of_lt (by decide)]
      exact congrArg (Prod.mk closed) (by omega)
  | case4 rest =>
    rw [glyphs_cons_of_lt (by decide), quotedLength_cons (by decide), if_pos rfl]
    rfl
  | case5 rest hnil hcons hline =>
    rw [glyphs_cons_of_lt hquote, quotedLength_cons (ne_backslash hnil hcons), if_neg hline,
      if_pos rfl, List.take_succ_cons, byteLength, utf8Size_of_lt hquote]
    rfl
  | case6 c rest hnil hcons hline hclose closed inner hinner ih =>
    rw [hinner] at ih
    rw [List.take_succ_cons, byteLength]
    by_cases hc : c.toNat < 128
    · rw [glyphs_cons_of_lt hc, quotedLength_cons (ne_backslash hnil hcons), if_neg hline,
        if_neg hclose, ih, utf8Size_of_lt hc, Nat.add_comm]
    · obtain ⟨first, more, hbytes, hsize, hmore⟩ := exists_glyphs_cons (Nat.le_of_not_lt hc) rest
      rw [hbytes, quotedLength_append_of_plain fun g hg => hlarge g (hmore g hg), ih, hsize,
        Nat.add_comm]

/-- The fraction of a number. Counterpart of `afterFraction`. -/
theorem afterFraction_glyphs (h : IsLow p) (text : List Char) :
    afterFraction p (glyphs text) = glyphs (afterFraction p text) := by
  by_cases hdot : text.head? = some '.'
  · obtain ⟨rest, rfl⟩ := List.head?_eq_some_iff.1 hdot
    rw [glyphs_cons_of_lt (by decide), afterFraction, afterFraction]
    simp only [beq_iff_eq, head?_glyphs (d := '.') (by decide)]
    split
    · rw [glyphs_cons_of_lt (by decide)]
    · exact dropWhile_glyphs h.bytewise rest
  · have hself : ∀ other : List Char, other.head? ≠ some '.' → afterFraction p other = other := by
      intro other hother
      unfold afterFraction
      split
      · exact absurd rfl hother
      · rfl
    rw [hself text hdot, hself _ fun hbytes => hdot ((head?_glyphs (by decide) text).1 hbytes)]

/-- The exponent of a number, with its sign. Counterpart of `afterExponent`. -/
theorem afterExponent_glyphs (h : IsLow p) (text : List Char) :
    afterExponent p (glyphs text) = glyphs (afterExponent p text) := by
  cases text with
  | nil => rfl
  | cons c rest =>
    cases hmark : p c with
    | false =>
      have hself : afterExponent p (c :: rest) = c :: rest := by simp [afterExponent, hmark]
      have hhead : (glyphs (c :: rest)).head?.any p = false := by
        rw [h.any_head?_glyphs, List.head?_cons, Option.any_some, hmark]
      rw [hself]
      cases hbytes : glyphs (c :: rest) with
      | nil => rfl
      | cons first more =>
        rw [hbytes, List.head?_cons, Option.any_some] at hhead
        simp [afterExponent, hhead]
    | true =>
      have hdigits := dropWhile_glyphs isLow_isDigit.bytewise
      rw [glyphs_cons_of_lt (h c hmark)]
      by_cases hsign : rest.head? = some '+' ∨ rest.head? = some '-'
      · have hstep : ∀ sign : Char, sign = '+' ∨ sign = '-' → ∀ digits : List Char,
            afterExponent p (c :: sign :: digits) = digits.dropWhile Char.isDigit := by
          rintro sign (rfl | rfl) digits <;> simp [afterExponent, hmark]
        obtain ⟨sign, digits, rfl, hsame⟩ :
            ∃ sign digits, rest = sign :: digits ∧ (sign = '+' ∨ sign = '-') := by
          rcases hsign with hsign | hsign
          all_goals obtain ⟨digits, rfl⟩ := List.head?_eq_some_iff.1 hsign
          · exact ⟨_, _, rfl, .inl rfl⟩
          · exact ⟨_, _, rfl, .inr rfl⟩
        have hlow : sign.toNat < 128 := by rcases hsame with rfl | rfl <;> decide
        rw [glyphs_cons_of_lt hlow, hstep sign hsame, hstep sign hsame, hdigits]
      · rw [not_or] at hsign
        have hbytes : (glyphs rest).head? ≠ some '+' ∧ (glyphs rest).head? ≠ some '-' := by
          rwa [Ne, Ne, head?_glyphs (by decide), head?_glyphs (by decide)]
        rw [afterExponent_mark hmark hbytes, afterExponent_mark hmark hsign, hdigits]

/-- The stages of a number, one after the other. Counterpart of `afterStages`. -/
theorem afterStages_glyphs {isDigit isMark : Char → Bool} (hdigit : IsLow isDigit)
    (hmark : IsLow isMark) (text : List Char) :
    afterStages isDigit isMark (glyphs text) = glyphs (afterStages isDigit isMark text) := by
  rw [afterStages, dropWhile_glyphs hdigit.bytewise, afterFraction_glyphs hdigit,
    afterExponent_glyphs hmark, dropWhile_glyphs isLow_isWordChar.bytewise, afterStages]

/-- The bytes of a text start like a hexadecimal number if the text does. Counterpart of
`startsHex`. -/
theorem startsHex_glyphs (text : List Char) : startsHex (glyphs text) = startsHex text := by
  by_cases hzero : text.head? = some '0'
  · obtain ⟨rest, rfl⟩ := List.head?_eq_some_iff.1 hzero
    have hrest : ∀ other : List Char,
        startsHex ('0' :: other) = other.head?.any fun c => c == 'x' || c == 'X' := by
      intro other
      cases other <;> rfl
    have hmarks : IsLow fun c => c == 'x' || c == 'X' :=
      (isLow_beq (by decide)).or (isLow_beq (by decide))
    rw [glyphs_cons_of_lt (by decide), hrest, hrest, hmarks.any_head?_glyphs]
  · have hnone : ∀ other : List Char, other.head? ≠ some '0' → startsHex other = false := by
      intro other hother
      unfold startsHex
      split
      · exact absurd rfl hother
      · rfl
    rw [hnone text hzero, hnone _ fun hbytes => hzero ((head?_glyphs (by decide) text).1 hbytes)]

/-- A number ends in the bytes where it ends in the text. Counterpart of `afterNumber`. -/
theorem afterNumber_glyphs (text : List Char) :
    afterNumber (glyphs text) = glyphs (afterNumber text) := by
  have hpair : ∀ first second : Char, first.toNat < 128 → second.toNat < 128 →
      IsLow fun c => c == first || c == second :=
    fun _ _ hfirst hsecond => (isLow_beq hfirst).or (isLow_beq hsecond)
  cases hhex : startsHex text with
  | true =>
    obtain ⟨mark, rest, rfl, hmark⟩ : ∃ mark rest, text = '0' :: mark :: rest ∧
        (mark == 'x' || mark == 'X') = true := by
      unfold startsHex at hhex
      split at hhex
      · exact ⟨_, _, rfl, hhex⟩
      · cases hhex
    have hlow : mark.toNat < 128 := hpair 'x' 'X' (by decide) (by decide) mark hmark
    rw [glyphs_cons_of_lt (by decide), glyphs_cons_of_lt hlow, afterNumber_hex hmark,
      afterNumber_hex hmark, afterStages_glyphs isLow_isHexDigit
      (hpair 'p' 'P' (by decide) (by decide))]
  | false =>
    have hbytes : startsHex (glyphs text) = false := (startsHex_glyphs text).trans hhex
    rw [afterNumber_decimal hbytes, afterNumber_decimal hhex,
      afterStages_glyphs isLow_isDigit (hpair 'e' 'E' (by decide) (by decide))]

/-- Symbols are made of characters below 128. Counterpart of `Symbol.text`. -/
theorem toNat_lt_of_mem_symbol {symbol : Symbol} {c : Char} (h : c ∈ symbol.text.toList) :
    c.toNat < 128 := by
  have hlow : ∀ symbol ∈ Symbol.all,
      symbol.text.toList.all (fun c => decide (c.toNat < 128)) = true := by
    decide
  exact of_decide_eq_true (List.all_eq_true.1 (hlow symbol symbol.mem_all) c h)

/-- The bytes of a text start with the symbol that the text starts with. Counterpart of
`Symbol.read?`. -/
theorem read?_glyphs (text : List Char) : Symbol.read? (glyphs text) = Symbol.read? text :=
  congrArg (Symbol.all.find? ·)
    (funext fun _ => isPrefixOf_glyphs (fun _ hc => toNat_lt_of_mem_symbol hc) text)

end

/-! ## Tokens -/

/-- What a reader takes of a text, in bytes. -/
def inBytes (rest : List Char) (read : Kind × Nat) : Kind × Nat :=
  (read.1, byteLength (rest.take read.2))

/-- The bytes after some single ones. Counterpart of `List.drop` in a reader. -/
theorem drop_glyphs {front : List Char} (hfront : ∀ c ∈ front, c.toNat < 128) (body : List Char) :
    (glyphs (front ++ body)).drop front.length = glyphs body := by
  rw [glyphs_append, glyphs_of_lt hfront, List.drop_left]

/-- What stands in front of a long bracket's text, and the text up to the bracket that closes it. -/
def untilClosed (closed unclosed : Kind) (level skip : Nat) (rest : List Char) : Kind × Nat :=
  match bracketLength? level (rest.drop skip) with
  | some length => (closed, skip + length)
  | none => (unclosed, rest.length)

/-- The search for a closing bracket takes as many bytes as it has in the text. Counterpart of
`bracketLength?_glyphs` for `comment_eq` and `longString_eq`. -/
theorem untilClosed_glyphs (closed unclosed : Kind) (level : Nat) {front : List Char}
    (hfront : ∀ c ∈ front, c.toNat < 128) (body : List Char) :
    untilClosed closed unclosed level front.length (glyphs (front ++ body)) =
      inBytes (front ++ body) (untilClosed closed unclosed level front.length (front ++ body)) := by
  rw [untilClosed, untilClosed, drop_glyphs hfront, List.drop_left, bracketLength?_glyphs]
  cases bracketLength? level body with
  | none =>
    simp only [Option.map_none, inBytes]
    rw [List.take_length, length_glyphs]
  | some length =>
    simp only [Option.map_some, inBytes]
    rw [List.take_add, List.take_left, List.drop_left, byteLength_append, byteLength_of_lt hfront]

/-- What opens a long bracket is below 128, and so is what stands in front of it. Counterpart of
`untilClosed`. -/
theorem toNat_lt_of_mem_opening (level : Nat) (front : List Char)
    (hfront : ∀ c ∈ front, c.toNat < 128) :
    ∀ c ∈ front ++ List.replicate level '=' ++ ['['], c.toNat < 128 := by
  intro c h
  simp only [List.mem_append, List.mem_replicate, List.mem_singleton] at h
  rcases h with (h | ⟨-, rfl⟩) | rfl
  · exact hfront c h
  · decide
  · decide

/-- A comment, which starts after its first dash. Counterpart of `comment`. -/
theorem comment_glyphs {rest : List Char} (hdash : rest.head? = some '-') :
    comment (glyphs rest) = inBytes rest (comment rest) := by
  obtain ⟨text, rfl⟩ := List.head?_eq_some_iff.1 hdash
  rw [comment_eq, comment_eq, glyphs_cons_of_lt (by decide), List.tail_cons, List.tail_cons,
    bracketLevel?_glyphs]
  cases hlevel : bracketLevel? text with
  | none =>
    dsimp only
    rw [← glyphs_cons_of_lt (by decide), lineLength_glyphs]
    rfl
  | some level =>
    obtain ⟨body, rfl⟩ := exists_of_bracketLevel? hlevel
    have hread := untilClosed_glyphs .blockComment .unterminatedComment level
      (toNat_lt_of_mem_opening level ['-', '['] (by simp)) body
    have hlength : (['-', '['] ++ List.replicate level '=' ++ ['[']).length = level + 3 := by
      simp only [List.length_append, List.length_replicate, List.length_cons, List.length_nil]
      omega
    have hrest : ['-', '['] ++ List.replicate level '=' ++ ['['] ++ body =
        '-' :: '[' :: (List.replicate level '=' ++ '[' :: body) := by simp
    rw [hlength, hrest] at hread
    rw [← glyphs_cons_of_lt (by decide)]
    exact hread

/-- A long string, which starts after its first bracket. Counterpart of `longString`. -/
theorem longString_glyphs {level : Nat} {first : Char} {rest : List Char}
    (h : bracketLevel? (first :: rest) = some level) :
    longString level (glyphs rest) = inBytes rest (longString level rest) := by
  obtain ⟨body, hrest⟩ := exists_of_bracketLevel? h
  obtain ⟨-, rfl⟩ := List.cons.inj hrest
  have hread := untilClosed_glyphs .longString .unterminatedLongString level
    (toNat_lt_of_mem_opening level [] (by simp)) body
  have hlength : ([] ++ List.replicate level '=' ++ ['[']).length = level + 1 := by simp
  have hrest : [] ++ List.replicate level '=' ++ ['['] ++ body = List.replicate level '=' ++ '[' ::
      body := by
    simp
  rw [hlength, hrest] at hread
  rw [longString_eq, longString_eq]
  exact hread

/-- A quoted string, which starts after its quote. Counterpart of `quoted`. -/
theorem quoted_glyphs {quote : Char} (hquote : quote.toNat < 128) (rest : List Char) :
    quoted quote (glyphs rest) = inBytes rest (quoted quote rest) := by
  rw [quoted, quotedLength_glyphs hquote]
  rfl

/-- A name or a keyword. Counterpart of `word`. -/
theorem word_glyphs (first : Char) (rest : List Char) :
    word first (glyphs rest) = inBytes rest (word first rest) := by
  have htail : byteLength (rest.take (rest.takeWhile isWordChar).length) =
      (rest.takeWhile isWordChar).length := by
    rw [← List.prefix_iff_eq_take.1 (List.takeWhile_prefix isWordChar)]
    exact byteLength_of_lt fun c hc =>
      isLow_isWordChar c (List.all_eq_true.1 List.all_takeWhile c hc)
  simp only [word, isLow_isWordChar.takeWhile_glyphs]
  split <;> simp [inBytes, htail]

/-- The bytes of a number after its first one, as `nextToken` counts them. Counterpart of
`nextToken` for numbers. -/
theorem number_glyphs {first : Char} {rest : List Char} (hfirst : first.toNat < 128)
    (h : first.isDigit = true ∨ (first = '.' ∧ rest.head?.any Char.isDigit = true)) :
    (glyphs rest).length - (afterNumber (first :: glyphs rest)).length =
      byteLength (rest.take (rest.length - (afterNumber (first :: rest)).length)) := by
  obtain ⟨text, hrest, -⟩ := exists_number h
  rw [← glyphs_cons_of_lt hfirst, afterNumber_glyphs, length_glyphs, length_glyphs]
  generalize afterNumber (first :: rest) = back at hrest
  rw [hrest, byteLength_append, List.length_append, Nat.add_sub_cancel, Nat.add_sub_cancel,
    List.take_left]

/-- The token that starts with a character below 128. Counterpart of `nextToken`. -/
theorem nextToken_glyphs {first : Char} (hfirst : first.toNat < 128) (atStart : Bool)
    (rest : List Char) :
    Scan.nextToken atStart first (glyphs rest) =
      inBytes rest (Scan.nextToken atStart first rest) := by
  have hlevel : bracketLevel? (first :: glyphs rest) = bracketLevel? (first :: rest) := by
    rw [← glyphs_cons_of_lt hfirst, bracketLevel?_glyphs]
  have hsymbol : Symbol.read? (first :: glyphs rest) = Symbol.read? (first :: rest) := by
    rw [← glyphs_cons_of_lt hfirst, read?_glyphs]
  unfold Scan.nextToken
  simp only [head?_glyphs (d := '!') (by decide), head?_glyphs (d := '-') (by decide), hlevel,
    hsymbol, isLow_isDigit.any_head?_glyphs]
  split
  · exact congrArg (Prod.mk _) (lineLength_glyphs rest)
  split
  · rename_i hdash
    exact comment_glyphs hdash.2
  split
  · exact quoted_glyphs hfirst rest
  split
  · rename_i level hlevel
    exact longString_glyphs hlevel
  split
  · rename_i hnumber
    exact congrArg (Prod.mk _) (number_glyphs hfirst hnumber)
  split
  · exact word_glyphs first rest
  split
  · rename_i symbol hsymbol
    have htext := lexeme_symbol hsymbol
    have hlow : ∀ c ∈ rest.take (symbol.text.length - 1), c.toNat < 128 := fun c hc =>
      toNat_lt_of_mem_symbol (htext ▸ List.mem_cons_of_mem _ hc)
    have hlength := congrArg List.length htext
    rw [List.length_cons, String.length_toList] at hlength
    refine congrArg (Prod.mk _) ?_
    rw [byteLength_of_lt hlow]
    omega
  · rfl

/-- A character from 128 on starts no token. Counterpart of `nextToken`. -/
theorem nextToken_of_le {first : Char} (hfirst : 128 ≤ first.toNat) (atStart : Bool)
    (rest : List Char) :
    Scan.nextToken atStart first rest = (.unknown, 0) := by
  have hne : ∀ d : Char, d.toNat < 128 → first ≠ d := by
    rintro d hd rfl
    omega
  have hsymbol : Symbol.read? (first :: rest) = none := by
    refine Option.eq_none_iff_forall_ne_some.2 fun symbol hsymbol => ?_
    have hlow : first.toNat < 128 := toNat_lt_of_mem_symbol
      (by rw [← lexeme_symbol hsymbol]; exact List.mem_cons_self)
    omega
  unfold Scan.nextToken
  rw [if_neg fun h => hne '#' (by decide) h.1, if_neg fun h => hne '-' (by decide) h.1,
    if_neg fun h => h.elim (hne '"' (by decide)) (hne '\x27' (by decide)),
    bracketLevel?_of_ne (hne '[' (by decide))]
  dsimp only
  rw [if_neg (by simp [isLow_isDigit.eq_false hfirst, hne '.' (by decide)]),
    if_neg (by simp [isLow_isWordStart.eq_false hfirst]), hsymbol]

/-- A character that starts no other token is a token of its own. Counterpart of `nextToken` for
`Kind.unknown`. -/
theorem nextToken_unknown {atStart : Bool} {first : Char} {rest : List Char} {length : Nat}
    (h : Scan.nextToken atStart first rest = (.unknown, length)) : length = 0 := by
  unfold Scan.nextToken at h
  split at h
  · cases h
  split at h
  · unfold comment at h
    split at h
    · split at h <;> cases h
    · cases h
  split at h
  · have hkind := congrArg Prod.fst h
    unfold quoted at hkind
    dsimp only at hkind
    split at hkind <;> cases hkind
  split at h
  · unfold longString at h
    split at h <;> cases h
  split at h
  · cases h
  split at h
  · unfold word at h
    dsimp only at h
    split at h <;> cases h
  split at h
  · cases h
  · cases h
    rfl

/-- The ranges of first bytes, as their bits tell them. Counterpart of `unknownLength`. -/
theorem unknownLength_eq_ite (byte : UInt8) : unknownLength byte =
    if 240 ≤ byte.toNat then 4 else if 224 ≤ byte.toNat then 3 else if 192 ≤ byte.toNat then 2
      else 1 := by
  have hall : ∀ n : Fin 256, unknownLength (UInt8.ofNat n.val) =
      if 240 ≤ n.val then 4 else if 224 ≤ n.val then 3 else if 192 ≤ n.val then 2 else 1 := by
    decide +kernel
  simpa using hall ⟨byte.toNat, byte.toNat_lt⟩

/-- The first byte of a character tells the number of its bytes. Counterpart of `unknownLength`. -/
theorem unknownLength_eq {c : Char} {byte : UInt8} {rest : List UInt8}
    (h : String.utf8EncodeChar c = byte :: rest) : unknownLength byte = c.utf8Size := by
  have hc : c.val.toNat < 0x110000 := by
    rcases c.valid with hvalid | ⟨-, hvalid⟩
    · exact Nat.lt_trans hvalid (by decide)
    · exact hvalid
  rw [unknownLength_eq_ite, ← String.length_utf8EncodeChar]
  unfold String.utf8EncodeChar at h ⊢
  dsimp only at h ⊢
  have hvalue : ∀ n : Nat, n < 256 → (UInt8.ofNat n).toNat = n := fun n hn => by
    rw [UInt8.toNat_ofNat']
    omega
  split at h
  · obtain ⟨rfl, -⟩ := List.cons.inj h
    rw [hvalue _ (by omega), if_neg (by omega), if_neg (by omega), if_neg (by omega),
      if_pos (by assumption)]
    rfl
  · split at h
    · rename_i hone htwo
      obtain ⟨rfl, -⟩ := List.cons.inj h
      rw [if_neg hone, if_pos htwo, hvalue _ (by omega), if_neg (by omega), if_neg (by omega),
        if_pos (by omega)]
      rfl
    · split at h
      · rename_i hone htwo hthree
        obtain ⟨rfl, -⟩ := List.cons.inj h
        rw [if_neg hone, if_neg htwo, if_pos hthree, hvalue _ (by omega), if_neg (by omega),
          if_pos (by omega)]
        rfl
      · rename_i hone htwo hthree
        obtain ⟨rfl, -⟩ := List.cons.inj h
        rw [if_neg hone, if_neg htwo, if_neg hthree, hvalue _ (by omega), if_pos (by omega)]
        rfl

/-- What the scan reads, and the length that it makes of it. Counterpart of `ByteScan.nextToken`. -/
theorem nextToken_eq (atStart : Bool) (first : UInt8) (rest : List UInt8) :
    nextToken atStart first rest =
      ((Scan.nextToken atStart (glyph first) (rest.map glyph)).1,
        if (Scan.nextToken atStart (glyph first) (rest.map glyph)).1 = .unknown
        then unknownLength first
        else (Scan.nextToken atStart (glyph first) (rest.map glyph)).2 + 1) :=
  rfl

/-- A token of bytes that ends inside of them. Counterpart of `ByteScan.tokensFrom`. -/
theorem tokensFrom_cons {offset length : Nat} {byte : UInt8} {rest : List UInt8} {kind : Kind}
    (hskipped : isSkipped (glyph byte) = false)
    (hread : nextToken (offset == 0) byte rest = (kind, length))
    (hlength : length ≤ rest.length + 1) :
    tokensFrom offset (byte :: rest) =
      ⟨kind, offset, length⟩ :: tokensFrom (offset + length) (rest.drop (length - 1)) := by
  rw [tokensFrom, hskipped, if_neg Bool.false_ne_true, hread]
  dsimp only
  rw [Nat.min_eq_left hlength]

/-- The next token takes as many bytes as it has in the text. Counterpart of
`ByteScan.nextToken`. -/
theorem nextToken_utf8 (atStart : Bool) (first : Char) (rest : List Char) {byte : UInt8}
    {more : List UInt8} (h : String.utf8EncodeChar first = byte :: more) :
    nextToken atStart byte (more ++ utf8 rest) =
      ((Scan.nextToken atStart first rest).1,
        byteLength (first :: rest.take (Scan.nextToken atStart first rest).2)) := by
  by_cases hfirst : first.toNat < 128
  · obtain ⟨rfl, rfl⟩ := List.cons.inj (h.symm.trans (utf8EncodeChar_of_lt hfirst))
    have hmap : (utf8 rest).map glyph = glyphs rest := rfl
    rw [nextToken_eq, glyph_ofNat hfirst, List.nil_append, hmap, nextToken_glyphs hfirst]
    rcases htoken : Scan.nextToken atStart first rest with ⟨kind, length⟩
    refine congrArg (Prod.mk kind) ?_
    show (if kind = .unknown then unknownLength (UInt8.ofNat first.toNat)
      else byteLength (rest.take length) + 1) = first.utf8Size + byteLength (rest.take length)
    split
    · rename_i hunknown
      subst hunknown
      obtain rfl := nextToken_unknown htoken
      rw [unknownLength_eq h]
      rfl
    · rw [utf8Size_of_lt hfirst, Nat.add_comm]
  · have hbyte : 128 ≤ byte.toNat :=
      le_of_mem_utf8EncodeChar (Nat.le_of_not_lt hfirst) (by rw [h]; exact List.mem_cons_self)
    rw [nextToken_eq, nextToken_of_le (by rwa [toNat_glyph]),
      nextToken_of_le (Nat.le_of_not_lt hfirst)]
    dsimp only
    rw [if_pos rfl, unknownLength_eq h]
    rfl

/-- The bytes after a token are those of the text after it. Counterpart of `ByteScan.tokensFrom`. -/
theorem drop_utf8 {first : Char} {byte : UInt8} {more : List UInt8}
    (h : String.utf8EncodeChar first = byte :: more) (rest : List Char) (length : Nat) :
    (more ++ utf8 rest).drop (byteLength (first :: rest.take length) - 1) =
      utf8 (rest.drop length) := by
  have hsize : first.utf8Size = more.length + 1 := by
    rw [← String.length_utf8EncodeChar, h, List.length_cons]
  have hrest : utf8 rest = utf8 (rest.take length) ++ utf8 (rest.drop length) := by
    rw [← utf8_append, List.take_append_drop]
  have hlength : byteLength (first :: rest.take length) - 1 =
      (more ++ utf8 (rest.take length)).length := by
    rw [byteLength, hsize, List.length_append, length_utf8]
    omega
  rw [hlength, hrest, ← List.append_assoc, List.drop_left]

/-- The scan of bytes and the scan of characters find the same tokens from any offset on, by
induction on the tokens. Counterpart of `ByteScan.tokensFrom`. -/
theorem tokensFrom_utf8 (offset : Nat) (source : List Char) :
    tokensFrom offset (utf8 source) = (Scan.tokensFrom offset source).map Token.extent := by
  fun_induction Scan.tokensFrom offset source with
  | case1 => rw [utf8, List.flatMap_nil, tokensFrom, List.map_nil]
  | case2 offset c rest hskipped ih =>
    have hc := isLow_isSkipped c hskipped
    rw [utf8_cons, utf8EncodeChar_of_lt hc, List.singleton_append, tokensFrom, glyph_ofNat hc,
      if_pos hskipped, ← ih, utf8Size_of_lt hc]
  | case3 offset c rest hskipped kind length htoken lexeme ih =>
    obtain ⟨byte, more, hbytes, hsame⟩ := isLow_isSkipped.bytewise.exists_first c
    have hread := nextToken_utf8 (offset == 0) c rest hbytes
    rw [htoken] at hread
    have hbyte : isSkipped (glyph byte) = false := hsame.trans (Bool.eq_false_iff.2 hskipped)
    have hlength : byteLength lexeme ≤ (more ++ utf8 rest).length + 1 := by
      have hsource : (utf8 (c :: rest)).length = (more ++ utf8 rest).length + 1 := by
        rw [utf8_cons, hbytes, List.cons_append, List.length_cons]
      have hrest : byteLength rest =
          byteLength (rest.take length) + byteLength (rest.drop length) := by
        rw [← byteLength_append, List.take_append_drop]
      rw [length_utf8, byteLength] at hsource
      simp only [lexeme, byteLength]
      omega
    rw [utf8_cons, hbytes, List.cons_append, tokensFrom_cons hbyte hread hlength,
      drop_utf8 hbytes, ih]
    rfl

/-- The scan of the bytes of a source finds its tokens. Counterpart of `ByteScan.scan`. -/
theorem scan_utf8 (source : List Char) : scan (utf8 source) = (tokenise source).map Token.extent :=
  tokensFrom_utf8 0 source

/-- Every token that the scan of bytes finds starts and ends between two characters. Counterpart of
`ByteScan.scan`. -/
theorem isCut_of_mem_scan {source : List Char} {extent : Extent} (h : extent ∈ scan (utf8 source)) :
    (cut? source extent.start).isSome = true ∧
      (cut? source (extent.start + extent.length)).isSome = true := by
  rw [scan_utf8] at h
  obtain ⟨token, hmem, rfl⟩ := List.mem_map.1 h
  obtain ⟨hstart, hstop, -⟩ := text?_span_of_mem hmem
  exact ⟨hstart, hstop⟩

end LuaFormatter.ByteScan
