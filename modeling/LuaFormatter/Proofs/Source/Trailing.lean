import LuaFormatter.Proofs.Comment.Skipped
import LuaFormatter.Proofs.Token.Lookahead

/-!
# Blank lines and the end of a text

Whether the next line is blank is asked of the bytes after an offset. Bytes at the end of a text
that break no line and are part of no mark of a comment do not change the answer: a line is passed
over up to the same place (`Plain.skipLine_append`), and only more of that line is left. So the
answer is the same for a text on its own and between two others (`isNextLineBlank_inside`).
-/

namespace LuaFormatter.Gap

/-- A byte that ends no line and is part of no mark of a comment. Counterpart of `isFiller`, the
test for what may be passed over. -/
def isPlain (byte : UInt8) : Bool :=
  !isBreak byte && byte != 0x2D && byte != 0x3D && byte != 0x5B && byte != 0x5D

/-- All of the bytes are plain. Counterpart of `Quiet`, which is about what bytes do together. -/
def Plain (bytes : List UInt8) : Prop :=
  ∀ byte ∈ bytes, isPlain byte = true

instance (bytes : List UInt8) : Decidable (Plain bytes) :=
  List.decidableBAll (fun byte => isPlain byte = true) bytes

section
variable {back rest : List UInt8} {byte : UInt8}

/-- The last of some plain bytes are plain. Counterpart of `List.IsSuffix.subset`. -/
theorem Plain.of_suffix (h : Plain back) (hrest : rest <:+ back) : Plain rest :=
  fun byte hbyte => h byte (hrest.subset hbyte)

/-- A byte that is not plain is none of plain bytes. Counterpart of `isPlain`. -/
theorem Plain.ne (h : Plain (byte :: rest)) {mark : UInt8} (hmark : isPlain mark = false) :
    byte ≠ mark := by
  rintro rfl
  rw [h byte List.mem_cons_self] at hmark
  cases hmark

/-- No line ends among plain bytes. Counterpart of `Filling.isLineBreak_eq_false`. -/
theorem Plain.isBreak_eq_false (h : Plain back) : ∀ byte ∈ back, isBreak byte = false := by
  intro byte hbyte
  have hplain := h byte hbyte
  simp only [isPlain, Bool.and_eq_true, Bool.not_eq_true'] at hplain
  exact hplain.1.1.1.1

/-- No line break comes next in plain bytes. Counterpart of `breaksNext_of_suffix`. -/
theorem Plain.breaksNext_eq_false (h : Plain back) : breaksNext back = false :=
  breaksNext_of_suffix
    (List.any_eq_false.2 fun byte hbyte => by simp [h.isBreak_eq_false byte hbyte])
    List.suffix_rfl

/-- A long bracket opens with plain bytes at the end where it does without them. Counterpart of
`Scan.bracketLevel?_append_cons`. -/
theorem Plain.bracketLevel?_append (h : Plain back) (bytes : List UInt8) :
    bracketLevel? (bytes ++ back) = bracketLevel? bytes := by
  cases back with
  | nil => rw [List.append_nil]
  | cons byte back =>
    have hequals : (byte == 0x3D) = false := beq_false_of_ne (h.ne rfl)
    have hopen : (byte == 0x5B) = false := beq_false_of_ne (h.ne rfl)
    cases bytes with
    | nil => simp [bracketLevel?, hopen]
    | cons first rest =>
      have htake := @Scan.takeWhile_append_cons UInt8 (· == 0x3D) byte hequals rest back
      rw [List.cons_append, bracketLevel?, bracketLevel?, htake]
      have hle : (rest.takeWhile (· == 0x3D)).length ≤ rest.length :=
        (List.takeWhile_sublist _).length_le
      rcases Nat.lt_or_eq_of_le hle with hlt | heq
      · rw [List.getElem?_append_left hlt]
      · rw [heq]
        simp [hopen]

section
variable {first : UInt8} {more : List UInt8}

/-- Bytes that are not plain start a text with plain bytes at the end where they start it without
them. Counterpart of `Scan.prefix_append_cons_iff`. -/
theorem Plain.prefix_append_iff (h : Plain back) {pattern : List UInt8}
    (hpattern : ∀ mark ∈ pattern, isPlain mark = false) (bytes : List UInt8) :
    pattern <+: bytes ++ back ↔ pattern <+: bytes := by
  cases back with
  | nil => rw [List.append_nil]
  | cons byte back => exact Scan.prefix_append_cons_iff fun hmem => h.ne (hpattern byte hmem) rfl

/-- A pattern of bytes that are not plain is found with plain bytes at the end where it is without
them. Counterpart of `splitAtFirst?_append`, which is about bytes in front. -/
theorem Plain.splitAtFirst?_append (h : Plain back)
    (hpattern : ∀ mark ∈ first :: more, isPlain mark = false) (bytes : List UInt8) :
    splitAtFirst? (first :: more) (bytes ++ back) =
      (splitAtFirst? (first :: more) bytes).map fun (front, rest) => (front, rest ++ back) := by
  induction bytes with
  | nil =>
    have hfirst : first ∉ back := fun hmem => by
      have hplain := h first hmem
      rw [hpattern first List.mem_cons_self] at hplain
      cases hplain
    have hnone := Gap.splitAtFirst?_append hfirst more []
    rwa [List.append_nil] at hnone
  | cons byte rest ih =>
    have hstart : (first :: more).isPrefixOf (byte :: (rest ++ back)) =
        (first :: more).isPrefixOf (byte :: rest) := by
      rw [Bool.eq_iff_iff, List.isPrefixOf_iff_prefix, List.isPrefixOf_iff_prefix]
      exact h.prefix_append_iff hpattern (byte :: rest)
    rw [List.cons_append, splitAtFirst?, splitAtFirst?, hstart]
    split
    · rename_i hfound
      have hlength := (List.isPrefixOf_iff_prefix.1 hfound).length_le
      rw [← List.cons_append, List.drop_append_of_le_length hlength]
      rfl
    · rw [ih, Option.map_map, Option.map_map]
      rfl

end

/-- The marks of a closing bracket are not plain. Counterpart of `Scan.toNat_lt_of_mem_closing`. -/
theorem isPlain_of_mem_closeBracket {level : Nat} {mark : UInt8} (h : mark ∈ closeBracket level) :
    isPlain mark = false := by
  simp only [closeBracket, List.mem_cons, List.mem_append, List.mem_replicate, List.not_mem_nil,
    or_false] at h
  rcases h with rfl | ⟨-, rfl⟩ | rfl <;> rfl

/-- Bytes that do not start with two dashes start with no comment. Counterpart of
`skipComment?_eq_none`. -/
theorem skipComment?_eq_none_of_start {bytes : List UInt8} (h : ¬[0x2D, 0x2D] <+: bytes) :
    skipComment? bytes = none := by
  unfold skipComment?
  split
  · rename_i rest
    exact absurd (List.prefix_append [0x2D, 0x2D] rest) h
  · rfl

/-- An opening long bracket is part of the bytes. Counterpart of `Scan.exists_of_bracketLevel?`. -/
theorem le_length_of_bracketLevel? {bytes : List UInt8} {level : Nat}
    (h : bracketLevel? bytes = some level) : level + 2 ≤ bytes.length := by
  cases bytes with
  | nil => cases h
  | cons byte rest =>
    simp only [bracketLevel?, Bool.and_eq_true, beq_iff_eq, Option.ite_none_right_eq_some,
      Option.some.injEq] at h
    obtain ⟨⟨-, hopen⟩, rfl⟩ := h
    obtain ⟨hlt, -⟩ := List.getElem?_eq_some_iff.1 hopen
    rw [List.length_cons]
    omega

/-- A comment ends with plain bytes at the end where it does without them, or it is a line comment
and takes these bytes too. Counterpart of `skipComment?_comment`. -/
theorem Plain.skipComment?_append (h : Plain back) (bytes : List UInt8) :
    ∃ rest, rest <:+ back ∧
      skipComment? (bytes ++ back) = (skipComment? bytes).map fun other => other ++ rest := by
  have hdashes : [0x2D, 0x2D] <+: bytes ++ back ↔ [0x2D, 0x2D] <+: bytes :=
    h.prefix_append_iff (by simp [isPlain]) bytes
  by_cases hcomment : [0x2D, 0x2D] <+: bytes
  · obtain ⟨rest, rfl⟩ := hcomment
    show ∃ others, others <:+ back ∧ skipComment? (0x2D :: 0x2D :: (rest ++ back)) =
      (skipComment? (0x2D :: 0x2D :: rest)).map fun other => other ++ others
    rw [skipComment?, skipComment?, h.bracketLevel?_append]
    cases hlevel : bracketLevel? rest with
    | some level =>
      refine ⟨back, List.suffix_rfl, ?_⟩
      dsimp only
      rw [List.drop_append_of_le_length (le_length_of_bracketLevel? hlevel), closeBracket,
        h.splitAtFirst?_append fun mark hmark => isPlain_of_mem_closeBracket hmark]
      cases splitAtFirst? (0x5D :: (List.replicate level 0x3D ++ [0x5D]))
        (rest.drop (level + 2)) with
      | none => rfl
      | some found =>
        obtain ⟨body, other⟩ := found
        dsimp only [Option.map_some]
        split <;> rfl
    | none =>
      have hline : back.dropWhile (fun byte => !isBreak byte) = [] :=
        List.dropWhile_eq_nil_iff.2 fun byte hbyte => by simp [h.isBreak_eq_false byte hbyte]
      dsimp only
      rw [List.dropWhile_append, hline]
      split
      · rename_i hempty
        exact ⟨[], List.nil_suffix, by rw [List.isEmpty_iff.1 hempty]; rfl⟩
      · exact ⟨back, List.suffix_rfl, rfl⟩
  · refine ⟨back, List.suffix_rfl, ?_⟩
    rw [skipComment?_eq_none_of_start fun hprefix => hcomment (hdashes.1 hprefix),
      skipComment?_eq_none_of_start hcomment]
    rfl

/-- A line is passed over up to the same place with plain bytes at the end, and of these bytes some
are left. Counterpart of `skipLine`. -/
theorem Plain.skipLine_append (h : Plain back) (bytes : List UInt8) :
    ∃ rest, rest <:+ back ∧ skipLine (bytes ++ back) = skipLine bytes ++ rest := by
  fun_induction skipLine bytes generalizing back with
  | case1 => exact ⟨skipLine back, skipLine_suffix back, rfl⟩
  | case2 byte rest hfiller ih =>
    obtain ⟨others, hothers, hskip⟩ := ih h
    exact ⟨others, hothers, (skipLine_of_filler hfiller).trans hskip⟩
  | case3 byte rest hfiller other hcomment ih =>
    -- A line comment takes the bytes at the end with it, so the rest of them is what is left.
    obtain ⟨others, hothers, hagain⟩ := h.skipComment?_append (byte :: rest)
    rw [hcomment, Option.map_some] at hagain
    obtain ⟨last, hlast, hskip⟩ := ih (h.of_suffix hothers)
    exact ⟨last, hlast.trans hothers,
      (skipLine_of_comment (by simpa using hfiller) hagain).trans hskip⟩
  | case4 byte rest hfiller hcomment =>
    obtain ⟨others, -, hagain⟩ := h.skipComment?_append (byte :: rest)
    rw [hcomment, Option.map_none] at hagain
    exact ⟨back, List.suffix_rfl, skipLine_of_other (by simpa using hfiller) hagain⟩

/-- A line break is passed over with plain bytes at the end as it is without them. Counterpart of
`skipBreak`. -/
theorem Plain.skipBreak_append (h : Plain back) (bytes : List UInt8) :
    skipBreak (bytes ++ back) = skipBreak bytes ++ back := by
  cases back with
  | nil => rw [List.append_nil, List.append_nil]
  | cons byte back =>
    have hbreak : isBreak byte = false := h.isBreak_eq_false byte List.mem_cons_self
    have hreturn : (byte == 0x0D) = false := beq_false_of_ne (by rintro rfl; cases hbreak)
    have hfeed : (byte == 0x0A) = false := beq_false_of_ne (by rintro rfl; cases hbreak)
    cases bytes with
    | nil => simp [skipBreak, hbreak, hreturn]
    | cons first rest =>
      cases rest with
      | nil =>
        -- A carriage return at the end of the bytes could be the first half of a line break.
        by_cases hfirst : isBreak first = true
        · simp [skipBreak, hfeed, hfirst]
        · simp [skipBreak, hfeed, hfirst]
      | cons second rest =>
        by_cases hpair : first = 0x0D ∧ second = 0x0A
        · simp [skipBreak, hpair]
        · by_cases hfirst : isBreak first = true
          · simp [skipBreak, hpair, hfirst]
          · simp [skipBreak, hpair, hfirst]

/-- Whether a line break comes next does not depend on plain bytes at the end. Counterpart of
`breaksNext`. -/
theorem Plain.breaksNext_append (h : Plain back) (bytes : List UInt8) :
    breaksNext (bytes ++ back) = breaksNext bytes := by
  have hback := h.breaksNext_eq_false
  rw [breaksNext] at hback
  rw [breaksNext, breaksNext, List.dropWhile_append]
  split
  · rename_i hempty
    rw [hback, List.isEmpty_iff.1 hempty]
    rfl
  · rename_i hne
    cases hrest : bytes.dropWhile isSpace with
    | nil => simp [hrest] at hne
    | cons byte rest => rfl

/-- Between two texts, of which the second holds plain bytes only, the line after an offset is blank
if it is blank in the text on its own. Counterpart of `isNextLineBlank_exact`. -/
theorem isNextLineBlank_inside (h : Plain back) (front bytes : List UInt8) (offset : Nat) :
    isNextLineBlank (front ++ (bytes ++ back)) (offset + front.length) =
      isNextLineBlank bytes offset := by
  have hafter : after (front ++ (bytes ++ back)) (offset + front.length) =
      after bytes offset ++ after back (offset - bytes.length) := by
    rw [after, after, after, Nat.add_comm, List.drop_length_add_append, List.drop_append]
  have hplain : Plain (after back (offset - bytes.length)) :=
    h.of_suffix (List.drop_suffix _ _)
  obtain ⟨rest, hrest, hskip⟩ := hplain.skipLine_append (after bytes offset)
  have hlast := hplain.of_suffix hrest
  rw [isNextLineBlank, hafter, hskip, hlast.skipBreak_append, hlast.breaksNext_append]
  rfl

end

end LuaFormatter.Gap
