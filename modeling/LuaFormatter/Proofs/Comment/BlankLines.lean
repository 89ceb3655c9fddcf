import LuaFormatter.Proofs.Comment.Skipped

/-!
# Blank lines after comments

A blank line after a comment is kept. The formatter looks for it right after the comment: it passes
over a line break there, and then over spaces and tabs up to another one. A line comment has all
blanks at the end of its line, so this finds the blank lines after it and nothing else. After a
block comment there may be blanks before the end of the line. The line break after these is taken
for the end of a blank line, whatever the next line holds (`isFollowedByBlankLine_comment`).
-/

namespace LuaFormatter

open Gap

/-- Every carriage return is part of a line break of two characters. -/
def hasPlainBreaks : List Char → Bool
  | [] => true
  | c :: rest => (c != '\r' || rest.head? == some '\n') && hasPlainBreaks rest

/-- Only spaces and tabs come before the end of the line, after which the text goes on with
`next`. -/
def EndsBlank (text next : List Char) : Prop :=
  ∃ trail lineBreak, text = trail ++ (lineBreak ++ next) ∧ (∀ c ∈ trail, isLineBlank c = true) ∧
    lineBreak ∈ lineBreaks

/-- The line ends blank, and so does the next one. -/
def BlankLineFollows (text : List Char) : Prop :=
  ∃ next rest, EndsBlank text next ∧ EndsBlank next rest

/-- The line ends blank, but not at once. -/
def BlanksFollow (text : List Char) : Prop :=
  ∃ c rest next, text = c :: rest ∧ isLineBlank c = true ∧ EndsBlank rest next

/-! ## Texts -/

/-- The end of a text with plain line breaks has plain line breaks. Counterpart of
`hasPlainBreaks`. -/
theorem hasPlainBreaks_append {front back : List Char} (h : hasPlainBreaks (front ++ back) = true) :
    hasPlainBreaks back = true := by
  induction front with
  | nil => exact h
  | cons c front ih =>
    rw [List.cons_append, hasPlainBreaks, Bool.and_eq_true] at h
    exact ih h.2

/-- A character that breaks a line starts one of the plain line breaks. Counterpart of
`lineBreaks`. -/
theorem exists_lineBreak {c : Char} {rest : List Char} (h : hasPlainBreaks (c :: rest) = true)
    (hc : isLineBreak c = true) :
    ∃ lineBreak ∈ lineBreaks, ∃ more, c :: rest = lineBreak ++ more := by
  simp only [isLineBreak, Bool.or_eq_true, beq_iff_eq] at hc
  rcases hc with rfl | rfl
  · exact ⟨['\n'], by decide, rest, rfl⟩
  · have hfeed : rest.head? = some '\n' := by
      rw [hasPlainBreaks, Bool.and_eq_true] at h
      simpa using h.1
    obtain ⟨more, rfl⟩ := List.head?_eq_some_iff.1 hfeed
    exact ⟨['\r', '\n'], by decide, more, rfl⟩

/-- A text does not start with two line breaks. Counterpart of `lineBreaks`. -/
theorem lineBreak_inj {lineBreak other rest more : List Char} (h : lineBreak ∈ lineBreaks)
    (hother : other ∈ lineBreaks) (heq : lineBreak ++ rest = other ++ more) : rest = more := by
  rcases mem_lineBreaks.1 h with rfl | rfl <;> rcases mem_lineBreaks.1 hother with rfl | rfl <;>
    simp_all

/-- A blank in front does not change where a blank line ends. Counterpart of `EndsBlank`. -/
theorem EndsBlank.cons {c : Char} {text next : List Char} (hc : isLineBlank c = true)
    (h : EndsBlank text next) : EndsBlank (c :: text) next := by
  obtain ⟨trail, lineBreak, rfl, htrail, hbreak⟩ := h
  exact ⟨c :: trail, lineBreak, rfl, List.forall_mem_cons.2 ⟨hc, htrail⟩, hbreak⟩

/-- A line that ends blank ends at once, or goes on with a blank. Counterpart of `EndsBlank`. -/
theorem EndsBlank.cases {text next : List Char} (h : EndsBlank text next) :
    (∃ lineBreak ∈ lineBreaks, text = lineBreak ++ next) ∨
      ∃ c rest, text = c :: rest ∧ isLineBlank c = true ∧ EndsBlank rest next := by
  obtain ⟨trail, lineBreak, rfl, htrail, hbreak⟩ := h
  cases trail with
  | nil => exact .inl ⟨lineBreak, hbreak, rfl⟩
  | cons c trail =>
    obtain ⟨hc, htrail⟩ := List.forall_mem_cons.1 htrail
    exact .inr ⟨c, _, rfl, hc, trail, lineBreak, rfl, htrail, hbreak⟩

/-- A blank line that starts with its line break ends after it. Counterpart of `EndsBlank`. -/
theorem EndsBlank.of_lineBreak {lineBreak text next : List Char} (hbreak : lineBreak ∈ lineBreaks)
    (h : EndsBlank (lineBreak ++ text) next) : next = text := by
  rcases h.cases with ⟨other, hother, heq⟩ | ⟨c, rest, heq, hc, -⟩
  · exact (lineBreak_inj hbreak hother heq).symm
  · obtain ⟨d, more, rfl, hd⟩ := exists_of_mem_lineBreaks hbreak
    obtain ⟨rfl, -⟩ := List.cons.inj heq
    rw [isLineBlank_eq_false hd] at hc
    cases hc

/-- The end of a line is one line feed. Counterpart of `EndsBlank`. -/
theorem EndsBlank.count_newline {text next : List Char} (h : EndsBlank text next) :
    text.count '\n' = next.count '\n' + 1 := by
  obtain ⟨trail, lineBreak, rfl, htrail, hbreak⟩ := h
  have hnone : trail.count '\n' = 0 := List.count_eq_zero.2 fun hmem => by cases htrail _ hmem
  have hone : lineBreak.count '\n' = 1 := by rcases mem_lineBreaks.1 hbreak with rfl | rfl <;> rfl
  rw [List.count_append, List.count_append, hnone, hone]
  omega

/-! ## The test -/

namespace Gap

/-- A line break comes next where a blank line ends in the text. Counterpart of `breaksNext`. -/
theorem breaksNext_iff_endsBlank {text : List Char} (h : hasPlainBreaks text = true) :
    breaksNext (utf8 text) = true ↔ ∃ next, EndsBlank text next := by
  rw [breaksNext_utf8_iff]
  constructor
  · rintro ⟨blanks, c, rest, rfl, hblanks, hc⟩
    obtain ⟨lineBreak, hbreak, more, heq⟩ := exists_lineBreak (hasPlainBreaks_append h) hc
    exact ⟨more, blanks, lineBreak, by rw [heq], hblanks, hbreak⟩
  · rintro ⟨next, blanks, lineBreak, rfl, hblanks, hbreak⟩
    obtain ⟨c, more, rfl, hc⟩ := exists_of_mem_lineBreaks hbreak
    exact ⟨blanks, c, more ++ next, by simp, hblanks, hc⟩

/-- Nothing is passed over where no line breaks. Counterpart of `skipBreak`. -/
theorem skipBreak_of_other {c : Char} (hc : isLineBreak c = false) (rest : List Char) :
    skipBreak (utf8 (c :: rest)) = utf8 (c :: rest) := by
  obtain ⟨byte, more, hbyte, hfirst⟩ := bytewise_isBreak.exists_first c
  have hbreak : isBreak byte = false := hfirst.trans hc
  have hreturn : (byte == 0x0D) = false := by
    simp only [isBreak, Bool.or_eq_false_iff] at hbreak
    exact hbreak.2
  rw [utf8_cons, hbyte, List.cons_append, skipBreak]
  simp [hreturn, hbreak]

/-- The test for a blank line says yes if there is one, and if the line does not end at once.
Counterpart of `breaksNext` after `skipBreak`. -/
theorem breaksNext_skipBreak_iff {text : List Char} (h : hasPlainBreaks text = true) :
    breaksNext (skipBreak (utf8 text)) = true ↔ BlankLineFollows text ∨ BlanksFollow text := by
  cases text with
  | nil =>
    refine ⟨nofun, ?_⟩
    rintro (⟨next, -, hends, -⟩ | ⟨c, rest, next, hnil, -⟩)
    · rcases hends.cases with ⟨lineBreak, hbreak, hnil⟩ | ⟨c, rest, hnil, -⟩
      · obtain ⟨c, more, rfl, -⟩ := exists_of_mem_lineBreaks hbreak
        cases hnil
      · cases hnil
    · cases hnil
  | cons c rest =>
    cases hc : isLineBreak c with
    | true =>
      obtain ⟨lineBreak, hbreak, more, heq⟩ := exists_lineBreak h hc
      rw [heq] at h ⊢
      rw [skipBreak_utf8 hbreak, breaksNext_iff_endsBlank (hasPlainBreaks_append h)]
      constructor
      · rintro ⟨next, hnext⟩
        exact .inl ⟨more, next, ⟨[], lineBreak, rfl, by simp, hbreak⟩, hnext⟩
      · rintro (⟨next, rest, hends, hnext⟩ | ⟨d, rest, next, hblank, hd, -⟩)
        · rw [hends.of_lineBreak hbreak] at hnext
          exact ⟨rest, hnext⟩
        · obtain ⟨rfl, -⟩ := List.cons.inj (heq.trans hblank)
          rw [isLineBlank_eq_false hc] at hd
          cases hd
    | false =>
      rw [skipBreak_of_other hc, breaksNext_iff_endsBlank h]
      constructor
      · rintro ⟨next, hends⟩
        rcases hends.cases with ⟨lineBreak, hbreak, heq⟩ | ⟨d, more, heq, hd, hmore⟩
        · obtain ⟨d, more, rfl, hd⟩ := exists_of_mem_lineBreaks hbreak
          obtain ⟨rfl, -⟩ := List.cons.inj heq
          rw [hc] at hd
          cases hd
        · exact .inr ⟨d, more, next, heq, hd, hmore⟩
      · rintro (⟨next, -, hends, -⟩ | ⟨d, more, next, heq, hd, hmore⟩)
        · exact ⟨next, hends⟩
        · rw [heq]
          exact ⟨next, hmore.cons hd⟩

end Gap

/-! ## Comments -/

namespace Scan

/-- A line comment ends at the end of its line. Counterpart of `lineLength`. -/
theorem isLineBreak_drop_lineLength (rest : List Char) :
    ∀ c ∈ (rest.drop (lineLength rest)).head?, isLineBreak c = true := by
  have hsplit := List.takeWhile_append_dropWhile (p := (· != '\n')) (l := rest)
  have hback := List.head?_dropWhile_not (· != '\n') rest
  unfold lineLength
  dsimp only
  split
  · -- The carriage return before the line feed belongs to the line break.
    rename_i hlast
    obtain ⟨line, hline⟩ := List.getLast?_eq_some_iff.1 (beq_iff_eq.1 hlast)
    rw [hline, List.append_assoc] at hsplit
    rw [hline, List.length_append, List.length_singleton, Nat.add_sub_cancel, ← hsplit,
      List.drop_left]
    rintro c ⟨⟩
    rfl
  · intro c hc
    conv at hc => enter [1, 1, 2]; rw [← hsplit]
    rw [List.drop_left] at hc
    rw [hc] at hback
    obtain rfl : c = '\n' := by simpa using hback
    rfl

/-- A line comment is as long as its line. Counterpart of `comment`, for the kind that ends with the
line. -/
theorem length_of_comment {rest : List Char} (h : (comment rest).1 = .comment) :
    (comment rest).2 = lineLength rest := by
  rw [comment_eq] at h ⊢
  split at h
  · split at h <;> cases h
  · rfl

end Scan

section
variable {source : List Char}

/-- After a comment comes the rest of the source. After a line comment, this starts with a line
break. Counterpart of `Comment.span`. -/
theorem exists_after_comment {comment : Comment} (h : comment ∈ (parse source).comments) :
    ∃ before after, source = before ++ after ∧ byteLength before = comment.span.stop ∧
      (comment.isBlock = false → ∀ c ∈ after.head?, isLineBreak c = true) := by
  obtain ⟨token, hmem, hkind, hspan, -, hblock⟩ := exists_token_of_comment h
  obtain ⟨before, c, rest, rfl, hstart, hnext, hlexeme⟩ := Scan.exists_of_mem hmem
  obtain ⟨rfl, hrest⟩ := Scan.dashes_of_isComment (by rw [← hnext]; exact hkind)
  rw [Scan.nextToken_dashes _ hrest] at hnext hlexeme
  refine ⟨before ++ token.lexeme, rest.drop (Scan.comment rest).2, ?_, ?_, fun hline => ?_⟩
  · rw [hlexeme]
    simp
  · rw [hspan, Token.span, Token.stop, Token.length, hstart, byteLength_append]
  · rw [hline, eq_comm, decide_eq_false_iff_not, not_not, hnext] at hblock
    rw [Scan.length_of_comment hblock]
    exact Scan.isLineBreak_drop_lineLength rest

/-- A comment is taken to have a blank line after it if it has one, and also if it is a block
comment with blanks after it up to the end of its line. Counterpart of
`Gap.isFollowedByBlankLine`. -/
theorem isFollowedByBlankLine_comment (hbreaks : hasPlainBreaks source = true)
    {attachment : Attachment} (h : attachment ∈ attachments (parse source)) :
    ∃ before after, source = before ++ after ∧ byteLength before = attachment.comment.span.stop ∧
      (isFollowedByBlankLine (utf8 source) attachment.comment.span.stop = true ↔
        BlankLineFollows after ∨ (attachment.comment.isBlock = true ∧ BlanksFollow after)) := by
  obtain ⟨before, after, rfl, hstop, hline⟩ :=
    exists_after_comment (mem_comments_of_mem_attachments h)
  refine ⟨before, after, rfl, hstop, ?_⟩
  rw [isFollowedByBlankLine, ← hstop, after_utf8,
    breaksNext_skipBreak_iff (hasPlainBreaks_append hbreaks)]
  refine or_congr_right ⟨fun hfollow => ⟨?_, hfollow⟩, fun hfollow => hfollow.2⟩
  obtain ⟨c, rest, next, rfl, hc, -⟩ := hfollow
  refine Bool.eq_true_of_not_eq_false fun hblock => ?_
  rw [isLineBlank_eq_false (hline hblock c rfl)] at hc
  cases hc

/-- A line comment with a line of blanks after it. -/
theorem isFollowedByBlankLine_note :
    hasPlainBreaks "-- c\r\n \t\nx = 1".toList = true ∧
      ∃ attachment ∈ attachments (parse "-- c\r\n \t\nx = 1".toList),
      attachment.placement = .leading ∧
        ∃ before after, "-- c\r\n \t\nx = 1".toList = before ++ after ∧
          byteLength before = attachment.comment.span.stop ∧
            (isFollowedByBlankLine (utf8 "-- c\r\n \t\nx = 1".toList)
              attachment.comment.span.stop = true ↔
              BlankLineFollows after ∨ (attachment.comment.isBlock = true ∧
                BlanksFollow after)) := by
  have hplaces : (attachments (parse "-- c\r\n \t\nx = 1".toList)).map Attachment.placement =
      [.leading] := by
    decide +kernel
  obtain ⟨attachment, hmem, hplace⟩ :=
    List.mem_map.1 (hplaces ▸ List.mem_singleton_self Placement.leading)
  exact ⟨by decide, attachment, hmem, hplace, isFollowedByBlankLine_comment (by decide) hmem⟩

/-- A block comment with blanks after it, which are followed by a line that is not blank. -/
theorem isFollowedByBlankLine_trailingBlanks :
    (parse "--[[c]]  \nx = 1".toList).isValid = true ∧
      hasPlainBreaks "--[[c]]  \nx = 1".toList = true ∧
      (attachments (parse "--[[c]]  \nx = 1".toList)).map
          (fun attachment => (attachment.comment.span.stop, attachment.placement)) =
          [(7, .leading)] ∧
      "--[[c]]  \nx = 1".toList = "--[[c]]".toList ++ "  \nx = 1".toList ∧
      byteLength "--[[c]]".toList = 7 ∧
      isFollowedByBlankLine (utf8 "--[[c]]  \nx = 1".toList) 7 = true ∧
      ¬BlankLineFollows "  \nx = 1".toList := by
  refine ⟨by decide +kernel, by decide, by decide +kernel, rfl, by decide, by decide +kernel, ?_⟩
  rintro ⟨next, rest, hends, hnext⟩
  have hcount := hends.count_newline
  rw [hnext.count_newline] at hcount
  have hone : "  \nx = 1".toList.count '\n' = 1 := by decide
  omega

end

end LuaFormatter
