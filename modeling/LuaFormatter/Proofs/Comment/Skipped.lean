import LuaFormatter.Proofs.Comment.Once
import LuaFormatter.Proofs.Source.Bytes

/-!
# Blank lines after items

To see whether the line after an item is blank, the formatter passes over what may stand between the
item and the end of its line: blanks, separators and comments (`Filling`). It reads comments from
bytes with a search of its own for the bracket that closes one, which ends where the scan for tokens
does (`skipComment?_comment`). So the line after the filling is looked at (`isNextLineBlank_exact`).
-/

namespace LuaFormatter

open Gap

/-! ## Comments -/

namespace Scan

/-- A token is what is read next where it starts. Counterpart of `tokenise`. -/
theorem exists_of_mem {source : List Char} {token : Token} (h : token ∈ tokenise source) :
    ∃ before c rest, source = before ++ c :: rest ∧ token.start = byteLength before ∧
      token.kind = (nextToken (token.start == 0) c rest).1 ∧
      token.lexeme = c :: rest.take (nextToken (token.start == 0) c rest).2 := by
  obtain ⟨front, back, hsplit⟩ := List.append_of_mem h
  obtain ⟨before, text, rfl, htokens⟩ := exists_rest hsplit
  obtain ⟨gap, c, rest, rfl, -, -, hstart, hkind, hlexeme, -⟩ := exists_gap htokens.symm
  exact ⟨before ++ gap, c, rest, by simp, by rw [hstart, byteLength_append], hkind, hlexeme⟩

/-- A comment with an opening long bracket ends with the closing one, or not at all. Counterpart of
`comment`. -/
theorem comment_open (level : Nat) (rest : List Char) :
    comment ('-' :: '[' :: (List.replicate level '=' ++ '[' :: rest)) =
      match bracketLength? level rest with
      | some length => (.blockComment, level + 3 + length)
      | none => (.unterminatedComment, level + 3 + rest.length) := by
  have hdrop : ('-' :: '[' :: (List.replicate level '=' ++ '[' :: rest)).drop (level + 3) =
      rest := by
    rw [List.drop_succ_cons, List.drop_succ_cons, List.drop_append]
    simp
  rw [comment_eq, List.tail_cons, bracketLevel?_open]
  dsimp only
  rw [hdrop]
  cases bracketLength? level rest with
  | some length => rfl
  | none =>
    simp only [List.length_cons, List.length_append, List.length_replicate, Prod.mk.injEq, true_and]
    omega

/-- A comment without a long bracket ends with its line. Counterpart of `comment`. -/
theorem comment_plain {tail : List Char} (h : bracketLevel? tail = none) :
    comment ('-' :: tail) = (.comment, lineLength ('-' :: tail)) := by
  rw [comment_eq, List.tail_cons, h]

/-- A closed long bracket ends in its closing bracket. Counterpart of `bracketLength?`. -/
theorem take_bracketLength? {level length : Nat} {source : List Char}
    (h : bracketLength? level source = some length) :
    source.take length =
      source.take (length - (level + 2)) ++ (']' :: (List.replicate level '=' ++ [']'])) := by
  fun_induction bracketLength? level source generalizing length with
  | case1 => cases h
  | case2 c rest hcloses =>
    cases h
    obtain ⟨back, hback⟩ := List.isPrefixOf_iff_prefix.1 hcloses
    have hlength : (']' :: (List.replicate level '=' ++ [']'])).length = level + 2 := by simp
    rw [Nat.sub_self, List.take_zero, List.nil_append, ← hback, ← hlength, List.take_left]
  | case3 c rest _ ih =>
    obtain ⟨inner, hinner, rfl⟩ := Option.map_eq_some_iff.1 h
    have hle := (le_of_bracketLength? hinner).1
    rw [Nat.sub_add_comm hle, List.take_succ_cons, List.take_succ_cons, ih hinner, List.cons_append]

/-- A closed comment is read whatever follows it. Counterpart of `Scan.comment`. -/
theorem comment_append {tail : List Char} (h : (comment ('-' :: tail)).1 = .blockComment)
    (hlength : tail.length + 1 ≤ (comment ('-' :: tail)).2) (rest : List Char) :
    comment ('-' :: (tail ++ rest)) = (.blockComment, tail.length + 1) := by
  cases hlevel : bracketLevel? tail with
  | none =>
    rw [comment_plain hlevel] at h
    cases h
  | some level =>
    obtain ⟨body, rfl⟩ := exists_of_bracketLevel? hlevel
    rw [comment_open] at h hlength
    cases hclose : bracketLength? level body with
    | none =>
      rw [hclose] at h
      cases h
    | some length =>
      rw [hclose] at hlength
      have hle := (le_of_bracketLength? hclose).2
      simp only [List.length_cons, List.length_append, List.length_replicate] at hlength
      obtain rfl : length = body.length := by omega
      have hagain := @bracketLength?_append _ _ _ rest hclose
      rw [List.take_length] at hagain
      rw [List.cons_append, List.append_assoc, List.cons_append, comment_open, hagain]
      simp
      omega

/-- A line comment has no long bracket after its dashes. Counterpart of `comment`. -/
theorem bracketLevel?_of_comment {tail : List Char} (h : (comment ('-' :: tail)).1 = .comment) :
    bracketLevel? tail = none := by
  rw [comment_eq, List.tail_cons] at h
  split at h
  · split at h <;> cases h
  · assumption

/-- The end of a line opens no long bracket. Counterpart of `bracketLevel?`. -/
theorem bracketLevel?_lineBreak {tail : List Char} (h : bracketLevel? tail = none) {c : Char}
    (hc : isLineBreak c = true) (rest : List Char) : bracketLevel? (tail ++ c :: rest) = none := by
  refine Option.eq_none_iff_forall_not_mem.2 fun level hlevel => ?_
  obtain ⟨body, hbody⟩ := exists_of_bracketLevel? hlevel
  have hopen : '[' :: (List.replicate level '=' ++ ['[']) <+: tail ++ c :: rest :=
    ⟨body, by simp [hbody]⟩
  rw [prefix_append_cons_iff] at hopen
  · obtain ⟨back, rfl⟩ := hopen
    have hsome := bracketLevel?_open level back
    simp only [List.cons_append, List.append_assoc, List.nil_append] at h
    rw [hsome] at h
    cases h
  · simp only [List.mem_cons, List.mem_append, List.mem_replicate, List.not_mem_nil, or_false]
    rintro (rfl | ⟨-, rfl⟩ | rfl) <;> cases hc

end Scan

namespace Gap

/-- The search for the end of a comment ends where the scan for tokens ends a block comment, and
gives up where it is on another line. A line comment ends before the next line break of any form.
Counterpart of `skipComment?`. -/
theorem skipComment?_comment (tail : List Char) :
    skipComment? (utf8 ('-' :: '-' :: tail)) =
      match Scan.comment ('-' :: tail) with
      | (.blockComment, length) =>
        if '\n' ∈ tail.take (length - 1) then none else some (utf8 (tail.drop (length - 1)))
      | (.comment, _) => some (utf8 (tail.dropWhile fun c => !isLineBreak c))
      | _ => none := by
  show skipComment? (0x2D :: 0x2D :: utf8 tail) = _
  rw [skipComment?, bracketLevel?_utf8]
  cases hlevel : Scan.bracketLevel? tail with
  | none =>
    rw [Scan.comment_plain hlevel]
    dsimp only
    rw [bytewise_isBreak.not.dropWhile_utf8]
  | some level =>
    obtain ⟨rest, rfl⟩ := Scan.exists_of_bracketLevel? hlevel
    rw [Scan.comment_open]
    dsimp only
    rw [drop_open, splitAtFirst?_utf8]
    cases hlength : Scan.bracketLength? level rest with
    | none => rfl
    | some length =>
      -- The brackets hold no line feed, so only what is between them matters.
      have hsplit : '[' :: (List.replicate level '=' ++ '[' :: rest) =
          '[' :: (List.replicate level '=' ++ ['[']) ++ rest := by simp
      have hopen : ('[' :: (List.replicate level '=' ++ ['['])).length = level + 2 := by simp
      have hmem : '\n' ∈ '[' :: (List.replicate level '=' ++ ['[']) ++ rest.take length ↔
          '\n' ∈ rest.take (length - (level + 2)) := by
        rw [Scan.take_bracketLength? hlength]
        simp
      have hnumber : level + 3 + length - 1 = (level + 2) + length := by omega
      rw [Option.map_some]
      dsimp only
      rw [hnumber, hsplit, ← hopen, List.take_length_add_append, List.drop_length_add_append, hopen,
        Bytewise.contains_utf8 (d := '\n') rfl (by decide)]
      simp only [hmem, List.contains_iff_mem]

/-! ## Passing over a line -/

/-- A comment that finishes on its line is passed over. Counterpart of `skipLine`. -/
theorem skipLine_of_comment {byte : UInt8} {rest back : List UInt8}
    (hfiller : isFiller byte = false) (hcomment : skipComment? (byte :: rest) = some back) :
    skipLine (byte :: rest) = skipLine back := by
  rw [skipLine, if_neg (by simp [hfiller])]
  split
  · rename_i other hother
    rw [hcomment] at hother
    cases hother
    rfl
  · rename_i hnone
    rw [hcomment] at hnone
    cases hnone

/-- A line break is not passed over. Counterpart of `skipLine`. -/
theorem skipLine_of_lineBreak {lineBreak : List Char} (h : lineBreak ∈ lineBreaks)
    (rest : List Char) :
    skipLine (utf8 (lineBreak ++ rest)) = utf8 (lineBreak ++ rest) := by
  rcases mem_lineBreaks.1 h with rfl | rfl <;> exact skipLine_of_other rfl
    (skipComment?_eq_none (by decide))

/-- What follows a pattern is the end of the bytes. Counterpart of `splitAtFirst?`. -/
theorem suffix_of_splitAtFirst? {pattern bytes front back : List UInt8}
    (h : splitAtFirst? pattern bytes = some (front, back)) : back <:+ bytes := by
  induction bytes generalizing front with
  | nil =>
    unfold splitAtFirst? at h
    split at h
    · cases h
      exact List.suffix_rfl
    · cases h
  | cons byte rest ih =>
    unfold splitAtFirst? at h
    split at h
    · cases h
      exact List.drop_suffix _ _
    · obtain ⟨⟨body, other⟩, hrest, hpair⟩ := Option.map_eq_some_iff.1 h
      cases hpair
      exact (ih hrest).trans (List.suffix_cons byte rest)

/-- What follows a comment is the end of the bytes. Counterpart of `skipComment?`. -/
theorem suffix_of_skipComment? {bytes back : List UInt8} (h : skipComment? bytes = some back) :
    back <:+ bytes := by
  unfold skipComment? at h
  split at h
  · rename_i rest
    have hrest : rest <:+ 0x2D :: 0x2D :: rest := ⟨[0x2D, 0x2D], rfl⟩
    split at h
    · split at h
      · rename_i hsplit
        split at h
        · cases h
        · cases h
          exact ((suffix_of_splitAtFirst? hsplit).trans (List.drop_suffix _ _)).trans hrest
      · cases h
    · cases h
      exact (List.dropWhile_suffix _).trans hrest
  · cases h

/-- What is left of a line is the end of the bytes. Counterpart of `skipLine`. -/
theorem skipLine_suffix (bytes : List UInt8) : skipLine bytes <:+ bytes := by
  fun_induction skipLine bytes with
  | case1 => exact List.suffix_rfl
  | case2 byte rest _ ih => exact ih.trans (List.suffix_cons byte rest)
  | case3 byte rest _ back hcomment ih => exact ih.trans (suffix_of_skipComment? hcomment)
  | case4 => exact List.suffix_rfl

/-- What is left after a line break is the end of the bytes. Counterpart of `skipBreak`. -/
theorem skipBreak_suffix (bytes : List UInt8) : skipBreak bytes <:+ bytes := by
  unfold skipBreak
  split
  · exact List.suffix_rfl
  · rename_i byte rest
    split
    · exact (List.tail_suffix rest).trans (List.suffix_cons byte rest)
    · split
      · exact List.suffix_cons byte rest
      · exact List.suffix_rfl

/-- No line break comes next at the end of bytes without line breaks. Counterpart of
`breaksNext`. -/
theorem breaksNext_of_suffix {bytes back : List UInt8} (h : bytes.any isBreak = false)
    (hback : back <:+ bytes) : breaksNext back = false := by
  refine Bool.eq_false_iff.2 fun hbreaks => ?_
  obtain ⟨byte, hbyte, hbreak⟩ := (Option.any_eq_true _ _).1 hbreaks
  have hmem : byte ∈ bytes :=
    ((List.dropWhile_suffix _).trans hback).subset (List.mem_of_head? hbyte)
  exact List.any_eq_false.1 h byte hmem hbreak

end Gap

/-! ## What may stand before the end of a line -/

/-- Blanks, separators and comments without line breaks. A comment that goes on to the end of its
line is the last of them. -/
inductive Filling : List Char → Prop
  | nil : Filling []
  | filler {c : Char} {rest : List Char} (hc : c ∈ [' ', '\t', ',', ';']) (hrest : Filling rest) :
    Filling (c :: rest)
  | block {comment rest : List Char} (hcomment : tokenise comment = [⟨.blockComment, 0, comment⟩])
    (hline : ∀ c ∈ comment, isLineBreak c = false) (hrest : Filling rest) :
    Filling (comment ++ rest)
  | line {comment : List Char} (hcomment : tokenise comment = [⟨.comment, 0, comment⟩])
    (hline : ∀ c ∈ comment, isLineBreak c = false) : Filling comment

/-- From the offset on, the source is the text. -/
def GoesOn (source : List Char) (offset : Nat) (text : List Char) : Prop :=
  Gap.after (utf8 source) offset = utf8 text

/-- What may stand before the end of a line breaks no line. Counterpart of `Filling`. -/
theorem Filling.isLineBreak_eq_false {filling : List Char} (h : Filling filling) :
    ∀ c ∈ filling, isLineBreak c = false := by
  induction h with
  | nil => simp
  | filler hc _ ih =>
    refine List.forall_mem_cons.2 ⟨?_, ih⟩
    simp only [List.mem_cons, List.not_mem_nil, or_false] at hc
    rcases hc with rfl | rfl | rfl | rfl <;> rfl
  | block _ hline _ ih => exact List.forall_mem_append.2 ⟨hline, ih⟩
  | line _ hline => exact hline

/-- A comment that is a text of its own. Counterpart of `Scan.comment`. -/
theorem exists_comment {comment : List Char} {kind : Kind} (hkind : kind.isComment = true)
    (h : tokenise comment = [⟨kind, 0, comment⟩]) :
    ∃ tail, comment = '-' :: '-' :: tail ∧ (Scan.comment ('-' :: tail)).1 = kind ∧
      tail.length + 1 ≤ (Scan.comment ('-' :: tail)).2 := by
  obtain ⟨gap, c, rest, hsource, -, -, -, hnext, hlexeme, -⟩ := Scan.exists_gap h
  dsimp only at hnext hlexeme
  obtain ⟨rfl, hrest⟩ := Scan.dashes_of_isComment (by rw [← hnext]; exact hkind)
  obtain ⟨tail, rfl⟩ := List.head?_eq_some_iff.1 hrest
  rw [Scan.nextToken_dashes _ hrest] at hnext hlexeme
  have hlengths := congrArg List.length (hsource.symm.trans hlexeme)
  simp only [List.length_append, List.length_cons, List.length_take] at hlengths
  obtain rfl : gap = [] := List.eq_nil_of_length_eq_zero (by omega)
  exact ⟨tail, hsource, hnext.symm, by omega⟩

/-- Everything that may stand before the end of a line is passed over. Counterpart of `skipLine`. -/
theorem Filling.skipLine {filling lineBreak : List Char} (h : Filling filling)
    (hbreak : lineBreak ∈ lineBreaks) (rest : List Char) :
    Gap.skipLine (utf8 (filling ++ (lineBreak ++ rest))) = utf8 (lineBreak ++ rest) := by
  induction h with
  | nil => exact skipLine_of_lineBreak hbreak rest
  | filler hc _ ih =>
    simp only [List.mem_cons, List.not_mem_nil, or_false] at hc
    rcases hc with rfl | rfl | rfl | rfl <;> exact (skipLine_of_filler rfl).trans ih
  | @block comment others hcomment hline _ ih =>
    obtain ⟨tail, rfl, hkind, hlength⟩ := exists_comment rfl hcomment
    have hfeed : '\n' ∉ tail := fun hmem => by cases hline '\n' (by simp [hmem])
    have hskip := skipComment?_comment (tail ++ (others ++ (lineBreak ++ rest)))
    rw [Scan.comment_append hkind hlength] at hskip
    dsimp only at hskip
    rw [Nat.add_sub_cancel, List.take_left, List.drop_left, if_neg hfeed] at hskip
    rw [List.append_assoc]
    exact (skipLine_of_comment rfl hskip).trans ih
  | line hcomment hline =>
    obtain ⟨tail, rfl, hkind, -⟩ := exists_comment rfl hcomment
    obtain ⟨c, more, rfl, hc⟩ := exists_of_mem_lineBreaks hbreak
    have hopen :=
      Scan.bracketLevel?_lineBreak (Scan.bracketLevel?_of_comment hkind) hc (more ++ rest)
    have hskip := skipComment?_comment (tail ++ c :: (more ++ rest))
    rw [Scan.comment_plain hopen] at hskip
    dsimp only at hskip
    rw [List.dropWhile_append_of_pos fun d hd => by simp [hline d (by simp [hd])],
      List.dropWhile_cons_of_neg (by simp [hc])] at hskip
    exact (skipLine_of_comment rfl hskip).trans (skipLine_of_lineBreak hbreak rest)

/-- The line after an item is blank if, after all that may stand between the item and the end of its
line, only spaces and tabs come before the next line break. Comments are passed over up to where the
scan for tokens ends them. No blank line follows where the source ends first. Counterpart of
`Gap.isNextLineBlank`. -/
theorem isNextLineBlank_exact (source : List Char) :
    (∀ offset filling lineBreak rest, Filling filling → lineBreak ∈ lineBreaks →
        GoesOn source offset (filling ++ (lineBreak ++ rest)) →
        (isNextLineBlank (utf8 source) offset = true ↔
          ∃ blanks c more, rest = blanks ++ c :: more ∧ (∀ d ∈ blanks, isLineBlank d = true) ∧
            isLineBreak c = true)) ∧
      (∀ token ∈ tokenise source, token.kind = .blockComment →
        skipComment? (Gap.after (utf8 source) token.start) =
          if '\n' ∈ token.lexeme then none else some (Gap.after (utf8 source) token.stop)) ∧
      ∀ offset filling part, Filling filling → part <+: filling → GoesOn source offset part →
        isNextLineBlank (utf8 source) offset = false := by
  refine ⟨fun offset filling lineBreak rest hfilling hbreak htext => ?_, fun token hmem hkind => ?_,
    fun offset filling part hfilling hpart htext => ?_⟩
  · rw [isNextLineBlank, htext, hfilling.skipLine hbreak, skipBreak_utf8 hbreak,
      breaksNext_utf8_iff]
  · obtain ⟨before, c, rest, rfl, hstart, hnext, hlexeme⟩ := Scan.exists_of_mem hmem
    rw [hkind] at hnext
    obtain ⟨rfl, hrest⟩ := Scan.dashes_of_isComment (by rw [← hnext]; rfl)
    have hpositive := Scan.length_comment_pos hrest
    obtain ⟨tail, rfl⟩ := List.head?_eq_some_iff.1 hrest
    rw [Scan.nextToken_dashes _ hrest] at hnext hlexeme
    obtain ⟨length, hcomment⟩ : ∃ length, Scan.comment ('-' :: tail) = (.blockComment, length) :=
      ⟨_, Prod.ext hnext.symm rfl⟩
    rw [hcomment] at hlexeme hpositive
    obtain ⟨length, rfl⟩ := Nat.exists_eq_succ_of_ne_zero hpositive.ne'
    rw [List.take_succ_cons] at hlexeme
    have hsource : before ++ '-' :: '-' :: tail = (before ++ token.lexeme) ++ tail.drop length := by
      rw [hlexeme]
      simp
    have hstop : Gap.after (utf8 (before ++ '-' :: '-' :: tail)) token.stop =
        utf8 (tail.drop length) := by
      rw [Token.stop, Token.length, hstart, hsource, ← byteLength_append, after_utf8]
    have hfeed : '\n' ∈ token.lexeme ↔ '\n' ∈ tail.take length := by
      rw [hlexeme]
      simp
    rw [hstop, hstart, after_utf8, skipComment?_comment, hcomment]
    simp only [hfeed, Nat.succ_eq_add_one, Nat.add_sub_cancel]
  · have hnone : part.any isLineBreak = false :=
      List.any_eq_false.2 fun c hc => by simp [hfilling.isLineBreak_eq_false c (hpart.subset hc)]
    rw [isNextLineBlank, htext]
    rw [← bytewise_isBreak.any_utf8] at hnone
    exact breaksNext_of_suffix hnone ((skipBreak_suffix _).trans (skipLine_suffix _))

example : isNextLineBlank (utf8 "x, --[==[ ]=] ]==] ; -- y\r\n \t\nz".toList) 1 = true := by
  decide +kernel

end LuaFormatter
