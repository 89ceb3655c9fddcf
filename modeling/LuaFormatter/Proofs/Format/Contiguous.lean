import LuaFormatter.Proofs.Comment.Slots
import LuaFormatter.Proofs.Format.Reflow
import LuaFormatter.Proofs.Format.TidyLines

/-!
# Literals of several lines

Strings and block comments may hold line breaks, which are written as they are. The layout takes
such a line break for the end of a line, and writes there what has been put off. So a literal is
whole only if no comment is put off where it starts; else these comments get into its first line
break (`contiguous_format`). A block comment that is put off itself is always whole.
-/

namespace LuaFormatter

open Layout

/-! ## The ends of literals -/

namespace Scan

/-- A block comment ends in a square bracket. Counterpart of `Scan.comment`. -/
theorem endsFirmly_blockComment {atStart : Bool} {first : Char} {rest : List Char} {length : Nat}
    (h : nextToken atStart first rest = (.blockComment, length)) :
    EndsFirmly (first :: rest.take length) := by
  obtain ⟨rfl, hrest⟩ := dashes_of_isComment (by rw [h]; rfl)
  rw [nextToken_dashes atStart hrest] at h
  rw [comment_eq] at h
  split at h
  · split at h
    · rename_i level _ inner hbracket
      cases h
      refine .cons _ ?_
      rw [List.take_add]
      exact .append _ ⟨']', getLast?_bracket hbracket, rfl⟩
    · cases h
  · cases h

/-- A block comment of a source ends firmly, with its bracket. Counterpart of `EndsFirmly`. -/
theorem endsFirmly_blockComment_of_mem {offset : Nat} {source : List Char} {token : Token}
    (h : token ∈ tokensFrom offset source) (hkind : token.kind = .blockComment) :
    EndsFirmly token.lexeme := by
  fun_induction tokensFrom offset source with
  | case1 => cases h
  | case2 offset c rest _ ih => exact ih h
  | case3 offset c rest _ kind length hnext lexeme ih =>
    rcases List.mem_cons.1 h with rfl | h
    · obtain rfl : kind = .blockComment := hkind
      exact endsFirmly_blockComment hnext
    · exact ih h

end Scan

/-- Cutting the ends of lines keeps a last character that is no line break. Counterpart of
`stripLines`. -/
theorem getLast?_stripLines {c : Char} (hreturn : c ≠ '\r') (hline : c ≠ '\n') :
    ∀ {text : List Char}, text.getLast? = some c → (stripLines text).getLast? = some c
  | [d], h => by
    obtain rfl : d = c := by simpa using h
    rw [stripLines_cons hline fun heq => absurd heq hreturn]
    rfl
  | d :: e :: rest, h => by
    rw [List.getLast?_cons_cons] at h
    have ih := getLast?_stripLines hreturn hline h
    by_cases hbreak : d = '\r' ∧ e = '\n'
    · obtain ⟨rfl, rfl⟩ := hbreak
      rwa [stripLines_return]
    · have hcons : stripLines (d :: e :: rest) = d :: stripLines (e :: rest) := by
        by_cases hd : d = '\n'
        · rw [hd, stripLines_newline]
        · exact stripLines_cons hd fun heq => ⟨e, rfl, fun he => hbreak ⟨heq, he⟩⟩
      rw [hcons, List.getLast?_cons, ih]
      rfl

/-- A literal ends as before when the ends of its lines are stripped. Counterpart of
`verbatimText`. -/
theorem endsFirmly_verbatimText {text : List Char} (h : Scan.EndsFirmly text) :
    Scan.EndsFirmly (verbatimText text) := by
  obtain ⟨c, hlast, hfirm⟩ := h
  have hreturn : c ≠ '\r' := by rintro rfl; cases hfirm
  have hline : c ≠ '\n' := by rintro rfl; cases hfirm
  rw [← stripLines_eq_verbatimText (by simpa [hlast] using hreturn)]
  exact ⟨c, getLast?_stripLines hreturn hline hlast, hfirm⟩

/-- The last character of a literal is no blank. -/
def Kind.EndsSolid (kind : Kind) (text : List Char) : Prop :=
  kind.isVerbatim = true → Scan.EndsFirmly text

section
variable {source : List Char} {style : Style}

/-- A comment of a valid source does not end with a blank when it is a block comment. Counterpart of
`Kind.EndsSolid`. -/
theorem endsSolid_comment (h : (parse source).isValid = true) {comment : Comment}
    (hcomment : comment ∈ (parse source).comments) : comment.kind.EndsSolid comment.written := by
  obtain ⟨token, htoken, hkind, -, htext, hblock⟩ := exists_token_of_comment hcomment
  have hclosed := kind_ne_unterminatedComment h token htoken
  intro hverbatim
  have hisBlock : comment.isBlock = true := by
    cases hline : comment.isBlock with
    | true => rfl
    | false => simp [Comment.kind, hline, Kind.isVerbatim] at hverbatim
  have hblockComment : token.kind = .blockComment := by
    have hne : token.kind ≠ .comment := of_decide_eq_true (hblock ▸ hisBlock)
    revert hkind hne hclosed
    cases token.kind <;> simp [Kind.isComment]
  rw [Comment.written, if_pos hisBlock, htext]
  exact endsFirmly_verbatimText (Scan.endsFirmly_blockComment_of_mem htoken hblockComment)

/-- Everything that a valid program writes besides its tree ends solidly. Counterpart of
`Context.Writes`. -/
theorem writes_endsSolid (h : (parse source).isValid = true) :
    (Context.ofProgram (parse source) style).Writes Kind.EndsSolid where
  fixed kind hkind hverbatim := by
    cases kind with
    | symbol | keyword => cases hverbatim
    | _ => cases hkind
  name _ _ := nofun
  comment _ hmem := endsSolid_comment h (mem_comments_of_mem_attachments hmem)
  shebang _ _ := nofun

/-- The texts of the leaves of a tree end solidly. Counterpart of `Shape.HasText`. -/
theorem endsSolid_leaf {part : Node} (hpart : part.Part (parse source).root) :
    part.shape.HasText style Kind.EndsSolid := by
  have hread := isReadFrom_of_part hpart
  cases hshape : part.shape with
  | identifier name => exact nofun
  | literal kind text =>
    rw [hshape] at hread
    obtain ⟨token, htoken, hkind, rfl⟩ := hread
    have hends : Scan.EndsFirmly (Parser.textOf token).toList := by
      rcases htoken with hmem | rfl
      · cases (operandsEndFirmly_tokens source).literal hmem hkind 0 with
        | literal hliteral htext =>
          cases hliteral
          exact htext
        | _ h => cases h
      · cases hkind
    cases kind with
    | string => exact fun _ => endsFirmly_verbatimText (endsFirmly_requote hends)
    | longString => exact fun _ => endsFirmly_verbatimText hends
    | _ => exact nofun
  | _ => trivial

/-- The literals that are written for a program end in no blank. Counterpart of `Kind.EndsSolid`. -/
theorem hasTexts_endsSolid (h : (parse source).isValid = true) :
    HasTexts Kind.EndsSolid (spell (.ofProgram (parse source) style) {} (parse source).root) :=
  hasTexts_spell (writes_endsSolid h) {} _ fun _ hpart => endsSolid_leaf hpart

end

/-! ## Literals on paper -/

/-- A token of the pieces has what the texts of the slots have. Counterpart of `Resolves`. -/
theorem Resolves.hasText {P : Kind → List Char → Prop} {slots : List Slot} {pieces : List Piece}
    (h : Resolves slots pieces) (htexts : HasTexts P slots) {kind : Kind} {text : List Char}
    (hmem : .token kind text ∈ pieces) : P kind text := by
  induction slots generalizing pieces with
  | nil =>
    obtain rfl := h
    cases hmem
  | cons slot rest ih =>
    obtain ⟨front, back, rfl, hfront, hback⟩ := h
    obtain ⟨hslot, hrest⟩ := hasTexts_cons.1 htexts
    rcases List.mem_append.1 hmem with hmem | hmem
    · cases slot with
      | token =>
        obtain rfl := hfront
        obtain ⟨rfl, rfl⟩ := Piece.token.inj (List.mem_singleton.1 hmem)
        exact hslot
      | comma =>
        obtain rfl | rfl := hfront
        · cases hmem
        · obtain ⟨rfl, rfl⟩ := Piece.token.inj (List.mem_singleton.1 hmem)
          exact hslot
      | gap | soft | pad | space | hard | later =>
        exfalso
        simp only [Slot.Resolves] at hfront
        grind
    · exact ih hback hrest hmem

section
variable {style : Style} {kind : Kind} {line rest text : List Char} {word : List Mark}
  {pending inks : List Ink}

/-- A token on one line is written as its characters. Counterpart of `Piece.inks`. -/
theorem inks_line (kind : Kind) (hline : '\n' ∉ line) :
    (Piece.token kind line).inks = Ink.ofText kind.isNote line := by
  refine List.map_congr_left fun c hc => ?_
  rw [if_neg]
  rintro ⟨-, rfl⟩
  exact hline hc

/-- A verbatim token over several lines is written line by line, with literal line breaks.
Counterpart of `Piece.inks`. -/
theorem inks_lines (hverbatim : kind.isVerbatim = true) (hline : '\n' ∉ line) :
    (Piece.token kind (line ++ '\n' :: rest)).inks =
      Ink.ofText kind.isNote line ++ .literal :: (Piece.token kind rest).inks := by
  rw [← inks_line kind hline, Piece.inks, List.map_append, List.map_cons, if_pos ⟨hverbatim, rfl⟩]
  rfl

/-- A literal is written where it stands, but for its first line break, which comes after what has
been put off. Counterpart of `Flushed`. -/
theorem exists_literal (hverbatim : kind.isVerbatim = true) (hline : '\n' ∉ line)
    (h : Flushed (Mark.ofInks pending) (kind.marks (line ++ '\n' :: rest) ++ word) inks) :
    ∃ after, inks = Ink.ofText kind.isNote line ++
        (pending ++ .literal :: ((Piece.token kind rest).inks ++ after)) ∧
      Flushed [] word after := by
  have hmarks : kind.marks (line ++ '\n' :: rest) ++ word =
      Mark.ofInks (Ink.ofText kind.isNote line) ++
        (.ink .literal :: (Mark.ofInks (Piece.token kind rest).inks ++ word)) := by
    rw [marks_eq_ofInks, inks_lines hverbatim hline]
    simp [Mark.ofInks]
  rw [hmarks] at h
  obtain ⟨_, rfl, hbreak⟩ := Flushed.exists_ofText h
  obtain ⟨_, rfl, hrest⟩ := Flushed.exists_break rfl hbreak
  obtain ⟨after, rfl, hword⟩ := Flushed.exists_ofInks hrest
  exact ⟨after, rfl, hword⟩

/-- A literal that ends in no blank cuts the text in two. Counterpart of `render`. -/
theorem render_literal (hverbatim : kind.isVerbatim = true) (hends : Scan.EndsFirmly text)
    (before after : List Ink) :
    render style (before ++ ((Piece.token kind text).inks ++ after)) =
      render style before ++ (style.written text ++ render style after) := by
  have hlexeme : render style (before ++ (Piece.token kind text).inks) =
      render style before ++ style.written text := by
    rw [render, List.foldl_append, foldl_put_token, List.reverse_append, List.reverse_reverse,
      Kind.lexeme, if_pos hverbatim]
    rfl
  rw [← List.append_assoc, render_append, hlexeme, List.append_assoc]
  obtain ⟨c, hlast, hfirm⟩ := hends
  obtain ⟨front, rfl⟩ := List.getLast?_eq_some_iff.1 hlast
  have hc : c ≠ '\n' := by rintro rfl; cases hfirm
  have hwritten : style.written (front ++ [c]) = style.written front ++ [c] := by
    simp [Style.written, hc]
  rw [hlexeme, hwritten, ← List.append_assoc, List.getLast?_concat]
  rintro _ ⟨⟩
  exact Bool.eq_false_iff.2 fun hblank => by
    rcases Bool.or_eq_true_iff.1 hblank with h | h <;> cases eq_of_beq h <;> cases hfirm

end

/-! ## Programs -/

/-- A key that is written as a name holds no line break. Counterpart of `keyName?`. -/
theorem keyName?_eq_none_of_part {source : List Char} {part : Node}
    (hpart : part.Part (parse source).root) {kind : LiteralKind} {raw : String}
    (hshape : part.shape = .literal kind raw) (hline : '\n' ∈ raw.toList) :
    keyName? part = none := by
  have hread := isReadFrom_of_part hpart
  rw [hshape] at hread
  obtain ⟨token, htoken, hkind, rfl⟩ := hread
  have htext : (Parser.textOf token).toList = token.lexeme := String.toList_ofList
  unfold keyName?
  rw [hshape]
  split
  · rename_i raw hliteral
    obtain ⟨rfl, rfl⟩ := Shape.literal.inj hliteral
    have hstring : token.kind = .string := by
      unfold Parser.literalKind? at hkind
      split at hkind <;> simp_all
    have hmem : token ∈ tokenise source := by
      rcases htoken with hmem | rfl
      · exact (List.mem_filter.1 hmem).1
      · cases hstring
    have hreads := Scan.reads_of_mem hmem (by rw [hstring]; rfl)
    rw [hstring] at hreads
    obtain ⟨quote, content, hquote, hlexeme, -⟩ := hreads.exists_isContent
    rw [htext, hlexeme] at hline
    have hcontent : '\n' ∈ content := by
      have hne := (ne_of_quote hquote).2
      simpa [hne.symm] using hline
    have hname : isName (String.ofList content) = false := Bool.eq_false_iff.2 fun hname => by
      have hmem := oneLine_name hname rfl
      rw [String.toList_ofList] at hmem
      exact hmem hcontent
    have hinside : literalContent (Parser.textOf token).toList = content := by
      simp [htext, hlexeme, literalContent]
    simp [hinside, hname]
  · rfl

/-- The slot of a literal is a token. Counterpart of `literalSlot`. -/
theorem exists_token_of_literal (style : Style) (kind : LiteralKind) (raw : String) :
    ∃ token text, literalSlot style kind raw = .token token text := by
  cases kind <;> exact ⟨_, _, rfl⟩

/-- Where the literals of a source are in its output. -/
structure Contiguous (source : List Char) (style : Style) (pieces : List Piece) (inks : List Ink) :
    Prop extends Written source style pieces inks where
  /-- Literals of several lines are among the pieces. -/
  literal : ∀ part : Node, part.Part (parse source).root →
    ∀ kind raw, part.shape = .literal kind raw → '\n' ∈ raw.toList →
    ∃ token text, literalSlot style kind raw = .token token text ∧ .token token text ∈ pieces
  /-- All comments are among the pieces, some of them put off. -/
  comment : ∀ comment ∈ (parse source).comments, .token comment.kind comment.written ∈ pieces ∨
    ∃ levels, .later levels comment.kind comment.written ∈ pieces
  /-- A text of several lines that is not put off is written where it stands, but for what is
  pending there, which comes before its first line break. If nothing is pending, the text is
  whole. -/
  lines : ∀ front kind line rest back,
    pieces = front ++ .token kind (line ++ '\n' :: rest) :: back →
    kind.isVerbatim = true → '\n' ∉ line →
      ∃ before pending after, Laid [] (front.flatMap Piece.marks) before (Mark.ofInks pending) ∧
        inks = before ++ (Ink.ofText kind.isNote line ++
          (pending ++ .literal :: ((Piece.token kind rest).inks ++ after))) ∧
        (pending = [] → format source style =
          render style before ++ (style.written (line ++ '\n' :: rest) ++ render style after))
  /-- A text that is put off is whole. -/
  later : ∀ levels kind text, .later levels kind text ∈ pieces →
    (Piece.token kind text).inks <:+: inks

/-- Literals of several lines are written whole, unless a comment is put off where they start.
Counterpart of `format`. -/
theorem contiguous_format {source : List Char} (h : (parse source).isValid = true) (style : Style) :
    ∃ pieces inks, Contiguous source style pieces inks := by
  obtain ⟨pieces, inks, hwritten⟩ := exists_written source style
  refine ⟨pieces, inks, hwritten, ?_, ?_, ?_, ?_⟩
  · intro part hpart kind raw hshape hline
    obtain ⟨token, text, hslot⟩ := exists_token_of_literal style kind raw
    refine ⟨token, text, hslot, ?_⟩
    obtain ⟨place, hpartSlots⟩ :=
      exists_infix_root h style hpart (keyName?_eq_none_of_part hpart hshape hline)
    have hmem : .token token text ∈
        coreSlots (.ofProgram (parse source) style) place part
        (spell (.ofProgram (parse source) style)) := by
      simp only [coreSlots, hshape]
      exact List.mem_singleton.2 hslot.symm
    obtain ⟨inside, hinside, hsubset⟩ :=
      exists_resolves_of_mem (hpartSlots.subset hmem) hwritten.resolves
    obtain rfl := hinside
    exact hsubset (List.mem_singleton_self _)
  · intro comment hcomment
    rw [← map_comment_attachments] at hcomment
    obtain ⟨attachment, hattachment, rfl⟩ := List.mem_map.1 hcomment
    obtain ⟨slot, hslot, his⟩ := exists_slot_of_mem_attachments h style hattachment
    obtain ⟨inside, hinside, hsubset⟩ := exists_resolves_of_mem hslot hwritten.resolves
    rcases his with rfl | ⟨breaks, rfl⟩
    · obtain rfl := hinside
      exact .inl (hsubset (List.mem_singleton_self _))
    · obtain ⟨levels, -, rfl⟩ := hinside
      exact .inr ⟨levels, hsubset (List.mem_singleton_self _)⟩
  · rintro front kind line rest back rfl hverbatim hline
    obtain ⟨before, pending, tail, rfl, hbefore, htail⟩ := hwritten.cut
    obtain ⟨after, rfl, -⟩ := exists_literal hverbatim hline htail
    refine ⟨before, pending, after, hbefore, rfl, ?_⟩
    rintro rfl
    have hends : kind.EndsSolid (line ++ '\n' :: rest) :=
      hwritten.resolves.hasText (hasTexts_endsSolid h) (by simp)
    rw [← render_literal hverbatim (hends hverbatim), inks_lines hverbatim hline,
      hwritten.format_eq]
    simp
  · intro levels kind text hmem
    obtain ⟨front, back, rfl⟩ := List.append_of_mem hmem
    obtain ⟨before, pending, after, rfl, -, hafter⟩ := hwritten.cut
    rw [List.flatMap_cons, marks_later] at hafter
    have hlast : (Piece.token kind text).inks <:+:
        pending ++ (leadInks levels ++ (Piece.token kind text).inks) :=
      ((List.suffix_append ..).trans (List.suffix_append ..)).isInfix
    exact (Flushed.infix_of_queue hafter.of_later (laterInks_marks back)
      ⟨_, (List.map_append ..).symm, hlast⟩).trans (List.suffix_append ..).isInfix

/-- A string and a block comment that are whole, and a string with a comment in its first line
break. -/
theorem contiguous_format_pending :
    let source := "y = \"a\\\nb\" --[[d\ne]]\nx -- c\n= [[f\ng]]".toList
    (parse source).isValid = true ∧ ∃ pieces inks, Contiguous source {} pieces inks :=
  ⟨by decide +kernel, contiguous_format (by decide +kernel) {}⟩

end LuaFormatter
