import LuaFormatter.Proofs.Comment.Owners
import LuaFormatter.Proofs.Format.Restyled
import LuaFormatter.Proofs.Layout.Cosmetic
import LuaFormatter.Proofs.Spelling.Implement
import LuaFormatter.Proofs.Spelling.Texts
import LuaFormatter.Proofs.Token.Ends
import LuaFormatter.Proofs.Token.Order
import LuaFormatter.Proofs.Tree.Nodes

/-!
# Line endings and indentation are cosmetic

The document of a program does not depend on how its lines end and what they are indented with, and
no line of its layout holds a line feed: the texts of strings and block comments are cut at their
line feeds, and every other text is that of a token on one line (`hasTexts_oneLine`). So the two
choices change no more of an output than the line endings and the blanks at the starts of lines
(`format_cosmetic`).
-/

namespace LuaFormatter

open Layout Scan

/-- The text holds no line feed, or it is cut there. -/
def Kind.OneLine (kind : Kind) (text : List Char) : Prop :=
  kind.isVerbatim = false → '\n' ∉ text

section
variable {source : List Char} {style : Style}

/-- Tokens of most kinds hold no line feed. Counterpart of `isOneLine`. -/
theorem newline_notMem_lexeme {token : Token} (h : (parse source).HasToken token)
    (hkind : isOneLine token.kind = true) : '\n' ∉ token.lexeme := by
  rcases h with hmem | rfl
  · exact newline_notMem_of_mem (List.mem_filter.1 hmem).1 hkind
  · exact List.not_mem_nil

/-- Trimming adds no line feed. Counterpart of `trimEnd`. -/
theorem newline_notMem_trimEnd {text : List Char} (h : '\n' ∉ text) : '\n' ∉ trimEnd text := by
  intro hmem
  have hreverse := (List.dropWhile_suffix isBlank).subset (List.mem_reverse.1 hmem)
  exact h (List.mem_reverse.1 hreverse)

/-- A line comment is written on one line. Counterpart of `Kind.OneLine`. -/
theorem oneLine_comment {comment : Comment} (h : comment ∈ (parse source).comments) :
    comment.kind.OneLine comment.written := by
  obtain ⟨token, htoken, -, -, htext, hblock⟩ := exists_token_of_comment h
  intro hkind
  have hline : comment.isBlock = false := by
    cases hisBlock : comment.isBlock with
    | false => rfl
    | true => simp [Comment.kind, hisBlock, Kind.isVerbatim] at hkind
  have hcomment : token.kind = .comment := by simpa [hline] using hblock
  rw [Comment.written, if_neg (by simp [hline]), htext]
  exact newline_notMem_trimEnd (newline_notMem_of_mem htoken (by rw [hcomment]; rfl))

/-- A shebang is written on one line. Counterpart of `Kind.OneLine`. -/
theorem oneLine_shebang {token : Token} (h : token ∈ (parse source).shebang) :
    Kind.shebang.OneLine (trimEnd token.lexeme) := by
  have hfind : (tokenise source).find? (·.kind = .shebang) = some token := h
  have hkind : token.kind = .shebang := by simpa using List.find?_some hfind
  exact fun _ => newline_notMem_trimEnd
    (newline_notMem_of_mem (List.mem_of_find?_eq_some hfind) (by rw [hkind]; rfl))

/-- A name is written on one line. Counterpart of `isName`. -/
theorem oneLine_name {name : String} (h : isName name = true) :
    Kind.identifier.OneLine name.toList := by
  intro _ hmem
  unfold isName at h
  split at h
  · cases h
  · rename_i c rest hname
    simp only [Bool.and_eq_true] at h
    rw [hname] at hmem
    rcases List.mem_cons.1 hmem with heq | hmem
    · rw [← heq] at h
      exact absurd h.1.1 (by decide)
    · exact absurd (List.all_eq_true.1 h.1.2 _ hmem) (by decide)

/-- Everything that a program writes besides its tree is on one line, or cut at its line feeds.
Counterpart of `Context.Writes`. -/
theorem writes_oneLine (source : List Char) (style : Style) :
    (Context.ofProgram (parse source) style).Writes Kind.OneLine where
  fixed kind hkind _ := by
    cases kind with
    | symbol mark => cases mark <;> decide
    | keyword word => cases word <;> decide
    | _ => cases hkind
  name _ hname := oneLine_name hname
  comment _ hmem := oneLine_comment (mem_comments_of_mem_attachments hmem)
  shebang _ hmem := oneLine_shebang hmem

/-- The texts of the leaves of a tree are on one line each, or cut at their line feeds. Counterpart
of `Shape.HasText`. -/
theorem oneLine_leaf {part : Node} (hpart : part.Part (parse source).root) :
    part.shape.HasText style Kind.OneLine := by
  have hread := isReadFrom_of_part hpart
  cases hshape : part.shape with
  | identifier name =>
    rw [hshape] at hread
    obtain ⟨token, htoken, hkind, rfl⟩ := hread
    intro _
    rw [Parser.textOf, String.toList_ofList]
    exact newline_notMem_lexeme htoken (by rw [hkind]; rfl)
  | literal kind text =>
    rw [hshape] at hread
    obtain ⟨token, htoken, hkind, rfl⟩ := hread
    have htext : isOneLine token.kind = true → '\n' ∉ (Parser.textOf token).toList := by
      rw [Parser.textOf, String.toList_ofList]
      exact newline_notMem_lexeme htoken
    have hliteral : kind = .string ∨ kind = .longString ∨ isOneLine token.kind = true := by
      unfold Parser.literalKind? at hkind
      split at hkind <;> simp_all [isOneLine]
    cases kind with
    | string | longString => exact nofun
    | _ => exact fun _ => htext (by simpa using hliteral)
  | _ => trivial

/-- The texts that are written for a source, with or without faults, hold no line feeds but those at
which they are cut. Counterpart of `Kind.OneLine`. -/
theorem hasTexts_oneLine (source : List Char) (style : Style) :
    HasTexts Kind.OneLine
      (spell (.ofProgram (parse source) style) {} (parse source).root) :=
  hasTexts_spell (writes_oneLine source style) {} _ fun _ hpart => oneLine_leaf hpart

end

/-! ## No line holds a line feed -/

/-- A text on one line is written with plain inks only. Counterpart of `Kind.marks`. -/
theorem inked_marks {kind : Kind} {text : List Char} (h : kind.OneLine text) :
    Inked Ink.IsPlain (kind.marks text) := by
  induction text with
  | nil => exact .nil
  | cons c rest ih =>
    have hrest := ih fun hkind hmem => h hkind (List.mem_cons_of_mem _ hmem)
    show Inked Ink.IsPlain ((if kind.isVerbatim ∧ c = '\n' then .ink .literal
      else .ink (.char kind.isNote c)) :: kind.marks rest)
    split
    · exact .ink (fun _ => nofun) hrest
    · rename_i hcut
      refine .ink (fun isNote heq => ?_) hrest
      obtain ⟨-, rfl⟩ : _ ∧ c = '\n' := by simpa using heq
      cases hverbatim : kind.isVerbatim with
      | false => exact h hverbatim List.mem_cons_self
      | true => exact hcut ⟨hverbatim, rfl⟩

/-- Line breaks are plain inks. Counterpart of `Ink.IsPlain`. -/
theorem inked_newlines (levels : List Nat) :
    Inked Ink.IsPlain (levels.map fun level => .ink (.newline level)) := by
  induction levels with
  | nil => exact .nil
  | cons level rest ih => exact .ink (fun _ => nofun) ih

/-- What a slot is resolved to is written with plain inks. Counterpart of `Slot.Resolves`. -/
theorem inked_piece {slot : Slot} {pieces : List Piece} (h : slot.HasText Kind.OneLine)
    (hpieces : slot.Resolves pieces) : Inked Ink.IsPlain (pieces.flatMap Piece.marks) := by
  have hspace : Inked Ink.IsPlain ([Piece.space].flatMap Piece.marks) :=
    .ink (fun _ => nofun) .nil
  have hnewline : ∀ level, Inked Ink.IsPlain ([Piece.newline level].flatMap Piece.marks) :=
    fun _ => .ink (fun _ => nofun) .nil
  have htoken : ∀ {kind : Kind} {text : List Char}, kind.OneLine text →
      Inked Ink.IsPlain ([Piece.token kind text].flatMap Piece.marks) := by
    intro kind text htext
    simpa [Piece.marks] using inked_marks htext
  cases slot with
  | token kind text =>
    obtain rfl := hpieces
    exact htoken h
  | space =>
    obtain rfl := hpieces
    exact hspace
  | gap =>
    obtain rfl | ⟨level, rfl⟩ := hpieces
    · exact hspace
    · exact hnewline level
  | soft =>
    obtain rfl | ⟨level, rfl⟩ := hpieces
    · exact .nil
    · exact hnewline level
  | pad =>
    obtain rfl | rfl | ⟨level, rfl⟩ := hpieces
    · exact .nil
    · exact hspace
    · exact hnewline level
  | hard =>
    obtain ⟨level, rfl⟩ := hpieces
    exact hnewline level
  | comma =>
    obtain rfl | rfl := hpieces
    · exact .nil
    · exact htoken h
  | later breaks kind text =>
    obtain ⟨levels, -, rfl⟩ := hpieces
    refine .later (Inked.append ?_ (inked_marks h)) .nil
    split
    · exact .ink (fun _ => nofun) .nil
    · exact inked_newlines levels

/-- What slots are resolved to is written with plain inks. Counterpart of `Resolves`. -/
theorem inked_pieces {slots : List Slot} {pieces : List Piece} (h : HasTexts Kind.OneLine slots)
    (hpieces : Resolves slots pieces) : Inked Ink.IsPlain (pieces.flatMap Piece.marks) := by
  induction slots generalizing pieces with
  | nil =>
    obtain rfl := hpieces
    exact .nil
  | cons slot rest ih =>
    obtain ⟨front, back, rfl, hfront, hback⟩ := hpieces
    rw [List.flatMap_append]
    exact (inked_piece (h slot (by simp)) hfront).append
      (ih (fun other hother => h other (List.mem_cons_of_mem _ hother)) hback)

/-- The lines of a source's layout, with or without faults, hold no line feeds. Counterpart of
`linesOf`. -/
theorem newline_notMem_content (source : List Char) (style : Style) :
    ∀ line ∈ linesOf style ((parse source).toDoc style), '\n' ∉ line.content := by
  intro line hline hmem
  obtain ⟨isNote, hink⟩ := mem_traceOf_of_mem_content hline hmem
  obtain ⟨word, hword, hflushed⟩ := flushed_traceOf style ((parse source).toDoc style)
  obtain ⟨pieces, hpieces, rfl⟩ := implements_compile _ {} (parse source).root .broken 0 word hword
  exact hflushed.inked .nil (inked_pieces (hasTexts_oneLine source style) hpieces) _ hink isNote rfl

/-- The lines of a source's layout. -/
def printedLines (source : List Char) (style : Style) : List PrintedLine :=
  linesOf style ((parse source).toDoc style)

section
variable {style other : Style} (source : List Char)

/-- The output is made of the lines of the layout, with blanks for their levels and the line ending
after each. Counterpart of `format`. -/
theorem format_eq_writeLines (style : Style) :
    format source style = writeLines style (printedLines source style) :=
  Doc.layout_eq_writeLines style _

/-- The lines depend on the wording and the widths of a style only. Counterpart of
`printedLines`. -/
theorem printedLines_congr (hwording : other.wording = style.wording)
    (hwidths : style.MeasuresLike other) :
    printedLines source other = printedLines source style := by
  rw [printedLines, Program.toDoc_congr _ hwording]
  exact linesOf_congr hwidths _

/-- The line ending of a style does not change the lines. Counterpart of `printedLines`. -/
theorem printedLines_lineEnding (style : Style) (lineEnding : LineEnding) :
    printedLines source { style with lineEnding } = printedLines source style :=
  printedLines_congr source rfl ⟨rfl, rfl⟩

/-- Tabs or spaces do not change the lines. Counterpart of `printedLines`. -/
theorem printedLines_useTabs (style : Style) (useTabs : Bool) :
    printedLines source { style with useTabs } = printedLines source style :=
  printedLines_congr source rfl ⟨rfl, rfl⟩

/-- The output, cut at its line feeds, is the list of its lines. Counterpart of `writtenLines`. -/
theorem splitOn_format (style : Style) :
    (format source style).splitOn '\n' = writtenLines style (printedLines source style) := by
  rw [format_eq_writeLines]
  exact splitOn_writeLines style (linesOf_ne_nil style _) (newline_notMem_content source style)

end

/-- Line endings and indentation are cosmetic, for every source, with or without faults. An output
with carriage returns is that without them, with one put before each line feed. Outputs with tabs
and with spaces have the same number of lines, one for each line that the layout prints. But for
blanks at the start, these lines are the same; and a line that is not trimmed away starts with its
level of tabs in one of them and with that many times the width of a level of spaces in the other.
Counterpart of `format`. -/
theorem format_cosmetic (source : List Char) (style : Style) :
    format source { style with lineEnding := .carriageReturnLineFeed } =
      (format source { style with lineEnding := .lineFeed }).flatMap withReturn ∧
    let lines := printedLines source style
    let tabs := (format source { style with useTabs := true }).splitOn '\n'
    let spaces := (format source { style with useTabs := false }).splitOn '\n'
    tabs.length = lines.length ∧ spaces.length = lines.length ∧
      tabs.map (·.dropWhile isPadding) = spaces.map (·.dropWhile isPadding) ∧
      ∀ (index : Nat) (line : PrintedLine), lines[index]? = some line →
        line.isTrimmedAway lines[index + 1]? = false →
        ∃ rest, tabs[index]? = some (List.replicate line.level '\t' ++ rest) ∧
          spaces[index]? = some (List.replicate (line.level * style.indentWidth) ' ' ++ rest) := by
  refine ⟨?_, ?_⟩
  · simp only [format_eq_writeLines, printedLines_lineEnding]
    exact writeLines_crlf style (newline_notMem_content source style)
  · simp only [splitOn_format, printedLines_useTabs, length_writtenLines, true_and]
    refine ⟨dropWhile_writtenLines (by rfl) _, fun index line hline haway => ?_⟩
    simp only [getElem?_writtenLines, hline, Option.map_some,
      PrintedLine.written_eq _ haway, Style.indentation, if_true, Bool.false_eq_true, if_false]
    exact ⟨_, rfl, rfl⟩

end LuaFormatter
