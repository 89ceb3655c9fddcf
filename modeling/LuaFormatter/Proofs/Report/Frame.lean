import LuaFormatter.Proofs.Grammar.FaultSpans
import LuaFormatter.Proofs.Source.Lines
import LuaFormatter.Report.Frame
import Mathlib.Data.List.Forall2

/-!
# What a frame shows

A line of a frame is coloured by its own tokens and put together again from their texts and the gaps
before them. Nothing but the blanks after the last token gets lost on the way
(`exists_highlightFrom?`). `Frame.Shown` says what a frame shows of a line of a source.

A frame can be drawn for every span, and it shows the lines that the span covers. A fault is at a
stretch of whole characters, so the carets below its line are under just these (`frame_shows`).
-/

namespace LuaFormatter

/-! ## Plain text -/

namespace Styled

/-- The characters of a first segment, and those of the rest. Counterpart of `Styled.plain`. -/
theorem plain_cons (segment : Segment) (rest : Styled) :
    plain (segment :: rest) = segment.text ++ plain rest :=
  String.join_cons

/-- The characters of two styled texts. Counterpart of `Styled.plain`. -/
theorem plain_append (front back : Styled) : plain (front ++ back) = plain front ++ plain back := by
  rw [plain, List.map_append, String.join_append]
  rfl

/-- The characters of styled texts one after the other. Counterpart of `Styled.plain`. -/
theorem plain_flatten (parts : List Styled) :
    plain parts.flatten = String.join (parts.map plain) := by
  induction parts with
  | nil => rfl
  | cons part rest ih => rw [List.flatten_cons, plain_append, ih, List.map_cons, String.join_cons]

end Styled

namespace Frame

open Scan

/-! ## Tokens of a line -/

/-- The tokens of the rest of a line, after a gap that has begun, give the text up to the last of
them. What is left after it are blanks. Counterpart of `highlightFrom?`. -/
theorem exists_highlightFrom? {line front gap rest : List Char} {offset : Nat}
    (hline : line = front ++ (gap ++ rest)) (hoffset : offset = byteLength front + byteLength gap)
    (hgap : ∀ c ∈ gap, isSkipped c = true) :
    ∃ styled shown lost, highlightFrom? line (byteLength front) (tokensFrom offset rest) =
      some styled ∧
      styled.plain = String.ofList shown ∧ gap ++ rest = shown ++ lost ∧
      (∀ c ∈ lost, isSkipped c = true) ∧
      byteLength front + byteLength shown =
        ((tokensFrom offset rest).getLast?.map Token.stop).getD (byteLength front) := by
  fun_induction tokensFrom offset rest generalizing front gap with
  | case1 => exact ⟨[], [], gap, rfl, rfl, by simp, hgap, rfl⟩
  | case2 offset c rest hskipped ih =>
    obtain ⟨styled, shown, lost, hstyled, hplain, hsplit, hfacts⟩ := @ih front (gap ++ [c])
      (by simpa using hline) (by simp [hoffset, byteLength, Nat.add_assoc])
      (List.forall_mem_append.2 ⟨hgap, by simpa using hskipped⟩)
    exact ⟨styled, shown, lost, hstyled, hplain, by simpa using hsplit, hfacts⟩
  | case3 =>
    rename_i offset c rest hskipped kind length hnext lexeme ih
    have hrest : c :: rest = lexeme ++ rest.drop length := by simp [lexeme]
    have hfront : offset + byteLength lexeme = byteLength (front ++ gap ++ lexeme) := by
      rw [byteLength_append, byteLength_append, hoffset]
    obtain ⟨others, shown, lost, hothers, hplain, hsplit, hlost, hstop⟩ :=
      @ih (front ++ gap ++ lexeme) [] (by rw [hline, hrest]; simp) (by rw [hfront]; rfl) (by simp)
    have hgapText : gapText? line (byteLength front) offset = some gap := by
      unfold gapText?
      split
      · rw [@eq_nil_of_byteLength gap (by omega)]
      · rw [hoffset, hline, Span.text?_append]
    have hlexeme : (Span.mk offset (offset + byteLength lexeme)).text? line = some lexeme := by
      rw [hoffset, hline, hrest, ← byteLength_append, ← List.append_assoc, Span.text?_append]
    refine ⟨⟨.plain, String.ofList gap⟩ :: ⟨kind.paint, String.ofList lexeme⟩ :: others,
      gap ++ lexeme ++ shown, lost, ?_, ?_, ?_, hlost, ?_⟩
    · rw [← hfront] at hothers
      simp only [highlightFrom?, Token.span, Token.stop, Token.length, hgapText, hlexeme, hothers]
      rfl
    · rw [Styled.plain_cons, Styled.plain_cons, hplain, String.ofList_append, String.ofList_append,
        String.append_assoc]
    · rw [hrest, List.append_assoc, List.append_assoc, ← hsplit, List.nil_append]
    · rw [← hfront] at hstop
      rw [List.getLast?_cons, Option.map_some, Option.getD_some, byteLength_append,
        byteLength_append, ← Nat.add_assoc, ← Nat.add_assoc, ← hoffset, hstop]
      cases (tokensFrom (offset + byteLength lexeme) (rest.drop length)).getLast? <;> rfl

/-! ## Rows -/

/-- Line breaks are trimmed from the end. Counterpart of `trimBreaks`. -/
theorem trimBreaks_eq (line : List Char) :
    trimBreaks line = (line.reverse.dropWhile isLineBreak).reverse := by
  have hbreak : (fun c : Char => decide (c = '\r') || decide (c = '\n')) = isLineBreak := by
    funext c
    rw [isLineBreak, Bool.or_comm]
    rfl
  rw [trimBreaks, hbreak]

/-- A line is its trimmed text and line breaks, and the text ends with none. Counterpart of
`trimBreaks`. -/
theorem exists_trimBreaks (line : List Char) :
    ∃ breaks, line = trimBreaks line ++ breaks ∧ (∀ c ∈ breaks, isLineBreak c = true) ∧
      ∀ c ∈ (trimBreaks line).getLast?, isLineBreak c = false := by
  refine ⟨(line.reverse.takeWhile isLineBreak).reverse, ?_, fun c hc => ?_, fun c hc => ?_⟩
  · rw [trimBreaks_eq, ← List.reverse_append, List.takeWhile_append_dropWhile, List.reverse_reverse]
  · exact List.all_eq_true.1 List.all_takeWhile c (List.mem_reverse.1 hc)
  · rw [trimBreaks_eq, List.getLast?_reverse] at hc
    have hhead := List.head?_dropWhile_not isLineBreak line.reverse
    rw [hc] at hhead
    simpa using hhead

/-- A text without line breaks at its end is what is trimmed of it with some. Counterpart of
`trimBreaks`. -/
theorem trimBreaks_append {text breaks : List Char} (hbreaks : ∀ c ∈ breaks, isLineBreak c = true)
    (hlast : ∀ c ∈ text.getLast?, isLineBreak c = false) : trimBreaks (text ++ breaks) = text := by
  rw [trimBreaks_eq, List.reverse_append,
    List.dropWhile_append_of_pos fun c hc => hbreaks c (List.mem_reverse.1 hc)]
  cases htext : text.reverse with
  | nil => simpa using htext.symm
  | cons c rest =>
    have hc : isLineBreak c = false := hlast c (by rw [← List.head?_reverse, htext]; rfl)
    rw [List.dropWhile_cons_of_neg (by simp [hc]), ← htext, List.reverse_reverse]

/-- What a frame shows of a line of a source: all but the line break and the blanks before it. -/
structure Shown (source : List Char) (number : Nat) where
  /-- Where the line is. -/
  span : Span
  /-- The line up to the end of the last token that is found when it is read on its own. -/
  shown : List Char
  /-- The rest of the line without its line break. -/
  blanks : List Char
  /-- The line break. -/
  breaks : List Char
  span?_eq : (LineIndex.ofSource source).span? number = some span
  text?_eq : span.text? source = some (shown ++ blanks ++ breaks)
  isLineBreak_breaks : ∀ c ∈ breaks, isLineBreak c = true
  isLineBreak_last : ∀ c ∈ (shown ++ blanks).getLast?, isLineBreak c = false
  isSkipped_blanks : ∀ c ∈ blanks, isSkipped c = true
  byteLength_shown : byteLength shown =
    ((tokenise (shown ++ blanks)).getLast?.map Token.stop).getD 0

namespace Shown

variable {source : List Char} {number : Nat}

/-- The line without its line break. -/
def text (line : Shown source number) : List Char :=
  line.shown ++ line.blanks

/-- The text of the line is part of the source. Counterpart of `Shown`. -/
theorem exists_source (line : Shown source number) :
    ∃ before after, source = before ++ (line.text ++ after) ∧
      byteLength before = line.span.start := by
  obtain ⟨before, after, hsource, hbefore⟩ := Span.text?_eq_some line.text?_eq
  exact ⟨before, line.breaks ++ after, hsource.trans (by rw [text, List.append_assoc]), hbefore⟩

/-- The row for the line. -/
def row (line : Shown source number) : String :=
  alignedNumber number ++ " │" ++ (if line.text.isEmpty then "" else " ") ++
  String.ofList line.shown ++ "\n"

end Shown

/-- A row of carets after a padding. -/
def caretRow (padding : List Char) (carets : Nat) : String :=
  "    │ " ++ String.ofList padding ++ String.ofList (List.replicate carets '^') ++ "\n"

/-- What stands above the carets, with all characters but tabs blank. -/
def blankOut (text : List Char) : List Char :=
  text.map fun c => if c = '\t' then '\t' else ' '

/-- The colours of a line give its text up to the last token. Counterpart of `highlight?`. -/
theorem exists_highlight? (text : List Char) :
    ∃ styled shown blanks, highlight? text = some styled ∧ styled.plain = String.ofList shown ∧
      text = shown ++ blanks ∧ (∀ c ∈ blanks, isSkipped c = true) ∧
      byteLength shown = ((tokenise text).getLast?.map Token.stop).getD 0 := by
  obtain ⟨styled, shown, blanks, hstyled, hplain, htext, hblanks, hstop⟩ :=
    @exists_highlightFrom? text [] [] text 0 rfl rfl (by simp)
  exact ⟨styled, shown, blanks, hstyled, hplain, htext, hblanks, (Nat.zero_add _).symm.trans hstop⟩

section
variable {source : List Char} {number : Nat}

/-- A line of the source can be shown. Counterpart of `Shown`. -/
theorem exists_shown {span : Span} (h : (LineIndex.ofSource source).span? number = some span) :
    Nonempty (Shown source number) := by
  obtain ⟨hstart, hstop, hle⟩ := LineIndex.isCut_of_span? h
  obtain ⟨before, line, after, hsource, hbefore, hline⟩ := exists_text hstart hstop hle
  have htext : span.text? source = some line := by
    have hspan : span = ⟨byteLength before, byteLength before + byteLength line⟩ := by
      rw [hline, hbefore]
    rw [hsource, hspan, Span.text?_append]
  obtain ⟨breaks, hbreaks, hall, hlast⟩ := exists_trimBreaks line
  obtain ⟨-, shown, blanks, -, -, hsplit, hblanks, hshown⟩ := exists_highlight? (trimBreaks line)
  rw [hsplit] at hbreaks hlast hshown
  exact ⟨⟨span, shown, blanks, breaks, h, by rw [htext, ← hbreaks], hall, hlast, hblanks, hshown⟩⟩

/-- The characters below a line are a row of carets. Counterpart of `underline`. -/
theorem plain_underline (text : List Char) (offset : Nat) (span : Span) :
    (underline text offset span).plain =
      caretRow (padding text (span.start - offset))
        (caretCount text (span.start - offset) (span.stop - offset)) := by
  have hborder : "    │ " = "    " ++ "│" ++ " " := by decide
  simp only [underline, caretRow, Styled.plain_cons, hborder, String.append_assoc]
  rfl

/-- The characters of a row are its number, a bar and the line. Counterpart of `numbered`. -/
theorem plain_numbered (number : Nat) (text : List Char) (coloured : Styled) :
    (numbered number text coloured).plain =
      alignedNumber number ++ " │" ++ (if text.isEmpty then "" else " ") ++ coloured.plain ++
      "\n" := by
  have hborder : " │" = " " ++ "│" := by decide
  simp only [numbered, Styled.plain_append, Styled.plain_cons, hborder, String.append_assoc]
  rfl

/-- The text of a row for the line with a number: what is shown of the line, with carets below it if
it is the only one. -/
structure IsRow (source : List Char) (span : Span) (isOnly : Bool) (number : Nat) (row : String) :
    Prop where
  exists_line : Nonempty (Shown source number)
  eq (line : Shown source number) :
    row = line.row ++ if isOnly then (underline line.text line.span.start span).plain else ""

/-- The row of a line is drawn and shows that line, with carets if it is the only one. Counterpart
of `row?`. -/
theorem plain_row? (line : Shown source number) (span : Span) (isOnly : Bool) :
    ∃ styled, row? source (LineIndex.ofSource source) span isOnly number = some styled ∧
      styled.plain = line.row ++ if isOnly then (underline line.text line.span.start span).plain
      else "" := by
  have htrim := trimBreaks_append line.isLineBreak_breaks line.isLineBreak_last
  obtain ⟨coloured, shown, blanks, hcoloured, hplain, hsplit, -, hshown⟩ :=
    exists_highlight? (line.shown ++ line.blanks)
  have hsame : shown = line.shown := by
    rw [← line.byteLength_shown] at hshown
    obtain ⟨middle, hmiddle, -⟩ := exists_append_of_le hsplit.symm (Nat.le_of_eq hshown)
    have hlength := congrArg byteLength hmiddle
    rw [byteLength_append] at hlength
    obtain rfl := @eq_nil_of_byteLength middle (by omega)
    simpa using hmiddle.symm
  refine ⟨numbered number line.text coloured ++
    if isOnly then underline line.text line.span.start span else [], ?_, ?_⟩
  · rw [row?, line.span?_eq]
    simp only [Option.bind_eq_bind, Option.bind_some, line.text?_eq, htrim, hcoloured]
    rfl
  · rw [Styled.plain_append, plain_numbered, hplain, hsame, Shown.row]
    cases isOnly <;> rfl

/-- There is a row for every line. Counterpart of `row?`. -/
theorem exists_row? {lineSpan : Span} (h : (LineIndex.ofSource source).span? number = some lineSpan)
    (span : Span) (isOnly : Bool) :
    ∃ styled, row? source (LineIndex.ofSource source) span isOnly number = some styled ∧
      IsRow source span isOnly number styled.plain := by
  obtain ⟨shown⟩ := exists_shown h
  obtain ⟨styled, hstyled, -⟩ := plain_row? shown span isOnly
  refine ⟨styled, hstyled, ⟨shown⟩, fun line => ?_⟩
  obtain ⟨other, hother, hplain⟩ := plain_row? line span isOnly
  cases hstyled.symm.trans hother
  exact hplain

/-! ## Carets -/

/-- Up to the span all characters are blanked out. Counterpart of `padding`. -/
theorem padding_append (before covered after : List Char) :
    padding (before ++ (covered ++ after)) (byteLength before) = blankOut before := by
  have hstart : min (byteLength before) (byteLength (before ++ (covered ++ after))) =
      byteLength before := by
    simp
  rw [padding, hstart, cut?_append]
  rfl

/-- As many carets are drawn as the span has characters, and at least one. Counterpart of
`caretCount`. -/
theorem caretCount_append (before covered after : List Char) :
    caretCount (before ++ (covered ++ after)) (byteLength before)
      (byteLength before + byteLength covered) = max covered.length 1 := by
  have hstop : min (byteLength before + byteLength covered)
      (byteLength (before ++ (covered ++ after))) = byteLength before + byteLength covered := by
    simp only [byteLength_append]
    omega
  rw [caretCount, hstop, Span.text?_append]
  rfl

/-- The carets for any span are in a row behind blanks. Counterpart of `underline`. -/
theorem exists_caretRow (text : List Char) (offset : Nat) (span : Span) :
    ∃ padding carets, (underline text offset span).plain = caretRow padding carets ∧
      (∀ c ∈ padding, isLineBlank c = true) ∧ 0 < carets := by
  refine ⟨_, _, plain_underline text offset span, fun c hc => ?_, Nat.le_max_right _ _⟩
  obtain ⟨d, -, rfl⟩ := List.mem_map.1 hc
  split <;> rfl

/-- What a fault on one line covers of the text of this line. Counterpart of `Fault.span`. -/
theorem exists_covered {fault : Fault} (h : fault ∈ (parse source).faults)
    (hnumber : (LineIndex.ofSource source).line fault.span = number) (line : Shown source number)
    (hstop : fault.span.stop ≤ line.span.start + byteLength line.text) :
    ∃ before covered after, line.text = before ++ (covered ++ after) ∧
      fault.span.start = line.span.start + byteLength before ∧
      fault.span.stop = fault.span.start + byteLength covered := by
  have hmarked := marked_of_mem_faults h
  obtain ⟨front, back, hsource, hfront⟩ := line.exists_source
  have hstart : line.span.start ≤ fault.span.start :=
    LineIndex.start_le_of_lineOf (by rw [← LineIndex.line, hnumber]; exact line.span?_eq)
  have hle := hmarked.le
  obtain ⟨before, rest, hbefore, hfaultStart⟩ :=
    exists_cut (hsource ▸ hmarked.start) (by omega) (by omega)
  rw [hbefore, List.append_assoc, ← List.append_assoc] at hsource
  have hlengths := byteLength_append before rest
  rw [← hbefore] at hlengths
  obtain ⟨covered, after, hcovered, hfaultStop⟩ := exists_cut (hsource ▸ hmarked.stop)
    (by rw [byteLength_append]; omega) (by rw [byteLength_append]; omega)
  rw [byteLength_append] at hfaultStop
  exact ⟨before, covered, after, by rw [hbefore, hcovered], by omega, by omega⟩

/-! ## Frames -/

/-- A map over a list succeeds if it does for each item. Counterpart of `List.mapM` for `Option`. -/
theorem exists_mapM {α β : Type} {f : α → Option β} {P : α → β → Prop} {items : List α}
    (h : ∀ item ∈ items, ∃ result, f item = some result ∧ P item result) :
    ∃ results, items.mapM f = some results ∧ List.Forall₂ P items results := by
  induction items with
  | nil => exact ⟨[], rfl, .nil⟩
  | cons item rest ih =>
    obtain ⟨result, hresult, hitem⟩ := h item List.mem_cons_self
    obtain ⟨results, hresults, hrest⟩ := ih fun other hmem => h other (List.mem_cons_of_mem _ hmem)
    exact ⟨result :: results, by simp [List.mapM_cons, hresult, hresults], .cons hitem hrest⟩

/-- Lines are counted from one. Counterpart of `LineIndex.lineOf`. -/
theorem one_le_lineOf (offset : Nat) : 1 ≤ (LineIndex.ofSource source).lineOf offset := by
  rw [LineIndex.lineOf_ofSource]
  omega

/-- No offset is on a line after the last one. Counterpart of `LineIndex.lineOf`. -/
theorem lineOf_le (offset : Nat) :
    (LineIndex.ofSource source).lineOf offset ≤ LineIndex.lineCount source := by
  have hle := (List.take_sublist offset (utf8 source)).count_le 0x0A
  rw [LineIndex.lineOf_ofSource, LineIndex.lineCount]
  omega

/-- A frame has a row for every line that the span covers. Counterpart of `draw?`. -/
theorem exists_draw? (title : String) (source : List Char) (span : Span) {first last : Nat}
    (hfirst : first = max ((LineIndex.ofSource source).line span) 1)
    (hlast : last = max ((LineIndex.ofSource source).finalLine span) first) :
    draw? title source span = some (frame title source span) ∧
      ∃ rows : List String,
        (frame title source span).plain = (header title first).plain ++ String.join rows ++
        "────╯" ∧
          List.Forall₂ (IsRow source span (first = last))
          (List.range' first (last + 1 - first)) rows := by
  obtain ⟨rows, hrows, hall⟩ := @exists_mapM _ _
    (row? source (LineIndex.ofSource source) span (first = last))
    (fun number row => IsRow source span (first = last) number row.plain)
    (List.range' first (last + 1 - first)) fun number hmem => by
      have hfirstLine := @one_le_lineOf source span.start
      have hlastLine := @lineOf_le source span.stop
      have hfirstLast := @lineOf_le source span.start
      rw [LineIndex.line] at hfirst
      rw [LineIndex.finalLine] at hlast
      rw [List.mem_range'_1] at hmem
      obtain ⟨lineSpan, hspan⟩ := Option.isSome_iff_exists.1
        ((LineIndex.isSome_span?_iff source number).2 ⟨by omega, by omega⟩)
      exact exists_row? hspan span (first = last)
  have hdraw : draw? title source span =
      some (header title first ++ rows.flatten ++ [⟨.dimmed, "────╯"⟩]) := by
    simp only [draw?, ← hfirst, ← hlast]
    rw [hrows]
    rfl
  have hframe : frame title source span = header title first ++ rows.flatten ++
      [⟨.dimmed, "────╯"⟩] := by
    rw [frame, hdraw, Option.getD_some]
  refine ⟨by rw [hdraw, hframe], rows.map Styled.plain, ?_, ?_⟩
  · rw [hframe, Styled.plain_append, Styled.plain_append, Styled.plain_flatten]
    rfl
  · rw [List.forall₂_map_right_iff]
    exact hall

/-- A frame can be drawn for every span: the lines that it covers are in rows below the title, each
up to the end of its last token, and there are carets if and only if this is one line. For a fault
inside the text of one line, there is a caret below each character that it covers, one at least,
behind as many blanks as there are characters before it. Counterpart of `draw?`. -/
theorem frame_shows (title : String) (source : List Char) :
    (∀ (span : Span) (first last : Nat), first = max ((LineIndex.ofSource source).line span) 1 →
      last = max ((LineIndex.ofSource source).finalLine span) first →
        draw? title source span = some (frame title source span) ∧
          ∃ rows : List String,
            (frame title source span).plain = (header title first).plain ++ String.join rows ++
            "────╯" ∧
              List.Forall₂ (fun number row => ∃ line : Shown source number,
                if first = last then
                  ∃ padding carets, row = line.row ++ caretRow padding carets ∧
                    (∀ c ∈ padding, isLineBlank c = true) ∧ 0 < carets
                else row = line.row) (List.range' first (last + 1 - first)) rows) ∧
      ∀ fault ∈ (parse source).faults, ∀ number,
      (LineIndex.ofSource source).line fault.span = number →
        (LineIndex.ofSource source).finalLine fault.span = number → ∀ line : Shown source number,
          fault.span.stop ≤ line.span.start + byteLength line.text →
            ∃ before covered after, line.text = before ++ (covered ++ after) ∧
              fault.span.start = line.span.start + byteLength before ∧
              fault.span.stop = fault.span.start + byteLength covered ∧
              (frame title source fault.span).plain =
                (header title number).plain ++
                  (line.row ++ caretRow (blankOut before) (max covered.length 1)) ++ "────╯" := by
  refine ⟨fun span first last hfirst hlast => ?_,
    fun fault hfault number hnumber hlast line hstop => ?_⟩
  · obtain ⟨hdraw, rows, hplain, hall⟩ := exists_draw? title source span hfirst hlast
    refine ⟨hdraw, rows, hplain, hall.imp fun number row hrow => ?_⟩
    obtain ⟨line⟩ := hrow.exists_line
    refine ⟨line, ?_⟩
    rw [hrow.eq line]
    simp only [decide_eq_true_eq]
    split
    · obtain ⟨padding, carets, hcarets, hfacts⟩ := exists_caretRow line.text line.span.start span
      exact ⟨padding, carets, by rw [hcarets], hfacts⟩
    · exact String.append_empty
  · obtain ⟨before, covered, after, htext, hstart, hcovered⟩ :=
      exists_covered hfault hnumber line hstop
    refine ⟨before, covered, after, htext, hstart, hcovered, ?_⟩
    have hone : 1 ≤ number := hnumber ▸ one_le_lineOf fault.span.start
    obtain ⟨-, rows, hplain, hall⟩ := @exists_draw? title source fault.span number number
      (by rw [hnumber, Nat.max_eq_left hone]) (by rw [hlast, Nat.max_self])
    rw [Nat.add_sub_cancel_left, List.range'_one] at hall
    obtain ⟨row, rest, hrow, hrest, rfl⟩ := List.forall₂_cons_left_iff.1 hall
    obtain rfl := List.forall₂_nil_left_iff.1 hrest
    have hbefore : fault.span.start - line.span.start = byteLength before := by omega
    have hrange : fault.span.stop - line.span.start = byteLength before + byteLength covered := by
      omega
    have hcarets : (underline line.text line.span.start fault.span).plain =
        caretRow (blankOut before) (max covered.length 1) := by
      rw [plain_underline, htext, hbefore, hrange, padding_append, caretCount_append]
    rw [hplain, hrow.eq line, if_pos (decide_eq_true rfl), hcarets]
    simp

/-- The tab before an unterminated string is kept, and there is a caret for each of its two
characters. -/
example :
    (parse "x\t= 'é".toList).faults.map (fun fault =>
        (frame "-" "x\t= 'é".toList fault.span).plain) =
      ["    ╭─[STDIN:1]\n  1 │ x\t= 'é\n    │  \t  ^^\n────╯"] := by
  decide +kernel

end

end Frame

end LuaFormatter
