import LuaFormatter.Proofs.Layout.Lines
import LuaFormatter.Proofs.Layout.Words
import Mathlib.Data.List.Basic
import Mathlib.Data.List.TakeWhile

/-!
# What a layout does not look at

A layout measures lines by the width of the output and that of a level of indentation. What a level
is written with and how lines end makes no difference to what it does (`linesOf_congr`); these two
choices only show when the lines are written down. For lines without line feeds in them,
`writeLines_crlf` and `writtenLines` say how.
-/

namespace LuaFormatter

/-- The two styles have the same widths. -/
structure Style.MeasuresLike (style other : Style) : Prop where
  printWidth : other.printWidth = style.printWidth
  indentWidth : other.indentWidth = style.indentWidth

namespace Layout

/-- The two states differ in the output only. -/
structure State.Alike (state other : State) : Prop where
  commands : other.commands = state.commands
  suffixes : other.suffixes = state.suffixes
  column : other.column = state.column
  remeasure : other.remeasure = state.remeasure

/-- States that differ in the output only are one with another output. Counterpart of
`State.Alike`. -/
theorem State.Alike.exists_eq {state other : State} (h : state.Alike other) :
    ∃ output, other = { state with output } := by
  obtain ⟨hcommands, hsuffixes, hcolumn, hremeasure⟩ := h
  obtain ⟨commands, suffixes, output, column, remeasure⟩ := other
  cases hcommands
  cases hsuffixes
  cases hcolumn
  cases hremeasure
  exact ⟨output, rfl⟩

section
variable {style other : Style} (h : style.MeasuresLike other)
include h

/-- Whether a command fits does not depend on the output. Counterpart of `State.fitsNext`. -/
theorem fitsNext_congr (state : State) (output : List Char) (command : Command) :
    State.fitsNext other { state with output } command = state.fitsNext style command := by
  rw [State.fitsNext, State.fitsNext, h.printWidth]

/-- Printing a group differs in the output only. Counterpart of `performGroup`. -/
theorem alike_performGroup (level : Nat) (mode : Mode) (breaks : Bool) (contents : Doc)
    (state : State) (output : List Char) :
    State.Alike (performGroup style level mode breaks contents state)
      (performGroup other level mode breaks contents { state with output }) := by
  have hfits := fitsNext_congr h { state with remeasure := false } output ⟨level, .flat, contents⟩
  dsimp only at hfits
  unfold performGroup
  dsimp only
  rw [hfits]
  by_cases hflat : mode = .flat ∧ ¬state.remeasure = true
  · rw [if_pos hflat, if_pos hflat]
    exact ⟨rfl, rfl, rfl, rfl⟩
  · rw [if_neg hflat, if_neg hflat]
    split <;> exact ⟨rfl, rfl, rfl, rfl⟩

/-- Printing a choice differs in the output only. Counterpart of `performAlternatives`. -/
theorem alike_performAlternatives (level : Nat) (mode : Mode) (breaks : Bool) (options : List Doc)
    (state : State) (output : List Char) :
    State.Alike (performAlternatives style level mode breaks options state)
      (performAlternatives other level mode breaks options { state with output }) := by
  have hfits := fitsNext_congr h { state with remeasure := false } output
  dsimp only at hfits
  unfold performAlternatives
  simp only [hfits]
  split
  · split
    · exact ⟨rfl, rfl, rfl, rfl⟩
    · split
      · exact ⟨rfl, rfl, rfl, rfl⟩
      · split <;> exact ⟨rfl, rfl, rfl, rfl⟩
  · exact ⟨rfl, rfl, rfl, rfl⟩

/-- Printing a line break differs in the output only. Counterpart of `performBreak`. -/
theorem alike_performBreak (command : Command) (state : State) (output : List Char) :
    State.Alike (performBreak style command state)
      (performBreak other command { state with output }) := by
  simp only [performBreak]
  split
  · split
    · exact ⟨rfl, rfl, rfl, rfl⟩
    · exact ⟨rfl, rfl, by simp only [State.breakAt, h.indentWidth], rfl⟩
  · exact ⟨rfl, rfl, rfl, rfl⟩

/-- Printing a command differs in the output only. Counterpart of `perform`. -/
theorem alike_perform (command : Command) (state : State) (output : List Char) :
    State.Alike (perform style command state) (perform other command { state with output }) := by
  obtain ⟨level, mode, doc⟩ := command
  cases doc with
  | group breaks contents => exact alike_performGroup h level mode breaks contents state output
  | alternatives breaks options =>
    exact alike_performAlternatives h level mode breaks options state output
  | softLine | line =>
    simp only [perform]
    split
    · exact ⟨rfl, rfl, rfl, rfl⟩
    · exact alike_performBreak h _ state output
  | hardLine | literalLine => exact alike_performBreak h _ state output
  | empty | text _ | note _ | breakParent | concat _ | indent _ | ifBreak _ _ | suffix _ =>
    exact ⟨rfl, rfl, rfl, rfl⟩

/-- States that differ in the output go on alike. Counterpart of `step`. -/
theorem alike_step {state next : State} (output : List Char)
    (hstep : step style state = some next) :
    ∃ after, step other { state with output } = some { next with output := after } := by
  obtain ⟨command, rest, hcommands, -, rfl⟩ | ⟨hcommands, -, rfl⟩ := step_cases hstep
  · obtain ⟨after, hafter⟩ :=
      (alike_perform h command { state with commands := rest } output).exists_eq
    refine ⟨after, ?_⟩
    simp only [step, hcommands]
    exact congrArg some hafter
  · refine ⟨output, ?_⟩
    simp only [step, hcommands] at hstep ⊢
    split at hstep
    · cases hstep
    · rename_i hsuffixes
      rw [if_neg hsuffixes]
      simp only [State.flush, hcommands]

omit h in
/-- Printing stops with any output where it stops with one. Counterpart of `step`. -/
theorem step_eq_none {state : State} (output : List Char) (hdone : step style state = none) :
    step other { state with output } = none := by
  have hnothing := step_eq_none_iff.1 hdone
  exact step_eq_none_iff.2 hnothing

/-- The events of a run depend on the widths of the style only. Counterpart of `events`. -/
theorem events_congr (state : State) (output : List Char) :
    events other { state with output } = events style state := by
  fun_induction run style state generalizing output with
  | case1 state next hstep ih =>
    obtain ⟨after, hother⟩ := alike_step h output hstep
    rw [events_of_step hstep, events_of_step hother, ih]
    rfl
  | case2 state hdone => rw [events_of_done hdone, events_of_done (step_eq_none output hdone)]

/-- The lines of a layout depend on the widths of the style only. Counterpart of `linesOf`. -/
theorem linesOf_congr (doc : Doc) : linesOf other doc = linesOf style doc := by
  rw [linesOf, linesOf, ← events_congr h (start doc) []]
  rfl

end

/-! ## Line endings -/

/-- A line feed as a carriage return and a line feed. -/
def withReturn (c : Char) : List Char :=
  if c = '\n' then ['\r', '\n'] else [c]

/-- A text without line feeds has no carriage return added. Counterpart of `withReturn`. -/
theorem flatMap_withReturn {text : List Char} (h : '\n' ∉ text) :
    text.flatMap withReturn = text := by
  induction text with
  | nil => rfl
  | cons c rest ih =>
    have hc : c ≠ '\n' := fun heq => h (heq ▸ List.mem_cons_self)
    rw [List.flatMap_cons, ih fun hmem => h (List.mem_cons_of_mem _ hmem), withReturn, if_neg hc]
    rfl

/-- The characters that are dropped at the end of a line. -/
def isPadding (c : Char) : Bool :=
  c == ' ' || c == '\t'

/-- A text without the blanks at its end. -/
def trimPadding (text : List Char) : List Char :=
  (text.reverse.dropWhile isPadding).reverse

/-- Trimming adds no character. Counterpart of `trimPadding`. -/
theorem trimPadding_subset (text : List Char) : trimPadding text ⊆ text := fun _ hmem =>
  List.mem_reverse.1 ((List.dropWhile_suffix isPadding).subset (List.mem_reverse.1 hmem))

/-- Trimming goes back into the front only if everything behind is blank. Counterpart of
`trimPadding`. -/
theorem trimPadding_append (front back : List Char) :
    trimPadding (front ++ back) =
      if back.all isPadding then trimPadding front else front ++ trimPadding back := by
  unfold trimPadding
  rw [List.reverse_append, List.dropWhile_append]
  by_cases hblank : back.all isPadding = true
  · have hnone : back.reverse.dropWhile isPadding = [] := by
      rw [List.dropWhile_eq_nil_iff]
      simpa using hblank
    rw [if_pos hblank, hnone]
    rfl
  · have hsome : back.reverse.dropWhile isPadding ≠ [] := by
      rw [Ne, List.dropWhile_eq_nil_iff]
      simpa using hblank
    rw [if_neg hblank, if_neg (by simpa using hsome), List.reverse_append, List.reverse_reverse]

/-- An indentation is made of blanks. Counterpart of `Style.indentation`. -/
theorem isPadding_of_mem_indentation {style : Style} {level : Nat} {c : Char}
    (h : c ∈ style.indentation level) : isPadding c = true := by
  unfold Style.indentation at h
  split at h <;> rw [List.eq_of_mem_replicate h] <;> rfl

/-- A line has no line feed if its content has none. Counterpart of `PrintedLine.text`. -/
theorem PrintedLine.newline_notMem_text {style : Style} {line : PrintedLine}
    (h : '\n' ∉ line.content) : '\n' ∉ line.text style := by
  rw [PrintedLine.text, List.mem_append]
  rintro (hmem | hmem)
  · exact absurd (isPadding_of_mem_indentation hmem) (by decide)
  · exact h hmem

/-- A line as it stands between two line breaks: its end is trimmed unless a line break as it stands
follows, or nothing does. -/
def PrintedLine.shown (style : Style) (line : PrintedLine) : Option PrintedLine → List Char
  | some next => if next.isLiteral then line.text style else trimPadding (line.text style)
  | none => line.text style

/-- A line as it is shown has no line feed if its content has none. Counterpart of
`PrintedLine.shown`. -/
theorem PrintedLine.newline_notMem_shown {style : Style} {line : PrintedLine}
    (h : '\n' ∉ line.content) (next : Option PrintedLine) : '\n' ∉ line.shown style next := by
  have htext : '\n' ∉ line.text style := newline_notMem_text h
  cases next with
  | none => exact htext
  | some next =>
    rw [shown]
    split
    · exact htext
    · exact fun hmem => htext (trimPadding_subset _ hmem)

/-- A first line is written with its line ending before the next one. Counterpart of
`writeLines`. -/
theorem writeLines_cons_cons (style : Style) (line next : PrintedLine) (rest : List PrintedLine) :
    writeLines style (line :: next :: rest) =
      line.shown style (some next) ++ style.lineEnding.text ++ writeLines style (next :: rest) :=
  rfl

/-- The two line endings differ in the carriage returns. Counterpart of `writeLines`. -/
theorem writeLines_crlf (style : Style) {lines : List PrintedLine}
    (h : ∀ line ∈ lines, '\n' ∉ line.content) :
    writeLines { style with lineEnding := .carriageReturnLineFeed } lines =
      (writeLines { style with lineEnding := .lineFeed } lines).flatMap withReturn := by
  match lines with
  | [] => rfl
  | [line] => exact (flatMap_withReturn (PrintedLine.newline_notMem_text (h line (by simp)))).symm
  | line :: next :: rest =>
    rw [writeLines_cons_cons, writeLines_cons_cons, List.flatMap_append, List.flatMap_append,
      flatMap_withReturn (PrintedLine.newline_notMem_shown (h line (by simp)) _),
      ← writeLines_crlf style fun other hother => h other (List.mem_cons_of_mem _ hother)]
    rfl

/-! ## Indentation -/

/-- A text of blanks is dropped as a whole. Counterpart of `isPadding`. -/
theorem dropWhile_isPadding {text : List Char} (h : text.all isPadding = true) :
    text.dropWhile isPadding = [] :=
  List.dropWhile_eq_nil_iff.2 (List.all_eq_true.1 h)

/-- Blanks are trimmed away. Counterpart of `trimPadding`. -/
theorem trimPadding_eq_nil {text : List Char} (h : text.all isPadding = true) :
    trimPadding text = [] := by
  rw [trimPadding, dropWhile_isPadding (by simpa using h)]
  rfl

/-- An indentation is made of blanks only. Counterpart of `Style.indentation`. -/
theorem all_isPadding_indentation (style : Style) (level : Nat) :
    (style.indentation level).all isPadding = true :=
  List.all_eq_true.2 fun _ => isPadding_of_mem_indentation

namespace PrintedLine

/-- Nothing is left of the line: it is blank, and its end is trimmed. -/
def isTrimmedAway (line : PrintedLine) (next : Option PrintedLine) : Bool :=
  next.any (!·.isLiteral) && line.content.all isPadding

/-- What is shown of a line after its indentation. -/
def shownContent (line : PrintedLine) (next : Option PrintedLine) : List Char :=
  if next.any (!·.isLiteral) then trimPadding line.content else line.content

/-- A line is shown with its indentation, unless nothing is left of it. Counterpart of
`PrintedLine.shown`. -/
theorem shown_eq (style : Style) (line : PrintedLine) (next : Option PrintedLine) :
    line.shown style next =
      if line.isTrimmedAway next then []
      else style.indentation line.level ++ line.shownContent next := by
  unfold isTrimmedAway shownContent
  rcases next with _ | next
  · rfl
  cases hliteral : next.isLiteral with
  | true => simp [shown, hliteral, text]
  | false =>
    simp only [shown, hliteral, text, trimPadding_append, Option.any_some, Bool.not_false,
      Bool.true_and, Bool.false_eq_true, if_false, if_true,
      trimPadding_eq_nil (all_isPadding_indentation style line.level)]

/-- A line that is trimmed away shows nothing. Counterpart of `isTrimmedAway`. -/
theorem shownContent_eq_nil {line : PrintedLine} {next : Option PrintedLine}
    (h : line.isTrimmedAway next = true) : line.shownContent next = [] := by
  obtain ⟨htrimmed, hblank⟩ := Bool.and_eq_true_iff.1 h
  rw [shownContent, if_pos htrimmed, trimPadding_eq_nil hblank]

/-- But for blanks at its start, a line does not show what it is indented with. Counterpart of
`PrintedLine.shown`. -/
theorem dropWhile_shown (style : Style) (line : PrintedLine) (next : Option PrintedLine) :
    (line.shown style next).dropWhile isPadding = (line.shownContent next).dropWhile isPadding := by
  rw [shown_eq]
  split
  · rename_i haway
    rw [shownContent_eq_nil haway]
  · rw [List.dropWhile_append, dropWhile_isPadding (all_isPadding_indentation style line.level)]
    rfl

/-- A line with what stands between it and the line feed. -/
def written (style : Style) (line : PrintedLine) (next : Option PrintedLine) : List Char :=
  line.shown style next ++ if next.isSome then style.lineEnding.text.dropLast else []

/-- With the same line ending a line is the same after its indentation. Counterpart of `written`. -/
theorem dropWhile_written {style other : Style} (h : other.lineEnding = style.lineEnding)
    (line : PrintedLine) (next : Option PrintedLine) :
    (line.written other next).dropWhile isPadding =
      (line.written style next).dropWhile isPadding := by
  simp only [written, List.dropWhile_append, dropWhile_shown, h]

/-- A line with its line ending has no line feed before the end. Counterpart of `written`. -/
theorem newline_notMem_written (style : Style) {line : PrintedLine} (h : '\n' ∉ line.content)
    (next : Option PrintedLine) : '\n' ∉ line.written style next := by
  rw [written, List.mem_append]
  rintro (hmem | hmem)
  · exact newline_notMem_shown h next hmem
  · revert hmem
    cases next.isSome <;> cases style.lineEnding <;> decide

/-- After its indentation, a line that is not trimmed away does not depend on what it is indented
with. Counterpart of `PrintedLine.written`. -/
theorem written_eq (style : Style) {line : PrintedLine} {next : Option PrintedLine}
    (h : line.isTrimmedAway next = false) :
    line.written style next = style.indentation line.level ++
      (line.shownContent next ++ if next.isSome then style.lineEnding.text.dropLast else []) := by
  rw [written, shown_eq, if_neg (by simp [h]), List.append_assoc]

end PrintedLine

/-- The lines of an output, as they stand between the line feeds. -/
def writtenLines (style : Style) : List PrintedLine → List (List Char)
  | [] => []
  | line :: rest => line.written style rest.head? :: writtenLines style rest

@[simp] theorem length_writtenLines (style : Style) (lines : List PrintedLine) :
    (writtenLines style lines).length = lines.length := by
  induction lines with
  | nil => rfl
  | cons line rest ih => simp [writtenLines, ih]

/-- Each line is written for itself, with a look at the next one. Counterpart of `writtenLines`. -/
theorem getElem?_writtenLines (style : Style) (lines : List PrintedLine) (index : Nat) :
    (writtenLines style lines)[index]? =
      lines[index]?.map fun line => line.written style lines[index + 1]? := by
  induction lines generalizing index with
  | nil => rfl
  | cons line rest ih =>
    cases index with
    | zero => simp [writtenLines, List.head?_eq_getElem?]
    | succ index => simpa [writtenLines] using ih index

/-- But for blanks at the start, the lines of an output do not depend on what they are indented
with. Counterpart of `writtenLines`. -/
theorem dropWhile_writtenLines {style other : Style} (h : other.lineEnding = style.lineEnding)
    (lines : List PrintedLine) :
    (writtenLines other lines).map (·.dropWhile isPadding) =
      (writtenLines style lines).map (·.dropWhile isPadding) := by
  induction lines with
  | nil => rfl
  | cons line rest ih =>
    rw [writtenLines, writtenLines, List.map_cons, List.map_cons, ih, line.dropWhile_written h]

/-- A line ending ends with a line feed. Counterpart of `LineEnding.text`. -/
theorem lineEnding_eq (ending : LineEnding) : ending.text = ending.text.dropLast ++ ['\n'] := by
  cases ending <;> rfl

/-- An output is its lines with line feeds between them. Counterpart of `writeLines`. -/
theorem writeLines_eq_intercalate (style : Style) (lines : List PrintedLine) :
    writeLines style lines = ['\n'].intercalate (writtenLines style lines) := by
  match lines with
  | [] => rfl
  | [line] => simp [writeLines, writtenLines, PrintedLine.written, PrintedLine.shown]
  | line :: next :: rest =>
    rw [writeLines_cons_cons, writeLines_eq_intercalate style (next :: rest), lineEnding_eq]
    simp [writtenLines, PrintedLine.written, List.intercalate_cons_cons]

/-- No line of an output holds a line feed. Counterpart of `writtenLines`. -/
theorem newline_notMem_writtenLines (style : Style) {lines : List PrintedLine}
    (h : ∀ line ∈ lines, '\n' ∉ line.content) : ∀ text ∈ writtenLines style lines, '\n' ∉ text := by
  induction lines with
  | nil => nofun
  | cons line rest ih =>
    obtain ⟨hline, hrest⟩ := List.forall_mem_cons.1 h
    exact List.forall_mem_cons.2 ⟨PrintedLine.newline_notMem_written style hline _, ih hrest⟩

/-- Cut at its line feeds, an output is made of its lines. Counterpart of `writeLines`. -/
theorem splitOn_writeLines (style : Style) {lines : List PrintedLine} (hne : lines ≠ [])
    (h : ∀ line ∈ lines, '\n' ∉ line.content) :
    (writeLines style lines).splitOn '\n' = writtenLines style lines := by
  rw [writeLines_eq_intercalate]
  refine List.splitOn_intercalate _ (newline_notMem_writtenLines style h) ?_
  rw [← List.length_pos_iff, length_writtenLines, List.length_pos_iff]
  exact hne

/-! ## The characters of a line -/

/-- The ink is no line feed that is written as a character. -/
def Ink.IsPlain (ink : Ink) : Prop :=
  ∀ isNote, ink ≠ .char isNote '\n'

/-- The property holds of all inks of a word, also of those that are put off. -/
inductive Inked (Q : Ink → Prop) : List Mark → Prop
  | nil : Inked Q []
  | ink {ink : Ink} {word : List Mark} : Q ink → Inked Q word → Inked Q (.ink ink :: word)
  | later {marks word : List Mark} : Inked Q marks → Inked Q word → Inked Q (.later marks :: word)

section
variable {Q : Ink → Prop} {front back queue word : List Mark} {inks : List Ink}

/-- A property of the inks of two words holds of their product. Counterpart of `Inked`. -/
theorem Inked.append (hfront : Inked Q front) (hback : Inked Q back) : Inked Q (front ++ back) := by
  induction hfront with
  | nil => exact hback
  | ink hink _ ih => exact .ink hink ih
  | later hmarks _ _ ih => exact .later hmarks ih

/-- What is put off is written later, but nothing else is. Counterpart of `Flushed`. -/
theorem Flushed.inked (h : Flushed queue word inks) (hqueue : Inked Q queue)
    (hword : Inked Q word) :
    ∀ ink ∈ inks, Q ink := by
  induction h with
  | done => nofun
  | last _ _ ih => exact ih .nil hqueue
  | char isNote c _ ih | break_ _ _ ih =>
    cases hword with
    | ink hink hword => exact List.forall_mem_cons.2 ⟨hink, ih hqueue hword⟩
  | later _ ih =>
    cases hword with
    | later hmarks hword => exact ih (hqueue.append hmarks) hword
  | flush _ _ _ ih => exact ih .nil (hqueue.append hword)

end

/-- The characters of a line are those of the events that write it. Counterpart of `linesFrom`. -/
theorem mem_content_linesFrom {start line : PrintedLine} {rest : List Event} {c : Char}
    (hline : line ∈ linesFrom start rest) (hc : c ∈ line.content) :
    c ∈ start.content ∨ ∃ isNote, Event.ink (.char isNote c) ∈ rest := by
  fun_induction linesFrom start rest with
  | case1 start =>
    obtain rfl := List.mem_singleton.1 hline
    exact .inl hc
  | case2 start rest ih =>
    obtain h | ⟨isNote, h⟩ := ih hline
    · exact .inl h
    · exact .inr ⟨isNote, List.mem_cons_of_mem _ h⟩
  | case3 start isNote d rest ih =>
    obtain h | ⟨other, h⟩ := ih hline
    · rcases List.mem_append.1 h with h | h
      · exact .inl h
      · obtain rfl := List.mem_singleton.1 h
        exact .inr ⟨isNote, List.mem_cons_self⟩
    · exact .inr ⟨other, List.mem_cons_of_mem _ h⟩
  | case4 start ink rest hink ih =>
    rcases List.mem_cons.1 hline with rfl | hline
    · exact .inl hc
    · obtain h | ⟨other, h⟩ := ih hline
      · cases ink with
        | char isNote d => exact absurd rfl (hink isNote d)
        | newline level | literal => cases h
      · exact .inr ⟨other, List.mem_cons_of_mem _ h⟩

/-- The characters of the lines of a layout are those that it writes. Counterpart of `linesOf`. -/
theorem mem_traceOf_of_mem_content {style : Style} {doc : Doc} {line : PrintedLine} {c : Char}
    (hline : line ∈ linesOf style doc) (hc : c ∈ line.content) :
    ∃ isNote, Ink.char isNote c ∈ traceOf style doc := by
  obtain h | ⟨isNote, h⟩ := mem_content_linesFrom hline hc
  · cases h
  · rw [traceOf, ← inks_events]
    exact ⟨isNote, List.mem_filterMap.2 ⟨_, h, rfl⟩⟩

/-- An output has at least one line. Counterpart of `linesOf`. -/
theorem linesOf_ne_nil (style : Style) (doc : Doc) : linesOf style doc ≠ [] := by
  obtain ⟨first, others, hlines, -⟩ :=
    exists_linesFrom ⟨true, 0, [], false⟩ (events style (start doc))
  rw [linesOf, hlines]
  exact List.cons_ne_nil first others

end Layout

end LuaFormatter
