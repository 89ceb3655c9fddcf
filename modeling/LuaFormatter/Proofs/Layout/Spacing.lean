import LuaFormatter.Proofs.Layout.Cosmetic
import LuaFormatter.Source.Blank
import Mathlib.Data.List.Chain

/-!
# Blank lines

Line breaks come from many parts of a document, and from parts that are put off, so that no part can
see by itself how many of them meet. `Spaced` counts the line breaks that may still come before the
next character that is no blank: two after such a character, none at the start. What is put off must
stand where there is room for two, since it is written before a line break that may come later
(`Flushed.spaced`). The lines of such a trace have no blank one at the start or the end, and never
two in a row (`exists_tidyLines`).
-/

namespace LuaFormatter.Layout

/-- The word has at most as many line breaks before its first character that is no blank as there is
room for, at most two between such characters, and none after the last. What is put off stands after
such a character, and is such a word itself. -/
inductive Spaced : Nat → List Mark → Prop
  | nil {room : Nat} : 2 ≤ room → Spaced room []
  | solid {room : Nat} {isNote : Bool} {c : Char} {word : List Mark} : isBlank c = false →
    Spaced 2 word → Spaced room (.ink (.char isNote c) :: word)
  | blank {room : Nat} {isNote : Bool} {c : Char} {word : List Mark} : isBlank c = true →
    Spaced room word → Spaced room (.ink (.char isNote c) :: word)
  | newline {room level : Nat} {word : List Mark} : Spaced room word →
    Spaced (room + 1) (.ink (.newline level) :: word)
  | later {room : Nat} {marks word : List Mark} : 2 ≤ room → Spaced 2 marks → Spaced room word →
    Spaced room (.later marks :: word)

namespace Spaced

variable {room more : Nat} {front back queue word : List Mark} {inks : List Ink}

/-- Where there is room for line breaks there is for fewer. Counterpart of `Spaced`. -/
theorem mono (h : Spaced room word) (hle : room ≤ more) : Spaced more word := by
  induction h generalizing more with
  | nil htwo => exact .nil (by omega)
  | solid hc hword _ => exact .solid hc hword
  | blank hc _ ih => exact .blank hc (ih hle)
  | newline _ ih =>
    obtain ⟨less, rfl⟩ : ∃ less, more = less + 1 := ⟨more - 1, by omega⟩
    exact .newline (ih (by omega))
  | later htwo hmarks _ _ ih => exact .later (by omega) hmarks (ih hle)

/-- Words one after the other are spaced, since the first leaves room for two line breaks.
Counterpart of `Spaced`. -/
theorem append (hfront : Spaced room front) (hback : Spaced 2 back) :
    Spaced room (front ++ back) := by
  induction hfront with
  | nil htwo => exact hback.mono htwo
  | solid hc _ ih => exact .solid hc ih
  | blank hc _ ih => exact .blank hc ih
  | newline _ ih => exact .newline ih
  | later htwo hmarks _ _ ih => exact .later htwo hmarks ih

end Spaced

/-- Putting parts off to the end of their line keeps a word spaced. Counterpart of `Flushed`. -/
theorem Flushed.spaced {queue word : List Mark} {inks : List Ink} (h : Flushed queue word inks)
    {room : Nat} (hroom : room ≤ 2) (hpending : queue ≠ [] → room = 2) (hqueue : Spaced 2 queue)
    (hword : Spaced room word) : Spaced room (Mark.ofInks inks) := by
  induction h generalizing room with
  | done => exact hword
  | last hne _ ih =>
    obtain rfl := hpending hne
    exact ih hroom (fun _ => rfl) (.nil (Nat.le_refl 2)) hqueue
  | char isNote c _ ih =>
    cases hword with
    | solid hc hword => exact .solid hc (ih (Nat.le_refl 2) (fun _ => rfl) hqueue hword)
    | blank hc hword => exact .blank hc (ih hroom hpending hqueue hword)
  | later _ ih =>
    cases hword with
    | later htwo hmarks hword => exact ih hroom (fun _ => by omega) (hqueue.append hmarks) hword
  | break_ hbreak _ ih =>
    cases hword with
    | solid => cases hbreak
    | blank => cases hbreak
    | newline hword => exact .newline (ih (by omega) (fun hne => absurd rfl hne) hqueue hword)
  | flush _ hne _ ih =>
    obtain rfl := hpending hne
    exact ih hroom (fun _ => rfl) (.nil (Nat.le_refl 2)) (hqueue.append hword)

/-! ## The lines of a spaced trace -/

/-- The line holds nothing but blanks. -/
def PrintedLine.isBlank (line : PrintedLine) : Bool :=
  line.content.all LuaFormatter.isBlank

/-- The first and the last item are not blank, and of two neighbours at most one is. -/
structure WellSpaced {α : Type} (isBlank : α → Bool) (items : List α) : Prop where
  first : ∀ item ∈ items.head?, isBlank item = false
  last : ∀ item ∈ items.getLast?, isBlank item = false
  apart : items.IsChain fun item next => isBlank item = false ∨ isBlank next = false

/-- What keeps blank items blank keeps a list well spaced. Counterpart of `WellSpaced`. -/
theorem WellSpaced.map {α β : Type} {isBlank : α → Bool} {isBlankToo : β → Bool} {items : List α}
    (h : WellSpaced isBlank items) {f : α → β} (hf : ∀ item, isBlankToo (f item) = isBlank item) :
    WellSpaced isBlankToo (items.map f) where
  first := by simpa [hf] using h.first
  last := by simpa [hf] using h.last
  apart := by simpa [List.isChain_map, hf] using h.apart

section
variable {room : Nat} {line : PrintedLine} {inks : List Ink}

/-- A line with one more character is blank if it was and the character is. Counterpart of
`PrintedLine.isBlank`. -/
theorem isBlank_content_append (line : PrintedLine) (c : Char) :
    PrintedLine.isBlank { line with content := line.content ++ [c] } =
      (line.isBlank && LuaFormatter.isBlank c) := by
  simp [PrintedLine.isBlank]

/-- The first line of a trace goes on with a line, so it is not blank if that is not. Counterpart of
`linesFrom`. -/
theorem isBlank_first (line : PrintedLine) {rest : List Event} (h : line.isBlank = false) :
    ∀ first ∈ (linesFrom line rest).head?, first.isBlank = false := by
  fun_induction linesFrom line rest with
  | case1 line => simpa using h
  | case2 line rest ih => exact ih h
  | case3 line isNote c rest ih => exact ih (by rw [isBlank_content_append, h, Bool.false_and])
  | case4 line ink rest => simpa using h

/-- The lines of a trace, of which the first goes on with a line that is not blank unless there is
no room for two line breaks after it. Counterpart of `linesFrom`. -/
theorem Spaced.lines (h : Spaced room (Mark.ofInks inks)) (line : PrintedLine) (hroom : room ≤ 2)
    (hline : 2 ≤ room → line.isBlank = false) :
    let lines := linesFrom line (inks.map .ink)
    (room = 0 → ∀ first ∈ lines.head?, first.isBlank = false) ∧
      (∀ last ∈ lines.getLast?, last.isBlank = false) ∧
      (lines.IsChain fun line next => line.isBlank = false ∨ next.isBlank = false) ∧
      ∀ other ∈ lines.tail, other.isLiteral = false := by
  generalize hword : Mark.ofInks inks = word at h
  induction h generalizing inks line with
  | nil htwo =>
    obtain rfl : inks = [] := by simpa [Mark.ofInks] using hword
    simp [linesFrom, hline htwo]
  | @solid room isNote c word hc _ ih =>
    obtain ⟨ink, rest, rfl, hink, rfl⟩ := List.map_eq_cons_iff.1 hword
    cases hink
    have hsolid : PrintedLine.isBlank { line with content := line.content ++ [c] } = false := by
      rw [isBlank_content_append, hc, Bool.and_false]
    obtain ⟨-, hrest⟩ := @ih rest { line with content := line.content ++ [c] } (Nat.le_refl 2)
      (fun _ => hsolid) rfl
    exact ⟨fun _ => isBlank_first { line with content := line.content ++ [c] } hsolid, hrest⟩
  | @blank room isNote c word hc _ ih =>
    obtain ⟨ink, rest, rfl, hink, rfl⟩ := List.map_eq_cons_iff.1 hword
    cases hink
    exact @ih rest { line with content := line.content ++ [c] } hroom
      (fun htwo => by rw [isBlank_content_append, hline htwo, Bool.false_and]) rfl
  | @newline room level word _ ih =>
    obtain ⟨ink, rest, rfl, hink, rfl⟩ := List.map_eq_cons_iff.1 hword
    cases hink
    obtain ⟨hfirst, hlast, hchain, htail⟩ := @ih rest (.after (.newline level)) (by omega)
      (fun htwo => by omega) rfl
    obtain ⟨first, others, hlines, hliteral⟩ :=
      exists_linesFrom (.after (.newline level)) (rest.map .ink)
    have heq : linesFrom line ((Ink.newline level :: rest).map .ink) = line :: first :: others := by
      rw [← hlines]
      rfl
    rw [hlines] at hfirst hlast hchain htail
    dsimp only
    rw [heq]
    refine ⟨fun hzero => by omega, by simpa using hlast, ?_, ?_⟩
    · refine List.isChain_cons_cons.2 ⟨?_, hchain⟩
      -- After a blank line there was room for one line break only, which is this one.
      cases hblank : line.isBlank with
      | false => exact .inl rfl
      | true =>
        refine .inr (hfirst ?_ first rfl)
        refine Nat.eq_zero_of_not_pos fun hpos => ?_
        rw [hline (by omega)] at hblank
        cases hblank
    · exact List.forall_mem_cons.2 ⟨hliteral, htail⟩
  | later =>
    obtain ⟨ink, rest, rfl, hink, rfl⟩ := List.map_eq_cons_iff.1 hword
    cases hink

end

/-! ## The text of a spaced trace -/

/-- The lines of a tidy text: no blanks at their ends, no blank line first or last, and never two in
a row. -/
structure TidyLines (lines : List (List Char)) : Prop where
  oneLine : ∀ line ∈ lines, '\n' ∉ line
  trimmed : ∀ line ∈ lines, ∀ c ∈ line.getLast?, c ≠ ' ' ∧ c ≠ '\t'
  spaced : WellSpaced (·.all LuaFormatter.isBlank) lines

/-- A text without lines is tidy. Counterpart of `TidyLines`. -/
theorem tidyLines_nil : TidyLines [] :=
  ⟨nofun, nofun, nofun, nofun, .nil⟩

/-- What is trimmed at the end of a line is blank. Counterpart of `isPadding`. -/
theorem isBlank_of_isPadding {c : Char} (h : isPadding c = true) :
    LuaFormatter.isBlank c = true := by
  simp only [isPadding, Bool.or_eq_true, beq_iff_eq] at h
  rcases h with rfl | rfl <;> decide

/-- A line of characters that are trimmed is blank. Counterpart of `isPadding`. -/
theorem all_isBlank_of_all_isPadding {text : List Char} (h : text.all isPadding = true) :
    text.all LuaFormatter.isBlank = true :=
  List.all_eq_true.2 fun c hc => isBlank_of_isPadding (List.all_eq_true.1 h c hc)

/-- Trimming leaves a line blank or not. Counterpart of `trimPadding`. -/
theorem all_isBlank_trimPadding (text : List Char) :
    (trimPadding text).all LuaFormatter.isBlank = text.all LuaFormatter.isBlank := by
  have hsplit := List.takeWhile_append_dropWhile (p := isPadding) (l := text.reverse)
  have hfront := all_isBlank_of_all_isPadding
    (List.all_takeWhile (p := isPadding) (l := text.reverse))
  have hall : text.all LuaFormatter.isBlank =
      (text.reverse.takeWhile isPadding ++ text.reverse.dropWhile isPadding).all
        LuaFormatter.isBlank := by
    rw [hsplit, List.all_reverse]
  rw [hall, List.all_append, hfront, Bool.true_and, trimPadding, List.all_reverse]

/-- A trimmed line ends with neither a space nor a tab. Counterpart of `trimPadding`. -/
theorem getLast?_trimPadding {text : List Char} :
    ∀ c ∈ (trimPadding text).getLast?, c ≠ ' ' ∧ c ≠ '\t' := by
  intro c hc
  rw [trimPadding, List.getLast?_reverse] at hc
  have hstop := List.head?_dropWhile_not isPadding text.reverse
  rw [Option.mem_def.1 hc] at hstop
  simpa [isPadding] using hstop

/-- A line is blank as it is printed if its content is, since an indentation is made of blanks.
Counterpart of `PrintedLine.isBlank`. -/
theorem PrintedLine.all_isBlank_trimmed (style : Style) (line : PrintedLine) :
    (trimPadding (line.text style)).all LuaFormatter.isBlank = line.isBlank := by
  rw [all_isBlank_trimPadding, text, List.all_append,
    all_isBlank_of_all_isPadding (all_isPadding_indentation style line.level), Bool.true_and]
  rfl

/-- Lines that an empty one follows are written with a line ending each. Counterpart of
`writeLines`. -/
theorem writeLines_concat (style : Style) {lines : List PrintedLine}
    (h : ∀ line ∈ lines.tail, line.isLiteral = false) :
    writeLines style (lines ++ [⟨false, 0, [], false⟩]) =
      (lines.map fun line => trimPadding (line.text style)).flatMap
      (· ++ style.lineEnding.text) := by
  match lines with
  | [] => simp [writeLines, PrintedLine.text]
  | [line] => simp [writeLines_cons_cons, PrintedLine.shown, writeLines, PrintedLine.text]
  | line :: next :: rest =>
    have hrest : ∀ other ∈ (next :: rest).tail, other.isLiteral = false :=
      fun other hother => h other (List.mem_cons_of_mem next hother)
    rw [List.cons_append, List.cons_append, writeLines_cons_cons, ← List.cons_append,
      writeLines_concat style hrest]
    simp [PrintedLine.shown, h next (by simp)]

/-- A line break at the end starts an empty line. Counterpart of `linesFrom`. -/
theorem linesFrom_newline (line : PrintedLine) (inks : List Ink) (level : Nat) :
    linesFrom line ((inks ++ [Ink.newline level]).map Event.ink) =
      linesFrom line (inks.map .ink) ++ [⟨false, level, [], false⟩] := by
  induction inks generalizing line with
  | nil => rfl
  | cons ink rest ih =>
    cases ink with
    | char isNote c => exact ih _
    | newline | literal => exact congrArg (line :: ·) (ih _)

/-- What a spaced trace and a line break at the end leave on paper are tidy lines. Counterpart of
`TidyLines`. -/
theorem exists_tidyLines (style : Style) {inks : List Ink} (h : Spaced 0 (Mark.ofInks inks))
    (hplain : ∀ ink ∈ inks, ink.IsPlain) :
    ∃ lines, render style (inks ++ [Ink.newline 0]) = lines.flatMap (· ++ style.lineEnding.text) ∧
      TidyLines lines := by
  have hrender : render style (inks ++ [Ink.newline 0]) =
      writeLines style (linesFrom ⟨true, 0, [], false⟩
        ((inks ++ [Ink.newline 0]).map Event.ink)) := by
    have hput := @foldl_put_events style ⟨true, 0, [], false⟩
      ((inks ++ [Ink.newline 0]).map Event.ink) [] (by simp)
    rw [filterMap_ink_map] at hput
    simpa [render, PrintedLine.text] using hput
  obtain ⟨hfirst, hlast, hchain, htail⟩ := h.lines ⟨true, 0, [], false⟩ (by omega) (by omega)
  have hspaced : WellSpaced PrintedLine.isBlank (linesFrom ⟨true, 0, [], false⟩ (inks.map .ink)) :=
    ⟨hfirst rfl, hlast, hchain⟩
  rw [hrender, linesFrom_newline, writeLines_concat style htail]
  refine ⟨_, rfl, ?_, ?_, hspaced.map (PrintedLine.all_isBlank_trimmed style)⟩
  · intro text htext hmem
    obtain ⟨line, hline, rfl⟩ := List.mem_map.1 htext
    have hcontent : '\n' ∉ line.content → '\n' ∉ line.text style := PrintedLine.newline_notMem_text
    refine hcontent (fun hcontent => ?_) (trimPadding_subset _ hmem)
    obtain hstart | ⟨isNote, hink⟩ := mem_content_linesFrom hline hcontent
    · cases hstart
    · obtain ⟨ink, hink, heq⟩ := List.mem_map.1 hink
      cases heq
      exact hplain _ hink isNote rfl
  · intro text htext
    obtain ⟨line, -, rfl⟩ := List.mem_map.1 htext
    exact getLast?_trimPadding

end LuaFormatter.Layout
