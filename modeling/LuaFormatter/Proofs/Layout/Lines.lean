import LuaFormatter.Proofs.Layout.Trace

/-!
# The lines of a layout

The trace of a layout does not show where a line was left flat, since a soft one writes nothing
then. `events` adds a `joint` there, and `linesOf` cuts the events of a layout at the line breaks. A
`PrintedLine` keeps what was written on a line before its end was trimmed, so its width is what the
layout has counted. `Doc.layout_eq_writeLines` says that the output is made of these lines.
-/

namespace LuaFormatter.Layout

/-- What happens on paper: an ink is written, or a line is left flat. -/
inductive Event where
  | ink (ink : Ink)
  | joint

/-- The ink of an event. -/
def Event.ink? : Event → Option Ink
  | .ink written => some written
  | .joint => none

/-- The events of a text. -/
def Event.ofText (isNote : Bool) (content : List Char) : List Event :=
  (Ink.ofText isNote content).map .ink

/-- The events of performing a command. -/
def commandEvents (command : Command) (state : State) : List Event :=
  match command.doc, command.mode with
  | .softLine, .flat | .line, .flat => .joint :: (commandInks command state).map .ink
  | _, _ => (commandInks command state).map .ink

/-- The events of the next step. -/
def stepEvents (state : State) : List Event :=
  match state.commands with
  | command :: _ => commandEvents command state
  | [] => []

/-- The events of a run. -/
def events (style : Style) (state : State) : List Event :=
  match _stepped : step style state with
  | some next => stepEvents state ++ events style next
  | none => []
termination_by state.weight
decreasing_by exact weight_step_lt _stepped

section
variable {style : Style} {state : State}

/-- The events of a run are those of its first step and those of the rest. Counterpart of
`events`. -/
theorem events_of_step {next : State} (h : step style state = some next) :
    events style state = stepEvents state ++ events style next := by
  rw [events]
  split
  · rename_i other hother
    cases h.symm.trans hother
    rfl
  · rename_i hnone
    cases h.symm.trans hnone

/-- Nothing happens after the last step. Counterpart of `events`. -/
theorem events_of_done (h : step style state = none) : events style state = [] := by
  rw [events]
  split
  · rename_i other hother
    cases h.symm.trans hother
  · rfl

/-- The inks of inks as events. Counterpart of `Event.ink?`. -/
theorem filterMap_ink_map (inks : List Ink) : (inks.map Event.ink).filterMap Event.ink? = inks := by
  rw [List.filterMap_map]
  exact List.filterMap_some

/-- The inks among the events of a step are the inks of the step. Counterpart of `stepInks`. -/
theorem inks_stepEvents (state : State) :
    (stepEvents state).filterMap Event.ink? = stepInks state := by
  unfold stepEvents stepInks
  cases state.commands with
  | nil => rfl
  | cons command rest =>
    dsimp only
    unfold commandEvents
    split
    · exact (List.filterMap_cons_none rfl).trans (filterMap_ink_map _)
    · exact (List.filterMap_cons_none rfl).trans (filterMap_ink_map _)
    · exact filterMap_ink_map _

/-- The events of a run show its trace. Counterpart of `events`. -/
theorem inks_events (style : Style) (state : State) :
    (events style state).filterMap Event.ink? = trace style state := by
  fun_induction run style state with
  | case1 state next hstep ih =>
    rw [events_of_step hstep, trace_of_step hstep, List.filterMap_append, inks_stepEvents, ih]
  | case2 state hdone => rw [events_of_done hdone, trace_of_done hdone]; rfl

end

/-! ## Lines -/

/-- A line as it was written, before its end was trimmed. -/
structure PrintedLine where
  /-- It starts with a line break as it stands. -/
  isLiteral : Bool
  /-- The level of its indentation. -/
  level : Nat
  /-- What is written after the indentation. -/
  content : List Char
  /-- A line of the document was left flat on it. -/
  hasJoint : Bool

namespace PrintedLine

/-- The width of the indentation and of what comes after it. -/
def width (style : Style) (line : PrintedLine) : Nat :=
  line.level * style.indentWidth + line.content.length

/-- The indentation and what comes after it. -/
def text (style : Style) (line : PrintedLine) : List Char :=
  style.indentation line.level ++ line.content

/-- A line that a break starts. -/
def after (ink : Ink) : PrintedLine :=
  match ink with
  | .newline level => ⟨false, level, [], false⟩
  | _ => ⟨true, 0, [], false⟩

end PrintedLine

/-- The lines of events, of which the first goes on with a line. -/
def linesFrom (line : PrintedLine) : List Event → List PrintedLine
  | [] => [line]
  | .joint :: rest => linesFrom { line with hasJoint := true } rest
  | .ink (.char _ c) :: rest => linesFrom { line with content := line.content ++ [c] } rest
  | .ink ink :: rest => line :: linesFrom (.after ink) rest

/-- The lines of a layout. -/
def linesOf (style : Style) (doc : Doc) : List PrintedLine :=
  linesFrom ⟨true, 0, [], false⟩ (events style (start doc))

/-- Lines one after the other, trimmed at the end but for those before a line break as it stands and
the last one. -/
def writeLines (style : Style) : List PrintedLine → List Char
  | [] => []
  | [line] => line.text style
  | line :: next :: rest =>
    let text := line.text style
    (if next.isLiteral then text else (text.reverse.dropWhile fun c =>
      c == ' ' || c == '\t').reverse) ++ style.lineEnding.text ++ writeLines style (next :: rest)

/-- A text goes to the end of the line. Counterpart of `Event.ofText`. -/
theorem linesFrom_ofText (line : PrintedLine) (isNote : Bool) (content : List Char)
    (rest : List Event) :
    linesFrom line (Event.ofText isNote content ++ rest) =
      linesFrom { line with content := line.content ++ content } rest := by
  induction content generalizing line with
  | nil =>
    rw [List.append_nil]
    rfl
  | cons c content ih =>
    refine (ih { line with content := line.content ++ [c] }).trans ?_
    rw [List.append_assoc]
    rfl

/-- The first line of events starts as the line that they go on with. Counterpart of `linesFrom`. -/
theorem exists_linesFrom (line : PrintedLine) (rest : List Event) :
    ∃ first others, linesFrom line rest = first :: others ∧ first.isLiteral = line.isLiteral := by
  fun_induction linesFrom line rest with
  | case1 line => exact ⟨line, [], rfl, rfl⟩
  | case2 line rest ih => exact ih
  | case3 line _ c rest ih => exact ih
  | case4 line ink rest => exact ⟨line, _, rfl, rfl⟩

/-- A line is written with its line ending, and trimmed unless the next one comes after a line break
as it stands. Counterpart of `writeLines`. -/
theorem writeLines_cons (style : Style) (line next : PrintedLine) (rest : List Event) :
    writeLines style (line :: linesFrom next rest) =
      (if next.isLiteral then line.text style
        else ((line.text style).reverse.dropWhile fun c => c == ' ' || c == '\t').reverse) ++
        style.lineEnding.text ++ writeLines style (linesFrom next rest) := by
  obtain ⟨first, others, hlines, hliteral⟩ := exists_linesFrom next rest
  rw [hlines, writeLines, hliteral]

/-- An indentation is the same from its end. Counterpart of `Style.indentation`. -/
theorem reverse_indentation (style : Style) (level : Nat) :
    (style.indentation level).reverse = style.indentation level := by
  unfold Style.indentation
  split <;> exact List.reverse_replicate

/-- Trimming the end of a line does not go back past its start. Counterpart of `Ink.put` at a line
break. -/
theorem dropWhile_append_ended (text : List Char) {ended : List Char}
    (hended : ∀ c ∈ ended.head?, c = '\n') :
    (text ++ ended).dropWhile (fun c => c == ' ' || c == '\t') =
      text.dropWhile (fun c => c == ' ' || c == '\t') ++ ended := by
  rw [List.dropWhile_append]
  split
  · rename_i hblank
    have hstop : ended.dropWhile (fun c => c == ' ' || c == '\t') = ended := by
      cases ended with
      | nil => rfl
      | cons c ended =>
        rw [hended c rfl]
        rfl
    rw [hstop, List.isEmpty_iff.1 hblank, List.nil_append]
  · rfl

@[simp] theorem indentation_zero (style : Style) : style.indentation 0 = [] := by
  unfold Style.indentation
  split <;> simp

/-- Writing the lines of events down is rendering their inks, after an output that has ended a line.
Counterpart of `linesFrom`. -/
theorem foldl_put_events (style : Style) (line : PrintedLine) (rest : List Event)
    {ended : List Char} (hended : ∀ c ∈ ended.head?, c = '\n') :
    ((rest.filterMap Event.ink?).foldl (Ink.put style)
        ((line.text style).reverse ++ ended)).reverse =
      ended.reverse ++ writeLines style (linesFrom line rest) := by
  have hnext : ∀ output, ∀ c ∈ (style.lineEnding.text.reverse ++ output).head?, c = '\n' := by
    intro output c hc
    cases hending : style.lineEnding <;> simp_all [LineEnding.text] <;> exact hc.symm
  fun_induction linesFrom line rest generalizing ended with
  | case1 line => simp [writeLines]
  | case2 line rest ih => exact ih hended
  | case3 line isNote c rest ih =>
    have hput : Ink.put style ((line.text style).reverse ++ ended) (.char isNote c) =
        (PrintedLine.text style { line with content := line.content ++ [c] }).reverse ++ ended := by
      simp [Ink.put, PrintedLine.text]
    show ((rest.filterMap Event.ink?).foldl _ (Ink.put style _ (.char isNote c))).reverse = _
    rw [hput]
    exact ih hended
  | case4 line ink rest hink ih =>
    show ((rest.filterMap Event.ink?).foldl _ (Ink.put style _ ink)).reverse = _
    rw [writeLines_cons]
    cases ink with
    | char isNote c => exact absurd rfl (hink isNote c)
    | newline level =>
      have hput : Ink.put style ((line.text style).reverse ++ ended) (.newline level) =
          (PrintedLine.text style (.after (.newline level))).reverse ++
          (style.lineEnding.text.reverse ++
            ((line.text style).reverse.dropWhile (fun c => c == ' ' || c == '\t') ++ ended)) := by
        rw [Ink.put, dropWhile_append_ended _ hended]
        simp [PrintedLine.text, PrintedLine.after, reverse_indentation]
      rw [hput, ih (hnext _)]
      simp [PrintedLine.after]
    | literal =>
      have hput : Ink.put style ((line.text style).reverse ++ ended) .literal =
          (PrintedLine.text style (.after .literal)).reverse ++
            (style.lineEnding.text.reverse ++ ((line.text style).reverse ++ ended)) := by
        simp [Ink.put, PrintedLine.text, PrintedLine.after]
      rw [hput, ih (hnext _)]
      simp [PrintedLine.after]

end LuaFormatter.Layout

namespace LuaFormatter

open Layout

/-- The output of a layout is made of its lines. Counterpart of `Doc.layout`. -/
theorem Doc.layout_eq_writeLines (style : Style) (doc : Doc) :
    doc.layout style = writeLines style (linesOf style doc) := by
  rw [layout_eq_render, traceOf, ← inks_events, render]
  have hlines :=
    @foldl_put_events style ⟨true, 0, [], false⟩ (events style (start doc)) [] (by simp)
  simpa [PrintedLine.text, linesOf] using hlines

end LuaFormatter
