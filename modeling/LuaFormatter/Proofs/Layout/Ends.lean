import Mathlib.Computability.StateTransition
import Mathlib.Data.List.Find
import LuaFormatter.Proofs.Layout.Measure
import LuaFormatter.Proofs.Layout.Width

/-!
# The end of a layout

A layout is a loop with another one inside. A round of the outer loop is a `step`. A line break that
comes while something is put off is still there after its round: it waits behind all that was put
off, which may hold line breaks of its own and put more off. So what is left to be printed may grow.
What shrinks in every round is the weight of the state (`weight_step_lt`), since it counts a part
that is put off as much as one that is left, and one more for taking it up.

The inner loop finds out whether a command fits. `Measuring` follows it through the command, and
then through those that come after it one by one, up to a line break. It stops with the answer of
`fits` (`exists_measured`). `Asks` says what a step has measured: what the step does depends on the
print width through the answers only (`step_of_answers`).

Each loop takes at most two rounds for each constructor of the document (`Doc.layout_ends`).
-/

namespace LuaFormatter

namespace Layout

open StateTransition

/-! ## Loops -/

/-- A loop comes from a state to a last one, where it stops, in a number of rounds at most. -/
structure StopsWithin {σ : Type} (next? : σ → Option σ) (rounds : Nat) (state last : σ) : Prop where
  comes : Nonempty (EvalsToInTime next? state (some last) rounds)
  stops : next? last = none

section
variable {σ : Type} {next? : σ → Option σ} {rounds : Nat} {state next last : σ}

/-- A loop that stops in some rounds stops in more. Counterpart of `StopsWithin`. -/
theorem StopsWithin.mono {more : Nat} (h : StopsWithin next? rounds state last)
    (hle : rounds ≤ more) :
    StopsWithin next? more state last := by
  obtain ⟨⟨hcomes⟩, hstops⟩ := h
  exact ⟨⟨hcomes.toEvalsTo, hcomes.steps_le_m.trans hle⟩, hstops⟩

/-- A loop that has stopped takes no rounds. Counterpart of `StopsWithin`. -/
theorem StopsWithin.done (h : next? state = none) : StopsWithin next? 0 state state :=
  ⟨⟨.refl next? state⟩, h⟩

/-- One more round in front. Counterpart of `StopsWithin`. -/
theorem StopsWithin.round (hround : next? state = some next)
    (h : StopsWithin next? rounds next last) :
    StopsWithin next? (rounds + 1) state last := by
  obtain ⟨⟨hcomes⟩, hstops⟩ := h
  have hone : EvalsToInTime next? state (some next) 1 := ⟨⟨1, hround⟩, Nat.le_refl 1⟩
  exact ⟨⟨.trans next? 1 rounds state next _ hone hcomes⟩, hstops⟩

/-- A loop that makes its state lighter in every round stops, after at most as many rounds as the
state weighs at first. What no round changes is the same in the end. Counterpart of
`StopsWithin`. -/
theorem exists_last {β : Type} (weight : σ → Nat) (kept : σ → β)
    (hlt : ∀ {state next}, next? state = some next → weight next < weight state)
    (hkept : ∀ {state next}, next? state = some next → kept next = kept state) (state : σ) :
    ∃ last, StopsWithin next? (weight state) state last ∧ kept last = kept state := by
  induction hweight : weight state using Nat.strongRecOn generalizing state with
  | _ n ih =>
    subst hweight
    cases hround : next? state with
    | none => exact ⟨state, (StopsWithin.done hround).mono (Nat.zero_le _), rfl⟩
    | some next =>
      obtain ⟨last, hlast, hsame⟩ := ih _ (hlt hround) next rfl
      exact ⟨last, (hlast.round hround).mono (hlt hround), hsame.trans (hkept hround)⟩

end

/-! ## Printing -/

section
variable {style : Style} {state next : State} {doc : Doc}

/-- Printing goes on from the state after a step. Counterpart of `run`. -/
theorem run_of_step (h : step style state = some next) : run style state = run style next := by
  rw [run]
  split
  · rename_i other hother
    cases h.symm.trans hother
    rfl
  · rename_i hnone
    cases h.symm.trans hnone

/-- Printing ends where no step is left. Counterpart of `run`. -/
theorem run_of_done (h : step style state = none) : run style state = state := by
  rw [run]
  split
  · rename_i other hother
    cases h.symm.trans hother
  · rfl

/-- A run stops, whichever state it starts from. Counterpart of `run`. -/
theorem stopsWithin_run (style : Style) (state : State) :
    StopsWithin (step style) state.weight state (run style state) := by
  obtain ⟨last, hlast, hsame⟩ :=
    exists_last State.weight (run style) weight_step_lt (fun h => (run_of_step h).symm) state
  rwa [← hsame, run_of_done hlast.stops]

/-- A part that is put off twice is taken up twice, which takes all but one of the rounds there may
be. -/
example : (flip bind (step {}))^[5] (some (start (.suffix (.suffix (.text "a"))))) =
    some { commands := [], suffixes := [], output := ['a'], column := 1, remeasure := false } :=
  rfl

/-- The start weighs twice what its document weighs. Counterpart of `start`. -/
theorem weight_start (doc : Doc) : (start doc).weight = 2 * doc.weight :=
  rfl

/-- No state that is reached weighs more than the start. Counterpart of `Reached`. -/
theorem Reached.weight_le (h : Reached style doc state) : state.weight ≤ 2 * doc.weight := by
  induction h with
  | start => exact (weight_start doc).le
  | step _ hstep ih => exact (weight_step_lt hstep).le.trans ih

end

/-! ## Measuring -/

/-- What measuring makes of a command: the width that it takes by itself, and commands for what is
in it. There is nothing to make of one that ends the line. -/
def Command.measure? : Command → Option (Nat × List Command)
  | ⟨level, mode, doc⟩ =>
    match doc with
    | .empty | .breakParent | .suffix _ => some (0, [])
    | .text content | .note content => some (content.length, [])
    | .concat items => some (0, commandsOf level mode items)
    | .indent contents => some (0, [⟨deeper level, mode, contents⟩])
    | .ifBreak broken flat => some (0, [⟨level, mode, mode.pick broken flat⟩])
    | .group breaks contents => some (0, [⟨level, mode.inside breaks, contents⟩])
    | .alternatives breaks options =>
      some (0, commandsOf level (mode.inside breaks) ((mode.inside breaks).option? options).toList)
    | .softLine => if mode = .broken then none else some (0, [])
    | .line => if mode = .broken then none else some (1, [])
    | .hardLine | .literalLine => none

/-- How far the measuring of a command has come. -/
structure Measuring where
  /-- The width that is left of the line. -/
  width : Int
  /-- What is left of the command that is being measured. -/
  inside : List Command
  /-- What comes after that command. -/
  after : List Command

namespace Measuring

/-- All that is still to be measured. -/
def commands (measuring : Measuring) : List Command :=
  measuring.inside ++ measuring.after

/-- The number of constructors that are still to be measured, and one for each command that has not
been taken up. -/
def weight (measuring : Measuring) : Nat :=
  commandsWeight measuring.inside + (commandsWeight measuring.after + measuring.after.length)

/-- Measure the next command, or take up the first one that comes after. Nothing more is done when
the width is used up, when the line ends, and when no command is left. -/
def next? (measuring : Measuring) : Option Measuring :=
  if measuring.width < 0 then none
  else
    match measuring.inside, measuring.after with
    | [], [] => none
    | [], command :: after => some { measuring with inside := [command], after }
    | command :: rest, _ =>
      command.measure?.map fun (size, parts) =>
        { measuring with width := measuring.width - size, inside := parts ++ rest }

end Measuring

/-- The start of measuring whether a command fits on the rest of the line. -/
def State.measuring (style : Style) (state : State) (command : Command) : Measuring where
  width := (style.printWidth : Int) - state.column
  inside := [command]
  after := state.commands

section
variable {command : Command} {size : Nat} {parts : List Command}

/-- What is left to measure of a command weighs less than the command. Counterpart of
`Command.measure?`. -/
theorem commandsWeight_of_measure? (h : command.measure? = some (size, parts)) :
    commandsWeight parts < command.doc.weight := by
  obtain ⟨level, mode, doc⟩ := command
  cases doc with
  | empty | breakParent | suffix _ | text _ | note _ =>
    cases h
    exact Doc.weight_pos _
  | concat items =>
    cases h
    rw [commandsWeight_commandsOf, Doc.weight]
    omega
  | indent contents | group breaks contents =>
    cases h
    simp only [commandsWeight, Doc.weight]
    omega
  | ifBreak broken flat =>
    cases h
    have hpick := mode.weight_pick_le broken flat
    simp only [commandsWeight, Doc.weight]
    omega
  | alternatives breaks options =>
    cases h
    rw [commandsWeight_commandsOf, Doc.weight]
    cases hoption : (mode.inside breaks).option? options with
    | none => simp [Doc.listWeight]
    | some option =>
      have hle := Doc.weight_le_listWeight (Mode.mem_of_option? hoption)
      simp only [Option.toList, Doc.listWeight]
      omega
  | softLine | line =>
    cases mode with
    | broken => cases h
    | flat =>
      cases h
      exact Doc.weight_pos _
  | hardLine | literalLine => cases h

/-- A command fits if what is made of it does. Counterpart of `fits`. -/
theorem fits_of_measure? (h : command.measure? = some (size, parts)) (width : Int)
    (rest : List Command) :
    fits width (command :: rest) = fits (width - size) (parts ++ rest) := by
  obtain ⟨level, mode, doc⟩ := command
  cases doc with
  | empty | breakParent | suffix _ | text _ | note _ | concat _ | indent _ | ifBreak _ _
  | group _ _ =>
    cases h
    simp
  | alternatives breaks options =>
    cases h
    rw [fits_alternatives]
    cases (mode.inside breaks).option? options <;> simp [commandsOf]
  | softLine | line =>
    cases mode with
    | broken => cases h
    | flat =>
      cases h
      simp
  | hardLine | literalLine => cases h

/-- A command that ends the line fits if the width has been kept to. Counterpart of `fits`. -/
theorem fits_of_measure?_eq_none (h : command.measure? = none) (width : Int) (rest : List Command) :
    fits width (command :: rest) = decide (0 ≤ width) := by
  obtain ⟨level, mode, doc⟩ := command
  cases doc with
  | hardLine => exact fits_lineBreak _ _ _ _ (.inl rfl)
  | literalLine => exact fits_lineBreak _ _ _ _ (.inr rfl)
  | softLine =>
    cases mode with
    | broken => exact fits_brokenLine _ _ _ (.inl rfl)
    | flat => cases h
  | line =>
    cases mode with
    | broken => exact fits_brokenLine _ _ _ (.inr rfl)
    | flat => cases h
  | empty | text _ | note _ | breakParent | concat _ | indent _ | ifBreak _ _ | suffix _ | group _ _
  | alternatives _ _ => cases h

end

section
variable {measuring next : Measuring}

/-- What one round of measuring can do: take up the next command from behind, or measure the one at
the front. Counterpart of `Measuring.next?`. -/
theorem Measuring.next?_cases (h : measuring.next? = some next) :
    (∃ command after, measuring.inside = [] ∧ measuring.after = command :: after ∧
      next = { measuring with inside := [command], after }) ∨
    ∃ command rest size parts, measuring.inside = command :: rest ∧
    command.measure? = some (size, parts) ∧
      next = { measuring with width := measuring.width - size, inside := parts ++ rest } := by
  unfold Measuring.next? at h
  split at h
  · cases h
  · split at h
    · cases h
    · rename_i command after hinside hafter
      exact .inl ⟨command, after, hinside, hafter, (Option.some.inj h).symm⟩
    · rename_i command rest hinside
      obtain ⟨⟨size, parts⟩, hmeasure, rfl⟩ := Option.map_eq_some_iff.1 h
      exact .inr ⟨command, rest, size, parts, hinside, hmeasure, rfl⟩

/-- Each round of measuring takes some weight. Counterpart of `Measuring.next?`. -/
theorem Measuring.weight_next?_lt (h : measuring.next? = some next) :
    next.weight < measuring.weight := by
  obtain ⟨command, after, hinside, hafter, rfl⟩ | ⟨command, rest, size, parts, hinside,
        hmeasure, rfl⟩ :=
    Measuring.next?_cases h
  · simp only [Measuring.weight, hinside, hafter, commandsWeight, List.length_cons]
    omega
  · have hparts := commandsWeight_of_measure? hmeasure
    simp only [Measuring.weight, hinside, commandsWeight, commandsWeight_append]
    omega

/-- A round does not change the answer. Counterpart of `Measuring.next?`. -/
theorem Measuring.fits_next? (h : measuring.next? = some next) :
    fits next.width next.commands = fits measuring.width measuring.commands := by
  obtain ⟨command, after, hinside, hafter, rfl⟩ | ⟨command, rest, size, parts, hinside,
        hmeasure, rfl⟩ :=
    Measuring.next?_cases h
  · rw [Measuring.commands, Measuring.commands, hinside, hafter]
    rfl
  · rw [Measuring.commands, Measuring.commands, hinside, List.cons_append,
      fits_of_measure? hmeasure, List.append_assoc]

/-- Where measuring stops, the answer is whether the width has been kept to. Counterpart of
`Measuring.next?`. -/
theorem Measuring.fits_of_done (h : measuring.next? = none) :
    fits measuring.width measuring.commands = decide (0 ≤ measuring.width) := by
  unfold Measuring.next? at h
  split at h
  · rename_i hnegative
    rw [fits_of_neg hnegative]
    exact (decide_eq_false (Int.not_le.2 hnegative)).symm
  · split at h
    · rename_i hinside hafter
      rw [Measuring.commands, hinside, hafter]
      exact fits_nil _
    · cases h
    · rename_i command rest hinside
      rw [Measuring.commands, hinside]
      exact fits_of_measure?_eq_none (Option.map_eq_none_iff.1 h) _ _

/-- Measuring stops, with the answer of `fits`. Counterpart of `fits`. -/
theorem exists_measured (measuring : Measuring) :
    ∃ last, StopsWithin Measuring.next? measuring.weight measuring last ∧
      fits measuring.width measuring.commands = decide (0 ≤ last.width) := by
  obtain ⟨last, hlast, hsame⟩ :=
    exists_last Measuring.weight (fun measuring => fits measuring.width measuring.commands)
      Measuring.weight_next?_lt Measuring.fits_next? measuring
  exact ⟨last, hlast, hsame.symm.trans (Measuring.fits_of_done hlast.stops)⟩

end

/-! ## What is asked -/

/-- The step from a state asks of another one, in which the next command has been taken, whether
what is in a group or a form of a choice fits there. It does not ask about what must be broken, nor
inside flat content unless a line was broken in it. -/
inductive Asks (state : State) : State → Command → Prop
  | group {level : Nat} {mode : Mode} {contents : Doc} {rest : List Command} :
    state.commands = ⟨level, mode, .group false contents⟩ :: rest →
    ¬(mode = .flat ∧ ¬state.remeasure) →
    Asks state { state with commands := rest, remeasure := false } ⟨level, .flat, contents⟩
  | form {level : Nat} {mode : Mode} {options : List Doc} {option : Doc} {rest : List Command} :
    state.commands = ⟨level, mode, .alternatives false options⟩ :: rest →
    ¬(mode = .flat ∧ ¬state.remeasure) →
    option ∈ options →
    Asks state { state with commands := rest, remeasure := false } ⟨level, .flat, option⟩

/-- Each command has a weight. Counterpart of `commandsWeight`. -/
theorem length_le_commandsWeight (commands : List Command) :
    commands.length ≤ commandsWeight commands := by
  induction commands with
  | nil => exact Nat.le_refl 0
  | cons command rest ih =>
    have hpos := command.doc.weight_pos
    rw [List.length_cons, commandsWeight]
    omega

section
variable {style : Style} {state asked : State} {command : Command}

/-- Measuring starts with no more weight than printing has left. Counterpart of
`State.measuring`. -/
theorem Asks.weight_le (h : Asks state asked command) :
    (asked.measuring style command).weight ≤ state.weight := by
  have hle : ∀ {whole : Command} {rest : List Command}, state.commands = whole :: rest →
      command.doc.weight ≤ whole.doc.weight →
      (Measuring.mk ((style.printWidth : Int) - state.column) [command] rest).weight ≤
      state.weight := by
    intro whole rest hcommands hpart
    have hlength := length_le_commandsWeight rest
    simp only [Measuring.weight, State.weight, hcommands, commandsWeight]
    omega
  cases h with
  | group hcommands =>
    refine hle hcommands ?_
    simp only [Doc.weight]
    omega
  | form hcommands _ hoption =>
    refine hle hcommands ?_
    have hlist := Doc.weight_le_listWeight hoption
    simp only [Doc.weight]
    omega

/-- What a step does depends on the print width only through the answers to what it asks.
Counterpart of `step`. -/
theorem step_of_answers {width : Nat} (h : ∀ asked command, Asks state asked command →
      asked.fitsNext { style with printWidth := width } command = asked.fitsNext style command) :
    step { style with printWidth := width } state = step style state := by
  unfold step
  cases hcommands : state.commands with
  | nil => rfl
  | cons command rest =>
    obtain ⟨level, mode, doc⟩ := command
    cases doc with
    | group breaks contents =>
      simp only [perform, performGroup]
      split
      · rfl
      · rename_i hmeasured
        cases breaks with
        | true => rfl
        | false =>
          have hanswer := h _ _ (.group hcommands hmeasured)
          simp only [hanswer]
    | alternatives breaks options =>
      simp only [perform, performAlternatives]
      split
      · split
        · rfl
        · rename_i hmeasured
          cases breaks with
          | true => rfl
          | false =>
            have hforms :=
              List.find?_congr fun option hoption => h _ _ (.form hcommands hmeasured hoption)
            simp only [hforms]
      · rfl
    | empty | text _ | note _ | softLine | line | hardLine | literalLine | breakParent | concat _
    | indent _ | ifBreak _ _ | suffix _ =>
      rfl

end

/-- What it means that a layout comes to an end. -/
structure LayoutEnds (style : Style) (doc : Doc) : Prop where
  /-- Printing stops, after at most two rounds for each constructor of the document. -/
  printing : StopsWithin (step style) (2 * doc.weight) (start doc) (run style (start doc))
  /-- The states where it stops are those in which nothing is left and nothing is put off. -/
  stops (state : State) : step style state = none ↔ state.commands = [] ∧ state.suffixes = []
  /-- The one that it comes to is such a state. -/
  finished : (run style (start doc)).commands = [] ∧ (run style (start doc)).suffixes = []
  /-- What a step does depends on the print width only through the answers to what it asks. -/
  asks (state : State) (width : Nat) :
    (∀ asked command, Asks state asked command →
      asked.fitsNext { style with printWidth := width } command = asked.fitsNext style command) →
    step { style with printWidth := width } state = step style state
  /-- The measuring of whatever is asked on the way stops, after at most two rounds for each
  constructor of the document. The answer is whether the width has been kept to. -/
  measuring (state asked : State) (command : Command) :
    Reached style doc state → Asks state asked command →
    ∃ last, StopsWithin Measuring.next? (2 * doc.weight) (asked.measuring style command) last ∧
      asked.fitsNext style command = decide (0 ≤ last.width)

end Layout

open Layout

/-- Every document is laid out to the end, in every style. Counterpart of `Doc.layout`. -/
theorem Doc.layout_ends (style : Style) (doc : Doc) : LayoutEnds style doc where
  printing := stopsWithin_run style (start doc)
  stops state := step_eq_none_iff
  finished := step_eq_none_iff.1 (stopsWithin_run style (start doc)).stops
  asks state width h := step_of_answers h
  measuring state asked command hreached hasks := by
    obtain ⟨last, hlast, hanswer⟩ := exists_measured (asked.measuring style command)
    have hle : (asked.measuring style command).weight ≤ 2 * doc.weight :=
      hasks.weight_le.trans hreached.weight_le
    exact ⟨last, hlast.mono hle, hanswer⟩

end LuaFormatter
