import LuaFormatter.Doc.Basic
import LuaFormatter.Style

/-!
# Laying out a document

The layout works through a list of commands, each a document with its level of indentation and the
mode of the group around it. A group is printed flat if it fits on the rest of the line, measured up
to the first line break that the commands after it may bring. Suffixes are put off until just before
the next line break.

`step` performs one command. It makes the state lighter (`weight_step_lt`): a command is replaced by
its parts, or the suffixes that were put off are taken up. So `run` ends for every document.
-/

namespace LuaFormatter.Layout

/-- Whether the group around a command is broken. -/
inductive Mode where
  | flat | broken
deriving DecidableEq

/-- A document to be printed, at a level of indentation and in a mode. -/
structure Command where
  level : Nat
  mode : Mode
  doc : Doc

/-- The next level of indentation. Levels are numbers of 16 bits, so they start again from 0 after
the last one. -/
def deeper (level : Nat) : Nat :=
  (level + 1) % 65536

@[simp] theorem deeper_zero : deeper 0 = 1 := rfl

/-- The number of constructors of the documents of the commands. -/
def commandsWeight : List Command → Nat
  | [] => 0
  | command :: rest => command.doc.weight + commandsWeight rest

/-- The weight of commands one after the other. Counterpart of `commandsWeight`. -/
theorem commandsWeight_append (front back : List Command) :
    commandsWeight (front ++ back) = commandsWeight front + commandsWeight back := by
  induction front with
  | nil => simp [commandsWeight]
  | cons command front ih => simp [commandsWeight, ih, Nat.add_assoc]

/-- Commands for the items of a list, all at one level and in one mode. -/
def commandsOf (level : Nat) (mode : Mode) (docs : List Doc) : List Command :=
  docs.map (Command.mk level mode)

/-- The commands for the items of a document weigh what the items do. Counterpart of
`commandsOf`. -/
theorem commandsWeight_commandsOf (level : Nat) (mode : Mode) (docs : List Doc) :
    commandsWeight (commandsOf level mode docs) = Doc.listWeight docs := by
  induction docs with
  | nil => rfl
  | cons doc rest ih => simpa [commandsOf, commandsWeight, Doc.listWeight] using ih

/-- The mode of what is inside a group. -/
def Mode.inside (mode : Mode) (breaks : Bool) : Mode :=
  if breaks then .broken else mode

/-- The form of a choice that a mode picks: the most expanded one if it is broken, else the
first. -/
def Mode.option? (mode : Mode) (options : List Doc) : Option Doc :=
  if mode = .broken then options.getLast? else options.head?

/-- The option that a mode chooses is one of the options. Counterpart of `Mode.option?`. -/
theorem Mode.mem_of_option? {mode : Mode} {options : List Doc} {doc : Doc}
    (h : mode.option? options = some doc) : doc ∈ options := by
  unfold Mode.option? at h
  split at h
  · exact List.mem_of_getLast? h
  · exact List.mem_of_head? h

/-- The form of a choice between two that a mode picks. -/
def Mode.pick (mode : Mode) (broken flat : Doc) : Doc :=
  if mode = .broken then broken else flat

/-- What a mode picks weighs at most as much as both forms together. Counterpart of `Mode.pick`. -/
theorem Mode.weight_pick_le (mode : Mode) (broken flat : Doc) :
    (mode.pick broken flat).weight ≤ broken.weight + flat.weight := by
  unfold Mode.pick
  split <;> omega

/-- The commands fit in a width, up to the first line break among them. -/
def fits (width : Int) (commands : List Command) : Bool :=
  if width < 0 then false
  else
    match commands with
    | [] => true
    | ⟨level, mode, doc⟩ :: rest =>
      match doc with
      | .empty | .breakParent | .suffix _ => fits width rest
      | .text content | .note content => fits (width - content.length) rest
      | .concat items => fits width (commandsOf level mode items ++ rest)
      | .indent contents => fits width (⟨deeper level, mode, contents⟩ :: rest)
      | .ifBreak broken flat => fits width (⟨level, mode, mode.pick broken flat⟩ :: rest)
      | .group breaks contents => fits width (⟨level, mode.inside breaks, contents⟩ :: rest)
      | .alternatives breaks options =>
        match _found : (mode.inside breaks).option? options with
        | some option => fits width (⟨level, mode.inside breaks, option⟩ :: rest)
        | none => fits width rest
      | .softLine => mode = .broken || fits width rest
      | .line => mode = .broken || fits (width - 1) rest
      | .hardLine | .literalLine => true
termination_by commandsWeight commands
decreasing_by
  all_goals simp only [commandsWeight, Doc.weight, commandsWeight_append, commandsWeight_commandsOf]
  all_goals try omega
  · have := mode.weight_pick_le broken flat
    omega
  · have := Doc.weight_le_listWeight (Mode.mem_of_option? _found)
    omega

/-- How far the printing has come. -/
structure State where
  /-- What is still to be printed. -/
  commands : List Command
  /-- What is put off until the next line break. -/
  suffixes : List Command
  /-- What has been printed, backwards. -/
  output : List Char
  /-- The width of the current line. -/
  column : Nat
  /-- A line broke inside flat content, so the next group is measured again. -/
  remeasure : Bool

namespace State

/-- Twice the number of constructors that are still to be printed, and one for each part put off. -/
def weight (state : State) : Nat :=
  2 * (commandsWeight state.commands + commandsWeight state.suffixes) + state.suffixes.length

/-- Print a command next. -/
def push (state : State) (command : Command) : State :=
  { state with commands := command :: state.commands }

/-- Print a text. -/
def write (state : State) (content : List Char) : State :=
  { state with
    output := content.reverse ++ state.output
    column := state.column + content.length }

/-- Take up the parts that were put off. -/
def flush (state : State) : State :=
  { state with commands := state.suffixes ++ state.commands, suffixes := [] }

/-- Start a new line without indentation. -/
def breakLiterally (style : Style) (state : State) : State :=
  { state with output := style.lineEnding.text.reverse ++ state.output, column := 0 }

/-- Start a new line at a level of indentation. Spaces and tabs at the end of the line are
dropped. -/
def breakAt (style : Style) (level : Nat) (state : State) : State :=
  let trimmed := state.output.dropWhile fun c => c == ' ' || c == '\t'
  { state with
    output := style.indentation level ++ (style.lineEnding.text.reverse ++ trimmed)
    column := level * style.indentWidth }

/-- The commands fit on the rest of the line. -/
def fitsNext (style : Style) (state : State) (command : Command) : Bool :=
  fits ((style.printWidth : Int) - state.column) (command :: state.commands)

end State

/-- Print the contents of a group. -/
def performGroup (style : Style) (level : Nat) (mode : Mode) (breaks : Bool) (contents : Doc)
    (state : State) : State :=
  if mode = .flat ∧ ¬state.remeasure then state.push ⟨level, mode.inside breaks, contents⟩
  else
    let measured := { state with remeasure := false }
    let flat : Command := ⟨level, .flat, contents⟩
    if ¬breaks ∧ measured.fitsNext style flat then measured.push flat
    else measured.push ⟨level, .broken, contents⟩

/-- Print one form of a choice: the first that fits flat, or the most expanded one broken. Inside
flat content it is the first form. -/
def performAlternatives (style : Style) (level : Nat) (mode : Mode) (breaks : Bool)
    (options : List Doc) (state : State) : State :=
  match options.head?, options.getLast? with
  | some first, some last =>
    if mode = .flat ∧ ¬state.remeasure then state.push ⟨level, mode.inside breaks, first⟩
    else
      let measured := { state with remeasure := false }
      if breaks then measured.push ⟨level, .broken, last⟩
      else
        match options.find? fun option => measured.fitsNext style ⟨level, .flat, option⟩ with
        | some option => measured.push ⟨level, .flat, option⟩
        | none => measured.push ⟨level, .broken, last⟩
  | _, _ => state

/-- Break the line. If parts were put off, they are printed first and the command comes again. -/
def performBreak (style : Style) (command : Command) (state : State) : State :=
  let state := { state with remeasure := state.remeasure || command.mode == Mode.flat }
  if state.suffixes.isEmpty then
    match command.doc with
    | .literalLine => state.breakLiterally style
    | _ => state.breakAt style command.level
  else
    (state.push command).flush

/-- Perform a command that has been taken from the state. -/
def perform (style : Style) (command : Command) (state : State) : State :=
  let ⟨level, mode, doc⟩ := command
  match doc with
  | .empty | .breakParent => state
  | .text content | .note content => state.write content.toList
  | .concat items => { state with commands := commandsOf level mode items ++ state.commands }
  | .indent contents => state.push ⟨deeper level, mode, contents⟩
  | .ifBreak broken flat => state.push ⟨level, mode, mode.pick broken flat⟩
  | .suffix contents => { state with suffixes := state.suffixes ++ [⟨level, mode, contents⟩] }
  | .group breaks contents => performGroup style level mode breaks contents state
  | .alternatives breaks options => performAlternatives style level mode breaks options state
  | .softLine => if mode = .flat then state else performBreak style command state
  | .line => if mode = .flat then state.write [' '] else performBreak style command state
  | .hardLine | .literalLine => performBreak style command state

/-- Perform the next command, or take up what was put off at the end. There is no step when
everything has been printed. -/
def step (style : Style) (state : State) : Option State :=
  match state.commands with
  | command :: rest => some (perform style command { state with commands := rest })
  | [] => if state.suffixes.isEmpty then none else some state.flush

/-- A command that is put on the work list adds its weight twice, once for the measuring of what
follows it. Counterpart of `State.push`. -/
theorem weight_push (state : State) (command : Command) :
    (state.push command).weight = state.weight + 2 * command.doc.weight := by
  simp only [State.push, State.weight, commandsWeight]
  omega

/-- A group leaves its contents to be done. Counterpart of `performGroup`. -/
theorem weight_performGroup (style : Style) (level : Nat) (mode : Mode) (breaks : Bool)
    (contents : Doc) (state : State) :
    (performGroup style level mode breaks contents state).weight =
      state.weight + 2 * contents.weight := by
  unfold performGroup
  split
  · exact weight_push ..
  · dsimp only
    split <;> exact weight_push ..

/-- A choice leaves one of its options to be done. Counterpart of `performAlternatives`. -/
theorem weight_performAlternatives_le (style : Style) (level : Nat) (mode : Mode) (breaks : Bool)
    (options : List Doc) (state : State) :
    (performAlternatives style level mode breaks options state).weight ≤
      state.weight + 2 * Doc.listWeight options := by
  unfold performAlternatives
  split
  · rename_i first last hfirst hlast
    have := Doc.weight_le_listWeight (List.mem_of_head? hfirst)
    have := Doc.weight_le_listWeight (List.mem_of_getLast? hlast)
    split
    · rw [weight_push]
      dsimp only
      omega
    · dsimp only
      split
      · rw [weight_push]
        simp only [State.weight]
        omega
      · split
        · rename_i option hfind
          have := Doc.weight_le_listWeight (List.mem_of_find?_eq_some hfind)
          rw [weight_push]
          simp only [State.weight]
          omega
        · rw [weight_push]
          simp only [State.weight]
          omega
  · omega

/-- A line break leaves less to be done. Counterpart of `performBreak`. -/
theorem weight_performBreak_lt (style : Style) (command : Command) (state : State) :
    (performBreak style command state).weight < state.weight + 2 * command.doc.weight := by
  have := command.doc.weight_pos
  unfold performBreak
  dsimp only
  split
  · split <;> simp only [State.breakLiterally, State.breakAt, State.weight] <;> omega
  · rename_i h
    have : 0 < state.suffixes.length := by
      cases hs : state.suffixes with
      | nil => simp [hs] at h
      | cons => simp
    simp only [State.push, State.flush, State.weight, commandsWeight_append, commandsWeight,
      List.length_nil]
    omega

/-- Each step leaves less to be done than the command that it takes off. Counterpart of `perform`,
by which the loop of the layout ends. -/
theorem weight_perform_lt (style : Style) (command : Command) (state : State) :
    (perform style command state).weight < state.weight + 2 * command.doc.weight := by
  obtain ⟨level, mode, doc⟩ := command
  cases doc with
  | empty | breakParent => simp only [perform, Doc.weight]; omega
  | text content | note content => simp only [perform, State.write, State.weight, Doc.weight]; omega
  | concat items =>
    simp only [perform, State.weight, Doc.weight, commandsWeight_append, commandsWeight_commandsOf]
    omega
  | indent contents => simp only [perform, weight_push, Doc.weight]; omega
  | ifBreak broken flat =>
    have := mode.weight_pick_le broken flat
    simp only [perform, weight_push, Doc.weight]
    omega
  | suffix contents =>
    simp only [perform, State.weight, Doc.weight, commandsWeight_append, commandsWeight,
      List.length_append, List.length_singleton]
    omega
  | group breaks contents => simp only [perform, weight_performGroup, Doc.weight]; omega
  | alternatives breaks options =>
    have := weight_performAlternatives_le style level mode breaks options state
    simp only [perform, Doc.weight]
    omega
  | softLine =>
    simp only [perform]
    split
    · simp only [Doc.weight]; omega
    · exact weight_performBreak_lt ..
  | line =>
    simp only [perform]
    split
    · simp only [State.write, State.weight, Doc.weight]; omega
    · exact weight_performBreak_lt ..
  | hardLine | literalLine => exact weight_performBreak_lt ..

/-- A step makes the state lighter. Counterpart of `step`, which makes `run` end. -/
theorem weight_step_lt {style : Style} {state next : State} (h : step style state = some next) :
    next.weight < state.weight := by
  unfold step at h
  split at h
  · rename_i command rest hcommands
    cases h
    have := weight_perform_lt style command { state with commands := rest }
    simp only [State.weight, hcommands, commandsWeight] at this ⊢
    omega
  · rename_i hcommands
    split at h
    · cases h
    · rename_i hsuffixes
      cases h
      have : 0 < state.suffixes.length := by
        cases hs : state.suffixes with
        | nil => simp [hs] at hsuffixes
        | cons => simp
      simp only [State.flush, State.weight, hcommands, commandsWeight_append, commandsWeight,
        List.length_nil]
      omega

/-- Perform steps until everything has been printed. -/
def run (style : Style) (state : State) : State :=
  match _stepped : step style state with
  | some next => run style next
  | none => state
termination_by state.weight
decreasing_by exact weight_step_lt _stepped

/-- The state before a document is printed. -/
def start (doc : Doc) : State where
  commands := [⟨0, .broken, doc⟩]
  suffixes := []
  output := []
  column := 0
  remeasure := false

end LuaFormatter.Layout

namespace LuaFormatter

/-- The text of a document in a style. -/
def Doc.layout (style : Style) (doc : Doc) : List Char :=
  (Layout.run style (Layout.start doc)).output.reverse

end LuaFormatter
