import LuaFormatter.Proofs.Layout.Lines

/-!
# Groups keep to the width

A group is printed flat only if it fits, and `fits` measures what follows it as if the groups there
were broken. So one decision says nothing of the rest of the line: the groups that follow are
decided later, and each of them is measured again. What carries over is `reach`, the width up to the
first line break that the commands may bring: once a flat group has been entered, the column and the
reach together stay within the width until the line ends (`Tight`). `Doc.layout_keeps_width` draws
the conclusion for the lines of the output and for the groups that are broken.

This is about documents that are settled: a choice between forms and a part that is put off are not
measured as they are printed. `Move` says all that a step does with such a document.
-/

namespace LuaFormatter

namespace Doc

mutual

/-- There is no choice between forms, nothing is put off, and a group that holds a forced break is
broken. -/
def isSettled : Doc → Bool
  | concat items => allSettled items
  | indent contents => contents.isSettled
  | group breaks contents => (breaks || !contents.willBreak) && contents.isSettled
  | ifBreak broken flat => broken.isSettled && flat.isSettled
  | alternatives _ _ | suffix _ => false
  | empty | text _ | note _ | softLine | line | hardLine | literalLine | breakParent => true

/-- All documents are settled. -/
def allSettled : List Doc → Bool
  | [] => true
  | doc :: rest => doc.isSettled && allSettled rest

end

mutual

/-- The width of a settled document without line breaks. -/
def flatWidth : Doc → Nat
  | text content | note content => content.length
  | line => 1
  | concat items => flatWidthOf items
  | indent contents | group _ contents => contents.flatWidth
  | ifBreak _ flat => flat.flatWidth
  | empty | softLine | hardLine | literalLine | alternatives _ _ | suffix _ | breakParent => 0

/-- The width of documents without line breaks. -/
def flatWidthOf : List Doc → Nat
  | [] => 0
  | doc :: rest => doc.flatWidth + flatWidthOf rest

end

mutual

/-- A settled document can break the line where its groups are broken. -/
def mayBreak : Doc → Bool
  | softLine | line | hardLine | literalLine => true
  | concat items => anyMayBreak items
  | indent contents | group _ contents => contents.mayBreak
  | ifBreak broken _ => broken.mayBreak
  | empty | text _ | note _ | alternatives _ _ | suffix _ | breakParent => false

/-- One of the documents can break the line. -/
def anyMayBreak : List Doc → Bool
  | [] => false
  | doc :: rest => doc.mayBreak || anyMayBreak rest

end

mutual

/-- The width of a settled document up to the first line break that is possible in broken mode. -/
def leadWidth : Doc → Nat
  | text content | note content => content.length
  | concat items => leadWidthOf items
  | indent contents | group _ contents => contents.leadWidth
  | ifBreak broken _ => broken.leadWidth
  | empty | softLine | line | hardLine | literalLine | alternatives _ _ | suffix _ | breakParent =>
    0

/-- The width of documents up to the first line break that is possible in broken mode. -/
def leadWidthOf : List Doc → Nat
  | [] => 0
  | doc :: rest => doc.leadWidth + if doc.mayBreak then 0 else leadWidthOf rest

end

/-- Each of some settled documents is settled. Counterpart of `allSettled`. -/
theorem isSettled_of_mem {doc : Doc} {docs : List Doc} (h : allSettled docs = true)
    (hmem : doc ∈ docs) :
    doc.isSettled = true := by
  induction docs with
  | nil => simp at hmem
  | cons first rest ih =>
    rw [allSettled, Bool.and_eq_true] at h
    rcases List.mem_cons.1 hmem with rfl | hmem
    · exact h.1
    · exact ih h.2 hmem

/-- If no document of some breaks, each of them does not. Counterpart of `anyWillBreak`. -/
theorem willBreak_of_mem {doc : Doc} {docs : List Doc} (h : anyWillBreak docs = false)
    (hmem : doc ∈ docs) :
    doc.willBreak = false := by
  rw [anyWillBreak_eq, List.any_eq_false] at h
  exact Bool.eq_false_iff.2 (h doc hmem)

end Doc

namespace Layout

/-! ## The reach of commands -/

namespace Command

/-- The width of a command up to the first line break that its mode allows. -/
def width (command : Command) : Nat :=
  match command.mode with
  | .flat => command.doc.flatWidth
  | .broken => command.doc.leadWidth

/-- The command can break the line. -/
def mayBreak (command : Command) : Bool :=
  command.mode == .broken && command.doc.mayBreak

/-- The document of the command is settled, and no break is forced where the mode allows none. -/
structure IsSettled (command : Command) : Prop where
  doc : command.doc.isSettled = true
  unbroken : command.mode = .flat → command.doc.willBreak = false

end Command

/-- The width of commands up to the first line break among them. -/
def reach : List Command → Nat
  | [] => 0
  | command :: rest => command.width + if command.mayBreak then 0 else reach rest

section
variable {level : Nat} {mode : Mode} {rest : List Command}

/-- Flat commands reach as far as they are wide, and on to the next ones. Counterpart of `reach`. -/
theorem reach_flat (level : Nat) (doc : Doc) (rest : List Command) :
    reach (⟨level, .flat, doc⟩ :: rest) = doc.flatWidth + reach rest := rfl

/-- Broken commands reach to their first line break, or on to the next ones. Counterpart of
`reach`. -/
theorem reach_broken (level : Nat) (doc : Doc) (rest : List Command) :
    reach (⟨level, .broken, doc⟩ :: rest) = doc.leadWidth + if doc.mayBreak then 0
      else reach rest :=
  rfl

/-- Commands that are all broken reach as far as their documents do. Counterpart of `reach`. -/
theorem reach_eq_leadWidthOf {commands : List Command}
    (h : ∀ command ∈ commands, command.mode = .broken) :
    reach commands = Doc.leadWidthOf (commands.map Command.doc) := by
  induction commands with
  | nil => rfl
  | cons command rest ih =>
    obtain ⟨level, mode, doc⟩ := command
    obtain rfl : mode = .broken := h _ List.mem_cons_self
    rw [reach_broken, ih fun other hother => h other (List.mem_cons_of_mem _ hother), List.map_cons,
      Doc.leadWidthOf]

/-- A command that writes nothing and breaks nothing adds nothing. Counterpart of `reach` for
`Doc.empty` and `Doc.breakParent`. -/
theorem reach_skip {doc : Doc} (hdoc : doc = .empty ∨ doc = .breakParent) (level : Nat)
    (mode : Mode) (rest : List Command) : reach (⟨level, mode, doc⟩ :: rest) = reach rest := by
  rcases hdoc with rfl | rfl <;> cases mode <;> exact Nat.zero_add _

/-- A text reaches as far as it is long, and on to the next command. Counterpart of `reach` for
`Doc.text` and `Doc.note`. -/
theorem reach_text {doc : Doc} {content : String} (hdoc : doc = .text content ∨ doc = .note content)
    (level : Nat) (mode : Mode) (rest : List Command) :
    reach (⟨level, mode, doc⟩ :: rest) = content.length + reach rest := by
  rcases hdoc with rfl | rfl <;> cases mode <;> rfl

/-- A line that can be broken ends the reach. Counterpart of `reach` for the lines that can be
broken. -/
theorem reach_lineBreak {doc : Doc} (hlead : doc.leadWidth = 0) (hbreak : doc.mayBreak = true)
    (level : Nat) (rest : List Command) : reach (⟨level, .broken, doc⟩ :: rest) = 0 := by
  rw [reach_broken, hlead, if_pos hbreak]

/-- The parts of a concatenation reach as far as it does. Counterpart of `reach` for
`Doc.concat`. -/
theorem reach_concat (level : Nat) (mode : Mode) (items : List Doc) (rest : List Command) :
    reach (commandsOf level mode items ++ rest) = reach (⟨level, mode, .concat items⟩ :: rest) := by
  induction items with
  | nil =>
    cases mode
    · exact (Nat.zero_add _).symm
    · exact (Nat.zero_add _).symm
  | cons doc items ih =>
    rw [commandsOf, List.map_cons, List.cons_append, ← commandsOf]
    cases mode with
    | flat =>
      rw [reach_flat, ih, reach_flat, reach_flat]
      exact (Nat.add_assoc _ _ _).symm
    | broken =>
      rw [reach_broken, ih, reach_broken, reach_broken]
      show _ = (doc.leadWidth + if doc.mayBreak then 0 else Doc.leadWidthOf items) +
        if (doc.mayBreak || Doc.anyMayBreak items) then 0 else reach rest
      by_cases hbreak : doc.mayBreak = true
      · simp [hbreak]
      · have hany : (doc.mayBreak || Doc.anyMayBreak items) = Doc.anyMayBreak items := by
          simp [hbreak]
        rw [if_neg hbreak, if_neg hbreak, Nat.add_assoc, hany]
        rfl

/-- The contents of an indentation reach as far as it does. Counterpart of `reach` for
`Doc.indent`. -/
theorem reach_indent (level inner : Nat) (mode : Mode) (contents : Doc) (rest : List Command) :
    reach (⟨inner, mode, contents⟩ :: rest) = reach (⟨level, mode, .indent contents⟩ :: rest) := by
  cases mode <;> rfl

/-- The form for the mode reaches as far as the choice by the mode. Counterpart of `reach` for
`Doc.ifBreak`. -/
theorem reach_ifBreak (level : Nat) (mode : Mode) (broken flat : Doc) (rest : List Command) :
    reach (⟨level, mode, mode.pick broken flat⟩ :: rest) =
      reach (⟨level, mode, .ifBreak broken flat⟩ :: rest) := by
  cases mode <;> rfl

/-- A settled group is in its mode already. Counterpart of `Mode.inside`. -/
theorem inside_of_isSettled {breaks : Bool} {contents : Doc}
    (h : Command.IsSettled ⟨level, mode, .group breaks contents⟩) : mode.inside breaks = mode := by
  cases mode with
  | flat =>
    obtain rfl : breaks = false := h.unbroken rfl
    rfl
  | broken => cases breaks <;> rfl

/-- The contents of a settled group reach as far as it does. Counterpart of `reach` for
`Doc.group`. -/
theorem reach_group (level : Nat) (mode : Mode) (breaks : Bool) (contents : Doc)
    (rest : List Command) :
    reach (⟨level, mode, contents⟩ :: rest) =
      reach (⟨level, mode, .group breaks contents⟩ :: rest) := by
  cases mode <;> rfl

/-! ## Parts of settled commands -/

namespace Command.IsSettled

/-- The parts of a settled concatenation are settled. Counterpart of `Command.IsSettled`. -/
theorem items {items : List Doc} (h : IsSettled ⟨level, mode, .concat items⟩) :
    ∀ part ∈ commandsOf level mode items, part.IsSettled := by
  intro part hpart
  obtain ⟨doc, hdoc, rfl⟩ := List.mem_map.1 hpart
  exact ⟨Doc.isSettled_of_mem h.doc hdoc, fun hmode => Doc.willBreak_of_mem (h.unbroken hmode) hdoc⟩

/-- The contents of a settled indentation are settled. Counterpart of `Command.IsSettled`. -/
theorem indent {contents : Doc} (h : IsSettled ⟨level, mode, .indent contents⟩) (inner : Nat) :
    IsSettled ⟨inner, mode, contents⟩ :=
  ⟨h.doc, h.unbroken⟩

/-- The form for the mode of a settled choice is settled. Counterpart of `Command.IsSettled`. -/
theorem ifBreak {broken flat : Doc} (h : IsSettled ⟨level, mode, .ifBreak broken flat⟩) :
    IsSettled ⟨level, mode, mode.pick broken flat⟩ := by
  have hdoc : (broken.isSettled && flat.isSettled) = true := h.doc
  rw [Bool.and_eq_true] at hdoc
  cases mode with
  | flat =>
    have hflat : (flat.willBreak || broken.willBreak) = false := h.unbroken rfl
    exact ⟨hdoc.2, fun _ => (Bool.or_eq_false_iff.1 hflat).1⟩
  | broken => exact ⟨hdoc.1, nofun⟩

/-- The contents of a group are settled in the mode of the group, and flat if the group may be.
Counterpart of `Command.IsSettled`. -/
theorem group {breaks : Bool} {contents : Doc}
    (h : IsSettled ⟨level, mode, .group breaks contents⟩) :
    IsSettled ⟨level, mode, contents⟩ ∧ (breaks = false → IsSettled ⟨level, .flat, contents⟩) := by
  have hdoc : ((breaks || !contents.willBreak) && contents.isSettled) = true := h.doc
  rw [Bool.and_eq_true, Bool.or_eq_true, Bool.not_eq_true'] at hdoc
  have hflat : breaks = false → IsSettled ⟨level, .flat, contents⟩ := by
    intro hbreaks
    exact ⟨hdoc.2, fun _ => hdoc.1.resolve_left (by simp [hbreaks])⟩
  refine ⟨?_, hflat⟩
  cases mode with
  | flat => exact hflat (h.unbroken rfl)
  | broken => exact ⟨hdoc.2, nofun⟩

end Command.IsSettled

end

/-- Settled commands fit in a width if their reach does. Counterpart of `fits`. -/
theorem fits_iff_reach {width : Int} {commands : List Command}
    (h : ∀ command ∈ commands, command.IsSettled) :
    fits width commands = true ↔ (reach commands : Int) ≤ width := by
  have hwidth : ∀ {width : Int} {commands : List Command}, width < 0 →
      ¬(reach commands : Int) ≤ width := by
    intro width commands hnegative hle
    omega
  fun_induction fits width commands with
  | case1 width commands hnegative => simpa using hwidth hnegative
  | case2 width hwidth => simpa [reach] using hwidth
  | case3 width hwidth level mode rest ih | case4 width hwidth level mode rest ih =>
    rw [reach_skip (by simp)]
    exact ih fun command hmem => h command (List.mem_cons_of_mem _ hmem)
  | case5 => cases (h _ List.mem_cons_self).doc
  | case6 width hwidth level mode rest content ih =>
    rw [reach_text (.inl rfl)]
    refine (ih fun command hmem => h command (List.mem_cons_of_mem _ hmem)).trans ?_
    omega
  | case7 width hwidth level mode rest content ih =>
    rw [reach_text (.inr rfl)]
    refine (ih fun command hmem => h command (List.mem_cons_of_mem _ hmem)).trans ?_
    omega
  | case8 width hwidth level mode rest items ih =>
    obtain ⟨hhead, hrest⟩ := List.forall_mem_cons.1 h
    rw [← reach_concat]
    exact ih fun command hmem => (List.mem_append.1 hmem).elim (hhead.items command) (hrest command)
  | case9 width hwidth level mode rest contents ih =>
    obtain ⟨hhead, hrest⟩ := List.forall_mem_cons.1 h
    rw [← reach_indent level (deeper level)]
    exact ih (List.forall_mem_cons.2 ⟨hhead.indent _, hrest⟩)
  | case10 width hwidth level mode rest broken flat ih =>
    obtain ⟨hhead, hrest⟩ := List.forall_mem_cons.1 h
    rw [← reach_ifBreak]
    exact ih (List.forall_mem_cons.2 ⟨hhead.ifBreak, hrest⟩)
  | case11 width hwidth level mode rest breaks contents ih =>
    obtain ⟨hhead, hrest⟩ := List.forall_mem_cons.1 h
    rw [inside_of_isSettled hhead] at ih ⊢
    rw [← reach_group]
    exact ih (List.forall_mem_cons.2 ⟨hhead.group.1, hrest⟩)
  | case12 | case13 => cases (h _ List.mem_cons_self).doc
  | case14 width hwidth level mode rest ih =>
    have hrest := ih fun command hmem => h command (List.mem_cons_of_mem _ hmem)
    cases mode with
    | flat =>
      rw [reach_flat]
      simpa [Doc.flatWidth] using hrest
    | broken =>
      rw [reach_lineBreak rfl rfl]
      simpa using hwidth
  | case15 width hwidth level mode rest ih =>
    have hrest := ih fun command hmem => h command (List.mem_cons_of_mem _ hmem)
    cases mode with
    | flat =>
      rw [reach_flat]
      simp only [Doc.flatWidth, reduceCtorEq, decide_false, Bool.false_or, hrest]
      omega
    | broken =>
      rw [reach_lineBreak rfl rfl]
      simpa using hwidth
  | case16 width hwidth level mode rest | case17 width hwidth level mode rest =>
    cases mode with
    | flat => cases (h _ List.mem_cons_self).unbroken rfl
    | broken =>
      rw [reach_lineBreak rfl rfl]
      simpa using hwidth

/-! ## Steps of a settled state -/

/-- The commands are settled, those that are flat come first, nothing is put off, and no line broke
inside flat content. -/
structure State.IsSettled (state : State) : Prop where
  commands : ∀ command ∈ state.commands, command.IsSettled
  ordered : state.commands.Pairwise fun command next => command.mode = .broken → next.mode = .broken
  suffixes : state.suffixes = []
  measured : state.remeasure = false

section
variable {state : State} {command : Command} {rest : List Command}

/-- The next command of a settled state is settled, and so are the others. Counterpart of
`State.IsSettled`. -/
theorem State.IsSettled.forall_cons (h : state.IsSettled)
    (hcommands : state.commands = command :: rest) :
    command.IsSettled ∧ ∀ other ∈ rest, other.IsSettled := by
  have hsettled := h.commands
  rw [hcommands] at hsettled
  exact List.forall_mem_cons.1 hsettled

/-- After a broken command of a settled state there are broken ones only. Counterpart of
`State.IsSettled`. -/
theorem State.IsSettled.ordered_cons (h : state.IsSettled)
    (hcommands : state.commands = command :: rest) :
    (∀ other ∈ rest, command.mode = .broken → other.mode = .broken) ∧
      rest.Pairwise fun command next => command.mode = .broken → next.mode = .broken := by
  have hordered := h.ordered
  rw [hcommands] at hordered
  exact List.pairwise_cons.1 hordered

end

/-- What a step does with a settled state, and its events: the next command is replaced by its
parts, or a group is entered flat since it fits, or a text is written, which may stand for a line
that is left flat, or the line is broken. -/
inductive Move (style : Style) (state : State) : List Event → State → Prop
  | parts {command : Command} {parts rest : List Command} : state.commands = command :: rest →
    (∀ part ∈ parts, part.IsSettled ∧ part.mode = command.mode) →
    reach (parts ++ rest) = reach state.commands →
    Move style state [] { state with commands := parts ++ rest }
  | flat {level : Nat} {contents : Doc} {rest : List Command} :
    state.commands = ⟨level, .broken, .group false contents⟩ :: rest →
    state.column + reach (⟨level, .flat, contents⟩ :: rest) ≤ style.printWidth →
    Move style state [] { state with commands := ⟨level, .flat, contents⟩ :: rest }
  | text {command : Command} {rest : List Command} (isJoint isNote : Bool) (content : List Char) :
    state.commands = command :: rest → (isJoint = true → command.mode = .flat) →
    reach state.commands = content.length + reach rest →
    Move style state ((if isJoint then [.joint] else []) ++ Event.ofText isNote content)
      (State.write { state with commands := rest } content)
  | lineBreak {command : Command} {rest : List Command} {ink : Ink} {next : State} :
    state.commands = command :: rest → command.mode = .broken → ink.isBreak = true →
    next.commands = rest → next.suffixes = [] → next.remeasure = false →
    next.column = (PrintedLine.after ink).width style → Move style state [.ink ink] next

section
variable {style : Style} {state next : State}

/-- A group that may be flat is entered flat if it fits. Counterpart of `performGroup`. -/
theorem perform_group_broken {level : Nat} {contents : Doc} {rest : List Command}
    (hsettled : ∀ command ∈ (⟨level, .flat, contents⟩ : Command) :: rest, command.IsSettled)
    (hmeasured : state.remeasure = false) :
    perform style ⟨level, .broken, .group false contents⟩ { state with commands := rest } =
      if state.column + reach (⟨level, .flat, contents⟩ :: rest) ≤ style.printWidth then
        { state with commands := ⟨level, .flat, contents⟩ :: rest }
      else { state with commands := ⟨level, .broken, contents⟩ :: rest } := by
  obtain ⟨commands, suffixes, output, column, remeasure⟩ := state
  obtain rfl : remeasure = false := hmeasured
  have hfits : State.fitsNext style ⟨rest, suffixes, output, column, false⟩
      ⟨level, .flat, contents⟩ = true ↔
      column + reach (⟨level, .flat, contents⟩ :: rest) ≤ style.printWidth := by
    refine (fits_iff_reach hsettled).trans ?_
    dsimp only
    omega
  simp only [perform, performGroup, reduceCtorEq, false_and, if_false, Bool.false_eq_true,
    not_false_eq_true, true_and, hfits]
  rfl

/-- A group that is broken already, or that is inside flat content, is left as it is. Counterpart of
`performGroup`. -/
theorem perform_group_kept {level : Nat} {mode : Mode} {breaks : Bool} {contents : Doc}
    {rest : List Command}
    (hkept : (mode = .flat ∧ breaks = false) ∨ (mode = .broken ∧ breaks = true))
    (hmeasured : state.remeasure = false) :
    perform style ⟨level, mode, .group breaks contents⟩ { state with commands := rest } =
      { state with commands := ⟨level, mode, contents⟩ :: rest } := by
  obtain ⟨commands, suffixes, output, column, remeasure⟩ := state
  obtain rfl : remeasure = false := hmeasured
  rcases hkept with ⟨rfl, rfl⟩ | ⟨rfl, rfl⟩ <;> rfl

/-- A line that is broken writes its line break, if nothing is put off. Counterpart of
`performBreak`. -/
theorem commandEvents_lineBreak {doc : Doc} (level : Nat) (hsuffixes : state.suffixes = [])
    (hdoc : doc ∈ [Doc.softLine, .line, .hardLine, .literalLine]) :
    commandEvents ⟨level, .broken, doc⟩ state = [.ink (breakInk ⟨level, .broken, doc⟩)] := by
  have hinks : breakInks ⟨level, .broken, doc⟩ state = [breakInk ⟨level, .broken, doc⟩] := by
    rw [breakInks, hsuffixes]
    rfl
  simp only [List.mem_cons, List.not_mem_nil, or_false] at hdoc
  rcases hdoc with rfl | rfl | rfl | rfl <;> exact congrArg (List.map Event.ink) hinks

/-- A line break starts a line of the level, with nothing left to do about what was put off.
Counterpart of `performBreak`. -/
theorem move_performBreak {command : Command} {rest : List Command} (h : state.IsSettled)
    (hcommands : state.commands = command :: rest) (hmode : command.mode = .broken) :
    Move style state [.ink (breakInk command)]
      (performBreak style command { state with commands := rest }) := by
  obtain ⟨commands, suffixes, output, column, remeasure⟩ := state
  obtain rfl : suffixes = [] := h.suffixes
  obtain rfl : remeasure = false := h.measured
  obtain ⟨level, mode, doc⟩ := command
  obtain rfl : mode = .broken := hmode
  have hbreak : (breakInk ⟨level, .broken, doc⟩).isBreak = true := by
    unfold breakInk
    split <;> rfl
  refine .lineBreak hcommands rfl hbreak ?_ ?_ ?_ ?_
  · cases doc <;> rfl
  · cases doc <;> rfl
  · cases doc <;> rfl
  · cases doc with
    | literalLine => exact (Nat.zero_mul _).symm
    | _ => rfl

/-- A command is replaced by the document inside it. Counterpart of `Move`. -/
theorem Move.part {command part : Command} {rest : List Command}
    (hcommands : state.commands = command :: rest) (hpart : part.IsSettled)
    (hmode : part.mode = command.mode) (hreach : reach (part :: rest) = reach (command :: rest)) :
    Move style state [] { state with commands := part :: rest } := by
  refine @Move.parts _ _ _ [part] rest hcommands (fun other hother => ?_)
    (by rw [hcommands]; exact hreach)
  rw [List.mem_singleton.1 hother]
  exact ⟨hpart, hmode⟩

/-- A group is replaced by its contents, in its mode or flat if they fit. Counterpart of
`performGroup`. -/
theorem move_group {level : Nat} {mode : Mode} {breaks : Bool} {contents : Doc}
    {rest : List Command} (h : state.IsSettled)
    (hcommands : state.commands = ⟨level, mode, .group breaks contents⟩ :: rest) :
    Move style state []
      (perform style ⟨level, mode, .group breaks contents⟩ { state with commands := rest }) := by
  obtain ⟨hhead, hrest⟩ := h.forall_cons hcommands
  have hpart : Move style state [] { state with commands := ⟨level, mode, contents⟩ :: rest } :=
    .part hcommands hhead.group.1 rfl (reach_group ..)
  cases mode with
  | flat =>
    obtain rfl : breaks = false := hhead.unbroken rfl
    rwa [perform_group_kept (.inl ⟨rfl, rfl⟩) h.measured]
  | broken =>
    cases breaks with
    | true => rwa [perform_group_kept (.inr ⟨rfl, rfl⟩) h.measured]
    | false =>
      rw [perform_group_broken (List.forall_mem_cons.2 ⟨hhead.group.2 rfl, hrest⟩) h.measured]
      split
      · rename_i hfits
        exact .flat hcommands hfits
      · exact hpart

/-- Every step of a settled state is a move. Counterpart of `step`. -/
theorem move_of_step (h : state.IsSettled) (hstep : step style state = some next) :
    Move style state (stepEvents state) next := by
  obtain ⟨command, rest, hcommands, -, rfl⟩ | ⟨hcommands, -, -⟩ := step_cases hstep
  · obtain ⟨hhead, -⟩ := h.forall_cons hcommands
    have hevents : stepEvents state = commandEvents command state := by
      unfold stepEvents
      rw [hcommands]
    rw [hevents]
    obtain ⟨level, mode, doc⟩ := command
    cases doc with
    | empty =>
      exact @Move.parts _ _ _ [] rest hcommands
        nofun (by rw [hcommands, reach_skip (.inl rfl)]; rfl)
    | breakParent =>
      exact @Move.parts _ _ _ [] rest hcommands
        nofun (by rw [hcommands, reach_skip (.inr rfl)]; rfl)
    | text content =>
      refine .text false false content.toList hcommands nofun ?_
      rw [hcommands, reach_text (.inl rfl), String.length_toList]
    | note content =>
      refine .text false true content.toList hcommands nofun ?_
      rw [hcommands, reach_text (.inr rfl), String.length_toList]
    | softLine =>
      cases mode with
      | flat =>
        exact .text true false [] hcommands (fun _ => rfl) (by rw [hcommands]; rfl)
      | broken =>
        rw [commandEvents_lineBreak level h.suffixes (by simp)]
        exact move_performBreak h hcommands rfl
    | line =>
      cases mode with
      | flat =>
        exact .text true false [' '] hcommands (fun _ => rfl) (by rw [hcommands]; rfl)
      | broken =>
        rw [commandEvents_lineBreak level h.suffixes (by simp)]
        exact move_performBreak h hcommands rfl
    | hardLine | literalLine =>
      cases mode with
      | flat => cases hhead.unbroken rfl
      | broken =>
        rw [commandEvents_lineBreak level h.suffixes (by simp)]
        exact move_performBreak h hcommands rfl
    | concat items =>
      refine .parts hcommands ?_ (by rw [hcommands, reach_concat])
      intro part hpart
      refine ⟨hhead.items part hpart, ?_⟩
      obtain ⟨doc, -, rfl⟩ := List.mem_map.1 hpart
      rfl
    | indent contents => exact .part hcommands (hhead.indent _) rfl (reach_indent ..)
    | ifBreak broken flat => exact .part hcommands hhead.ifBreak rfl (reach_ifBreak ..)
    | group breaks contents => exact move_group h hcommands
    | alternatives breaks options => cases hhead.doc
    | suffix contents => cases hhead.doc
  · -- Nothing is put off, so there is no step at the end.
    unfold step at hstep
    rw [hcommands, h.suffixes] at hstep
    cases hstep

/-- A move keeps a state settled. Counterpart of `Move`. -/
theorem State.IsSettled.move {events : List Event} (h : state.IsSettled)
    (hmove : Move style state events next) :
    next.IsSettled := by
  cases hmove with
  | @parts command parts rest hcommands hparts _ =>
    obtain ⟨hfirst, hordered⟩ := h.ordered_cons hcommands
    refine ⟨?_, ?_, h.suffixes, h.measured⟩
    · intro other hother
      exact (List.mem_append.1 hother).elim (fun hpart => (hparts other hpart).1)
        ((h.forall_cons hcommands).2 other)
    · refine List.pairwise_append.2 ⟨?_, hordered, ?_⟩
      · refine List.pairwise_of_forall_mem_list ?_
        intro part hpart other hother hmode
        rw [(hparts other hother).2, ← (hparts part hpart).2, hmode]
      · intro part hpart other hother hmode
        exact hfirst other hother ((hparts part hpart).2 ▸ hmode)
  | @flat level contents rest hcommands _ =>
    obtain ⟨hhead, hrest⟩ := h.forall_cons hcommands
    exact ⟨List.forall_mem_cons.2 ⟨hhead.group.2 rfl, hrest⟩,
      List.pairwise_cons.2 ⟨nofun, (h.ordered_cons hcommands).2⟩, h.suffixes, h.measured⟩
  | text _ _ _ hcommands _ _ =>
    exact ⟨(h.forall_cons hcommands).2, (h.ordered_cons hcommands).2, h.suffixes, h.measured⟩
  | lineBreak hcommands _ _ hnext hsuffixes hmeasured _ =>
    exact ⟨hnext ▸ (h.forall_cons hcommands).2, hnext ▸ (h.ordered_cons hcommands).2, hsuffixes,
      hmeasured⟩

/-! ## Runs of a settled state -/

/-- The width of the line so far is the column. Once the line holds a joint, or a flat command is
next, the commands reach no further than the width. -/
structure Tight (style : Style) (line : PrintedLine) (state : State) : Prop where
  column : line.width style = state.column
  reach : line.hasJoint = true ∨ (∃ command ∈ state.commands, command.mode = .flat) →
    state.column + Layout.reach state.commands ≤ style.printWidth

/-- A line with a joint is no wider than the width. Counterpart of `Tight`. -/
theorem Tight.width_le {line : PrintedLine} (h : Tight style line state)
    (hjoint : line.hasJoint = true) :
    line.width style ≤ style.printWidth := by
  have hreach := h.reach (.inl hjoint)
  have hcolumn := h.column
  omega

/-- After a move the line is tight, which is the same line with more on it, or the next one.
Counterpart of `Move`. -/
theorem Tight.move {line : PrintedLine} {events : List Event} (h : state.IsSettled)
    (htight : Tight style line state) (hmove : Move style state events next) :
    ∃ after : PrintedLine, Tight style after next ∧
      ((∀ tail, linesFrom line (events ++ tail) = linesFrom after tail) ∨
        ∀ tail, linesFrom line (events ++ tail) = line :: linesFrom after tail) := by
  cases hmove with
  | @parts command parts rest hcommands hparts hreach =>
    refine ⟨line, ⟨htight.column, fun hflat => ?_⟩, .inl fun _ => rfl⟩
    rw [hreach]
    refine htight.reach (hflat.imp_right ?_)
    rintro ⟨other, hother, hmode⟩
    rw [hcommands]
    rcases List.mem_append.1 hother with hpart | hrest
    · exact ⟨command, List.mem_cons_self, (hparts other hpart).2 ▸ hmode⟩
    · exact ⟨other, List.mem_cons_of_mem _ hrest, hmode⟩
  | flat hcommands hfits => exact ⟨line, ⟨htight.column, fun _ => hfits⟩, .inl fun _ => rfl⟩
  | @text command rest isJoint isNote content hcommands hjoint hreach =>
    refine ⟨{ line with
      hasJoint := line.hasJoint || isJoint, content := line.content ++ content }, ⟨?_, ?_⟩, .inl ?_⟩
    · have hcolumn := htight.column
      simp only [PrintedLine.width, List.length_append, State.write] at hcolumn ⊢
      omega
    · intro hflat
      have hbefore : line.hasJoint = true ∨ ∃ command ∈ state.commands, command.mode = .flat := by
        rw [hcommands]
        rcases hflat with hline | ⟨other, hother, hmode⟩
        · rcases Bool.or_eq_true_iff.1 hline with hline | hline
          · exact .inl hline
          · exact .inr ⟨command, List.mem_cons_self, hjoint hline⟩
        · exact .inr ⟨other, List.mem_cons_of_mem _ hother, hmode⟩
      have hwithin := htight.reach hbefore
      simp only [State.write]
      omega
    · intro tail
      rw [List.append_assoc]
      cases isJoint with
      | false =>
        rw [Bool.or_false]
        exact linesFrom_ofText line isNote content tail
      | true =>
        rw [Bool.or_true]
        exact linesFrom_ofText { line with hasJoint := true } isNote content tail
  | @lineBreak command rest ink next hcommands hmode hbreak hrest _ _ hcolumn =>
    refine ⟨.after ink, ⟨hcolumn.symm, ?_⟩, .inr fun tail => ?_⟩
    · have hafter : (PrintedLine.after ink).hasJoint = false := by
        cases ink <;> rfl
      rintro (hline | ⟨other, hother, hflat⟩)
      · rw [hafter] at hline
        cases hline
      · rw [hrest] at hother
        rw [(h.ordered_cons hcommands).1 other hother hmode] at hflat
        cases hflat
    · cases ink with
      | char => cases hbreak
      | newline | literal => rfl

/-- From a tight line on, no line that holds a joint exceeds the width. Counterpart of
`linesFrom`. -/
theorem width_le_of_mem_linesFrom {line : PrintedLine} (h : state.IsSettled)
    (htight : Tight style line state) :
    ∀ printed ∈ linesFrom line (events style state), printed.hasJoint = true →
      printed.width style ≤ style.printWidth := by
  fun_induction run style state generalizing line with
  | case1 state next hstep ih =>
    have hmove := move_of_step h hstep
    obtain ⟨after, hafter, hlines | hlines⟩ := htight.move h hmove
    · rw [events_of_step hstep, hlines]
      exact ih (h.move hmove) hafter
    · rw [events_of_step hstep, hlines]
      exact List.forall_mem_cons.2 ⟨htight.width_le, ih (h.move hmove) hafter⟩
  | case2 state hdone =>
    rw [events_of_done hdone]
    exact List.forall_mem_singleton.2 htight.width_le

end

/-- The states that the layout of a document goes through. -/
inductive Reached (style : Style) (doc : Doc) : State → Prop
  | start : Reached style doc (start doc)
  | step {state next : State} : Reached style doc state → Layout.step style state = some next →
    Reached style doc next

/-- The layout of a settled document starts in a settled state. Counterpart of `start`. -/
theorem settled_start {doc : Doc} (h : doc.isSettled = true) : (start doc).IsSettled := by
  refine ⟨?_, List.pairwise_singleton .., rfl, rfl⟩
  intro command hcommand
  rw [List.mem_singleton.1 hcommand]
  exact ⟨h, nofun⟩

/-- All states of the layout of a settled document are settled. Counterpart of `Reached`. -/
theorem Reached.isSettled {style : Style} {doc : Doc} {state : State} (h : Reached style doc state)
    (hdoc : doc.isSettled = true) : state.IsSettled := by
  induction h with
  | start => exact settled_start hdoc
  | step _ hstep ih => exact ih.move (move_of_step ih hstep)

end Layout

open Layout

/-- Groups keep a settled document within the width. A line of the output on which a line of the
document was left flat is no wider than the print width. And a group that may be flat is broken
exactly when it is too wide: when its flat width, with what follows up to the first line break that
may come, exceeds what is left of the line. Counterpart of `Doc.layout`. -/
theorem Doc.layout_keeps_width (style : Style) {doc : Doc} (h : doc.isSettled = true) :
    doc.layout style = writeLines style (linesOf style doc) ∧
    (∀ line ∈ linesOf style doc, line.hasJoint = true → line.width style ≤ style.printWidth) ∧
    ∀ state next level contents rest, Reached style doc state → step style state = some next →
      state.commands = ⟨level, .broken, .group false contents⟩ :: rest →
      (next.commands = ⟨level, .broken, contents⟩ :: rest ↔
        (style.printWidth : Int) - state.column <
          contents.flatWidth + Doc.leadWidthOf (rest.map Command.doc)) := by
  refine ⟨layout_eq_writeLines style doc, ?_, ?_⟩
  · refine width_le_of_mem_linesFrom (settled_start h)
      ⟨Nat.add_zero _ |>.trans (Nat.zero_mul _), ?_⟩
    rintro (hjoint | ⟨command, hcommand, hmode⟩)
    · cases hjoint
    · rw [List.mem_singleton.1 hcommand] at hmode
      cases hmode
  · intro state next level contents rest hreached hstep hcommands
    have hsettled := hreached.isSettled h
    obtain ⟨hhead, hrest⟩ := hsettled.forall_cons hcommands
    have hbroken : ∀ other ∈ rest, other.mode = .broken :=
      fun other hother => (hsettled.ordered_cons hcommands).1 other hother rfl
    have hnext : next = perform style ⟨level, .broken, .group false contents⟩
        { state with commands := rest } := by
      unfold step at hstep
      rw [hcommands] at hstep
      exact (Option.some.inj hstep).symm
    rw [hnext,
      perform_group_broken (List.forall_mem_cons.2 ⟨hhead.group.2 rfl, hrest⟩) hsettled.measured,
      reach_flat, reach_eq_leadWidthOf hbroken]
    split
    · rename_i hfits
      exact iff_of_false (by simp) (by omega)
    · rename_i hwide
      exact iff_of_true rfl (by omega)

/-- A group that may be flat, as an instance. -/
theorem Doc.layout_keeps_width_group :
    (group false (concat [text "f(", softLine, text "x", softLine, text ")"])).isSettled = true ∧
    ∀ line ∈ linesOf {} (group false (concat [text "f(", softLine, text "x", softLine, text ")"])),
      line.hasJoint = true → line.width {} ≤ 80 :=
  ⟨by decide, (layout_keeps_width {} (by decide)).2.1⟩

end LuaFormatter
