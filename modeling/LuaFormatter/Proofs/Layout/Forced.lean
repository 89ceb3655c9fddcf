import LuaFormatter.Proofs.Layout.Measure
import LuaFormatter.Proofs.Layout.Width

/-!
# Forced choices

`fits` and `step` read the same commands: the one measures them up to a line break, the other prints
them. They read a choice that must be its most expanded form alike, except in one place. Inside flat
content that is not measured again, a step takes the first form, where `fits` has measured the last
one (`State.Overlooks`). `forcedChoice_expanded` says that everywhere else the last form is printed,
and that the two never part otherwise: commands that fit go on to fit until their line breaks,
whatever is decided on the way.
-/

namespace LuaFormatter.Layout

/-! ## What a step leaves -/

/-- The command breaks the line. -/
def Command.breaksLine (command : Command) : Bool :=
  match command.doc with
  | .hardLine | .literalLine => true
  | .softLine | .line => command.mode == .broken
  | _ => false

/-- The commands fit on the rest of the line. -/
def State.Fits (style : Style) (state : State) : Prop :=
  fits ((style.printWidth : Int) - state.column) state.commands = true

/-- A choice that must be its most expanded form is next, but it is inside flat content that is not
measured again, and its first form is another one. -/
def State.Overlooks (state : State) : Prop :=
  ∃ level options rest, state.commands = ⟨level, .flat, .alternatives true options⟩ :: rest ∧
    state.remeasure = false ∧ options.head? ≠ options.getLast?

section
variable {style : Style} {state : State} {level : Nat} {mode : Mode} {rest : List Command}

/-- In a state that fits, the column is within the width. Counterpart of `State.Fits`. -/
theorem State.Fits.column_le (h : state.Fits style) : state.column ≤ style.printWidth := by
  have hwidth : ¬((style.printWidth : Int) - state.column < 0) := by
    intro hnegative
    rw [State.Fits, fits_of_neg hnegative] at h
    cases h
  omega

/-- A group that fits goes on to fit: it is entered in the mode that was measured, or measured
again. Counterpart of `performGroup`. -/
theorem fits_performGroup {breaks : Bool} {contents : Doc}
    (h : State.Fits style { state with commands := ⟨level, mode, .group breaks contents⟩ ::
        rest }) :
    (performGroup style level mode breaks contents { state with commands := rest }).Fits style := by
  rw [State.Fits, fits_group] at h
  unfold performGroup
  split
  · exact h
  · dsimp only
    split
    · rename_i hflat
      exact hflat.2
    · rename_i hwide
      have hbroken : mode.inside breaks = .broken := by
        cases breaks with
        | true => rfl
        | false =>
          cases mode with
          | broken => rfl
          | flat => exact absurd ⟨nofun, h⟩ hwide
      rw [hbroken] at h
      exact h

/-- A choice that fits goes on to fit, unless it is forced and overlooked: a form is taken that was
measured, or that is measured now. Counterpart of `performAlternatives`. -/
theorem fits_performAlternatives {breaks : Bool} {options : List Doc}
    (h : State.Fits style { state with commands := ⟨level, mode, .alternatives breaks options⟩ ::
        rest })
    (hforced : breaks = true → mode = .flat → state.remeasure = false →
        options.head? = options.getLast?) :
    (performAlternatives style level mode breaks options { state with commands := rest }).Fits
      style := by
  unfold performAlternatives
  split
  · rename_i first last hfirst hlast
    -- What `fits` has measured is the last form if the choice is broken, else the first.
    have hmeasured : ∀ {option : Doc}, (mode.inside breaks).option? options = some option →
        fits ((style.printWidth : Int) - state.column)
        (⟨level, mode.inside breaks, option⟩ :: rest) = true := by
      intro option hoption
      rw [State.Fits, fits_alternatives, hoption] at h
      exact h
    split
    · rename_i hflat
      obtain ⟨rfl, hremeasure⟩ := hflat
      refine hmeasured ?_
      cases breaks with
      | false => exact hfirst
      | true =>
        rw [← hfirst, hforced rfl rfl (by simpa using hremeasure)]
        rfl
    · dsimp only
      split
      · rename_i hbreaks
        subst hbreaks
        exact hmeasured hlast
      · rename_i hbreaks
        obtain rfl : breaks = false := by simpa using hbreaks
        split
        · rename_i option hfind
          have hfits := List.find?_some hfind
          exact hfits
        · rename_i hnone
          cases mode with
          | broken => exact hmeasured hlast
          | flat =>
            exact absurd (hmeasured hfirst)
              (List.find?_eq_none.1 hnone first (List.mem_of_head? hfirst))
  · rename_i hoptions
    obtain rfl : options = [] := by
      cases options with
      | nil => rfl
      | cons first others =>
        exact (hoptions first _ rfl (List.getLast?_eq_some_getLast (by simp))).elim
    have hnone : (mode.inside breaks).option? [] = none := by
      cases mode.inside breaks <;> rfl
    rw [State.Fits, fits_alternatives, hnone] at h
    exact h

/-- Commands that fit go on to fit after a step that does not break the line. Counterpart of
`step`. -/
theorem State.Fits.step {next : State} (h : state.Fits style) (hstep : step style state = some next)
    (hline : ∃ command ∈ state.commands.head?, command.breaksLine = false)
    (hforced : ¬state.Overlooks) :
    next.Fits style := by
  obtain ⟨command, rest, hcommands, -, rfl⟩ | ⟨hcommands, -, -⟩ := step_cases hstep
  · obtain ⟨_, hhead, hbreak⟩ := hline
    rw [hcommands] at hhead
    obtain rfl := Option.some.inj hhead
    obtain ⟨commands, suffixes, output, column, remeasure⟩ := state
    obtain rfl : commands = command :: rest := hcommands
    obtain ⟨level, mode, doc⟩ := command
    unfold State.Fits at h
    cases doc with
    | empty => rwa [fits_empty] at h
    | breakParent => rwa [fits_breakParent] at h
    | suffix contents => rwa [fits_suffix] at h
    | text content =>
      rw [fits_text, Int.sub_sub] at h
      exact h
    | note content =>
      rw [fits_note, Int.sub_sub] at h
      exact h
    | concat items => rwa [fits_concat] at h
    | indent contents => rwa [fits_indent] at h
    | ifBreak broken flat => rwa [fits_ifBreak] at h
    | group breaks contents => exact fits_performGroup h
    | alternatives breaks options =>
      refine fits_performAlternatives h ?_
      rintro rfl rfl hmeasured
      exact Classical.byContradiction fun hdiffer =>
        hforced ⟨level, options, rest, rfl, hmeasured, hdiffer⟩
    | softLine =>
      cases mode with
      | flat => rwa [fits_flatSoftLine] at h
      | broken => cases hbreak
    | line =>
      cases mode with
      | flat =>
        rw [fits_flatLine, Int.sub_sub] at h
        exact h
      | broken => cases hbreak
    | hardLine | literalLine => cases hbreak
  · obtain ⟨_, hhead, -⟩ := hline
    rw [hcommands] at hhead
    cases hhead

/-- The states that a state comes to, as long as a command is next that does not break the line and
no forced choice is overlooked. -/
inductive OnLine (style : Style) (state : State) : State → Prop
  | here : OnLine style state state
  | step {between next : State} : OnLine style state between →
      Layout.step style between = some next →
    (∃ command ∈ between.commands.head?, command.breaksLine = false) → ¬between.Overlooks →
    OnLine style state next

/-- Later on the same line a state fits still. Counterpart of `OnLine`. -/
theorem State.Fits.onLine {later : State} (h : state.Fits style)
    (hlater : OnLine style state later) :
    later.Fits style := by
  induction hlater with
  | here => exact h
  | step _ hstep hline hforced ih => exact ih.step hstep hline hforced

/-- A forced choice that is not overlooked is replaced by its last form, in broken mode. Counterpart
of `performAlternatives`. -/
theorem step_forced {options : List Doc} {last : Doc}
    (hcommands : state.commands = ⟨level, mode, .alternatives true options⟩ :: rest)
    (hlast : options.getLast? = some last) (hforced : ¬state.Overlooks) :
    Layout.step style state =
      some { state with commands := ⟨level, .broken, last⟩ :: rest, remeasure := false } := by
  obtain ⟨first, hfirst⟩ := exists_first hlast
  have hperform : perform style ⟨level, mode, .alternatives true options⟩
      { state with commands := rest } =
      { state with commands := ⟨level, .broken, last⟩ :: rest, remeasure := false } := by
    simp only [perform, performAlternatives, hfirst, hlast]
    split
    · rename_i hflat
      obtain ⟨rfl, hremeasure⟩ := hflat
      have hmeasured : state.remeasure = false := by simpa using hremeasure
      have hsame : options.head? = options.getLast? :=
        Classical.byContradiction fun hdiffer =>
        hforced ⟨level, options, rest, hcommands, hmeasured, hdiffer⟩
      rw [hfirst, hlast] at hsame
      obtain rfl := Option.some.inj hsame
      simp only [State.push, Mode.inside, hmeasured, if_true]
    · rfl
  simp only [Layout.step, hcommands, hperform]

end

/-- A choice that must be its most expanded form is laid out as its last form in broken mode, which
is what `fits` measures of it, in any state that does not overlook it. From commands that fit on,
everything fits until the line breaks or a forced choice is overlooked: whichever groups and choices
are printed on the way, flat, broken or measured again, they take no more room than was measured.
Counterpart of `performAlternatives` and `fits`. -/
theorem forcedChoice_expanded (style : Style) (state : State) :
    (∀ level mode options last rest,
      state.commands = ⟨level, mode, .alternatives true options⟩ :: rest →
      options.getLast? = some last →
      (∀ width, fits width state.commands = fits width (⟨level, .broken, last⟩ :: rest)) ∧
      (¬state.Overlooks → step style state =
        some { state with commands := ⟨level, .broken, last⟩ :: rest, remeasure := false })) ∧
    (state.Fits style → ∀ later, OnLine style state later →
      later.Fits style ∧ later.column ≤ style.printWidth) := by
  refine ⟨fun level mode options last rest hcommands hlast => ⟨fun width => ?_, ?_⟩, ?_⟩
  · rw [hcommands]
    have hoption : (mode.inside true).option? options = some last := hlast
    rw [fits_alternatives, hoption]
    rfl
  · exact step_forced hcommands hlast
  · intro h later hlater
    have hfits := h.onLine hlater
    exact ⟨hfits, hfits.column_le⟩

/-- A choice of two forms that must be the second, which breaks its line. -/
def forcedForms : List Doc :=
  [.text "a", .concat [.text "b", .hardLine]]

/-- The state in which such a choice is next inside flat content. -/
def forcedNext (remeasure : Bool) : State where
  commands := commandsOf 0 .flat [.alternatives true forcedForms, .text ")"]
  suffixes := []
  output := ['(', 'f']
  column := 2
  remeasure := remeasure

/-- The state in which a forced choice is next fits. Counterpart of `forcedNext`. -/
theorem fits_forcedNext (remeasure : Bool) : (forcedNext remeasure).Fits {} := by
  have hoption : (Mode.flat.inside true).option? forcedForms =
      some (.concat [.text "b", .hardLine]) := rfl
  show fits 78 (⟨0, .flat, .alternatives true forcedForms⟩ :: _) = true
  rw [fits_alternatives, hoption]
  simp only [fits_concat, commandsOf, List.map_cons, List.cons_append, fits_text,
    fits_lineBreak _ _ _ _ (.inl rfl)]
  decide

/-- A forced choice that is measured again, as an instance: its last form is laid out, and the line
is printed up to its break within the width. -/
theorem forcedChoice_expanded_measured :
    ¬(forcedNext true).Overlooks ∧
    step {} (forcedNext true) = some { forcedNext true with
      commands := ⟨0, .broken, .concat [.text "b", .hardLine]⟩ :: [⟨0, .flat, .text ")"⟩],
      remeasure := false } ∧
    ∃ later, OnLine {} (forcedNext true) later ∧ later.output = ['b', '(', 'f'] ∧
    later.Fits {} := by
  have hseen : ¬(forcedNext true).Overlooks := by
    rintro ⟨_, _, _, _, hmeasured, _⟩
    cases hmeasured
  obtain ⟨hforced, hruns⟩ := forcedChoice_expanded {} (forcedNext true)
  have hstep := (hforced 0 .flat forcedForms _ _ rfl rfl).2 hseen
  have hlast := OnLine.here.step hstep ⟨_, rfl, rfl⟩ hseen
  have htext := hlast.step rfl ⟨_, rfl, rfl⟩ (by rintro ⟨_, _, _, ⟨⟩, _⟩)
  have hlater := htext.step rfl ⟨_, rfl, rfl⟩ (by rintro ⟨_, _, _, ⟨⟩, _⟩)
  exact ⟨hseen, hstep, _, hlater, rfl, (hruns (fits_forcedNext true) _ hlater).1⟩

/-- A forced choice is not always its most expanded form: inside content that was found to fit and
is printed flat, the first form is laid out. -/
theorem forcedChoice_overlooked :
    ¬∀ style doc state next level mode options last rest, Reached style doc state →
      state.commands = ⟨level, mode, .alternatives true options⟩ :: rest →
      options.getLast? = some last →
      step style state = some next → next.commands = ⟨level, .broken, last⟩ :: rest := by
  intro h
  let contents : Doc := .concat [.text "f(", .alternatives true forcedForms, .text ")"]
  let entered : State := { start contents with commands := [⟨0, .flat, contents⟩] }
  have hfits : entered.Fits {} := by
    show fits 80 [⟨0, .flat, contents⟩] = true
    rw [fits_concat, commandsOf, List.map_cons, List.cons_append, fits_text]
    exact fits_forcedNext false
  have hgroup : step {} (start (.group false contents)) = some entered :=
    congrArg some (if_pos ⟨nofun, hfits⟩)
  have hreached : Reached {} (.group false contents) (forcedNext false) :=
    ((Reached.start.step hgroup).step rfl).step rfl
  have hnext := h {} _ _ _ 0 .flat forcedForms _ _ hreached rfl rfl rfl
  cases hnext

end LuaFormatter.Layout
