import LuaFormatter.Proofs.Layout.Trace

/-!
# Stretches of a layout

What a layout does from some state on, up to a later state: `Proceeds` are steps of a run together
with the inks that they write, and these are the first that the run from there on writes
(`Proceeds.trace`).
-/

namespace LuaFormatter.Layout

/-- Steps of the layout lead from a state to a later one and write inks on the way. -/
inductive Proceeds (style : Style) : State → List Ink → State → Prop
  | refl (state : State) : Proceeds style state [] state
  | step {state next later : State} {inks : List Ink} : Layout.step style state = some next →
    Proceeds style next inks later → Proceeds style state (stepInks state ++ inks) later

section
variable {style : Style} {state later last : State} {inks others : List Ink} {command : Command}
  {rest : List Command}

/-- Steps that write inks one after the other. Counterpart of `Proceeds`. -/
theorem Proceeds.trans (h : Proceeds style state inks later)
    (hlater : Proceeds style later others last) :
    Proceeds style state (inks ++ others) last := by
  induction h with
  | refl _ => exact hlater
  | step hstep _ ih =>
    rw [List.append_assoc]
    exact .step hstep (ih hlater)

/-- The inks of the steps are the first that the run writes. Counterpart of `trace`. -/
theorem Proceeds.trace (h : Proceeds style state inks later) :
    Layout.trace style state = inks ++ Layout.trace style later := by
  induction h with
  | refl _ => rfl
  | step hstep _ ih => rw [trace_of_step hstep, ih, List.append_assoc]

/-- The next command is performed, and writes its inks. Counterpart of `perform`. -/
theorem Proceeds.performed (hcommands : state.commands = command :: rest)
    (hlater : Proceeds style (perform style command { state with commands := rest }) inks later) :
    Proceeds style state (commandInks command state ++ inks) later := by
  have hstep : Layout.step style state =
      some (perform style command { state with commands := rest }) := by
    rw [Layout.step, hcommands]
  have hinks : stepInks state = commandInks command state := by
    rw [stepInks, hcommands]
  rw [← hinks]
  exact .step hstep hlater

/-- One command is performed. Counterpart of `perform`. -/
theorem Proceeds.one (style : Style) (hcommands : state.commands = command :: rest) :
    Proceeds style state (commandInks command state)
      (perform style command { state with commands := rest }) := by
  have hone := @Proceeds.performed style _ _ _ _ _ hcommands (.refl _)
  rwa [List.append_nil] at hone

end

end LuaFormatter.Layout
