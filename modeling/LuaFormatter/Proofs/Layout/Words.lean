import LuaFormatter.Proofs.Layout.Trace

/-!
# The words of a document

A document stands for many texts. `Doc.spells` relates it to its words: the inks that it writes for
one choice of a form in every choice and of a mode in every group. A part that is put off is a
single letter `Mark.later` of the word.

`Flushed` moves the parts that were put off to the next line break, and `flushed_trace` says that
the layout does nothing else: its trace is a flushed word of the document. What holds of every word
of a document, whatever the width, can so be carried over to the output.
-/

namespace LuaFormatter.Layout

/-- A letter of a word: an ink, or a part that is put off until the next line break. -/
inductive Mark where
  | ink (ink : Ink)
  | later (marks : List Mark)

/-- The letters of inks. -/
def Mark.ofInks (inks : List Ink) : List Mark :=
  inks.map Mark.ink

/-- The ink of a line that is only broken in broken mode. -/
def Mode.lineMarks (mode : Mode) (level : Nat) (flat : List Ink) : List Mark :=
  Mark.ofInks (if mode = .flat then flat else [.newline level])

end LuaFormatter.Layout

namespace LuaFormatter.Doc

open LuaFormatter.Layout

mutual

/-- A document at a level of indentation and in a mode can be written as a word. -/
def spells (level : Nat) (mode : Mode) : Doc → List Mark → Prop
  | empty, word | breakParent, word => word = []
  | text content, word => word = Mark.ofInks (Ink.ofText false content.toList)
  | note content, word => word = Mark.ofInks (Ink.ofText true content.toList)
  | softLine, word => word = mode.lineMarks level []
  | line, word => word = mode.lineMarks level [.char false ' ']
  | hardLine, word => word = [.ink (.newline level)]
  | literalLine, word => word = [.ink .literal]
  | concat items, word => allSpell level mode items word
  | indent contents, word => spells (deeper level) mode contents word
  | group breaks contents, word =>
    spells level .broken contents word ∨ (breaks = false ∧ spells level .flat contents word)
  | alternatives _ options, word => (options = [] ∧ word = []) ∨ anySpells level options word
  | ifBreak broken flat, word =>
    (mode = .broken ∧ spells level mode broken word) ∨
      (mode = .flat ∧ spells level mode flat word)
  | suffix contents, word => ∃ marks, word = [.later marks] ∧ spells level mode contents marks

/-- Documents one after the other can be written as a word. -/
def allSpell (level : Nat) (mode : Mode) : List Doc → List Mark → Prop
  | [], word => word = []
  | doc :: rest, word =>
    ∃ front back, word = front ++ back ∧ spells level mode doc front ∧
      allSpell level mode rest back

/-- One of the documents can be written as a word, in one of the modes. -/
def anySpells (level : Nat) : List Doc → List Mark → Prop
  | [], _ => False
  | doc :: rest, word =>
    spells level .flat doc word ∨ spells level .broken doc word ∨ anySpells level rest word

end

/-- A form of a choice spells what the choice may. Counterpart of `anySpells`. -/
theorem anySpells_of_mem {level : Nat} {mode : Mode} {doc : Doc} {docs : List Doc}
    {word : List Mark} (hmem : doc ∈ docs) (h : spells level mode doc word) :
    anySpells level docs word := by
  induction docs with
  | nil => simp at hmem
  | cons first rest ih =>
    rcases List.mem_cons.1 hmem with rfl | hmem
    · cases mode with
      | flat => exact .inl h
      | broken => exact .inr (.inl h)
    · exact .inr (.inr (ih hmem))

/-- What a choice spells one of its forms does, in one of the modes. Counterpart of `anySpells`. -/
theorem exists_of_anySpells {level : Nat} {docs : List Doc} {word : List Mark}
    (h : anySpells level docs word) : ∃ doc ∈ docs, ∃ mode, spells level mode doc word := by
  induction docs with
  | nil => exact h.elim
  | cons first rest ih =>
    rcases h with h | h | h
    · exact ⟨first, by simp, .flat, h⟩
    · exact ⟨first, by simp, .broken, h⟩
    · obtain ⟨doc, hmem, hdoc⟩ := ih h
      exact ⟨doc, by simp [hmem], hdoc⟩

end LuaFormatter.Doc

namespace LuaFormatter.Layout

/-- Commands one after the other can be written as a word. -/
def commandsSpell : List Command → List Mark → Prop
  | [], word => word = []
  | command :: rest, word =>
    ∃ front back, word = front ++ back ∧ command.doc.spells command.level command.mode front ∧
      commandsSpell rest back

/-- Commands one after the other spell words one after the other. Counterpart of `commandsSpell`. -/
theorem commandsSpell_append {front back : List Command} {word : List Mark} :
    commandsSpell (front ++ back) word ↔
      ∃ first second, word = first ++ second ∧ commandsSpell front first ∧
        commandsSpell back second := by
  induction front generalizing word with
  | nil =>
    constructor
    · exact fun h => ⟨[], word, rfl, rfl, h⟩
    · rintro ⟨_, second, rfl, rfl, h⟩
      exact h
  | cons command front ih =>
    simp only [List.cons_append, commandsSpell, ih]
    constructor
    · rintro ⟨a, _, rfl, ha, b, c, rfl, hb, hc⟩
      exact ⟨a ++ b, c, by simp, ⟨a, b, rfl, ha, hb⟩, hc⟩
    · rintro ⟨_, c, rfl, ⟨a, b, rfl, ha, hb⟩, hc⟩
      exact ⟨a, b ++ c, by simp, ha, b, c, rfl, hb, hc⟩

/-- The commands for documents spell what these do. Counterpart of `commandsOf`. -/
theorem commandsSpell_commandsOf {level : Nat} {mode : Mode} {docs : List Doc}
    {word : List Mark} :
    commandsSpell (commandsOf level mode docs) word ↔ Doc.allSpell level mode docs word := by
  induction docs generalizing word with
  | nil => rfl
  | cons doc rest ih =>
    simp only [commandsOf, List.map_cons, commandsSpell, Doc.allSpell]
    simp only [← ih]
    rfl

/-- What a word leaves on paper: parts that were put off, here as one queue of letters, are written
before the next line break, or at the end. -/
inductive Flushed : List Mark → List Mark → List Ink → Prop
  | done : Flushed [] [] []
  | last {queue : List Mark} {inks : List Ink} :
    queue ≠ [] → Flushed [] queue inks → Flushed queue [] inks
  | char {queue word : List Mark} {inks : List Ink} (isNote : Bool) (c : Char) :
    Flushed queue word inks → Flushed queue (.ink (.char isNote c) :: word) (.char isNote c :: inks)
  | later {queue word marks : List Mark} {inks : List Ink} :
    Flushed (queue ++ marks) word inks → Flushed queue (.later marks :: word) inks
  | break_ {word : List Mark} {inks : List Ink} {ink : Ink} :
    ink.isBreak = true → Flushed [] word inks → Flushed [] (.ink ink :: word) (ink :: inks)
  | flush {queue word : List Mark} {inks : List Ink} {ink : Ink} :
    ink.isBreak = true → queue ≠ [] → Flushed [] (queue ++ .ink ink :: word) inks →
      Flushed queue (.ink ink :: word) inks

/-- A text is written at once, whatever is put off. Counterpart of `Flushed`. -/
theorem Flushed.ofText {queue word : List Mark} {inks : List Ink} (isNote : Bool)
    (content : List Char) (h : Flushed queue word inks) :
    Flushed queue (Mark.ofInks (Ink.ofText isNote content) ++ word)
      (Ink.ofText isNote content ++ inks) := by
  induction content with
  | nil => exact h
  | cons c rest ih => exact .char isNote c ih

/-- A word of a state: what is put off, and what is to be printed. -/
def State.Spells (state : State) (inks : List Ink) : Prop :=
  ∃ queue word, commandsSpell state.suffixes queue ∧ commandsSpell state.commands word ∧
    Flushed queue word inks

section
variable {style : Style} {command : Command} {state : State} {inks : List Ink}

/-- A command may be replaced by one whose words it has too. Counterpart of `State.Spells`. -/
theorem spells_push_of_imp {inner : Command} {other : State}
    (h : (other.push inner).Spells inks) (hcommands : other.commands = state.commands)
    (hsuffixes : other.suffixes = state.suffixes)
    (himp : ∀ word, inner.doc.spells inner.level inner.mode word →
      command.doc.spells command.level command.mode word) :
    (state.push command).Spells inks := by
  obtain ⟨queue, _, hqueue, ⟨front, back, rfl, hfront, hback⟩, hflushed⟩ := h
  exact ⟨queue, front ++ back, hsuffixes ▸ hqueue,
    ⟨front, back, rfl, himp front hfront, hcommands ▸ hback⟩, hflushed⟩

/-- A command that writes a text. Counterpart of `Doc.text` and `Doc.note`. -/
theorem spells_push_text {other : State} (isNote : Bool) (content : List Char)
    (hcommands : other.commands = state.commands) (hsuffixes : other.suffixes = state.suffixes)
    (hdoc : command.doc.spells command.level command.mode
      (Mark.ofInks (Ink.ofText isNote content)))
    (h : other.Spells inks) :
    (state.push command).Spells (Ink.ofText isNote content ++ inks) := by
  obtain ⟨queue, word, hqueue, hword, hflushed⟩ := h
  rw [hcommands] at hword
  rw [hsuffixes] at hqueue
  exact ⟨queue, _, hqueue, ⟨_, word, rfl, hdoc, hword⟩, hflushed.ofText isNote content⟩

/-- A group spells what is spelled after entering it, in whichever mode. Counterpart of
`performGroup`. -/
theorem spells_performGroup {level : Nat} {mode : Mode} {breaks : Bool} {contents : Doc}
    (h : (performGroup style level mode breaks contents state).Spells inks) :
    (state.push ⟨level, mode, .group breaks contents⟩).Spells inks := by
  unfold performGroup at h
  split at h
  · rename_i hflat
    refine spells_push_of_imp h rfl rfl (fun word hword => ?_)
    cases breaks with
    | true => exact .inl hword
    | false => exact .inr ⟨rfl, by simpa [Mode.inside, hflat.1] using hword⟩
  · dsimp only at h
    split at h
    · rename_i hfits
      exact spells_push_of_imp h rfl rfl
        (fun word hword => .inr ⟨by simpa using hfits.1, hword⟩)
    · exact spells_push_of_imp h rfl rfl (fun word hword => .inl hword)

/-- A choice spells what is spelled after choosing a form. Counterpart of `performAlternatives`. -/
theorem spells_performAlternatives {level : Nat} {mode : Mode} {breaks : Bool}
    {options : List Doc}
    (h : (performAlternatives style level mode breaks options state).Spells inks) :
    (state.push ⟨level, mode, .alternatives breaks options⟩).Spells inks := by
  have hmember : ∀ {inner : Command}, inner.doc ∈ options → inner.level = level →
      ∀ word, inner.doc.spells inner.level inner.mode word →
        Doc.spells level mode (.alternatives breaks options) word := by
    rintro inner hmem rfl word hword
    exact .inr (Doc.anySpells_of_mem hmem hword)
  unfold performAlternatives at h
  split at h
  · rename_i first last hfirst hlast
    have hfirst := List.mem_of_head? hfirst
    have hlast := List.mem_of_getLast? hlast
    split at h
    · exact spells_push_of_imp h rfl rfl (hmember hfirst rfl)
    · dsimp only at h
      split at h
      · exact spells_push_of_imp h rfl rfl (hmember hlast rfl)
      · split at h
        · rename_i option hfind
          exact spells_push_of_imp h rfl rfl (hmember (List.mem_of_find?_eq_some hfind) rfl)
        · exact spells_push_of_imp h rfl rfl (hmember hlast rfl)
  · rename_i hnone
    have hoptions : options = [] := by
      cases options with
      | nil => rfl
      | cons first rest =>
        exact (hnone first _ rfl (List.getLast?_eq_some_getLast (List.cons_ne_nil first rest))).elim
    obtain ⟨queue, word, hqueue, hword, hflushed⟩ := h
    exact ⟨queue, word, hqueue, ⟨[], word, rfl, .inl ⟨hoptions, rfl⟩, hword⟩, hflushed⟩

/-- The ink of a line break breaks the line. Counterpart of `breakInk`. -/
theorem isBreak_breakInk (command : Command) : (breakInk command).isBreak = true := by
  unfold breakInk
  split <;> rfl

/-- What is put off and then a line break spell what the line break writes. Counterpart of
`performBreak`. -/
theorem spells_performBreak
    (hdoc : ∀ word, command.doc.spells command.level command.mode word ↔
      word = [.ink (breakInk command)])
    (h : (performBreak style command state).Spells inks) :
    (state.push command).Spells (breakInks command state ++ inks) := by
  unfold performBreak at h
  dsimp only at h
  split at h
  · rename_i hempty
    rw [breakInks, if_pos hempty]
    obtain ⟨queue, word, hqueue, hword, hflushed⟩ :
        ∃ queue word, commandsSpell state.suffixes queue ∧ commandsSpell state.commands word ∧
          Flushed queue word inks := by
      split at h <;> exact h
    have hnil : queue = [] := by
      rw [List.isEmpty_iff.1 hempty] at hqueue
      exact hqueue
    subst hnil
    exact ⟨[], _, hqueue, ⟨_, word, rfl, (hdoc _).2 rfl, hword⟩,
      .break_ (isBreak_breakInk command) hflushed⟩
  · rename_i hpending
    rw [breakInks, if_neg hpending]
    obtain ⟨queue, word, hqueue, hword, hflushed⟩ := h
    have hnil : queue = [] := hqueue
    subst hnil
    obtain ⟨front, back, rfl, hfront, hback⟩ := commandsSpell_append.1 hword
    obtain ⟨mark, rest, rfl, hmark, hrest⟩ := hback
    rw [(hdoc mark).1 hmark] at hflushed
    refine ⟨front, [.ink (breakInk command)] ++ rest, hfront,
      ⟨_, rest, rfl, (hdoc _).2 rfl, hrest⟩, ?_⟩
    cases front with
    | nil => exact hflushed
    | cons first others => exact .flush (isBreak_breakInk command) (by simp) hflushed

/-- Performing a command writes a word of its document. Counterpart of `perform`. -/
theorem spells_perform (h : (perform style command state).Spells inks) :
    (state.push command).Spells (commandInks command state ++ inks) := by
  obtain ⟨level, mode, doc⟩ := command
  cases doc with
  | empty | breakParent =>
    obtain ⟨queue, word, hqueue, hword, hflushed⟩ := h
    exact ⟨queue, word, hqueue, ⟨[], word, rfl, rfl, hword⟩, hflushed⟩
  | text content => exact spells_push_text false content.toList rfl rfl rfl h
  | note content => exact spells_push_text true content.toList rfl rfl rfl h
  | softLine =>
    simp only [perform] at h
    simp only [commandInks]
    split at h
    · rename_i hflat
      rw [if_pos hflat]
      refine spells_push_text false [] rfl rfl ?_ h
      simp [Doc.spells, Mode.lineMarks, hflat, Ink.ofText]
    · rename_i hbroken
      rw [if_neg hbroken]
      refine spells_performBreak (fun word => ?_) h
      simp [Doc.spells, Mode.lineMarks, hbroken, Mark.ofInks, breakInk]
  | line =>
    simp only [perform] at h
    simp only [commandInks]
    split at h
    · rename_i hflat
      rw [if_pos hflat]
      refine spells_push_text false [' '] rfl rfl ?_ h
      simp [Doc.spells, Mode.lineMarks, hflat, Ink.ofText]
    · rename_i hbroken
      rw [if_neg hbroken]
      refine spells_performBreak (fun word => ?_) h
      simp [Doc.spells, Mode.lineMarks, hbroken, Mark.ofInks, breakInk]
  | hardLine | literalLine => exact spells_performBreak (fun word => Iff.rfl) h
  | concat items =>
    obtain ⟨queue, word, hqueue, hword, hflushed⟩ := h
    obtain ⟨front, back, rfl, hfront, hback⟩ := commandsSpell_append.1 hword
    exact ⟨queue, _, hqueue, ⟨front, back, rfl, commandsSpell_commandsOf.1 hfront, hback⟩, hflushed⟩
  | indent contents => exact spells_push_of_imp h rfl rfl (fun word hword => hword)
  | ifBreak broken flat =>
    refine spells_push_of_imp h rfl rfl (fun word hword => ?_)
    cases mode with
    | flat => exact .inr ⟨rfl, hword⟩
    | broken => exact .inl ⟨rfl, hword⟩
  | group breaks contents => exact spells_performGroup h
  | alternatives breaks options => exact spells_performAlternatives h
  | suffix contents =>
    obtain ⟨queue, word, hqueue, hword, hflushed⟩ := h
    obtain ⟨front, _, rfl, hfront, marks, _, rfl, hmarks, rfl⟩ := commandsSpell_append.1 hqueue
    rw [List.append_nil] at hflushed
    exact ⟨front, _, hfront, ⟨[.later marks], word, rfl, ⟨marks, rfl, hmarks⟩, hword⟩,
      .later hflushed⟩

/-- The trace of a state is a flushed word of it. Counterpart of `trace`. -/
theorem spells_trace (style : Style) (state : State) : state.Spells (trace style state) := by
  fun_induction run style state with
  | case1 state next hstep ih =>
    rw [trace_of_step hstep]
    obtain ⟨command, rest, hcommands, hinks, rfl⟩ | ⟨hcommands, hinks, rfl⟩ := step_cases hstep
    · obtain ⟨queue, word, hqueue, hword, hflushed⟩ := spells_perform ih
      rw [hinks]
      exact ⟨queue, word, hqueue, hcommands ▸ hword, hflushed⟩
    · obtain ⟨queue, word, hqueue, hword, hflushed⟩ := ih
      have hnil : queue = [] := hqueue
      subst hnil
      rw [State.flush, hcommands, List.append_nil] at hword
      rw [hinks, List.nil_append]
      refine ⟨word, [], hword, by rw [hcommands]; rfl, ?_⟩
      cases word with
      | nil => exact hflushed
      | cons first others => exact .last (by simp) hflushed
  | case2 state hdone =>
    rw [trace_of_done hdone]
    unfold step at hdone
    split at hdone
    · cases hdone
    · rename_i hcommands
      split at hdone
      · rename_i hsuffixes
        refine ⟨[], [], ?_, by rw [hcommands]; rfl, .done⟩
        rw [List.isEmpty_iff.1 hsuffixes]
        rfl
      · cases hdone

end

/-- The trace of a layout is a flushed word of the document. Counterpart of `traceOf`. -/
theorem flushed_traceOf (style : Style) (doc : Doc) :
    ∃ word, doc.spells 0 .broken word ∧ Flushed [] word (traceOf style doc) := by
  obtain ⟨queue, word, hqueue, ⟨front, _, rfl, hfront, rfl⟩, hflushed⟩ :=
    spells_trace style (start doc)
  have hnil : queue = [] := hqueue
  subst hnil
  rw [List.append_nil] at hflushed
  exact ⟨front, hfront, hflushed⟩

end LuaFormatter.Layout
