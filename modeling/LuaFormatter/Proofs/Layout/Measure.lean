import LuaFormatter.Proofs.Layout.Cosmetic

/-!
# Measuring and printing, command by command

`fits` and `trace` both read a list of commands. Here are their equations, one for each kind of
document: what is left to measure of it, and which inks it writes before what is left to print. The
equations of printing are for states in which nothing is put off. Such a state is its commands, the
column and the mark that flat content is measured again (`inksFrom`), since nothing depends on what
has been printed.
-/

namespace LuaFormatter.Layout

/-- A choice that has a last form has a first one. Counterpart of `Doc.alternatives`. -/
theorem exists_first {options : List Doc} {last : Doc} (h : options.getLast? = some last) :
    ∃ first, options.head? = some first := by
  cases options with
  | nil => cases h
  | cons first others => exact ⟨first, rfl⟩

/-! ## What is measured of a command -/

/-- Nothing fits where the width is used up. Counterpart of `fits`. -/
theorem fits_of_neg {width : Int} (h : width < 0) (commands : List Command) :
    fits width commands = false := by
  rw [fits.eq_def, if_pos h]

/-- A command that stands for others fits as they do. Counterpart of `fits`. -/
theorem fits_cons_eq {width other : Int} {command : Command} {rest others : List Command}
    (hle : other ≤ width) (h : ¬width < 0 → fits width (command :: rest) = fits other others) :
    fits width (command :: rest) = fits other others := by
  by_cases hnegative : width < 0
  · rw [fits_of_neg hnegative, fits_of_neg (by omega)]
  · exact h hnegative

section
variable (width : Int) (level : Nat) (mode : Mode) (rest : List Command)

/-- The empty list of commands fits if the width is not used up. Counterpart of `fits`. -/
theorem fits_nil : fits width [] = decide (0 ≤ width) := by
  rw [fits.eq_def]
  split
  · exact (decide_eq_false (by omega)).symm
  · exact (decide_eq_true (by omega)).symm

/-- What comes after a line break need not fit. Counterpart of `fits` for `Doc.hardLine` and
`Doc.literalLine`. -/
theorem fits_lineBreak {doc : Doc} (hdoc : doc = .hardLine ∨ doc = .literalLine) :
    fits width (⟨level, mode, doc⟩ :: rest) = decide (0 ≤ width) := by
  rw [fits.eq_def]
  split
  · exact (decide_eq_false (by omega)).symm
  · rcases hdoc with rfl | rfl <;> exact (decide_eq_true (by omega)).symm

@[simp] theorem fits_empty : fits width (⟨level, mode, .empty⟩ :: rest) = fits width rest :=
  fits_cons_eq (Int.le_refl _) fun h => by rw [fits.eq_def, if_neg h]

@[simp] theorem fits_breakParent :
    fits width (⟨level, mode, .breakParent⟩ :: rest) = fits width rest :=
  fits_cons_eq (Int.le_refl _) fun h => by rw [fits.eq_def, if_neg h]

@[simp] theorem fits_suffix (contents : Doc) :
    fits width (⟨level, mode, .suffix contents⟩ :: rest) = fits width rest :=
  fits_cons_eq (Int.le_refl _) fun h => by rw [fits.eq_def, if_neg h]

@[simp] theorem fits_text (content : String) :
    fits width (⟨level, mode, .text content⟩ :: rest) = fits (width - content.length) rest :=
  fits_cons_eq (by omega) fun h => by rw [fits.eq_def, if_neg h]

@[simp] theorem fits_note (content : String) :
    fits width (⟨level, mode, .note content⟩ :: rest) = fits (width - content.length) rest :=
  fits_cons_eq (by omega) fun h => by rw [fits.eq_def, if_neg h]

@[simp] theorem fits_concat (items : List Doc) :
    fits width (⟨level, mode, .concat items⟩ :: rest) =
      fits width (commandsOf level mode items ++ rest) :=
  fits_cons_eq (Int.le_refl _) fun h => by rw [fits.eq_def, if_neg h]

@[simp] theorem fits_indent (contents : Doc) :
    fits width (⟨level, mode, .indent contents⟩ :: rest) =
      fits width (⟨deeper level, mode, contents⟩ :: rest) :=
  fits_cons_eq (Int.le_refl _) fun h => by rw [fits.eq_def, if_neg h]

@[simp] theorem fits_ifBreak (broken flat : Doc) :
    fits width (⟨level, mode, .ifBreak broken flat⟩ :: rest) =
      fits width (⟨level, mode, mode.pick broken flat⟩ :: rest) :=
  fits_cons_eq (Int.le_refl _) fun h => by rw [fits.eq_def, if_neg h]

@[simp] theorem fits_group (breaks : Bool) (contents : Doc) :
    fits width (⟨level, mode, .group breaks contents⟩ :: rest) =
      fits width (⟨level, mode.inside breaks, contents⟩ :: rest) :=
  fits_cons_eq (Int.le_refl _) fun h => by rw [fits.eq_def, if_neg h]

/-- To measure a choice is to measure the form that its mode chooses. Counterpart of `fits` for
`Doc.alternatives`. -/
theorem fits_alternatives (breaks : Bool) (options : List Doc) :
    fits width (⟨level, mode, .alternatives breaks options⟩ :: rest) =
      match (mode.inside breaks).option? options with
      | some option => fits width (⟨level, mode.inside breaks, option⟩ :: rest)
      | none => fits width rest := by
  by_cases hnegative : width < 0
  · rw [fits_of_neg hnegative]
    split <;> exact (fits_of_neg hnegative _).symm
  · rw [fits.eq_def, if_neg hnegative]
    dsimp only
    split <;> simp_all

@[simp] theorem fits_flatSoftLine :
    fits width (⟨level, .flat, .softLine⟩ :: rest) = fits width rest :=
  fits_cons_eq (Int.le_refl _) fun h => by rw [fits.eq_def, if_neg h]; rfl

@[simp] theorem fits_flatLine :
    fits width (⟨level, .flat, .line⟩ :: rest) = fits (width - 1) rest :=
  fits_cons_eq (by omega) fun h => by rw [fits.eq_def, if_neg h]; rfl

/-- What comes after a line that is broken need not fit. Counterpart of `fits` for `Doc.softLine`
and `Doc.line`. -/
theorem fits_brokenLine {doc : Doc} (hdoc : doc = .softLine ∨ doc = .line) :
    fits width (⟨level, .broken, doc⟩ :: rest) = decide (0 ≤ width) := by
  rw [fits.eq_def]
  split
  · exact (decide_eq_false (by omega)).symm
  · rcases hdoc with rfl | rfl <;> exact (decide_eq_true (by omega)).symm

end

/-- Lists of commands that fit alike do so behind the same commands too. Counterpart of `fits`. -/
theorem fits_append_congr {rest other : List Command}
    (h : ∀ width, fits width rest = fits width other) (front : List Command) (width : Int) :
    fits width (front ++ rest) = fits width (front ++ other) := by
  fun_induction fits width front with
  | case1 width front hnegative => rw [fits_of_neg hnegative, fits_of_neg hnegative]
  | case2 width => exact h width
  | case8 width _ level mode front items ih => simpa using ih
  | case12 width _ level mode front breaks options option hoption ih =>
    rw [List.cons_append, List.cons_append, fits_alternatives, fits_alternatives, hoption]
    exact ih
  | case13 width _ level mode front breaks options hoption ih =>
    rw [List.cons_append, List.cons_append, fits_alternatives, fits_alternatives, hoption]
    exact ih
  | case14 width _ level mode front ih =>
    cases mode with
    | flat => simpa using ih
    | broken => simp only [List.cons_append, fits_brokenLine _ _ _ (.inl rfl)]
  | case15 width _ level mode front ih =>
    cases mode with
    | flat => simpa using ih
    | broken => simp only [List.cons_append, fits_brokenLine _ _ _ (.inr rfl)]
  | case16 width _ level mode front =>
    simp only [List.cons_append, fits_lineBreak _ _ _ _ (.inl rfl)]
  | case17 width _ level mode front =>
    simp only [List.cons_append, fits_lineBreak _ _ _ _ (.inr rfl)]
  | case3 | case4 | case5 | case6 | case7 | case9 | case10 | case11 => simpa

/-! ## What a command prints -/

/-- The inks that commands write from a column on, when nothing is put off. -/
def inksFrom (style : Style) (commands : List Command) (column : Nat) (remeasure : Bool) :
    List Ink :=
  trace style ⟨commands, [], [], column, remeasure⟩

/-- The inks of a run depend on the commands, the column and the flag for measuring again only, if
nothing is put off. Counterpart of `trace`. -/
theorem trace_eq_inksFrom {style : Style} {state : State} (h : state.suffixes = []) :
    trace style state = inksFrom style state.commands state.column state.remeasure := by
  have hevents : events style _ = events style state := events_congr ⟨rfl, rfl⟩ state []
  rw [inksFrom, ← inks_events, ← inks_events, ← hevents, ← h]

/-- The inks of a layout are those of its document from the first column on. Counterpart of
`traceOf`. -/
theorem traceOf_eq_inksFrom (style : Style) (doc : Doc) :
    traceOf style doc = inksFrom style [⟨0, .broken, doc⟩] 0 false :=
  rfl

section
variable (style : Style) (level : Nat) (mode : Mode) (rest : List Command) (column : Nat)
  (remeasure : Bool)

/-- Without commands nothing is written. Counterpart of `inksFrom`. -/
theorem inksFrom_nil : inksFrom style [] column remeasure = [] :=
  trace_of_done rfl

/-- A command writes its inks, and the state that it leaves goes on. Counterpart of `inksFrom`. -/
theorem inksFrom_cons {command : Command} {next : State}
    (h : perform style command ⟨rest, [], [], column, remeasure⟩ = next)
    (hnext : next.suffixes = []) :
    inksFrom style (command :: rest) column remeasure =
      commandInks command ⟨[], [], [], 0, false⟩ ++
        inksFrom style next.commands next.column next.remeasure := by
  have hstep : step style ⟨command :: rest, [], [], column, remeasure⟩ = some next :=
    congrArg some h
  rw [inksFrom, trace_of_step hstep, trace_eq_inksFrom hnext]
  exact congrArg (· ++ _) (commandInks_congr command rfl)

@[simp] theorem inksFrom_empty :
    inksFrom style (⟨level, mode, .empty⟩ :: rest) column remeasure =
      inksFrom style rest column remeasure :=
  inksFrom_cons _ _ _ _ rfl rfl

@[simp] theorem inksFrom_breakParent :
    inksFrom style (⟨level, mode, .breakParent⟩ :: rest) column remeasure =
      inksFrom style rest column remeasure :=
  inksFrom_cons _ _ _ _ rfl rfl

@[simp] theorem inksFrom_text (content : String) :
    inksFrom style (⟨level, mode, .text content⟩ :: rest) column remeasure =
      Ink.ofText false content.toList ++ inksFrom style rest (column + content.length)
      remeasure := by
  rw [← String.length_toList]
  exact inksFrom_cons _ _ _ _ rfl rfl

@[simp] theorem inksFrom_note (content : String) :
    inksFrom style (⟨level, mode, .note content⟩ :: rest) column remeasure =
      Ink.ofText true content.toList ++ inksFrom style rest (column + content.length)
      remeasure := by
  rw [← String.length_toList]
  exact inksFrom_cons _ _ _ _ rfl rfl

@[simp] theorem inksFrom_concat (items : List Doc) :
    inksFrom style (⟨level, mode, .concat items⟩ :: rest) column remeasure =
      inksFrom style (commandsOf level mode items ++ rest) column remeasure :=
  inksFrom_cons _ _ _ _ rfl rfl

@[simp] theorem inksFrom_indent (contents : Doc) :
    inksFrom style (⟨level, mode, .indent contents⟩ :: rest) column remeasure =
      inksFrom style (⟨deeper level, mode, contents⟩ :: rest) column remeasure :=
  inksFrom_cons _ _ _ _ rfl rfl

@[simp] theorem inksFrom_ifBreak (broken flat : Doc) :
    inksFrom style (⟨level, mode, .ifBreak broken flat⟩ :: rest) column remeasure =
      inksFrom style (⟨level, mode, mode.pick broken flat⟩ :: rest) column remeasure :=
  inksFrom_cons _ _ _ _ rfl rfl

@[simp] theorem inksFrom_hardLine :
    inksFrom style (⟨level, mode, .hardLine⟩ :: rest) column remeasure =
      .newline level :: inksFrom style rest (level * style.indentWidth)
      (remeasure || mode == .flat) :=
  inksFrom_cons _ _ _ _ rfl rfl

@[simp] theorem inksFrom_literalLine :
    inksFrom style (⟨level, mode, .literalLine⟩ :: rest) column remeasure =
      .literal :: inksFrom style rest 0 (remeasure || mode == .flat) :=
  inksFrom_cons _ _ _ _ rfl rfl

@[simp] theorem inksFrom_flatSoftLine :
    inksFrom style (⟨level, .flat, .softLine⟩ :: rest) column remeasure =
      inksFrom style rest column remeasure :=
  inksFrom_cons _ _ _ _ rfl rfl

@[simp] theorem inksFrom_flatLine :
    inksFrom style (⟨level, .flat, .line⟩ :: rest) column remeasure =
      .char false ' ' :: inksFrom style rest (column + 1) remeasure :=
  inksFrom_cons _ _ _ _ rfl rfl

/-- A line that is broken writes a line break, and goes on at its level. Counterpart of `inksFrom`
for `Doc.softLine` and `Doc.line`. -/
theorem inksFrom_brokenLine {doc : Doc} (hdoc : doc = .softLine ∨ doc = .line) :
    inksFrom style (⟨level, .broken, doc⟩ :: rest) column remeasure =
      .newline level :: inksFrom style rest (level * style.indentWidth) remeasure := by
  have hbroken : (remeasure || Mode.broken == .flat) = remeasure := Bool.or_false remeasure
  rcases hdoc with rfl | rfl
  · refine Eq.trans (inksFrom_cons _ _ _ _ rfl rfl) ?_
    exact congrArg (fun flag => Ink.newline level :: inksFrom style rest _ flag) hbroken
  · refine Eq.trans (inksFrom_cons _ _ _ _ rfl rfl) ?_
    exact congrArg (fun flag => Ink.newline level :: inksFrom style rest _ flag) hbroken

/-- What a group writes: it is flat inside flat content, unless it is measured again. Counterpart of
`performGroup`. -/
theorem inksFrom_group (breaks : Bool) (contents : Doc) :
    inksFrom style (⟨level, mode, .group breaks contents⟩ :: rest) column remeasure =
      if mode = .flat ∧ ¬remeasure then
        inksFrom style (⟨level, mode.inside breaks, contents⟩ :: rest) column remeasure
      else if ¬breaks ∧ fits ((style.printWidth : Int) - column)
      (⟨level, .flat, contents⟩ :: rest) then
        inksFrom style (⟨level, .flat, contents⟩ :: rest) column false
      else inksFrom style (⟨level, .broken, contents⟩ :: rest) column false := by
  have hperform : perform style ⟨level, mode, .group breaks contents⟩
      ⟨rest, [], [], column, remeasure⟩ =
      performGroup style level mode breaks contents ⟨rest, [], [], column, remeasure⟩ := rfl
  rw [performGroup] at hperform
  split
  · rename_i hflat
    rw [if_pos hflat] at hperform
    exact inksFrom_cons _ _ _ _ hperform rfl
  · rename_i hmeasured
    rw [if_neg hmeasured] at hperform
    split
    · rename_i hfits
      exact inksFrom_cons _ _ _ _ (hperform.trans (if_pos hfits)) rfl
    · rename_i hwide
      exact inksFrom_cons _ _ _ _ (hperform.trans (if_neg hwide)) rfl

/-- What a choice writes: its first form inside flat content, unless it is measured again, and else
the form that fits. Counterpart of `performAlternatives`. -/
theorem inksFrom_alternatives (breaks : Bool) {options : List Doc} {first last : Doc}
    (hfirst : options.head? = some first) (hlast : options.getLast? = some last) :
    inksFrom style (⟨level, mode, .alternatives breaks options⟩ :: rest) column remeasure =
      if mode = .flat ∧ ¬remeasure then
        inksFrom style (⟨level, mode.inside breaks, first⟩ :: rest) column remeasure
      else if breaks then inksFrom style (⟨level, .broken, last⟩ :: rest) column false
      else
        match options.find? fun option =>
          fits ((style.printWidth : Int) - column) (⟨level, .flat, option⟩ :: rest) with
        | some option => inksFrom style (⟨level, .flat, option⟩ :: rest) column false
        | none => inksFrom style (⟨level, .broken, last⟩ :: rest) column false := by
  have hperform : perform style ⟨level, mode, .alternatives breaks options⟩
      ⟨rest, [], [], column, remeasure⟩ =
      performAlternatives style level mode breaks options ⟨rest, [], [], column, remeasure⟩ := rfl
  simp only [performAlternatives, hfirst, hlast] at hperform
  split
  · rename_i hflat
    rw [if_pos hflat] at hperform
    exact inksFrom_cons _ _ _ _ hperform rfl
  · rename_i hmeasured
    rw [if_neg hmeasured] at hperform
    split
    · rename_i hbreaks
      exact inksFrom_cons _ _ _ _ (hperform.trans (if_pos hbreaks)) rfl
    · rename_i hopen
      rw [if_neg hopen] at hperform
      have hfind : (options.find? fun option => State.fitsNext style ⟨rest, [], [], column, false⟩
          ⟨level, .flat, option⟩) = options.find? fun option =>
            fits ((style.printWidth : Int) - column) (⟨level, .flat, option⟩ :: rest) := rfl
      rw [hfind] at hperform
      split
      · rename_i option hoption
        rw [hoption] at hperform
        exact inksFrom_cons _ _ _ _ hperform rfl
      · rename_i hnone
        rw [hnone] at hperform
        exact inksFrom_cons _ _ _ _ hperform rfl

/-- A choice without forms writes nothing. Counterpart of `performAlternatives`. -/
theorem inksFrom_alternatives_nil (breaks : Bool) :
    inksFrom style (⟨level, mode, .alternatives breaks []⟩ :: rest) column remeasure =
      inksFrom style rest column remeasure :=
  inksFrom_cons _ _ _ _ rfl rfl

end

end LuaFormatter.Layout
