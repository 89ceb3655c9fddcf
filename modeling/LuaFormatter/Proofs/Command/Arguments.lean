import LuaFormatter.Command.Request

/-!
# Arguments and what they ask for

A switch is asked for if its text is one of the arguments before two dashes
(`Request.dryRun_iff_mem`, `Request.check_iff_mem`): the value of an option never looks like an
option, so no switch is taken for a value.
-/

namespace LuaFormatter

namespace Switch

/-- Two switches are not written the same. Counterpart of `Switch.text`. -/
theorem text_injective {first second : Switch} (h : first.text = second.text) : first = second := by
  cases first <;> cases second <;> first | rfl | (revert h; decide)

/-- A switch is written as an option. Counterpart of `Item.isOption`. -/
@[simp]
theorem isOption_text (known : Switch) : Item.isOption known.text = true := by
  cases known <;> decide

/-- A switch is written without an equals sign. Counterpart of `Item.splitValue`. -/
@[simp]
theorem splitValue_text (known : Switch) : Item.splitValue known.text = (known.text, none) := by
  cases known <;> decide

end Switch

namespace Item

/-- An option without an equals sign is its own name. Counterpart of `Item.splitValue`. -/
theorem eq_of_splitValue {argument name : String} (h : splitValue argument = (name, none)) :
    name = argument := by
  simp only [splitValue, Prod.mk.injEq, ite_eq_left_iff, reduceCtorEq, imp_false,
    Decidable.not_not, List.isEmpty_iff] at h
  obtain ⟨rfl, hrest⟩ := h
  have hall := List.takeWhile_append_dropWhile (p := (· ≠ '=')) (l := argument.toList)
  rw [hrest, List.append_nil] at hall
  rw [hall, String.ofList_toList]

@[simp]
theorem switches_nil : switches [] = [] := rfl

@[simp]
theorem switches_file_cons (name : String) (items : List Item) :
    switches (file name :: items) = switches items := rfl

@[simp]
theorem switches_switch_cons (known : Switch) (items : List Item) :
    switches (switch known :: items) = known :: switches items := rfl

@[simp]
theorem switches_setting_cons (known : Setting) (value : String) (items : List Item) :
    switches (setting known value :: items) = switches items := rfl

/-- Files are no switches. Counterpart of `Item.switches`. -/
theorem switches_map_file (names : List String) : switches (names.map file) = [] := by
  induction names with
  | nil => rfl
  | cons name names ih => simpa using ih

/-- An argument that is no option is not the text of a switch. Counterpart of `Item.isOption`. -/
theorem text_ne_of_not_isOption {argument : String} (h : ¬ isOption argument = true)
    (known : Switch) : known.text ≠ argument := by
  rintro rfl
  exact h known.isOption_text

/-- Among the arguments that are understood, a known switch stands where its text does. Counterpart
of `Item.ofArguments?`. -/
theorem mem_switches_iff {options : Options} {arguments : List String} {items : List Item}
    (h : ofArguments? options arguments = some items) {known : Switch}
    (hknown : known ∈ options.switches) :
    known ∈ switches items ↔ known.text ∈ arguments.takeWhile (· ≠ "--") := by
  fun_induction ofArguments? options arguments generalizing items with
  | case1 => simp_all
  | case2 rest =>
    cases h
    simp [switches_map_file]
  | case3 argument rest hdashes _ name found hfind hsplit ih =>
    obtain ⟨others, hothers, rfl⟩ := Option.map_eq_some_iff.1 h
    cases eq_of_splitValue hsplit
    have htext : found.text = argument := by simpa using List.find?_some hfind
    have hhead : known = found ↔ known.text = argument :=
      ⟨by rintro rfl; exact htext, fun heq => Switch.text_injective (heq.trans htext.symm)⟩
    simp [hdashes, ih hothers, hhead]
  | case4 argument rest hdashes _ name found value _ hsplit ih =>
    obtain ⟨others, hothers, rfl⟩ := Option.map_eq_some_iff.1 h
    have hne : known.text ≠ argument := by
      rintro rfl
      simp at hsplit
    simp [hdashes, ih hothers, hne]
  | case6 argument hdashes _ name found _ value rest hvalue hnone hsplit ih =>
    obtain ⟨others, hothers, rfl⟩ := Option.map_eq_some_iff.1 h
    cases eq_of_splitValue hsplit
    -- The name is not that of a known switch, and the value is no option at all.
    have hname : known.text ≠ argument := by
      intro heq
      have hfound : (options.switches.find? (·.text = argument)).isSome :=
        List.find?_isSome.2 ⟨known, hknown, by simpa using heq⟩
      obtain ⟨other, hother⟩ := Option.isSome_iff_exists.1 hfound
      exact hnone other hother
    have hdash : value ≠ "--" := by
      rintro rfl
      exact hvalue (by decide)
    simp [hdashes, hdash, ih hothers, hname, text_ne_of_not_isOption hvalue]
  | case9 argument rest hdashes hoption ih =>
    obtain ⟨others, hothers, rfl⟩ := Option.map_eq_some_iff.1 h
    simp [hdashes, ih hothers, text_ne_of_not_isOption hoption]
  | case5 => cases h
  | case7 => cases h
  | case8 => cases h

end Item

/-- What a command is asked comes from arguments that are understood. Counterpart of
`Request.arguments?`. -/
theorem exists_items_of_arguments {options : Options} {arguments : List String} {file : String}
    {switches : List Switch} {style : Style}
    (h : arguments? options arguments = some (file, switches, style)) :
    ∃ items, Item.ofArguments? options arguments = some items ∧ Item.switches items = switches := by
  obtain ⟨items, hitems, h⟩ := Option.bind_eq_some_iff.1 h
  obtain ⟨-, -, h⟩ := Option.bind_eq_some_iff.1 h
  obtain ⟨-, -, h⟩ := Option.bind_eq_some_iff.1 h
  obtain ⟨other, -, h⟩ := Option.bind_eq_some_iff.1 h
  refine ⟨items, hitems, ?_⟩
  split at h
  · cases h
    rfl
  · cases h

/-- The arguments that may be options: those before two dashes. -/
def optionArguments (arguments : List String) : List String :=
  arguments.takeWhile (· ≠ "--")

/-- The switch is among the arguments. -/
def Switch.IsGiven (known : Switch) (arguments : List String) : Prop :=
  known.text ∈ optionArguments arguments

/-- A command's switches are those among its arguments. Counterpart of `Switch.IsGiven`. -/
theorem mem_switches_iff_isGiven {options : Options} {arguments : List String} {file : String}
    {switches : List Switch} {style : Style}
    (h : arguments? options arguments = some (file, switches, style)) {known : Switch}
    (hknown : known ∈ options.switches) :
    known ∈ switches ↔ known.IsGiven arguments := by
  obtain ⟨items, hitems, rfl⟩ := exists_items_of_arguments h
  exact Item.mem_switches_iff hitems hknown

/-- The name of a command is no option. Counterpart of `Switch.IsGiven`. -/
theorem Switch.isGiven_cons {known : Switch} {command : String} (hdash : command ≠ "--")
    (hoption : ¬ Item.isOption command = true) (arguments : List String) :
    known.IsGiven (command :: arguments) ↔ known.IsGiven arguments := by
  simp [IsGiven, optionArguments, hdash, Item.text_ne_of_not_isOption hoption]

/-- What a command that formats is asked, with the switches among its arguments. Counterpart of
`Request.arguments?` for the command that formats. -/
theorem format_of_command {arguments : List String} {file : String} {mode : FormatMode}
    {style : Style}
    (h : (do
      let (file, switches, style) ← arguments? ⟨[.dryRun, .check] ++ Switch.ofStyle, Setting.all⟩
        arguments
      return Request.format file ⟨switches.contains .dryRun, switches.contains .check⟩ style) =
        some (.format file mode style)) :
    (mode.dryRun = true ↔ Switch.dryRun.IsGiven arguments) ∧
      (mode.check = true ↔ Switch.check.IsGiven arguments) := by
  simp only [Option.bind_eq_bind, Option.bind_eq_some_iff, Option.pure_def, Option.some.injEq,
    Request.format.injEq] at h
  obtain ⟨⟨_, switches, _⟩, hread, -, rfl, -⟩ := h
  have hgiven : ∀ known ∈ [Switch.dryRun, .check] ++ Switch.ofStyle,
      (switches.contains known = true ↔ known.IsGiven arguments) := fun known hknown => by
    rw [List.contains_iff_mem, mem_switches_iff_isGiven hread hknown]
  exact ⟨hgiven .dryRun (by decide), hgiven .check (by decide)⟩

/-- A request to format comes from the command of that name, with the switches among its arguments.
Counterpart of `Request.ofArguments?`. -/
theorem Request.format_of_arguments {arguments : List String} {file : String} {mode : FormatMode}
    {style : Style} (h : ofArguments? arguments = some (format file mode style)) :
    (arguments.head? = some "format" ∨ arguments.head? = some "fmt") ∧
      (mode.dryRun = true ↔ Switch.dryRun.IsGiven arguments) ∧
      (mode.check = true ↔ Switch.check.IsGiven arguments) := by
  unfold ofArguments? at h
  split at h
  · cases h
  · cases h
  · rw [Switch.isGiven_cons (by decide) (by decide), Switch.isGiven_cons (by decide) (by decide)]
    exact ⟨.inl rfl, format_of_command h⟩
  · rw [Switch.isGiven_cons (by decide) (by decide), Switch.isGiven_cons (by decide) (by decide)]
    exact ⟨.inr rfl, format_of_command h⟩
  all_goals simp [Option.bind_eq_some_iff] at h

end LuaFormatter
