import LuaFormatter.Command.Run
import LuaFormatter.Proofs.Command.Arguments

/-!
# What a run changes, prints and answers

A run of the program with arguments that are understood rewrites a file in one case only, and then
just the file that was named (`Request.Rewrites`). It answers 2 when it cannot go on, 1 when a check
fails and 0 otherwise (`Request.effects_run`), whatever files and standard input it finds.

How the arguments are understood matters for the two switches of `format` only: the effects are the
same for every reading of arguments that takes these from the arguments
(`Request.effects_of_readsSwitches`).
-/

namespace LuaFormatter

/-- What formatting makes of a source. -/
def formattedSource (style : Style) (source : String) : String :=
  String.ofList ((parse source.toList).format style)

/-- The source is a program without faults. -/
def IsProgram (source : String) : Prop :=
  (parse source.toList).isValid = true

namespace World

/-- Bytes decode to a text exactly if they are its encoding. Counterpart of `String.fromUTF8?`. -/
theorem fromUTF8?_eq_some_iff {bytes : ByteArray} {text : String} :
    String.fromUTF8? bytes = some text ↔ bytes = text.toUTF8 := by
  unfold String.fromUTF8?
  constructor
  · intro h
    split at h
    · cases h
      rfl
    · cases h
  · rintro rfl
    exact dif_pos text.isValidUTF8

/-- A file can be read exactly if its bytes are those of a text that is not too large. Counterpart
of `World.read`. -/
theorem read_eq_ok_iff {world : World} {file source : String} :
    world.read file = .ok source ↔
      world.contents? file = some source.toUTF8 ∧ source.utf8ByteSize < sizeLimit := by
  unfold read decode
  cases world.contents? file with
  | none => simp
  | some bytes =>
    rw [Option.some.injEq, ← fromUTF8?_eq_some_iff, Option.bind_some]
    cases String.fromUTF8? bytes with
    | none => simp
    | some text =>
      by_cases hsize : sizeLimit ≤ text.utf8ByteSize
      · simp only [if_pos hsize, reduceCtorEq, Option.some.injEq, false_iff, not_and, Nat.not_lt]
        rintro rfl
        exact hsize
      · simp only [if_neg hsize, Except.ok.injEq, Option.some.injEq, iff_self_and]
        rintro rfl
        exact Nat.not_le.1 hsize

/-- Writing a file keeps the names of the files. Counterpart of `World.write`. -/
theorem names_write (world : World) (file text : String) :
    (world.write file text).map Prod.fst = world.files.map Prod.fst := by
  unfold write
  rw [List.map_map]
  refine List.map_congr_left fun entry _ => ?_
  simp only [Function.comp_apply]
  split <;> rfl

variable {files : List (String × ByteArray)} {input : ByteArray} {file other : String}

/-- A file that was written holds the text. Counterpart of `World.write`. -/
theorem lookup_write_self (h : (files.lookup file).isSome) (text : String) :
    ((World.mk files input).write file text).lookup file = some text.toUTF8 := by
  unfold write
  induction files with
  | nil => simp at h
  | cons entry files ih =>
    obtain ⟨name, contents⟩ := entry
    by_cases hname : name = file
    · simp [hname]
    · have hne : (file == name) = false := by simpa using Ne.symm hname
      simp only [List.lookup_cons, hne] at h
      simpa [hname, List.lookup_cons, hne] using ih h

/-- Every other file is left as it is. Counterpart of `World.write`. -/
theorem lookup_write_other (h : other ≠ file) (text : String) :
    ((World.mk files input).write file text).lookup other = files.lookup other := by
  unfold write
  induction files with
  | nil => rfl
  | cons entry files ih =>
    obtain ⟨name, contents⟩ := entry
    by_cases hname : name = file
    · have hne : (other == file) = false := by simpa using h
      simpa [hname, List.lookup_cons, hne] using ih
    · cases hother : other == name with
      | true => simp [hname, List.lookup_cons, hother]
      | false => simpa [hname, List.lookup_cons, hother] using ih

end World

namespace Request

/-- The request goes on only with a program without faults. -/
def NeedsProgram : Request → Prop
  | format .. | printDoc .. => True
  | _ => False

/-- A reading of arguments takes the two switches of a request to format from the arguments: they
are on if they are given, and off if not. -/
def ReadsSwitches (accept : List String → Option Request) : Prop :=
  ∀ {arguments : List String} {file : String} {mode : FormatMode} {style : Style},
    accept arguments = some (format file mode style) →
      (mode.dryRun = true ↔ Switch.dryRun.IsGiven arguments) ∧
        (mode.check = true ↔ Switch.check.IsGiven arguments)

/-- The one case in which a file is rewritten: `format` of a file other than standard input, with
neither a preview nor a check asked for, where the file can be read, its program has no faults and
formatting changes it. -/
structure Rewrites (arguments : List String) (request : Request) (world : World) (file : String)
    (style : Style) (source : String) : Prop where
  asked : ∃ mode, request = .format file mode style
  isFile : file ≠ "-"
  noPreview : ¬ Switch.dryRun.IsGiven arguments
  noCheck : ¬ Switch.check.IsGiven arguments
  read : world.read file = .ok source
  isProgram : IsProgram source
  changes : formattedSource style source ≠ source

/-- A run that only checks: `format` with a check and no preview. -/
def Checks (arguments : List String) (request : Request) (file : String) (style : Style) : Prop :=
  (∃ mode, request = .format file mode style) ∧
    Switch.check.IsGiven arguments ∧ ¬ Switch.dryRun.IsGiven arguments

/-- Nothing keeps the run from being completed: its file can be read, and holds a program if the
request needs one. -/
def Completes (request : Request) (world : World) : Prop :=
  ∀ file, request.file? = some file →
    ∃ source, world.read file = .ok source ∧ (request.NeedsProgram → IsProgram source)

/-- A run is given up: it answers 2, prints nothing and changes nothing. -/
structure GivenUp (world : World) (outcome : Outcome) : Prop where
  code : outcome.status.code = 2
  output : outcome.output = ""
  files : outcome.files = world.files

/-- What a run leaves behind, by what was asked for and what was found. -/
structure Effects (arguments : List String) (request : Request) (world : World)
    (outcome : Outcome) : Prop where
  /-- In the one case, the file holds the formatted text afterwards and no other file changes. -/
  rewritten : ∀ file style source, Rewrites arguments request world file style source →
    outcome.files.map Prod.fst = world.files.map Prod.fst ∧
    outcome.files.lookup file = some (formattedSource style source).toUTF8 ∧
    ∀ other, other ≠ file → outcome.files.lookup other = world.files.lookup other
  /-- In every other case no file changes. -/
  kept : (∀ file style source, ¬ Rewrites arguments request world file style source) →
    outcome.files = world.files
  /-- A file that cannot be read ends the run. -/
  unreadable : ∀ file, request.file? = some file → (∀ source, world.read file ≠ .ok source) →
    GivenUp world outcome
  /-- A program with faults ends a run that needs a program. -/
  faulty : ∀ file source, request.file? = some file → request.NeedsProgram →
    world.read file = .ok source → ¬ IsProgram source → GivenUp world outcome
  /-- A check prints nothing and answers whether formatting keeps the source. -/
  checked : ∀ file style source, Checks arguments request file style →
    world.read file = .ok source → IsProgram source →
    outcome.output = "" ∧
      outcome.status.code = if formattedSource style source = source then 0 else 1
  /-- Every other completed run is a success. -/
  succeeded : request.Completes world → (∀ file style, ¬ Checks arguments request file style) →
    outcome.status.code = 0

variable {arguments : List String} {request : Request} {world : World} {file source : String}

/-- A file that cannot be read ends the run. Counterpart of `withSource`. -/
theorem givenUp_withSource (h : ∀ source, world.read file ≠ .ok source)
    (next : String → Outcome) : GivenUp world (withSource world file next) := by
  unfold withSource
  cases hread : world.read file with
  | ok source => exact absurd hread (h source)
  | error message => exact ⟨rfl, rfl, rfl⟩

/-- A file that can be read is gone on with. Counterpart of `withSource`. -/
theorem withSource_of_read (h : world.read file = .ok source) (next : String → Outcome) :
    withSource world file next = next source := by
  simp only [withSource, h]

/-- A program with faults ends the run. Counterpart of `withProgram`. -/
theorem givenUp_withProgram (hread : world.read file = .ok source) (h : ¬ IsProgram source)
    (next : String → Program → Outcome) : GivenUp world (withProgram world file next) := by
  rw [withProgram, withSource_of_read hread]
  simp only [IsProgram] at h
  simp only [h, Bool.false_eq_true, if_false]
  exact ⟨rfl, rfl, rfl⟩

/-- A program without faults is gone on with. Counterpart of `withProgram`. -/
theorem withProgram_of_read (hread : world.read file = .ok source) (h : IsProgram source)
    (next : String → Program → Outcome) :
    withProgram world file next = next source (parse source.toList) := by
  rw [withProgram, withSource_of_read hread]
  exact if_pos h

/-- A request that goes on only with a program is given up on one with faults. Counterpart of
`Request.NeedsProgram`. -/
theorem givenUp_run_of_faulty (hfile : request.file? = some file) (hneeds : request.NeedsProgram)
    (hread : world.read file = .ok source) (h : ¬ IsProgram source) :
    GivenUp world (request.run world) := by
  cases request with
  | version => cases hneeds
  | printTokens => cases hneeds
  | printTree => cases hneeds
  | format =>
    cases hfile
    rw [run, runFormat]
    exact givenUp_withProgram hread h _
  | printDoc =>
    cases hfile
    rw [run]
    exact givenUp_withProgram hread h _

/-- A request is given up if its file cannot be read. Counterpart of `Request.file?`. -/
theorem givenUp_run_of_unreadable (hfile : request.file? = some file)
    (h : ∀ source, world.read file ≠ .ok source) : GivenUp world (request.run world) := by
  cases request with
  | version => cases hfile
  | _ =>
    cases hfile
    exact givenUp_withSource h _

/-- A run is given up or completed. Counterpart of `Request.Completes`. -/
theorem givenUp_or_completes (request : Request) (world : World) :
    GivenUp world (request.run world) ∨ request.Completes world := by
  by_cases hcompletes : request.Completes world
  · exact .inr hcompletes
  left
  simp only [Completes, Classical.not_forall] at hcompletes
  obtain ⟨file, hfile, hfails⟩ := hcompletes
  by_cases hread : ∃ source, world.read file = .ok source
  · obtain ⟨source, hread⟩ := hread
    have hfaulty : ¬ (request.NeedsProgram → IsProgram source) := fun h => hfails ⟨source, hread, h⟩
    rw [Classical.not_imp] at hfaulty
    exact givenUp_run_of_faulty hfile hfaulty.1 hread hfaulty.2
  · exact givenUp_run_of_unreadable hfile (not_exists.1 hread)

variable {mode : FormatMode} {style : Style}

/-- What formatting a file does, once there is a program to format. Counterpart of `Request.run` for
`Request.format`. -/
theorem run_format (hread : world.read file = .ok source) (h : IsProgram source) :
    (format file mode style).run world =
      if mode.dryRun then
        { status := .success, output := formattedSource style source, files := world.files }
      else if mode.check then
        if formattedSource style source = source then { status := .success, files := world.files }
        else { status := .failure, errors := (notFormatted file).report, files := world.files }
      else if file = "-" then
        { status := .success, output := formattedSource style source, files := world.files }
      else if formattedSource style source = source then
        { status := .success, files := world.files }
      else
        { status := .success, files := world.write file (formattedSource style source) } := by
  rw [run, runFormat, withProgram_of_read hread h]
  rfl

/-- A completed run that formats nothing changes no file, and is a success. Counterpart of
`Request.run` for the other requests. -/
theorem run_of_not_format (hcompletes : request.Completes world)
    (h : ∀ file mode style, request ≠ .format file mode style) :
    (request.run world).files = world.files ∧ (request.run world).status.code = 0 := by
  cases request with
  | version => exact ⟨rfl, rfl⟩
  | printTokens | printTree =>
    obtain ⟨source, hread, -⟩ := hcompletes _ rfl
    rw [run, withSource_of_read hread]
    exact ⟨rfl, rfl⟩
  | printDoc =>
    obtain ⟨source, hread, hvalid⟩ := hcompletes _ rfl
    rw [run, withProgram_of_read hread (hvalid trivial)]
    exact ⟨rfl, rfl⟩
  | format file mode style => exact absurd rfl (h file mode style)

/-- The program's own reading of arguments takes the switches from them (`format_of_arguments`). -/
theorem readsSwitches_ofArguments? : ReadsSwitches ofArguments? :=
  fun h => (format_of_arguments h).2

section
variable {accept : List String → Option Request} (haccept : ReadsSwitches accept)
include haccept

/-- In the one case, the named file is written and no other. Counterpart of `Rewrites`. -/
theorem files_run_of_rewrites (h : accept arguments = some request)
    (hcase : Rewrites arguments request world file style source) :
    (request.run world).files = world.write file (formattedSource style source) ∧
      (world.files.lookup file).isSome := by
  obtain ⟨⟨mode, rfl⟩, hfile, hpreview, hcheck, hread, hvalid, hchanges⟩ := hcase
  obtain ⟨hdryRun, hchecks⟩ := haccept h
  have hcontents := (World.read_eq_ok_iff.1 hread).1
  rw [World.contents?, if_neg hfile] at hcontents
  rw [run_format hread hvalid, if_neg (mt hdryRun.1 hpreview), if_neg (mt hchecks.1 hcheck),
    if_neg hfile, if_neg hchanges]
  exact ⟨rfl, Option.isSome_of_eq_some hcontents⟩

/-- In every other case no file changes. Counterpart of `Rewrites`. -/
theorem files_run_of_not_rewrites (h : accept arguments = some request)
    (hcase : ∀ file style source, ¬ Rewrites arguments request world file style source) :
    (request.run world).files = world.files := by
  obtain hgivenUp | hcompletes := givenUp_or_completes request world
  · exact hgivenUp.files
  cases request with
  | format file mode style =>
    obtain ⟨source, hread, hvalid⟩ := hcompletes _ rfl
    obtain ⟨hdryRun, hchecks⟩ := haccept h
    rw [run_format hread (hvalid trivial)]
    -- The last branch writes; every condition on the way there is one of the case's.
    split
    · rfl
    split
    · split <;> rfl
    split
    · rfl
    split
    · rfl
    next hpreview hcheck hfile hchanges =>
      exact absurd ⟨⟨mode, rfl⟩, hfile, mt hdryRun.2 hpreview, mt hchecks.2 hcheck, hread,
        hvalid trivial, hchanges⟩ (hcase file style source)
  | _ => exact (run_of_not_format hcompletes fun _ _ _ heq => by cases heq).1

/-- A completed run is a success, unless it checks. Counterpart of `Checks`. -/
theorem code_run_of_completes (h : accept arguments = some request)
    (hcompletes : request.Completes world)
    (hcase : ∀ file style, ¬ Checks arguments request file style) :
    (request.run world).status.code = 0 := by
  cases request with
  | format file mode style =>
    obtain ⟨source, hread, hvalid⟩ := hcompletes _ rfl
    obtain ⟨hdryRun, hchecks⟩ := haccept h
    rw [run_format hread (hvalid trivial)]
    split
    · rfl
    next hpreview =>
    have hcheck : ¬ mode.check = true := fun hcheck =>
      hcase file style ⟨⟨mode, rfl⟩, hchecks.1 hcheck, mt hdryRun.2 hpreview⟩
    rw [if_neg hcheck]
    split
    · rfl
    split <;> rfl
  | _ => exact (run_of_not_format hcompletes fun _ _ _ heq => by cases heq).2

/-- The effects of a run, for every reading of arguments that takes the switches from them.
Counterpart of `Request.run` behind any reading of the arguments. -/
theorem effects_of_readsSwitches (h : accept arguments = some request) (world : World) :
    Effects arguments request world (request.run world) where
  rewritten file style source hcase := by
    obtain ⟨hfiles, hfound⟩ := files_run_of_rewrites haccept h hcase
    rw [hfiles]
    exact ⟨World.names_write .., World.lookup_write_self hfound _,
      fun other hother => World.lookup_write_other hother _⟩
  kept := files_run_of_not_rewrites haccept h
  unreadable _ := givenUp_run_of_unreadable
  faulty _ _ := givenUp_run_of_faulty
  checked file style source hcase hread hvalid := by
    obtain ⟨⟨mode, rfl⟩, hcheck, hpreview⟩ := hcase
    obtain ⟨hdryRun, hchecks⟩ := haccept h
    rw [run_format hread hvalid, if_neg (mt hdryRun.1 hpreview), if_pos (hchecks.2 hcheck)]
    split <;> exact ⟨rfl, rfl⟩
  succeeded := code_run_of_completes haccept h

end

/-- The effects of a run, for arguments that are understood. Counterpart of `Request.run` behind
`Request.ofArguments?`. -/
theorem effects_run (h : ofArguments? arguments = some request) (world : World) :
    Effects arguments request world (request.run world) :=
  effects_of_readsSwitches readsSwitches_ofArguments? h world

/-- The effects of formatting a file that holds one assignment. -/
theorem effects_run_file :
    Request.ofArguments? ["format", "main.lua"] = some (.format "main.lua" ⟨false, false⟩ {}) ∧
      Effects ["format", "main.lua"] (.format "main.lua" ⟨false, false⟩ {})
        ⟨[("main.lua", "x=1".toUTF8)], ByteArray.empty⟩
        ((Request.format "main.lua" ⟨false, false⟩ {}).run
          ⟨[("main.lua", "x=1".toUTF8)], ByteArray.empty⟩) :=
  ⟨rfl, effects_run rfl _⟩

end Request

end LuaFormatter
