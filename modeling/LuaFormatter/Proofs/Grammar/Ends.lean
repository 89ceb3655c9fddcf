import Mathlib.Logic.Function.Iterate
import LuaFormatter.Proofs.Grammar.InStepStatement
import LuaFormatter.Proofs.Grammar.FaultSpans

/-!
# The end of a reading

The rules nest one another, and `Grammar.full` is the grammar that they nest without a bottom: it is
the one grammar that equals the rules above itself (`Grammar.above_full`, `Grammar.eq_full`). What
it does at a state is what any bottom does under as many levels as there are tokens left and one
more, because every rule that nests another one has read a token by then (`Grammar.inStep_full`). So
the levels that `parse` takes are deep enough, and the bottom is never reached.

The loops of the rules end because a round that asks for another one has read a token
(`Grammar.loopsEnd_full`). The loop over the whole file stops at the end of the source only, and
there all tokens are read (`rest_chunkRun`).
-/

open LuaFormatter.Parser

namespace LuaFormatter

namespace Grammar

/-- Grammars that nest any two grammars `n` times are in step for `n` tokens. Counterpart of
`Grammar.above`. -/
theorem inStep_iterate (n : Nat) (grammar other : Grammar) :
    (above^[n] grammar).InStep n (above^[n] other) := by
  induction n with
  | zero =>
    exact ⟨fun _ _ hs => absurd hs (Nat.not_lt_zero _), fun _ hs => absurd hs (Nat.not_lt_zero _)⟩
  | succ n ih =>
    rw [Function.iterate_succ_apply', Function.iterate_succ_apply']
    exact ih.above

/-- The grammar of a level nests the lowest one as often as the level says. Counterpart of
`Grammar.level`. -/
theorem level_eq_iterate (depth : Nat) : level depth = above^[depth] stuck := by
  induction depth with
  | zero => rfl
  | succ depth ih => rw [Function.iterate_succ_apply', ← ih, level]

/-- The grammar without a bottom. -/
def full : Grammar where
  expression limit s := (level (s.rest.length + 1)).expression limit s
  block s := (level (s.rest.length + 1)).block s

/-- With fewer than `n` tokens left, `n` levels are deep enough, whatever is under them. Counterpart
of `Grammar.level`. -/
theorem inStep_full (n : Nat) (bottom : Grammar) : (above^[n] bottom).InStep n full := by
  have hlevel : ∀ s : ParseState, s.rest.length < n →
      (above^[n] bottom).InStep (s.rest.length + 1) (level (s.rest.length + 1)) := by
    intro s hs
    rw [level_eq_iterate, ← Nat.add_sub_cancel' (Nat.succ_le_of_lt hs), Function.iterate_add_apply]
    exact inStep_iterate _ _ _
  refine ⟨fun limit s hs => ?_, fun s hs => ?_⟩
  · obtain ⟨hsame, hmoves, hreads⟩ := (hlevel s hs).expression limit s (Nat.lt_succ_self _)
    exact ⟨hsame, hmoves, hreads⟩
  · obtain ⟨hsame, hmoves, hreads⟩ := (hlevel s hs).block s (Nat.lt_succ_self _)
    exact ⟨hsame, hmoves, hreads⟩

/-- Grammars that are in step however many tokens are left are the same. Counterpart of
`Grammar.InStep`. -/
theorem eq_of_inStep {grammar other : Grammar} (h : ∀ n, grammar.InStep n other) :
    grammar = other := by
  obtain ⟨expression, block⟩ := grammar
  obtain ⟨expression', block'⟩ := other
  have hexpression : expression = expression' :=
    funext fun limit => funext fun s => ((h _).expression limit s (Nat.lt_succ_self _)).same
  have hblock : block = block' := funext fun s => ((h _).block s (Nat.lt_succ_self _)).same
  rw [hexpression, hblock]

/-- The rules above the grammar without a bottom are that grammar. Counterpart of
`Grammar.above`. -/
theorem above_full : full.above = full := by
  refine (eq_of_inStep fun n => ?_).symm
  have hbelow := (inStep_full n stuck).above
  rw [← Function.iterate_succ_apply' above] at hbelow
  exact ((inStep_full (n + 1) stuck).joined hbelow).mono n.le_succ

/-- No other grammar equals the rules above it. Counterpart of `Grammar.above`. -/
theorem eq_full {other : Grammar} (h : other.above = other) : other = full := by
  refine eq_of_inStep fun n => ?_
  have hfull := inStep_full n other
  rwa [Function.iterate_fixed h] at hfull

/-- The grammar without a bottom makes moves only, and what its rules say they read they have read.
Counterpart of `Grammar.InStep`. -/
theorem inStep_full_self (n : Nat) : full.InStep n full := by
  have hfull := inStep_full n full
  rwa [Function.iterate_fixed above_full] at hfull

/-- Every loop of the rules ends by itself. -/
structure LoopsEnd (grammar : Grammar) : Prop where
  file : LoopEnds (collecting (fileItem grammar))
  block : LoopEnds (collecting (blockItem grammar))
  branches : LoopEnds (collecting (clause grammar))
  names : LoopEnds (collecting (listed identifier))
  targets : LoopEnds (collecting (listed (suffixed grammar)))
  expressions : LoopEnds (collecting (listed (grammar.expression 0)))
  parameters : LoopEnds (collecting parameter)
  fields : LoopEnds (collecting (field grammar))
  nameParts (start : Nat) : LoopEnds (namePart start)
  suffixes (start : Nat) : LoopEnds (suffix grammar start)
  operations (limit start : Nat) : LoopEnds (operation grammar limit start)

/-- Each loop of the grammar without a bottom ends by itself, since its rounds read tokens.
Counterpart of `LoopsEnd`. -/
theorem loopsEnd_full : full.LoopsEnd where
  file := loopEnds_of_inStep fun n => (inStep_fileItem (inStep_full_self n)).collecting
  block := loopEnds_of_inStep fun n =>
    ((inStep_blockItem (inStep_full_self n)).mono n.le_succ).collecting
  branches := loopEnds_of_inStep fun n => (inStep_clause (inStep_full_self n)).collecting
  names := loopEnds_of_inStep fun _ => inStep_identifier.listed.collecting
  targets := loopEnds_of_inStep fun n =>
    ((inStep_suffixed (inStep_full_self n)).mono n.le_succ).listed.collecting
  expressions := loopEnds_of_inStep fun n => ((inStep_full_self n).expression 0).listed.collecting
  parameters := loopEnds_of_inStep fun _ => inStep_parameter.collecting
  fields := loopEnds_of_inStep fun n => (inStep_field (inStep_full_self n)).collecting
  nameParts start := loopEnds_of_inStep fun _ => inStep_namePart start
  suffixes start := loopEnds_of_inStep fun n base =>
    (inStep_suffix (inStep_full_self n) start base).mono n.le_succ
  operations limit start := loopEnds_of_inStep fun n left =>
    (inStep_operation (inStep_full_self n) limit start left).mono n.le_succ

end Grammar

/-! ## Sources -/

open Grammar

section
variable (source : List Char)

/-- Where the reading of the code of a source starts. -/
def readingStart : ParseState :=
  Program.initialState source (parse source).tokens

/-- The levels that `parse` takes are deep enough. Counterpart of `chunkRun`. -/
theorem chunkRun_eq : chunkRun source = chunk full (readingStart source) := by
  have hlevel := inStep_full ((parse source).tokens.length + 1) stuck
  rw [← level_eq_iterate] at hlevel
  exact (inStep_chunk hlevel (readingStart source) (Nat.lt_succ_self _)).same

/-- Reading a source only moves forward. Counterpart of `chunkRun`. -/
theorem moves_chunkRun : (readingStart source).Moves (chunkRun source).2 := by
  rw [chunkRun_eq]
  exact (inStep_chunk (inStep_full_self _) _ (Nat.lt_succ_self _)).moves

/-- The last block of a file is read up to the end of the source. Counterpart of `fileItem`. -/
theorem kind_fileItem {grammar : Grammar} {s : ParseState} (h : (fileItem grammar s).1.2 = false) :
    (fileItem grammar s).2.kind = .endOfFile := by
  have hrun : fileItem grammar s = (if (grammar.block s).2.kind = .endOfFile then
      return ((grammar.block s).1, false)
    else do
      let token ← advance
      fault (.unexpectedToken token)
      return ((grammar.block s).1, true) : Parser (List Node × Bool)) (grammar.block s).2 := rfl
  rw [hrun] at h ⊢
  split at h
  · rename_i hend
    rw [if_pos hend]
    exact hend
  · cases h

/-- All tokens are read. Counterpart of `chunkRun`. -/
theorem rest_chunkRun : (chunkRun source).2.rest = [] := by
  obtain ⟨count, -, hrounds⟩ := loopsEnd_full.file [] (readingStart source)
  obtain ⟨items, m, hlast, hstate⟩ := hrounds.last
  have hend : (chunkRun source).2.kind = .endOfFile := by
    rw [chunkRun_eq]
    exact hstate ▸ kind_fileItem (show (fileItem full m).1.2 = false from hlast)
  refine ParseState.rest_eq_nil_of_kind hend fun token hmem => ?_
  have htoken : token ∈ (parse source).tokens := (moves_chunkRun source).suffix.mem hmem
  exact kind_ne_endOfFile_of_mem (List.mem_filter.1 htoken).1

end

/-- What it means that the reading of a source comes to an end. -/
structure ReadingEnds (source : List Char) : Prop where
  /-- The rules that nest one another have one solution, the grammar without a bottom. -/
  rules (grammar : Grammar) : grammar.above = grammar ↔ grammar = full
  /-- Rules are never nested deeper than there are tokens left: one level more gives what the
  grammar without a bottom does, whatever grammar is under the levels. -/
  depth (n : Nat) (bottom : Grammar) (s : ParseState) : s.rest.length < n →
    (∀ limit, (above^[n] bottom).expression limit s = full.expression limit s) ∧
      (above^[n] bottom).block s = full.block s
  /-- Every loop stops at a round that asks for no other one. -/
  loops : full.LoopsEnd
  /-- Nothing but moves is done while nested rules are read. -/
  moves (s : ParseState) : (∀ limit, s.Moves (full.expression limit s).2) ∧ s.Moves (full.block s).2
  /-- A source is read by the grammar without a bottom. -/
  run : chunkRun source = chunk full (readingStart source)
  reaches : (readingStart source).Moves (chunkRun source).2
  /-- The place among the tokens never goes back, and never passes the last one. -/
  places (s s' : ParseState) : (readingStart source).Moves s → s.Moves s' → ∃ place place',
    s.rest = (parse source).tokens.drop place ∧ s'.rest = (parse source).tokens.drop place' ∧
      place ≤ place' ∧ place' ≤ (parse source).tokens.length
  /-- In the end all tokens are read. -/
  finished : (chunkRun source).2.rest = []
  /-- Faults are at stretches of the source. -/
  faults : ∀ fault ∈ (parse source).faults,
    fault.span.start ≤ fault.span.stop ∧ fault.span.stop ≤ byteLength source

/-- Every source is read to its end, whatever is wrong with it. Counterpart of `parse`. -/
theorem parse_ends (source : List Char) : ReadingEnds source where
  rules grammar := ⟨eq_full, fun h => h ▸ above_full⟩
  depth n bottom s hs :=
    ⟨fun limit => ((inStep_full n bottom).expression limit s hs).same,
      ((inStep_full n bottom).block s hs).same⟩
  loops := loopsEnd_full
  moves s :=
    ⟨fun limit => ((inStep_full_self _).expression limit s (Nat.lt_succ_self _)).moves,
      ((inStep_full_self _).block s (Nat.lt_succ_self _)).moves⟩
  run := chunkRun_eq source
  reaches := moves_chunkRun source
  places s s' h h' := by
    have hs := h.suffix
    have hs' := h'.suffix
    exact ⟨_, _, List.suffix_iff_eq_drop.1 hs, List.suffix_iff_eq_drop.1 (hs'.trans hs),
      Nat.sub_le_sub_left hs'.length_le _, Nat.sub_le _ _⟩
  finished := rest_chunkRun source
  faults fault hmem := by
    obtain ⟨-, hstop, hle⟩ := marked_of_mem_faults hmem
    exact ⟨hle, hstop.le⟩

end LuaFormatter
