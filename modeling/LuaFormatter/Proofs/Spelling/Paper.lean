import LuaFormatter.Proofs.Layout.Squeeze
import LuaFormatter.Proofs.Spelling.Apart

/-!
# Reading what is written

The layout decides on blanks, so what is written is known up to the resolution of slots. `Touches`
says that neighbours among the slots stay apart whatever is decided: a token is followed by a blank,
or it ends before the token that follows. Then every resolution is read as its tokens
(`exists_joined`).
-/

namespace LuaFormatter

open Layout

/-- The lexeme that the text of a token is read as. -/
def Kind.lexeme (kind : Kind) (style : Style) (text : List Char) : List Char :=
  if kind.isVerbatim then style.written text else text

/-- The token that a piece is read as. -/
def Piece.content? (style : Style) : Piece → Option (Kind × List Char)
  | token kind text => some (kind, kind.lexeme style text)
  | _ => none

/-- The inks of a piece that is not put off. -/
def Piece.inks : Piece → List Ink
  | token kind text =>
    text.map fun c => if kind.isVerbatim ∧ c = '\n' then .literal else .char kind.isNote c
  | space => [.char false ' ']
  | newline level => [.newline level]
  | later _ _ _ => []

/-- Nothing is put off, and each token ends before what follows it. A token that nothing follows yet
is pending. -/
def Fits (style : Style) : Option Kind → List Piece → Prop
  | _, [] => True
  | pending, .token kind text :: rest =>
    kind.isWord = true ∧ Scan.Reads kind (kind.lexeme style text) ∧
      (∀ before ∈ pending, before.EndsBefore (kind.lexeme style text)) ∧ Fits style (some kind) rest
  | _, .space :: rest | _, .newline _ :: rest => Fits style none rest
  | _, .later _ _ _ :: _ => False

section
variable {style : Style} {pending : Option Kind} {pieces : List Piece}

/-- The letters of pieces that fit are their inks. Counterpart of `Piece.marks`. -/
theorem Fits.marks_eq (h : Fits style pending pieces) :
    pieces.flatMap Piece.marks = Mark.ofInks (pieces.flatMap Piece.inks) := by
  induction pieces generalizing pending with
  | nil => rfl
  | cons piece rest ih =>
    rw [List.flatMap_cons, List.flatMap_cons, Mark.ofInks, List.map_append]
    cases piece with
    | token kind text =>
      rw [ih h.2.2.2]
      congr 1
      simp only [Piece.marks, Kind.marks, Piece.inks, List.map_map]
      refine List.map_congr_left fun c _ => ?_
      simp only [Function.comp_apply]
      split <;> rfl
    | space | newline _ => rw [ih h]; rfl
    | later _ _ _ => exact h.elim

/-- A token is written as its lexeme. Counterpart of `Piece.token`. -/
theorem foldl_put_token (kind : Kind) (text output : List Char) :
    (Piece.token kind text).inks.foldl (Ink.put style) output =
      (kind.lexeme style text).reverse ++ output := by
  simp only [Piece.inks, Kind.lexeme]
  cases hverbatim : kind.isVerbatim with
  | false =>
    simp only [Bool.false_eq_true, false_and, if_false]
    exact Ink.foldl_put_ofText style kind.isNote text output
  | true =>
    simp only [true_and, if_true]
    induction text generalizing output with
    | nil => rfl
    | cons c rest ih =>
      rw [List.map_cons, List.foldl_cons, ih]
      unfold Style.written
      rw [List.flatMap_cons, List.reverse_append, List.append_assoc]
      split <;> rfl

/-- An indentation is skipped between tokens. Counterpart of `Scan.isSkipped`. -/
theorem isSkipped_indentation (style : Style) (level : Nat) :
    ∀ c ∈ style.indentation level, Scan.isSkipped c = true := by
  intro c hc
  unfold Style.indentation at hc
  split at hc
  · rw [List.eq_of_mem_replicate hc]
    rfl
  · rw [List.eq_of_mem_replicate hc]
    rfl

/-- A line ending is skipped between tokens. Counterpart of `Scan.isSkipped`. -/
theorem isSkipped_lineEnding (style : Style) :
    ∀ c ∈ style.lineEnding.text, Scan.isSkipped c = true := by
  have hall : style.lineEnding.text.all Scan.isSkipped = true := by
    cases style.lineEnding <;> decide
  exact List.all_eq_true.1 hall

/-- A line break takes blanks from the end of the line, and nothing else. Counterpart of
`Ink.put`. -/
theorem exists_put_newline {gap output : List Char} (level : Nat)
    (hgap : ∀ c ∈ gap, Scan.isSkipped c = true)
    (houtput : ∀ c ∈ output.head?, (c == ' ' || c == '\t') = false) :
    ∃ more, Ink.put style (gap.reverse ++ output) (.newline level) = more.reverse ++ output ∧
      more ≠ [] ∧ ∀ c ∈ more, Scan.isSkipped c = true := by
  obtain ⟨front, hfront, hmem⟩ : ∃ front : List Char,
      (gap.reverse ++ output).dropWhile (fun c => c == ' ' || c == '\t') = front ++ output ∧
        ∀ c ∈ front, c ∈ gap := by
    rw [List.dropWhile_append]
    split
    · exact ⟨[], Scan.dropWhile_of_head houtput, by simp⟩
    · exact ⟨_, rfl, fun c hc => List.mem_reverse.1 ((List.dropWhile_sublist _).subset hc)⟩
  refine ⟨front.reverse ++ (style.lineEnding.text ++ (style.indentation level).reverse), ?_, ?_, ?_⟩
  · rw [Ink.put, hfront]
    simp
  · obtain ⟨c, rest, htext, -⟩ := Scan.head_lineEnding style
    simp [htext]
  · intro c hc
    simp only [List.mem_append, List.mem_reverse] at hc
    rcases hc with hc | hc | hc
    · exact hgap c (hmem c hc)
    · exact isSkipped_lineEnding style c hc
    · exact isSkipped_indentation style level c hc

/-- Pieces that fit are read as their tokens. Before them, blanks were written after a token.
Counterpart of `Fits`. -/
theorem Fits.exists_joined (h : Fits style pending pieces)
    (hpending : ∀ kind ∈ pending, kind.isWord = true) {gap output : List Char}
    (hgap : ∀ c ∈ gap, Scan.isSkipped c = true)
    (houtput : ∀ c ∈ output.head?, (c == ' ' || c == '\t') = false) :
    ∃ text, (pieces.flatMap Piece.inks).foldl (Ink.put style) (gap.reverse ++ output) =
        text.reverse ++ output ∧
      Scan.Joined (pieces.filterMap (Piece.content? style)) text ∧
      (gap = [] → ∀ kind ∈ pending, kind.EndsBefore text) ∧
      (gap ≠ [] → ∀ c ∈ text.head?, Scan.isSkipped c = true) := by
  induction pieces generalizing pending gap output with
  | nil =>
    refine ⟨gap, rfl, .blank hgap, ?_, fun _ c hc => hgap c (List.mem_of_mem_head? hc)⟩
    rintro rfl kind _ c hc
    cases hc
  | cons piece rest ih =>
    rw [List.flatMap_cons, List.foldl_append]
    -- After a blank nothing is pending.
    have hblank : ∀ {more : List Char}, Fits style none rest → more ≠ [] →
        (∀ c ∈ more, Scan.isSkipped c = true) →
        ∃ text, (rest.flatMap Piece.inks).foldl (Ink.put style) (more.reverse ++ output) =
            text.reverse ++ output ∧
          Scan.Joined (rest.filterMap (Piece.content? style)) text ∧
          (gap = [] → ∀ kind ∈ pending, kind.EndsBefore text) ∧
          (gap ≠ [] → ∀ c ∈ text.head?, Scan.isSkipped c = true) := by
      intro more hfits hne hmore
      obtain ⟨text, htext, hjoined, -, hskipped⟩ := ih hfits (by simp) hmore houtput
      exact ⟨text, htext, hjoined, fun _ kind hkind c hc =>
        Scan.endsBefore_of_isSkipped (hpending kind hkind) (hskipped hne c hc), fun _ =>
        hskipped hne⟩
    cases piece with
    | token kind text =>
      obtain ⟨hword, hreads, hbefore, hrest⟩ := h
      have hlast : ∀ c ∈ ((kind.lexeme style text).reverse ++ (gap.reverse ++ output)).head?,
          (c == ' ' || c == '\t') = false := by
        intro c hc
        obtain ⟨first, tail, hlexeme, -⟩ := id hreads
        have hne : (kind.lexeme style text).getLast? = some c := by
          rw [List.head?_append, List.head?_reverse, hlexeme, List.getLast?_cons] at hc
          rwa [hlexeme, List.getLast?_cons]
        have hskipped := hreads.isSkipped_getLast hword c hne
        simp only [Scan.isSkipped, Bool.or_eq_false_iff] at hskipped ⊢
        exact ⟨hskipped.1.1.1.1.1, hskipped.1.1.1.1.2⟩
      obtain ⟨back, hback, hjoined, hends, -⟩ :=
        @ih (some kind) hrest (by simpa using hword) [] _ (by simp) hlast
      rw [foldl_put_token]
      refine ⟨gap ++ kind.lexeme style text ++ back, ?_, ?_, ?_, ?_⟩
      · rw [List.reverse_nil, List.nil_append] at hback
        rw [hback]
        simp
      · exact .token hgap hreads (hends rfl kind rfl) hjoined
      · rintro rfl before hbefore' c hc
        obtain ⟨first, tail, hlexeme, -⟩ := id hreads
        refine hbefore before hbefore' c ?_
        rw [hlexeme] at hc ⊢
        exact hc
      · intro hne c hc
        obtain ⟨d, tail, rfl⟩ := List.exists_cons_of_ne_nil hne
        rw [List.cons_append, List.cons_append] at hc
        cases hc
        exact hgap _ List.mem_cons_self
    | space =>
      have hput : Piece.space.inks.foldl (Ink.put style) (gap.reverse ++ output) =
          (gap ++ [' ']).reverse ++ output := by simp [Piece.inks, Ink.put]
      rw [hput]
      refine hblank h (by simp) fun c hc => ?_
      rcases List.mem_append.1 hc with hc | hc
      · exact hgap c hc
      · rw [List.mem_singleton.1 hc]
        rfl
    | newline level =>
      obtain ⟨more, hput, hne, hmore⟩ := @exists_put_newline style gap output level hgap houtput
      have hfold : (Piece.newline level).inks.foldl (Ink.put style) (gap.reverse ++ output) =
          more.reverse ++ output := hput
      rw [hfold]
      exact hblank h hne hmore
    | later _ _ _ => exact h.elim

end

/-! ## Slots -/

/-- Nothing is put off, and each token ends before what may follow it. -/
def Touches (style : Style) : Option Kind → List Slot → Prop
  | _, [] => True
  | pending, .token kind text :: rest =>
    kind.isWord = true ∧ Scan.Reads kind (kind.lexeme style text) ∧
      (∀ before ∈ pending, before.EndsBefore (kind.lexeme style text)) ∧
      Touches style (some kind) rest
  | _, .space :: rest | _, .gap :: rest | _, .hard :: rest => Touches style none rest
  | pending, .soft :: rest | pending, .pad :: rest | pending, .comma :: rest =>
    Touches style pending rest
  | _, .later _ _ _ :: _ => False

/-- The token after some slots that a blank does not follow yet. -/
def pendingAfter : Option Kind → List Slot → Option Kind
  | pending, [] => pending
  | _, .token kind _ :: rest => pendingAfter (some kind) rest
  | _, .space :: rest | _, .gap :: rest | _, .hard :: rest => pendingAfter none rest
  | pending, .soft :: rest | pending, .pad :: rest | pending, .comma :: rest =>
    pendingAfter pending rest
  | pending, .later _ _ _ :: rest => pendingAfter pending rest

section
variable {style : Style} {pending : Option Kind}

/-- No tokens run together in two lists of slots if none do in each, from what is pending on.
Counterpart of `Touches`. -/
theorem touches_append {front back : List Slot} :
    Touches style pending (front ++ back) ↔
      Touches style pending front ∧ Touches style (pendingAfter pending front) back := by
  induction front generalizing pending with
  | nil => simp [Touches, pendingAfter]
  | cons slot front ih =>
    cases slot <;> simp [Touches, pendingAfter, ih, and_assoc]

/-- What is pending after two lists of slots. Counterpart of `pendingAfter`. -/
theorem pendingAfter_append {front back : List Slot} :
    pendingAfter pending (front ++ back) = pendingAfter (pendingAfter pending front) back := by
  induction front generalizing pending with
  | nil => rfl
  | cons slot front ih => cases slot <;> simp [pendingAfter, ih]

/-- Slots may follow a token that ends before everything. Counterpart of `Touches`. -/
theorem Touches.after {slots : List Slot} (h : Touches style pending slots) {other : Option Kind}
    (hother : ∀ kind ∈ other, ∀ c, kind.endsBefore c = true) : Touches style other slots := by
  induction slots generalizing pending other with
  | nil => trivial
  | cons slot slots ih =>
    cases slot with
    | token kind text =>
      exact ⟨h.1, h.2.1, fun before hbefore c _ => hother before hbefore c, h.2.2.2⟩
    | space | gap | hard => exact h
    | soft | pad | comma => exact ih h hother
    | later _ _ _ => exact h.elim

/-- Slots that touch are filled in by pieces that fit. Counterpart of `Touches`. -/
theorem Touches.fits {slots : List Slot} {pieces : List Piece} (h : Touches style pending slots)
    (hpending : ∀ kind ∈ pending, kind.isWord = true) (hpieces : Resolves slots pieces) :
    Fits style pending pieces := by
  induction slots generalizing pending pieces with
  | nil => cases hpieces; trivial
  | cons slot slots ih =>
    obtain ⟨front, back, rfl, hfront, hback⟩ := hpieces
    have hnone : ∀ {other : Option Kind}, Touches style other slots → Fits style none back :=
      fun h =>
      ih (h.after (by simp)) (by simp) hback
    cases slot with
    | token kind text =>
      cases hfront
      exact ⟨h.1, h.2.1, h.2.2.1, ih h.2.2.2 (by simpa using h.1) hback⟩
    | space => cases hfront; exact hnone h
    | hard =>
      obtain ⟨level, rfl⟩ := hfront
      exact hnone h
    | gap =>
      rcases hfront with rfl | ⟨level, rfl⟩
      · exact hnone h
      · exact hnone h
    | soft =>
      rcases hfront with rfl | ⟨level, rfl⟩
      · exact ih h hpending hback
      · exact hnone h
    | pad =>
      rcases hfront with rfl | rfl | ⟨level, rfl⟩
      · exact ih h hpending hback
      · exact hnone h
      · exact hnone h
    | comma =>
      rcases hfront with rfl | rfl
      · exact ih h hpending hback
      · refine ⟨rfl, Scan.reads_symbol .comma, fun before hbefore => ?_, ?_⟩
        · exact @Kind.endsBefore_closer before (hpending before hbefore) .comma rfl
        · exact ih (h.after (by simpa using Symbol.endsBefore_of_isAlone rfl))
            (by simp [Kind.isWord]) hback
    | later _ _ _ => exact h.elim

end

end LuaFormatter
