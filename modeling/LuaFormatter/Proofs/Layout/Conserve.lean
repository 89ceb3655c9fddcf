import LuaFormatter.Proofs.Layout.Resolution
import LuaFormatter.Proofs.Layout.Squeeze

/-!
# A layout conserves text

The output of a layout is made of the texts of one resolution of the document, each printed once
(`Doc.layout_conserves_texts`). To say where they are printed, a resolved document is taken for a
list of `Strand`s, and `Arranged` relates it to the pieces of the output: what is put off is
printed, in order, directly before the next line break or at the end, and everything else where it
stands.

The trace of a layout is a flushed word of the document (`flushed_traceOf`). A word is written along
a resolution (`Doc.exists_resolves`), and flushing splits at a line break into what comes before it
and what comes after (`Flushed.split`), which is how `Arranged` is built up.
-/

namespace LuaFormatter

namespace Layout

/-! ## Strands and pieces -/

/-- A part of a resolved document: a text, a line that may be broken, a line break, or parts that
are put off until the next line break. -/
inductive Strand where
  | text (content : String)
  | gap
  | lineBreak
  | later (contents : List Strand)

namespace Strand

/-- The line can be broken here. -/
def mayBreak : Strand → Bool
  | gap | lineBreak => true
  | text _ | later _ => false

mutual

/-- The texts of a strand. -/
def texts : Strand → List String
  | text content => [content]
  | gap | lineBreak => []
  | later contents => textsOf contents

/-- The texts of strands. -/
def textsOf : List Strand → List String
  | [] => []
  | strand :: rest => strand.texts ++ textsOf rest

end

/-- The texts of a strand that are not put off. -/
def outerTexts : Strand → List String
  | text content => [content]
  | gap | lineBreak | later _ => []

mutual

/-- A measure for arranging: putting strands off makes them lighter. -/
def weight : Strand → Nat
  | text _ | gap | lineBreak => 1
  | later contents => 1 + 2 * weightOf contents

/-- The weight of strands. -/
def weightOf : List Strand → Nat
  | [] => 0
  | strand :: rest => strand.weight + weightOf rest

end

/-- The texts of strands one after the other. Counterpart of `Strand.textsOf`. -/
theorem textsOf_append (front back : List Strand) :
    textsOf (front ++ back) = textsOf front ++ textsOf back := by
  induction front with
  | nil => rfl
  | cons strand front ih => rw [List.cons_append, textsOf, textsOf, ih, List.append_assoc]

/-- The weight of strands one after the other. Counterpart of `Strand.weightOf`. -/
theorem weightOf_append (front back : List Strand) :
    weightOf (front ++ back) = weightOf front + weightOf back := by
  induction front with
  | nil => simp [weightOf]
  | cons strand front ih => rw [List.cons_append, weightOf, weightOf, ih, Nat.add_assoc]

/-- Each strand has a weight. Counterpart of `Strand.weight`. -/
theorem weight_pos (strand : Strand) : 0 < strand.weight := by
  cases strand <;> unfold weight <;> omega

end Strand

/-- A piece of an output: a text, and whether it was put off, or a line break. -/
inductive Piece where
  | text (late : Bool) (content : String)
  | lineBreak

namespace Piece

/-- The texts of a piece. -/
def texts : Piece → List String
  | text _ content => [content]
  | lineBreak => []

/-- The texts of a piece that were not put off. -/
def outerTexts : Piece → List String
  | text false content => [content]
  | text true _ | lineBreak => []

end Piece

/-- The pieces that strands are printed as, after strands that are pending, which were put off. A
line that may be broken is left flat or is broken. The strands that are pending at a line break are
printed directly before it, and those at the end are printed there. Strands that were put off are
marked as late when they are printed. -/
inductive Arranged : Bool → List Strand → List Strand → List Piece → Prop
  | nil {late : Bool} : Arranged late [] [] []
  | atEnd {late : Bool} {pending : List Strand} {pieces : List Piece} :
    pending ≠ [] → Arranged true [] pending pieces → Arranged late pending [] pieces
  | text {late : Bool} {pending strands : List Strand} {pieces : List Piece} (content : String) :
    Arranged late pending strands pieces →
      Arranged late pending (.text content :: strands) (.text late content :: pieces)
  | flat {late : Bool} {pending strands : List Strand} {pieces : List Piece} :
    Arranged late pending strands pieces → Arranged late pending (.gap :: strands) pieces
  | later {late : Bool} {pending contents strands : List Strand} {pieces : List Piece} :
    Arranged late (pending ++ contents) strands pieces →
      Arranged late pending (.later contents :: strands) pieces
  | lineBreak {late : Bool} {strand : Strand} {pending strands : List Strand}
      {before after : List Piece} :
    strand.mayBreak = true → Arranged true [] pending before → Arranged late [] strands after →
      Arranged late pending (strand :: strands) (before ++ .lineBreak :: after)

namespace Arranged

variable {late : Bool} {pending strands : List Strand} {pieces : List Piece}

/-- A line that may be broken has no texts. Counterpart of `Strand.mayBreak`. -/
theorem texts_of_mayBreak {strand : Strand} (h : strand.mayBreak = true) :
    strand.texts = [] ∧ strand.outerTexts = [] := by
  cases strand with
  | gap | lineBreak => exact ⟨rfl, rfl⟩
  | text | later => cases h

/-- Every text is printed once. Counterpart of `Arranged`. -/
theorem perm_texts (h : Arranged late pending strands pieces) :
    (pieces.flatMap Piece.texts).Perm (Strand.textsOf pending ++ Strand.textsOf strands) := by
  induction h with
  | nil => exact .nil
  | @atEnd _ pending _ _ _ ih => simpa [Strand.textsOf] using ih
  | text content _ ih =>
    rw [List.flatMap_cons, Strand.textsOf]
    exact (ih.cons content).trans List.perm_middle.symm
  | flat _ ih => exact ih
  | later _ ih =>
    rwa [Strand.textsOf_append, List.append_assoc] at ih
  | lineBreak hbreak _ _ ihBefore ihAfter =>
    rw [List.flatMap_append, List.flatMap_cons, Strand.textsOf, (texts_of_mayBreak hbreak).1]
    exact ihBefore.append ihAfter

/-- The texts that are not put off keep their order. Counterpart of `Arranged`. -/
theorem outerTexts_eq (h : Arranged late pending strands pieces) :
    pieces.flatMap Piece.outerTexts = if late then [] else strands.flatMap Strand.outerTexts := by
  induction h with
  | nil => simp
  | atEnd _ _ ih => simpa using ih
  | @text late _ _ _ content _ ih =>
    rw [List.flatMap_cons, ih]
    cases late <;> rfl
  | flat _ ih => exact ih
  | later _ ih => exact ih
  | lineBreak hbreak _ _ ihBefore ihAfter =>
    rw [List.flatMap_append, List.flatMap_cons, ihBefore, ihAfter, List.flatMap_cons,
      (texts_of_mayBreak hbreak).2]
    rfl

end Arranged

/-! ## Words along strands -/

/-- A word writes strands down: texts letter by letter, and some or no blanks for a line that is
left flat. -/
inductive Written : List Strand → List Mark → Prop
  | nil : Written [] []
  | text {strands : List Strand} {word : List Mark} (isNote : Bool) (content : String) :
    Written strands word →
      Written (.text content :: strands) (Mark.ofInks (Ink.ofText isNote content.toList) ++ word)
  | flat {strands : List Strand} {word : List Mark} (width : Nat) : Written strands word →
    Written (.gap :: strands) (Mark.ofInks (Ink.ofText false (List.replicate width ' ')) ++ word)
  | lineBreak {strand : Strand} {strands : List Strand} {ink : Ink} {word : List Mark} :
    strand.mayBreak = true → ink.isBreak = true → Written strands word →
      Written (strand :: strands) (.ink ink :: word)
  | later {contents strands : List Strand} {marks word : List Mark} : Written contents marks →
    Written strands word → Written (.later contents :: strands) (.later marks :: word)

/-- Strands one after the other are written down one after the other. Counterpart of `Written`. -/
theorem Written.append {front back : List Strand} {first second : List Mark}
    (h : Written front first) (hback : Written back second) :
    Written (front ++ back) (first ++ second) := by
  induction h with
  | nil => exact hback
  | text isNote content _ ih => rw [List.append_assoc]; exact .text isNote content ih
  | flat width _ ih => rw [List.append_assoc]; exact .flat width ih
  | lineBreak hstrand hink _ ih => exact .lineBreak hstrand hink ih
  | later hmarks _ _ ih => exact .later hmarks ih

/-- A line in a mode is left flat or is broken. Counterpart of `Mode.lineMarks`. -/
theorem Written.line (mode : Mode) (level width : Nat) :
    Written [.gap] (mode.lineMarks level (Ink.ofText false (List.replicate width ' '))) := by
  cases mode with
  | flat =>
    have hflat := Written.flat width .nil
    rwa [List.append_nil] at hflat
  | broken => exact .lineBreak rfl rfl .nil

/-! ## Flushing -/

section
variable {queue front word : List Mark} {inks : List Ink} {ink : Ink}

/-- What is put off at the end is printed there. Counterpart of `Flushed`. -/
theorem Flushed.of_nil (h : Flushed queue [] inks) : Flushed [] queue inks := by
  cases h with
  | done => exact .done
  | last _ h => exact h

/-- Where nothing is written, nothing is printed. Counterpart of `Flushed`. -/
theorem Flushed.eq_nil (h : Flushed [] [] inks) : inks = [] := by
  cases h with
  | done => rfl
  | last hne => exact absurd rfl hne

/-- At a line break, what comes before it is printed, with what is put off there, and then the rest.
Counterpart of `Flushed`. -/
theorem Flushed.split (hbreak : ink.isBreak = true)
    (h : Flushed queue (front ++ .ink ink :: word) inks) :
    ∃ before after, inks = before ++ ink :: after ∧ Flushed queue front before ∧
      Flushed [] word after := by
  generalize hwhole : front ++ .ink ink :: word = whole at h
  induction h generalizing front with
  | done => simp at hwhole
  | last => simp at hwhole
  | @char queue rest inks isNote c h ih =>
    cases front with
    | nil =>
      obtain ⟨hink, -⟩ := List.cons.inj hwhole
      cases hink
      cases hbreak
    | cons mark front =>
      obtain ⟨rfl, hrest⟩ := List.cons.inj hwhole
      obtain ⟨before, after, rfl, hbefore, hafter⟩ := ih hrest
      exact ⟨.char isNote c :: before, after, rfl, .char isNote c hbefore, hafter⟩
  | later h ih =>
    cases front with
    | nil => cases (List.cons.inj hwhole).1
    | cons mark front =>
      obtain ⟨rfl, hrest⟩ := List.cons.inj hwhole
      obtain ⟨before, after, rfl, hbefore, hafter⟩ := ih hrest
      exact ⟨before, after, rfl, .later hbefore, hafter⟩
  | @break_ rest inks other hother h ih =>
    cases front with
    | nil =>
      obtain ⟨hink, rfl⟩ := List.cons.inj hwhole
      cases hink
      exact ⟨[], inks, rfl, .done, h⟩
    | cons mark front =>
      obtain ⟨rfl, hrest⟩ := List.cons.inj hwhole
      obtain ⟨before, after, rfl, hbefore, hafter⟩ := ih hrest
      exact ⟨other :: before, after, rfl, .break_ hother hbefore, hafter⟩
  | @flush queue rest inks other hother hne h ih =>
    cases front with
    | nil =>
      obtain ⟨hink, rfl⟩ := List.cons.inj hwhole
      cases hink
      obtain ⟨before, after, rfl, hbefore, hafter⟩ := ih rfl
      exact ⟨before, after, rfl, .last hne hbefore, hafter⟩
    | cons mark front =>
      obtain ⟨rfl, rfl⟩ := List.cons.inj hwhole
      obtain ⟨before, after, rfl, hbefore, hafter⟩ :=
        @ih (queue ++ .ink other :: front) (by simp)
      exact ⟨before, after, rfl, .flush hother hne hbefore, hafter⟩

/-- A text is printed where it stands. Counterpart of `Flushed`. -/
theorem Flushed.exists_ofText {isNote : Bool} {content : List Char}
    (h : Flushed queue (Mark.ofInks (Ink.ofText isNote content) ++ word) inks) :
    ∃ rest, inks = Ink.ofText isNote content ++ rest ∧ Flushed queue word rest := by
  induction content generalizing inks with
  | nil => exact ⟨inks, rfl, h⟩
  | cons c content ih =>
    cases h with
    | char _ _ h =>
      obtain ⟨rest, rfl, hrest⟩ := ih h
      exact ⟨rest, rfl, hrest⟩
    | break_ hbreak => cases hbreak
    | flush hbreak => cases hbreak

end

/-! ## Letters and the ends of lines -/

/-- The letters of a text, and the ends of its lines. -/
def lineLetters (text : List Char) : List Char :=
  text.filter fun c => !isLayout c || c == '\n'

/-- The letters and the end of the line that an ink leaves. -/
def Ink.lineLetters : Ink → List Char
  | char _ c => Layout.lineLetters [c]
  | newline _ | literal => ['\n']

/-- The letters of an output and the ends of its lines are those that the inks leave. Counterpart of
`render`. -/
theorem lineLetters_render (style : Style) (inks : List Ink) :
    lineLetters (render style inks) = inks.flatMap Ink.lineLetters := by
  have hink : Ink.kept (fun c => !isLayout c || c == '\n') = Ink.lineLetters := by
    funext ink
    cases ink <;> rfl
  rw [← hink]
  exact filter_render rfl rfl rfl style inks

/-- The letters of a text do not depend on the ends of its lines. Counterpart of `letters`. -/
theorem letters_lineLetters (text : List Char) : letters (lineLetters text) = letters text := by
  unfold letters lineLetters
  rw [List.filter_filter]
  congr 1
  funext c
  cases isLayout c <;> rfl

/-- The letters and the end of the line that a piece leaves. -/
def Piece.lineLetters : Piece → List Char
  | text _ content => Layout.lineLetters content.toList
  | lineBreak => ['\n']

/-- A text leaves its letters and the ends of its lines. Counterpart of `Ink.ofText`. -/
theorem flatMap_lineLetters_ofText (isNote : Bool) (content : List Char) :
    (Ink.ofText isNote content).flatMap Ink.lineLetters = lineLetters content := by
  induction content with
  | nil => rfl
  | cons c content ih =>
    rw [Ink.ofText, List.map_cons, List.flatMap_cons, ← Ink.ofText, ih]
    exact List.filter_append (p := fun c => !isLayout c || c == '\n') [c] content |>.symm

/-- Flushing arranges the strands that a word is written along. Counterpart of `Arranged`. -/
theorem exists_arranged {late : Bool} {pending strands : List Strand} {queue word : List Mark}
    {inks : List Ink} (hqueue : Written pending queue) (hword : Written strands word)
    (h : Flushed queue word inks) :
    ∃ pieces, Arranged late pending strands pieces ∧
      inks.flatMap Ink.lineLetters = pieces.flatMap Piece.lineLetters := by
  induction hsize : 3 * Strand.weightOf pending + 2 * Strand.weightOf strands using
    Nat.strongRecOn generalizing late pending strands queue word inks with
  | _ size ih =>
  subst hsize
  cases hword with
  | nil =>
    cases pending with
    | nil =>
      cases hqueue
      cases h with
      | done => exact ⟨[], .nil, rfl⟩
      | last hne => exact absurd rfl hne
    | cons strand rest =>
      have hless : 3 * Strand.weightOf [] + 2 * Strand.weightOf (strand :: rest) <
          3 * Strand.weightOf (strand :: rest) + 2 * Strand.weightOf [] := by
        have := strand.weight_pos
        simp only [Strand.weightOf]
        omega
      obtain ⟨pieces, hpieces, hinks⟩ := ih _ hless .nil hqueue h.of_nil rfl
      exact ⟨pieces, .atEnd (by simp) hpieces, hinks⟩
  | text isNote content hrest =>
    obtain ⟨rest, rfl, hflushed⟩ := h.exists_ofText
    obtain ⟨pieces, hpieces, hinks⟩ :=
      ih _ (by simp only [Strand.weightOf, Strand.weight]; omega) hqueue hrest hflushed rfl
    refine ⟨_, .text content hpieces, ?_⟩
    rw [List.flatMap_append, flatMap_lineLetters_ofText, hinks]
    rfl
  | flat width hrest =>
    obtain ⟨rest, rfl, hflushed⟩ := h.exists_ofText
    obtain ⟨pieces, hpieces, hinks⟩ :=
      ih _ (by simp only [Strand.weightOf, Strand.weight]; omega) hqueue hrest hflushed rfl
    refine ⟨pieces, .flat hpieces, ?_⟩
    have hblanks : lineLetters (List.replicate width ' ') = [] := by
      simp [lineLetters, isLayout]
    rw [List.flatMap_append, flatMap_lineLetters_ofText, hblanks, hinks]
    rfl
  | @lineBreak strand _ ink _ hstrand hink hrest =>
    -- What is pending is printed on its own, and so is what comes after the break.
    have hpos := strand.weight_pos
    obtain ⟨before, after, rfl, hbefore, hafter⟩ := @Flushed.split _ [] _ _ _ hink h
    obtain ⟨first, hfirst, hinks⟩ :=
      ih _ (by simp only [Strand.weightOf]; omega) .nil hqueue hbefore.of_nil rfl
    obtain ⟨second, hsecond, hinks'⟩ :=
      ih _ (by simp only [Strand.weightOf]; omega) .nil hrest hafter rfl
    refine ⟨_, .lineBreak hstrand hfirst hsecond, ?_⟩
    have hend : ink.lineLetters = ['\n'] := by
      cases ink with
      | char => cases hink
      | newline | literal => rfl
    rw [List.flatMap_append, List.flatMap_append, List.flatMap_cons, List.flatMap_cons, hinks,
      hinks', hend]
    rfl
  | later hmarks hrest =>
    cases h with
    | later h =>
      obtain ⟨pieces, hpieces, hinks⟩ :=
        ih _ (by simp only [Strand.weightOf, Strand.weightOf_append, Strand.weight]; omega)
          (hqueue.append hmarks) hrest h rfl
      exact ⟨pieces, .later hpieces, hinks⟩

end Layout

namespace Doc

open LuaFormatter.Layout

mutual

/-- The strands of a document, with those of all forms of a choice. A resolution has no choices. -/
def strands : Doc → List Strand
  | text content | note content => [.text content]
  | softLine | line => [.gap]
  | hardLine | literalLine => [.lineBreak]
  | concat items | alternatives _ items => strandsOf items
  | indent contents | group _ contents => contents.strands
  | ifBreak broken flat => broken.strands ++ flat.strands
  | suffix contents => [.later contents.strands]
  | empty | breakParent => []

/-- The strands of documents. -/
def strandsOf : List Doc → List Strand
  | [] => []
  | doc :: rest => doc.strands ++ strandsOf rest

end

mutual

/-- The strands of a document have its texts. Counterpart of `Doc.texts`. -/
theorem textsOf_strands : ∀ doc : Doc, Strand.textsOf doc.strands = doc.texts
  | text _ | note _ | softLine | line | hardLine | literalLine | empty | breakParent => rfl
  | concat items | alternatives _ items => textsOf_strandsOf items
  | indent contents | group _ contents => textsOf_strands contents
  | ifBreak broken flat => by
    rw [strands, texts, Strand.textsOf_append, textsOf_strands broken, textsOf_strands flat]
  | suffix contents => (List.append_nil _).trans (textsOf_strands contents)

/-- The strands of documents have their texts. Counterpart of `Doc.textsOf`. -/
theorem textsOf_strandsOf : ∀ docs : List Doc, Strand.textsOf (strandsOf docs) = textsOf docs
  | [] => rfl
  | doc :: rest => by
    rw [strandsOf, textsOf, Strand.textsOf_append, textsOf_strands doc, textsOf_strandsOf rest]

end

mutual

/-- The strands of a document have its texts that are not put off. Counterpart of
`Doc.outerTexts`. -/
theorem outerTexts_strands : ∀ doc : Doc, doc.strands.flatMap Strand.outerTexts = doc.outerTexts
  | text _ | note _ | softLine | line | hardLine | literalLine | empty | breakParent | suffix _ =>
    rfl
  | concat items | alternatives _ items => outerTexts_strandsOf items
  | indent contents | group _ contents => outerTexts_strands contents
  | ifBreak broken flat => by
    rw [strands, outerTexts, List.flatMap_append, outerTexts_strands broken,
      outerTexts_strands flat]

/-- The strands of documents have their texts that are not put off. Counterpart of
`Doc.outerTextsOf`. -/
theorem outerTexts_strandsOf :
    ∀ docs : List Doc, (strandsOf docs).flatMap Strand.outerTexts = outerTextsOf docs
  | [] => rfl
  | doc :: rest => by
    rw [strandsOf, outerTextsOf, List.flatMap_append, outerTexts_strands doc,
      outerTexts_strandsOf rest]

end

mutual

/-- A word of a document is written along one of its resolutions. Counterpart of `Doc.spells`. -/
theorem exists_resolves {level : Nat} {mode : Mode} : ∀ {doc : Doc} {word : List Mark},
    doc.spells level mode word → ∃ plain, doc.Resolves plain ∧ Written plain.strands word
  | empty, _, h => ⟨empty, rfl, by cases h; exact .nil⟩
  | breakParent, _, h => ⟨breakParent, rfl, by cases h; exact .nil⟩
  | text content, _, h => by
    cases h
    have htext := Written.text false content .nil
    rw [List.append_nil] at htext
    exact ⟨text content, rfl, htext⟩
  | note content, _, h => by
    cases h
    have htext := Written.text true content .nil
    rw [List.append_nil] at htext
    exact ⟨note content, rfl, htext⟩
  | softLine, _, h => by
    cases h
    exact ⟨softLine, rfl, .line mode level 0⟩
  | line, _, h => by
    cases h
    exact ⟨line, rfl, .line mode level 1⟩
  | hardLine, _, h => by
    cases h
    exact ⟨hardLine, rfl, .lineBreak rfl rfl .nil⟩
  | literalLine, _, h => by
    cases h
    exact ⟨literalLine, rfl, .lineBreak rfl rfl .nil⟩
  | concat items, _, h => by
    obtain ⟨parts, hparts, hwritten⟩ := exists_allResolve h
    exact ⟨concat parts, ⟨parts, rfl, hparts⟩, hwritten⟩
  | indent contents, _, h => by
    obtain ⟨inner, hinner, hwritten⟩ := @exists_resolves _ _ contents _ h
    exact ⟨indent inner, ⟨inner, rfl, hinner⟩, hwritten⟩
  | group breaks contents, _, h => by
    obtain ⟨inner, hinner, hwritten⟩ :
        ∃ inner, contents.Resolves inner ∧ Written inner.strands _ := by
      rcases h with h | ⟨-, h⟩
      · exact exists_resolves h
      · exact exists_resolves h
    exact ⟨group breaks inner, ⟨inner, rfl, hinner⟩, hwritten⟩
  | alternatives breaks options, _, h => by
    rcases h with ⟨hnone, rfl⟩ | h
    · exact ⟨empty, .inl ⟨hnone, rfl⟩, .nil⟩
    · obtain ⟨plain, hplain, hwritten⟩ := exists_anyResolves h
      exact ⟨plain, .inr hplain, hwritten⟩
  | ifBreak broken flat, _, h => by
    rcases h with ⟨-, h⟩ | ⟨-, h⟩
    · obtain ⟨plain, hplain, hwritten⟩ := exists_resolves h
      exact ⟨plain, .inl hplain, hwritten⟩
    · obtain ⟨plain, hplain, hwritten⟩ := exists_resolves h
      exact ⟨plain, .inr hplain, hwritten⟩
  | suffix contents, _, ⟨marks, hword, h⟩ => by
    subst hword
    obtain ⟨inner, hinner, hwritten⟩ := exists_resolves h
    exact ⟨suffix inner, ⟨inner, rfl, hinner⟩, .later hwritten .nil⟩

/-- What documents may spell writes down the strands of a resolution of each. Counterpart of
`allSpell`. -/
theorem exists_allResolve {level : Nat} {mode : Mode} : ∀ {docs : List Doc} {word : List Mark},
    allSpell level mode docs word → ∃ parts, allResolve docs parts ∧ Written (strandsOf parts) word
  | [], _, h => ⟨[], rfl, by cases h; exact .nil⟩
  | doc :: rest, _, ⟨front, back, hword, hfront, hback⟩ => by
    subst hword
    obtain ⟨first, hfirst, hwritten⟩ := exists_resolves hfront
    obtain ⟨others, hothers, hwritten'⟩ := exists_allResolve hback
    exact ⟨first :: others, ⟨first, others, rfl, hfirst, hothers⟩, hwritten.append hwritten'⟩

/-- What a choice may spell writes down the strands of a resolution of one of its forms. Counterpart
of `anySpells`. -/
theorem exists_anyResolves {level : Nat} : ∀ {docs : List Doc} {word : List Mark},
    anySpells level docs word → ∃ plain, anyResolves docs plain ∧ Written plain.strands word
  | doc :: rest, _, h => by
    rcases h with h | h | h
    · obtain ⟨plain, hplain, hwritten⟩ := exists_resolves h
      exact ⟨plain, .inl hplain, hwritten⟩
    · obtain ⟨plain, hplain, hwritten⟩ := exists_resolves h
      exact ⟨plain, .inl hplain, hwritten⟩
    · obtain ⟨plain, hplain, hwritten⟩ := exists_anyResolves h
      exact ⟨plain, .inr hplain, hwritten⟩

end

/-- The layout conserves text. There is a resolution of the document such that the output, without
blanks and line breaks, is made of the texts of the resolution, each printed once. Those that are
not put off keep their order. Where they are printed, line by line, is as `Arranged` says: what is
put off comes directly before the next line break, in order, or at the end. Counterpart of
`Doc.layout`. -/
theorem layout_conserves_texts (style : Style) (doc : Doc) :
    ∃ plain pieces, doc.Resolves plain ∧ Arranged false [] plain.strands pieces ∧
      lineLetters (doc.layout style) = pieces.flatMap Piece.lineLetters ∧
      letters (doc.layout style) = (pieces.flatMap Piece.texts).flatMap (letters ·.toList) ∧
      (pieces.flatMap Piece.texts).Perm plain.texts ∧
      pieces.flatMap Piece.outerTexts = plain.outerTexts := by
  obtain ⟨word, hword, hflushed⟩ := flushed_traceOf style doc
  obtain ⟨plain, hplain, hwritten⟩ := exists_resolves hword
  obtain ⟨pieces, hpieces, hinks⟩ := @exists_arranged false _ _ _ _ _ .nil hwritten hflushed
  have hlines : lineLetters (doc.layout style) = pieces.flatMap Piece.lineLetters := by
    rw [layout_eq_render, lineLetters_render, hinks]
  refine ⟨plain, pieces, hplain, hpieces, hlines, ?_, ?_, ?_⟩
  · rw [← letters_lineLetters, hlines, letters, List.filter_flatMap, List.flatMap_assoc]
    congr 1
    funext piece
    cases piece with
    | text late content =>
      exact (letters_lineLetters content.toList).trans (List.append_nil _).symm
    | lineBreak => rfl
  · have hperm := hpieces.perm_texts
    rwa [textsOf_strands] at hperm
  · rw [hpieces.outerTexts_eq, if_neg (by simp), outerTexts_strands]

end Doc

end LuaFormatter
