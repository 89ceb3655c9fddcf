import LuaFormatter.Proofs.Layout.Conserve

/-!
# Cutting an output

A word can be cut anywhere, also between line breaks. `Laid` says what its front leaves on paper,
and which letters are still put off there, and `Flushed.cut` cuts the inks of the word where the
word is cut. What is put off at the cut comes directly before the next line break
(`Flushed.exists_break`).

`render_append` cuts the text in the same way: only blanks are taken back by what is written later.
-/

namespace LuaFormatter.Layout

/-- What the front of a word leaves on paper, from letters that are put off before it to letters
that are put off after it. -/
inductive Laid : List Mark → List Mark → List Ink → List Mark → Prop
  | done {queue : List Mark} : Laid queue [] [] queue
  | char {queue word waiting : List Mark} {inks : List Ink} (isNote : Bool) (c : Char) :
    Laid queue word inks waiting →
      Laid queue (.ink (.char isNote c) :: word) (.char isNote c :: inks) waiting
  | later {queue word marks waiting : List Mark} {inks : List Ink} :
    Laid (queue ++ marks) word inks waiting → Laid queue (.later marks :: word) inks waiting
  | break_ {word waiting : List Mark} {inks : List Ink} {ink : Ink} :
    ink.isBreak = true → Laid [] word inks waiting →
    Laid [] (.ink ink :: word) (ink :: inks) waiting
  | flush {queue word waiting : List Mark} {inks : List Ink} {ink : Ink} :
    ink.isBreak = true → queue ≠ [] → Laid [] (queue ++ .ink ink :: word) inks waiting →
      Laid queue (.ink ink :: word) inks waiting

section
variable {queue front back word : List Mark} {inks : List Ink} {ink : Ink}

/-- Where a word is cut, its inks are cut. Counterpart of `Laid`. -/
theorem Flushed.cut (h : Flushed queue (front ++ back) inks) :
    ∃ before waiting after, inks = before ++ after ∧ Laid queue front before waiting ∧
      Flushed waiting back after := by
  generalize hwhole : front ++ back = whole at h
  induction h generalizing front with
  | done =>
    obtain ⟨rfl, rfl⟩ := List.append_eq_nil_iff.1 hwhole
    exact ⟨[], [], [], rfl, .done, .done⟩
  | @last queue inks hne h =>
    obtain ⟨rfl, rfl⟩ := List.append_eq_nil_iff.1 hwhole
    exact ⟨[], queue, inks, rfl, .done, .last hne h⟩
  | @char queue rest inks isNote c h ih =>
    cases front with
    | nil =>
      obtain rfl : back = _ := hwhole
      exact ⟨[], queue, _, rfl, .done, .char isNote c h⟩
    | cons mark front =>
      obtain ⟨rfl, hrest⟩ := List.cons.inj hwhole
      obtain ⟨before, waiting, after, rfl, hbefore, hafter⟩ := ih hrest
      exact ⟨.char isNote c :: before, waiting, after, rfl, .char isNote c hbefore, hafter⟩
  | @later queue rest marks inks h ih =>
    cases front with
    | nil =>
      obtain rfl : back = _ := hwhole
      exact ⟨[], queue, inks, rfl, .done, .later h⟩
    | cons mark front =>
      obtain ⟨rfl, hrest⟩ := List.cons.inj hwhole
      obtain ⟨before, waiting, after, rfl, hbefore, hafter⟩ := ih hrest
      exact ⟨before, waiting, after, rfl, .later hbefore, hafter⟩
  | @break_ rest inks ink hbreak h ih =>
    cases front with
    | nil =>
      obtain rfl : back = _ := hwhole
      exact ⟨[], [], _, rfl, .done, .break_ hbreak h⟩
    | cons mark front =>
      obtain ⟨rfl, hrest⟩ := List.cons.inj hwhole
      obtain ⟨before, waiting, after, rfl, hbefore, hafter⟩ := ih hrest
      exact ⟨ink :: before, waiting, after, rfl, .break_ hbreak hbefore, hafter⟩
  | @flush queue rest inks ink hbreak hne h ih =>
    cases front with
    | nil =>
      obtain rfl : back = _ := hwhole
      exact ⟨[], queue, inks, rfl, .done, .flush hbreak hne h⟩
    | cons mark front =>
      obtain ⟨rfl, rfl⟩ := List.cons.inj hwhole
      obtain ⟨before, waiting, after, rfl, hbefore, hafter⟩ :=
        @ih (queue ++ .ink ink :: front) (by simp)
      exact ⟨before, waiting, after, rfl, .flush hbreak hne hbefore, hafter⟩

/-- Inks are written where they stand if nothing is put off. Counterpart of `Flushed`. -/
theorem Flushed.exists_ofInks {content : List Ink}
    (h : Flushed [] (Mark.ofInks content ++ word) inks) :
    ∃ rest, inks = content ++ rest ∧ Flushed [] word rest := by
  induction content generalizing inks with
  | nil => exact ⟨inks, rfl, h⟩
  | cons ink content ih =>
    cases h with
    | char _ _ h | break_ _ h =>
      obtain ⟨rest, rfl, hrest⟩ := ih h
      exact ⟨rest, rfl, hrest⟩
    | flush _ hne _ => exact absurd rfl hne

/-- At a line break, what is put off is written before it. Counterpart of `Flushed`. -/
theorem Flushed.exists_break {pending : List Ink} (hbreak : ink.isBreak = true)
    (h : Flushed (Mark.ofInks pending) (.ink ink :: word) inks) :
    ∃ rest, inks = pending ++ ink :: rest ∧ Flushed [] word rest := by
  obtain ⟨before, after, rfl, hbefore, hafter⟩ := @Flushed.split _ [] _ _ _ hbreak h
  obtain rfl := Flushed.eq_of_inks hbefore.of_nil
  exact ⟨after, rfl, hafter⟩

/-- Parts that were put off are made of inks. -/
def Mark.LaterInks : Mark → Prop
  | .ink _ => True
  | .later marks => ∃ content, marks = ofInks content

/-- What waits at a cut is made of inks if all parts that are put off are. Counterpart of `Laid`. -/
theorem Laid.exists_ofInks {waiting : List Mark} (h : Laid queue word inks waiting)
    (hword : ∀ mark ∈ word, mark.LaterInks) (hqueue : ∃ content, queue = Mark.ofInks content) :
    ∃ pending, waiting = Mark.ofInks pending := by
  induction h with
  | done => exact hqueue
  | char _ _ _ ih => exact ih (fun mark hmem => hword mark (List.mem_cons_of_mem _ hmem)) hqueue
  | later _ ih =>
    obtain ⟨content, rfl⟩ := hqueue
    obtain ⟨more, rfl⟩ := hword _ List.mem_cons_self
    exact ih (fun mark hmem => hword mark (List.mem_cons_of_mem _ hmem))
      ⟨content ++ more, (List.map_append ..).symm⟩
  | break_ _ _ ih => exact ih (fun mark hmem => hword mark (List.mem_cons_of_mem _ hmem)) ⟨[], rfl⟩
  | flush _ _ _ ih =>
    obtain ⟨content, rfl⟩ := hqueue
    refine ih (fun mark hmem => ?_) ⟨[], rfl⟩
    rcases List.mem_append.1 hmem with hmem | hmem
    · obtain ⟨ink, -, rfl⟩ := List.mem_map.1 hmem
      exact trivial
    · exact hword mark hmem

/-- What is put off joins what is pending. Counterpart of `Flushed`. -/
theorem Flushed.of_later {marks : List Mark} (h : Flushed queue (.later marks :: word) inks) :
    Flushed (queue ++ marks) word inks := by
  cases h with
  | later h => exact h

/-- Inks that are put off together are written together. Counterpart of `Flushed`. -/
theorem Flushed.infix_of_queue {pending : List Ink} (h : Flushed queue word inks)
    (hword : ∀ mark ∈ word, mark.LaterInks)
    (hqueue : ∃ content, queue = Mark.ofInks content ∧ pending <:+: content) :
    pending <:+: inks := by
  induction h with
  | done | break_ =>
    obtain ⟨content, hnil, hpending⟩ := hqueue
    obtain rfl := List.map_eq_nil_iff.1 hnil.symm
    obtain rfl := List.infix_nil.1 hpending
    exact List.nil_infix
  | last _ h =>
    obtain ⟨content, rfl, hpending⟩ := hqueue
    rwa [Flushed.eq_of_inks h]
  | char _ _ _ ih =>
    exact (ih (fun mark hmem => hword mark (List.mem_cons_of_mem _ hmem)) hqueue).trans
      (List.suffix_cons ..).isInfix
  | later _ ih =>
    obtain ⟨content, rfl, hpending⟩ := hqueue
    obtain ⟨more, rfl⟩ := hword _ List.mem_cons_self
    exact ih (fun mark hmem => hword mark (List.mem_cons_of_mem _ hmem))
      ⟨content ++ more, (List.map_append ..).symm, hpending.trans (List.prefix_append ..).isInfix⟩
  | flush _ _ h =>
    obtain ⟨content, rfl, hpending⟩ := hqueue
    obtain ⟨rest, rfl, -⟩ := Flushed.exists_ofInks h
    exact hpending.trans (List.prefix_append ..).isInfix

end

/-! ## Texts -/

section
variable {style : Style} {solid : List Char}

/-- An ink takes no more back than blanks. Counterpart of `Ink.put`. -/
theorem put_append (hsolid : ∀ c ∈ solid.head?, (c == ' ' || c == '\t') = false)
    (output : List Char) (ink : Ink) :
    ink.put style (output ++ solid) = ink.put style output ++ solid := by
  cases ink with
  | char | literal => simp [Ink.put]
  | newline level =>
    have hstop : solid.dropWhile (fun c => c == ' ' || c == '\t') = solid := by
      cases solid with
      | nil => rfl
      | cons c rest => exact List.dropWhile_cons_of_neg (by simpa using hsolid c rfl)
    have hdrop : (output ++ solid).dropWhile (fun c => c == ' ' || c == '\t') =
        output.dropWhile (fun c => c == ' ' || c == '\t') ++ solid := by
      rw [List.dropWhile_append]
      split
      · rename_i hempty
        rw [List.isEmpty_iff.1 hempty, hstop]
        rfl
      · rfl
    simp [Ink.put, hdrop]

/-- What is printed behind a text that starts with no blank leaves it whole. Counterpart of
`Ink.put`. -/
theorem foldl_put_append (hsolid : ∀ c ∈ solid.head?, (c == ' ' || c == '\t') = false)
    (inks : List Ink) (output : List Char) :
    inks.foldl (Ink.put style) (output ++ solid) = inks.foldl (Ink.put style) output ++ solid := by
  induction inks generalizing output with
  | nil => rfl
  | cons ink rest ih => rw [List.foldl_cons, List.foldl_cons, put_append hsolid, ih]

/-- A text is cut where its inks are cut, unless this is after blanks. Counterpart of `render`. -/
theorem render_append {front back : List Ink}
    (hsolid : ∀ c ∈ (render style front).getLast?, (c == ' ' || c == '\t') = false) :
    render style (front ++ back) = render style front ++ render style back := by
  have hback := @foldl_put_append style (front.foldl (Ink.put style) [])
    (by simpa [render, List.getLast?_reverse] using hsolid) back []
  rw [List.nil_append] at hback
  rw [render, List.foldl_append, hback, List.reverse_append]
  rfl

/-- A character that is no blank stays where it is written. Counterpart of `render`. -/
theorem render_char {front back : List Ink} {isNote : Bool} {c : Char}
    (hc : (c == ' ' || c == '\t') = false) :
    render style (front ++ .char isNote c :: back) =
      render style front ++ c :: render style back := by
  have hfront : render style (front ++ [.char isNote c]) = render style front ++ [c] := by
    simp [render, Ink.put]
  rw [List.append_cons, render_append, hfront, List.append_assoc]
  · rfl
  · rw [hfront, List.getLast?_concat]
    rintro _ ⟨⟩
    exact hc

end

end LuaFormatter.Layout
