import LuaFormatter.Proofs.Layout.Words

/-!
# Nothing after a note

A note takes the rest of its line, so what is written after it on the same line would be lost.
`Calm` says of a word that nothing but notes, and the blanks between them, follows a note up to the
next line break. `Flushed.calm` carries it over to the trace: parts that are put off come to stand
after a note of the line, so each of them must be calm whatever it follows.
-/

namespace LuaFormatter.Layout

/-- The ink may follow a note on its line. -/
def Ink.MayFollowNote : Ink → Prop
  | char isNote c => isNote = true ∨ c = ' '
  | newline _ | literal => True

/-- After a note, only notes and blanks follow up to the next line break; `after` says that there
was a note on the line already. -/
inductive Calm : Bool → List Mark → Prop
  | nil {after : Bool} : Calm after []
  | char {after isNote : Bool} {c : Char} {word : List Mark} :
    (after = true → (Ink.char isNote c).MayFollowNote) → Calm (after || isNote) word →
      Calm after (.ink (.char isNote c) :: word)
  | break_ {after : Bool} {ink : Ink} {word : List Mark} :
    ink.isBreak = true → Calm false word → Calm after (.ink ink :: word)
  | later {after : Bool} {marks word : List Mark} :
    (∀ before, Calm before marks) → Calm after word → Calm after (.later marks :: word)

namespace Calm

variable {after : Bool} {front back marks queue word : List Mark} {inks : List Ink} {ink : Ink}

/-- Words that are calm after anything can be put one after the other. Counterpart of `Calm`. -/
theorem append (hfront : Calm after front) (hback : ∀ after, Calm after back) :
    Calm after (front ++ back) := by
  induction hfront with
  | nil => exact hback _
  | char hc _ ih => exact .char hc ih
  | break_ hbreak _ ih => exact .break_ hbreak ih
  | later hmarks _ _ ih => exact .later hmarks ih

/-- After a line break there is no note on the line. Counterpart of `Calm`. -/
theorem of_break (hbreak : ink.isBreak = true) (h : Calm after (.ink ink :: word)) :
    Calm false word := by
  cases h with
  | char => cases hbreak
  | break_ _ hword => exact hword

/-- A note is calm if what follows it is calm after a note. Counterpart of `Ink.ofText` for a
note. -/
theorem note (content : List Char) (h : ∀ after, Calm after word) :
    Calm after (Mark.ofInks (Ink.ofText true content) ++ word) := by
  induction content generalizing after with
  | nil => exact h after
  | cons c rest ih => exact .char (fun _ => .inl rfl) ih

end Calm

/-- Putting parts off to the end of their line keeps a word calm. Counterpart of `Flushed`. -/
theorem Flushed.calm {queue word : List Mark} {inks : List Ink} (h : Flushed queue word inks)
    {after : Bool} (hqueue : ∀ after, Calm after queue) (hword : Calm after word) :
    Calm after (Mark.ofInks inks) := by
  induction h generalizing after with
  | done => exact .nil
  | last _ _ ih => exact ih (fun _ => .nil) (hqueue after)
  | char isNote c _ ih =>
    cases hword with
    | char hc hword => exact .char hc (ih hqueue hword)
    | break_ hbreak => cases hbreak
  | later _ ih =>
    cases hword with
    | later hmarks hword => exact ih (fun before => (hqueue before).append hmarks) hword
  | break_ hbreak _ ih => exact .break_ hbreak (ih (fun _ => .nil) (hword.of_break hbreak))
  | flush hbreak _ _ ih =>
    -- The parts that were put off are written before the break, after whatever is on the line.
    exact ih (fun _ => .nil)
      ((hqueue after).append fun _ => .break_ hbreak (hword.of_break hbreak))

/-- On a line with a note, only notes and blanks follow it. Counterpart of `Ink.MayFollowNote`. -/
theorem Calm.mayFollowNote {after : Bool} {front middle back : List Ink} {c : Char} {ink : Ink}
    (h : Calm after (Mark.ofInks (front ++ .char true c :: (middle ++ ink :: back))))
    (hmiddle : ∀ other ∈ middle, other.isBreak = false) : ink.MayFollowNote := by
  -- The line holds a note from here on.
  have hline : ∀ {middle : List Ink}, Calm true (Mark.ofInks (middle ++ ink :: back)) →
      (∀ other ∈ middle, other.isBreak = false) → ink.MayFollowNote := by
    intro middle h hmiddle
    induction middle with
    | nil =>
      cases h with
      | char hc _ => exact hc rfl
      | break_ hbreak _ => cases ink <;> trivial
    | cons first rest ih =>
      cases h with
      | char _ hrest =>
        rw [Bool.true_or] at hrest
        exact ih hrest fun other hother => hmiddle other (List.mem_cons_of_mem _ hother)
      | break_ hbreak _ => exact absurd hbreak (by simp [hmiddle first (by simp)])
  induction front generalizing after with
  | nil =>
    cases h with
    | char _ hrest =>
      rw [Bool.or_true] at hrest
      exact hline hrest hmiddle
    | break_ hbreak _ => cases hbreak
  | cons first rest ih =>
    cases h with
    | char _ hrest => exact ih hrest
    | break_ _ hrest => exact ih hrest

end LuaFormatter.Layout
