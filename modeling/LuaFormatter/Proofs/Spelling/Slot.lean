import LuaFormatter.Proofs.Layout.Words
import LuaFormatter.Token.Kind

/-!
# Slots

What a document spells, without its layout: a list of slots, each a token, a blank, a place where
the layout may put a blank or a comma, or a comment that is put off. `Resolves` fills the slots in,
and gives the pieces that are written; `Implements` says that every word of a document, in every
mode, writes such pieces.

The rules for `Implements` follow the constructors of documents, so that the slots of a document are
read off it part by part. Groups, indentation and the forms of a choice do not show in slots.
-/

namespace LuaFormatter

open Layout

/-- The texts of these tokens may hold line breaks, which are written as they are. -/
def Kind.isVerbatim : Kind → Bool
  | string | longString | blockComment => true
  | _ => false

/-- These tokens take the rest of their line. -/
def Kind.isNote : Kind → Bool
  | comment | shebang => true
  | _ => false

/-- The letters that the text of a token is written with. -/
def Kind.marks (kind : Kind) (text : List Char) : List Mark :=
  text.map fun c =>
    if kind.isVerbatim ∧ c = '\n' then .ink .literal else .ink (.char kind.isNote c)

/-- A piece of what is written. -/
inductive Piece where
  | token (kind : Kind) (text : List Char)
  | space
  | newline (level : Nat)
  /-- A comment that is put off, after line breaks or, if there are none, after a space. -/
  | later (levels : List Nat) (kind : Kind) (text : List Char)
deriving DecidableEq

namespace Piece

/-- The letters that a piece is written with. -/
def marks : Piece → List Mark
  | token kind text => kind.marks text
  | space => [.ink (.char false ' ')]
  | newline level => [.ink (.newline level)]
  | later levels kind text =>
    [.later ((if levels.isEmpty then [.ink (.char false ' ')]
      else levels.map fun level => .ink (.newline level)) ++ kind.marks text)]

end Piece

/-- A place in what is written, which leaves the choice between blanks to the layout. -/
inductive Slot where
  | token (kind : Kind) (text : List Char)
  | space
  /-- A space or a line break. -/
  | gap
  /-- A line break or nothing. -/
  | soft
  /-- A space, a line break or nothing. -/
  | pad
  /-- A line break. -/
  | hard
  /-- A comma or nothing. -/
  | comma
  /-- A comment that is put off, after a number of line breaks or, if that is zero, a space. -/
  | later (breaks : Nat) (kind : Kind) (text : List Char)
deriving DecidableEq

namespace Slot

/-- A token whose text follows from its kind. -/
def fixed (kind : Kind) : Slot :=
  token kind kind.describe.toList

/-- A symbol. -/
def symbol (mark : Symbol) : Slot :=
  fixed (.symbol mark)

/-- A keyword. -/
def keyword (word : Keyword) : Slot :=
  fixed (.keyword word)

/-- Items fill a slot in. -/
def Resolves : Slot → List Piece → Prop
  | token kind text, pieces => pieces = [.token kind text]
  | space, pieces => pieces = [.space]
  | gap, pieces => pieces = [.space] ∨ ∃ level, pieces = [.newline level]
  | soft, pieces => pieces = [] ∨ ∃ level, pieces = [.newline level]
  | pad, pieces => pieces = [] ∨ pieces = [.space] ∨ ∃ level, pieces = [.newline level]
  | hard, pieces => ∃ level, pieces = [.newline level]
  | comma, pieces => pieces = [] ∨ pieces = [.token (.symbol .comma) [',']]
  | later breaks kind text, pieces =>
    ∃ levels, levels.length = breaks ∧ pieces = [.later levels kind text]

end Slot

/-- Items fill in slots one after the other. -/
def Resolves : List Slot → List Piece → Prop
  | [], pieces => pieces = []
  | slot :: rest, pieces =>
    ∃ front back, pieces = front ++ back ∧ slot.Resolves front ∧ Resolves rest back

/-- Items fill in two lists of slots if some fill in the first and the others the second.
Counterpart of `Resolves`. -/
theorem resolves_append {front back : List Slot} {pieces : List Piece} :
    Resolves (front ++ back) pieces ↔
      ∃ first second, pieces = first ++ second ∧ Resolves front first ∧ Resolves back second := by
  induction front generalizing pieces with
  | nil =>
    constructor
    · exact fun h => ⟨[], pieces, rfl, rfl, h⟩
    · rintro ⟨_, second, rfl, rfl, h⟩
      exact h
  | cons slot front ih =>
    simp only [List.cons_append, Resolves, ih]
    constructor
    · rintro ⟨a, _, rfl, ha, b, c, rfl, hb, hc⟩
      exact ⟨a ++ b, c, by simp, ⟨a, b, rfl, ha, hb⟩, hc⟩
    · rintro ⟨_, c, rfl, ⟨a, b, rfl, ha, hb⟩, hc⟩
      exact ⟨a, b ++ c, by simp, ha, b, c, rfl, hb, hc⟩

/-- A word writes pieces that fill the slots in. -/
def Realises (slots : List Slot) (word : List Mark) : Prop :=
  ∃ pieces, Resolves slots pieces ∧ word = pieces.flatMap Piece.marks

/-- Words one after the other fill in slots one after the other. Counterpart of `Realises`. -/
theorem Realises.append {front back : List Slot} {first second : List Mark}
    (hfirst : Realises front first) (hsecond : Realises back second) :
    Realises (front ++ back) (first ++ second) := by
  obtain ⟨pieces, hpieces, rfl⟩ := hfirst
  obtain ⟨others, hothers, rfl⟩ := hsecond
  exact ⟨pieces ++ others, resolves_append.2 ⟨pieces, others, rfl, hpieces, hothers⟩, by simp⟩

/-- Every word of a document in a mode fills the slots in. -/
def ImplementsIn (mode : Mode) (doc : Doc) (slots : List Slot) : Prop :=
  ∀ level word, doc.spells level mode word → Realises slots word

/-- Every word of a document fills the slots in. -/
def Implements (doc : Doc) (slots : List Slot) : Prop :=
  ∀ mode, ImplementsIn mode doc slots

/-- Every word of the documents, one after the other in a mode, fills the slots in. -/
def ImplementAllIn (mode : Mode) (docs : List Doc) (slots : List Slot) : Prop :=
  ∀ level word, Doc.allSpell level mode docs word → Realises slots word

/-- Every word of the documents, one after the other, fills the slots in. -/
def ImplementAll (docs : List Doc) (slots : List Slot) : Prop :=
  ∀ mode, ImplementAllIn mode docs slots

section
variable {mode : Mode} {doc other : Doc} {docs others : List Doc} {slots back : List Slot}

/-- The empty list of documents fills in the empty list of slots. Counterpart of
`ImplementAllIn`. -/
theorem ImplementAllIn.nil : ImplementAllIn mode [] [] := by
  rintro level word rfl
  exact ⟨[], rfl, rfl⟩

/-- A first document fills in the first slots. Counterpart of `ImplementAllIn`. -/
theorem ImplementAllIn.cons (h : ImplementsIn mode doc slots)
    (hrest : ImplementAllIn mode docs back) :
    ImplementAllIn mode (doc :: docs) (slots ++ back) := by
  rintro level _ ⟨front, rest, rfl, hfront, hback⟩
  exact (h level front hfront).append (hrest level rest hback)

/-- One document fills in all slots. Counterpart of `ImplementAllIn`. -/
theorem ImplementAllIn.one (h : ImplementsIn mode doc slots) : ImplementAllIn mode [doc] slots := by
  rw [← List.append_nil slots]
  exact .cons h .nil

/-- A first document fills in one slot. Counterpart of `ImplementAllIn`. -/
theorem ImplementAllIn.slot {slot : Slot} (h : ImplementsIn mode doc [slot])
    (hrest : ImplementAllIn mode docs back) : ImplementAllIn mode (doc :: docs) (slot :: back) :=
  .cons h hrest

/-- A first document fills in one slot and the slots after it. Counterpart of `ImplementAllIn`. -/
theorem ImplementAllIn.lead {slot : Slot} (h : ImplementsIn mode doc (slot :: slots))
    (hrest : ImplementAllIn mode docs back) :
    ImplementAllIn mode (doc :: docs) (slot :: (slots ++ back)) :=
  .cons h hrest

/-- The empty list of documents fills in the empty list of slots, in any mode. Counterpart of
`ImplementAll`. -/
theorem ImplementAll.nil : ImplementAll [] [] :=
  fun _ => ImplementAllIn.nil

/-- A first document fills in the first slots, in any mode. Counterpart of `ImplementAll`. -/
theorem ImplementAll.cons (h : Implements doc slots) (hrest : ImplementAll docs back) :
    ImplementAll (doc :: docs) (slots ++ back) :=
  fun mode => ImplementAllIn.cons (h mode) (hrest mode)

/-- One document fills in all slots, in any mode. Counterpart of `ImplementAll`. -/
theorem ImplementAll.one (h : Implements doc slots) : ImplementAll [doc] slots :=
  fun mode => ImplementAllIn.one (h mode)

/-- A first document fills in one slot, in any mode. Counterpart of `ImplementAll`. -/
theorem ImplementAll.slot {slot : Slot} (h : Implements doc [slot])
    (hrest : ImplementAll docs back) : ImplementAll (doc :: docs) (slot :: back) :=
  .cons h hrest

/-- A document whose slots start with a given one. Counterpart of `ImplementAll`. -/
theorem ImplementAll.lead {slot : Slot} (h : Implements doc (slot :: slots))
    (hrest : ImplementAll docs back) : ImplementAll (doc :: docs) (slot :: (slots ++ back)) :=
  .cons h hrest

/-- A document that writes nothing has no slots. Counterpart of `ImplementAll`. -/
theorem ImplementAll.none (h : Implements doc []) (hrest : ImplementAll docs slots) :
    ImplementAll (doc :: docs) slots :=
  .cons h hrest

/-- Documents one after the other fill in slots one after the other, in any mode. Counterpart of
`ImplementAll`. -/
theorem ImplementAll.append (h : ImplementAll docs slots) (hback : ImplementAll others back) :
    ImplementAll (docs ++ others) (slots ++ back) := by
  intro mode level word hword
  suffices ∃ front rest, word = front ++ rest ∧ Doc.allSpell level mode docs front ∧
      Doc.allSpell level mode others rest by
    obtain ⟨front, rest, rfl, hfront, hrest⟩ := this
    exact (h mode level front hfront).append (hback mode level rest hrest)
  clear h
  induction docs generalizing word with
  | nil => exact ⟨[], word, rfl, rfl, hword⟩
  | cons doc docs ih =>
    obtain ⟨a, rest, rfl, ha, hrest⟩ := hword
    obtain ⟨b, c, rfl, hb, hc⟩ := ih rest hrest
    exact ⟨a ++ b, c, by simp, ⟨a, b, rfl, ha, hb⟩, hc⟩

/-- A concatenation fills in what its parts do. Counterpart of `Doc.concat`. -/
theorem ImplementsIn.concat (h : ImplementAllIn mode docs slots) :
    ImplementsIn mode (.concat docs) slots :=
  h

/-- A concatenation fills in what its parts do, in any mode. Counterpart of `Doc.concat`. -/
theorem Implements.concat (h : ImplementAll docs slots) : Implements (.concat docs) slots :=
  h

/-- Parts one after the other fill in their slots. Counterpart of `Doc.cat`. -/
theorem ImplementsIn.cat (h : ImplementAllIn mode docs slots) :
    ImplementsIn mode (Doc.cat docs) slots := by
  match docs, h with
  | [], h => exact fun level word hword => h level word hword
  | [doc], h => exact fun level word hword => h level word ⟨word, [], by simp, hword, rfl⟩
  | _ :: _ :: _, h => exact h

/-- Parts one after the other fill in their slots, in any mode. Counterpart of `Doc.cat`. -/
theorem Implements.cat (h : ImplementAll docs slots) : Implements (Doc.cat docs) slots :=
  fun mode => ImplementsIn.cat (h mode)

/-- The empty document fills in the empty list of slots. Counterpart of `Doc.empty`. -/
theorem Implements.empty : Implements .empty [] := by
  rintro mode level word rfl
  exact ⟨[], rfl, rfl⟩

/-- What forces a break writes nothing. Counterpart of `Doc.breakParent`. -/
theorem Implements.breakParent : Implements .breakParent [] := by
  rintro mode level word rfl
  exact ⟨[], rfl, rfl⟩

/-- A slot that is filled in by one piece in every word. Counterpart of `Implements`. -/
theorem Implements.single {slot : Slot}
    (h : ∀ level mode word, doc.spells level mode word →
      ∃ pieces, slot.Resolves pieces ∧ word = pieces.flatMap Piece.marks) :
    Implements doc [slot] := by
  intro mode level word hword
  obtain ⟨pieces, hpieces, rfl⟩ := h level mode word hword
  exact ⟨pieces, ⟨pieces, [], by simp, hpieces, rfl⟩, rfl⟩

/-- A hard line fills in a line break. Counterpart of `Slot.hard`. -/
theorem Implements.hardLine : Implements .hardLine [.hard] :=
  .single fun level _ _ hword => ⟨[.newline level], ⟨level, rfl⟩, hword⟩

/-- A line that may be broken fills in a gap. Counterpart of `Slot.gap`. -/
theorem Implements.line : Implements .line [.gap] := by
  refine .single fun level mode word hword => ?_
  cases mode with
  | flat => exact ⟨[.space], .inl rfl, hword⟩
  | broken => exact ⟨[.newline level], .inr ⟨level, rfl⟩, hword⟩

/-- A line that may be broken and else is nothing fills in a soft gap. Counterpart of
`Slot.soft`. -/
theorem Implements.softLine : Implements .softLine [.soft] := by
  refine .single fun level mode word hword => ?_
  cases mode with
  | flat => exact ⟨[], .inl rfl, hword⟩
  | broken => exact ⟨[.newline level], .inr ⟨level, rfl⟩, hword⟩

/-- A line in a broken group is a line break. Counterpart of `Doc.line` in broken mode. -/
theorem ImplementsIn.brokenLine : ImplementsIn .broken .line [.hard] :=
  fun level _ hword => ⟨[.newline level], ⟨_, [], rfl, ⟨level, rfl⟩, rfl⟩, hword⟩

/-- A soft line in a broken group is a line break. Counterpart of `Doc.softLine` in broken mode. -/
theorem ImplementsIn.brokenSoftLine : ImplementsIn .broken .softLine [.hard] :=
  fun level _ hword => ⟨[.newline level], ⟨_, [], rfl, ⟨level, rfl⟩, rfl⟩, hword⟩

/-- An indentation fills in what its contents do. Counterpart of `Doc.indent`. -/
theorem ImplementsIn.indent (h : ImplementsIn mode doc slots) :
    ImplementsIn mode (.indent doc) slots :=
  fun level word hword => h (deeper level) word hword

/-- An indentation of parts fills in what these do. Counterpart of `Doc.indented`. -/
theorem ImplementsIn.indented (h : ImplementAllIn mode docs slots) :
    ImplementsIn mode (Doc.indented docs) slots :=
  ImplementsIn.indent (ImplementsIn.cat h)

/-- An indentation of parts fills in what these do, in any mode. Counterpart of `Doc.indented`. -/
theorem Implements.indented (h : ImplementAll docs slots) : Implements (Doc.indented docs) slots :=
  fun mode => ImplementsIn.indented (h mode)

/-- A group fills in what its contents do in any mode. Counterpart of `Doc.group`. -/
theorem Implements.group {breaks : Bool} (h : Implements doc slots) :
    Implements (.group breaks doc) slots := by
  rintro mode level word (hword | ⟨-, hword⟩)
  · exact h .broken level word hword
  · exact h .flat level word hword

/-- A group that must break is only written in broken mode. Counterpart of `Doc.group`. -/
theorem Implements.brokenGroup (h : ImplementsIn .broken doc slots) :
    Implements (.group true doc) slots := by
  rintro mode level word (hword | ⟨hflat, -⟩)
  · exact h level word hword
  · cases hflat

/-- A group of parts fills in what these do, whether it is broken or not. Counterpart of
`Doc.groupedIf`. -/
theorem Implements.groupedIf {breaks : Bool} (h : ImplementAll docs slots) :
    Implements (Doc.groupedIf breaks docs) slots :=
  .group (.cat h)

/-- A group of parts fills in what these do. Counterpart of `Doc.grouped`. -/
theorem Implements.grouped (h : ImplementAll docs slots) : Implements (Doc.grouped docs) slots :=
  .groupedIf h

/-- A choice fills in what all of its forms do. Counterpart of `Doc.alternatives`. -/
theorem Implements.alternatives {breaks : Bool} {options : List Doc} (hne : options ≠ [])
    (h : ∀ option ∈ options, Implements option slots) :
    Implements (.alternatives breaks options) slots := by
  rintro mode level word (⟨hnil, -⟩ | hword)
  · exact absurd hnil hne
  · obtain ⟨option, hmem, chosen, hoption⟩ := Doc.exists_of_anySpells hword
    exact h option hmem chosen level word hoption

/-- A choice by the mode fills in what both of its forms do. Counterpart of `Doc.ifBreak`. -/
theorem Implements.ifBreak (h : Implements doc slots) (hother : Implements other slots) :
    Implements (.ifBreak doc other) slots := by
  rintro mode level word (⟨-, hword⟩ | ⟨-, hword⟩)
  · exact h mode level word hword
  · exact hother mode level word hword

/-- Slots may be exchanged for others that allow the same pieces. Counterpart of `Implements`. -/
theorem Implements.weaken {more : List Slot} (h : Implements doc slots)
    (hmore : ∀ pieces, Resolves slots pieces → Resolves more pieces) : Implements doc more := by
  intro mode level word hword
  obtain ⟨pieces, hpieces, rfl⟩ := h mode level word hword
  exact ⟨pieces, hmore pieces hpieces, rfl⟩

end

end LuaFormatter
