import LuaFormatter.Proofs.Layout.Words

/-!
# Texts without layout

`squeeze` takes from a text all that a layout may change: the blanks and line breaks, and the comma
before a closing brace. The blanks of an output are easy, since only the characters of its inks are
not blank (`letters_render`). For the commas, `Trimmed` relates a text to the same text without some
commas before braces; both are squeezed to the same (`Trimmed.dropLastCommas_eq`), as long as no
other comma stands before one that is left out.
-/

namespace LuaFormatter

/-- The characters that a layout puts between tokens. -/
def isLayout (c : Char) : Bool :=
  c == ' ' || c == '\t' || c == '\r' || c == '\n'

/-- A text without blanks and line breaks. -/
def letters (text : List Char) : List Char :=
  text.filter (!isLayout ·)

/-- A text without the commas that stand directly before a closing brace. -/
def dropLastCommas : List Char → List Char
  | [] => []
  | c :: rest =>
    if c = ',' ∧ rest.head? = some '\x7d' then dropLastCommas rest else c :: dropLastCommas rest

/-- A text without blanks and line breaks, and then without the commas before closing braces. -/
def squeeze (text : List Char) : List Char :=
  dropLastCommas (letters text)

@[simp] theorem letters_nil : letters [] = [] :=
  rfl

@[simp] theorem letters_append (front back : List Char) :
    letters (front ++ back) = letters front ++ letters back :=
  List.filter_append ..

/-- The letters of a first character, and those of the rest. Counterpart of `letters`. -/
theorem letters_cons (c : Char) (rest : List Char) :
    letters (c :: rest) = letters [c] ++ letters rest :=
  letters_append [c] rest

/-! ## Inks -/

namespace Layout

/-- The characters that an ink leaves of those that are looked at. -/
def Ink.kept (p : Char → Bool) : Ink → List Char
  | char _ c => [c].filter p
  | newline _ | literal => ['\n'].filter p

/-- The characters of an ink that are not blank. -/
def Ink.letters : Ink → List Char
  | char _ c => LuaFormatter.letters [c]
  | newline _ | literal => []

section
variable {p : Char → Bool} (hspace : p ' ' = false) (htab : p '\t' = false)
  (hreturn : p '\r' = false)
include hspace htab

/-- An indentation leaves no characters that are looked at. Counterpart of `Style.indentation`. -/
theorem filter_indentation (style : Style) (level : Nat) :
    (style.indentation level).filter p = [] := by
  unfold Style.indentation
  split
  · simp [htab]
  · simp [hspace]

/-- Taking blanks from the end of a line leaves the other characters. Counterpart of `Ink.put` at a
line break. -/
theorem filter_dropWhile (output : List Char) :
    (output.dropWhile fun c => c == ' ' || c == '\t').filter p = output.filter p := by
  induction output with
  | nil => rfl
  | cons c rest ih =>
    rw [List.dropWhile_cons]
    split
    · rename_i hblank
      have hc : p c = false := by
        simp only [Bool.or_eq_true, beq_iff_eq] at hblank
        rcases hblank with rfl | rfl
        · exact hspace
        · exact htab
      rw [ih, List.filter_cons_of_neg (by simp [hc])]
    · rfl

include hreturn

/-- An ink leaves its characters that are looked at, also where it trims the line. Counterpart of
`Ink.put`. -/
theorem filter_put (style : Style) (output : List Char) (ink : Ink) :
    (ink.put style output).reverse.filter p = output.reverse.filter p ++ ink.kept p := by
  have hending : style.lineEnding.text.filter p = ['\n'].filter p := by
    cases style.lineEnding with
    | lineFeed | native => rfl
    | carriageReturnLineFeed => exact List.filter_cons_of_neg (by simp [hreturn])
  cases ink with
  | char isNote c => rw [Ink.put, List.reverse_cons, List.filter_append]; rfl
  | newline level =>
    simp only [Ink.put, Ink.kept, List.reverse_append, List.reverse_reverse, List.filter_append,
      List.filter_reverse, filter_indentation hspace htab, filter_dropWhile hspace htab, hending,
      List.reverse_nil, List.append_nil]
  | literal =>
    simp only [Ink.put, Ink.kept, List.reverse_append, List.reverse_reverse,
      List.filter_append, hending]

/-- A text without blanks is made of what its inks leave. Counterpart of `render`. -/
theorem filter_render (style : Style) (inks : List Ink) :
    (render style inks).filter p = inks.flatMap (Ink.kept p) := by
  have h : ∀ output : List Char, (inks.foldl (Ink.put style) output).reverse.filter p =
      output.reverse.filter p ++ inks.flatMap (Ink.kept p) := by
    induction inks with
    | nil => simp
    | cons ink rest ih =>
      intro output
      rw [List.foldl_cons, ih, filter_put hspace htab hreturn, List.flatMap_cons, List.append_assoc]
  exact h []

end

/-- A text without blanks and line breaks is made of the characters of its inks. Counterpart of
`render`. -/
theorem letters_render (style : Style) (inks : List Ink) :
    letters (render style inks) = inks.flatMap Ink.letters := by
  have hink : Ink.kept (!isLayout ·) = Ink.letters := by
    funext ink
    cases ink <;> rfl
  rw [← hink]
  exact filter_render rfl rfl rfl style inks

/-- Where nothing is put off, a word is left as it is. Counterpart of `Flushed`. -/
theorem Flushed.eq_of_inks {word inks : List Ink} (h : Flushed [] (Mark.ofInks word) inks) :
    inks = word := by
  induction word generalizing inks with
  | nil =>
    cases h with
    | done => rfl
    | last hne => exact absurd rfl hne
  | cons ink word ih =>
    cases h with
    | char isNote c h => rw [ih h]
    | break_ _ h => rw [ih h]
    | flush _ hne => exact absurd rfl hne

end Layout

/-! ## Commas before braces -/

/-- The second text is the first one without some commas between a character that is no comma and a
closing brace. -/
inductive Trimmed : List Char → List Char → Prop
  | nil : Trimmed [] []
  | char (c : Char) {full bare : List Char} : Trimmed full bare → Trimmed (c :: full) (c :: bare)
  | comma {c : Char} {full bare : List Char} : c ≠ ',' → Trimmed ('\x7d' :: full) ('\x7d' :: bare) →
    Trimmed (c :: ',' :: '\x7d' :: full) (c :: '\x7d' :: bare)

namespace Trimmed

variable {full bare front back : List Char}

/-- A text from which no comma is taken. Counterpart of `Trimmed`. -/
theorem refl (text : List Char) : Trimmed text text := by
  induction text with
  | nil => exact .nil
  | cons c rest ih => exact .char c ih

/-- Texts one after the other, each without some commas. Counterpart of `Trimmed`. -/
theorem append (h : Trimmed full bare) (hback : Trimmed front back) :
    Trimmed (full ++ front) (bare ++ back) := by
  induction h with
  | nil => exact hback
  | char c _ ih => exact .char c ih
  | comma hc _ ih => exact .comma hc ih

/-- A comma may be left out before a brace, if what it follows ends in something else. Counterpart
of `Trimmed`. -/
theorem close (h : Trimmed full bare) {c : Char} (hlast : bare.getLast? = some c) (hc : c ≠ ',') :
    Trimmed (full ++ [',', '\x7d']) (bare ++ ['\x7d']) := by
  induction h with
  | nil => cases hlast
  | @char d full bare hrest ih =>
    cases hrest with
    | nil =>
      cases hlast
      exact .comma hc (.refl _)
    | char e h => exact .char d (ih (by simpa using hlast))
    | comma hne h => exact .char d (ih (by simpa using hlast))
  | comma hne _ ih => exact .comma hne (ih (by simpa using hlast))

/-- A comma that is taken is never the first character. Counterpart of `Trimmed`. -/
theorem head?_eq (h : Trimmed full bare) : full.head? = bare.head? := by
  cases h <;> rfl

/-- Without the commas before braces there is no difference. Counterpart of `dropLastCommas`. -/
theorem dropLastCommas_eq (h : Trimmed full bare) : dropLastCommas full = dropLastCommas bare := by
  induction h with
  | nil => rfl
  | char c h ih => rw [dropLastCommas, dropLastCommas, h.head?_eq, ih]
  | @comma c full bare hc h ih =>
    have hcomma : dropLastCommas (',' :: '\x7d' :: full) = dropLastCommas ('\x7d' :: full) := by
      rw [dropLastCommas, if_pos ⟨rfl, rfl⟩]
    have hother : ∀ rest, dropLastCommas (c :: rest) = c :: dropLastCommas rest := fun rest => by
      rw [dropLastCommas, if_neg (fun h => hc h.1)]
    rw [hother, hother, hcomma, ih]

end Trimmed

end LuaFormatter
