import LuaFormatter.Proofs.Grammar.ReadStatement
import LuaFormatter.Proofs.Token.Reread

/-!
# Spacing out tokens

A scanner that takes as much as it can may read two tokens as one when they are put next to each
other, or take a dot from a number. With blanks between them this does not happen: a lexeme that is
a token by itself is the same token with a blank after it, since every rule of the scanner stops at
a blank at the latest where it would have stopped at the end of the source (`reads_nextToken`). So
lexemes may be spaced out in any way, and scanning undoes it (`tokenise_spacedOut`).

Comments have no part in this, as a line comment takes in the blanks after it, and neither have the
tokens that are faults: a string without its closing quote goes on to the end of its line.
-/

namespace LuaFormatter

namespace Scan

/-- The text by itself is one token of the kind, which takes up all of it, and it is no comment, no
shebang and no fault of the scan. -/
structure IsLexeme (kind : Kind) (text : List Char) : Prop where
  alone : tokenise text = [⟨kind, 0, text⟩]
  closed : kind ∉ [.comment, .blockComment, .unterminatedComment, .shebang, .unknown,
    .unterminatedString, .unterminatedLongString]

/-- A lexeme of a text together with the gap before it. -/
structure SpacedLexeme where
  gap : List Char
  kind : Kind
  text : List Char

/-- The characters that a gap is made of. -/
def gapChars : List Char :=
  [' ', '\t', '\r', '\n', '\x0b', '\x0c']

/-- The text of lexemes in order, each after its gap, and a gap after the last one. -/
def spacedOut (lexemes : List SpacedLexeme) (lastGap : List Char) : List Char :=
  lexemes.flatMap (fun lexeme => lexeme.gap ++ lexeme.text) ++ lastGap

/-- A first lexeme after its gap, and the others. Counterpart of `spacedOut`. -/
theorem spacedOut_cons (lexeme : SpacedLexeme) (lexemes : List SpacedLexeme) (lastGap : List Char) :
    spacedOut (lexeme :: lexemes) lastGap =
      lexeme.gap ++ lexeme.text ++ spacedOut lexemes lastGap := by
  rw [spacedOut, List.flatMap_cons, List.append_assoc _ _ lastGap, ← spacedOut]

/-- The characters of gaps are skipped. Counterpart of `gapChars`. -/
theorem isSkipped_of_mem_gapChars {c : Char} (h : c ∈ gapChars) : isSkipped c = true := by
  simp only [gapChars, List.mem_cons, List.not_mem_nil, or_false] at h
  rcases h with rfl | rfl | rfl | rfl | rfl | rfl <;> rfl

variable {kind : Kind} {text lastGap : List Char} {lexemes : List SpacedLexeme}

/-- A lexeme by itself is its token. Counterpart of `IsLexeme`. -/
theorem IsLexeme.mem_tokensFrom (h : IsLexeme kind text) : ⟨kind, 0, text⟩ ∈ tokensFrom 0 text := by
  have halone := h.alone
  rw [tokenise] at halone
  rw [halone]
  exact List.mem_singleton_self _

/-- A lexeme is a token of a program. Counterpart of `IsLexeme`. -/
theorem IsLexeme.isWord (h : IsLexeme kind text) : kind.isWord = true := by
  have hend := kind_ne_endOfFile_of_mem h.mem_tokensFrom
  have hclosed := h.closed
  cases kind with
  | endOfFile => exact absurd rfl hend
  | comment | blockComment | unterminatedComment | shebang | unknown | unterminatedString
  | unterminatedLongString => exact absurd (by simp) hclosed
  | symbol _ | keyword _ | identifier | number | string | longString => rfl

/-- A lexeme is read as the same token before any text that does not go on with it. Counterpart of
`IsLexeme`. -/
theorem IsLexeme.reads (h : IsLexeme kind text) : Reads kind text :=
  reads_of_mem h.mem_tokensFrom h.isWord

/-- After a lexeme comes a blank or nothing, as only the first gap of the text may be empty.
Counterpart of `spacedOut`. -/
theorem isSkipped_head_spacedOut (hgaps : ∀ lexeme ∈ lexemes, lexeme.gap ≠ [])
    (hblank : ∀ lexeme ∈ lexemes, ∀ c ∈ lexeme.gap, c ∈ gapChars)
    (hlast : ∀ c ∈ lastGap, c ∈ gapChars) :
    ∀ c ∈ (spacedOut lexemes lastGap).head?, isSkipped c = true := by
  intro c hc
  cases lexemes with
  | nil => exact isSkipped_of_mem_gapChars (hlast c (List.mem_of_head? hc))
  | cons lexeme lexemes =>
    obtain ⟨first, gap, hgap⟩ := List.exists_cons_of_ne_nil (hgaps lexeme List.mem_cons_self)
    rw [spacedOut_cons, hgap] at hc
    cases hc
    refine isSkipped_of_mem_gapChars (hblank lexeme List.mem_cons_self _ ?_)
    rw [hgap]
    exact List.mem_cons_self

/-- Lexemes with gaps between them are the tokens of their text. Counterpart of `Joined`. -/
theorem joined_spacedOut (hlexemes : ∀ lexeme ∈ lexemes, IsLexeme lexeme.kind lexeme.text)
    (hblank : ∀ lexeme ∈ lexemes, ∀ c ∈ lexeme.gap, c ∈ gapChars)
    (hlast : ∀ c ∈ lastGap, c ∈ gapChars) (hgaps : ∀ lexeme ∈ lexemes.tail, lexeme.gap ≠ []) :
    Joined (lexemes.map fun lexeme => (lexeme.kind, lexeme.text)) (spacedOut lexemes lastGap) := by
  induction lexemes with
  | nil =>
    rw [spacedOut, List.flatMap_nil, List.nil_append]
    exact .blank fun c hc => isSkipped_of_mem_gapChars (hlast c hc)
  | cons lexeme lexemes ih =>
    have hlexeme := hlexemes lexeme List.mem_cons_self
    have hrest : ∀ other ∈ lexemes, ∀ c ∈ other.gap, c ∈ gapChars :=
      fun other hother => hblank other (List.mem_cons_of_mem _ hother)
    have hends : lexeme.kind.EndsBefore (spacedOut lexemes lastGap) := fun c hc =>
      endsBefore_of_isSkipped hlexeme.isWord (isSkipped_head_spacedOut hgaps hrest hlast c hc)
    rw [spacedOut_cons, List.map_cons]
    refine .token (fun c hc => ?_) hlexeme.reads hends (ih ?_ hrest ?_)
    · exact isSkipped_of_mem_gapChars (hblank lexeme List.mem_cons_self c hc)
    · exact fun other hother => hlexemes other (List.mem_cons_of_mem _ hother)
    · exact fun other hother => hgaps other (List.mem_of_mem_tail hother)

/-- Scanning undoes the spacing out of tokens. Lexemes that are tokens by themselves are read as
these tokens, in order, when there is a gap of blanks between every two neighbours; the gaps before
the first of them and after the last may be empty. Counterpart of `tokenise`. -/
theorem tokenise_spacedOut (hlexemes : ∀ lexeme ∈ lexemes, IsLexeme lexeme.kind lexeme.text)
    (hblank : ∀ lexeme ∈ lexemes, ∀ c ∈ lexeme.gap, c ∈ gapChars)
    (hlast : ∀ c ∈ lastGap, c ∈ gapChars) (hgaps : ∀ lexeme ∈ lexemes.tail, lexeme.gap ≠ []) :
    (tokenise (spacedOut lexemes lastGap)).map (fun token => (token.kind, token.lexeme)) =
      lexemes.map (fun lexeme => (lexeme.kind, lexeme.text)) :=
  (joined_spacedOut hlexemes hblank hlast hgaps).map_content 0

/-- A number before a concatenation, which would take the dot of the number without the blank
between them, and a minus before a minus, which would start a comment. -/
theorem tokenise_spacedOut_apart :
    let lexemes : List SpacedLexeme :=
      [⟨[], .number, "1.".toList⟩, ⟨"\t".toList, .symbol .dotDot, "..".toList⟩,
        ⟨" \x0c\r\n".toList, .symbol .minus, "-".toList⟩,
        ⟨"\x0b".toList, .symbol .minus, "-".toList⟩, ⟨"  ".toList, .longString, "[=[ ] ]=]".toList⟩]
    ((∀ lexeme ∈ lexemes, IsLexeme lexeme.kind lexeme.text) ∧
        (∀ lexeme ∈ lexemes, ∀ c ∈ lexeme.gap, c ∈ gapChars) ∧ (∀ c ∈ ['\n'], c ∈ gapChars) ∧
        ∀ lexeme ∈ lexemes.tail, lexeme.gap ≠ []) ∧
      (tokenise (spacedOut lexemes ['\n'])).map (fun token => (token.kind, token.lexeme)) =
        lexemes.map fun lexeme => (lexeme.kind, lexeme.text) := by
  intro lexemes
  have hlexemes : ∀ lexeme ∈ lexemes, IsLexeme lexeme.kind lexeme.text := by
    intro lexeme hmem
    have halone : ∀ lexeme ∈ lexemes, tokenise lexeme.text = [⟨lexeme.kind, 0, lexeme.text⟩] := by
      decide +kernel
    have hclosed : ∀ lexeme ∈ lexemes, lexeme.kind ∉ [.comment, .blockComment, .unterminatedComment,
        .shebang, .unknown, .unterminatedString, .unterminatedLongString] := by decide +kernel
    exact ⟨halone lexeme hmem, hclosed lexeme hmem⟩
  have hblank : ∀ lexeme ∈ lexemes, ∀ c ∈ lexeme.gap, c ∈ gapChars := by
    intro lexeme hmem c hc
    have hall : ∀ lexeme ∈ lexemes, lexeme.gap.all (gapChars.contains ·) = true := by decide +kernel
    exact List.contains_iff_mem.1 (List.all_eq_true.1 (hall lexeme hmem) c hc)
  have hlast : ∀ c ∈ ['\n'], c ∈ gapChars := List.forall_mem_singleton.2 (by decide)
  have hgaps : ∀ lexeme ∈ lexemes.tail, lexeme.gap ≠ [] := by decide +kernel
  exact ⟨⟨hlexemes, hblank, hlast, hgaps⟩, tokenise_spacedOut hlexemes hblank hlast hgaps⟩

end Scan

end LuaFormatter
