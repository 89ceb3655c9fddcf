import LuaFormatter.Proofs.Grammar.First
import LuaFormatter.Proofs.Spelling.Literal

/-!
# Tokens side by side

Which tokens may stand next to each other without a blank. A bracket, a comma or a semicolon may
follow every token, and a few symbols may stand before everything. For the other symbols it depends
on the first character of what follows: an expression starts with few of the characters that could
go on with a symbol (`Reads.head_expression`).
-/

namespace LuaFormatter

/-! ## First characters -/

namespace Scan

section
variable {kind : Kind} {c : Char} {rest : List Char}

/-- A symbol starts with the first character of its text. Counterpart of `Symbol.text`. -/
theorem Reads.head_symbol {mark : Symbol} (h : Reads (.symbol mark) (c :: rest)) :
    mark.text.toList.head? = some c := by
  rw [← h.lexeme_symbol]
  rfl

/-- A name or a keyword starts with a letter. Counterpart of `isWordStart`. -/
theorem Reads.head_word (h : Reads kind (c :: rest))
    (hkind : kind = .identifier ∨ ∃ word, kind = .keyword word) :
    isWordStart c = true := by
  have hnext := h.nextToken_eq
  unfold nextToken comment longString quoted word at hnext
  grind

/-- A number starts with a digit or a dot. Counterpart of `Kind.number`. -/
theorem Reads.head_number (h : Reads .number (c :: rest)) : c.isDigit = true ∨ c = '.' := by
  have hnext := h.nextToken_eq
  unfold nextToken comment longString quoted word at hnext
  grind

/-- The characters that no expression starts with, and two that only one kind of token starts with.
Counterpart of `Kind.startsExpression`. -/
theorem Reads.head_expression (h : Reads kind (c :: rest)) (hkind : kind.startsExpression = true) :
    c ≠ '=' ∧ c ≠ '!' ∧ c ≠ ':' ∧ (c = '[' → kind = .longString) ∧
      (c = '-' → kind = .symbol .minus) := by
  have hother : ∀ {p : Char → Bool}, ['=', '!', ':', '[', '-'].all (!p ·) = true → p c = true →
      c ≠ '=' ∧ c ≠ '!' ∧ c ≠ ':' ∧ (c = '[' → kind = .longString) ∧
      (c = '-' → kind = .symbol .minus) := by
    intro p hall hc
    have hne : ∀ d ∈ ['=', '!', ':', '[', '-'], c ≠ d := by
      rintro d hd rfl
      simpa [hc] using List.all_eq_true.1 hall c hd
    exact ⟨hne _ (by simp), hne _ (by simp), hne _ (by simp), fun h => absurd h (hne _ (by simp)),
      fun h => absurd h (hne _ (by simp))⟩
  cases kind with
  | identifier => exact hother (by decide) (h.head_word (.inl rfl))
  | keyword word => exact hother (by decide) (h.head_word (.inr ⟨word, rfl⟩))
  | number =>
    rcases h.head_number with hdigit | rfl
    · exact hother (by decide) hdigit
    · decide
  | string =>
    obtain ⟨quote, content, hquote, heq, -⟩ := h.exists_isContent
    obtain ⟨rfl, -⟩ := List.cons.inj heq
    rcases hquote with rfl | rfl <;> decide
  | longString =>
    obtain ⟨level, rest, heq, -⟩ := h.exists_longString
    obtain ⟨rfl, -⟩ := List.cons.inj heq
    decide
  | symbol mark =>
    have hhead := h.head_symbol
    cases mark with
    | leftParen | leftCurly | dotDotDot | minus | hash | tilde =>
      cases hhead
      decide
    | _ => cases hkind
  | _ => cases hkind

end

end Scan

/-! ## What may follow -/

/-- These symbols are never read together with what follows. -/
def Symbol.isAlone : Symbol → Bool
  | leftParen | leftCurly | comma | colonColon => true
  | _ => false

/-- A symbol that stands alone ends before any character. Counterpart of `Symbol.isAlone`. -/
theorem Symbol.endsBefore_of_isAlone {mark : Symbol} (h : mark.isAlone = true) (c : Char) :
    (Kind.symbol mark).endsBefore c = true := by
  have hgoes : mark.goesOn c = false := by
    refine @goesOn_eq_false _ c [] ((followers_eq mark mark.mem_all).trans ?_) List.not_mem_nil
    cases mark with
    | leftParen | leftCurly | comma | colonColon => rfl
    | _ => cases h
  cases mark with
  | leftParen | leftCurly | comma | colonColon => simp [Kind.endsBefore, hgoes]
  | _ => cases h

/-- The token ends before whatever goes on with a value. -/
def Kind.closesBase : Kind → Bool
  | identifier | string | longString | symbol .rightParen | symbol .rightSquare
  | symbol .rightCurly => true
  | _ => false

/-- Whatever goes on with a value may follow a token that closes one. Counterpart of
`Kind.closesBase`. -/
theorem Kind.endsBefore_of_closesBase {kind : Kind} (h : kind.closesBase = true) {c : Char}
    (hc : c ∈ ['.', ':', '[', '(', '\x7b', '"', '\x27']) : kind.endsBefore c = true := by
  cases kind with
  | symbol mark =>
    have hgoes : mark.goesOn c = false := by
      refine @Symbol.goesOn_eq_false _ c []
        ((Symbol.followers_eq mark mark.mem_all).trans ?_) List.not_mem_nil
      cases mark with
      | rightParen | rightSquare | rightCurly => rfl
      | _ => cases h
    cases mark with
    | rightParen | rightSquare | rightCurly => simp [endsBefore, hgoes]
    | _ => cases h
  | identifier =>
    have hall : ['.', ':', '[', '(', '\x7b', '"', '\x27'].all (!Scan.isWordChar ·) = true := by
      decide
    exact List.all_eq_true.1 hall c hc
  | string | longString => rfl
  | _ => cases h

/-- A bracket that closes, a comma or a semicolon. -/
def Symbol.isCloser : Symbol → Bool
  | rightParen | rightSquare | rightCurly | comma | semicolon => true
  | _ => false

/-- A bracket that closes, a comma or a semicolon may follow every token. Counterpart of
`Symbol.isCloser`. -/
theorem Kind.endsBefore_closer {kind : Kind} (hkind : kind.isWord = true) {mark : Symbol}
    (hmark : mark.isCloser = true) : kind.EndsBefore mark.text.toList := by
  intro c hc
  refine Scan.endsBefore_of_mem_stops hkind ?_
  cases mark with
  | rightParen | rightSquare | rightCurly | comma | semicolon =>
    cases hc
    decide
  | _ => cases hmark

/-- A symbol before an expression. Counterpart of `Kind.endsBefore`. -/
theorem Symbol.endsBefore_expression {mark : Symbol} {c : Char} (hc : c ≠ '=' ∧ c ≠ '!')
    (hmark : mark = .leftSquare ∧ c ≠ '[' ∨ mark = .minus ∧ c ≠ '-' ∨ mark = .hash ∨
        mark = .tilde) :
    (Kind.symbol mark).endsBefore c = true := by
  have hgoes : mark.goesOn c = false := by
    rcases hmark with ⟨rfl, -⟩ | ⟨rfl, -⟩ | rfl | rfl
    · exact @goesOn_eq_false _ c [] (followers_eq _ (mem_all _)) List.not_mem_nil
    · exact @goesOn_eq_false _ c [] (followers_eq _ (mem_all _)) List.not_mem_nil
    · exact @goesOn_eq_false _ c [] (followers_eq _ (mem_all _)) List.not_mem_nil
    · exact @goesOn_eq_false _ c ['='] (followers_eq _ (mem_all _)) (by simpa using hc.1)
  rcases hmark with ⟨rfl, hne⟩ | ⟨rfl, hne⟩ | rfl | rfl
  · simp [Kind.endsBefore, hgoes, hne, hc]
  · simp [Kind.endsBefore, hgoes, hne]
  · simp [Kind.endsBefore, hgoes, hc]
  · simp [Kind.endsBefore, hgoes]

/-- An indexer before a name. Counterpart of `Indexer.symbol`. -/
theorem Symbol.endsBefore_name {mark : Symbol} {c : Char} (hmark : mark = .dot ∨ mark = .colon)
    (hc : Scan.isWordStart c = true) : (Kind.symbol mark).endsBefore c = true := by
  have hne := Scan.ne_of_isWordStart hc
  rcases hmark with rfl | rfl
  · have hgoes :=
      @goesOn_eq_false .dot c ['.', '.'] (followers_eq _ (mem_all _)) (by simpa using hne '.' rfl)
    simp [Kind.endsBefore, hgoes, Scan.isDigit_of_isWordStart hc]
  · have hgoes :=
      @goesOn_eq_false .colon c [':'] (followers_eq _ (mem_all _)) (by simpa using hne ':' rfl)
    simp [Kind.endsBefore, hgoes]

end LuaFormatter
