import LuaFormatter.Proofs.Token.Closing
import LuaFormatter.Source.Blank

/-!
# How tokens start and end

The last character of a name, a word or a literal is no blank and no comma: names and numbers are
made of other characters, and strings end in a quote or a bracket (`endsFirmly_of_mem`). What is
written after such a token can so be told from it.

Most tokens stay on one line (`newline_notMem_of_mem`), and the first character of a token is no
blank, in the wide sense of the trimming of comments, unless it starts no token at all
(`isBlank_of_mem`).
-/

namespace LuaFormatter.Scan

/-- The character is no blank and no comma. -/
def isFirm (c : Char) : Bool :=
  !isSkipped c && c != ','

/-- The text ends in a character that is no blank and no comma. -/
def EndsFirmly (text : List Char) : Prop :=
  ∃ c, text.getLast? = some c ∧ isFirm c = true

/-- The kinds of the tokens that can be values or names. -/
def isOperand : Kind → Bool
  | .keyword _ | .identifier | .number | .string | .longString | .symbol .dotDotDot => true
  | _ => false

/-- What no blank and no comma passes is passed by firm characters only. Counterpart of `isFirm`. -/
theorem isFirm_of {p : Char → Bool}
    (h : [' ', '\t', '\n', '\r', '\x0b', '\x0c', ','].all (!p ·) = true) {c : Char}
    (hc : p c = true) : isFirm c = true := by
  refine Classical.byContradiction fun hfirm => ?_
  have hmem : c ∈ [' ', '\t', '\n', '\r', '\x0b', '\x0c', ','] := by
    simpa [isFirm, isSkipped, or_assoc, Classical.or_iff_not_imp_left] using hfirm
  simpa [hc] using List.all_eq_true.1 h c hmem

/-- The characters of words are firm. Counterpart of `isWordChar`. -/
theorem isFirm_of_isWordChar {c : Char} (h : isWordChar c = true) : isFirm c = true :=
  isFirm_of (by decide) h

/-- Digits are firm. Counterpart of `isFirm`. -/
theorem isFirm_of_isDigit {c : Char} (h : c.isDigit = true) : isFirm c = true :=
  isFirm_of (by decide) h

/-- Hexadecimal digits are firm. Counterpart of `isHexDigit`. -/
theorem isFirm_of_isHexDigit {c : Char} (h : isHexDigit c = true) : isFirm c = true :=
  isFirm_of (by decide) h

/-- A text of firm characters ends firmly. Counterpart of `EndsFirmly`. -/
theorem endsFirmly_of_all {text : List Char} (hne : text ≠ []) (h : ∀ c ∈ text, isFirm c = true) :
    EndsFirmly text :=
  ⟨text.getLast hne, List.getLast?_eq_some_getLast hne, h _ (List.getLast_mem hne)⟩

/-- A text ends firmly if its back does. Counterpart of `EndsFirmly`. -/
theorem EndsFirmly.append (front : List Char) {text : List Char} (h : EndsFirmly text) :
    EndsFirmly (front ++ text) := by
  obtain ⟨c, hlast, hfirm⟩ := h
  exact ⟨c, by simp [hlast], hfirm⟩

/-- A text ends firmly if it does after its first character. Counterpart of `EndsFirmly`. -/
theorem EndsFirmly.cons (first : Char) {text : List Char} (h : EndsFirmly text) :
    EndsFirmly (first :: text) :=
  h.append [first]

/-! ## Strings -/

/-- A quoted string that is closed ends in its quote. Counterpart of `quotedLength`. -/
theorem getLast?_quoted {quote : Char} {source : List Char} {length : Nat}
    (h : quotedLength quote source = (true, length)) :
    (source.take length).getLast? = some quote := by
  fun_induction quotedLength quote source generalizing length with
  | case1 | case2 | case4 => simp at h
  | case3 =>
    rename_i rest closed inner hinner ih
    cases h
    have hlast := ih hinner
    simp [List.getLast?_cons, hlast]
  | case5 => cases h; rfl
  | case6 =>
    rename_i rest _ _ _ closed inner hinner ih
    cases h
    have hlast := ih hinner
    simp [List.getLast?_cons, hlast]

/-- A closing long bracket ends in a square bracket. Counterpart of `bracketLength?`. -/
theorem getLast?_bracket {level : Nat} {source : List Char} {length : Nat}
    (h : bracketLength? level source = some length) : (source.take length).getLast? = some ']' := by
  fun_induction bracketLength? level source generalizing length with
  | case1 => cases h
  | case2 c rest hcloses =>
    cases h
    obtain ⟨back, hback⟩ := List.isPrefixOf_iff_prefix.1 hcloses
    have hlength : (']' :: (List.replicate level '=' ++ [']'])).length = level + 2 := by simp
    rw [← hback, ← hlength, List.take_left]
    simp [List.getLast?_cons]
  | case3 c rest _ ih =>
    obtain ⟨inner, hinner, rfl⟩ := Option.map_eq_some_iff.1 h
    have hlast := ih hinner
    simp [List.getLast?_cons, hlast]

/-! ## Numbers -/

/-- The rest of a source after characters that are no blanks and no commas. -/
def FirmBefore (source rest : List Char) : Prop :=
  ∃ text, source = text ++ rest ∧ ∀ c ∈ text, isFirm c = true

/-- Before all of a source there is nothing, so nothing that is not firm. Counterpart of
`FirmBefore`. -/
theorem FirmBefore.refl (source : List Char) : FirmBefore source source :=
  ⟨[], rfl, by simp⟩

/-- One more firm character stands before the rest. Counterpart of `FirmBefore`. -/
theorem FirmBefore.cons {c : Char} {source rest : List Char} (hc : isFirm c = true)
    (h : FirmBefore source rest) : FirmBefore (c :: source) rest := by
  obtain ⟨text, rfl, htext⟩ := h
  exact ⟨c :: text, rfl, by simpa [hc] using htext⟩

/-- Firm characters stand before firm characters. Counterpart of `FirmBefore`. -/
theorem FirmBefore.trans {source middle rest : List Char} (h : FirmBefore source middle)
    (h' : FirmBefore middle rest) : FirmBefore source rest := by
  obtain ⟨text, rfl, htext⟩ := h
  obtain ⟨more, rfl, hmore⟩ := h'
  refine ⟨text ++ more, by simp, fun c hc => ?_⟩
  rcases List.mem_append.1 hc with hc | hc
  · exact htext c hc
  · exact hmore c hc

/-- What is dropped is firm if all that pass the test are. Counterpart of `FirmBefore`. -/
theorem firmBefore_dropWhile {p : Char → Bool} (hp : ∀ c, p c = true → isFirm c = true)
    (source : List Char) : FirmBefore source (source.dropWhile p) :=
  ⟨source.takeWhile p, List.takeWhile_append_dropWhile.symm, fun c hc =>
    hp c (List.all_eq_true.1 List.all_takeWhile c hc)⟩

/-- The fraction of a number is firm. Counterpart of `Scan.afterFraction`. -/
theorem firmBefore_afterFraction {p : Char → Bool} (hp : ∀ c, p c = true → isFirm c = true)
    (source : List Char) : FirmBefore source (afterFraction p source) := by
  unfold afterFraction
  split
  · split
    · exact .refl _
    · exact .cons rfl (firmBefore_dropWhile hp _)
  · exact .refl _

/-- The exponent of a number is firm. Counterpart of `Scan.afterExponent`. -/
theorem firmBefore_afterExponent {p : Char → Bool} (hp : ∀ c, p c = true → isFirm c = true)
    (source : List Char) : FirmBefore source (afterExponent p source) := by
  have hdigits := firmBefore_dropWhile fun c => @isFirm_of_isDigit c
  unfold afterExponent
  split
  · exact .refl _
  · split
    · rename_i c rest hmark
      refine .cons (hp c hmark) ?_
      split
      · exact .cons rfl (hdigits _)
      · exact .cons rfl (hdigits _)
      · exact hdigits _
    · exact .refl _

/-- A number is firm. Counterpart of `Scan.afterNumber`. -/
theorem firmBefore_afterNumber (source : List Char) : FirmBefore source (afterNumber source) := by
  have hexponent : ∀ {a b : Char}, isFirm a = true → isFirm b = true →
      ∀ c, (c == a || c == b) = true → isFirm c = true := by
    intro a b ha hb c hc
    rcases Bool.or_eq_true_iff.1 hc with hc | hc
    · rwa [beq_iff_eq.1 hc]
    · rwa [beq_iff_eq.1 hc]
  have hhex : ∀ rest, FirmBefore rest (afterExponent (fun c => c == 'p' || c == 'P')
      (afterFraction isHexDigit (rest.dropWhile isHexDigit))) := fun rest =>
    ((firmBefore_dropWhile (fun c => @isFirm_of_isHexDigit c) rest).trans
      (firmBefore_afterFraction (fun c => @isFirm_of_isHexDigit c) _)).trans
      (firmBefore_afterExponent (hexponent rfl rfl) _)
  unfold afterNumber
  dsimp only
  refine .trans ?_ (firmBefore_dropWhile (fun c => @isFirm_of_isWordChar c) _)
  split
  · exact .cons rfl (.cons rfl (hhex _))
  · exact .cons rfl (.cons rfl (hhex _))
  · exact ((firmBefore_dropWhile (fun c => @isFirm_of_isDigit c) _).trans
      (firmBefore_afterFraction (fun c => @isFirm_of_isDigit c) _)).trans
      (firmBefore_afterExponent (hexponent rfl rfl) _)

/-- The characters of a number are no blanks and no commas. Counterpart of `afterNumber`. -/
theorem isFirm_number {first : Char} {rest : List Char} (hfirst : isFirm first = true) :
    ∀ c ∈ first :: rest.take (rest.length - (afterNumber (first :: rest)).length),
      isFirm c = true := by
  obtain ⟨text, hsource, htext⟩ := firmBefore_afterNumber (first :: rest)
  cases text with
  | nil =>
    have hlength : rest.length - (afterNumber (first :: rest)).length = 0 := by
      have := congrArg List.length hsource
      simp only [List.length_cons, List.nil_append] at this
      omega
    rw [hlength]
    simpa using hfirst
  | cons c text =>
    obtain ⟨rfl, hrest⟩ : first = c ∧ rest = text ++ afterNumber (first :: rest) :=
      List.cons.inj hsource
    have hlength : rest.length - (afterNumber (first :: rest)).length = text.length := by
      have := congrArg List.length hrest
      simp only [List.length_append] at this
      omega
    have htake : rest.take text.length = text := by
      rw [hrest, List.take_left]
    rw [hlength, htake]
    exact htext

/-- What starts a number is no blank and no comma. Counterpart of `nextToken` for numbers. -/
theorem isFirm_numberStart {first : Char} {rest : List Char}
    (h : first.isDigit = true ∨ (first = '.' ∧ rest.head?.any Char.isDigit = true)) :
    isFirm first = true := by
  rcases h with hdigit | ⟨rfl, -⟩
  · exact isFirm_of_isDigit hdigit
  · rfl

/-- The characters of a word are no blanks and no commas. Counterpart of `word`. -/
theorem isFirm_word {first : Char} {rest : List Char} {kind : Kind} {length : Nat}
    (h : word first rest = (kind, length)) (hstart : isWordStart first = true) :
    ∀ c ∈ first :: rest.take length, isFirm c = true := by
  have hlength : length = (rest.takeWhile isWordChar).length := by
    unfold word at h
    dsimp only at h
    split at h <;> cases h <;> rfl
  rw [hlength, ← List.prefix_iff_eq_take.1 (List.takeWhile_prefix isWordChar)]
  intro c hc
  rcases List.mem_cons.1 hc with rfl | hc
  · exact isFirm_of (by decide) hstart
  · exact isFirm_of_isWordChar (List.all_eq_true.1 List.all_takeWhile c hc)

/-! ## Tokens -/

/-- The text of a symbol is the token. Counterpart of `Symbol.read?`. -/
theorem lexeme_symbol {first : Char} {rest : List Char} {symbol : Symbol}
    (h : Symbol.read? (first :: rest) = some symbol) :
    first :: rest.take (symbol.text.length - 1) = symbol.text.toList := by
  unfold Symbol.read? at h
  have hstarts := List.find?_some h
  obtain ⟨back, hback⟩ := List.isPrefixOf_iff_prefix.1 hstarts
  cases htext : symbol.text.toList with
  | nil => cases symbol <;> cases htext
  | cons c tail =>
    rw [htext, List.cons_append] at hback
    obtain ⟨rfl, rfl⟩ := List.cons.inj hback
    have hlength : symbol.text.length - 1 = tail.length := by
      rw [← String.length_toList, htext]
      rfl
    rw [hlength, List.take_left]

/-- A token that can be a value or a name ends in no blank and no comma. Counterpart of
`isOperand`. -/
theorem endsFirmly_nextToken {atStart : Bool} {first : Char} {rest : List Char} {kind : Kind}
    {length : Nat} (h : nextToken atStart first rest = (kind, length))
    (hkind : isOperand kind = true) :
    EndsFirmly (first :: rest.take length) := by
  unfold nextToken at h
  split at h
  · cases h
    cases hkind
  split at h
  · unfold comment at h
    split at h
    · split at h <;> cases h <;> cases hkind
    · cases h
      cases hkind
  split at h
  · rename_i hquote
    unfold quoted at h
    cases hquoted : quotedLength first rest with
    | mk closed inner =>
      rw [hquoted] at h
      cases closed with
      | false =>
        cases h
        cases hkind
      | true =>
        cases h
        refine .cons first ⟨first, getLast?_quoted hquoted, ?_⟩
        rcases hquote with rfl | rfl <;> rfl
  split at h
  · rw [longString_eq] at h
    split at h
    · rename_i level _ inner hbracket
      cases h
      refine .cons first ?_
      rw [List.take_add]
      exact .append _ ⟨']', getLast?_bracket hbracket, rfl⟩
    · cases h
      cases hkind
  split at h
  · rename_i hnumber
    cases h
    exact endsFirmly_of_all (by simp) (isFirm_number (isFirm_numberStart hnumber))
  split at h
  · rename_i hstart
    exact endsFirmly_of_all (by simp) (isFirm_word h hstart)
  split at h
  · rename_i symbol hsymbol
    cases h
    rw [lexeme_symbol hsymbol]
    cases symbol with
    | dotDotDot => exact ⟨'.', by decide, rfl⟩
    | _ => cases hkind
  · cases h
    cases hkind

/-- Values and names of a source end firmly. Counterpart of `isOperand`. -/
theorem endsFirmly_of_mem {offset : Nat} {source : List Char} {token : Token}
    (h : token ∈ tokensFrom offset source) (hkind : isOperand token.kind = true) :
    EndsFirmly token.lexeme := by
  fun_induction tokensFrom offset source with
  | case1 => simp at h
  | case2 offset c rest _ ih => exact ih h
  | case3 =>
    rename_i offset c rest _ kind length hnext lexeme ih
    rcases List.mem_cons.1 h with rfl | h
    · exact endsFirmly_nextToken hnext hkind
    · exact ih h

/-! ## Tokens on one line -/

/-- The kinds of the tokens that hold no line break. -/
def isOneLine : Kind → Bool
  | .symbol _ | .keyword _ | .identifier | .number | .comment | .shebang => true
  | _ => false

/-- There is no line break in what is left of a line. Counterpart of `lineLength`. -/
theorem newline_notMem_line (rest : List Char) : '\n' ∉ rest.take (lineLength rest) := by
  have hle : lineLength rest ≤ (rest.takeWhile (· != '\n')).length := by
    unfold lineLength
    dsimp only
    split <;> omega
  intro hmem
  have hline : '\n' ∈ rest.takeWhile (· != '\n') := by
    rw [List.prefix_iff_eq_take.1 (List.takeWhile_prefix (· != '\n'))]
    exact (List.take_prefix_take_left hle).subset hmem
  simpa using List.all_eq_true.1 List.all_takeWhile _ hline

/-- A text of firm characters has no line feed. Counterpart of `isFirm`. -/
theorem newline_notMem_of_isFirm {text : List Char} (h : ∀ c ∈ text, isFirm c = true) :
    '\n' ∉ text :=
  fun hmem => absurd (h _ hmem) (by decide)

/-- The tokens that hold no line break have no line feed. Counterpart of `isOneLine`. -/
theorem newline_notMem_nextToken {atStart : Bool} {first : Char} {rest : List Char} {kind : Kind}
    {length : Nat} (h : nextToken atStart first rest = (kind, length))
    (hkind : isOneLine kind = true) : '\n' ∉ first :: rest.take length := by
  have hline : ∀ c, c ≠ '\n' → '\n' ∉ c :: rest.take (lineLength rest) := by
    intro c hc hmem
    rcases List.mem_cons.1 hmem with heq | hmem
    · exact hc heq.symm
    · exact newline_notMem_line rest hmem
  unfold nextToken at h
  split at h
  · rename_i hshebang
    cases h
    exact hline first (by simp [hshebang.1])
  split at h
  · rename_i hdash
    unfold comment at h
    split at h
    · split at h <;> cases h <;> cases hkind
    · cases h
      exact hline first (by simp [hdash.1])
  split at h
  · unfold quoted at h
    cases hquoted : quotedLength first rest with
    | mk closed inner =>
      rw [hquoted] at h
      cases closed <;> cases h <;> cases hkind
  split at h
  · unfold longString at h
    split at h <;> cases h <;> cases hkind
  split at h
  · rename_i hnumber
    cases h
    exact newline_notMem_of_isFirm (isFirm_number (isFirm_numberStart hnumber))
  split at h
  · rename_i hstart
    exact newline_notMem_of_isFirm (isFirm_word h hstart)
  split at h
  · rename_i symbol hsymbol
    cases h
    rw [lexeme_symbol hsymbol]
    cases symbol <;> decide
  · cases h
    cases hkind

/-- Names, words, numbers, symbols, line comments and the shebang hold no line break. Counterpart of
`isOneLine`. -/
theorem newline_notMem_of_mem {offset : Nat} {source : List Char} {token : Token}
    (h : token ∈ tokensFrom offset source) (hkind : isOneLine token.kind = true) :
    '\n' ∉ token.lexeme := by
  fun_induction tokensFrom offset source with
  | case1 => simp at h
  | case2 offset c rest _ ih => exact ih h
  | case3 =>
    rename_i offset c rest _ kind length hnext lexeme ih
    rcases List.mem_cons.1 h with rfl | h
    · exact newline_notMem_nextToken hnext hkind
    · exact ih h

/-! ## The first character -/

/-- The visible characters of ASCII are no blanks. Counterpart of `isBlank`. -/
theorem isBlank_eq_false {c : Char} (h : 33 ≤ c.toNat) (hle : c.toNat ≤ 126) :
    isBlank c = false := by
  simp only [isBlank, blankRanges, List.any_eq_false, Bool.and_eq_true, decide_eq_true_eq]
  intro range hrange
  simp only [List.mem_cons, List.not_mem_nil, or_false, Prod.ext_iff] at hrange
  omega

/-- Letters and digits are printed characters. Counterpart of `Char.isAlphanum`. -/
theorem toNat_of_isAlphanum {c : Char} (h : c.isAlphanum = true) :
    33 ≤ c.toNat ∧ c.toNat ≤ 126 := by
  have hranges : (65 ≤ c.toNat ∧ c.toNat ≤ 90) ∨ (97 ≤ c.toNat ∧ c.toNat ≤ 122) ∨
      (48 ≤ c.toNat ∧ c.toNat ≤ 57) := by
    have hletters : ((decide (c.val ≥ 65 ∧ c.val ≤ 90) || (c.val ≥ 97 && c.val ≤ 122)) ||
        (c.val ≥ 48 && c.val ≤ 57)) = true := h
    simp only [Bool.or_eq_true, Bool.and_eq_true, decide_eq_true_eq, or_assoc, ge_iff_le,
      UInt32.le_iff_toNat_le] at hletters
    exact hletters
  omega

/-- The first character of a word is not blank. Counterpart of `isWordStart`. -/
theorem isBlank_of_isWordStart {c : Char} (h : isWordStart c = true) : isBlank c = false := by
  rcases Bool.or_eq_true_iff.1 h with halpha | heq
  · have hrange := toNat_of_isAlphanum (c := c) (by simp [Char.isAlphanum, halpha])
    exact isBlank_eq_false hrange.1 hrange.2
  · rw [beq_iff_eq.1 heq]
    decide

/-- The first character of a token that is understood is not blank. Counterpart of
`Scan.nextToken`. -/
theorem isBlank_nextToken {atStart : Bool} {first : Char} {rest : List Char} {kind : Kind}
    {length : Nat} (h : nextToken atStart first rest = (kind, length)) (hkind : kind ≠ .unknown) :
    isBlank first = false := by
  unfold nextToken at h
  split at h
  · rename_i hshebang
    rw [hshebang.1]
    decide
  split at h
  · rename_i hdash
    rw [hdash.1]
    decide
  split at h
  · rename_i hquote
    rcases hquote with rfl | rfl <;> decide
  split at h
  · rename_i level hlevel
    unfold bracketLevel? at hlevel
    split at hlevel
    · rename_i heq
      rw [(List.cons.inj heq).1]
      decide
    · cases hlevel
  split at h
  · rename_i hnumber
    rcases hnumber with hdigit | ⟨rfl, -⟩
    · have hrange := toNat_of_isAlphanum (c := first) (by simp [Char.isAlphanum, hdigit])
      exact isBlank_eq_false hrange.1 hrange.2
    · decide
  split at h
  · rename_i hstart
    exact isBlank_of_isWordStart hstart
  split at h
  · rename_i symbol hsymbol
    have htext := congrArg List.head? (lexeme_symbol hsymbol)
    rw [List.head?_cons] at htext
    cases symbol <;> (rw [Option.some.inj htext]; decide)
  · cases h
    exact absurd rfl hkind

/-- A token starts with a character that is no blank. Counterpart of `isBlank`. -/
theorem isBlank_of_mem {offset : Nat} {source : List Char} {token : Token}
    (h : token ∈ tokensFrom offset source) (hkind : token.kind ≠ .unknown) :
    ∃ c ∈ token.lexeme.head?, isBlank c = false := by
  fun_induction tokensFrom offset source with
  | case1 => simp at h
  | case2 offset c rest _ ih => exact ih h
  | case3 =>
    rename_i offset c rest _ kind length hnext lexeme ih
    rcases List.mem_cons.1 h with rfl | h
    · exact ⟨c, rfl, isBlank_nextToken hnext hkind⟩
    · exact ih h

end LuaFormatter.Scan
