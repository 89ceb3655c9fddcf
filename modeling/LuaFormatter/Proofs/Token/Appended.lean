import LuaFormatter.Proofs.Token.Lookahead
import LuaFormatter.Proofs.Token.Reread

/-!
# Tokens before a space

A space ends every token: what the readers take of a text is the same if a space and any other text
follow it (`nextToken_append_space`). So a text without comments, faults and a shebang has the same
tokens wherever it stands between other tokens with a space after it (`tokensFrom_append`), moved to
the offset where it starts (`tokensFrom_moved`).
-/

namespace LuaFormatter

/-- A token of a text that starts at a greater distance from the start of the source. Counterpart of
`Token` for a text that is put into another one. -/
def Token.moved (distance : Nat) (token : Token) : Token :=
  { token with start := token.start + distance }

section
variable (distance : Nat) (token : Token)

@[simp] theorem Token.kind_moved : (token.moved distance).kind = token.kind := rfl

@[simp] theorem Token.lexeme_moved : (token.moved distance).lexeme = token.lexeme := rfl

@[simp] theorem Token.start_moved : (token.moved distance).start = token.start + distance := rfl

@[simp] theorem Token.stop_moved : (token.moved distance).stop = token.stop + distance :=
  Nat.add_right_comm token.start distance token.length

end

namespace Scan

variable {p : Char → Bool}

/-! ## The readers of the scan -/

/-- A reader takes nothing of a space and of what follows it. Counterpart of `StopsAlike`, which
compares the texts before a dash and before a space. -/
def EndsAtSpace (read : List Char → List Char) : Prop :=
  ∀ front other, read (front ++ ' ' :: other) = read front ++ ' ' :: other

/-- The loops of `afterNumber` that pass over digits and word characters end at a space. Counterpart
of `afterNumber`. -/
theorem endsAtSpace_dropWhile (hspace : p ' ' = false) : EndsAtSpace (List.dropWhile p) :=
  dropWhile_append_cons hspace

/-- A fraction ends at a space. Counterpart of `stopsAlike_afterFraction`. -/
theorem endsAtSpace_afterFraction (hspace : p ' ' = false) : EndsAtSpace (afterFraction p) := by
  intro front other
  cases front with
  | nil => exact afterFraction_of_ne (by decide) other
  | cons c front =>
    by_cases hc : c = '.'
    · subst hc
      have hdot : ((front ++ ' ' :: other).head? == some '.') = (front.head? == some '.') := by
        cases front <;> rfl
      rw [List.cons_append, afterFraction, afterFraction, hdot]
      split
      · rfl
      · exact dropWhile_append_cons hspace front other
    · rw [List.cons_append, afterFraction_of_ne hc, afterFraction_of_ne hc, List.cons_append]

/-- An exponent ends at a space. Counterpart of `stopsAlike_afterExponent`. -/
theorem endsAtSpace_afterExponent (hspace : p ' ' = false) : EndsAtSpace (afterExponent p) := by
  intro front other
  have hdigits : ∀ text : List Char, (text ++ ' ' :: other).dropWhile Char.isDigit =
      text.dropWhile Char.isDigit ++ ' ' :: other :=
    fun text => dropWhile_append_cons rfl text other
  cases front with
  | nil => simp [afterExponent, hspace]
  | cons c front =>
    rw [List.cons_append]
    cases hc : p c with
    | false => simp [afterExponent, hc]
    | true =>
      by_cases hsign : front.head? = some '+' ∨ front.head? = some '-'
      · rcases hsign with hsign | hsign
        · obtain ⟨digits, rfl⟩ := List.head?_eq_some_iff.1 hsign
          simp [afterExponent, hc, hdigits]
        · obtain ⟨digits, rfl⟩ := List.head?_eq_some_iff.1 hsign
          simp [afterExponent, hc, hdigits]
      · have hrest := not_or.1 hsign
        have hmore : (front ++ ' ' :: other).head? ≠ some '+' ∧
            (front ++ ' ' :: other).head? ≠ some '-' := by
          cases front with
          | nil => simp
          | cons d front => exact hrest
        rw [afterExponent_mark hc hrest, afterExponent_mark hc hmore, hdigits]

/-- The stages of a number end at a space, one after another. Counterpart of `afterStages`. -/
theorem endsAtSpace_afterStages {isDigit isMark : Char → Bool} (hdigit : isDigit ' ' = false)
    (hmark : isMark ' ' = false) : EndsAtSpace (afterStages isDigit isMark) := by
  intro front other
  rw [afterStages, afterStages, endsAtSpace_dropWhile hdigit, endsAtSpace_afterFraction hdigit,
    endsAtSpace_afterExponent hmark, endsAtSpace_dropWhile rfl]

/-- A number ends at a space. Counterpart of `stopsAlike_afterNumber`. -/
theorem afterNumber_append_space (first : Char) (front other : List Char) :
    afterNumber (first :: front ++ ' ' :: other) =
      afterNumber (first :: front) ++ ' ' :: other := by
  have hstarts : startsHex (first :: front ++ ' ' :: other) = startsHex (first :: front) := by
    by_cases hzero : first = '0'
    · subst hzero
      cases front <;> rfl
    · cases front <;> simp [startsHex, hzero]
  cases hhex : startsHex (first :: front) with
  | false =>
    rw [afterNumber_decimal (hstarts.trans hhex), afterNumber_decimal hhex]
    exact endsAtSpace_afterStages rfl rfl (first :: front) other
  | true =>
    obtain ⟨c, rest, rfl, rfl, hc⟩ : ∃ c rest, first = '0' ∧ front = c :: rest ∧
        (c == 'x' || c == 'X') = true := by
      unfold startsHex at hhex
      split at hhex
      · rename_i heq
        obtain ⟨rfl, rfl⟩ := List.cons.inj heq
        exact ⟨_, _, rfl, rfl, hhex⟩
      · cases hhex
    rw [List.cons_append, List.cons_append, afterNumber_hex hc, afterNumber_hex hc]
    exact endsAtSpace_afterStages rfl rfl rest other

/-- No symbol has a space in its text. Counterpart of `read?_front`. -/
theorem read?_append_space (front other : List Char) :
    Symbol.read? (front ++ ' ' :: other) = Symbol.read? front := by
  have hmarks : ∀ mark ∈ Symbol.all, ' ' ∉ mark.text.toList := by decide +kernel
  unfold Symbol.read?
  congr 1
  funext mark
  rw [Bool.eq_iff_iff, List.isPrefixOf_iff_prefix, List.isPrefixOf_iff_prefix,
    prefix_append_cons_iff (hmarks mark mark.mem_all)]

/-- A string ends at its closing quote, whatever follows it. Counterpart of `quoted`. -/
theorem quoted_append {quote : Char} {rest : List Char} {kind : Kind} {length : Nat}
    (h : quoted quote rest = (kind, length)) (hkind : kind.isWord = true) (back : List Char) :
    quoted quote (rest ++ back) = (kind, length) := by
  unfold quoted at h ⊢
  rcases hread : quotedLength quote rest with ⟨closed, size⟩
  rw [hread] at h
  obtain ⟨rfl, rfl⟩ := Prod.mk.inj h
  cases closed with
  | false => cases hkind
  | true =>
    have hagain := @quotedLength_append _ _ (rest.drop size ++ back) _ hread
    rw [← List.append_assoc, List.take_append_drop] at hagain
    rw [hagain]

/-- A long string ends at its closing bracket, whatever follows it. Counterpart of `longString`. -/
theorem longString_append {level : Nat} {rest : List Char} {kind : Kind} {length : Nat}
    (h : longString level rest = (kind, length)) (hkind : kind.isWord = true) (back : List Char) :
    longString level (rest ++ back) = (kind, length) := by
  rw [longString_eq] at h ⊢
  cases hclose : bracketLength? level (rest.drop (level + 1)) with
  | none =>
    rw [hclose] at h
    obtain ⟨rfl, -⟩ := Prod.mk.inj h
    cases hkind
  | some close =>
    rw [hclose] at h
    have hle := le_of_bracketLength? hclose
    have hagain := @bracketLength?_append _ _ _ ((rest.drop (level + 1)).drop close ++ back) hclose
    rw [← List.append_assoc, List.take_append_drop] at hagain
    rw [List.length_drop] at hle
    rw [List.drop_append_of_le_length (by omega), hagain]
    exact h

/-- A comment is none of the tokens that the grammar reads. Counterpart of `comment`. -/
theorem isWord_comment (rest : List Char) : (comment rest).1.isWord = false := by
  unfold comment
  split
  · split <;> rfl
  · rfl

/-- A token that is no comment, no shebang and no fault is the same before a space, and so is one at
the start of a source. Counterpart of `nextToken_before_comment`. -/
theorem nextToken_append_space {atStart : Bool} {first : Char} {rest : List Char} {kind : Kind}
    {length : Nat} (h : nextToken atStart first rest = (kind, length))
    (hkind : kind.isWord = true) (other : List Char) :
    nextToken false first (rest ++ ' ' :: other) = (kind, length) := by
  have hdash : (rest ++ ' ' :: other).head? = some '-' ↔ rest.head? = some '-' := by
    cases rest <;> simp
  have hdigits : (rest ++ ' ' :: other).head?.any Char.isDigit = rest.head?.any Char.isDigit := by
    cases rest <;> rfl
  unfold nextToken at h ⊢
  simp only [hdash, hdigits]
  rw [if_neg (by simp), ← List.cons_append, bracketLevel?_append_cons (by decide) (by decide),
    read?_append_space]
  split at h
  · obtain ⟨rfl, -⟩ := Prod.mk.inj h
    cases hkind
  split at h
  · have hnever := isWord_comment rest
    rw [h, hkind] at hnever
    cases hnever
  rename_i hcomment
  rw [if_neg hcomment]
  split at h
  · rename_i hquote
    rw [if_pos hquote, quoted_append h hkind]
  rename_i hquote
  rw [if_neg hquote]
  cases hlevel : bracketLevel? (first :: rest) with
  | some level =>
    rw [hlevel] at h
    exact longString_append h hkind _
  | none =>
    rw [hlevel] at h
    dsimp only at h ⊢
    split at h
    · rename_i hdigit
      rw [if_pos hdigit, afterNumber_append_space]
      cases h
      simp only [List.length_append, List.length_cons]
      congr 1
      omega
    rename_i hdigit
    rw [if_neg hdigit]
    split at h
    · rename_i hword
      rw [if_pos hword, ← h, word, word, takeWhile_append_cons rfl]
    · rename_i hword
      rw [if_neg hword]
      exact h

/-- A token ends within its text: with a space after the text, it would else end in the space, but
no token does (`Reads.isSkipped_getLast`). Counterpart of `nextToken`. -/
theorem length_le_of_nextToken {atStart : Bool} {first : Char} {rest : List Char} {kind : Kind}
    {length : Nat} (h : nextToken atStart first rest = (kind, length))
    (hkind : kind.isWord = true) : length ≤ rest.length := by
  refine Nat.le_of_not_lt fun hlong => ?_
  have hreads := reads_nextToken (nextToken_append_space h hkind []) hkind
  rw [List.take_of_length_le (by simpa using Nat.succ_le_of_lt hlong)] at hreads
  have hspace := hreads.isSkipped_getLast hkind ' ' (by simp [List.getLast?_cons])
  cases hspace

/-! ## The tokens of a text -/

/-- A text in front of a space has the tokens that it has on its own, moved to where it stands. The
distance is not zero, so that no token of it is at the start of the source. Counterpart of
`tokensFrom_gap` for a text with tokens. -/
theorem tokensFrom_moved {offset distance : Nat} {text : List Char} (hdistance : 0 < distance)
    (h : ∀ token ∈ tokensFrom offset text, token.kind.isWord = true) (other : List Char) :
    tokensFrom (offset + distance) (text ++ ' ' :: other) =
      (tokensFrom offset text).map (Token.moved distance) ++
        tokensFrom (offset + distance + byteLength text + 1) other := by
  fun_induction tokensFrom offset text with
  | case1 offset =>
    rw [List.nil_append, tokensFrom, if_pos (by rfl)]
    rfl
  | case2 offset c rest hskipped ih =>
    rw [List.cons_append, tokensFrom, if_pos hskipped, byteLength, ← Nat.add_assoc,
      Nat.add_right_comm offset, ih h]
  | case3 offset c rest hskipped kind length hnext lexeme ih =>
    have hkind := h _ List.mem_cons_self
    have hlength := length_le_of_nextToken hnext hkind
    have hstart : (offset + distance == 0) = false := by
      simp only [beq_eq_false_iff_ne]
      omega
    have hbytes : byteLength (c :: rest) = byteLength lexeme + byteLength (rest.drop length) := by
      rw [← byteLength_append, List.cons_append, List.take_append_drop]
    have hrest := ih fun token hmem => h token (List.mem_cons_of_mem _ hmem)
    rw [List.cons_append, tokensFrom, if_neg hskipped, hstart,
      nextToken_append_space hnext hkind other]
    dsimp only
    rw [List.take_append_of_le_length hlength, List.drop_append_of_le_length hlength,
      Nat.add_right_comm offset distance, hrest, hbytes, ← Nat.add_assoc,
      Nat.add_right_comm offset distance]
    rfl

end Scan

end LuaFormatter
