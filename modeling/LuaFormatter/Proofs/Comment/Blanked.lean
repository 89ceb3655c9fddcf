import LuaFormatter.Proofs.Token.Gaps
import LuaFormatter.Proofs.Token.Lookahead

/-!
# Comments are blanks to the grammar

A comment may stand wherever a blank may. `blankComments` writes a space for every byte of every
comment of a source, and what is left is read as the source was (`parse_blankComments`). The scan
looks past the end of a token, but a space ends each token that the first dash of a comment ends
(`Scan.nextToken_before_comment`), and the scan passes over spaces as it passes over the comment.
The grammar then reads the same tokens in a source of the same length, so it makes the same tree.
-/

namespace LuaFormatter

namespace Scan

/-- A text with a space for every byte of its comments, for a text that starts at an offset. -/
def blankFrom (offset : Nat) : List Char → List Char
  | [] => []
  | c :: rest =>
    if isSkipped c then c :: blankFrom (offset + c.utf8Size) rest
    else
      let (kind, length) := nextToken (offset == 0) c rest
      let lexeme := c :: rest.take length
      (if kind.isComment then List.replicate (byteLength lexeme) ' ' else lexeme) ++
        blankFrom (offset + byteLength lexeme) (rest.drop length)
termination_by source => source.length

end Scan

/-- A source with a space for every byte of its comments. -/
def blankComments (source : List Char) : List Char :=
  Scan.blankFrom 0 source

/-- The byte at an index is part of one of the comments. -/
def isInComment (tokens : List Token) (index : Nat) : Bool :=
  tokens.any fun token =>
    token.kind.isComment && decide (token.start ≤ index) && decide (index < token.stop)

/-- A byte before all tokens is in no comment. Counterpart of `isInComment`. -/
theorem isInComment_before {tokens : List Token} {offset index : Nat} (hindex : index < offset)
    (h : ∀ token ∈ tokens, offset ≤ token.start) : isInComment tokens index = false := by
  refine List.any_eq_false.2 ?_
  intro token hmem hin
  simp only [Bool.and_eq_true, decide_eq_true_eq] at hin
  have := h token hmem
  omega

namespace Scan

/-- A space is one byte. Counterpart of `byteLength`. -/
theorem byteLength_replicate_space (length : Nat) :
    byteLength (List.replicate length ' ') = length := by
  induction length with
  | zero => rfl
  | succ length ih =>
    rw [List.replicate_succ, byteLength, ih]
    have : ' '.utf8Size = 1 := rfl
    omega

/-- Blanking keeps the number of bytes. Counterpart of `blankFrom`. -/
theorem byteLength_blankFrom (offset : Nat) (source : List Char) :
    byteLength (blankFrom offset source) = byteLength source := by
  fun_induction blankFrom offset source with
  | case1 => rfl
  | case2 offset c rest _ ih => rw [byteLength, ih, byteLength]
  | case3 offset c rest _ kind length _ lexeme ih =>
    have hsource : c :: rest = lexeme ++ rest.drop length := by simp [lexeme]
    rw [byteLength_append, ih, hsource, byteLength_append]
    split
    · rw [byteLength_replicate_space]
    · rfl

/-- The bytes of spaces are spaces. Counterpart of `utf8`. -/
theorem utf8_replicate_space (length : Nat) :
    utf8 (List.replicate length ' ') = List.replicate length 0x20 := by
  induction length with
  | zero => rfl
  | succ length ih =>
    rw [List.replicate_succ, utf8_cons, ih, List.replicate_succ]
    rfl

/-- A token starts with a byte of its text, and the tokens after it when it is over. Counterpart of
`isInComment`. -/
theorem isInComment_tokensFrom_cons {offset : Nat} {kind : Kind} {lexeme rest : List Char}
    (index : Nat) :
    isInComment (⟨kind, offset, lexeme⟩ :: tokensFrom (offset + byteLength lexeme) rest)
      (offset + index) = if index < byteLength lexeme then kind.isComment
      else isInComment (tokensFrom (offset + byteLength lexeme) rest) (offset + index) := by
  have hcons : isInComment (⟨kind, offset, lexeme⟩ :: tokensFrom (offset + byteLength lexeme) rest)
      (offset + index) = ((kind.isComment && decide (offset ≤ offset + index) &&
        decide (offset + index < offset + byteLength lexeme)) ||
        isInComment (tokensFrom (offset + byteLength lexeme) rest) (offset + index)) := rfl
  rw [hcons]
  split
  · rename_i hindex
    rw [isInComment_before (Nat.add_lt_add_left hindex offset) fun token hmem =>
      (start_ge_of_mem hmem).1]
    simp [hindex]
  · rename_i hindex
    simp [hindex]

/-- Blanking writes a space for the bytes of comments and no others. Counterpart of `blankFrom`. -/
theorem utf8_blankFrom (offset : Nat) (source : List Char) (index : Nat) :
    (utf8 (blankFrom offset source))[index]? = (utf8 source)[index]?.map fun byte =>
      if isInComment (tokensFrom offset source) (offset + index) then 0x20 else byte := by
  fun_induction blankFrom offset source generalizing index with
  | case1 => rfl
  | case2 offset c rest hskipped ih =>
    have hsize : (String.utf8EncodeChar c).length = c.utf8Size := String.length_utf8EncodeChar c
    rw [utf8_cons, utf8_cons, tokensFrom, if_pos hskipped]
    by_cases hindex : index < c.utf8Size
    · rw [List.getElem?_append_left (by omega), List.getElem?_append_left (by omega),
        isInComment_before (Nat.add_lt_add_left hindex offset) fun token hmem =>
        (start_ge_of_mem hmem).1]
      simp
    · rw [List.getElem?_append_right (by omega), List.getElem?_append_right (by omega), hsize, ih]
      have hoffset : offset + c.utf8Size + (index - c.utf8Size) = offset + index := by omega
      rw [hoffset]
  | case3 offset c rest hskipped kind length hnext lexeme ih =>
    have hsource : c :: rest = lexeme ++ rest.drop length := by simp [lexeme]
    have htokens : tokensFrom offset (c :: rest) =
        ⟨kind, offset, lexeme⟩ :: tokensFrom (offset + byteLength lexeme) (rest.drop length) := by
      rw [tokensFrom, if_neg hskipped, hnext]
    rw [htokens, isInComment_tokensFrom_cons, hsource, utf8_append, utf8_append]
    have hlength : (utf8 (if kind.isComment = true then List.replicate (byteLength lexeme) ' '
        else lexeme)).length = byteLength lexeme := by
      rw [length_utf8]
      split
      · exact byteLength_replicate_space _
      · rfl
    by_cases hindex : index < byteLength lexeme
    · rw [List.getElem?_append_left (by omega), List.getElem?_append_left (by rwa [length_utf8]),
        if_pos hindex]
      split
      · rw [utf8_replicate_space, List.getElem?_replicate, if_pos hindex,
          List.getElem?_eq_getElem (by rwa [length_utf8])]
        rfl
      · simp
    · rw [List.getElem?_append_right (by omega),
        List.getElem?_append_right (by rw [length_utf8]; omega), hlength, length_utf8,
        if_neg hindex, ih]
      have hoffset : offset + byteLength lexeme + (index - byteLength lexeme) = offset + index := by
        omega
      rw [hoffset]

/-- A comment starts with two dashes. Counterpart of `Scan.nextToken` for comments. -/
theorem dashes_of_isComment {atStart : Bool} {first : Char} {rest : List Char}
    (h : (nextToken atStart first rest).1.isComment = true) :
    first = '-' ∧ rest.head? = some '-' := by
  unfold nextToken at h
  split at h
  · cases h
  split at h
  · rename_i hcomment
    exact hcomment
  split at h
  · unfold quoted at h
    dsimp only at h
    split at h <;> cases h
  split at h
  · unfold longString at h
    split at h <;> cases h
  split at h
  · cases h
  split at h
  · unfold word at h
    dsimp only at h
    split at h <;> cases h
  split at h <;> cases h

/-- Where blanking changes a text first, there is a space for the dash of a comment. Counterpart of
`blankFrom`. -/
theorem blankFrom_cases (offset : Nat) (source : List Char) :
    blankFrom offset source = source ∨ ∃ front back other,
      source = front ++ '-' :: back ∧ blankFrom offset source = front ++ ' ' :: other := by
  fun_induction blankFrom offset source with
  | case1 => exact .inl rfl
  | case2 offset c rest _ ih =>
    rcases ih with hsame | ⟨front, back, other, hrest, hblank⟩
    · exact .inl (by rw [hsame])
    · exact .inr ⟨c :: front, back, other, by rw [hrest]; rfl, by rw [hblank]; rfl⟩
  | case3 offset c rest _ kind length hnext lexeme ih =>
    have hsource : c :: rest = lexeme ++ rest.drop length := by simp [lexeme]
    split
    · rename_i hcomment
      obtain ⟨rfl, -⟩ : c = '-' ∧ _ := dashes_of_isComment (by rw [hnext]; exact hcomment)
      have hlexeme : byteLength lexeme = byteLength (rest.take length) + 1 := by
        rw [show lexeme = '-' :: rest.take length from rfl, byteLength]
        have : '-'.utf8Size = 1 := rfl
        omega
      refine .inr ⟨[], rest, List.replicate (byteLength (rest.take length)) ' ' ++
        blankFrom (offset + byteLength lexeme) (rest.drop length), rfl, ?_⟩
      rw [hlexeme, List.replicate_succ]
      rfl
    · rcases ih with hsame | ⟨front, back, other, hrest, hblank⟩
      · exact .inl (by rw [hsame, ← hsource])
      · refine .inr ⟨lexeme ++ front, back, other, ?_, ?_⟩
        · rw [hsource, hrest, List.append_assoc]
        · rw [hblank, List.append_assoc]

/-- A token of the code is read again where the comments after it are blanks. Counterpart of
`Scan.nextToken`. -/
theorem nextToken_blankFrom {atStart : Bool} {first : Char} {rest : List Char} {kind : Kind}
    {length : Nat} (h : nextToken atStart first rest = (kind, length))
    (hkind : kind.isComment = false) (offset : Nat) :
    nextToken atStart first (rest.take length ++ blankFrom offset (rest.drop length)) =
      (kind, length) := by
  rcases blankFrom_cases offset (rest.drop length) with hsame | ⟨front, back, other, hrest, hblank⟩
  · rwa [hsame, List.take_append_drop]
  · have hlength : length ≤ (rest.take length ++ front).length := by
      have hdrop := congrArg List.length hrest
      simp only [List.length_drop, List.length_append, List.length_cons,
        List.length_take] at hdrop ⊢
      omega
    rw [hblank, ← List.append_assoc]
    rw [← List.take_append_drop length rest, hrest, ← List.append_assoc] at h
    exact nextToken_before_comment h hlength hkind other

/-- A source with its comments blanked has the same tokens except for them. Counterpart of
`Scan.tokensFrom`. -/
theorem tokensFrom_blankFrom (offset : Nat) (source : List Char) :
    tokensFrom offset (blankFrom offset source) =
      (tokensFrom offset source).filter (!·.kind.isComment) := by
  fun_induction blankFrom offset source with
  | case1 => rw [tokensFrom, List.filter_nil]
  | case2 offset c rest hskipped ih =>
    rw [tokensFrom, if_pos hskipped, ih, tokensFrom, if_pos hskipped]
  | case3 offset c rest hskipped kind length hnext lexeme ih =>
    have htokens : tokensFrom offset (c :: rest) =
        ⟨kind, offset, lexeme⟩ :: tokensFrom (offset + byteLength lexeme) (rest.drop length) := by
      rw [tokensFrom, if_neg hskipped, hnext]
    rw [htokens]
    cases hcomment : kind.isComment with
    | true =>
      have hgap : ∀ c ∈ List.replicate (byteLength lexeme) ' ', isSkipped c = true := by
        intro c hc
        rw [List.eq_of_mem_replicate hc]
        rfl
      rw [if_pos rfl, tokensFrom_gap hgap, byteLength_replicate_space, ih,
        List.filter_cons_of_neg (by simp [hcomment])]
    | false =>
      have hagain := nextToken_blankFrom hnext hcomment (offset + byteLength lexeme)
      obtain ⟨htake, hdrop⟩ :
          (rest.take length ++
            blankFrom (offset + byteLength lexeme) (rest.drop length)).take length =
            rest.take length ∧
          (rest.take length ++
            blankFrom (offset + byteLength lexeme) (rest.drop length)).drop length =
            blankFrom (offset + byteLength lexeme) (rest.drop length) := by
        rcases Nat.le_total length rest.length with hle | hle
        · have hlength : (rest.take length).length = length := by rw [List.length_take]; omega
          exact ⟨List.take_left' hlength, List.drop_left' hlength⟩
        · rw [List.drop_eq_nil_of_le hle, List.take_of_length_le hle, blankFrom, List.append_nil]
          exact ⟨List.take_of_length_le hle, List.drop_eq_nil_of_le hle⟩
      rw [if_neg (by simp), List.filter_cons_of_pos (by simp [hcomment]), ← ih]
      show tokensFrom offset (c :: (rest.take length ++ _)) = _
      rw [tokensFrom, if_neg hskipped, hagain]
      dsimp only
      rw [htake, hdrop]

end Scan

/-- Comments do not influence parsing. Where every byte of a comment is a space, the tokens are
those of the source without its comments, and the grammar makes the same tree of the same nodes from
them, with the same shebang and the same faults. Only the faults of comments without an end are
gone. Counterpart of `parse`. -/
theorem parse_blankComments (source : List Char) :
    (∀ index, (utf8 (blankComments source))[index]? = (utf8 source)[index]?.map fun byte =>
      if isInComment (tokenise source) index then 0x20 else byte) ∧
    tokenise (blankComments source) = (tokenise source).filter (!·.kind.isComment) ∧
    (parse (blankComments source)).tokens = (parse source).tokens ∧
    (parse (blankComments source)).shebang = (parse source).shebang ∧
    (parse (blankComments source)).root = (parse source).root ∧
    (parse (blankComments source)).nodeCount = (parse source).nodeCount ∧
    (parse source).faults =
      ((tokenise source).filter (·.kind = .unterminatedComment)).map
          (.unterminatedComment ·.span) ++
        (parse (blankComments source)).faults := by
  have htokens : tokenise (blankComments source) = (tokenise source).filter (!·.kind.isComment) :=
    Scan.tokensFrom_blankFrom 0 source
  have hcode : (tokenise (blankComments source)).filter Program.isCode =
      (tokenise source).filter Program.isCode := by
    rw [htokens, List.filter_filter]
    refine List.filter_congr ?_
    intro token _
    cases hcomment : token.kind.isComment <;> simp [Program.isCode, hcomment]
  have hunclosed : (tokenise (blankComments source)).filter
      (·.kind = .unterminatedComment) = [] := by
    rw [htokens, List.filter_filter, List.filter_eq_nil_iff]
    intro token _ hboth
    simp only [Bool.and_eq_true, decide_eq_true_eq, Bool.not_eq_true'] at hboth
    rw [hboth.1] at hboth
    cases hboth.2
  have hshebang : (tokenise (blankComments source)).find? (·.kind = .shebang) =
      (tokenise source).find? (·.kind = .shebang) := by
    rw [htokens, List.find?_filter]
    congr 1
    funext token
    cases hkind : token.kind <;> rfl
  have hlength : byteLength (blankComments source) = byteLength source :=
    Scan.byteLength_blankFrom 0 source
  refine ⟨?_, htokens, hcode, hshebang, ?_, ?_, ?_⟩
  · intro index
    have hbyte := Scan.utf8_blankFrom 0 source index
    rwa [Nat.zero_add] at hbyte
  -- The grammar is run on the same tokens, from the same state.
  all_goals
    unfold parse
    simp only [Program.initialState, hcode, hlength, hunclosed, List.map_nil, List.nil_append]
    rfl

end LuaFormatter
