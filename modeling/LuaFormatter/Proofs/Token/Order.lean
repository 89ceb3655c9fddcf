import LuaFormatter.Parse.Program

/-!
# The order of tokens

The tokens of a source take up at least one byte each, and none starts before the one ahead of it is
over (`ordered_tokenise`). Comments and code are told apart only after that, so a comment is on one
side of every token of the code (`Program.comment_apart`).
-/

namespace LuaFormatter

/-- Tokens that take up some bytes and come one after the other. -/
structure Ordered (tokens : List Token) : Prop where
  pairwise : tokens.Pairwise fun token next => token.stop ≤ next.start
  start_lt_stop : ∀ token ∈ tokens, token.start < token.stop

namespace Ordered

variable {tokens front back : List Token}

/-- Fewer tokens in the same order are ordered. Counterpart of `Ordered`. -/
theorem sublist (h : Ordered tokens) (hsub : front.Sublist tokens) : Ordered front :=
  ⟨h.pairwise.sublist hsub, fun token hmem => h.start_lt_stop token (hsub.mem hmem)⟩

/-- The first tokens of ordered ones are ordered. Counterpart of `Ordered`. -/
theorem left (h : Ordered (front ++ back)) : Ordered front :=
  h.sublist (List.sublist_append_left front back)

/-- The last tokens of ordered ones are ordered. Counterpart of `Ordered`. -/
theorem right (h : Ordered (front ++ back)) : Ordered back :=
  h.sublist (List.sublist_append_right front back)

/-- Tokens of a front are over when those of the back start. Counterpart of `Ordered`. -/
theorem stop_le_start (h : Ordered (front ++ back)) {token next : Token} (hmem : token ∈ front)
    (hnext : next ∈ back) : token.stop ≤ next.start :=
  (List.pairwise_append.1 h.pairwise).2.2 token hmem next hnext

/-- Of two different tokens, one is over when the other starts. Counterpart of `Ordered`. -/
theorem apart (h : Ordered tokens) {token other : Token} (hmem : token ∈ tokens)
    (hother : other ∈ tokens) (hne : token ≠ other) :
    token.stop ≤ other.start ∨ other.stop ≤ token.start := by
  obtain ⟨front, back, rfl⟩ := List.append_of_mem hmem
  rcases List.mem_append.1 hother with hother | hother
  · exact .inr (h.stop_le_start hother (by simp))
  · rcases List.mem_cons.1 hother with rfl | hother
    · exact absurd rfl hne
    · have h' : Ordered ((front ++ [token]) ++ back) := by simpa using h
      exact .inl (h'.stop_le_start (by simp) hother)

end Ordered

/-- A token starts no earlier than the scan, and takes some bytes. Counterpart of
`Scan.tokensFrom`. -/
theorem Scan.start_ge_of_mem {offset : Nat} {source : List Char} {token : Token}
    (h : token ∈ tokensFrom offset source) : offset ≤ token.start ∧ token.start < token.stop := by
  fun_induction tokensFrom offset source with
  | case1 => simp at h
  | case2 offset c rest _ ih =>
    have := ih h
    omega
  | case3 offset c rest _ kind length hnext lexeme ih =>
    have hlexeme : 0 < byteLength lexeme := by
      have := c.utf8Size_pos
      simp only [lexeme, byteLength]
      omega
    rcases List.mem_cons.1 h with rfl | h
    · simp only [Token.stop, Token.length]
      omega
    · have := ih h
      omega

/-- A token is inside the source. Counterpart of `Scan.tokensFrom`. -/
theorem Scan.stop_le_of_mem {offset : Nat} {source : List Char} {token : Token}
    (h : token ∈ tokensFrom offset source) : token.stop ≤ offset + byteLength source := by
  fun_induction tokensFrom offset source with
  | case1 => simp at h
  | case2 offset c rest _ ih =>
    have := ih h
    simp only [byteLength]
    omega
  | case3 offset c rest _ kind length hnext lexeme ih =>
    have hsplit : byteLength (c :: rest) = byteLength lexeme + byteLength (rest.drop length) := by
      rw [← byteLength_append]
      simp [lexeme]
    rw [hsplit]
    rcases List.mem_cons.1 h with rfl | h
    · simp only [Token.stop, Token.length]
      omega
    · have := ih h
      omega

/-- Each token stops before the next one starts. Counterpart of `Scan.tokensFrom`. -/
theorem Scan.pairwise_tokensFrom (offset : Nat) (source : List Char) :
    (tokensFrom offset source).Pairwise fun token next => token.stop ≤ next.start := by
  fun_induction tokensFrom offset source with
  | case1 => exact .nil
  | case2 offset c rest _ ih => exact ih
  | case3 offset c rest _ kind length hnext lexeme ih =>
    exact .cons (fun next hmem => (start_ge_of_mem hmem).1) ih

/-- The tokens of a source come one after the other. Counterpart of `tokenise`. -/
theorem ordered_tokenise (source : List Char) : Ordered (tokenise source) :=
  ⟨Scan.pairwise_tokensFrom 0 source, fun _ hmem => (Scan.start_ge_of_mem hmem).2⟩

/-- The tokens of the code come one after the other. Counterpart of `Program.tokens`. -/
theorem ordered_tokens (source : List Char) : Ordered (parse source).tokens :=
  (ordered_tokenise source).sublist List.filter_sublist

/-- A comment has the place and the text of its token. Counterpart of `Program.commentOf?`. -/
theorem Program.commentOf?_eq_some {token : Token} {comment : Comment}
    (h : commentOf? token = some comment) :
    token.kind.isComment = true ∧ comment.span = token.span ∧ comment.text = token.lexeme ∧
      comment.isBlock = decide (token.kind ≠ .comment) := by
  unfold commentOf? at h
  split at h
  · cases h
    exact ⟨‹_›, rfl, rfl, rfl⟩
  · cases h

/-- A comment is a token of the source. Counterpart of `Program.comments`. -/
theorem exists_token_of_comment {source : List Char} {comment : Comment}
    (h : comment ∈ (parse source).comments) :
    ∃ token ∈ tokenise source, token.kind.isComment = true ∧ comment.span = token.span ∧
      comment.text = token.lexeme ∧ comment.isBlock = decide (token.kind ≠ .comment) := by
  obtain ⟨token, hmem, htoken⟩ := List.mem_filterMap.1 h
  exact ⟨token, hmem, Program.commentOf?_eq_some htoken⟩

/-- A comment takes up some bytes. Counterpart of `Comment.span`. -/
theorem comment_start_lt_stop {source : List Char} {comment : Comment}
    (h : comment ∈ (parse source).comments) : comment.span.start < comment.span.stop := by
  obtain ⟨token, hmem, -, hspan, -⟩ := exists_token_of_comment h
  rw [hspan]
  exact (ordered_tokenise source).start_lt_stop token hmem

/-- The comments of a source come one after the other. Counterpart of `Program.comments`. -/
theorem pairwise_comments (source : List Char) :
    (parse source).comments.Pairwise fun comment next => comment.span.stop ≤ next.span.start := by
  refine List.Pairwise.filterMap Program.commentOf? ?_ (ordered_tokenise source).pairwise
  intro token next hle comment hcomment other hother
  obtain ⟨-, hspan, -⟩ := Program.commentOf?_eq_some hcomment
  obtain ⟨-, hspan', -⟩ := Program.commentOf?_eq_some hother
  rw [hspan, hspan']
  exact hle

/-- A comment is on one side of every token of the code. Counterpart of `Program.comments`. -/
theorem comment_apart {source : List Char} {comment : Comment} {token : Token}
    (h : comment ∈ (parse source).comments) (htoken : token ∈ (parse source).tokens) :
    comment.span.start < comment.span.stop ∧
      (token.stop ≤ comment.span.start ∨ comment.span.stop ≤ token.start) := by
  obtain ⟨other, hmem, hkind, hspan, -⟩ := exists_token_of_comment h
  obtain ⟨hmem', hcode⟩ := List.mem_filter.1 htoken
  have hordered := ordered_tokenise source
  have hne : token ≠ other := by
    rintro rfl
    simp [Program.isCode, hkind] at hcode
  rw [hspan]
  exact ⟨hordered.start_lt_stop other hmem, hordered.apart hmem' hmem hne⟩

end LuaFormatter
