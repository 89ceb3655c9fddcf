import LuaFormatter.Proofs.Grammar.ReadStatement
import LuaFormatter.Proofs.Token.Order

/-!
# Tokens and blanks make up a source

The scan passes over a source from its first character to its last, and every character goes into
the lexeme of a token or is a blank between two of them. `Scan.split_tokensFrom` cuts a source at
one of its tokens, and shows that the tokens after it are those of the text after it. From this
follow the places of tokens: they are stretches of whole characters, in order, and what is outside
all of them is blank (`tokenise_lossless`).
-/

namespace LuaFormatter

/-- Cutting a text after its front gives the front and the back. Counterpart of `cut?`. -/
theorem cut?_append (front back : List Char) :
    cut? (front ++ back) (byteLength front) = some (front, back) := by
  induction front with
  | nil => rw [List.nil_append, byteLength, cut?]
  | cons c front ih =>
    obtain ⟨size, hsize⟩ := Nat.exists_eq_succ_of_ne_zero (Nat.ne_of_gt c.utf8Size_pos)
    have hlength : byteLength (c :: front) = size + byteLength front + 1 := by
      rw [byteLength]
      omega
    have hrest : size + byteLength front + 1 - c.utf8Size = byteLength front := by omega
    rw [List.cons_append, hlength, cut?, if_pos (by omega), hrest, ih]
    rfl

/-- The text of a span is what stands between its ends. Counterpart of `Span.text?`. -/
theorem Span.text?_append (front middle back : List Char) :
    (Span.mk (byteLength front) (byteLength front + byteLength middle)).text?
      (front ++ (middle ++ back)) = some middle := by
  unfold Span.text?
  rw [if_pos (Nat.le_add_right _ _)]
  dsimp only
  rw [cut?_append, Option.bind_some, Nat.add_sub_cancel_left, cut?_append]
  rfl

@[simp] theorem utf8_cons (c : Char) (rest : List Char) :
    utf8 (c :: rest) = String.utf8EncodeChar c ++ utf8 rest := rfl

@[simp] theorem utf8_append (front back : List Char) :
    utf8 (front ++ back) = utf8 front ++ utf8 back :=
  List.flatMap_append

@[simp] theorem length_utf8 (source : List Char) : (utf8 source).length = byteLength source := by
  induction source with
  | nil => rfl
  | cons c rest ih =>
    rw [utf8_cons, List.length_append, ih, String.length_utf8EncodeChar, byteLength]

namespace Scan

/-- A source is cut at one of its tokens: what comes before it, the token, and the text that the
tokens after it are read from. Counterpart of `tokensFrom`. -/
theorem split_tokensFrom {offset : Nat} {source : List Char} {front back : List Token}
    {token : Token} (h : tokensFrom offset source = front ++ token :: back) :
    ∃ before after, source = before ++ (token.lexeme ++ after) ∧
      token.start = offset + byteLength before ∧ back = tokensFrom token.stop after := by
  fun_induction tokensFrom offset source generalizing front with
  | case1 => simp at h
  | case2 offset c rest _ ih =>
    obtain ⟨before, after, rfl, hstart, hback⟩ := ih h
    refine ⟨c :: before, after, rfl, ?_, hback⟩
    rw [hstart, byteLength, Nat.add_assoc]
  | case3 =>
    rename_i offset c rest _ kind length _ lexeme ih
    cases front with
    | nil =>
      obtain ⟨rfl, rfl⟩ := List.cons.inj h
      exact ⟨[], rest.drop length, by simp [lexeme], rfl, rfl⟩
    | cons first front =>
      obtain ⟨rfl, htail⟩ := List.cons.inj h
      obtain ⟨before, after, hrest, hstart, hback⟩ := ih htail
      refine ⟨lexeme ++ before, after, ?_, ?_, hback⟩
      · rw [List.append_assoc, ← hrest]
        simp [lexeme]
      · rw [hstart, byteLength_append, Nat.add_assoc]

/-- The bytes that may stand between two tokens: blanks and the ends of lines and pages. -/
def skippedBytes : List UInt8 :=
  [0x20, 0x09, 0x0D, 0x0A, 0x0B, 0x0C]

/-- A character that may stand between two tokens takes one byte. Counterpart of `isSkipped`. -/
theorem exists_byte_of_isSkipped {c : Char} (h : isSkipped c = true) :
    ∃ byte ∈ skippedBytes, String.utf8EncodeChar c = [byte] := by
  simp only [isSkipped, Bool.or_eq_true, beq_iff_eq] at h
  rcases h with ((((rfl | rfl) | rfl) | rfl) | rfl) | rfl
  all_goals decide +kernel

/-- A byte outside all tokens is one of those that may stand between tokens. Counterpart of
`skippedBytes`. -/
theorem mem_skippedBytes_of_outside {offset index : Nat} {source : List Char}
    (hindex : index < byteLength source)
    (houtside : ∀ token ∈ tokensFrom offset source,
      ¬(token.start ≤ offset + index ∧ offset + index < token.stop)) :
    ∃ byte ∈ skippedBytes, (utf8 source)[index]? = some byte := by
  fun_induction tokensFrom offset source generalizing index with
  | case1 => simp [byteLength] at hindex
  | case2 offset c rest hskipped ih =>
    obtain ⟨byte, hbyte, hutf8⟩ := exists_byte_of_isSkipped hskipped
    have hsize : c.utf8Size = 1 := by rw [← String.length_utf8EncodeChar, hutf8]; rfl
    rw [utf8_cons, hutf8]
    cases index with
    | zero => exact ⟨byte, hbyte, rfl⟩
    | succ index =>
      rw [byteLength] at hindex
      refine ih (by omega) fun token hmem => ?_
      have := houtside token hmem
      omega
  | case3 =>
    rename_i offset c rest _ kind length _ lexeme ih
    have hsource : c :: rest = lexeme ++ rest.drop length := by simp [lexeme]
    have hfirst := houtside _ List.mem_cons_self
    rw [hsource, byteLength_append] at hindex
    -- The index is past the first token, since it is outside of it.
    have hpast : byteLength lexeme ≤ index := by
      simp only [Token.stop, Token.length] at hfirst
      omega
    obtain ⟨byte, hbyte, hat⟩ := @ih (index - byteLength lexeme) (by omega) fun token hmem => by
      have := houtside token (List.mem_cons_of_mem _ hmem)
      omega
    refine ⟨byte, hbyte, ?_⟩
    rwa [hsource, utf8_append, List.getElem?_append_right (by simpa using hpast), length_utf8]

end Scan

/-- A token is a stretch of whole characters of its source, and its lexeme is the text there.
Counterpart of `Token.span`. -/
theorem text?_span_of_mem {source : List Char} {token : Token} (h : token ∈ tokenise source) :
    (cut? source token.start).isSome = true ∧ (cut? source token.stop).isSome = true ∧
      token.span.text? source = some token.lexeme := by
  obtain ⟨front, back, hsplit⟩ := List.append_of_mem h
  obtain ⟨before, after, rfl, hstart, -⟩ := Scan.split_tokensFrom hsplit
  rw [Nat.zero_add] at hstart
  have hstop : token.stop = byteLength (before ++ token.lexeme) := by
    rw [Token.stop, Token.length, hstart, byteLength_append]
  refine ⟨?_, ?_, ?_⟩
  · rw [hstart, cut?_append]
    rfl
  · rw [hstop, ← List.append_assoc, cut?_append]
    rfl
  · rw [Token.span, Token.stop, Token.length, hstart, Span.text?_append]

/-- The scan loses nothing of a source. Its tokens take up at least one byte each and lie inside the
source, one after the other; each is the text of whole characters, and none stands for the end of
the source. Every byte outside of them is a space, a tab, the end of a line or a page. Counterpart
of `tokenise`. -/
theorem tokenise_lossless (source : List Char) :
    (∀ token ∈ tokenise source,
      token.start < token.stop ∧ token.stop ≤ (utf8 source).length ∧
        (cut? source token.start).isSome = true ∧ (cut? source token.stop).isSome = true ∧
        token.span.text? source = some token.lexeme ∧ token.kind ≠ .endOfFile) ∧
      (tokenise source).Pairwise (fun token next => token.stop ≤ next.start) ∧
      ∀ index < (utf8 source).length,
        (∀ token ∈ tokenise source, ¬(token.start ≤ index ∧ index < token.stop)) →
          ∃ byte ∈ Scan.skippedBytes, (utf8 source)[index]? = some byte := by
  refine ⟨fun token hmem => ?_, (ordered_tokenise source).pairwise, fun index hindex houtside => ?_⟩
  · obtain ⟨hstart, hstop, htext⟩ := text?_span_of_mem hmem
    have hinside := Scan.stop_le_of_mem hmem
    rw [Nat.zero_add, ← length_utf8] at hinside
    exact ⟨(ordered_tokenise source).start_lt_stop token hmem, hinside, hstart, hstop, htext,
      kind_ne_endOfFile_of_mem hmem⟩
  · rw [length_utf8] at hindex
    refine @Scan.mem_skippedBytes_of_outside 0 index source hindex fun token hmem => ?_
    rw [Nat.zero_add]
    exact houtside token hmem

end LuaFormatter
