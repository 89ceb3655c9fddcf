import LuaFormatter.Proofs.Spelling.Literal

/-!
# The quotes of a string

A string is written between the quotes for which it needs the fewest escapes. `stringValue` is what
a string stands for, with its quotes decoded, so the escapes that it needs between quotes of a kind
are the quotes of this kind in its value. `BestQuoted` collects what is asked of the text that is
written, and `bestQuoted_requote` says that every string gets such a text.
-/

namespace LuaFormatter

/-- The text is read as one string between quotes. -/
def IsString (text : List Char) : Prop :=
  tokenise text = [⟨.string, 0, text⟩]

instance (text : List Char) : Decidable (IsString text) :=
  inferInstanceAs (Decidable (_ = _))

/-- What a string stands for: its content with the quotes decoded and all other escapes kept. -/
def stringValue (text : List Char) : List Char :=
  decodeQuotes (literalContent text)

/-- One of the two characters that enclose strings. -/
def isQuote (c : Char) : Bool :=
  c == '"' || c == '\x27'

/-- The characters of a content, and whether each of them has a backslash. -/
def markEscapes : List Char → List (Bool × Char)
  | [] => []
  | ['\\'] => [(false, '\\')]
  | '\\' :: c :: rest => (true, c) :: markEscapes rest
  | c :: rest => (false, c) :: markEscapes rest

/-- The number of quotes in a content that have a backslash. -/
def escapedQuotes (content : List Char) : Nat :=
  (markEscapes content).countP fun (escaped, c) => escaped && isQuote c

/-- The text is a string with the value of another one, between the quotes that suit it best. -/
structure BestQuoted (style : QuoteStyle) (raw written : List Char) (quote : Char) : Prop where
  isString : IsString written
  value_eq : stringValue written = stringValue raw
  head_eq : written.head? = some quote
  /-- The value needs no fewer escapes between other quotes. -/
  fewest : ∀ other, isQuote other = true →
    (stringValue raw).count quote ≤ (stringValue raw).count other
  preferred : (stringValue raw).count style.preferred = (stringValue raw).count style.alternate →
    quote = style.preferred
  escaped_iff : ∀ escaped c, (escaped, c) ∈ markEscapes (literalContent written) →
    isQuote c = true → (escaped = true ↔ c = quote)
  /-- No string with this value has fewer escaped quotes. -/
  escapes_le : ∀ other, IsString other → stringValue other = stringValue raw →
    escapedQuotes (literalContent written) ≤ escapedQuotes (literalContent other)
  stable : requote style written = written

/-- There are two quotes. Counterpart of `isQuote`. -/
theorem isQuote_iff {c : Char} : isQuote c = true ↔ c = '"' ∨ c = '\x27' := by
  simp [isQuote]

/-! ## Texts that are strings -/

/-- A text that is one string is read as such, whatever follows it. Counterpart of `IsString`. -/
theorem isString_iff_reads {text : List Char} : IsString text ↔ Scan.Reads .string text := by
  constructor
  · intro h
    have hmem : (⟨.string, 0, text⟩ : Token) ∈ tokenise text := by
      rw [h]
      exact List.mem_singleton.2 rfl
    exact Scan.reads_of_mem hmem rfl
  · rintro ⟨first, rest, rfl, hskipped, hnext⟩
    have hnext := hnext true [] (by simp [Kind.EndsBefore])
    rw [List.append_nil] at hnext
    rw [IsString, tokenise, Scan.tokensFrom, if_neg (by simp [hskipped])]
    simp only [BEq.rfl, hnext, List.take_length, List.drop_length]
    rw [Scan.tokensFrom]

/-- The content of a string is what stands between its quotes. Counterpart of `literalContent`. -/
theorem literalContent_quoted (quote : Char) (content : List Char) :
    literalContent (quote :: (content ++ [quote])) = content := by
  simp [literalContent]

/-! ## Counting quotes -/

section
variable {c quote enclosing inner : Char} {content rest : List Char}

/-- A character that is no backslash has none before it. Counterpart of `markEscapes`. -/
theorem markEscapes_cons (hc : c ≠ '\\') :
    markEscapes (c :: rest) = (false, c) :: markEscapes rest := by
  rw [markEscapes]
  · exact fun h => absurd h hc
  · exact fun _ _ h => absurd h hc

/-- A content has the quotes of its value, with or without a backslash. Counterpart of
`decodeQuotes`. -/
theorem count_decodeQuotes (hquote : quote ≠ '\\') (content : List Char) :
    (decodeQuotes content).count quote = content.count quote := by
  fun_induction decodeQuotes content with
  | case1 | case2 => rfl
  | case3 c rest _ ih => simp [List.count_cons, ih, hquote.symm]
  | case4 c rest _ ih => simp [List.count_cons, ih]
  | case5 c rest _ _ ih => simp [List.count_cons, ih]

/-- Between quotes of a kind, a quote of this kind has a backslash. Counterpart of
`escapedQuotes`. -/
theorem count_le_escapedQuotes (hquote : isQuote quote = true) (h : IsContent quote content) :
    content.count quote ≤ escapedQuotes content := by
  have hplain := (ne_of_quote (isQuote_iff.1 hquote)).1
  unfold escapedQuotes
  fun_induction markEscapes content with
  | case1 => simp
  | case2 => exact h.elim
  | case3 c rest ih =>
    have hrest := ih h
    by_cases hsame : c = quote
    · simpa [hsame, hquote, hplain.symm] using hrest
    · rw [List.count_cons_of_ne hplain.symm, List.count_cons_of_ne hsame, List.countP_cons]
      exact Nat.le_add_right_of_le hrest
  | case4 c rest hnil hcons ih =>
    obtain ⟨-, hne, hrest⟩ := (isContent_cons (ne_escape hnil hcons)).1 h
    simpa [List.count_cons, hne] using ih hrest

/-- Where the quotes of one kind are the ones with a backslash, these are all that have one.
Counterpart of `escapedQuotes`. -/
theorem escapedQuotes_eq (h : ∀ escaped c, (escaped, c) ∈ markEscapes content → isQuote c = true →
    (escaped = true ↔ c = quote)) (hquote : isQuote quote = true) :
    escapedQuotes content = content.count quote := by
  have hplain := (ne_of_quote (isQuote_iff.1 hquote)).1
  unfold escapedQuotes
  fun_induction markEscapes content with
  | case1 => rfl
  | case2 => simp [isQuote, hplain.symm]
  | case3 c rest ih =>
    have hc := h true c List.mem_cons_self
    have hrest := ih fun escaped d hd => h escaped d (List.mem_cons_of_mem _ hd)
    by_cases hsame : c = quote
    · simp [hrest, hsame, hquote, hplain.symm]
    · have hother : isQuote c = false := Bool.eq_false_iff.2 fun hc' => hsame ((hc hc').1 rfl)
      simp [hrest, hsame, hother, hplain.symm]
  | case4 c rest hnil hcons ih =>
    have hc := h false c List.mem_cons_self
    have hrest := ih fun escaped d hd => h escaped d (List.mem_cons_of_mem _ hd)
    have hne : c ≠ quote := by
      rintro rfl
      exact absurd ((hc hquote).2 rfl) (by decide)
    simp [hrest, hne]

/-! ## Writing the quotes -/

/-- The quotes that enclose a string have a backslash inside it, the others have none. Counterpart
of `escapeQuotes`. -/
theorem escaped_iff_of_mem_escapeQuotes (hinner : inner ≠ '\\')
    (hne : inner ≠ enclosing) (hquotes : ∀ c, isQuote c = true → c = enclosing ∨ c = inner) :
    ∀ escaped c, (escaped, c) ∈ markEscapes (escapeQuotes enclosing inner content) →
      isQuote c = true →
      (escaped = true ↔ c = enclosing) := by
  fun_induction escapeQuotes enclosing inner content with
  | case1 => simp [markEscapes]
  | case2 => simp [markEscapes, isQuote]
  | case3 rest ih =>
    rw [markEscapes_cons hinner]
    rintro escaped c hmem hc
    rcases List.mem_cons.1 hmem with heq | hmem
    · cases heq
      simp [hne]
    · exact ih escaped c hmem hc
  | case4 d rest hd ih =>
    rw [markEscapes]
    rintro escaped c hmem hc
    rcases List.mem_cons.1 hmem with heq | hmem
    · cases heq
      simpa using (hquotes _ hc).resolve_right hd
    · exact ih escaped c hmem hc
  | case5 rest hnil hcons ih =>
    rw [markEscapes]
    rintro escaped c hmem hc
    rcases List.mem_cons.1 hmem with heq | hmem
    · cases heq
      simp
    · exact ih escaped c hmem hc
  | case6 d rest hnil hcons hd ih =>
    rw [markEscapes_cons (ne_escape hnil hcons)]
    rintro escaped c hmem hc
    rcases List.mem_cons.1 hmem with heq | hmem
    · cases heq
      simp [hd]
    · exact ih escaped c hmem hc

/-- A content with these backslashes stays as it is. Counterpart of `escapeQuotes`. -/
theorem escapeQuotes_eq_self (henclosing : isQuote enclosing = true) (hinner : isQuote inner = true)
    (hne : inner ≠ enclosing)
    (h : ∀ escaped c, (escaped, c) ∈ markEscapes content → isQuote c = true →
      (escaped = true ↔ c = enclosing)) :
    escapeQuotes enclosing inner content = content := by
  fun_induction escapeQuotes enclosing inner content with
  | case1 | case2 => rfl
  | case3 rest ih =>
    have hmem : (true, inner) ∈ markEscapes ('\\' :: inner :: rest) := by
      rw [markEscapes]
      exact List.mem_cons_self
    exact absurd ((h true inner hmem hinner).1 rfl) hne
  | case4 c rest _ ih =>
    rw [ih fun escaped d hd => h escaped d (by rw [markEscapes]; exact List.mem_cons_of_mem _ hd)]
  | case5 rest hnil hcons ih =>
    have hmem : (false, enclosing) ∈ markEscapes (enclosing :: rest) := by
      rw [markEscapes_cons (ne_escape hnil hcons)]
      exact List.mem_cons_self
    exact absurd ((h false enclosing hmem henclosing).2 rfl) (by decide)
  | case6 c rest hnil hcons _ ih =>
    rw [ih fun escaped d hd => h escaped d (by
      rw [markEscapes_cons (ne_escape hnil hcons)]
      exact List.mem_cons_of_mem _ hd)]

end

/-! ## The choice of quotes -/

namespace QuoteStyle

variable {style : QuoteStyle} {content other : List Char}

/-- The preferred quote is a quote. Counterpart of `QuoteStyle.preferred`. -/
theorem isQuote_preferred : isQuote style.preferred = true := by
  cases style <;> rfl

/-- The other quote is a quote. Counterpart of `QuoteStyle.alternate`. -/
theorem isQuote_alternate : isQuote style.alternate = true := by
  cases style <;> rfl

/-- Strings are enclosed in quotes. Counterpart of `QuoteStyle.enclosing`. -/
theorem isQuote_enclosing : isQuote (style.enclosing content) = true := by
  rcases style.enclosing_inner content with ⟨h, -⟩ | ⟨h, -⟩ <;> rw [h] <;> rfl

/-- The quote that needs no backslash is a quote. Counterpart of `QuoteStyle.inner`. -/
theorem isQuote_inner : isQuote (style.inner content) = true := by
  rcases style.enclosing_inner content with ⟨-, h⟩ | ⟨-, h⟩ <;> rw [h] <;> rfl

/-- The quote that needs no backslash is not the enclosing one. Counterpart of
`QuoteStyle.inner`. -/
theorem inner_ne_enclosing : style.inner content ≠ style.enclosing content := by
  rcases style.enclosing_inner content with ⟨h, h'⟩ | ⟨h, h'⟩ <;> rw [h, h'] <;> decide

/-- There are no other quotes. Counterpart of `isQuote`. -/
theorem eq_of_isQuote {c : Char} (h : isQuote c = true) :
    c = style.enclosing content ∨ c = style.inner content := by
  rcases style.enclosing_inner content with ⟨h₁, h₂⟩ | ⟨h₁, h₂⟩ <;> rw [h₁, h₂]
  · exact isQuote_iff.1 h
  · exact (isQuote_iff.1 h).symm

/-- The choice depends on the numbers of quotes only. Counterpart of `QuoteStyle.enclosing`. -/
theorem enclosing_congr (h : ∀ c, isQuote c = true → other.count c = content.count c) :
    style.enclosing other = style.enclosing content ∧ style.inner other = style.inner content := by
  unfold enclosing inner
  rw [h _ isQuote_preferred, h _ isQuote_alternate]
  exact ⟨rfl, rfl⟩

/-- The quotes that enclose a content are not more than the others in it. Counterpart of
`QuoteStyle.enclosing`. -/
theorem count_enclosing_le {c : Char} (h : isQuote c = true) :
    content.count (style.enclosing content) ≤ content.count c := by
  have hstyle : c = style.preferred ∨ c = style.alternate := by
    cases style
    · exact isQuote_iff.1 h
    · exact (isQuote_iff.1 h).symm
  unfold enclosing
  split <;> rcases hstyle with rfl | rfl <;> omega

/-- With as many quotes of both kinds the preferred one encloses. Counterpart of
`QuoteStyle.enclosing`. -/
theorem enclosing_of_count_eq (h : content.count style.preferred = content.count style.alternate) :
    style.enclosing content = style.preferred := by
  unfold enclosing
  rw [if_neg (by omega)]

end QuoteStyle

/-- A string between its new quotes. Counterpart of `requote`. -/
theorem requote_quoted (style : QuoteStyle) (quote : Char) (content : List Char) :
    requote style (quote :: (content ++ [quote])) = style.enclosing content ::
      (escapeQuotes (style.enclosing content) (style.inner content) content ++
        [style.enclosing content]) := by
  unfold requote
  rw [if_neg (by simp), literalContent_quoted]

section
variable (style : QuoteStyle) (content : List Char)

/-- Of the quotes in a requoted content those are escaped that enclose it. Counterpart of
`escapeQuotes`. -/
theorem escaped_iff_enclosing : ∀ escaped c,
    (escaped, c) ∈ markEscapes (escapeQuotes (style.enclosing content)
        (style.inner content) content) →
      isQuote c = true → (escaped = true ↔ c = style.enclosing content) :=
  escaped_iff_of_mem_escapeQuotes (ne_of_quote (isQuote_iff.1 style.isQuote_inner)).1
    style.inner_ne_enclosing fun _ => style.eq_of_isQuote

/-- Requoting keeps what the content stands for. Counterpart of `escapeQuotes`. -/
theorem decodeQuotes_requoted :
    decodeQuotes (escapeQuotes (style.enclosing content) (style.inner content) content) =
      decodeQuotes content :=
  decodeQuotes_escapeQuotes (isQuote_iff.1 style.isQuote_inner)
  (isQuote_iff.1 style.isQuote_enclosing) content

/-- New quotes do not change how often a quote occurs. Counterpart of `escapeQuotes`. -/
theorem count_requoted {c : Char} (hc : isQuote c = true) :
    (escapeQuotes (style.enclosing content) (style.inner content) content).count c =
      content.count c := by
  have hplain := (ne_of_quote (isQuote_iff.1 hc)).1
  rw [← count_decodeQuotes hplain, decodeQuotes_requoted, count_decodeQuotes hplain]

/-- A second time the same quotes are chosen, and they are escaped already. Counterpart of
`requote`. -/
theorem requote_requote (quote : Char) :
    requote style (requote style (quote :: (content ++ [quote]))) =
      requote style (quote :: (content ++ [quote])) := by
  obtain ⟨henclosing, hinner⟩ := style.enclosing_congr (fun c => count_requoted style content)
  rw [requote_quoted, requote_quoted, henclosing, hinner]
  rw [escapeQuotes_eq_self style.isQuote_enclosing style.isQuote_inner style.inner_ne_enclosing
    (escaped_iff_enclosing style content)]

/-- No string with the value of the content has fewer escapes than there are quotes to escape.
Counterpart of `escapedQuotes`. -/
theorem count_enclosing_le_escapedQuotes {other : List Char} (hother : IsString other)
    (hvalue : stringValue other = decodeQuotes content) :
    content.count (style.enclosing content) ≤ escapedQuotes (literalContent other) := by
  obtain ⟨outer, inside, houter, rfl, hinside⟩ := (isString_iff_reads.1 hother).exists_isContent
  have hplain := (ne_of_quote houter).1
  rw [stringValue, literalContent_quoted] at hvalue
  rw [literalContent_quoted]
  calc content.count (style.enclosing content)
      ≤ content.count outer := style.count_enclosing_le (isQuote_iff.2 houter)
    _ = inside.count outer := by
      rw [← count_decodeQuotes hplain, ← hvalue, count_decodeQuotes hplain]
    _ ≤ escapedQuotes inside := count_le_escapedQuotes (isQuote_iff.2 houter) hinside

end

/-- Every string is written as the best string with its value. Counterpart of `requote`. -/
theorem bestQuoted_requote {raw : List Char} (h : IsString raw) (style : QuoteStyle) :
    ∃ quote, BestQuoted style raw (requote style raw) quote := by
  obtain ⟨quote, content, -, rfl, hcontent⟩ := (isString_iff_reads.1 h).exists_isContent
  have hvalue : stringValue (quote :: (content ++ [quote])) = decodeQuotes content := by
    rw [stringValue, literalContent_quoted]
  have hcount : ∀ {c : Char}, isQuote c = true → (decodeQuotes content).count c = content.count c :=
    fun hc => count_decodeQuotes (ne_of_quote (isQuote_iff.1 hc)).1 content
  have henclosing : isQuote (style.enclosing content) = true := style.isQuote_enclosing
  have hother : isQuote (style.inner content) = true := style.isQuote_inner
  have hinner := ne_of_quote (isQuote_iff.1 hother)
  refine ⟨style.enclosing content, ?_⟩
  exact {
    isString := by
      rw [requote_quoted]
      exact isString_iff_reads.2 <| Scan.reads_content (isQuote_iff.1 henclosing)
        (isContent_escapeQuotes ⟨hinner.1, hinner.2, style.inner_ne_enclosing⟩ hcontent)
    value_eq := by
      rw [requote_quoted, hvalue, stringValue, literalContent_quoted, decodeQuotes_requoted]
    head_eq := by rw [requote_quoted]; rfl
    fewest := by
      intro other hother
      rw [hvalue, hcount henclosing, hcount hother]
      exact style.count_enclosing_le hother
    preferred := by
      intro htie
      rw [hvalue, hcount style.isQuote_preferred, hcount style.isQuote_alternate] at htie
      exact style.enclosing_of_count_eq htie
    escaped_iff := by
      rw [requote_quoted, literalContent_quoted]
      exact escaped_iff_enclosing style content
    escapes_le := by
      intro other hother hsame
      rw [requote_quoted, literalContent_quoted,
        escapedQuotes_eq (escaped_iff_enclosing style content) henclosing,
        count_requoted _ _ henclosing]
      exact count_enclosing_le_escapedQuotes style content hother (hsame.trans hvalue)
    stable := requote_requote style content quote }

/-- A string with escaped and bare quotes of both kinds, next to other escapes. -/
theorem bestQuoted_requote_mixed :
    IsString "'\\\\\"\\'\\\\\\'\\\"\\é\"'".toList ∧
      requote .double "'\\\\\"\\'\\\\\\'\\\"\\é\"'".toList = "'\\\\\"\\'\\\\\\'\"\\é\"'".toList ∧
      ∃ quote, BestQuoted .double "'\\\\\"\\'\\\\\\'\\\"\\é\"'".toList
        (requote .double "'\\\\\"\\'\\\\\\'\\\"\\é\"'".toList) quote := by
  have hstring : IsString "'\\\\\"\\'\\\\\\'\\\"\\é\"'".toList := by decide +kernel
  exact ⟨hstring, by decide +kernel, bestQuoted_requote hstring .double⟩

end LuaFormatter
