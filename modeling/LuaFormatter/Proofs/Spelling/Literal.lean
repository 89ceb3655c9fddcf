import LuaFormatter.Proofs.Spelling.Spell
import LuaFormatter.Proofs.Token.Reread

/-!
# Literals as they are written

A string is written with other quotes and with the line breaks of the style. It is still one token
(`Reads.exists_requote`, `Reads.rebreak`) with the same value: `decodeQuotes` reads escaped quotes
as quotes and keeps all other escapes, and `unifyBreaks` makes every line break a line feed.
-/

namespace LuaFormatter

/-! ## Line breaks -/

/-- A text whose line feeds are written as the line breaks of a style. -/
def Style.written (style : Style) (text : List Char) : List Char :=
  text.flatMap fun c => if c = '\n' then style.lineEnding.text else [c]

/-- A text with the line breaks of a style. A carriage return before a line feed is part of the line
break. -/
def Style.rebreak (style : Style) : List Char → List Char
  | [] => []
  | c :: rest =>
    if c = '\r' ∧ rest.head? = some '\n' then style.rebreak rest
    else if c = '\n' then style.lineEnding.text ++ style.rebreak rest
    else c :: style.rebreak rest

/-- A text whose line breaks are line feeds. -/
def unifyBreaks : List Char → List Char
  | [] => []
  | c :: rest =>
    if c = '\r' ∧ rest.head? = some '\n' then unifyBreaks rest else c :: unifyBreaks rest

/-- The lines of a text without the carriage returns at their ends. -/
def stripLines (text : List Char) : List Char :=
  ['\n'].intercalate ((text.splitOn '\n').map stripReturn)

/-- A character in front of the first of some lines. Counterpart of `List.intercalate`. -/
theorem intercalate_cons_head (c : Char) (line : List Char) (lines : List (List Char)) :
    ['\n'].intercalate ((c :: line) :: lines) = c :: ['\n'].intercalate (line :: lines) := by
  cases lines with
  | nil => simp
  | cons next lines => rw [List.intercalate_cons_cons, List.intercalate_cons_cons]; rfl

/-- A first character is stripped only if it is a carriage return at the end. Counterpart of
`stripReturn`. -/
theorem stripReturn_cons {c : Char} {line : List Char} (h : c = '\r' → line ≠ []) :
    stripReturn (c :: line) = c :: stripReturn line := by
  cases line with
  | nil =>
    have hc : c ≠ '\r' := fun hc => h hc rfl
    simp [stripReturn, hc]
  | cons d line =>
    unfold stripReturn
    rw [List.getLast?_cons_cons]
    split <;> rfl

/-- A line feed stands between two lines. Counterpart of `stripLines`. -/
theorem stripLines_newline (rest : List Char) :
    stripLines ('\n' :: rest) = '\n' :: stripLines rest := by
  obtain ⟨line, lines, hlines⟩ := List.exists_cons_of_ne_nil (List.splitOn_ne_nil '\n' rest)
  have hempty : stripReturn [] = [] := rfl
  rw [stripLines, stripLines, List.splitOn_cons_eq_if_modifyHead, if_pos BEq.rfl, hlines,
    List.map_cons, List.map_cons, List.intercalate_cons_cons, hempty]
  rfl

/-- A carriage return before a line feed is stripped. Counterpart of `stripLines`. -/
theorem stripLines_return (rest : List Char) :
    stripLines ('\r' :: '\n' :: rest) = stripLines ('\n' :: rest) := by
  rw [stripLines, stripLines, List.splitOn_cons_eq_if_modifyHead, if_neg (by decide),
    List.splitOn_cons_eq_if_modifyHead, if_pos BEq.rfl]
  rfl

/-- Any other character is kept. Counterpart of `stripLines`. -/
theorem stripLines_cons {c : Char} {rest : List Char} (hc : c ≠ '\n')
    (h : c = '\r' → ∃ d, rest.head? = some d ∧ d ≠ '\n') :
    stripLines (c :: rest) = c :: stripLines rest := by
  obtain ⟨line, lines, hlines⟩ := List.exists_cons_of_ne_nil (List.splitOn_ne_nil '\n' rest)
  have hline : c = '\r' → line ≠ [] := by
    intro hreturn
    obtain ⟨d, hd, hne⟩ := h hreturn
    obtain ⟨tail, rfl⟩ := List.head?_eq_some_iff.1 hd
    obtain ⟨first, others, hothers⟩ := List.exists_cons_of_ne_nil (List.splitOn_ne_nil '\n' tail)
    rw [List.splitOn_cons_eq_if_modifyHead, if_neg (by simpa using hne), hothers] at hlines
    rw [← (List.cons.inj hlines).1]
    exact List.cons_ne_nil d first
  rw [stripLines, stripLines, List.splitOn_cons_eq_if_modifyHead, if_neg (by simpa using hc),
    hlines, List.modifyHead_cons, List.map_cons, List.map_cons, stripReturn_cons hline,
    intercalate_cons_head]

/-- Lines without the carriage returns at their ends are what is printed of a verbatim text.
Counterpart of `verbatimText`. -/
theorem stripLines_eq_verbatimText {text : List Char} (h : text.getLast? ≠ some '\r') :
    stripLines text = verbatimText text := by
  unfold verbatimText
  split
  · rfl
  · rename_i hbreak
    have hmem : '\n' ∉ text := by simpa using hbreak
    rw [stripLines, List.splitOn_eq_singleton hmem, List.map_singleton]
    simp [stripReturn, h]

/-- The stripped lines, written with the line breaks of a style, are the text with these.
Counterpart of `Style.rebreak`. -/
theorem written_stripLines (style : Style) : ∀ {text : List Char}, text.getLast? ≠ some '\r' →
    style.written (stripLines text) = style.rebreak text
  | [], _ => rfl
  | c :: rest, hlast => by
    have hrest : rest.getLast? ≠ some '\r' := by
      intro hrest
      rw [List.getLast?_cons, hrest] at hlast
      exact hlast rfl
    have ih := written_stripLines style hrest
    rw [Style.rebreak]
    split
    · rename_i hreturn
      obtain ⟨tail, rfl⟩ := List.head?_eq_some_iff.1 hreturn.2
      rw [hreturn.1, stripLines_return, ih]
    · rename_i hreturn
      split
      · rename_i hline
        rw [hline, stripLines_newline, ← ih]
        simp [Style.written]
      · rename_i hline
        have hnext : c = '\r' → ∃ d, rest.head? = some d ∧ d ≠ '\n' := by
          rintro rfl
          cases rest with
          | nil => exact absurd rfl hlast
          | cons d rest => exact ⟨d, rfl, fun hd => hreturn ⟨rfl, by rw [hd]; rfl⟩⟩
        rw [stripLines_cons hline hnext, ← ih]
        simp [Style.written, hline]

/-- A literal is written with the line breaks of the style. Counterpart of `verbatimText`. -/
theorem written_verbatimText (style : Style) {text : List Char} (h : text.getLast? ≠ some '\r') :
    style.written (verbatimText text) = style.rebreak text := by
  rw [← stripLines_eq_verbatimText h, written_stripLines style h]

/-- A line feed at the start of a text with other line breaks was there before, or it was a line
break of two characters. Counterpart of `Style.rebreak`. -/
theorem head_rebreak {style : Style} {text : List Char}
    (h : (style.rebreak text).head? = some '\n') :
    text.head? = some '\n' ∨ style.lineEnding.text = ['\n'] ∧ ['\r', '\n'] <+: text := by
  cases text with
  | nil => cases h
  | cons c rest =>
    rw [Style.rebreak] at h
    split at h
    · rename_i hreturn
      obtain ⟨tail, rfl⟩ := List.head?_eq_some_iff.1 hreturn.2
      rw [Style.rebreak, if_neg (by simp), if_pos rfl] at h
      refine .inr ⟨?_, tail, by rw [hreturn.1]; rfl⟩
      cases hstyle : style.lineEnding <;> simp_all [LineEnding.text]
    · split at h
      · rename_i hline
        exact .inl (congrArg some hline)
      · exact .inl h

/-- The line breaks of a style are line breaks. Where they are line feeds, a carriage return before
a line break of two characters would become part of it. Counterpart of `unifyBreaks`. -/
theorem unifyBreaks_rebreak {style : Style} {text : List Char}
    (h : style.lineEnding.text ≠ ['\n'] ∨ ¬['\r', '\r', '\n'] <:+: text) :
    unifyBreaks (style.rebreak text) = unifyBreaks text := by
  induction text with
  | nil => rfl
  | cons c rest ih =>
    have hrest :=
      ih (h.imp id fun hmem hrest => hmem (hrest.trans (List.suffix_cons c rest).isInfix))
    rw [Style.rebreak]
    split
    · rename_i hreturn
      rw [hrest, unifyBreaks, if_pos hreturn]
    · rename_i hreturn
      rw [unifyBreaks, if_neg hreturn, ← hrest]
      split
      · rename_i hline
        cases style.lineEnding <;> simp [LineEnding.text, unifyBreaks, hline]
      · rw [unifyBreaks, if_neg]
        rintro ⟨rfl, hbreak⟩
        rcases head_rebreak hbreak with hline | ⟨hstyle, hline⟩
        · exact hreturn ⟨rfl, hline⟩
        · exact h.elim (· hstyle) (· (List.cons_prefix_cons.2 ⟨rfl, hline⟩).isInfix)

/-- No carriage return stands before a line feed. -/
def NoReturns : List Char → Prop
  | [] => True
  | c :: rest => (c = '\r' → rest.head? ≠ some '\n') ∧ NoReturns rest

/-- A text without carriage returns has line feeds already. Counterpart of `unifyBreaks`. -/
theorem unifyBreaks_eq_self {text : List Char} (h : NoReturns text) : unifyBreaks text = text := by
  induction text with
  | nil => rfl
  | cons c rest ih => rw [unifyBreaks, if_neg fun hreturn => h.1 hreturn.1 hreturn.2, ih h.2]

/-- A text without carriage returns before line feeds is written as it is, in a style that ends
lines by line feeds or if it has only one line. Counterpart of `Style.rebreak`. -/
theorem rebreak_eq_self {style : Style} {text : List Char}
    (hstyle : style.lineEnding.text = ['\n'] ∨ '\n' ∉ text) (h : NoReturns text) :
    style.rebreak text = text := by
  induction text with
  | nil => rfl
  | cons c rest ih =>
    have hrest : style.rebreak rest = rest :=
      ih (hstyle.imp id fun hmem hrest => hmem (List.mem_cons_of_mem _ hrest)) h.2
    rw [Style.rebreak, if_neg fun hreturn => h.1 hreturn.1 hreturn.2, hrest]
    split
    · rename_i hline
      rcases hstyle with hstyle | hmem
      · rw [hstyle, hline]
        rfl
      · exact absurd (by simp [hline]) hmem
    · rfl

/-! ## Quotes -/

/-- The value of the content of a string: an escaped quote is a quote, and any other escape is
kept. -/
def decodeQuotes : List Char → List Char
  | [] => []
  | ['\\'] => ['\\']
  | '\\' :: c :: rest =>
    if c = '"' ∨ c = '\x27' then c :: decodeQuotes rest else '\\' :: c :: decodeQuotes rest
  | c :: rest => c :: decodeQuotes rest

/-- The text can stand between two quotes of a kind. -/
def IsContent (quote : Char) : List Char → Prop
  | [] => True
  | ['\\'] => False
  | '\\' :: _ :: rest => IsContent quote rest
  | c :: rest => c ≠ '\n' ∧ c ≠ quote ∧ IsContent quote rest

/-- The last case of the functions on contents is about characters that escape nothing. Counterpart
of `IsContent`. -/
theorem ne_escape {c : Char} {rest : List Char} (hnil : c = '\\' → rest = [] → False)
    (hcons : ∀ head tail, c = '\\' → rest = head :: tail → False) : c ≠ '\\' := by
  intro hc
  cases rest with
  | nil => exact hnil hc rfl
  | cons head tail => exact hcons head tail hc rfl

section
variable {c quote enclosing inner : Char} {content rest : List Char}

/-- A character that is no backslash can stand between quotes if it breaks no line and is not the
quote. Counterpart of `IsContent`. -/
theorem isContent_cons (hc : c ≠ '\\') :
    IsContent quote (c :: rest) ↔ c ≠ '\n' ∧ c ≠ quote ∧ IsContent quote rest := by
  rw [IsContent]
  · exact fun h => absurd h hc
  · exact fun _ _ h => absurd h hc

/-- A character that is no backslash stands for itself. Counterpart of `decodeQuotes`. -/
theorem decodeQuotes_cons (hc : c ≠ '\\') : decodeQuotes (c :: rest) = c :: decodeQuotes rest := by
  rw [decodeQuotes]
  · exact fun h => absurd h hc
  · exact fun _ _ h => absurd h hc

/-- A string that is read as a whole is its content and a quote. Counterpart of
`Scan.quotedLength`. -/
theorem exists_isContent (h : Scan.quotedLength quote content = (true, content.length)) :
    ∃ inside, content = inside ++ [quote] ∧ IsContent quote inside := by
  fun_induction Scan.quotedLength quote content with
  | case1 | case2 | case4 => simp at h
  | case3 =>
    rename_i c rest closed length hinner ih
    obtain ⟨inside, rfl, hinside⟩ := ih (by rw [hinner]; simpa using h)
    exact ⟨'\\' :: c :: inside, rfl, hinside⟩
  | case5 =>
    rename_i rest hnil hcons hline
    obtain rfl : rest = [] := by simpa using h.symm
    exact ⟨[], rfl, trivial⟩
  | case6 =>
    rename_i c rest hnil hcons hline hquote closed length hinner ih
    obtain ⟨inside, rfl, hinside⟩ := ih (by rw [hinner]; simpa using h)
    exact ⟨c :: inside, rfl, (isContent_cons (ne_escape hnil hcons)).2 ⟨hline, hquote, hinside⟩⟩

/-- A content between two quotes is a string. Counterpart of `Scan.quotedLength`. -/
theorem quotedLength_content (hquote : quote ≠ '\\' ∧ quote ≠ '\n') (h : IsContent quote content) :
    Scan.quotedLength quote (content ++ [quote]) = (true, (content ++ [quote]).length) := by
  fun_induction IsContent quote content with
  | case1 =>
    rw [List.nil_append, Scan.quotedLength_cons hquote.1, if_neg hquote.2, if_pos rfl]
    rfl
  | case2 => exact h.elim
  | case3 c rest ih =>
    rw [List.cons_append, List.cons_append, Scan.quotedLength_escape, ih h]
    rfl
  | case4 c rest hnil hcons ih =>
    rw [List.cons_append, Scan.quotedLength_cons (ne_escape hnil hcons), if_neg h.1, if_neg h.2.1,
      ih h.2.2]
    rfl

/-- Other quotes make another content. Counterpart of `escapeQuotes`. -/
theorem isContent_escapeQuotes (hinner : inner ≠ '\\' ∧ inner ≠ '\n' ∧ inner ≠ enclosing)
    (h : IsContent quote content) : IsContent enclosing (escapeQuotes enclosing inner content) := by
  fun_induction escapeQuotes enclosing inner content with
  | case1 => trivial
  | case2 => exact h.elim
  | case3 rest ih => exact (isContent_cons hinner.1).2 ⟨hinner.2.1, hinner.2.2, ih h⟩
  | case4 c rest _ ih => exact ih h
  | case5 rest hnil hcons ih => exact ih ((isContent_cons (ne_escape hnil hcons)).1 h).2.2
  | case6 c rest hnil hcons hc ih =>
    have hplain := ne_escape hnil hcons
    obtain ⟨hline, -, hrest⟩ := (isContent_cons hplain).1 h
    exact (isContent_cons hplain).2 ⟨hline, hc, ih hrest⟩

/-- Other quotes keep the value. Counterpart of `escapeQuotes`. -/
theorem decodeQuotes_escapeQuotes (hinner : inner = '"' ∨ inner = '\x27')
    (henclosing : enclosing = '"' ∨ enclosing = '\x27') (content : List Char) :
    decodeQuotes (escapeQuotes enclosing inner content) = decodeQuotes content := by
  have hplain : inner ≠ '\\' := by rcases hinner with rfl | rfl <;> decide
  fun_induction escapeQuotes enclosing inner content with
  | case1 | case2 => rfl
  | case3 rest ih => rw [decodeQuotes_cons hplain, decodeQuotes, if_pos hinner, ih]
  | case4 c rest _ ih => rw [decodeQuotes, decodeQuotes, ih]
  | case5 rest hnil hcons ih =>
    rw [decodeQuotes, if_pos henclosing, ih, decodeQuotes_cons (ne_escape hnil hcons)]
  | case6 c rest hnil hcons hc ih =>
    have hplain := ne_escape hnil hcons
    rw [decodeQuotes_cons hplain, decodeQuotes_cons hplain, ih]

/-- What comes after the first quote is no line feed. Counterpart of `IsContent`. -/
theorem head_content (hquote : quote ≠ '\n') (h : IsContent quote content) :
    (content ++ [quote]).head? ≠ some '\n' := by
  fun_induction IsContent quote content with
  | case1 => simpa using hquote
  | case2 => exact h.elim
  | case3 => simp
  | case4 => simpa using h.1

/-- A string has no carriage return before a line feed: the line feed would be escaped. Counterpart
of `NoReturns`. -/
theorem noReturns_content (hquote : quote ≠ '\n') (h : IsContent quote content) :
    NoReturns (content ++ [quote]) := by
  fun_induction IsContent quote content with
  | case1 => exact ⟨fun _ => by simp, trivial⟩
  | case2 => exact h.elim
  | case3 c rest ih => exact ⟨by simp, fun _ => head_content hquote h, ih h⟩
  | case4 c rest hnil hcons ih => exact ⟨fun _ => head_content hquote h.2.2, ih h.2.2⟩

/-- Escaping adds nothing but backslashes. Counterpart of `escapeQuotes`. -/
theorem mem_escapeQuotes {d : Char} (h : d ∈ escapeQuotes enclosing inner content) :
    d ∈ content ∨ d = '\\' := by
  fun_induction escapeQuotes enclosing inner content with
  | case1 => cases h
  | case2 => exact .inl h
  | case3 rest ih =>
    rcases List.mem_cons.1 h with rfl | h
    · simp
    · exact (ih h).imp (by simp +contextual) id
  | case4 c rest _ ih =>
    simp only [List.mem_cons] at h ⊢
    rcases h with h | h | h
    · exact .inr h
    · simp [h]
    · exact (ih h).imp (by simp +contextual) id
  | case5 rest _ _ ih =>
    simp only [List.mem_cons] at h ⊢
    rcases h with h | h | h
    · exact .inr h
    · simp [h]
    · exact (ih h).imp (by simp +contextual) id
  | case6 c rest _ _ _ ih =>
    rcases List.mem_cons.1 h with rfl | h
    · simp
    · exact (ih h).imp (by simp +contextual) id

end

/-- One of the two quotes encloses the string, and the other one stands inside. Counterpart of
`QuoteStyle.enclosing`. -/
theorem QuoteStyle.enclosing_inner (style : QuoteStyle) (content : List Char) :
    (style.enclosing content = '"' ∧ style.inner content = '\x27') ∨
      (style.enclosing content = '\x27' ∧ style.inner content = '"') := by
  unfold enclosing inner
  cases style <;> split <;> simp [preferred, alternate]

/-- A quote is neither a backslash nor a line feed. Counterpart of `isQuote`. -/
theorem ne_of_quote {c : Char} (h : c = '"' ∨ c = '\x27') : c ≠ '\\' ∧ c ≠ '\n' := by
  rcases h with rfl | rfl <;> decide

/-! ## Tokens -/

namespace Scan

/-- A string is read from its first quote. Counterpart of `Scan.nextToken`. -/
theorem quoted_of_nextToken {atStart : Bool} {first : Char} {rest : List Char} {length : Nat}
    (h : nextToken atStart first rest = (.string, length)) :
    (first = '"' ∨ first = '\x27') ∧ quotedLength first rest = (true, length) := by
  unfold nextToken comment longString quoted word at h
  grind

/-- A long string is read up to a bracket of the level it starts with. Counterpart of
`Scan.nextToken`. -/
theorem longString_of_nextToken {atStart : Bool} {first : Char} {rest : List Char} {length : Nat}
    (h : nextToken atStart first rest = (.longString, length)) :
    ∃ level inner, bracketLevel? (first :: rest) = some level ∧
      bracketLength? level (rest.drop (level + 1)) = some inner ∧ length = level + 1 + inner := by
  unfold nextToken comment quoted word at h
  simp only [longString_eq] at h
  grind

/-- A string token is a quote, a content and the same quote. Counterpart of `Kind.string`. -/
theorem Reads.exists_isContent {raw : List Char} (h : Reads .string raw) :
    ∃ quote content, (quote = '"' ∨ quote = '\x27') ∧ raw = quote :: (content ++ [quote]) ∧
      IsContent quote content := by
  obtain ⟨first, rest, rfl, -, hnext⟩ := h
  have hnext := hnext false [] (by simp [Kind.EndsBefore])
  rw [List.append_nil] at hnext
  obtain ⟨hquote, hlength⟩ := quoted_of_nextToken hnext
  obtain ⟨content, rfl, hcontent⟩ := LuaFormatter.exists_isContent hlength
  exact ⟨first, content, hquote, rfl, hcontent⟩

/-- A long string token is a long bracket and a text up to the bracket that closes it. Counterpart
of `Kind.longString`. -/
theorem Reads.exists_longString {text : List Char} (h : Reads .longString text) :
    ∃ level rest, text = '[' :: (List.replicate level '=' ++ '[' :: rest) ∧
      bracketLength? level rest = some rest.length := by
  obtain ⟨first, rest, rfl, -, hnext⟩ := h
  have hnext := hnext false [] (by simp [Kind.EndsBefore])
  rw [List.append_nil] at hnext
  obtain ⟨level, inner, hlevel, hinner, hlength⟩ := longString_of_nextToken hnext
  obtain ⟨tail, hsource⟩ := exists_of_bracketLevel? hlevel
  obtain ⟨rfl, rfl⟩ := List.cons.inj hsource
  refine ⟨level, tail, rfl, ?_⟩
  have hdrop : (List.replicate level '=' ++ '[' :: tail).drop (level + 1) = tail := by
    rw [List.drop_append]
    simp
  rw [hdrop] at hinner
  rw [hinner]
  simp only [List.length_append, List.length_replicate, List.length_cons] at hlength
  congr 1
  omega

/-- A string with other quotes has the same value, and no new line breaks. Counterpart of
`requote`. -/
theorem Reads.exists_requote {raw : List Char} (h : Reads .string raw) (quotes : QuoteStyle) :
    ∃ quote content, (quote = '"' ∨ quote = '\x27') ∧
      requote quotes raw = quote :: (content ++ [quote]) ∧
      IsContent quote content ∧ decodeQuotes content = decodeQuotes (literalContent raw) ∧
      ('\n' ∈ content → '\n' ∈ raw) := by
  obtain ⟨quote, content, hquote, rfl, hcontent⟩ := h.exists_isContent
  have hinside : literalContent (quote :: (content ++ [quote])) = content := by
    simp [literalContent]
  obtain ⟨henclosing, hinner⟩ :
      (quotes.enclosing content = '"' ∨ quotes.enclosing content = '\x27') ∧
      (quotes.inner content = '"' ∨ quotes.inner content = '\x27') := by
    rcases quotes.enclosing_inner content with ⟨h, h'⟩ | ⟨h, h'⟩ <;> simp [h, h']
  have hne : quotes.inner content ≠ quotes.enclosing content := by
    rcases quotes.enclosing_inner content with ⟨h, h'⟩ | ⟨h, h'⟩ <;> rw [h, h'] <;> decide
  refine ⟨quotes.enclosing content,
    escapeQuotes (quotes.enclosing content) (quotes.inner content) content,
    henclosing, ?_, ?_, ?_, fun hline => ?_⟩
  · unfold requote
    rw [if_neg (by simp), hinside]
  · exact isContent_escapeQuotes ⟨(ne_of_quote hinner).1, (ne_of_quote hinner).2, hne⟩ hcontent
  · rw [hinside, decodeQuotes_escapeQuotes hinner henclosing]
  · rcases mem_escapeQuotes hline with hline | hline
    · simp [hline]
    · cases hline

section
variable {style : Style} {quote : Char} {content : List Char}

/-- What can stand between two quotes is read as a string with them. Counterpart of
`Scan.quotedLength`. -/
theorem reads_content (hquote : quote = '"' ∨ quote = '\x27') (h : IsContent quote content) :
    Reads .string (quote :: (content ++ [quote])) :=
  reads_string hquote (quotedLength_content (ne_of_quote hquote) h)

/-- A string is written as it is, in a style that ends lines by line feeds or if it has only one
line. Counterpart of `Style.written`. -/
theorem written_content (hquote : quote = '"' ∨ quote = '\x27') (h : IsContent quote content)
    (hstyle : style.lineEnding.text = ['\n'] ∨ '\n' ∉ content) :
    style.written (verbatimText (quote :: (content ++ [quote]))) =
      quote :: (content ++ [quote]) := by
  have hline := (ne_of_quote hquote).2
  have hlast : (quote :: (content ++ [quote])).getLast? ≠ some '\r' := by
    rw [← List.cons_append, List.getLast?_concat]
    rcases hquote with rfl | rfl <;> decide
  rw [written_verbatimText style hlast]
  refine rebreak_eq_self (hstyle.imp id fun hmem => ?_)
    ⟨fun _ => head_content hline h, noReturns_content hline h⟩
  simp [hmem, hline.symm]

end

/-! ## Long strings -/

section
variable {style : Style}

/-- Line breaks are rewritten where they stand. Counterpart of `Style.rebreak`. -/
theorem rebreak_append {front : List Char} (hfront : ∀ c ∈ front, c ≠ '\r' ∧ c ≠ '\n')
    (back : List Char) :
    style.rebreak (front ++ back) = front ++ style.rebreak back := by
  induction front with
  | nil => rfl
  | cons c front ih =>
    have hc := hfront c (by simp)
    rw [List.cons_append, Style.rebreak, if_neg fun h => hc.1 h.1, if_neg hc.2,
      ih fun d hd => hfront d (by simp [hd])]
    rfl

/-- A line ending starts with a character that breaks lines. Counterpart of `LineEnding.text`. -/
theorem head_lineEnding (style : Style) :
    ∃ c rest, style.lineEnding.text = c :: rest ∧ (c = '\r' ∨ c = '\n') := by
  cases style.lineEnding
  · exact ⟨'\n', [], rfl, .inr rfl⟩
  · exact ⟨'\r', ['\n'], rfl, .inl rfl⟩
  · exact ⟨'\n', [], rfl, .inr rfl⟩

/-- A line break goes on being one. Counterpart of `Style.rebreak`. -/
theorem head_rebreak_newline (rest : List Char) :
    ∃ c tail, style.rebreak ('\n' :: rest) = c :: tail ∧ (c = '\r' ∨ c = '\n') := by
  obtain ⟨c, tail, htext, hc⟩ := head_lineEnding style
  refine ⟨c, tail ++ style.rebreak rest, ?_, hc⟩
  rw [Style.rebreak, if_neg (by simp), if_pos rfl, htext]
  rfl

/-- What a text without line breaks starts with, it started with before. Counterpart of
`Style.rebreak`. -/
theorem prefix_of_prefix_rebreak {front text : List Char}
    (hfront : ∀ c ∈ front, c ≠ '\r' ∧ c ≠ '\n') (h : front <+: style.rebreak text) :
    front <+: text := by
  induction front generalizing text with
  | nil => exact List.nil_prefix
  | cons d front ih =>
    have hd := hfront d (by simp)
    have hbreak : ∀ {rest : List Char}, ¬d :: front <+: style.rebreak ('\n' :: rest) := by
      intro rest hstarts
      obtain ⟨c, tail, hc, hline⟩ := @head_rebreak_newline style rest
      rw [hc, List.cons_prefix_cons] at hstarts
      rw [← hstarts.1] at hline
      exact hline.elim hd.1 hd.2
    cases text with
    | nil => exact h
    | cons c rest =>
      by_cases hline : c = '\n'
      · rw [hline] at h
        exact absurd h hbreak
      by_cases hreturn : c = '\r' ∧ rest.head? = some '\n'
      · obtain ⟨tail, rfl⟩ := List.head?_eq_some_iff.1 hreturn.2
        rw [Style.rebreak, if_pos hreturn] at h
        exact absurd h hbreak
      · rw [Style.rebreak, if_neg hreturn, if_neg hline, List.cons_prefix_cons] at h
        exact List.cons_prefix_cons.2 ⟨h.1, ih (fun e he => hfront e (by simp [he])) h.2⟩

/-- Rewriting line breaks closes no bracket. Counterpart of `closesBracket`. -/
theorem closesBracket_cons_rebreak {level : Nat} {c : Char} {rest : List Char}
    (h : closesBracket level (c :: style.rebreak rest) = true) :
    closesBracket level (c :: rest) = true := by
  have hstarts := List.isPrefixOf_iff_prefix.1 h
  rw [List.cons_prefix_cons] at hstarts
  refine List.isPrefixOf_iff_prefix.2 (List.cons_prefix_cons.2 ⟨hstarts.1, ?_⟩)
  refine prefix_of_prefix_rebreak (fun d hd => ?_) hstarts.2
  rcases List.mem_append.1 hd with hd | hd
  · rw [List.eq_of_mem_replicate hd]
    decide
  · rw [List.mem_singleton.1 hd]
    decide

/-- Other line breaks do not close a long string sooner or later. Counterpart of
`Scan.bracketLength?`. -/
theorem bracketLength?_rebreak {level : Nat} {source : List Char}
    (h : bracketLength? level source = some source.length) :
    bracketLength? level (style.rebreak source) = some (style.rebreak source).length := by
  induction source with
  | nil => cases h
  | cons c rest ih =>
    rw [bracketLength?] at h
    by_cases hcloses : closesBracket level (c :: rest) = true
    · -- The source is the closing bracket, without line breaks.
      rw [if_pos hcloses] at h
      have hwhole := (List.isPrefixOf_iff_prefix.1 hcloses).eq_of_length
        (by simpa using Option.some.inj h)
      have hsame : style.rebreak (c :: rest) = c :: rest := by
        have happend := @rebreak_append style (c :: rest) (fun d hd => ?_) []
        · simpa [Style.rebreak] using happend
        · rw [← hwhole] at hd
          simp only [List.mem_cons, List.mem_append, List.mem_replicate, List.not_mem_nil,
            or_false] at hd
          rcases hd with rfl | ⟨-, rfl⟩ | rfl <;> decide
      rw [hsame, bracketLength?, if_pos hcloses, h]
    · rw [if_neg hcloses] at h
      obtain ⟨inner, hinner, hlength⟩ := Option.map_eq_some_iff.1 h
      have hrest := ih (by rw [hinner]; simpa using hlength)
      rw [Style.rebreak]
      split
      · exact hrest
      · split
        · cases style.lineEnding <;>
            simp [LineEnding.text, bracketLength?, closesBracket_of_ne, hrest]
        · have hopen : closesBracket level (c :: style.rebreak rest) ≠ true :=
            fun hclosed => hcloses (closesBracket_cons_rebreak hclosed)
          rw [bracketLength?, if_neg hopen, hrest]
          rfl

/-- A long string with other line breaks is one long string. Counterpart of `Style.rebreak`. -/
theorem Reads.rebreak {text : List Char} (h : Reads .longString text) :
    Reads .longString (style.rebreak text) := by
  obtain ⟨level, rest, rfl, hrest⟩ := h.exists_longString
  have hopen : ∀ c ∈ '[' :: (List.replicate level '=' ++ ['[']), c ≠ '\r' ∧ c ≠ '\n' := by
    simp only [List.mem_cons, List.mem_append, List.mem_replicate, List.not_mem_nil, or_false]
    rintro c (rfl | ⟨-, rfl⟩ | rfl) <;> decide
  have happend := @rebreak_append style _ hopen rest
  simp only [List.cons_append, List.append_assoc, List.nil_append] at happend
  rw [happend]
  exact reads_longString (bracketLength?_rebreak hrest)

/-- A long string ends in a bracket. Counterpart of `Style.written`. -/
theorem Reads.written_longString {text : List Char} (h : Reads .longString text) :
    style.written (verbatimText text) = style.rebreak text := by
  refine written_verbatimText style ?_
  obtain ⟨level, rest, rfl, hrest⟩ := h.exists_longString
  have hlast := getLast?_bracket hrest
  rw [List.take_length] at hlast
  simp [List.getLast?_cons, hlast]

end

end Scan

end LuaFormatter
