import LuaFormatter.Proofs.Token.Cover
import LuaFormatter.Source.Gap

/-!
# Blank lines between tokens

The formatter looks for a blank line in the bytes after an item, and passes over separators on the
way. Here the question is asked of the text between two tokens: `hasBlankLine` says that one of
these texts holds two line breaks with only spaces and tabs between them. In a source without
comments and without such texts, no item that is followed by more than separators has a blank line
after it (`isNextLineBlank_stop`, `isNextLineBlank_start`).
-/

namespace LuaFormatter

/-- A line feed or a carriage return. -/
def isLineBreak (c : Char) : Bool :=
  c == '\n' || c == '\r'

/-- A space or a tab. -/
def isLineBlank (c : Char) : Bool :=
  c == ' ' || c == '\t'

/-- The text after a line break that it starts with. -/
def afterBreak? : List Char → Option (List Char)
  | [] => none
  | c :: rest =>
    if c = '\r' ∧ rest.head? = some '\n' then some rest.tail
    else if isLineBreak c then some rest
    else none

/-- The text has two line breaks with only spaces and tabs between them. -/
def holdsBlankLine : List Char → Bool
  | [] => false
  | c :: rest =>
    (afterBreak? (c :: rest)).any (fun back =>
      (back.dropWhile isLineBlank).head?.any isLineBreak) || holdsBlankLine rest

/-- There is a blank line between two tokens of the source. -/
def hasBlankLine (source : List Char) : Bool :=
  ((tokenise source).zip (tokenise source).tail).any fun (token, next) =>
    ((Span.mk token.stop next.start).text? source).any holdsBlankLine

/-! ## Bytes and characters -/

/-- The first byte of a character is small only if it is the only one. Counterpart of `utf8`. -/
theorem exists_utf8EncodeChar (c : Char) :
    ∃ byte rest, String.utf8EncodeChar c = byte :: rest ∧
      (byte.toNat < 128 → rest = [] ∧ byte.toNat = c.toNat) := by
  unfold String.utf8EncodeChar
  dsimp only
  have hc : c.val.toNat = c.toNat := rfl
  split
  · refine ⟨_, _, rfl, fun _ => ⟨rfl, ?_⟩⟩
    rw [UInt8.toNat_ofNat']
    omega
  · split
    · refine ⟨_, _, rfl, fun hsmall => ?_⟩
      rw [UInt8.toNat_ofNat'] at hsmall
      omega
    · split
      · refine ⟨_, _, rfl, fun hsmall => ?_⟩
        rw [UInt8.toNat_ofNat'] at hsmall
        omega
      · refine ⟨_, _, rfl, fun hsmall => ?_⟩
        rw [UInt8.toNat_ofNat'] at hsmall
        omega

/-- A byte of its own is the first byte of its character only. Counterpart of `utf8`. -/
theorem eq_of_utf8EncodeChar {c d : Char} {byte : UInt8} {rest : List UInt8}
    (h : String.utf8EncodeChar c = byte :: rest) (hbyte : byte.toNat = d.toNat)
    (hd : d.toNat < 128) :
    c = d ∧ rest = [] := by
  obtain ⟨first, others, hfirst, hsmall⟩ := exists_utf8EncodeChar c
  obtain ⟨rfl, rfl⟩ := List.cons.inj (h.symm.trans hfirst)
  obtain ⟨rfl, hvalue⟩ := hsmall (by omega)
  exact ⟨Char.toNat_inj.1 (by omega), rfl⟩

namespace Gap

/-- A character that is no blank and no separator is not passed over. Counterpart of `isFiller`. -/
theorem not_filler {c : Char} {byte : UInt8} {rest : List UInt8}
    (h : String.utf8EncodeChar c = byte :: rest) (hskipped : Scan.isSkipped c = false)
    (hcomma : c ≠ ',') (hsemicolon : c ≠ ';') : isFiller byte = false ∧ isBreak byte = false := by
  have hne : ∀ (d : Char) (other : UInt8), other.toNat = d.toNat → d.toNat < 128 → c ≠ d →
      (byte == other) = false := by
    intro d other hother hd hne
    rw [beq_eq_false_iff_ne]
    rintro rfl
    exact hne (eq_of_utf8EncodeChar h hother hd).1
  simp only [Scan.isSkipped, Bool.or_eq_false_iff, beq_eq_false_iff_ne] at hskipped
  obtain ⟨⟨⟨⟨⟨hspace, htab⟩, hfeed⟩, hreturn⟩, -⟩, -⟩ := hskipped
  have hspace' := hne ' ' 0x20 rfl (by decide) hspace
  have htab' := hne '\t' 0x09 rfl (by decide) htab
  have hfeed' := hne '\n' 0x0A rfl (by decide) hfeed
  have hreturn' := hne '\r' 0x0D rfl (by decide) hreturn
  have hcomma' := hne ',' 0x2C rfl (by decide) hcomma
  have hsemicolon' := hne ';' 0x3B rfl (by decide) hsemicolon
  simp [isFiller, isBreak, isSpace, hspace', htab', hfeed', hreturn', hcomma', hsemicolon']

/-- What fills no line is no blank. Counterpart of `isFiller`. -/
theorem not_space_of_not_filler {byte : UInt8} (h : isFiller byte = false) :
    isSpace byte = false := by
  simp only [isFiller, Bool.or_eq_false_iff] at h
  exact h.1.1

/-- The line after the one that goes on with these bytes is not blank. -/
def Quiet (bytes : List UInt8) : Prop :=
  breaksNext (skipBreak (skipLine bytes)) = false

/-- What fills a line is passed. Counterpart of `skipLine`. -/
theorem skipLine_of_filler {byte : UInt8} {rest : List UInt8} (h : isFiller byte = true) :
    skipLine (byte :: rest) = skipLine rest := by
  rw [skipLine, if_pos h]

/-- What neither fills a line nor starts a comment is not passed. Counterpart of `skipLine`. -/
theorem skipLine_of_other {byte : UInt8} {rest : List UInt8} (h : isFiller byte = false)
    (hcomment : skipComment? (byte :: rest) = none) : skipLine (byte :: rest) = byte :: rest := by
  rw [skipLine, if_neg (by simp [h])]
  split
  · rename_i back hback
    rw [hcomment] at hback
    cases hback
  · rfl

/-- What fills a line leaves the line after it blank or not. Counterpart of `Quiet`. -/
theorem Quiet.filler {byte : UInt8} {rest : List UInt8} (h : isFiller byte = true)
    (hrest : Quiet rest) : Quiet (byte :: rest) := by
  rwa [Quiet, skipLine_of_filler h]

/-- Anything but a blank, a separator, a comment or a line break goes on with the line. Counterpart
of `Quiet`. -/
theorem Quiet.other {byte : UInt8} {rest : List UInt8} (hfiller : isFiller byte = false)
    (hbreak : isBreak byte = false) (hcomment : skipComment? (byte :: rest) = none) :
    Quiet (byte :: rest) := by
  have hreturn : (byte == 0x0D) = false := by
    simp only [isBreak, Bool.or_eq_false_iff] at hbreak
    exact hbreak.2
  rw [Quiet, skipLine_of_other hfiller hcomment, skipBreak]
  simp [hreturn, hbreak, breaksNext, not_space_of_not_filler hfiller]

/-- Only a dash starts a comment. Counterpart of `skipComment?`. -/
theorem skipComment?_eq_none {byte : UInt8} {rest : List UInt8} (h : byte ≠ 0x2D) :
    skipComment? (byte :: rest) = none := by
  unfold skipComment?
  split
  · rename_i heq
    exact absurd (List.cons.inj heq).1 h
  · rfl

end Gap

/-! ## Texts between tokens -/

open Gap

/-- The text starts with a token. -/
def StartsToken (text : List Char) : Prop :=
  ∃ c rest, text = c :: rest ∧ Scan.isSkipped c = false

/-- After blanks that are followed by no line break, no line break comes next. Counterpart of
`breaksNext`. -/
theorem breaksNext_utf8 {blanks text : List Char} (hblanks : ∀ c ∈ blanks, Scan.isSkipped c = true)
    (hbreak : (blanks.dropWhile isLineBlank).head?.any isLineBreak = false)
    (htext : StartsToken text) :
    breaksNext (utf8 (blanks ++ text)) = false := by
  induction blanks with
  | nil =>
    obtain ⟨c, rest, rfl, hc⟩ := htext
    obtain ⟨byte, more, hbyte, -⟩ := exists_utf8EncodeChar c
    rw [List.nil_append, utf8_cons, hbyte]
    by_cases hcomma : c = ','
    · subst hcomma
      obtain ⟨rfl, rfl⟩ := List.cons.inj hbyte
      rfl
    · by_cases hsemicolon : c = ';'
      · subst hsemicolon
        obtain ⟨rfl, rfl⟩ := List.cons.inj hbyte
        rfl
      · obtain ⟨hfiller, hbreak⟩ := not_filler hbyte hc hcomma hsemicolon
        simp [breaksNext, not_space_of_not_filler hfiller, hbreak]
  | cons c rest ih =>
    have hc := hblanks c List.mem_cons_self
    simp only [Scan.isSkipped, Bool.or_eq_true, beq_iff_eq] at hc
    rcases hc with ((((rfl | rfl) | rfl) | rfl) | rfl) | rfl
    · exact ih (fun d hd => hblanks d (List.mem_cons_of_mem _ hd)) hbreak
    · exact ih (fun d hd => hblanks d (List.mem_cons_of_mem _ hd)) hbreak
    · cases hbreak
    · cases hbreak
    · rfl
    · rfl

/-- The first byte of a token is no line feed. Counterpart of `StartsToken`. -/
theorem head?_utf8_ne {text : List Char} (htext : StartsToken text) :
    (utf8 text).head? ≠ some 0x0A := by
  obtain ⟨c, rest, rfl, hc⟩ := htext
  obtain ⟨byte, more, hbyte, -⟩ := exists_utf8EncodeChar c
  rw [utf8_cons, hbyte]
  intro h
  have hfeed : c = '\n' := (eq_of_utf8EncodeChar hbyte (by cases h; rfl) (by decide)).1
  rw [hfeed] at hc
  cases hc

/-- A line break in a text without blank lines. Counterpart of `Quiet`. -/
theorem quiet_lineBreak {c : Char} {rest text : List Char} (hc : isLineBreak c = true)
    (hrest : ∀ d ∈ rest, Scan.isSkipped d = true) (hblank : holdsBlankLine (c :: rest) = false)
    (htext : StartsToken text) : Quiet (utf8 (c :: rest ++ text)) := by
  rw [holdsBlankLine, Bool.or_eq_false_iff] at hblank
  have hafter := hblank.1
  simp only [isLineBreak, Bool.or_eq_true, beq_iff_eq] at hc
  rcases hc with rfl | rfl
  · show Quiet (0x0A :: utf8 (rest ++ text))
    rw [Quiet, skipLine_of_other rfl (skipComment?_eq_none (by decide))]
    exact breaksNext_utf8 hrest hafter htext
  · show Quiet (0x0D :: utf8 (rest ++ text))
    rw [Quiet, skipLine_of_other rfl (skipComment?_eq_none (by decide)), skipBreak]
    cases rest with
    | nil =>
      rw [List.nil_append, if_neg (by simpa using head?_utf8_ne htext)]
      exact @breaksNext_utf8 [] text hrest hafter htext
    | cons d rest =>
      have hd := hrest d List.mem_cons_self
      simp only [Scan.isSkipped, Bool.or_eq_true, beq_iff_eq] at hd
      rcases hd with ((((rfl | rfl) | rfl) | rfl) | rfl) | rfl
      · exact breaksNext_utf8 hrest hafter htext
      · exact breaksNext_utf8 hrest hafter htext
      · exact breaksNext_utf8 (fun d hd => hrest d (List.mem_cons_of_mem _ hd)) hafter htext
      · exact breaksNext_utf8 hrest hafter htext
      · exact breaksNext_utf8 hrest hafter htext
      · exact breaksNext_utf8 hrest hafter htext

/-- The text between two tokens, if it has no blank lines, does not matter. Counterpart of
`Quiet`. -/
theorem quiet_append {gap text : List Char} (hgap : ∀ c ∈ gap, Scan.isSkipped c = true)
    (hblank : holdsBlankLine gap = false) (htext : StartsToken text) (hquiet : Quiet (utf8 text)) :
    Quiet (utf8 (gap ++ text)) := by
  induction gap with
  | nil => exact hquiet
  | cons c rest ih =>
    have hrest := fun d hd => hgap d (List.mem_cons_of_mem c hd)
    have htail : holdsBlankLine rest = false := by
      rw [holdsBlankLine, Bool.or_eq_false_iff] at hblank
      exact hblank.2
    have hc := hgap c List.mem_cons_self
    simp only [Scan.isSkipped, Bool.or_eq_true, beq_iff_eq] at hc
    rcases hc with ((((rfl | rfl) | rfl) | rfl) | rfl) | rfl
    · exact .filler rfl (ih hrest htail)
    · exact .filler rfl (ih hrest htail)
    · exact quiet_lineBreak rfl hrest hblank htext
    · exact quiet_lineBreak rfl hrest hblank htext
    · exact .other rfl rfl (skipComment?_eq_none (by decide))
    · exact .other rfl rfl (skipComment?_eq_none (by decide))

/-! ## Tokens -/

namespace Scan

/-- The first token of a text stands after blanks. Counterpart of `tokensFrom`. -/
theorem exists_gap {offset : Nat} {text : List Char} {next : Token} {back : List Token}
    (h : tokensFrom offset text = next :: back) :
    ∃ gap c rest, text = gap ++ c :: rest ∧ (∀ d ∈ gap, isSkipped d = true) ∧ isSkipped c = false ∧
      next.start = offset + byteLength gap ∧
      next.kind = (nextToken (next.start == 0) c rest).1 ∧
      next.lexeme = c :: rest.take (nextToken (next.start == 0) c rest).2 ∧
      back = tokensFrom next.stop (rest.drop (nextToken (next.start == 0) c rest).2) := by
  fun_induction tokensFrom offset text with
  | case1 => cases h
  | case2 offset c rest hskipped ih =>
    obtain ⟨gap, d, more, rfl, hgap, hd, hstart, hfacts⟩ := ih h
    refine ⟨c :: gap, d, more, rfl, ?_, hd, ?_, hfacts⟩
    · simpa [hskipped] using hgap
    · rw [hstart, byteLength, Nat.add_assoc]
  | case3 =>
    rename_i offset c rest hskipped kind length hnext lexeme _
    obtain ⟨rfl, rfl⟩ := List.cons.inj h
    refine ⟨[], c, rest, rfl, by simp, by simpa using hskipped, rfl, ?_⟩
    dsimp only
    rw [hnext]
    exact ⟨rfl, rfl, rfl⟩

/-- The tokens after some of those of a source are read from the end of the source. Counterpart of
`tokenise`. -/
theorem exists_rest {source : List Char} {front back : List Token}
    (h : tokenise source = front ++ back) :
    ∃ before text, source = before ++ text ∧ back = tokensFrom (byteLength before) text := by
  rcases List.eq_nil_or_concat front with rfl | ⟨front, last, rfl⟩
  · exact ⟨[], source, rfl, h.symm⟩
  · rw [List.concat_eq_append, List.append_assoc, List.singleton_append] at h
    obtain ⟨before, text, rfl, hstart, hback⟩ := split_tokensFrom h
    refine ⟨before ++ last.lexeme, text, by simp, ?_⟩
    rw [hback, byteLength_append, Token.stop, Token.length, hstart, Nat.zero_add]

end Scan

/-- The token separates items. -/
def Kind.isSeparator : Kind → Bool
  | symbol .comma | symbol .semicolon => true
  | _ => false

/-- Two dashes start a comment. Counterpart of `Scan.nextToken`. -/
theorem isComment_nextToken {atStart : Bool} {rest : List Char} (h : rest.head? = some '-') :
    (Scan.nextToken atStart '-' rest).1.isComment = true := by
  have hcomment : Scan.nextToken atStart '-' rest = Scan.comment rest := by
    simp [Scan.nextToken, h]
  rw [hcomment]
  unfold Scan.comment
  split
  · split <;> rfl
  · rfl

/-- Bytes that start with two dashes are those of a text that does. Counterpart of
`skipComment?`. -/
theorem skipComment?_utf8 {c : Char} {rest : List Char} (h : c = '-' → rest.head? ≠ some '-') :
    skipComment? (utf8 (c :: rest)) = none := by
  obtain ⟨byte, more, hbyte, -⟩ := exists_utf8EncodeChar c
  rw [utf8_cons, hbyte, List.cons_append]
  by_cases hdash : byte = 0x2D
  · subst hdash
    obtain ⟨rfl, rfl⟩ := eq_of_utf8EncodeChar hbyte (by rfl) (by decide : ('-').toNat < 128)
    cases rest with
    | nil => rfl
    | cons d rest =>
      obtain ⟨second, others, hsecond, -⟩ := exists_utf8EncodeChar d
      rw [List.nil_append, utf8_cons, hsecond]
      unfold skipComment?
      split
      · rename_i heq
        simp only [List.cons_append, List.cons.injEq] at heq
        obtain ⟨-, rfl, -⟩ := heq
        have hd := (eq_of_utf8EncodeChar hsecond (by rfl) (by decide : ('-').toNat < 128)).1
        exact absurd (congrArg some hd) (h rfl)
      · rfl
  · exact skipComment?_eq_none hdash

/-- Two items that stand together are a pair of a list with its tail. Counterpart of `List.zip`. -/
theorem mem_zip_tail {α : Type} (front : List α) (item next : α) (back : List α) :
    (item, next) ∈ (front ++ item :: next :: back).zip (front ++ item :: next :: back).tail := by
  induction front with
  | nil => simp
  | cons first front ih =>
    cases front with
    | nil => simp
    | cons second front => exact List.mem_cons_of_mem _ ih

section
variable {source : List Char}

/-- The text between two tokens of a source without blank lines. Counterpart of `hasBlankLine`. -/
theorem holdsBlankLine_eq_false (hblank : hasBlankLine source = false) {front back : List Token}
    {token next : Token} (h : tokenise source = front ++ token :: next :: back)
    {before gap rest : List Char} (hsource : source = before ++ (gap ++ rest))
    (hstop : token.stop = byteLength before)
    (hstart : next.start = byteLength before + byteLength gap) :
    holdsBlankLine gap = false := by
  have hmem : (token, next) ∈ (tokenise source).zip (tokenise source).tail := by
    rw [h]
    exact mem_zip_tail front token next back
  have hpair := List.any_eq_false.1 hblank _ hmem
  dsimp only at hpair
  rw [hstop, hstart, hsource, Span.text?_append] at hpair
  simpa using hpair

/-- Where a token starts that is not the last but for separators, the next line is not blank, and
neither is it before the token if there is no blank line in front of it. Counterpart of `Quiet`. -/
theorem quiet_tokensFrom (hblank : hasBlankLine source = false)
    (hcomments : ∀ token ∈ tokenise source, token.kind.isComment = false) {front back : List Token}
    {next : Token} (h : tokenise source = front ++ next :: back) {before text : List Char}
    (hsource : source = before ++ text)
    (htokens : Scan.tokensFrom (byteLength before) text = next :: back)
    (hlater : ∃ token ∈ next :: back, token.kind.isSeparator = false) :
    ∃ gap rest, text = gap ++ rest ∧ next.start = byteLength before + byteLength gap ∧
      Quiet (utf8 rest) ∧ (holdsBlankLine gap = false → Quiet (utf8 text)) := by
  induction hn : back.length using Nat.strongRecOn generalizing front back next before text with
  | _ n ih =>
  obtain ⟨gap, c, rest, rfl, hgap, hc, hstart, hkind, hlexeme, hback⟩ := Scan.exists_gap htokens
  have hrest : Quiet (utf8 (c :: rest)) := by
    by_cases hseparator : c = ',' ∨ c = ';'
    · -- A separator is passed over, so another token follows it.
      have hnext : next.kind.isSeparator = true ∧ next.lexeme = [c] ∧
          back = Scan.tokensFrom next.stop rest := by
        rcases hseparator with rfl | rfl
        · exact ⟨by rw [hkind]; rfl, hlexeme, hback⟩
        · exact ⟨by rw [hkind]; rfl, hlexeme, hback⟩
      obtain ⟨hisSeparator, hlexeme, hback⟩ := hnext
      have hstop : next.stop = byteLength (before ++ gap ++ [c]) := by
        rw [Token.stop, Token.length, hlexeme, hstart]
        simp [Nat.add_assoc]
      obtain ⟨later, hmem, hlater⟩ := hlater
      have hmem : later ∈ back := by
        rcases List.mem_cons.1 hmem with rfl | hmem
        · rw [hisSeparator] at hlater
          cases hlater
        · exact hmem
      have hquiet : Quiet (utf8 rest) := by
        cases back with
        | nil => cases hmem
        | cons second back =>
          obtain ⟨between, others, rfl, hsecond, -, hquiet⟩ := ih back.length (by simp [← hn])
            (show tokenise source = (front ++ [next]) ++ second :: back by simpa using h)
            (show source = (before ++ gap ++ [c]) ++ rest by simpa using hsource)
            (by rw [← hstop, ← hback]) ⟨later, hmem, hlater⟩ rfl
          have hsplit : source = (before ++ gap ++ [c]) ++ (between ++ others) := by
            simpa using hsource
          exact hquiet (holdsBlankLine_eq_false hblank h hsplit hstop hsecond)
      rcases hseparator with rfl | rfl
      · exact .filler rfl hquiet
      · exact .filler rfl hquiet
    · obtain ⟨byte, more, hbyte, -⟩ := exists_utf8EncodeChar c
      have hdash : skipComment? (utf8 (c :: rest)) = none := by
        refine skipComment?_utf8 ?_
        rintro rfl hhead
        have hcomment := hcomments next (by simp [h])
        rw [hkind, isComment_nextToken hhead] at hcomment
        cases hcomment
      obtain ⟨hfiller, hbreak⟩ := not_filler hbyte hc (fun h => hseparator (.inl h))
        (fun h => hseparator (.inr h))
      rw [utf8_cons, hbyte] at hdash ⊢
      exact .other hfiller hbreak hdash
  refine ⟨gap, c :: rest, rfl, hstart, hrest, fun hgapBlank => ?_⟩
  exact quiet_append hgap hgapBlank ⟨c, rest, rfl, hc⟩ hrest

/-- What comes after the bytes of a text. Counterpart of `Gap.after`. -/
theorem after_utf8 (before text : List Char) :
    Gap.after (utf8 (before ++ text)) (byteLength before) = utf8 text := by
  rw [Gap.after, utf8_append, ← length_utf8, List.drop_left]

/-- A token that is followed by more than separators has no blank line after it. Counterpart of
`Gap.isNextLineBlank`. -/
theorem isNextLineBlank_stop (hblank : hasBlankLine source = false)
    (hcomments : ∀ token ∈ tokenise source, token.kind.isComment = false) {token later : Token}
    (hmem : token ∈ tokenise source) (hlater : later ∈ tokenise source)
    (hle : token.stop ≤ later.start) (hseparator : later.kind.isSeparator = false) :
    isNextLineBlank (utf8 source) token.stop = false := by
  obtain ⟨front, back, h⟩ := List.append_of_mem hmem
  have hordered := ordered_tokenise source
  obtain ⟨before, text, hsource, hstart, hback⟩ := Scan.split_tokensFrom h
  have hstop : token.stop = byteLength (before ++ token.lexeme) := by
    rw [Token.stop, Token.length, hstart, Nat.zero_add, byteLength_append]
  have hmemBack : later ∈ back := by
    rw [h] at hlater hordered
    have hpositive := hordered.start_lt_stop
    rcases List.mem_append.1 hlater with hfront | hrest
    · have := hordered.stop_le_start hfront (List.mem_cons_self)
      have := hpositive later (by simp [hfront])
      have := hpositive token (by simp)
      omega
    · rcases List.mem_cons.1 hrest with rfl | hrest
      · have := hpositive later (by simp)
        omega
      · exact hrest
  cases back with
  | nil => cases hmemBack
  | cons next back =>
    have hsplit : source = (before ++ token.lexeme) ++ text := by rw [hsource, List.append_assoc]
    obtain ⟨gap, rest, rfl, hnext, -, hquiet⟩ := quiet_tokensFrom hblank hcomments
      (show tokenise source = (front ++ [token]) ++ next :: back by simpa using h) hsplit
      (by rw [← hstop, ← hback]) ⟨later, hmemBack, hseparator⟩
    rw [isNextLineBlank, hstop]
    conv => lhs; rw [hsplit]
    rw [after_utf8]
    exact hquiet (holdsBlankLine_eq_false hblank h hsplit hstop hnext)

/-- Where a token starts that is not the last but for separators, the next line is not blank.
Counterpart of `Gap.isNextLineBlank`. -/
theorem isNextLineBlank_start (hblank : hasBlankLine source = false)
    (hcomments : ∀ token ∈ tokenise source, token.kind.isComment = false) {token later : Token}
    (hmem : token ∈ tokenise source) (hlater : later ∈ tokenise source)
    (hle : token.start ≤ later.start) (hseparator : later.kind.isSeparator = false) :
    isNextLineBlank (utf8 source) token.start = false := by
  obtain ⟨front, back, h⟩ := List.append_of_mem hmem
  have hordered := ordered_tokenise source
  obtain ⟨before, text, hsource, htokens⟩ := Scan.exists_rest h
  have hmemBack : later ∈ token :: back := by
    rw [h] at hlater hordered
    rcases List.mem_append.1 hlater with hfront | hrest
    · have := hordered.stop_le_start hfront (List.mem_cons_self)
      have := hordered.start_lt_stop later (by simp [hfront])
      omega
    · exact hrest
  obtain ⟨gap, rest, rfl, hstart, hquiet, -⟩ :=
    quiet_tokensFrom hblank hcomments h hsource htokens.symm ⟨later, hmemBack, hseparator⟩
  have hsplit : source = (before ++ gap) ++ rest := by rw [hsource, List.append_assoc]
  rw [isNextLineBlank, hstart, ← byteLength_append]
  conv => lhs; rw [hsplit]
  rw [after_utf8]
  exact hquiet

end

end LuaFormatter
