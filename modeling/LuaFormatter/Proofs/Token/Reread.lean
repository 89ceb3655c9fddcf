import LuaFormatter.Proofs.Token.Ends
import LuaFormatter.Proofs.Token.Numbers

/-!
# Reading tokens again

The scanner takes as much as it can, so where a token ends depends on what follows it. For each kind
of token `Kind.endsBefore` says which characters leave it alone, and a token that was read once is
read again before any text that starts with such a character (`reads_nextToken`). A text that is
made of such tokens, with or without blanks between them, is therefore read as these tokens
(`Joined.map_content`).
-/

namespace LuaFormatter

/-- A longer symbol starts with this one and the character. -/
def Symbol.goesOn (mark : Symbol) (c : Char) : Bool :=
  all.any fun other => (mark.text.toList ++ [c]).isPrefixOf other.text.toList

/-- The characters that a longer symbol goes on with. -/
def Symbol.followers (mark : Symbol) : List Char :=
  all.filterMap fun other =>
    if mark.text.toList.isPrefixOf other.text.toList
    then other.text.toList[mark.text.toList.length]? else none

/-- The characters with which a symbol goes on are listed. Counterpart of `Symbol.followers`. -/
theorem Symbol.mem_followers {mark : Symbol} {c : Char} (h : mark.goesOn c = true) :
    c ∈ mark.followers := by
  obtain ⟨other, hmem, hstarts⟩ := List.any_eq_true.1 h
  obtain ⟨rest, hrest⟩ := List.isPrefixOf_iff_prefix.1 hstarts
  rw [List.append_assoc] at hrest
  refine List.mem_filterMap.2 ⟨other, hmem, ?_⟩
  rw [if_pos (List.isPrefixOf_iff_prefix.2 ⟨_, hrest⟩), ← hrest]
  simp

/-- Few symbols go on, and with few characters. Counterpart of `Symbol.followers`. -/
theorem Symbol.followers_eq : ∀ mark ∈ all, mark.followers =
    match mark with
    | dot => ['.', '.']
    | dotDot => ['.']
    | colon => [':']
    | slash => ['/']
    | less => ['<', '=']
    | greater => ['>', '=']
    | equal | tilde => ['=']
    | _ => [] := by
  decide +kernel

/-- A symbol does not go on with a character that is not listed. Counterpart of
`Symbol.followers`. -/
theorem Symbol.goesOn_eq_false {mark : Symbol} {c : Char} {list : List Char}
    (hmark : mark.followers = list) (hc : c ∉ list) : mark.goesOn c = false :=
  Bool.eq_false_iff.2 fun hgoes => hc (hmark ▸ mem_followers hgoes)

/-- A token ends before the character. -/
def Kind.endsBefore (kind : Kind) (c : Char) : Bool :=
  match kind with
  | symbol mark =>
    !mark.goesOn c &&
      match mark with
      | .dot => !c.isDigit
      | .minus => c != '-'
      | .leftSquare => c != '[' && c != '='
      | .hash => c != '!'
      | _ => true
  | keyword _ | identifier => !Scan.isWordChar c
  | number => Scan.endsNumber c
  | string | longString => true
  | _ => false

/-- The token can be part of a program. -/
def Kind.isWord : Kind → Bool
  | symbol _ | keyword _ | identifier | number | string | longString => true
  | _ => false

/-- A token ends before the text. -/
def Kind.EndsBefore (kind : Kind) (back : List Char) : Prop :=
  ∀ c ∈ back.head?, kind.endsBefore c = true

namespace Scan

/-- The text is read as one token of the kind, whatever follows that does not go on with it. -/
def Reads (kind : Kind) (lexeme : List Char) : Prop :=
  ∃ first rest, lexeme = first :: rest ∧ isSkipped first = false ∧
    ∀ atStart back, kind.EndsBefore back →
    nextToken atStart first (rest ++ back) = (kind, rest.length)

/-! ## Strings -/

/-- One character of a string: it ends the string, or the string is one longer. Counterpart of
`quotedLength`. -/
theorem quotedLength_cons {quote c : Char} (hc : c ≠ '\\') (rest : List Char) :
    quotedLength quote (c :: rest) =
      if c = '\n' then (false, 0) else if c = quote then (true, 1)
      else ((quotedLength quote rest).1, (quotedLength quote rest).2 + 1) := by
  rw [quotedLength]
  · exact fun h => absurd h hc
  · exact fun _ _ h => absurd h hc

/-- A backslash takes the next character along. Counterpart of `quotedLength`. -/
theorem quotedLength_escape (quote c : Char) (rest : List Char) :
    quotedLength quote ('\\' :: c :: rest) =
      ((quotedLength quote rest).1, (quotedLength quote rest).2 + 2) := by
  rw [quotedLength]

/-- A character that starts no escape, as the cases of `quotedLength` say it. Counterpart of
`quotedLength`. -/
theorem ne_backslash {c : Char} {rest : List Char} (hnil : c = '\\' → rest = [] → False)
    (hcons : ∀ head tail, c = '\\' → rest = head :: tail → False) : c ≠ '\\' := by
  intro hc
  cases rest with
  | nil => exact hnil hc rfl
  | cons head tail => exact hcons head tail hc rfl

/-- A string is closed where it was, whatever follows. Counterpart of `quotedLength`. -/
theorem quotedLength_append {quote : Char} {source back : List Char} {length : Nat}
    (h : quotedLength quote source = (true, length)) :
    quotedLength quote (source.take length ++ back) = (true, length) := by
  fun_induction quotedLength quote source generalizing length with
  | case1 | case2 | case4 => simp at h
  | case3 =>
    rename_i rest closed inner hinner ih
    cases h
    rw [List.take_succ_cons, List.take_succ_cons, List.cons_append, List.cons_append,
      quotedLength_escape, ih hinner]
  | case5 =>
    rename_i hnil hcons hline
    cases h
    rw [List.take_succ_cons, List.cons_append, quotedLength_cons (ne_backslash hnil hcons),
      if_neg hline, if_pos rfl]
  | case6 =>
    rename_i hnil hcons hline hquote closed inner hinner ih
    cases h
    rw [List.take_succ_cons, List.cons_append, quotedLength_cons (ne_backslash hnil hcons),
      if_neg hline, if_neg hquote, ih hinner]

/-- A string is read off the front. Counterpart of `quotedLength`. -/
theorem quotedLength_le (quote : Char) (source : List Char) :
    (quotedLength quote source).2 ≤ source.length := by
  fun_induction quotedLength quote source <;> simp_all

/-- A bracket is closed within its own length. Counterpart of `closesBracket`. -/
theorem closesBracket_append {level : Nat} {source : List Char} (back : List Char)
    (hlength : level + 2 ≤ source.length) :
    closesBracket level (source ++ back) = closesBracket level source := by
  have hclose : (']' :: (List.replicate level '=' ++ [']'])).length = level + 2 := by simp
  unfold closesBracket
  rw [Bool.eq_iff_iff, List.isPrefixOf_iff_prefix, List.isPrefixOf_iff_prefix]
  constructor
  · intro h
    exact List.prefix_of_prefix_length_le h (List.prefix_append source back) (by omega)
  · intro h
    exact h.trans (List.prefix_append source back)

/-- A long string is at least as long as its closing bracket, and is read off the front. Counterpart
of `bracketLength?`. -/
theorem le_of_bracketLength? {level length : Nat} {source : List Char}
    (h : bracketLength? level source = some length) :
    level + 2 ≤ length ∧ length ≤ source.length := by
  fun_induction bracketLength? level source generalizing length with
  | case1 => cases h
  | case2 c rest hcloses =>
    cases h
    have hle := (List.isPrefixOf_iff_prefix.1 hcloses).length_le
    simp only [List.length_cons, List.length_append, List.length_replicate,
      List.length_nil] at hle ⊢
    omega
  | case3 c rest _ ih =>
    obtain ⟨inner, hinner, rfl⟩ := Option.map_eq_some_iff.1 h
    have := ih hinner
    simp only [List.length_cons]
    omega

/-- A long string is closed where it was, whatever follows. Counterpart of `bracketLength?`. -/
theorem bracketLength?_append {level length : Nat} {source back : List Char}
    (h : bracketLength? level source = some length) :
    bracketLength? level (source.take length ++ back) = some length := by
  fun_induction bracketLength? level source generalizing length with
  | case1 => cases h
  | case2 c rest hcloses =>
    cases h
    have hle := (List.isPrefixOf_iff_prefix.1 hcloses).length_le
    simp only [List.length_cons, List.length_append, List.length_replicate, List.length_nil] at hle
    have htake : closesBracket level ((c :: rest).take (level + 2) ++ back) = true := by
      rw [closesBracket_append back (by simp; omega), ← hcloses]
      conv => rhs; rw [← List.take_append_drop (level + 2) (c :: rest)]
      rw [closesBracket_append _ (by simp; omega)]
    rw [List.take_succ_cons, List.cons_append] at htake ⊢
    simp [bracketLength?, htake]
  | case3 c rest hcloses ih =>
    obtain ⟨inner, hinner, rfl⟩ := Option.map_eq_some_iff.1 h
    have hle := le_of_bracketLength? hinner
    have htake : closesBracket level (c :: (rest.take inner ++ back)) = false := by
      rw [← List.cons_append, closesBracket_append back (by simp; omega)]
      rw [← List.take_append_drop inner rest, ← List.cons_append,
        closesBracket_append _ (by simp; omega)] at hcloses
      exact Bool.eq_false_iff.2 hcloses
    rw [List.take_succ_cons, List.cons_append]
    simp [bracketLength?, htake, ih hinner]

/-- The long bracket of a level, and what comes after it. Counterpart of `bracketLevel?`. -/
theorem exists_of_bracketLevel? {source : List Char} {level : Nat}
    (h : bracketLevel? source = some level) :
    ∃ rest, source = '[' :: (List.replicate level '=' ++ '[' :: rest) := by
  unfold bracketLevel? at h
  split at h
  · rename_i rest
    dsimp only at h
    split at h
    · rename_i hopen
      cases h
      have hequals : rest.takeWhile (· == '=') =
          List.replicate (rest.takeWhile (· == '=')).length '=' :=
        List.eq_replicate_of_mem fun c hc => by
        simpa using List.all_eq_true.1 List.all_takeWhile c hc
      have hsplit := List.takeWhile_append_dropWhile (p := (· == '=')) (l := rest)
      cases hrest : rest.dropWhile (· == '=') with
      | nil =>
        rw [hrest, List.append_nil] at hsplit
        rw [hsplit] at hopen
        simp at hopen
      | cons c tail =>
        rw [hrest] at hsplit
        have hget : rest[(rest.takeWhile (· == '=')).length]? = some c := by
          conv => lhs; arg 1; rw [← hsplit]
          simp
        rw [hget] at hopen
        obtain rfl : c = '[' := by simpa using hopen
        exact ⟨tail, by rw [← hequals, hsplit]⟩
    · cases h
  · cases h

/-- The level of an opening bracket is the number of its equals signs. Counterpart of
`bracketLevel?`. -/
theorem bracketLevel?_open (level : Nat) (rest : List Char) :
    bracketLevel? ('[' :: (List.replicate level '=' ++ '[' :: rest)) = some level := by
  have htake : (List.replicate level '=' ++ '[' :: rest).takeWhile (· == '=') =
      List.replicate level '=' := by
    rw [List.takeWhile_append_of_pos (by simp)]
    simp
  simp [bracketLevel?, htake]

/-- Only a bracket opens a long bracket. Counterpart of `bracketLevel?`. -/
theorem bracketLevel?_of_ne {first : Char} (h : first ≠ '[') (rest : List Char) :
    bracketLevel? (first :: rest) = none := by
  unfold bracketLevel?
  split
  · rename_i heq
    exact absurd (List.cons.inj heq).1 h
  · rfl

/-- A text that is closed at its end is one string. Counterpart of `Kind.string`. -/
theorem reads_string {quote : Char} (hquote : quote = '"' ∨ quote = '\x27') {rest : List Char}
    (h : quotedLength quote rest = (true, rest.length)) : Reads .string (quote :: rest) := by
  refine ⟨quote, rest, rfl, by rcases hquote with rfl | rfl <;> rfl, fun atStart back _ => ?_⟩
  have hrest : quotedLength quote (rest ++ back) = (true, rest.length) := by
    have happend := @quotedLength_append _ _ back _ h
    rwa [List.take_length] at happend
  have hne : quote ≠ '#' ∧ quote ≠ '-' := by rcases hquote with rfl | rfl <;> decide
  simp [nextToken, hquote, hne, quoted, hrest]

/-- A text that is closed at its end is one long string. Counterpart of `Kind.longString`. -/
theorem reads_longString {level : Nat} {rest : List Char}
    (h : bracketLength? level rest = some rest.length) :
    Reads .longString ('[' :: (List.replicate level '=' ++ '[' :: rest)) := by
  refine ⟨'[', _, rfl, rfl, fun atStart back _ => ?_⟩
  have hrest : bracketLength? level (rest ++ back) = some rest.length := by
    have happend := @bracketLength?_append _ _ _ back h
    rwa [List.take_length] at happend
  have hdrop : (List.replicate level '=' ++ '[' :: (rest ++ back)).drop (level + 1) =
      rest ++ back := by
    rw [List.drop_append]
    simp
  rw [List.append_assoc, List.cons_append]
  simp only [nextToken, bracketLevel?_open, longString_eq, hdrop, hrest]
  simp
  omega

/-- No word starts with a digit. Counterpart of `isWordStart`. -/
theorem isDigit_of_isWordStart {c : Char} (h : isWordStart c = true) : c.isDigit = false := by
  refine Bool.eq_false_iff.2 fun hdigit => ?_
  have hdigit : (decide ('0' ≤ c) && decide (c ≤ '9')) = true := hdigit
  simp only [Bool.and_eq_true, decide_eq_true_eq, Char.le_def, UInt32.le_iff_toNat_le] at hdigit
  have hnine : '9'.val.toNat = 57 := rfl
  rcases Bool.or_eq_true_iff.1 h with halpha | hline
  · rcases Bool.or_eq_true_iff.1
      (show (c.isUpper || c.isLower) = true from halpha) with hupper | hlower
    · have hupper : 'A'.val ≤ c.val := (of_decide_eq_true hupper).1
      rw [UInt32.le_iff_toNat_le] at hupper
      have hletter : 'A'.val.toNat = 65 := rfl
      omega
    · have hlower : 'a'.val ≤ c.val := of_decide_eq_true (Bool.and_eq_true_iff.1 hlower).1
      rw [UInt32.le_iff_toNat_le] at hlower
      have hletter : 'a'.val.toNat = 97 := rfl
      omega
  · rw [beq_iff_eq.1 hline] at hdigit
    revert hdigit
    decide

/-- A name starts no other token. Counterpart of `isWordStart`. -/
theorem ne_of_isWordStart {c : Char} (h : isWordStart c = true) (other : Char)
    (hother : isWordStart other = false) : c ≠ other := by
  rintro rfl
  rw [h] at hother
  cases hother

/-- What passes a test is taken up to the first item that does not. Counterpart of
`List.takeWhile`. -/
theorem takeWhile_append_of_head {p : Char → Bool} {front back : List Char}
    (hfront : ∀ c ∈ front, p c = true) (hback : ∀ c ∈ back.head?, p c = false) :
    (front ++ back).takeWhile p = front := by
  rw [List.takeWhile_append_of_pos hfront]
  cases back with
  | nil => simp
  | cons c back => simp [hback c rfl]

/-- All is taken if all passes. Counterpart of `List.takeWhile`. -/
theorem takeWhile_eq_self {p : Char → Bool} {text : List Char} (h : ∀ c ∈ text, p c = true) :
    text.takeWhile p = text := by
  simpa using @takeWhile_append_of_head p text [] h (by simp)

/-- What a word starts with is part of words. Counterpart of `isWordStart`. -/
theorem isWordChar_of_isWordStart {c : Char} (h : isWordStart c = true) : isWordChar c = true := by
  simp only [isWordStart, Bool.or_eq_true] at h
  simp only [isWordChar, Char.isAlphanum, Bool.or_eq_true]
  exact h.imp .inl id

/-- A letter and characters of words are one name or keyword. Counterpart of `word`. -/
theorem reads_word {first : Char} {rest : List Char} (hfirst : isWordStart first = true)
    (hrest : ∀ c ∈ rest, isWordChar c = true) : Reads (word first rest).1 (first :: rest) := by
  have hne := @ne_of_isWordStart _ hfirst
  have hskipped : isSkipped first = false := by
    have hfirm := isFirm_of (by decide) hfirst
    simp only [isFirm, Bool.and_eq_true, Bool.not_eq_true'] at hfirm
    exact hfirm.1
  refine ⟨first, rest, rfl, hskipped, fun atStart back hends => ?_⟩
  have hkind : ∀ c, (word first rest).1.endsBefore c = !isWordChar c := by
    intro c
    unfold word
    dsimp only
    split <;> rfl
  have htake : (rest ++ back).takeWhile isWordChar = rest :=
    takeWhile_append_of_head hrest fun c hc => by simpa [hkind] using hends c hc
  have hword : word first (rest ++ back) = ((word first rest).1, rest.length) := by
    unfold word
    rw [htake, takeWhile_eq_self hrest]
    dsimp only
    split <;> rfl
  simp [nextToken, hne '#' rfl, hne '-' rfl, hne '"' rfl, hne '\x27' rfl, hne '.' rfl,
    bracketLevel?_of_ne (hne '[' rfl), isDigit_of_isWordStart hfirst, hfirst, hword]

/-- A number is one token up to where it ends. Counterpart of `Kind.number`. -/
theorem reads_number {first : Char} {rest : List Char}
    (hfirst : first.isDigit = true ∨ (first = '.' ∧ rest.head?.any Char.isDigit = true)) :
    Reads .number (first :: rest.take (rest.length - (afterNumber (first :: rest)).length)) := by
  obtain ⟨text, hrest, hback⟩ := exists_number hfirst
  have htake : rest.take (rest.length - (afterNumber (first :: rest)).length) = text := by
    have hlength := congrArg List.length hrest
    rw [List.length_append] at hlength
    have hsub : rest.length - (afterNumber (first :: rest)).length = text.length := by omega
    rw [hsub]
    conv => lhs; rw [hrest]
    exact List.take_left
  rw [htake]
  have hne : ∀ other : Char, other.isDigit = false → other ≠ '.' → first ≠ other := by
    rintro other hdigit hdot rfl
    rcases hfirst with hfirst | ⟨hfirst, -⟩
    · rw [hfirst] at hdigit
      cases hdigit
    · exact hdot hfirst
  have hskipped : isSkipped first = false := by
    refine Bool.eq_false_iff.2 fun hskipped => ?_
    rcases hfirst with hdigit | ⟨rfl, -⟩
    · have hfirm := isFirm_of_isDigit hdigit
      simp [isFirm, hskipped] at hfirm
    · cases hskipped
  refine ⟨first, text, rfl, hskipped, fun atStart back hends => ?_⟩
  have hstart : first.isDigit = true ∨
      (first = '.' ∧ (text ++ back).head?.any Char.isDigit = true) := by
    rcases hfirst with hdigit | ⟨hdot, hdigit⟩
    · exact .inl hdigit
    · cases text with
      | nil =>
        -- What follows a number starts with no digit.
        rw [List.nil_append] at hrest
        rw [hrest] at hdigit
        obtain ⟨c, hc, hword⟩ := (Option.any_eq_true _ _).1 hdigit
        exact absurd (isWordChar_of_isDigit hword) (by simp [head_dropWhile _ c hc])
      | cons d text =>
        rw [hrest] at hdigit
        exact .inr ⟨hdot, hdigit⟩
  unfold nextToken
  rw [if_neg (by simp [hne '#' rfl (by decide)]), if_neg (by simp [hne '-' rfl (by decide)]),
    if_neg (by simp [hne '"' rfl (by decide), hne '\x27' rfl (by decide)]),
    bracketLevel?_of_ne (hne '[' rfl (by decide))]
  dsimp only
  rw [if_pos hstart, hback back hends, List.length_append, Nat.add_sub_cancel]

/-- What a symbol is written with, by computation. It has no blanks, and is read as itself. A few
symbols are also the start of a longer token of another kind. Counterpart of `Symbol.text`. -/
theorem symbol_text : ∀ mark ∈ Symbol.all, Symbol.read? mark.text.toList = some mark ∧
    mark.text.toList.all (!isSkipped ·) = true ∧
    mark.text.toList.head?.any (fun first => first ≠ '"' ∧ first ≠ '\x27' ∧ first.isDigit = false ∧
      isWordStart first = false ∧ (first = '#' → mark = .hash) ∧ (first = '-' → mark = .minus) ∧
      (first = '[' → mark = .leftSquare) ∧ (first = '.' → mark.text.toList.tail = [] ∧ mark = .dot ∨
        mark.text.toList.tail.head? = some '.')) = true := by
  decide +kernel

/-- A symbol is read before any text that goes on with no longer one. Counterpart of
`Symbol.read?`. -/
theorem read?_append {mark : Symbol} {back : List Char}
    (h : ∀ c ∈ back.head?, mark.goesOn c = false) :
    Symbol.read? (mark.text.toList ++ back) = some mark := by
  rw [← (symbol_text mark mark.mem_all).1]
  unfold Symbol.read?
  congr 1
  funext other
  rw [Bool.eq_iff_iff, List.isPrefixOf_iff_prefix, List.isPrefixOf_iff_prefix]
  refine ⟨fun hstarts => ?_, fun hstarts => hstarts.trans (List.prefix_append _ _)⟩
  rcases List.prefix_or_prefix_of_prefix hstarts
    (List.prefix_append _ _) with hshort | ⟨tail, htail⟩
  · exact hshort
  · cases tail with
    | nil => exact List.append_nil mark.text.toList ▸ htail ▸ List.prefix_rfl
    | cons c tail =>
      -- The symbol would go on with the first character of the text.
      rw [← htail, List.prefix_append_right_inj] at hstarts
      obtain ⟨rest, rfl⟩ := hstarts
      have hmore : mark.goesOn c = true := by
        refine List.any_eq_true.2 ⟨other, other.mem_all, List.isPrefixOf_iff_prefix.2 ⟨tail, ?_⟩⟩
        rw [← htail, List.append_assoc, List.singleton_append]
      rw [h c rfl] at hmore
      cases hmore

/-- A text that starts with a symbol, and not with a longer token, is read as the symbol.
Counterpart of `nextToken`. -/
theorem nextToken_symbol {first : Char} {rest : List Char} {mark : Symbol} (atStart : Bool)
    (hhash : first = '#' → rest.head? ≠ some '!') (hdash : first = '-' → rest.head? ≠ some '-')
    (hquote : first ≠ '"' ∧ first ≠ '\x27') (hbracket : bracketLevel? (first :: rest) = none)
    (hdigit : first.isDigit = false) (hdot : first = '.' → rest.head?.any Char.isDigit = false)
    (hword : isWordStart first = false) (hmark : Symbol.read? (first :: rest) = some mark) :
    nextToken atStart first rest = (.symbol mark, mark.text.length - 1) := by
  unfold nextToken
  rw [if_neg fun h => hhash h.1 h.2.2, if_neg fun h => hdash h.1 h.2,
    if_neg fun h => h.elim hquote.1 hquote.2, hbracket]
  dsimp only
  rw [if_neg (by simpa [hdigit] using hdot), if_neg (by simp [hword]), hmark]

/-- The text of a symbol is that symbol. Counterpart of `Kind.symbol`. -/
theorem reads_symbol (mark : Symbol) : Reads (.symbol mark) mark.text.toList := by
  obtain ⟨-, hblank, hhead⟩ := symbol_text mark mark.mem_all
  cases htext : mark.text.toList with
  | nil =>
    rw [htext] at hhead
    cases hhead
  | cons first rest =>
    have hskipped : isSkipped first = false := by
      simpa using List.all_eq_true.1 hblank first (by simp [htext])
    rw [htext] at hhead
    obtain ⟨hdouble, hsingle, hdigit, hword, hhash, hdash, hsquare, hdot⟩ := of_decide_eq_true hhead
    refine ⟨first, rest, rfl, hskipped, fun atStart back hends => ?_⟩
    have hread : Symbol.read? (first :: (rest ++ back)) = some mark := by
      rw [← List.cons_append, ← htext]
      refine read?_append fun c hc => ?_
      have hc := hends c hc
      simp only [Kind.endsBefore, Bool.and_eq_true, Bool.not_eq_true'] at hc
      exact hc.1
    have hlength : mark.text.length - 1 = rest.length := by
      rw [← String.length_toList, htext, List.length_cons, Nat.add_sub_cancel]
    -- The text of a symbol of one character is followed by what comes after it.
    have hrest : ∀ {c : Char}, mark.text.toList = [c] → rest ++ back = back := fun hone => by
      rw [htext] at hone
      rw [(List.cons.inj hone).2, List.nil_append]
    rw [← hlength]
    refine nextToken_symbol atStart (fun h => ?_)
      (fun h => ?_) ⟨hdouble, hsingle⟩ ?_ hdigit (fun h => ?_) hword hread
    · obtain rfl := hhash h
      rw [hrest rfl]
      exact fun hc => absurd (hends _ hc) (by decide)
    · obtain rfl := hdash h
      rw [hrest rfl]
      exact fun hc => absurd (hends _ hc) (by decide)
    · by_cases h : first = '['
      · obtain rfl := hsquare h
        rw [hrest rfl, h]
        cases back with
        | nil => rfl
        | cons c back =>
          have hc := hends c rfl
          simp only [Kind.endsBefore, Bool.and_eq_true, bne_iff_ne] at hc
          simp [bracketLevel?, hc.2.1, hc.2.2]
      · exact bracketLevel?_of_ne h _
    · rcases hdot h with ⟨-, rfl⟩ | hdots
      · rw [hrest rfl, Bool.eq_false_iff]
        intro hdigit
        obtain ⟨c, hc, hdigit⟩ := (Option.any_eq_true _ _).1 hdigit
        simpa [Kind.endsBefore, hdigit] using hends c hc
      · rw [List.tail_cons] at hdots
        rw [List.head?_append, hdots]
        rfl

/-- The text of a keyword is that keyword. Counterpart of `Kind.keyword`. -/
theorem reads_keyword (keyword : Keyword) : Reads (.keyword keyword) keyword.text.toList := by
  cases htext : keyword.text.toList with
  | nil => cases keyword <;> cases htext
  | cons first rest =>
    have hletters : keyword.text.toList.all isWordStart = true := by
      cases keyword <;> decide +kernel
    rw [htext, List.all_eq_true] at hletters
    have hrest : ∀ c ∈ rest, isWordChar c = true := fun c hc =>
      isWordChar_of_isWordStart (hletters c (by simp [hc]))
    have hreads := reads_word (hletters first (by simp)) hrest
    have hkind : (word first rest).1 = .keyword keyword := by
      unfold word
      dsimp only
      rw [takeWhile_eq_self hrest, ← htext, String.ofList_toList, Keyword.ofText?_text]
    rwa [hkind] at hreads

/-- A text of the form of a name is read as one. Counterpart of `isName`. -/
theorem reads_of_isName {name : String} (h : isName name = true) :
    Reads .identifier name.toList := by
  unfold isName at h
  split at h
  · cases h
  · rename_i c rest htext
    simp only [Bool.and_eq_true, Option.isNone_iff_eq_none] at h
    have hrest := List.all_eq_true.1 h.1.2
    have hword : (word c rest).1 = .identifier := by
      simp only [word, takeWhile_eq_self hrest, ← htext, String.ofList_toList, h.2]
    rw [htext, ← hword]
    exact reads_word h.1.1 hrest

/-- A token that was read is read again before any text that does not go on with it. Counterpart of
`nextToken`. -/
theorem reads_nextToken {atStart : Bool} {first : Char} {rest : List Char} {kind : Kind}
    {length : Nat} (h : nextToken atStart first rest = (kind, length))
    (hkind : kind.isWord = true) :
    Reads kind (first :: rest.take length) := by
  unfold nextToken at h
  split at h
  · cases h
    cases hkind
  split at h
  · rw [comment_eq] at h
    split at h
    · split at h <;> cases h <;> cases hkind
    · cases h
      cases hkind
  split at h
  · rename_i hquote
    unfold quoted at h
    cases hquoted : quotedLength first rest with
    | mk closed inner =>
      rw [hquoted] at h
      cases closed with
      | false =>
        cases h
        cases hkind
      | true =>
        cases h
        have hle := quotedLength_le first rest
        rw [hquoted] at hle
        have htake := @quotedLength_append _ _ [] _ hquoted
        rw [List.append_nil] at htake
        refine reads_string hquote (htake.trans ?_)
        rw [List.length_take, Nat.min_eq_left hle]
  split at h
  · rename_i level hbracket
    rw [longString_eq] at h
    split at h
    · rename_i inner hinner
      cases h
      obtain ⟨tail, hsource⟩ := exists_of_bracketLevel? hbracket
      obtain ⟨rfl, rfl⟩ := List.cons.inj hsource
      have hdrop : (List.replicate level '=' ++ '[' :: tail).drop (level + 1) = tail := by
        rw [List.drop_append]
        simp
      have htake : (List.replicate level '=' ++ '[' :: tail).take (level + 1 + inner) =
          List.replicate level '=' ++ '[' :: tail.take inner := by
        rw [List.take_add, hdrop, List.take_append]
        simp
      rw [hdrop] at hinner
      have hclosed := @bracketLength?_append _ _ _ [] hinner
      rw [List.append_nil] at hclosed
      rw [htake]
      refine reads_longString (hclosed.trans ?_)
      rw [List.length_take, Nat.min_eq_left (le_of_bracketLength? hinner).2]
    · cases h
      cases hkind
  split at h
  · rename_i hnumber
    cases h
    exact reads_number hnumber
  split at h
  · rename_i hstart
    have hall : ∀ c ∈ rest.takeWhile isWordChar, isWordChar c = true :=
      List.all_eq_true.1 List.all_takeWhile
    have hreads := reads_word hstart hall
    have hsame : word first (rest.takeWhile isWordChar) = word first rest := by
      unfold word
      rw [takeWhile_eq_self hall]
    have hlength : (word first rest).2 = (rest.takeWhile isWordChar).length := by
      unfold word
      dsimp only
      split <;> rfl
    rw [h] at hlength
    rw [hsame, h, List.prefix_iff_eq_take.1 (List.takeWhile_prefix isWordChar), ← hlength] at hreads
    exact hreads
  split at h
  · rename_i symbol hsymbol
    cases h
    rw [lexeme_symbol hsymbol]
    exact reads_symbol symbol
  · cases h
    cases hkind

/-- Tokens are read again when they are read from a source. Counterpart of `tokensFrom`. -/
theorem reads_of_mem {offset : Nat} {source : List Char} {token : Token}
    (h : token ∈ tokensFrom offset source) (hkind : token.kind.isWord = true) :
    Reads token.kind token.lexeme := by
  fun_induction tokensFrom offset source with
  | case1 => cases h
  | case2 offset c rest _ ih => exact ih h
  | case3 =>
    rename_i offset c rest _ kind length hnext lexeme ih
    rcases List.mem_cons.1 h with rfl | h
    · exact reads_nextToken hnext hkind
    · exact ih h

/-- A symbol is the longest one that the source starts with. Counterpart of `Symbol.read?`. -/
theorem symbol_of_nextToken {atStart : Bool} {first : Char} {rest : List Char} {mark : Symbol}
    {length : Nat} (h : nextToken atStart first rest = (.symbol mark, length)) :
    Symbol.read? (first :: rest) = some mark ∧ length = mark.text.length - 1 := by
  unfold nextToken comment longString quoted word at h
  grind

/-- A token by itself is read as such. Counterpart of `Reads`. -/
theorem Reads.nextToken_eq {kind : Kind} {first : Char} {rest : List Char}
    (h : Reads kind (first :: rest)) :
    nextToken false first rest = (kind, rest.length) := by
  obtain ⟨_, _, heq, -, hnext⟩ := h
  obtain ⟨rfl, rfl⟩ := List.cons.inj heq
  simpa using hnext false [] (by simp [Kind.EndsBefore])

/-- What is read as a symbol is its text. Counterpart of `Symbol.text`. -/
theorem Reads.lexeme_symbol {mark : Symbol} {lexeme : List Char} (h : Reads (.symbol mark) lexeme) :
    lexeme = mark.text.toList := by
  obtain ⟨first, rest, rfl, -⟩ := id h
  obtain ⟨hread, hlength⟩ := symbol_of_nextToken h.nextToken_eq
  rw [← Scan.lexeme_symbol hread, ← hlength, List.take_length]

/-- What is read as a keyword is its text. Counterpart of `Keyword.text`. -/
theorem Reads.lexeme_keyword {keyword : Keyword} {lexeme : List Char}
    (h : Reads (.keyword keyword) lexeme) : lexeme = keyword.text.toList := by
  obtain ⟨first, rest, rfl, -⟩ := id h
  have hword : word first rest = (.keyword keyword, rest.length) := by
    have hnext := h.nextToken_eq
    unfold nextToken comment longString quoted at hnext
    grind
  unfold word at hword
  dsimp only at hword
  split at hword
  · rename_i found hfound
    obtain ⟨hsame, hlength⟩ := Prod.mk.inj hword
    cases hsame
    rw [(List.takeWhile_prefix isWordChar).eq_of_length hlength] at hfound
    have htext : keyword.text = String.ofList (first :: rest) := by
      simpa using List.find?_some hfound
    rw [htext, String.toList_ofList]
  · cases hword

/-- A token does not end in a blank. Counterpart of `Reads`. -/
theorem Reads.isSkipped_getLast {kind : Kind} {lexeme : List Char} (h : Reads kind lexeme)
    (hkind : kind.isWord = true) : ∀ c ∈ lexeme.getLast?, isSkipped c = false := by
  intro c hc
  by_cases hoperand : isOperand kind = true
  · obtain ⟨first, rest, rfl, -⟩ := id h
    obtain ⟨d, hlast, hfirm⟩ := endsFirmly_nextToken h.nextToken_eq hoperand
    rw [List.take_length] at hlast
    cases hlast.symm.trans hc
    simp only [isFirm, Bool.and_eq_true, Bool.not_eq_true'] at hfirm
    exact hfirm.1
  · cases kind with
    | symbol mark =>
      have hblank := List.all_eq_true.1 (symbol_text mark mark.mem_all).2.1
      simpa using hblank c (h.lexeme_symbol ▸ List.mem_of_getLast? hc)
    | keyword _ | identifier | number | string | longString => exact absurd rfl hoperand
    | _ => cases hkind

/-! ## Texts -/

/-- The characters that no token goes on with: blanks, brackets that close, commas and
semicolons. -/
def stops : List Char :=
  [' ', '\t', '\n', '\r', '\x0b', '\x0c', ')', ']', '\x7d', ',', ';']

/-- Every token ends before these characters. Counterpart of `stops`. -/
theorem endsBefore_of_mem_stops {kind : Kind} {c : Char} (hkind : kind.isWord = true)
    (hc : c ∈ stops) :
    kind.endsBefore c = true := by
  have hstops : stops.all (fun c => decide (c ∉ ['.', ':', '/', '<', '>', '=', '-', '[', '!']) &&
      !c.isDigit && !isWordChar c && endsNumber c) = true := by decide
  have hstop := List.all_eq_true.1 hstops c hc
  simp only [Bool.and_eq_true, decide_eq_true_eq, Bool.not_eq_true'] at hstop
  obtain ⟨⟨⟨hmark, hdigit⟩, hword⟩, hnumber⟩ := hstop
  cases kind with
  | symbol mark =>
    have hgoes : mark.goesOn c = false := by
      refine Symbol.goesOn_eq_false (Symbol.followers_eq mark mark.mem_all) ?_
      split <;> simp_all
    simp only [Kind.endsBefore, hgoes, Bool.not_false, Bool.true_and]
    split <;> simp_all
  | keyword _ | identifier => simp [Kind.endsBefore, hword]
  | number => exact hnumber
  | string | longString => rfl
  | _ => cases hkind

/-- A token of a program ends before a blank. Counterpart of `Kind.endsBefore`. -/
theorem endsBefore_of_isSkipped {kind : Kind} {c : Char} (hkind : kind.isWord = true)
    (hc : isSkipped c = true) : kind.endsBefore c = true := by
  refine endsBefore_of_mem_stops hkind ?_
  have hblank : c ∈ [' ', '\t', '\n', '\r', '\x0b', '\x0c'] := by
    simpa [isSkipped, or_assoc] using hc
  exact List.mem_append_left [')', ']', '\x7d', ',', ';'] hblank

/-- The text is made of tokens, given by their kinds and lexemes, with blanks before, between and
after them. A token that is not followed by a blank is followed by something that does not go on
with it. -/
inductive Joined : List (Kind × List Char) → List Char → Prop
  | blank {gap : List Char} : (∀ c ∈ gap, isSkipped c = true) → Joined [] gap
  | token {gap lexeme back : List Char} {kind : Kind} {contents : List (Kind × List Char)} :
    (∀ c ∈ gap, isSkipped c = true) → Reads kind lexeme → kind.EndsBefore back →
    Joined contents back →
    Joined ((kind, lexeme) :: contents) (gap ++ lexeme ++ back)

/-- Blanks only move the tokens after them. Counterpart of `tokensFrom`. -/
theorem tokensFrom_gap {gap : List Char} (hgap : ∀ c ∈ gap, isSkipped c = true) (offset : Nat)
    (back : List Char) :
    tokensFrom offset (gap ++ back) = tokensFrom (offset + byteLength gap) back := by
  induction gap generalizing offset with
  | nil => rfl
  | cons c gap ih =>
    rw [List.cons_append, tokensFrom, if_pos (hgap c (by simp)),
      ih fun d hd => hgap d (by simp [hd]), byteLength, Nat.add_assoc]

/-- A token that is read whatever follows it comes before the tokens of the text after it.
Counterpart of `tokensFrom`. -/
theorem tokensFrom_reads {kind : Kind} {lexeme : List Char} (h : Reads kind lexeme)
    {back : List Char} (hends : kind.EndsBefore back) (offset : Nat) :
    tokensFrom offset (lexeme ++ back) =
      ⟨kind, offset, lexeme⟩ :: tokensFrom (offset + byteLength lexeme) back := by
  obtain ⟨first, rest, rfl, hskipped, hnext⟩ := h
  rw [List.cons_append, tokensFrom, if_neg (by simp [hskipped]), hnext _ back hends]
  dsimp only
  rw [List.take_left, List.drop_left]

/-- A text that is made of tokens is read as these tokens. Counterpart of `Joined`. -/
theorem Joined.map_content {contents : List (Kind × List Char)} {text : List Char}
    (h : Joined contents text) (offset : Nat) :
    (tokensFrom offset text).map (fun token => (token.kind, token.lexeme)) = contents := by
  induction h generalizing offset with
  | blank hgap =>
    have hnil := tokensFrom_gap hgap offset []
    rw [List.append_nil] at hnil
    rw [hnil, tokensFrom]
    rfl
  | @token gap lexeme back kind contents hgap hreads hends _ ih =>
    rw [List.append_assoc, tokensFrom_gap hgap, tokensFrom_reads hreads hends, List.map_cons, ih]

end Scan

end LuaFormatter
