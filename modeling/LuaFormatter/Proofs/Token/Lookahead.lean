import LuaFormatter.Proofs.Token.Reread

/-!
# Looking ahead at comments

A reader looks at what follows its token to find out where the token ends. What it sees there of a
comment is the first dash, and a space in the place of the dash ends every token where the comment
does: `nextToken_before_comment` says that a token that ends before a comment is read in the same
way before a space. `StopsAlike` is this statement for the stages of a number, of which the exponent
is the one that may take the dash for a sign.
-/

namespace LuaFormatter.Scan

section
variable {α : Type} {p : α → Bool}

/-- Items are passed over up to one that is not, whatever follows it. Counterpart of
`List.dropWhile`. -/
theorem dropWhile_append_cons {c : α} (hc : p c = false) (front back : List α) :
    (front ++ c :: back).dropWhile p = front.dropWhile p ++ c :: back := by
  induction front with
  | nil => simp [hc]
  | cons d front ih =>
    rw [List.cons_append, List.dropWhile_cons, List.dropWhile_cons]
    split
    · exact ih
    · rfl

/-- Items are taken up to one that is not, whatever follows it. Counterpart of
`dropWhile_append_cons`. -/
theorem takeWhile_append_cons {c : α} (hc : p c = false) (front back : List α) :
    (front ++ c :: back).takeWhile p = front.takeWhile p := by
  induction front with
  | nil => simp [hc]
  | cons d front ih => rw [List.cons_append, List.takeWhile_cons, List.takeWhile_cons, ih]

/-- A text without a character is before it if it starts a text that holds it. Counterpart of
`List.IsPrefix`. -/
theorem prefix_append_cons_iff {text front back : List α} {c : α} (hc : c ∉ text) :
    text <+: front ++ c :: back ↔ text <+: front := by
  constructor
  · intro h
    rcases List.prefix_or_prefix_of_prefix h
      (List.prefix_append front (c :: back)) with hfront | ⟨rest, rfl⟩
    · exact hfront
    · rw [List.prefix_append_right_inj] at h
      cases rest with
      | nil => simp
      | cons d rest =>
        obtain ⟨rfl, -⟩ := List.cons_prefix_cons.1 h
        simp at hc
  · intro h
    exact h.trans (List.prefix_append front (c :: back))

end

/-! ## Stages of a number -/

section
variable {front back other : List Char} {p : Char → Bool}

/-- What a reader leaves is the same before a comment and before a space, or it takes the dash
too. -/
def StopsAlike (read : List Char → List Char) (front back : List Char) : Prop :=
  (∃ kept, read (front ++ '-' :: back) = kept ++ '-' :: back ∧
    ∀ other, read (front ++ ' ' :: other) = kept ++ ' ' :: other) ∨
  (read (front ++ '-' :: back)).length ≤ back.length

/-- Characters that pass a test stop at a dash and a space if neither passes. Counterpart of
`StopsAlike`. -/
theorem stopsAlike_dropWhile (hdash : p '-' = false) (hspace : p ' ' = false)
    (front back : List Char) :
    StopsAlike (List.dropWhile p) front back := by
  refine .inl ⟨front.dropWhile p, dropWhile_append_cons hdash front back, ?_⟩
  intro other
  exact dropWhile_append_cons hspace front other

/-- One stage after another, if the second adds nothing. Counterpart of `StopsAlike`. -/
theorem StopsAlike.andThen {read next : List Char → List Char} (h : StopsAlike read front back)
    (hnext : ∀ kept, StopsAlike next kept back)
    (hlength : ∀ text, (next text).length ≤ text.length) :
    StopsAlike (fun text => next (read text)) front back := by
  rcases h with ⟨kept, hdash, hspace⟩ | hshort
  · rcases hnext kept with ⟨more, hdash', hspace'⟩ | hshort
    · refine .inl ⟨more, ?_, ?_⟩
      · show next (read _) = _
        rw [hdash, hdash']
      · intro other
        show next (read _) = _
        rw [hspace, hspace']
    · refine .inr ?_
      show (next (read _)).length ≤ _
      rwa [hdash]
  · exact .inr (Nat.le_trans (hlength _) hshort)

/-- Without a dot there is no fraction. Counterpart of `afterFraction`. -/
theorem afterFraction_of_ne {c : Char} (hc : c ≠ '.') (rest : List Char) :
    afterFraction p (c :: rest) = c :: rest := by
  unfold afterFraction
  split
  · rename_i heq
    exact absurd (List.cons.inj heq).1 hc
  · rfl

/-- A fraction stops at a dash and a space. Counterpart of `afterFraction`. -/
theorem stopsAlike_afterFraction (hdash : p '-' = false) (hspace : p ' ' = false)
    (front back : List Char) : StopsAlike (afterFraction p) front back := by
  cases front with
  | nil =>
    exact .inl ⟨[], afterFraction_of_ne (by simp) _, fun _ => afterFraction_of_ne (by simp) _⟩
  | cons c front =>
    by_cases hc : c = '.'
    · subst hc
      have hstep : ∀ c : Char, c ≠ '.' → p c = false → ∀ tail : List Char,
          afterFraction p ('.' :: (front ++ c :: tail)) =
            (if front.head? == some '.' then '.' :: front else front.dropWhile p) ++ c :: tail := by
        intro c hc hp tail
        have hhead : ((front ++ c :: tail).head? == some '.') = (front.head? == some '.') := by
          cases front <;> simp [hc]
        rw [afterFraction, hhead, dropWhile_append_cons hp]
        split <;> rfl
      refine .inl ⟨_, hstep '-' (by simp) hdash back, ?_⟩
      intro other
      exact hstep ' ' (by simp) hspace other
    · exact .inl ⟨c :: front, afterFraction_of_ne hc _, fun _ => afterFraction_of_ne hc _⟩

/-- A fraction is read off the front. Counterpart of `afterFraction`. -/
theorem length_afterFraction_le (source : List Char) :
    (afterFraction p source).length ≤ source.length := by
  unfold afterFraction
  split
  · rename_i rest
    have := (List.dropWhile_sublist p (l := rest)).length_le
    split <;> simp only [List.length_cons] <;> omega
  · exact Nat.le_refl _

/-- An exponent is read off the front. Counterpart of `afterExponent`. -/
theorem length_afterExponent_le (source : List Char) :
    (afterExponent p source).length ≤ source.length := by
  have hdrop : ∀ text : List Char, (text.dropWhile Char.isDigit).length ≤ text.length :=
    fun text => (List.dropWhile_sublist Char.isDigit).length_le
  unfold afterExponent
  split
  · exact Nat.le_refl _
  · rename_i c rest
    split
    · split
      · rename_i digits
        have := hdrop digits
        simp only [List.length_cons]
        omega
      · rename_i digits
        have := hdrop digits
        simp only [List.length_cons]
        omega
      · have := hdrop rest
        simp only [List.length_cons]
        omega
    · exact Nat.le_refl _

/-- An exponent is the stage that may take the dash, for its sign. Counterpart of
`afterExponent`. -/
theorem stopsAlike_afterExponent (hdash : p '-' = false) (hspace : p ' ' = false)
    (front back : List Char) : StopsAlike (afterExponent p) front back := by
  cases front with
  | nil => exact .inl ⟨[], by simp [afterExponent, hdash], fun _ => by simp [afterExponent, hspace]⟩
  | cons c front =>
    cases hc : p c with
    | false =>
      exact .inl ⟨c :: front, by simp [afterExponent, hc], fun _ => by simp [afterExponent, hc]⟩
    | true =>
      cases front with
      | nil =>
        refine .inr ?_
        simp only [List.cons_append, List.nil_append, afterExponent, hc, if_true]
        exact (List.dropWhile_sublist Char.isDigit).length_le
      | cons d front =>
        by_cases hsign : d = '+' ∨ d = '-'
        · have hstep : ∀ tail : List Char,
              afterExponent p (c :: d :: tail) = tail.dropWhile Char.isDigit := by
            intro tail
            rcases hsign with rfl | rfl <;> simp [afterExponent, hc]
          refine .inl ⟨front.dropWhile Char.isDigit, ?_, ?_⟩
          · exact (hstep _).trans (dropWhile_append_cons rfl front back)
          · intro other
            exact (hstep _).trans (dropWhile_append_cons rfl front other)
        · rw [not_or] at hsign
          have hstep : ∀ tail : List Char,
              afterExponent p (c :: d :: tail) = (d :: tail).dropWhile Char.isDigit := by
            intro tail
            exact afterExponent_mark hc ⟨by simpa using hsign.1, by simpa using hsign.2⟩
          refine .inl ⟨(d :: front).dropWhile Char.isDigit, ?_, ?_⟩
          · exact (hstep _).trans (dropWhile_append_cons rfl (d :: front) back)
          · intro other
            exact (hstep _).trans (dropWhile_append_cons rfl (d :: front) other)

/-- The stages of a number stop at a dash and a space, but for a dash that is the sign of an
exponent. Counterpart of `afterStages`. -/
theorem stopsAlike_afterStages {isDigit isMark : Char → Bool}
    (hdigit : isDigit '-' = false ∧ isDigit ' ' = false)
    (hmark : isMark '-' = false ∧ isMark ' ' = false) (front back : List Char) :
    StopsAlike (afterStages isDigit isMark) front back := by
  have hdrop : ∀ (q : Char → Bool) (text : List Char), (text.dropWhile q).length ≤ text.length :=
    fun q text => (List.dropWhile_sublist q).length_le
  have hfraction : StopsAlike (fun text => afterFraction isDigit (text.dropWhile isDigit))
      front back :=
    (stopsAlike_dropWhile hdigit.1 hdigit.2 front back).andThen
      (fun kept => stopsAlike_afterFraction hdigit.1 hdigit.2 kept back) length_afterFraction_le
  have hexponent := hfraction.andThen
    (fun kept => stopsAlike_afterExponent hmark.1 hmark.2 kept back) length_afterExponent_le
  exact hexponent.andThen
    (fun kept => stopsAlike_dropWhile (p := isWordChar) rfl rfl kept back) (hdrop isWordChar)

/-- A number stops at a dash and a space, but for a dash that is the sign of an exponent.
Counterpart of `afterNumber`. -/
theorem stopsAlike_afterNumber (first : Char) (front back : List Char) :
    StopsAlike afterNumber (first :: front) back := by
  have hdecimal :
      (∀ c tail, c = '-' ∨ c = ' ' → startsHex (first :: (front ++ c :: tail)) = false) →
      StopsAlike afterNumber (first :: front) back := by
    intro hstarts
    have hread : ∀ c tail, c = '-' ∨ c = ' ' → afterNumber (first :: front ++ c :: tail) =
        afterStages Char.isDigit (fun c => c == 'e' || c == 'E') (first :: front ++ c :: tail) := by
      intro c tail hc
      exact afterNumber_decimal (hstarts c tail hc)
    have hstages : StopsAlike (afterStages Char.isDigit fun c => c == 'e' || c == 'E')
        (first :: front) back :=
      stopsAlike_afterStages ⟨rfl, rfl⟩ ⟨rfl, rfl⟩ (first :: front) back
    unfold StopsAlike
    rw [hread '-' back (.inl rfl)]
    rcases hstages with ⟨kept, hdash, hspace⟩ | hshort
    · refine .inl ⟨kept, hdash, ?_⟩
      intro other
      rw [hread ' ' other (.inr rfl), hspace other]
    · exact .inr hshort
  cases front with
  | nil =>
    refine hdecimal ?_
    intro c tail hc
    unfold startsHex
    split
    · rename_i heq
      obtain ⟨-, rfl, -⟩ := by simpa using heq
      rcases hc with rfl | rfl <;> rfl
    · rfl
  | cons c front =>
    by_cases hhex : first = '0' ∧ (c == 'x' || c == 'X') = true
    · obtain ⟨rfl, hc⟩ := hhex
      have hstages : StopsAlike (afterStages isHexDigit fun c => c == 'p' || c == 'P') front back :=
        stopsAlike_afterStages ⟨rfl, rfl⟩ ⟨rfl, rfl⟩ front back
      unfold StopsAlike
      rw [List.cons_append, List.cons_append, afterNumber_hex hc]
      rcases hstages with ⟨kept, hdash, hspace⟩ | hshort
      · refine .inl ⟨kept, hdash, ?_⟩
        intro other
        rw [List.cons_append, List.cons_append, afterNumber_hex hc, hspace other]
      · exact .inr hshort
    · refine hdecimal ?_
      intro d tail hd
      unfold startsHex
      split
      · rename_i heq
        obtain ⟨rfl, rfl, -⟩ := by simpa using heq
        exact Bool.eq_false_iff.2 fun hx => hhex ⟨rfl, hx⟩
      · rfl

/-! ## The other readers -/

/-- A quoted string without a closing quote ends where the line does. Counterpart of
`quotedLength`. -/
theorem quotedLength_open {quote : Char} {source : List Char} {length : Nat}
    (h : quotedLength quote source = (false, length)) :
    source.length ≤ length ∨ source[length]? = some '\n' ∧
      ∀ back, quotedLength quote (source.take length ++ '\n' :: back) = (false, length) := by
  fun_induction quotedLength quote source generalizing length with
  | case1 | case2 =>
    cases h
    exact .inl (Nat.le_refl _)
  | case3 c rest closed inner hinner ih =>
    cases h
    rcases ih hinner with hend | ⟨hline, hback⟩
    · exact .inl (by simpa using hend)
    · refine .inr ⟨by simpa using hline, ?_⟩
      intro back
      rw [List.take_succ_cons, List.take_succ_cons, List.cons_append, List.cons_append,
        quotedLength_escape, hback]
  | case4 rest =>
    cases h
    refine .inr ⟨rfl, ?_⟩
    intro back
    rw [List.take_zero, List.nil_append, quotedLength_cons (by decide), if_pos rfl]
  | case5 => simp at h
  | case6 c rest hnil hcons hline hquote closed inner hinner ih =>
    cases h
    rcases ih hinner with hend | ⟨hfeed, hback⟩
    · exact .inl (by simpa using hend)
    · refine .inr ⟨by simpa using hfeed, ?_⟩
      intro back
      rw [List.take_succ_cons, List.cons_append, quotedLength_cons (ne_backslash hnil hcons),
        if_neg hline, if_neg hquote, hback]

/-- A quoted string that ends in the front of a text is the same before any other text. Counterpart
of `quotedLength`. -/
theorem quotedLength_front {quote : Char} {front back other : List Char}
    (h : (quotedLength quote (front ++ '-' :: back)).2 ≤ front.length) :
    quotedLength quote (front ++ ' ' :: other) = quotedLength quote (front ++ '-' :: back) := by
  rcases hread : quotedLength quote (front ++ '-' :: back) with ⟨closed, length⟩
  rw [hread] at h
  dsimp only at h
  have htake : (front ++ '-' :: back).take length = front.take length :=
    List.take_append_of_le_length h
  cases closed with
  | true =>
    have hagain := @quotedLength_append _ _ (front.drop length ++ ' ' :: other) _ hread
    rwa [htake, ← List.append_assoc, List.take_append_drop] at hagain
  | false =>
    rcases quotedLength_open hread with hend | ⟨hfeed, hback⟩
    · simp only [List.length_append, List.length_cons] at hend
      omega
    · have hlt : length < front.length := by
        refine Nat.lt_of_le_of_ne h ?_
        rintro rfl
        simp at hfeed
      rw [List.getElem?_append_left hlt] at hfeed
      obtain ⟨_, hget⟩ := List.getElem?_eq_some_iff.1 hfeed
      have hdrop : front.drop length = '\n' :: front.drop (length + 1) := by
        rw [List.drop_eq_getElem_cons hlt, hget]
      have hagain := hback (front.drop (length + 1) ++ ' ' :: other)
      rwa [htake, ← List.cons_append, ← hdrop, ← List.append_assoc, List.take_append_drop] at hagain

/-- The level of an opening bracket does not depend on what follows a character that is part of
none. Counterpart of `bracketLevel?`. -/
theorem bracketLevel?_append_cons {d : Char} (hequals : d ≠ '=') (hopen : d ≠ '[')
    (front tail : List Char) : bracketLevel? (front ++ d :: tail) = bracketLevel? front := by
  cases front with
  | nil => exact bracketLevel?_of_ne hopen tail
  | cons c front =>
    by_cases hc : c = '['
    · subst hc
      have htake : (front ++ d :: tail).takeWhile (· == '=') = front.takeWhile (· == '=') :=
        takeWhile_append_cons (by simpa using hequals) front tail
      rw [List.cons_append, bracketLevel?, bracketLevel?, htake]
      have hle : (front.takeWhile (· == '=')).length ≤ front.length :=
        (List.takeWhile_sublist _).length_le
      rcases Nat.lt_or_eq_of_le hle with hlt | heq
      · rw [List.getElem?_append_left hlt]
      · rw [heq]
        simp [hopen]
    · rw [List.cons_append, bracketLevel?_of_ne hc, bracketLevel?_of_ne hc]

/-- Neither a dash nor a space is part of an opening long bracket. Counterpart of
`bracketLevel?`. -/
theorem bracketLevel?_front (front back other : List Char) :
    bracketLevel? (front ++ ' ' :: other) = bracketLevel? (front ++ '-' :: back) := by
  rw [bracketLevel?_append_cons (by decide) (by decide),
    bracketLevel?_append_cons (by decide) (by decide)]

/-- A line that ends in the front of a text is the same before any other text. Counterpart of
`lineLength`. -/
theorem lineLength_front {front back other : List Char}
    (h : lineLength (front ++ '-' :: back) ≤ front.length) :
    lineLength (front ++ ' ' :: other) = lineLength (front ++ '-' :: back) := by
  have hline : ∀ tail : List Char, (front ++ tail).takeWhile (· != '\n') =
      if (front.takeWhile (· != '\n')).length = front.length then
        front ++ tail.takeWhile (· != '\n') else front.takeWhile (· != '\n') :=
    fun tail => List.takeWhile_append
  unfold lineLength at h ⊢
  rw [hline] at h ⊢
  rw [hline]
  by_cases hfeed : (front.takeWhile (· != '\n')).length = front.length
  · -- The line would go on past the dash, and a carriage return is not the dash.
    exfalso
    rw [if_pos hfeed, List.takeWhile_cons_of_pos rfl] at h
    cases hrest : back.takeWhile (· != '\n') with
    | nil =>
      have hdash : ((front ++ ['-']).getLast? == some '\r') = false := by simp
      simp only [hrest, hdash, Bool.false_eq_true, if_false, List.length_append,
        List.length_singleton] at h
      omega
    | cons c line =>
      simp only [hrest, List.length_append, List.length_cons] at h
      split at h <;> omega
  · rw [if_neg hfeed, if_neg hfeed]

/-- The dash of a comment goes on with no symbol, since it starts a symbol only on its own.
Counterpart of `Symbol.read?`. -/
theorem read?_front (first : Char) (front back other : List Char) :
    Symbol.read? (first :: front ++ ' ' :: other) =
      Symbol.read? (first :: front ++ '-' :: back) := by
  have hmarks : ∀ mark ∈ Symbol.all, ' ' ∉ mark.text.toList ∧
      (mark.text.toList = ['-'] ∨ '-' ∉ mark.text.toList) := by decide +kernel
  unfold Symbol.read?
  congr 1
  funext mark
  obtain ⟨hspace, hdash⟩ := hmarks mark mark.mem_all
  rw [Bool.eq_iff_iff, List.isPrefixOf_iff_prefix, List.isPrefixOf_iff_prefix]
  rcases hdash with hdash | hdash
  · rw [hdash, List.cons_append, List.cons_append, List.cons_prefix_cons, List.cons_prefix_cons]
    simp
  · rw [prefix_append_cons_iff hspace, prefix_append_cons_iff hdash]

/-- A long string that ends before a dash ends there before a space. Counterpart of `longString`. -/
theorem longString_front {level length : Nat} {kind : Kind}
    (h : longString level (front ++ '-' :: back) = (kind, length))
    (hlength : length ≤ front.length) :
    longString level (front ++ ' ' :: other) = (kind, length) := by
  rw [longString_eq] at h ⊢
  cases hclose : bracketLength? level ((front ++ '-' :: back).drop (level + 1)) with
  | none =>
    rw [hclose] at h
    obtain ⟨-, rfl⟩ := Prod.mk.inj h
    simp only [List.length_append, List.length_cons] at hlength
    omega
  | some close =>
    rw [hclose] at h
    obtain ⟨rfl, rfl⟩ := Prod.mk.inj h
    have hdrop : ∀ tail : List Char,
        (front ++ tail).drop (level + 1) = front.drop (level + 1) ++ tail := by
      intro tail
      rw [List.drop_append_of_le_length (by omega)]
    have hagain :=
      @bracketLength?_append _ _ _ ((front.drop (level + 1)).drop close ++ ' ' :: other) hclose
    rw [hdrop, List.take_append_of_le_length (by rw [List.length_drop]; omega), ← List.append_assoc,
      List.take_append_drop] at hagain
    rw [hdrop, hagain]

/-- A word ends before a dash where it ends before a space. Counterpart of `word`. -/
theorem word_front (first : Char) (front back other : List Char) :
    word first (front ++ ' ' :: other) = word first (front ++ '-' :: back) := by
  unfold word
  rw [takeWhile_append_cons rfl, takeWhile_append_cons rfl]

/-- A token that ends before a comment is the same token before a space. Counterpart of
`nextToken`. -/
theorem nextToken_before_comment {atStart : Bool} {first : Char} {kind : Kind} {length : Nat}
    (h : nextToken atStart first (front ++ '-' :: back) = (kind, length))
    (hlength : length ≤ front.length) (hkind : kind.isComment = false) (other : List Char) :
    nextToken atStart first (front ++ ' ' :: other) = (kind, length) := by
  have hbang : (front ++ ' ' :: other).head? = some '!' ↔
      (front ++ '-' :: back).head? = some '!' := by
    cases front with
    | nil => simp
    | cons d front => exact Iff.rfl
  have hdigits : (front ++ ' ' :: other).head?.any Char.isDigit =
      (front ++ '-' :: back).head?.any Char.isDigit := by
    cases front <;> rfl
  unfold nextToken at h ⊢
  rw [← List.cons_append, bracketLevel?_front _ back, word_front _ _ back, read?_front _ _ back]
  split at h
  · -- A shebang takes the rest of its line.
    rename_i hshebang
    obtain ⟨rfl, rfl⟩ := Prod.mk.inj h
    rw [if_pos ⟨hshebang.1, hshebang.2.1, hbang.2 hshebang.2.2⟩, lineLength_front hlength]
  rename_i hshebang
  rw [if_neg fun hshebang' => hshebang ⟨hshebang'.1, hshebang'.2.1, hbang.1 hshebang'.2.2⟩]
  split at h
  · have hcomment : ∀ rest, (comment rest).1.isComment = true := by
      intro rest
      unfold comment
      split
      · split <;> rfl
      · rfl
    have := hcomment (front ++ '-' :: back)
    rw [h, hkind] at this
    cases this
  rename_i hcomment
  have hcomment' : ¬(first = '-' ∧ (front ++ ' ' :: other).head? = some '-') := by
    rintro ⟨hfirst, hdash⟩
    cases front with
    | nil => simp at hdash
    | cons d front => exact hcomment ⟨hfirst, hdash⟩
  rw [if_neg hcomment']
  split at h
  · -- A quoted string.
    rename_i hquote
    rw [if_pos hquote]
    unfold quoted at h ⊢
    obtain ⟨hclosed, hlen⟩ := Prod.mk.inj h
    rw [quotedLength_front (by rw [hlen]; exact hlength), ← hclosed, ← hlen]
  rename_i hquote
  rw [if_neg hquote]
  rw [← List.cons_append] at h
  cases hlevel : bracketLevel? (first :: front ++ '-' :: back) with
  | some level =>
    rw [hlevel] at h
    exact longString_front h hlength
  | none =>
    rw [hlevel] at h
    dsimp only at h ⊢
    split at h
    · rename_i hdigit
      rw [if_pos (by rwa [hdigits])]
      obtain ⟨rfl, hlen⟩ := Prod.mk.inj h
      rcases stopsAlike_afterNumber first front back with ⟨kept, hdash, hspace⟩ | hshort
      · rw [hspace, ← hlen, hdash]
        simp only [List.length_append, List.length_cons]
        congr 1
        omega
      · -- The number would take the dash.
        simp only [List.cons_append, List.length_append, List.length_cons] at hlen hshort
        omega
    · rename_i hdigit
      rw [if_neg (by rwa [hdigits])]
      exact h

end

end LuaFormatter.Scan
