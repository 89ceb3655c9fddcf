import LuaFormatter.Token.Scan

/-!
# Numbers end where they did

A number is read in stages: digits, a fraction, an exponent and the word characters after them. Each
stage looks at the characters that it takes and at one more, so a number is read in the same way
before any text that does not go on with one (`exists_number`).
-/

namespace LuaFormatter.Scan

/-- The character goes on with no number. -/
def endsNumber (c : Char) : Bool :=
  !isWordChar c && c != '.' && c != '+' && c != '-'

/-- The text goes on with no number. -/
def EndsNumber (back : List Char) : Prop :=
  ∀ c ∈ back.head?, endsNumber c = true

/-- What goes on with no number starts with no character that could be part of one. Counterpart of
`EndsNumber`. -/
theorem EndsNumber.ne {back : List Char} (h : EndsNumber back) {c : Char}
    (hc : back.head? = some c) :
    isWordChar c = false ∧ c ≠ '.' ∧ c ≠ '+' ∧ c ≠ '-' := by
  simpa [endsNumber, and_assoc] using h c hc

/-- Digits are part of words. Counterpart of `isWordChar`. -/
theorem isWordChar_of_isDigit {c : Char} (h : c.isDigit = true) : isWordChar c = true := by
  simp [isWordChar, Char.isAlphanum, h]

/-- Hexadecimal digits are part of words. Counterpart of `isHexDigit`. -/
theorem isWordChar_of_isHexDigit {c : Char} (h : isHexDigit c = true) : isWordChar c = true := by
  simp only [isHexDigit, Bool.or_eq_true, Bool.and_eq_true, decide_eq_true_eq] at h
  rcases h with (h | h) | h
  · exact isWordChar_of_isDigit h
  · have hz : c ≤ 'z' := Char.le_trans h.2 (by decide)
    have hlower : c.isLower = true := by
      show (decide ('a' ≤ c) && decide (c ≤ 'z')) = true
      rw [decide_eq_true h.1, decide_eq_true hz, Bool.and_true]
    have halpha : c.isAlpha = true := (congrArg (c.isUpper || ·) hlower).trans (Bool.or_true _)
    simp [isWordChar, Char.isAlphanum, halpha]
  · have hz : c ≤ 'Z' := Char.le_trans h.2 (by decide)
    have hupper : c.isUpper = true := decide_eq_true ⟨h.1, hz⟩
    have halpha : c.isAlpha = true := (congrArg (· || c.isLower) hupper).trans (Bool.true_or _)
    simp [isWordChar, Char.isAlphanum, halpha]

/-- Nothing is dropped where the first item does not pass. Counterpart of `List.dropWhile`. -/
theorem dropWhile_of_head {p : Char → Bool} {back : List Char} (h : ∀ c ∈ back.head?, p c = false) :
    back.dropWhile p = back := by
  cases back with
  | nil => rfl
  | cons c rest => simp [h c rfl]

/-- Characters that are passed over are passed over before another text too. Counterpart of
`List.dropWhile`. -/
theorem dropWhile_takeWhile_append {p : Char → Bool} (source : List Char) {back : List Char}
    (h : ∀ c ∈ back.head?, p c = false) : (source.takeWhile p ++ back).dropWhile p = back := by
  rw [List.dropWhile_append_of_pos, dropWhile_of_head h]
  exact List.all_eq_true.1 List.all_takeWhile

/-- What follows a stage starts as it did, or goes on with no number. -/
def GoesOn (rest back : List Char) : Prop :=
  back.head? = rest.head? ∨ EndsNumber back

/-- What follows goes on in the same way behind a text. Counterpart of `GoesOn`. -/
theorem GoesOn.append {rest back : List Char} (middle : List Char) (h : GoesOn rest back) :
    GoesOn (middle ++ rest) (middle ++ back) := by
  cases middle with
  | nil => exact h
  | cons c middle => exact .inl rfl

section
variable {isDigit isMark : Char → Bool} {source rest back : List Char}

/-- Where no digit followed, none follows. Counterpart of `GoesOn`. -/
theorem GoesOn.not_digit (hdigit : ∀ c, isDigit c = true → isWordChar c = true)
    (hrest : ∀ c ∈ rest.head?, isDigit c = false) (h : GoesOn rest back) :
    ∀ c ∈ back.head?, isDigit c = false := by
  intro c hc
  rcases h with h | h
  · exact hrest c (by rwa [← h])
  · cases hcases : isDigit c with
    | false => rfl
    | true => exact absurd (hdigit c hcases) (by simp [(h.ne hc).1])

/-- After the digits comes no digit. Counterpart of `List.dropWhile`. -/
theorem head_dropWhile (source : List Char) :
    ∀ c ∈ (source.dropWhile isDigit).head?, isDigit c = false := by
  intro c hc
  have := List.head?_dropWhile_not isDigit source
  rw [Option.mem_def] at hc
  rw [hc] at this
  simpa using this

/-- The characters of a fraction. Counterpart of `afterFraction`. -/
theorem exists_fraction (hdigit : ∀ c, isDigit c = true → isWordChar c = true)
    (hsource : ∀ c ∈ source.head?, isDigit c = false) :
    ∃ text, source = text ++ afterFraction isDigit source ∧
      (∀ c ∈ (afterFraction isDigit source).head?, isDigit c = false) ∧
      ∀ back, GoesOn (afterFraction isDigit source) back → back.head? ≠ some '.' →
        afterFraction isDigit (text ++ back) = back := by
  have hother : ∀ back : List Char, back.head? ≠ some '.' → afterFraction isDigit back = back := by
    intro back hback
    unfold afterFraction
    split
    · exact absurd rfl hback
    · rfl
  unfold afterFraction
  split
  · rename_i rest
    split
    · exact ⟨[], rfl, hsource, fun back _ hback => hother back hback⟩
    · rename_i hdot
      refine ⟨'.' :: rest.takeWhile isDigit, ?_, head_dropWhile rest, fun back hback hne => ?_⟩
      · rw [List.cons_append, List.takeWhile_append_dropWhile]
      · have hhead : (rest.takeWhile isDigit ++ back).head? ≠ some '.' := by
          cases hdigits : rest.takeWhile isDigit with
          | nil => exact hne
          | cons c digits =>
            cases rest with
            | nil => simp at hdigits
            | cons d rest =>
              intro hc
              rw [List.takeWhile_cons] at hdigits
              split at hdigits
              · cases hdigits
                exact hdot (by simpa using hc)
              · cases hdigits
        show (if (rest.takeWhile isDigit ++ back).head? == some '.' then _ else _) = back
        rw [if_neg (by simpa using hhead)]
        exact dropWhile_takeWhile_append rest (hback.not_digit hdigit (head_dropWhile rest))
  · exact ⟨[], rfl, hsource, fun back _ hback => hother back hback⟩

/-- The digits before what goes on. Counterpart of `GoesOn`. -/
theorem GoesOn.takeWhile {p : Char → Bool} (h : GoesOn (source.dropWhile p) back) :
    GoesOn source (source.takeWhile p ++ back) := by
  have happend := h.append (source.takeWhile p)
  rwa [List.takeWhile_append_dropWhile] at happend

/-- Where no sign followed, none follows. Counterpart of `GoesOn`. -/
theorem GoesOn.not_sign (hrest : rest.head? ≠ some '+' ∧ rest.head? ≠ some '-')
    (h : GoesOn rest back) :
    back.head? ≠ some '+' ∧ back.head? ≠ some '-' := by
  rcases h with h | h
  · rwa [h]
  · exact ⟨fun hc => (h.ne hc).2.2.1 rfl, fun hc => (h.ne hc).2.2.2 rfl⟩

/-- An exponent without a sign is a mark and digits. Counterpart of `afterExponent`. -/
theorem afterExponent_mark {c : Char} (hc : isMark c = true)
    (hrest : rest.head? ≠ some '+' ∧ rest.head? ≠ some '-') :
    afterExponent isMark (c :: rest) = rest.dropWhile Char.isDigit := by
  simp only [afterExponent, hc, if_true]
  split
  · exact absurd rfl hrest.1
  · exact absurd rfl hrest.2
  · rfl

/-- The characters of an exponent. Counterpart of `afterExponent`. -/
theorem exists_exponent (hmark : ∀ c, isMark c = true → isWordChar c = true) (source : List Char) :
    ∃ text, source = text ++ afterExponent isMark source ∧ (∀ c ∈ text.head?, isMark c = true) ∧
      ∀ back, GoesOn (afterExponent isMark source) back →
      afterExponent isMark (text ++ back) = back := by
  have hother : ∀ back : List Char, (∀ c ∈ back.head?, isMark c = false) →
      afterExponent isMark back = back := by
    intro back hback
    cases back with
    | nil => rfl
    | cons c back => simp [afterExponent, hback c rfl]
  by_cases hsource : ∀ c ∈ source.head?, isMark c = false
  · rw [hother source hsource]
    exact ⟨[], rfl, by simp, fun back hback => hother back (hback.not_digit hmark hsource)⟩
  · obtain ⟨c, rest, rfl, hc⟩ : ∃ c rest, source = c :: rest ∧ isMark c = true := by
      cases source with
      | nil => simp at hsource
      | cons c rest => exact ⟨c, rest, rfl, by simpa using hsource⟩
    have hback : ∀ digits : List Char, ∀ back, GoesOn (digits.dropWhile Char.isDigit) back →
        (digits.takeWhile Char.isDigit ++ back).dropWhile Char.isDigit = back :=
        fun digits back hback =>
      dropWhile_takeWhile_append digits
        (hback.not_digit (fun _ => isWordChar_of_isDigit) (head_dropWhile digits))
    by_cases hsign : rest.head? ≠ some '+' ∧ rest.head? ≠ some '-'
    · rw [afterExponent_mark hc hsign]
      refine ⟨c :: rest.takeWhile Char.isDigit, ?_, by simpa using hc, fun back hgoes => ?_⟩
      · rw [List.cons_append, List.takeWhile_append_dropWhile]
      · rw [List.cons_append, afterExponent_mark hc (hgoes.takeWhile.not_sign hsign),
          hback rest back hgoes]
    · obtain ⟨sign, digits, rfl, hrest⟩ : ∃ sign digits, rest = sign :: digits ∧
          ∀ more, afterExponent isMark (c :: sign :: more) = more.dropWhile Char.isDigit := by
        cases rest with
        | nil => simp at hsign
        | cons sign digits =>
          refine ⟨sign, digits, rfl, fun more => ?_⟩
          by_cases hplus : sign = '+'
          · subst hplus
            simp [afterExponent, hc]
          · by_cases hminus : sign = '-'
            · subst hminus
              simp [afterExponent, hc]
            · exact absurd ⟨by simpa using hplus, by simpa using hminus⟩ hsign
      rw [hrest]
      refine ⟨c :: sign :: digits.takeWhile Char.isDigit,
        ?_, by simpa using hc, fun back hgoes => ?_⟩
      · rw [List.cons_append, List.cons_append, List.takeWhile_append_dropWhile]
      · rw [List.cons_append, List.cons_append, hrest, hback digits back hgoes]

end

/-- The text after the digits, the fraction, the exponent and the word characters of a number. -/
def afterStages (isDigit isMark : Char → Bool) (source : List Char) : List Char :=
  (afterExponent isMark (afterFraction isDigit (source.dropWhile isDigit))).dropWhile isWordChar

/-- The stages of a number read a text off the front, and read the same text where what follows goes
on in the same way. Counterpart of `afterStages`. -/
theorem exists_stages {isDigit isMark : Char → Bool}
    (hdigit : ∀ c, isDigit c = true → isWordChar c = true)
    (hmark : ∀ c, isMark c = true → isWordChar c = true) (source : List Char) :
    ∃ text, source = text ++ afterStages isDigit isMark source ∧
      (text = [] → afterFraction isDigit (source.dropWhile isDigit) = source) ∧
      ∀ back, EndsNumber back → afterStages isDigit isMark (text ++ back) = back := by
  obtain ⟨fraction, hfraction, -, hafterFraction⟩ := exists_fraction hdigit (head_dropWhile source)
  obtain ⟨exponent, hexponent, hmarked, hafterExponent⟩ :=
    exists_exponent hmark (afterFraction isDigit (source.dropWhile isDigit))
  unfold afterStages
  generalize afterExponent isMark (afterFraction isDigit (source.dropWhile isDigit)) = rest
    at hexponent hafterExponent ⊢
  refine ⟨source.takeWhile isDigit ++ (fraction ++ (exponent ++ rest.takeWhile isWordChar)),
    ?_, ?_, ?_⟩
  · calc source = source.takeWhile isDigit ++ source.dropWhile isDigit :=
          (List.takeWhile_append_dropWhile).symm
      _ = source.takeWhile isDigit ++ (fraction ++ (exponent ++ rest)) := by
          rw [← hexponent, ← hfraction]
      _ = _ := by
          rw [List.append_assoc, List.append_assoc, List.append_assoc,
            List.takeWhile_append_dropWhile]
  · intro hnil
    rw [List.append_eq_nil_iff, List.append_eq_nil_iff] at hnil
    rw [hnil.2.1, List.nil_append] at hfraction
    rw [← hfraction]
    conv => rhs; rw [← List.takeWhile_append_dropWhile (p := isDigit) (l := source), hnil.1]
    rfl
  · intro back hends
    -- Each stage goes on with what it went on with before, or with no number.
    have hword : GoesOn rest (rest.takeWhile isWordChar ++ back) := GoesOn.takeWhile (.inr hends)
    have hexponent' := hword.append exponent
    rw [← hexponent] at hexponent'
    have hfraction' := hexponent'.append fraction
    rw [← hfraction] at hfraction'
    have hdot : (exponent ++ (rest.takeWhile isWordChar ++ back)).head? ≠ some '.' := by
      intro hhead
      cases hexponents : exponent with
      | cons c more =>
        rw [hexponents] at hhead hmarked
        cases hhead
        exact absurd (hmark '.' (hmarked '.' rfl)) (by decide)
      | nil =>
        rw [hexponents, List.nil_append] at hhead
        cases hwords : rest.takeWhile isWordChar with
        | cons c more =>
          rw [hwords] at hhead
          cases hhead
          exact absurd (List.all_eq_true.1 List.all_takeWhile '.' (hwords ▸ List.mem_cons_self))
            (by decide)
        | nil =>
          rw [hwords, List.nil_append] at hhead
          exact (hends.ne hhead).2.1 rfl
    have hend : ∀ c ∈ back.head?, isWordChar c = false := fun c hc => (hends.ne hc).1
    rw [List.append_assoc, List.append_assoc, List.append_assoc,
      dropWhile_takeWhile_append source (hfraction'.not_digit hdigit (head_dropWhile source)),
      hafterFraction _ hexponent' hdot, hafterExponent _ hword,
      dropWhile_takeWhile_append rest hend]

/-- The text starts like a hexadecimal number. -/
def startsHex : List Char → Bool
  | '0' :: c :: _ => c == 'x' || c == 'X'
  | _ => false

/-- The stages of a hexadecimal number. Counterpart of `afterNumber`. -/
theorem afterNumber_hex {c : Char} (hc : (c == 'x' || c == 'X') = true) (rest : List Char) :
    afterNumber ('0' :: c :: rest) =
      afterStages isHexDigit (fun c => c == 'p' || c == 'P') rest := by
  simp only [Bool.or_eq_true, beq_iff_eq] at hc
  rcases hc with rfl | rfl <;> rfl

/-- The stages of a decimal number. Counterpart of `afterNumber`. -/
theorem afterNumber_decimal {source : List Char} (h : startsHex source = false) :
    afterNumber source = afterStages Char.isDigit (fun c => c == 'e' || c == 'E') source := by
  unfold afterNumber
  dsimp only
  split
  · cases h
  · cases h
  · rfl

/-- A number is read in the same way before any text that goes on with no number. Counterpart of
`afterNumber`. -/
theorem exists_number {first : Char} {rest : List Char}
    (hfirst : first.isDigit = true ∨ (first = '.' ∧ rest.head?.any Char.isDigit = true)) :
    ∃ text, rest = text ++ afterNumber (first :: rest) ∧
      ∀ back, EndsNumber back → afterNumber (first :: (text ++ back)) = back := by
  have hmark : ∀ mark other c : Char, isWordChar mark = true → isWordChar other = true →
      (c == mark || c == other) = true → isWordChar c = true := by
    intro mark other c hmark hother hc
    simp only [Bool.or_eq_true, beq_iff_eq] at hc
    rcases hc with rfl | rfl
    · exact hmark
    · exact hother
  cases hhex : startsHex (first :: rest) with
  | true =>
    unfold startsHex at hhex
    split at hhex
    · rename_i c tail heq
      obtain ⟨rfl, rfl⟩ := List.cons.inj heq
      obtain ⟨text, htext, -, hback⟩ := exists_stages (fun _ => isWordChar_of_isHexDigit)
        (fun d => hmark 'p' 'P' d (by decide) (by decide)) tail
      refine ⟨c :: text, ?_, fun back hends => ?_⟩
      · rw [afterNumber_hex hhex, List.cons_append, ← htext]
      · rw [List.cons_append, afterNumber_hex hhex, hback back hends]
    · cases hhex
  | false =>
    obtain ⟨text, htext, hnil, hback⟩ := exists_stages (fun _ => isWordChar_of_isDigit)
      (fun d => hmark 'e' 'E' d (by decide) (by decide)) (first :: rest)
    rw [afterNumber_decimal hhex]
    cases text with
    | nil =>
      -- At least the first character is read.
      exfalso
      have hlength := congrArg List.length (hnil rfl)
      rcases hfirst with hdigit | ⟨rfl, hdigit⟩
      · obtain ⟨fraction, hfraction, -⟩ := exists_fraction (fun _ => isWordChar_of_isDigit)
          (@head_dropWhile Char.isDigit (first :: rest))
        have hsplit := congrArg List.length hfraction
        have hle := (List.dropWhile_sublist Char.isDigit (l := rest)).length_le
        rw [List.length_append, hlength, List.dropWhile_cons_of_pos hdigit,
          List.length_cons] at hsplit
        omega
      · cases rest with
        | nil => simp at hdigit
        | cons d rest =>
          have hd : (d == '.') = false := by
            cases hdot : d == '.' with
            | false => rfl
            | true =>
              rw [beq_iff_eq.1 hdot] at hdigit
              cases hdigit
          have hle := (List.dropWhile_sublist Char.isDigit (l := d :: rest)).length_le
          have hfraction : afterFraction Char.isDigit (('.' :: d :: rest).dropWhile Char.isDigit) =
              (d :: rest).dropWhile Char.isDigit := by
            show (if (d :: rest).head? == some '.' then _ else _) = _
            rw [if_neg (by simpa using hd)]
          have hshort := hlength.symm.trans (congrArg List.length hfraction)
          simp only [List.length_cons] at hshort hle
          omega
    | cons c text =>
      rw [List.cons_append] at htext
      obtain ⟨rfl, hrest⟩ := List.cons.inj htext
      refine ⟨text, hrest, fun back hends => ?_⟩
      have hhex' : startsHex (first :: (text ++ back)) = false := by
        cases text with
        | nil =>
          cases back with
          | nil =>
            unfold startsHex
            split
            · rename_i heq
              simp at heq
            · rfl
          | cons d back =>
            have hd := (hends.ne rfl).1
            unfold startsHex
            split
            · rename_i c tail heq
              obtain ⟨-, rfl, -⟩ := by simpa using heq
              cases hx : d == 'x' || d == 'X' with
              | false => rfl
              | true => exact absurd (hmark 'x' 'X' d (by decide) (by decide) hx) (by simp [hd])
            · rfl
        | cons d text =>
          rw [hrest] at hhex
          unfold startsHex at hhex ⊢
          split
          · rename_i c tail heq
            obtain ⟨rfl, rfl, -⟩ := by simpa using heq
            exact hhex
          · rfl
      rw [afterNumber_decimal hhex']
      exact hback back hends

end LuaFormatter.Scan
