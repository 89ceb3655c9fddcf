import LuaFormatter.Token.Scan

/-!
# Where long brackets close

The scan for the bracket that closes a comment or a long string passes over a bracket that closes
nothing together with the equals signs after it. It finds the first place where a closing bracket
stands (`closingLength?_eq`), since none starts at an equals sign.
-/

namespace LuaFormatter.Scan

/-- Only a bracket closes a long bracket. Counterpart of `closesBracket`. -/
theorem closesBracket_of_ne {level : Nat} {c : Char} (hc : c ≠ ']') (rest : List Char) :
    closesBracket level (c :: rest) = false := by
  refine Bool.eq_false_iff.2 fun h => hc ?_
  exact (List.cons_prefix_cons.1 (List.isPrefixOf_iff_prefix.1 h)).1.symm

/-- Behind the longest start of items that pass a test comes the first one that does not.
Counterpart of `List.takeWhile`. -/
theorem getElem?_takeWhile_length {α : Type} (p : α → Bool) (items : List α) :
    items[(items.takeWhile p).length]? = (items.dropWhile p).head? := by
  induction items with
  | nil => rfl
  | cons item rest ih =>
    by_cases h : p item = true
    · rw [List.takeWhile_cons_of_pos h, List.dropWhile_cons_of_pos h, List.length_cons,
        List.getElem?_cons_succ, ih]
    · rw [List.takeWhile_cons_of_neg h, List.dropWhile_cons_of_neg h]
      rfl

/-- The characters of a closing bracket are single bytes. Counterpart of `closeBracket`. -/
theorem toNat_lt_of_mem_closing {level : Nat} {c : Char}
    (h : c ∈ ']' :: (List.replicate level '=' ++ [']'])) : c.toNat < 128 := by
  simp only [List.mem_cons, List.mem_append, List.mem_replicate, List.not_mem_nil, or_false] at h
  rcases h with rfl | ⟨-, rfl⟩ | rfl <;> decide

/-- A bracket closes if it is followed by as many equals signs as the level says, and another one.
Counterpart of `closesBracket`. -/
theorem closesBracket_iff (level : Nat) (rest : List Char) :
    closesBracket level (']' :: rest) = true ↔
      (rest.takeWhile (· == '=')).length = level ∧ rest[level]? = some ']' := by
  unfold closesBracket
  rw [List.isPrefixOf_iff_prefix, List.cons_prefix_cons]
  constructor
  · rintro ⟨-, back, rfl⟩
    rw [List.append_assoc, List.takeWhile_append_of_pos (by simp)]
    simp
  · rintro ⟨rfl, hclose⟩
    have hequals : rest.takeWhile (· == '=') =
        List.replicate (rest.takeWhile (· == '=')).length '=' :=
      List.eq_replicate_of_mem fun c hc => by simpa using List.all_eq_true.1 List.all_takeWhile c hc
    rw [getElem?_takeWhile_length] at hclose
    obtain ⟨back, hback⟩ := List.head?_eq_some_iff.1 hclose
    refine ⟨rfl, back, ?_⟩
    rw [← hequals, List.append_assoc, List.singleton_append, ← hback,
      List.takeWhile_append_dropWhile]

/-- No closing bracket starts at an equals sign. Counterpart of `bracketLength?`. -/
theorem bracketLength?_dropWhile (level : Nat) (source : List Char) :
    bracketLength? level source =
      (bracketLength? level (source.dropWhile (· == '='))).map
      (· + (source.takeWhile (· == '=')).length) := by
  induction source with
  | nil => rfl
  | cons c rest ih =>
    by_cases hc : c = '='
    · subst hc
      rw [bracketLength?, closesBracket_of_ne (by decide), ih, List.dropWhile_cons_of_pos rfl,
        List.takeWhile_cons_of_pos rfl, if_neg Bool.false_ne_true, Option.map_map]
      rfl
    · rw [List.dropWhile_cons_of_neg (by simpa using hc),
        List.takeWhile_cons_of_neg (by simpa using hc)]
      simp

/-- To search for the bracket that closes is to try it at each character. Counterpart of
`closingLength?`. -/
theorem closingLength?_eq (level : Nat) (source : List Char) :
    closingLength? level source = bracketLength? level source := by
  fun_induction closingLength? level source with
  | case1 => rfl
  | case2 rest equals hcloses =>
    rw [bracketLength?, if_pos ((closesBracket_iff level rest).2 hcloses)]
  | case3 rest equals hopen ih =>
    have hdrop : rest.drop equals = rest.dropWhile (· == '=') := by
      conv => lhs; rw [← List.takeWhile_append_dropWhile (p := (· == '=')) (l := rest)]
      rw [List.drop_left]
    rw [bracketLength?, if_neg fun h => hopen ((closesBracket_iff level rest).1 h), ih, hdrop,
      bracketLength?_dropWhile level rest, Option.map_map]
    rfl
  | case4 c rest hc ih =>
    rw [bracketLength?, closesBracket_of_ne hc, if_neg Bool.false_ne_true, ih]

/-- A comment ends with the first bracket that closes it. Counterpart of `comment`. -/
theorem comment_eq (rest : List Char) :
    comment rest =
      match bracketLevel? rest.tail with
      | some level =>
        match bracketLength? level (rest.drop (level + 3)) with
        | some length => (.blockComment, level + 3 + length)
        | none => (.unterminatedComment, rest.length)
      | none => (.comment, lineLength rest) := by
  cases hlevel : bracketLevel? rest.tail with
  | none => simp only [comment, hlevel]
  | some level =>
    cases hlength : bracketLength? level (rest.drop (level + 3)) <;>
      simp only [comment, hlevel, closingLength?_eq, hlength]

/-- A long string ends with the first bracket that closes it. Counterpart of `longString`. -/
theorem longString_eq (level : Nat) (rest : List Char) :
    longString level rest =
      match bracketLength? level (rest.drop (level + 1)) with
      | some length => (.longString, level + 1 + length)
      | none => (.unterminatedLongString, rest.length) := by
  cases hlength : bracketLength? level (rest.drop (level + 1)) <;>
    simp only [longString, closingLength?_eq, hlength]

end LuaFormatter.Scan
