import LuaFormatter.Proofs.Source.Bytes
import LuaFormatter.Proofs.Source.Cuts
import LuaFormatter.Source.Lines

/-!
# Lines and offsets

The starts of lines are in order, so the binary search finds the last start that is not after an
offset (`narrow_spec`), whose number is the number of starts up to there. The starts are one more
than the line feeds, which gives the line of an offset (`lineOf_ofSource`).

`Tiles` says of spans that they are the lines of some bytes: each starts where the one before it
stops and ends with its only line feed, and the last has none. The spans of the lines of a source
tile it, and an offset inside one of them is on that line (`ofSource_exact`).
-/

namespace LuaFormatter.LineIndex

/-! ## Starts -/

section
variable {offset : Nat} {bytes : List UInt8}

/-- A line starts after its line feed. Counterpart of `startsFrom`. -/
theorem lt_of_mem_startsFrom {start : Nat} (h : start ∈ startsFrom offset bytes) :
    offset < start := by
  fun_induction startsFrom offset bytes with
  | case1 => cases h
  | case2 offset byte rest _ ih =>
    rcases List.mem_cons.1 h with rfl | h
    · exact Nat.lt_succ_self offset
    · exact Nat.lt_of_succ_lt (ih h)
  | case3 offset byte rest _ ih => exact Nat.lt_of_succ_lt (ih h)

/-- Lines start one after the other. Counterpart of `startsFrom`. -/
theorem pairwise_startsFrom (offset : Nat) (bytes : List UInt8) :
    (startsFrom offset bytes).Pairwise (· < ·) := by
  fun_induction startsFrom offset bytes with
  | case1 => exact .nil
  | case2 offset byte rest _ ih => exact .cons (fun start hmem => lt_of_mem_startsFrom hmem) ih
  | case3 offset byte rest _ ih => exact ih

/-- As many lines start as there are line feeds. Counterpart of `startsFrom`. -/
theorem length_startsFrom (offset : Nat) (bytes : List UInt8) :
    (startsFrom offset bytes).length = bytes.count 0x0A := by
  fun_induction startsFrom offset bytes with
  | case1 => rfl
  | case2 offset byte rest hfeed ih =>
    rw [List.length_cons, ih, beq_iff_eq.1 hfeed, List.count_cons_self]
  | case3 offset byte rest hfeed ih => rw [ih, List.count_cons_of_ne (by simpa using hfeed)]

/-- A line starts after each line feed. Counterpart of `startsFrom`. -/
theorem countP_startsFrom (offset : Nat) (bytes : List UInt8) (length : Nat) :
    (startsFrom offset bytes).countP (· ≤ offset + length) = (bytes.take length).count 0x0A := by
  induction length generalizing offset bytes with
  | zero =>
    rw [List.take_zero, List.count_nil, List.countP_eq_zero]
    intro start hmem
    have := lt_of_mem_startsFrom hmem
    simp
    omega
  | succ length ih =>
    cases bytes with
    | nil => simp [startsFrom]
    | cons byte rest =>
      have hrest := ih (offset + 1) rest
      rw [Nat.succ_add_eq_add_succ] at hrest
      rw [startsFrom, List.take_succ_cons]
      split
      · rename_i hfeed
        rw [beq_iff_eq.1 hfeed, List.count_cons_self, List.countP_cons_of_pos (by simp), hrest]
      · rename_i hfeed
        rw [List.count_cons_of_ne (by simpa using hfeed), hrest]

/-- No line starts within bytes without line feeds. Counterpart of `startsFrom`. -/
theorem startsFrom_append {front : List UInt8} (h : 0x0A ∉ front) (offset : Nat)
    (back : List UInt8) :
    startsFrom offset (front ++ back) = startsFrom (offset + front.length) back := by
  induction front generalizing offset with
  | nil => rfl
  | cons byte front ih =>
    rw [List.mem_cons, not_or] at h
    rw [List.cons_append, startsFrom, if_neg (by simpa using Ne.symm h.1), ih h.2, List.length_cons,
      Nat.add_right_comm, Nat.add_assoc]

/-- A line starts between two characters. Counterpart of `startsFrom`. -/
theorem exists_of_mem_startsFrom {text : List Char} {start : Nat}
    (h : start ∈ startsFrom offset (utf8 text)) :
    ∃ before after, text = before ++ after ∧ start = offset + byteLength before := by
  induction text generalizing offset with
  | nil => cases h
  | cons c rest ih =>
    have hrest : start ∈ startsFrom (offset + c.utf8Size) (utf8 rest) →
        ∃ before after, c :: rest = before ++ after ∧ start = offset + byteLength before := by
      intro hmem
      obtain ⟨before, after, rfl, rfl⟩ := ih hmem
      exact ⟨c :: before, after, rfl, by rw [byteLength, Nat.add_assoc]⟩
    by_cases hc : c = '\n'
    · subst hc
      have hmem : start ∈ (offset + 1) :: startsFrom (offset + 1) (utf8 rest) := h
      rcases List.mem_cons.1 hmem with rfl | hmem
      · exact ⟨['\n'], rest, rfl, rfl⟩
      · exact hrest hmem
    · have hnone : 0x0A ∉ String.utf8EncodeChar c := fun hmem => by
        have hsame := @bytewise_beq 0x0A '\n' rfl (by decide) c _ hmem
        exact hc (by simpa using hsame.symm)
      rw [utf8_cons, startsFrom_append hnone, String.length_utf8EncodeChar] at h
      exact hrest h

end

/-! ## The search -/

section
variable {starts : Array Nat} {offset : Nat}

/-- Between a start that is not after the offset and the first one that is, the search finds the
last one that is not. Counterpart of `narrow`. -/
theorem narrow_spec (hsorted : starts.toList.Pairwise (· < ·)) {first size : Nat}
    (inside : first + size ≤ starts.size) (hsize : 0 < size)
    (hfirst : ∀ start, starts[first]? = some start → start ≤ offset)
    (hafter : ∀ (i : Nat) (start : Nat), first + size ≤ i → starts[i]? = some start →
        offset < start) :
    narrow starts offset first size inside < starts.size ∧
      (∀ start, starts[narrow starts offset first size inside]? = some start → start ≤ offset) ∧
      ∀ (i : Nat) (start : Nat), narrow starts offset first size inside < i →
      starts[i]? = some start →
        offset < start := by
  fun_induction narrow starts offset first size inside with
  | case1 first size inside hmany hless ih =>
    refine ih (by omega) hfirst fun i start hi hstart => ?_
    obtain ⟨hlt, rfl⟩ := Array.getElem?_eq_some_iff.1 hstart
    rcases Nat.eq_or_lt_of_le (show first + size / 2 ≤ i by omega) with rfl | hmiddle
    · exact hless
    · have hpairs :=
        List.pairwise_iff_getElem.1 hsorted (first + size / 2) i (by simp; omega) (by simpa)
        hmiddle
      simp only [Array.getElem_toList] at hpairs
      omega
  | case2 first size inside hmany hless ih =>
    refine ih (by omega) (fun start hstart => ?_) fun i start hi => hafter i start (by omega)
    obtain ⟨_, rfl⟩ := Array.getElem?_eq_some_iff.1 hstart
    omega
  | case3 first size inside hmany =>
    exact ⟨by omega, hfirst, fun i start hi => hafter i start (by omega)⟩

/-- Of numbers in order, those up to a bound are counted by the index of the last of them.
Counterpart of `List.countP` for numbers in order. -/
theorem countP_le_eq {numbers : List Nat} (hsorted : numbers.Pairwise (· < ·))
    {index number bound : Nat} (hnumber : numbers[index]? = some number) (hle : number ≤ bound)
    (hnext : ∀ next, numbers[index + 1]? = some next → bound < next) :
    numbers.countP (· ≤ bound) = index + 1 := by
  induction numbers generalizing index with
  | nil => cases hnumber
  | cons first rest ih =>
    obtain ⟨hfirst, hrest⟩ := List.pairwise_cons.1 hsorted
    cases index with
    | zero =>
      obtain rfl : first = number := by simpa using hnumber
      rw [List.countP_cons_of_pos (by simpa using hle), Nat.add_right_cancel_iff,
        List.countP_eq_zero]
      intro other hmem
      cases rest with
      | nil => cases hmem
      | cons second rest =>
        have hsecond : bound < second := hnext second (by simp)
        rcases List.mem_cons.1 hmem with rfl | hmem
        · simpa using hsecond
        · have := (List.pairwise_cons.1 hrest).1 other hmem
          simp
          omega
    | succ index =>
      rw [List.getElem?_cons_succ] at hnumber
      have hless := hfirst number (List.mem_of_getElem? hnumber)
      rw [List.countP_cons_of_pos (by simp; omega),
        ih hrest hnumber fun next h => hnext next (by rwa [List.getElem?_cons_succ])]

/-- Of numbers in order, only those before a larger one are up to a bound. Counterpart of
`List.countP` for numbers in order. -/
theorem countP_le_of_lt {numbers : List Nat} (hsorted : numbers.Pairwise (· < ·))
    {index number bound : Nat} (hnumber : numbers[index]? = some number) (hlt : bound < number) :
    numbers.countP (· ≤ bound) ≤ index := by
  induction numbers generalizing index with
  | nil => cases hnumber
  | cons first rest ih =>
    obtain ⟨hfirst, hrest⟩ := List.pairwise_cons.1 hsorted
    cases index with
    | zero =>
      obtain rfl : first = number := by simpa using hnumber
      rw [List.countP_cons_of_neg (by simpa using hlt), Nat.le_zero, List.countP_eq_zero]
      intro other hmem
      have := hfirst other hmem
      simp
      omega
    | succ index =>
      have hle := ih hrest (by simpa using hnumber)
      rw [List.countP_cons]
      split <;> omega

/-- The line of an offset is the number of lines that start up to it. Counterpart of
`LineIndex.lineOf`. -/
theorem lineOf_eq_countP {index : LineIndex} (hsorted : index.starts.toList.Pairwise (· < ·))
    (hzero : index.starts[0]? = some 0) (offset : Nat) :
    index.lineOf offset = index.starts.toList.countP (· ≤ offset) := by
  obtain ⟨hpositive, -⟩ := Array.getElem?_eq_some_iff.1 hzero
  obtain ⟨hlt, hle, hafter⟩ :=
    @narrow_spec index.starts offset hsorted 0 index.starts.size (by omega)
    hpositive (fun start hstart => by
      rw [hzero] at hstart
      cases hstart
      exact Nat.zero_le offset)
    fun i start hi hstart => by
      have := (Array.getElem?_eq_some_iff.1 hstart).1
      omega
  generalize hlast : narrow index.starts offset 0 index.starts.size _ = last at *
  have hstart := Array.getElem?_eq_getElem hlt
  have hcount : index.starts.toList.countP (· ≤ offset) = last + 1 :=
    countP_le_eq hsorted (by rw [Array.getElem?_toList, hstart]) (hle _ hstart) fun next hnext =>
      hafter (last + 1) next (Nat.lt_succ_self last) (by rwa [Array.getElem?_toList] at hnext)
  have hsearch : index.search offset =
      if index.starts[last] = offset then .start last else .gap (last + 1) := by
    unfold search
    simp only [hlast, hstart]
    split
    · rfl
    · rename_i hne
      rw [if_pos (Nat.lt_of_le_of_ne (hle _ hstart) hne)]
  rw [hcount, lineOf, hsearch]
  split
  · rename_i line hfound
    split at hfound
    · cases hfound
      rfl
    · cases hfound
  · rename_i line hfound
    split at hfound
    · cases hfound
    · cases hfound
      rfl

end

/-! ## Sources -/

section
variable (source : List Char)

/-- The first line starts at the start of the source, and the others after line feeds. Counterpart
of `LineIndex.ofSource`. -/
theorem toList_starts_ofSource :
    (ofSource source).starts.toList = 0 :: startsFrom 0 (utf8 source) :=
  rfl

/-- The lines of a source start one after the other. Counterpart of `LineIndex.ofSource`. -/
theorem pairwise_starts_ofSource : (ofSource source).starts.toList.Pairwise (· < ·) :=
  .cons (fun _ hmem => lt_of_mem_startsFrom hmem) (pairwise_startsFrom 0 _)

/-- The line of an offset is one more than the number of line feeds before it. Counterpart of
`LineIndex.lineOf`. -/
theorem lineOf_ofSource (offset : Nat) :
    (ofSource source).lineOf offset = 1 + ((utf8 source).take offset).count 0x0A := by
  rw [lineOf_eq_countP (pairwise_starts_ofSource source) rfl, toList_starts_ofSource,
    List.countP_cons_of_pos (by simp), Nat.add_comm, ← countP_startsFrom 0, Nat.zero_add]

end

/-- The spans are the lines of the bytes, the first of which is at an offset: one after the other,
each up to its only line feed, and the last to the end. -/
inductive Tiles : Nat → List UInt8 → List Span → Prop
  | last {start : Nat} {text : List UInt8} :
      0x0A ∉ text → Tiles start text [⟨start, start + text.length⟩]
  | line {start : Nat} {text rest : List UInt8} {spans : List Span} : 0x0A ∉ text →
    Tiles (start + text.length + 1) rest spans →
    Tiles start (text ++ 0x0A :: rest) (⟨start, start + text.length + 1⟩ :: spans)

/-- The starts of lines, each with the one after it, are spans that tile the bytes. A line has begun
with the text before the rest. Counterpart of `Tiles`. -/
theorem exists_tiles {start length : Nat} {text rest : List UInt8} (htext : 0x0A ∉ text)
    (hlength : length = start + text.length + rest.length) :
    ∃ spans, Tiles start (text ++ rest) spans ∧ ∀ line : Nat,
      spans[line]? = (start :: startsFrom (start + text.length) rest)[line]?.map fun first =>
        ⟨first, (start :: startsFrom (start + text.length) rest)[line + 1]?.getD length⟩ := by
  induction rest generalizing start text with
  | nil =>
    refine ⟨_, by simpa using Tiles.last htext, fun line => ?_⟩
    cases line with
    | zero => simp [startsFrom, hlength]
    | succ line => simp [startsFrom]
  | cons byte rest ih =>
    rw [startsFrom]
    split
    · rename_i hfeed
      obtain rfl := beq_iff_eq.1 hfeed
      obtain ⟨spans, htiles, hspans⟩ := @ih (start + text.length + 1) [] (by simp)
        (by simp only [List.length_cons, List.length_nil] at hlength ⊢; omega)
      refine ⟨_, .line htext htiles, fun line => ?_⟩
      cases line with
      | zero => simp
      | succ line => simpa using hspans line
    · rename_i hfeed
      obtain ⟨spans, htiles, hspans⟩ := @ih start (text ++ [byte])
        (by simpa [htext, @eq_comm UInt8 0x0A] using hfeed)
        (by simp only [List.length_cons, List.length_append, List.length_nil] at hlength ⊢; omega)
      refine ⟨spans, by simpa using htiles, fun line => ?_⟩
      simpa [Nat.add_assoc] using hspans line

/-- The spans of the lines of a source tile it. Counterpart of `LineIndex.span?`. -/
theorem exists_spans (source : List Char) :
    ∃ spans, Tiles 0 (utf8 source) spans ∧ ∀ line,
      (ofSource source).span? (line + 1) = spans[line]? := by
  obtain ⟨spans, htiles, hspans⟩ :=
    @exists_tiles 0 (byteLength source) [] (utf8 source) (by simp) (by simp)
  refine ⟨spans, htiles, fun line => ?_⟩
  rw [hspans, span?, ← Array.getElem?_toList, ← Array.getElem?_toList, toList_starts_ofSource]
  rfl

/-- The number of lines of a source, one more than that of its line feeds. -/
def lineCount (source : List Char) : Nat :=
  1 + (utf8 source).count 0x0A

/-- There are as many lines as there are starts. Counterpart of `LineIndex.span?`. -/
theorem isSome_span?_iff (source : List Char) (number : Nat) :
    ((ofSource source).span? number).isSome = true ↔ 1 ≤ number ∧ number ≤ lineCount source := by
  cases number with
  | zero => simp [span?]
  | succ line =>
    rw [lineCount, span?, Option.isSome_map, ← Array.getElem?_toList, toList_starts_ofSource,
      isSome_getElem?, List.length_cons, length_startsFrom]
    omega

/-- A line is a stretch of whole characters. Counterpart of `LineIndex.span?`. -/
theorem isCut_of_span? {source : List Char} {number : Nat} {span : Span}
    (h : (ofSource source).span? number = some span) :
    IsCut source span.start ∧ IsCut source span.stop ∧ span.start ≤ span.stop := by
  have hcut : ∀ start ∈ 0 :: startsFrom 0 (utf8 source), IsCut source start := by
    intro start hmem
    rcases List.mem_cons.1 hmem with rfl | hmem
    · exact isCut_zero source
    · obtain ⟨before, after, hsource, hstart⟩ := exists_of_mem_startsFrom hmem
      exact isCut_iff.2 ⟨before, after, hsource, by omega⟩
  cases number with
  | zero => cases h
  | succ line =>
    rw [span?, ← Array.getElem?_toList, ← Array.getElem?_toList, toList_starts_ofSource] at h
    obtain ⟨start, hstart, rfl⟩ := Option.map_eq_some_iff.1 h
    have hfirst := hcut start (List.mem_of_getElem? hstart)
    cases hnext : (0 :: startsFrom 0 (utf8 source))[line + 1]? with
    | none => exact ⟨hfirst, isCut_byteLength source, hfirst.le⟩
    | some next =>
      obtain ⟨hlt, rfl⟩ := List.getElem?_eq_some_iff.1 hstart
      obtain ⟨hlt', rfl⟩ := List.getElem?_eq_some_iff.1 hnext
      have hless :=
        List.pairwise_iff_getElem.1 (pairwise_starts_ofSource source) line (line + 1) hlt hlt'
        (Nat.lt_succ_self line)
      exact ⟨hfirst, hcut _ (List.getElem_mem hlt'), Nat.le_of_lt hless⟩

/-- A line starts at or before the offsets that are on it. Counterpart of `LineIndex.lineOf`. -/
theorem start_le_of_lineOf {source : List Char} {offset : Nat} {span : Span}
    (h : (ofSource source).span? ((ofSource source).lineOf offset) = some span) :
    span.start ≤ offset := by
  refine Nat.le_of_not_lt fun hlt => ?_
  have hsorted := pairwise_starts_ofSource source
  cases hline : (ofSource source).lineOf offset with
  | zero =>
    rw [hline] at h
    cases h
  | succ line =>
    rw [hline, span?] at h
    obtain ⟨start, hstart, rfl⟩ := Option.map_eq_some_iff.1 h
    rw [← Array.getElem?_toList] at hstart
    have hle := countP_le_of_lt hsorted hstart hlt
    rw [← lineOf_eq_countP hsorted rfl, hline] at hle
    omega

/-- An offset from the start of a line on, before the next line, is on that line. Counterpart of
`LineIndex.lineOf`. -/
theorem lineOf_eq_of_inside {source : List Char} {number offset : Nat} {span : Span}
    (hspan : (ofSource source).span? number = some span) (hstart : span.start ≤ offset)
    (hstop : offset < span.stop ∨ number = lineCount source) :
    (ofSource source).lineOf offset = number := by
  cases number with
  | zero => cases hspan
  | succ line =>
    rw [span?] at hspan
    obtain ⟨start, hline, rfl⟩ := Option.map_eq_some_iff.1 hspan
    rw [lineOf_eq_countP (pairwise_starts_ofSource source) rfl]
    refine countP_le_eq (pairwise_starts_ofSource source) (by rwa [Array.getElem?_toList]) hstart
      fun next hnext => ?_
    rcases hstop with hstop | hlast
    · rw [Array.getElem?_toList] at hnext
      simpa [hnext] using hstop
    · obtain ⟨hlt, -⟩ := List.getElem?_eq_some_iff.1 hnext
      rw [toList_starts_ofSource, List.length_cons, length_startsFrom] at hlt
      rw [lineCount] at hlast
      omega

/-- The lines of a source are told exactly. The line of an offset is one more than the number of
line feeds before it. The spans of the lines tile the source, each but the last up to its only line
feed. An offset inside the span of a line, or at the end of the last one, is on that line. Only the
numbers from one to the number of lines have a span. Counterpart of `LineIndex.ofSource`. -/
theorem ofSource_exact (source : List Char) :
    (∀ span : Span,
      (ofSource source).line span = 1 +
      ((utf8 source).take (min span.start (byteLength source))).count 0x0A ∧
        (ofSource source).finalLine span =
          1 + ((utf8 source).take (min span.stop (byteLength source))).count 0x0A) ∧
      (∃ spans, (List.range' 1 (lineCount source)).map (ofSource source).span? = spans.map some ∧
        Tiles 0 (utf8 source) spans) ∧
      (∀ (number offset : Nat) (span : Span), (ofSource source).span? number = some span →
        span.start ≤ offset →
          (offset < span.stop ∨ number = lineCount source ∧ offset = byteLength source) →
            (ofSource source).lineOf offset = number) ∧
      ∀ number, ((ofSource source).span? number).isSome = true ↔
      1 ≤ number ∧ number ≤ lineCount source := by
  refine ⟨fun span => ?_, ?_, ?_, isSome_span?_iff source⟩
  · rw [← length_utf8, List.take_eq_take_min.symm, List.take_eq_take_min.symm]
    exact ⟨lineOf_ofSource source span.start, lineOf_ofSource source span.stop⟩
  · obtain ⟨spans, htiles, hspans⟩ := exists_spans source
    refine ⟨spans, List.ext_getElem? fun line => ?_, htiles⟩
    have hsome := isSome_span?_iff source (line + 1)
    rw [List.getElem?_map, List.getElem?_map, ← hspans]
    by_cases hline : line < lineCount source
    · obtain ⟨span, hspan⟩ := Option.isSome_iff_exists.1 (hsome.2 ⟨by omega, hline⟩)
      rw [List.getElem?_range' hline, hspan, Option.map_some, Option.map_some, Nat.one_mul,
        Nat.add_comm, hspan]
    · have hnone : (ofSource source).span? (line + 1) = none := by
        rw [← Option.not_isSome_iff_eq_none, hsome]
        exact fun h => hline h.2
      rw [List.getElem?_eq_none (by simpa using hline), hnone]
      rfl
  · intro number offset span hspan hstart hstop
    exact lineOf_eq_of_inside hspan hstart (hstop.imp_right And.left)

example : (List.range 6).map (lineAt "a\n\nb".toList) = [1, 1, 2, 3, 3, 3] := by decide +kernel

end LuaFormatter.LineIndex
