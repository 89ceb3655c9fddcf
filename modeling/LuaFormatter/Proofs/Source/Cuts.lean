import LuaFormatter.Proofs.Token.Cover

/-!
# Cutting a source

An offset that falls between two characters cuts a source in two. Between two such offsets stands a
text (`exists_text`), and an offset inside a text cuts it if it cuts the source (`exists_cut`).
-/

namespace LuaFormatter

/-- The offset falls between two characters of the source, or is at one of its ends. -/
def IsCut (source : List Char) (offset : Nat) : Prop :=
  (cut? source offset).isSome = true

/-- Only the empty text has no bytes. Counterpart of `byteLength`. -/
theorem eq_nil_of_byteLength {text : List Char} (h : byteLength text = 0) : text = [] := by
  cases text with
  | nil => rfl
  | cons c rest =>
    have := c.utf8Size_pos
    rw [byteLength] at h
    omega

/-- Of two fronts of a text, the shorter one is a front of the other. Counterpart of
`byteLength`. -/
theorem exists_append_of_le {front back longer rest : List Char}
    (h : front ++ back = longer ++ rest) (hle : byteLength front ≤ byteLength longer) :
    ∃ middle, longer = front ++ middle ∧ back = middle ++ rest := by
  rcases List.append_eq_append_iff.1 h with ⟨middle, hlonger, hback⟩ | ⟨extra, rfl, rfl⟩
  · exact ⟨middle, hlonger, hback⟩
  · rw [byteLength_append] at hle
    obtain rfl := eq_nil_of_byteLength (show byteLength extra = 0 by omega)
    exact ⟨[], by simp, rfl⟩

/-- The text of a span is part of the source. Counterpart of `Span.text?`. -/
theorem Span.text?_eq_some {span : Span} {source text : List Char}
    (h : span.text? source = some text) :
    ∃ before after, source = before ++ (text ++ after) ∧ byteLength before = span.start := by
  unfold Span.text? at h
  split at h
  · obtain ⟨⟨before, back⟩, hbefore, hback⟩ := Option.bind_eq_some_iff.1 h
    obtain ⟨⟨front, after⟩, hfront, rfl⟩ := Option.map_eq_some_iff.1 hback
    obtain ⟨rfl, hlength⟩ := cut?_eq_some hbefore
    obtain ⟨rfl, -⟩ := cut?_eq_some hfront
    exact ⟨before, after, rfl, hlength⟩
  · cases h

section
variable {source : List Char} {offset start stop : Nat}

/-- A cut is the length of a text at the start of the source. Counterpart of `IsCut`. -/
theorem isCut_iff :
    IsCut source offset ↔ ∃ before after, source = before ++ after ∧
      byteLength before = offset := by
  constructor
  · intro h
    obtain ⟨⟨before, after⟩, hcut⟩ := Option.isSome_iff_exists.1 h
    exact ⟨before, after, cut?_eq_some hcut⟩
  · rintro ⟨before, after, rfl, rfl⟩
    rw [IsCut, cut?_append]
    rfl

/-- The start of a source is a cut. Counterpart of `IsCut`. -/
theorem isCut_zero (source : List Char) : IsCut source 0 :=
  isCut_iff.2 ⟨[], source, rfl, rfl⟩

/-- The end of a source is a cut. Counterpart of `IsCut`. -/
theorem isCut_byteLength (source : List Char) : IsCut source (byteLength source) :=
  isCut_iff.2 ⟨source, [], by simp, rfl⟩

/-- A cut is within the source. Counterpart of `IsCut`. -/
theorem IsCut.le (h : IsCut source offset) : offset ≤ byteLength source := by
  obtain ⟨before, after, rfl, rfl⟩ := isCut_iff.1 h
  simp

/-- What stands between two cuts. Counterpart of `IsCut`. -/
theorem exists_text (hstart : IsCut source start) (hstop : IsCut source stop) (hle : start ≤ stop) :
    ∃ before text after, source = before ++ (text ++ after) ∧ byteLength before = start ∧
      byteLength before + byteLength text = stop := by
  obtain ⟨before, back, rfl, rfl⟩ := isCut_iff.1 hstart
  obtain ⟨longer, after, hsource, rfl⟩ := isCut_iff.1 hstop
  obtain ⟨text, rfl, rfl⟩ := exists_append_of_le hsource hle
  exact ⟨before, text, after, rfl, rfl, (byteLength_append before text).symm⟩

/-- A cut inside a text of the source. Counterpart of `IsCut`. -/
theorem exists_cut {front text back : List Char} (h : IsCut (front ++ (text ++ back)) offset)
    (hstart : byteLength front ≤ offset) (hstop : offset ≤ byteLength front + byteLength text) :
    ∃ before after, text = before ++ after ∧ offset = byteLength front + byteLength before := by
  obtain ⟨longer, rest, hsource, rfl⟩ := isCut_iff.1 h
  obtain ⟨before, rfl, hback⟩ := exists_append_of_le hsource hstart
  rw [byteLength_append] at hstop ⊢
  obtain ⟨after, htext, -⟩ := exists_append_of_le hback.symm (by omega)
  exact ⟨before, after, htext, rfl⟩

end

end LuaFormatter
