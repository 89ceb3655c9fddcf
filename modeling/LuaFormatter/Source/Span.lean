/-!
# Spans of source text

A source is a list of characters, and every position in it is a byte offset of its UTF-8 form. A
`Span` is a pair of such offsets. `cut?` splits a text at an offset that falls between two
characters, and `Span.text?` reads the text of a span: it is `none` exactly when the span is
reversed, reaches past the end, or cuts through a character. `cut?_eq_some` says that cutting
loses nothing.
-/

namespace LuaFormatter

/-- The number of bytes that the characters take in UTF-8. -/
def byteLength : List Char → Nat
  | [] => 0
  | c :: rest => c.utf8Size + byteLength rest

@[simp] theorem byteLength_append (s t : List Char) :
    byteLength (s ++ t) = byteLength s + byteLength t := by
  induction s with
  | nil => simp [byteLength]
  | cons c s ih => simp [byteLength, ih, Nat.add_assoc]

/-- The UTF-8 form of a text. -/
def utf8 (source : List Char) : List UInt8 :=
  source.flatMap String.utf8EncodeChar

/-- Split a text at a byte offset, if the offset falls between two characters or at an end. -/
def cut? : List Char → Nat → Option (List Char × List Char)
  | source, 0 => some ([], source)
  | [], _ + 1 => none
  | c :: rest, offset + 1 =>
    if c.utf8Size ≤ offset + 1 then
      (cut? rest (offset + 1 - c.utf8Size)).map fun (before, after) => (c :: before, after)
    else
      none

/-- The two parts of a cut make up the text, and the first has the length that was asked for.
Counterpart of `cut?`. -/
theorem cut?_eq_some {source before after : List Char} {offset : Nat}
    (h : cut? source offset = some (before, after)) :
    source = before ++ after ∧ byteLength before = offset := by
  fun_induction cut? source offset generalizing before after with
  | case1 => simp_all [byteLength]
  | case2 => simp at h
  | case3 c rest offset fits ih =>
    obtain ⟨⟨x, y⟩, hx, hy⟩ := Option.map_eq_some_iff.1 h
    obtain ⟨rfl, rfl⟩ := Prod.mk.inj hy
    obtain ⟨rfl, hlen⟩ := ih hx
    refine ⟨rfl, ?_⟩
    simp only [byteLength]
    omega
  | case4 => simp at h

/-- A stretch of source text, from the byte offset `start` up to but not including `stop`. -/
structure Span where
  start : Nat
  stop : Nat
deriving DecidableEq

namespace Span

/-- The other span lies inside this one; the ends may touch. -/
def contains (outer inner : Span) : Bool :=
  outer.start ≤ inner.start && inner.stop ≤ outer.stop

/-- The first span is over when the second starts. -/
def isBefore (first second : Span) : Bool :=
  first.stop ≤ second.start

/-- The text of a span, `none` when the span is no stretch of whole characters of the source. -/
def text? (span : Span) (source : List Char) : Option (List Char) :=
  if span.start ≤ span.stop then
    (cut? source span.start).bind fun (_, after) =>
      (cut? after (span.stop - span.start)).map Prod.fst
  else
    none

end Span

end LuaFormatter
