import LuaFormatter.Source.Span

/-!
# Lines

Lines end after a line feed, and are numbered from one. A `LineIndex` holds the offsets that the
lines of a source start at, in order, so that the line of an offset is found by a binary search.
Offsets past the end are on the last line. `LineIndex.span?` gives a line as a span, with its line
feed.
-/

namespace LuaFormatter

/-- Where the lines of a source start, and how long it is. -/
structure LineIndex where
  starts : Array Nat
  length : Nat

namespace LineIndex

/-- The offsets after the line feeds among bytes, the first of which is at an offset. -/
def startsFrom (offset : Nat) : List UInt8 → List Nat
  | [] => []
  | byte :: rest =>
    if byte == 0x0A then (offset + 1) :: startsFrom (offset + 1) rest
    else startsFrom (offset + 1) rest

/-- The lines of a source. -/
def ofSource (source : List Char) : LineIndex where
  starts := (0 :: startsFrom 0 (utf8 source)).toArray
  length := byteLength source

/-- What is found where an offset is looked for among the starts of lines. -/
inductive Hit where
  /-- The line with this index starts at the offset. -/
  | start (index : Nat)
  /-- No line starts there; one that did would have this index. -/
  | gap (index : Nat)

/-- The index of the last start that is not after an offset, among the `size` starts from index
`first` on. They are halved until one is left, which is the answer whatever it is. -/
def narrow (starts : Array Nat) (offset first size : Nat) (inside : first + size ≤ starts.size) :
    Nat :=
  if _ : 1 < size then
    if offset < starts[first + size / 2] then
      narrow starts offset first (size - size / 2) (by omega)
    else
      narrow starts offset (first + size / 2) (size - size / 2) (by omega)
  else first
termination_by size

/-- Look for an offset among the starts of lines. -/
def search (index : LineIndex) (offset : Nat) : Hit :=
  let last := narrow index.starts offset 0 index.starts.size (by omega)
  match index.starts[last]? with
  | none => .gap 0
  | some start =>
    if start = offset then .start last
    else if start < offset then .gap (last + 1)
    else .gap last

/-- The number of the line that an offset is on. -/
def lineOf (index : LineIndex) (offset : Nat) : Nat :=
  match index.search offset with
  | .start line => line + 1
  | .gap line => line

/-- The number of the line that a span starts on. -/
def line (index : LineIndex) (span : Span) : Nat :=
  index.lineOf span.start

/-- The number of the line that a span ends on. -/
def finalLine (index : LineIndex) (span : Span) : Nat :=
  index.lineOf span.stop

/-- The span of the line with a number, `none` if there is no such line. The last line ends where
the source does. -/
def span? (index : LineIndex) : Nat → Option Span
  | 0 => none
  | line + 1 =>
    index.starts[line]?.map fun start => ⟨start, index.starts[line + 1]?.getD index.length⟩

end LineIndex

/-- The number of the line of a source that an offset is on. -/
def lineAt (source : List Char) (offset : Nat) : Nat :=
  (LineIndex.ofSource source).lineOf offset

/-- The span of the line of a source with a number, `none` if there is no such line. -/
def lineSpan? (source : List Char) (line : Nat) : Option Span :=
  (LineIndex.ofSource source).span? line

end LuaFormatter
