import LuaFormatter.Source.Span

/-!
# Gaps between items

Blank lines between statements, arguments and comments are kept, so the formatter looks at the
bytes around an offset: those `after` it in order, and those `before` it from the nearest on. Line
breaks are LF, CRLF and CR, and only spaces and tabs count as blank. The questions are asked at
any byte offset, also inside a character: no byte of a longer character is a blank, a line break
or a mark of a comment.
-/

namespace LuaFormatter.Gap

/-- A space or a tab. -/
def isSpace (byte : UInt8) : Bool :=
  byte == 0x20 || byte == 0x09

/-- A line feed or a carriage return. -/
def isBreak (byte : UInt8) : Bool :=
  byte == 0x0A || byte == 0x0D

/-- A byte that may stand between an item and the end of its line: blanks and separators. -/
def isFiller (byte : UInt8) : Bool :=
  isSpace byte || byte == 0x2C || byte == 0x3B

/-- The bytes from an offset on. -/
def after (source : List UInt8) (offset : Nat) : List UInt8 :=
  source.drop offset

/-- The bytes before an offset, the nearest first. -/
def before (source : List UInt8) (offset : Nat) : List UInt8 :=
  (source.take offset).reverse

/-- The bytes after a line break, if they start with one. -/
def skipBreak : List UInt8 → List UInt8
  | [] => []
  | byte :: rest =>
    if byte == 0x0D && rest.head? == some 0x0A then rest.tail
    else if isBreak byte then rest
    else byte :: rest

/-- The bytes before a line break, if one ends there. -/
def skipBreakBack : List UInt8 → List UInt8
  | [] => []
  | byte :: rest =>
    if byte == 0x0A && rest.head? == some 0x0D then rest.tail
    else if isBreak byte then rest
    else byte :: rest

/-- A line break comes next, after any spaces. -/
def breaksNext (bytes : List UInt8) : Bool :=
  (bytes.dropWhile isSpace).head?.any isBreak

/-- The level of the long bracket that the bytes start with: the number of its equals signs. -/
def bracketLevel? : List UInt8 → Option Nat
  | [] => none
  | byte :: rest =>
    let level := (rest.takeWhile (· == 0x3D)).length
    if byte == 0x5B && rest[level]? == some 0x5B then some level else none

/-- The closing long bracket of a level. -/
def closeBracket (level : Nat) : List UInt8 :=
  0x5D :: (List.replicate level 0x3D ++ [0x5D])

/-- The bytes before and after the first occurrence of a pattern. -/
def splitAtFirst? (pattern : List UInt8) : List UInt8 → Option (List UInt8 × List UInt8)
  | [] => if pattern.isEmpty then some ([], []) else none
  | byte :: rest =>
    if pattern.isPrefixOf (byte :: rest) then
      some ([], (byte :: rest).drop pattern.length)
    else
      (splitAtFirst? pattern rest).map fun (front, back) => (byte :: front, back)

/-- The bytes after a comment, if they start with one that finishes on its own line. -/
def skipComment? : List UInt8 → Option (List UInt8)
  | 0x2D :: 0x2D :: rest =>
    match bracketLevel? rest with
    | some level =>
      match splitAtFirst? (closeBracket level) (rest.drop (level + 2)) with
      | some (body, back) => if body.contains 0x0A then none else some back
      | none => none
    | none => some (rest.dropWhile fun byte => !isBreak byte)
  | _ => none

/-- What follows the first occurrence of a pattern is no longer than the bytes. Counterpart of
`splitAtFirst?`. -/
theorem length_splitAtFirst?_le {pattern bytes front back : List UInt8}
    (h : splitAtFirst? pattern bytes = some (front, back)) : back.length ≤ bytes.length := by
  induction bytes generalizing front with
  | nil =>
    unfold splitAtFirst? at h
    split at h
    · cases h; simp
    · cases h
  | cons byte rest ih =>
    unfold splitAtFirst? at h
    split at h
    · cases h; simp
    · obtain ⟨⟨x, y⟩, hx, hy⟩ := Option.map_eq_some_iff.1 h
      cases hy
      have := ih hx
      simp only [List.length_cons]
      omega

/-- Passing over bytes makes no text longer. Counterpart of the search for the end of a line comment
in `skipComment?`. -/
theorem length_dropWhile_le_length (p : UInt8 → Bool) (bytes : List UInt8) :
    (bytes.dropWhile p).length ≤ bytes.length :=
  (List.dropWhile_suffix p).length_le

/-- A comment takes at least its two dashes. Counterpart of `skipComment?`, which makes `skipLine`
end. -/
theorem length_skipComment?_lt {bytes back : List UInt8} (h : skipComment? bytes = some back) :
    back.length < bytes.length := by
  unfold skipComment? at h
  split at h
  · rename_i rest
    split at h
    · split at h
      · rename_i hsplit
        split at h
        · cases h
        · cases h
          have := length_splitAtFirst?_le hsplit
          simp only [List.length_drop, List.length_cons] at this ⊢
          omega
      · cases h
    · cases h
      have := length_dropWhile_le_length (fun byte => !isBreak byte) rest
      simp only [List.length_cons]
      omega
  · cases h

/-- The bytes after all blanks, separators and comments that finish on the same line. -/
def skipLine (bytes : List UInt8) : List UInt8 :=
  match bytes with
  | [] => []
  | byte :: rest =>
    if isFiller byte then skipLine rest
    else
      match _comment : skipComment? (byte :: rest) with
      | some back => skipLine back
      | none => byte :: rest
termination_by bytes.length
decreasing_by
  · simp
  · exact length_skipComment?_lt _comment

/-- A line break follows the offset, after any spaces. -/
def hasBreakAfter (source : List UInt8) (offset : Nat) : Bool :=
  breaksNext (after source offset)

/-- A line break stands before the offset, with only spaces between. The start of the source counts
as a line break. -/
def hasBreakBefore (source : List UInt8) (offset : Nat) : Bool :=
  ((before source offset).dropWhile isSpace).head?.all isBreak

/-- The line after the one that ends at or after the offset is blank. Separators and comments that
finish on the same line are passed over. -/
def isNextLineBlank (source : List UInt8) (offset : Nat) : Bool :=
  breaksNext (skipBreak (skipLine (after source offset)))

/-- The line before the one of the offset is blank. -/
def isPreviousLineBlank (source : List UInt8) (offset : Nat) : Bool :=
  breaksNext (skipBreakBack ((before source offset).dropWhile isSpace))

/-- A blank line follows the item that ends at the offset. -/
def isFollowedByBlankLine (source : List UInt8) (offset : Nat) : Bool :=
  breaksNext (skipBreak (after source offset))

end LuaFormatter.Gap
