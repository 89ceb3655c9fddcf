/-!
# Styled text

Text for a terminal: segments, each with a paint. `Styled.coloured` writes the paints as escape
sequences, and `Styled.plain` leaves them out.
-/

namespace LuaFormatter

/-- How a segment of text is shown. -/
inductive Paint where
  | plain | bold | dimmed | italic | boldRed | italicCyan | blue | green | cyan | magenta
deriving DecidableEq

namespace Paint

/-- The escape sequence with a number. -/
def escape (code : Nat) : String :=
  "\x1b[" ++ toString code ++ "m"

/-- The numbers of the escape sequences before a segment. -/
def opening : Paint → List Nat
  | plain => []
  | bold => [1]
  | dimmed => [2]
  | italic => [3]
  | boldRed => [31, 1]
  | italicCyan => [36, 3]
  | blue => [34]
  | green => [32]
  | cyan => [36]
  | magenta => [35]

/-- The numbers of the escape sequences after a segment. A colour around another effect is reset on
its own. -/
def closing : Paint → List Nat
  | plain => []
  | boldRed | italicCyan => [0, 39]
  | _ => [0]

end Paint

/-- A piece of text with its paint. -/
structure Segment where
  paint : Paint
  text : String

/-- Text with paints. -/
abbrev Styled := List Segment

namespace Segment

/-- The text between its escape sequences. -/
def coloured (segment : Segment) : String :=
  String.join (segment.paint.opening.map Paint.escape) ++ segment.text ++
    String.join (segment.paint.closing.map Paint.escape)

end Segment

namespace Styled

/-- The text with escape sequences for its paints. -/
def coloured (styled : Styled) : String :=
  String.join (styled.map Segment.coloured)

/-- The text alone. -/
def plain (styled : Styled) : String :=
  String.join (styled.map Segment.text)

end Styled

end LuaFormatter
