import LuaFormatter.Report.Styled
import LuaFormatter.Source.Lines
import LuaFormatter.Token.Scan

/-!
# Code frames

The lines of a source that a span covers, with their numbers, and carets under the span if it lies
on one line. Every line is coloured by its own tokens; blanks after the last of them are not shown.
A frame can be drawn for any span: one that is reversed, reaches past the end or cuts a character
gets a single caret at least.

`Frame.draw?` looks up lines and cuts texts out of them, each of which fails where there is no such
line or no such text.
-/

namespace LuaFormatter

/-- The paint of a kind of token. -/
def Kind.paint : Kind → Paint
  | .number | .keyword .trueK | .keyword .falseK | .keyword .nilK => .blue
  | .string | .longString | .unterminatedString | .unterminatedLongString => .green
  | .keyword .ifK | .keyword .thenK | .keyword .elseK | .keyword .elseifK | .keyword .returnK
  | .keyword .gotoK | .keyword .breakK => .cyan
  | .keyword .localK | .keyword .functionK | .keyword .endK => .magenta
  | .comment | .blockComment | .unterminatedComment => .dimmed
  | _ => .plain

namespace Frame

/-- A title for people: standard input is not shown as a dash. -/
def shownTitle (title : String) : String :=
  if title = "-" then "STDIN" else title

/-- A number, right-aligned in three columns. -/
def alignedNumber (number : Nat) : String :=
  let digits := toString number
  String.ofList (List.replicate (3 - digits.length) ' ') ++ digits

/-- The text of a line between two offsets, which is not looked up if there is none. -/
def gapText? (line : List Char) (start stop : Nat) : Option (List Char) :=
  if stop = start then some [] else (Span.mk start stop).text? line

/-- Tokens of a line with the blanks before each, from an offset on. -/
def highlightFrom? (line : List Char) (offset : Nat) : List Token → Option Styled
  | [] => some []
  | token :: rest => do
    let gap ← gapText? line offset token.start
    let text ← token.span.text? line
    let others ← highlightFrom? line token.stop rest
    return ⟨.plain, String.ofList gap⟩ :: ⟨token.kind.paint, String.ofList text⟩ :: others

/-- A line with its tokens coloured. -/
def highlight? (line : List Char) : Option Styled :=
  highlightFrom? line 0 (tokenise line)

/-- What stands before the carets: the line up to the span, with spaces for all characters but tabs,
so that the carets are below the span however wide a tab is shown. -/
def padding (line : List Char) (start : Nat) : List Char :=
  let covered := ((cut? line (min start (byteLength line))).map Prod.fst).getD []
  covered.map fun c => if c = '\t' then '\t' else ' '

/-- The number of carets: one for each character that is covered, at least one. -/
def caretCount (line : List Char) (start stop : Nat) : Nat :=
  let covered := ((Span.mk start (min stop (byteLength line))).text? line).getD []
  max covered.length 1

/-- The row of carets under a line that starts at an offset. -/
def underline (line : List Char) (offset : Nat) (span : Span) : Styled :=
  let start := span.start - offset
  let stop := span.stop - offset
  [⟨.plain, "    "⟩, ⟨.dimmed, "│"⟩, ⟨.plain, " " ++ String.ofList (padding line start)⟩,
    ⟨.boldRed, String.ofList (List.replicate (caretCount line start stop) '^')⟩, ⟨.plain, "\n"⟩]

/-- The text of a line without its line break. -/
def trimBreaks (line : List Char) : List Char :=
  (line.reverse.dropWhile fun c => c = '\r' || c = '\n').reverse

/-- A line, coloured, behind its number. -/
def numbered (number : Nat) (line : List Char) (coloured : Styled) : Styled :=
  [⟨.plain, alignedNumber number ++ " "⟩, ⟨.dimmed, "│"⟩,
    ⟨.plain, if line.isEmpty then "" else " "⟩] ++ coloured ++ [⟨.plain, "\n"⟩]

/-- The line with a number, with the carets for a span if it is the only line of the frame. -/
def row? (source : List Char) (lines : LineIndex) (span : Span) (isOnly : Bool) (number : Nat) :
    Option Styled := do
  let line ← lines.span? number
  let text := trimBreaks (← line.text? source)
  let coloured ← highlight? text
  return numbered number text coloured ++ if isOnly then underline text line.start span else []

/-- The top of a frame: its title and the number of its first line. -/
def header (title : String) (first : Nat) : Styled :=
  [⟨.plain, "    "⟩, ⟨.dimmed, "╭─["⟩, ⟨.plain, shownTitle title⟩, ⟨.dimmed, ":"⟩,
    ⟨.plain, toString first⟩, ⟨.dimmed, "]"⟩, ⟨.plain, "\n"⟩]

/-- The lines of a source that a span covers, under a title. -/
def draw? (title : String) (source : List Char) (span : Span) : Option Styled := do
  let lines := LineIndex.ofSource source
  let first := max (lines.line span) 1
  let last := max (lines.finalLine span) first
  let rows ← (List.range' first (last + 1 - first)).mapM (row? source lines span (first = last))
  return header title first ++ rows.flatten ++ [⟨.dimmed, "────╯"⟩]

end Frame

/-- The frame for a span of a source, which can always be drawn. -/
def frame (title : String) (source : List Char) (span : Span) : Styled :=
  (Frame.draw? title source span).getD []

end LuaFormatter
