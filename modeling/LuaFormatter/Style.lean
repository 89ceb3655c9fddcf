/-!
# Formatting styles

What a user may choose about the form of the output. The defaults are those of the program.
-/

namespace LuaFormatter

/-- The quote that strings are written with unless the other one needs fewer escapes. -/
inductive QuoteStyle where
  | double | single
deriving DecidableEq

namespace QuoteStyle

/-- The preferred quote. -/
def preferred : QuoteStyle → Char
  | double => '"'
  | single => '\x27'

/-- The other quote. -/
def alternate : QuoteStyle → Char
  | double => '\x27'
  | single => '"'

end QuoteStyle

/-- When the last field of a broken table is followed by a comma. Only tables allow one, so the last
two choices do the same. -/
inductive TrailingComma where
  | never | whereValid | always
deriving DecidableEq

/-- The line ending of the output. -/
inductive LineEnding where
  | lineFeed | carriageReturnLineFeed | native
deriving DecidableEq

/-- How a line ending is written. -/
def LineEnding.text : LineEnding → List Char
  | lineFeed | native => ['\n']
  | carriageReturnLineFeed => ['\r', '\n']

/-- The choices for the form of the output. -/
structure Style where
  /-- The width that lines are to stay within. -/
  printWidth : Nat := 80
  /-- The width of one level of indentation. -/
  indentWidth : Nat := 4
  /-- Indent with tabs instead of spaces. -/
  useTabs : Bool := true
  quotes : QuoteStyle := .double
  trailingComma : TrailingComma := .whereValid
  /-- Spaces inside the braces of a table on one line. -/
  bracketSpacing : Bool := true
  lineEnding : LineEnding := .native
deriving DecidableEq

/-- The blanks at the start of a line at a level of indentation. -/
def Style.indentation (style : Style) (level : Nat) : List Char :=
  if style.useTabs then List.replicate level '\t'
  else List.replicate (level * style.indentWidth) ' '

end LuaFormatter
