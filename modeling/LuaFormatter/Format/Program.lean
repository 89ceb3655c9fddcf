import LuaFormatter.Doc.Layout
import LuaFormatter.Doc.Outline
import LuaFormatter.Format.Compile

/-!
# Formatting a program

`Program.format` writes a program in a style: the comments find their owners, the tree becomes a
document, and the document is laid out. A program with faults is written too, without the parts
that could not be read. `revisions` follows a text that is formatted, extended and formatted again.
-/

namespace LuaFormatter

/-- The document of a program in a style. -/
def Program.toDoc (program : Program) (style : Style) : Doc :=
  compile (Context.ofProgram program style) {} program.root

/-- The text of a program in a style. -/
def Program.format (program : Program) (style : Style) : List Char :=
  (program.toDoc style).layout style

/-- A source, formatted in a style. -/
def format (source : List Char) (style : Style) : List Char :=
  (parse source).format style

/-- An addition at the end of a text, and the style that the text is then formatted in. -/
structure Revision where
  addition : List Char
  style : Style

/-- The texts after each of a list of revisions. -/
def revisions (source : List Char) : List Revision → List (List Char)
  | [] => []
  | revision :: rest =>
    let next := format (source ++ revision.addition) revision.style
    next :: revisions next rest

end LuaFormatter
