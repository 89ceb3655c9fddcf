import LuaFormatter.Doc.Basic

/-!
# Showing a document

The structure of a document, written out: every constructor by its name, its parts on lines of their
own, four spaces deeper, each followed by a comma. Texts are shown as they are, between single
quotes; the lines of a text with line breaks are indented too.
-/

namespace LuaFormatter.Doc

/-- The indentation of the parts of a document. -/
def outlineStep : String :=
  "    "

/-- A text whose further lines start after a lead. -/
def leadLines (lead : String) (content : String) : String :=
  String.ofList (content.toList.flatMap fun c => if c = '\n' then '\n' :: lead.toList else [c])

mutual

/-- The structure of a document; all lines but the first start after a lead. -/
def outlineFrom (lead : String) : Doc → String
  | empty => "Empty"
  | text content | note content => "Text '" ++ leadLines lead content ++ "'"
  | softLine => "SoftLine"
  | line => "Line"
  | hardLine => "HardLine"
  | literalLine => "LiteralLine"
  | breakParent => "BreakParent"
  | concat items => outlineList lead items
  | indent contents => "Indent(\n" ++ outlinePart (lead ++ outlineStep) contents ++ lead ++ ")"
  | group breaks contents =>
    (if breaks then "BrokenGroup(\n" else "Group(\n") ++
      outlinePart (lead ++ outlineStep) contents ++ lead ++ ")"
  | alternatives breaks options =>
    (if breaks then "BrokenConditionalGroup(\n" else "ConditionalGroup(\n") ++
      (lead ++ outlineStep) ++ outlineList (lead ++ outlineStep) options ++ ",\n" ++ lead ++ ")"
  | ifBreak broken flat =>
    "IfBreak(\n" ++ outlinePart (lead ++ outlineStep) broken ++
      outlinePart (lead ++ outlineStep) flat ++ lead ++ ")"
  | suffix contents =>
    "LineSuffix(\n" ++ outlinePart (lead ++ outlineStep) contents ++ lead ++ ")"

/-- One part of a document on lines of its own. -/
def outlinePart (lead : String) (doc : Doc) : String :=
  lead ++ outlineFrom lead doc ++ ",\n"

/-- A list of documents between square brackets. -/
def outlineList (lead : String) : List Doc → String
  | [] => "[]"
  | doc :: rest =>
    "[\n" ++ outlinePart (lead ++ outlineStep) doc ++ outlineParts (lead ++ outlineStep) rest ++
      lead ++ "]"

/-- Parts of a document, each on lines of its own. -/
def outlineParts (lead : String) : List Doc → String
  | [] => ""
  | doc :: rest => outlinePart lead doc ++ outlineParts lead rest

end

/-- The structure of a document. -/
def outline (doc : Doc) : String :=
  outlineFrom "" doc

end LuaFormatter.Doc
