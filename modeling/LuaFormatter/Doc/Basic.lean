/-!
# Documents

A document is a text with choices left open: where lines may break, which parts break together, and
which of several forms is used. `Doc.willBreak` tells whether a document forces the groups around it
to break; a group knows for itself whether it does, so nobody has to look inside.

The builders at the end are the ones that the formatter writes documents with. `Doc.cat` adds no
list around a single document, the others keep theirs.
-/

namespace LuaFormatter

/-- A text with choices left open. -/
inductive Doc where
  /-- Nothing. -/
  | empty
  /-- A text, which holds no line break. -/
  | text (content : String)
  /-- A text that takes the rest of its line: a line comment, or the line that names the
  interpreter. -/
  | note (content : String)
  /-- A line break where the enclosing group is broken, else nothing. -/
  | softLine
  /-- A line break where the enclosing group is broken, else a space. -/
  | line
  /-- A line break, with the indentation of the new line. -/
  | hardLine
  /-- A line break as it stands, without indentation. -/
  | literalLine
  | concat (items : List Doc)
  /-- One level of indentation for the lines that start inside. -/
  | indent (contents : Doc)
  /-- A part that is broken as a whole or not at all, and whether it must be. -/
  | group (breaks : Bool) (contents : Doc)
  /-- Different forms, the most expanded last, and whether that one must be used. -/
  | alternatives (breaks : Bool) (options : List Doc)
  /-- Different forms for a broken and for a flat enclosing group. -/
  | ifBreak (broken flat : Doc)
  /-- A part that is put off until the next line break. -/
  | suffix (contents : Doc)
  /-- Nothing, but the groups around it break. -/
  | breakParent

namespace Doc

mutual

/-- The document forces the groups around it to break. -/
def willBreak : Doc → Bool
  | hardLine | literalLine | breakParent => true
  | empty | text _ | note _ | softLine | line => false
  | concat items => anyWillBreak items
  | indent contents | suffix contents => willBreak contents
  | group breaks _ | alternatives breaks _ => breaks
  | ifBreak broken flat => willBreak flat || willBreak broken

/-- One of the documents forces a break. -/
def anyWillBreak : List Doc → Bool
  | [] => false
  | doc :: rest => willBreak doc || anyWillBreak rest

end

/-- Some document of a list breaks. Counterpart of `anyWillBreak`, as a question about the members
of the list. -/
theorem anyWillBreak_eq (docs : List Doc) : anyWillBreak docs = docs.any willBreak := by
  induction docs with
  | nil => rfl
  | cons doc rest ih => simp [anyWillBreak, ih]

mutual

/-- The first text that is printed, if the document alone decides it. -/
def firstText? : Doc → Option String
  | text content | note content => if content.isEmpty then none else some content
  | concat items => firstTextOf? items
  | indent contents | group _ contents => firstText? contents
  | alternatives _ (first :: _) => firstText? first
  | _ => none

/-- The first text of the first document that has one. -/
def firstTextOf? : List Doc → Option String
  | [] => none
  | doc :: rest => (firstText? doc).or (firstTextOf? rest)

end

mutual

/-- There is nothing to print. -/
def isEmpty : Doc → Bool
  | empty => true
  | concat items => allEmpty items
  | _ => false

/-- There is nothing to print in any of the documents. -/
def allEmpty : List Doc → Bool
  | [] => true
  | doc :: rest => isEmpty doc && allEmpty rest

end

mutual

/-- The number of constructors of a document. -/
def weight : Doc → Nat
  | concat items | alternatives _ items => 1 + listWeight items
  | indent contents | group _ contents | suffix contents => 1 + weight contents
  | ifBreak broken flat => 1 + weight broken + weight flat
  | _ => 1

/-- The number of constructors of a list of documents. -/
def listWeight : List Doc → Nat
  | [] => 0
  | doc :: rest => weight doc + listWeight rest

end

/-- Every document has a weight, so that a step that takes one off the work list makes it lighter.
Counterpart of `weight`. -/
theorem weight_pos (doc : Doc) : 0 < doc.weight := by
  cases doc <;> unfold weight <;> omega

/-- A member weighs at most as much as the list. Counterpart of `listWeight`, used where one option
of several is chosen. -/
theorem weight_le_listWeight {doc : Doc} {docs : List Doc} (h : doc ∈ docs) :
    doc.weight ≤ listWeight docs := by
  induction docs with
  | nil => simp at h
  | cons first rest ih =>
    rcases List.mem_cons.1 h with rfl | h
    · simp [listWeight]
    · have := ih h
      simp only [listWeight]
      omega

/-- The documents one after the other; a single one stands for itself. -/
def cat : List Doc → Doc
  | [] => empty
  | [doc] => doc
  | docs => concat docs

/-- The documents with a separator between neighbours. -/
def join (separator : Doc) (docs : List Doc) : Doc :=
  concat (docs.intersperse separator)

/-- The documents, one level of indentation deeper. -/
def indented (docs : List Doc) : Doc :=
  indent (cat docs)

/-- The documents as a group, broken if asked for or if the contents force it. -/
def groupedIf (breaks : Bool) (docs : List Doc) : Doc :=
  let contents := cat docs
  group (breaks || contents.willBreak) contents

/-- The documents as a group, broken if the contents force it. -/
def grouped (docs : List Doc) : Doc :=
  groupedIf false docs

/-- A comma, and a line break or a space. -/
def commaLine : Doc :=
  cat [text ",", line]

/-- A text that may hold line breaks, printed as it is. A carriage return before a line feed belongs
to the line break. -/
def verbatim (content : List Char) : Doc :=
  if content.contains '\n' then
    join literalLine <| (content.splitOn '\n').map fun line =>
      text (String.ofList (if line.getLast? = some '\r' then line.dropLast else line))
  else
    text (String.ofList content)

end Doc

end LuaFormatter
