import LuaFormatter.Format.Boundary
import LuaFormatter.Format.Context

/-!
# Blocks and assigned values

The documents of statements and of the values of an assignment, from those of their parts. A blank
line between two statements is kept, several become one. Statements that could not be read are left
out.
-/

namespace LuaFormatter

/-- A node with what is written for it. -/
structure Printed where
  node : Node
  doc : Doc

/-- What is written for a node, if there is one. -/
def printOption (node : Option Node) (print : (child : Node) → node = some child → Doc) :
    Option Doc :=
  match node with
  | some child => some (print child rfl)
  | none => none

/-- The nodes of a list with what is written for them. -/
def printEach (nodes : List Node) (print : (node : Node) → node ∈ nodes → Doc) : List Printed :=
  nodes.attach.map fun ⟨node, member⟩ => ⟨node, print node member⟩

/-- The nodes of a list with what is written for them, which may depend on their index. -/
def printIndexed (nodes : List Node) (print : Nat → (node : Node) → node ∈ nodes → Doc) :
    List Printed :=
  nodes.attach.zipIdx.map fun (⟨node, member⟩, index) => ⟨node, print index node member⟩

/-- What is written for a list of nodes, with commas between them. -/
def commaList (nodes : List Printed) : Doc :=
  Doc.join Doc.commaLine (nodes.map Printed.doc)

/-- The statement could not be read. -/
def Node.isUnreadStatement (statement : Node) : Bool :=
  match statement.shape with
  | .invalid => true
  | .callStatement expression => expression.shape.isInvalid
  | _ => false

namespace Context

variable (context : Context)

/-- Statements with what stands between them: a semicolon where one is needed, and a blank line
where the source has one. -/
def separated : List Printed → List Doc
  | [] => []
  | [last] => [last.doc]
  | statement :: next :: rest =>
    let separator : Doc :=
      if needsSeparator statement.node next.node then .text ";" else .empty
    let blankLine : Doc :=
      if Gap.isNextLineBlank context.source statement.node.span.stop then .hardLine else .empty
    Doc.cat [statement.doc, separator, blankLine] :: separated (next :: rest)

/-- Statements on lines of their own. -/
def statements (body : List Printed) : Doc :=
  Doc.join .hardLine
    (context.separated (body.filter fun statement => !statement.node.isUnreadStatement))

/-- The indented body of a node, `none` if there is nothing in it. Comments inside the node come
first. -/
def body? (node : Node) (body : List Printed) : Option Doc :=
  let comments := context.danglingBlock? node
  if body.isEmpty then comments
  else
    let statements := Doc.indented [.hardLine, context.statements body]
    match comments with
    | some comments => some (Doc.cat [comments, statements])
    | none => some statements

/-- The body of a node and the keyword that closes it, which stays on the same line if the body is
empty. -/
def bodyAndEnd (node : Node) (body : List Printed) : Doc :=
  match context.body? node body with
  | some body => Doc.cat [body, .hardLine, .text "end"]
  | none => .text " end"

end Context

/-- The values after an equals sign. A table starts on the same line, and so does a value that
breaks anyway; others may go to a line of their own. -/
def assignedValues : List Printed → Doc
  | [⟨node, doc⟩] =>
    if node.shape.isTable then Doc.cat [.text " ", doc]
    else if doc.willBreak then
      let isChain := node.shape.isBinary && !node.inParens
      Doc.cat [.text " ", if isChain then Doc.indented [doc] else doc]
    else
      Doc.grouped [Doc.indented [.line, doc]]
  | values => Doc.grouped [Doc.indented [.line, commaList values]]

end LuaFormatter
