import LuaFormatter.Tree.Node

/-!
# Showing a tree

Two views of a tree for people: `Node.entries` lists its nodes from the root down, each with its
depth, and `outline` draws the statements of a file as a tree with box characters.
-/

namespace LuaFormatter

/-- The name of a kind of literal in listings. -/
def LiteralKind.name : LiteralKind → String
  | string => "String"
  | longString => "LongString"
  | number => "Number"
  | boolean => "Boolean"
  | nil => "Nil"
  | vararg => "Vararg"

/-- The name of a kind of branch in listings. -/
def ClauseKind.name : ClauseKind → String
  | ifClause => "If"
  | elseifClause => "ElseIf"
  | elseClause => "Else"

/-- What tells two shapes of one name apart: the operator, the indexer, the kind of literal or
branch, or that a function is local. -/
def Shape.detail? {α : Type} : Shape α → Option String
  | binary op _ _ => some op.text
  | unary op _ => some op.text
  | member indexer _ _ => some indexer.text
  | literal kind _ => some kind.name
  | clause kind _ _ => some kind.name
  | function true _ _ _ => some "local"
  | _ => none

/-- A line of the listing of a tree. -/
structure Entry where
  depth : Nat
  name : String
  span : Span
  inParens : Bool
  detail : Option String

namespace Node

/-- The nodes of a tree, each before its parts. -/
def preorder (node : Node) : List Node :=
  node :: node.children.attach.flatMap fun ⟨child, _⟩ => child.preorder
termination_by node.size
decreasing_by exact size_lt_of_mem_children ‹_›

/-- The listing of a tree whose root is at a depth. -/
def entries (depth : Nat) (node : Node) : List Entry :=
  ⟨depth, node.shape.name, node.span, node.inParens, node.shape.detail?⟩ ::
    node.children.attach.flatMap fun ⟨child, _⟩ => child.entries (depth + 1)
termination_by node.size
decreasing_by exact size_lt_of_mem_children ‹_›

/-- What the outline says about a node. -/
def label (node : Node) : String :=
  let text :=
    match node.shape with
    | .identifier name => "Identifier (" ++ name ++ ")"
    | .literal .string text | .literal .longString text => "String " ++ text
    | .literal .number text => "Number (" ++ text ++ ")"
    | .literal .boolean text => "Boolean (" ++ text ++ ")"
    | .literal .nil _ => "Nil"
    | .literal .vararg _ => "Vararg"
    | .binary op _ _ => "Binary (" ++ op.text ++ ")"
    | .unary op _ => "Unary (" ++ op.text ++ ")"
    | .member indexer _ _ => "Member (" ++ indexer.text ++ ")"
    | .function true _ _ _ => "Local Function"
    | .clause kind _ _ => "Clause (" ++ kind.name ++ ")"
    | shape => shape.name
  if node.inParens then text ++ " (parenthesized)" else text

/-- The outline of a tree, every line after a lead. The last part of a node is drawn with a corner
and leaves no bar below it. -/
def outline (lead : String) (isLast : Bool) (node : Node) : String :=
  let count := node.children.length
  let parts := node.children.attach.zipIdx.map fun (⟨child, _⟩, index) =>
    child.outline (lead ++ if isLast then "   " else "│  ") (index + 1 == count)
  lead ++ (if isLast then "╰─ " else "├─ ") ++ node.label ++ "\n" ++ String.join parts
termination_by node.size
decreasing_by exact size_lt_of_mem_children ‹_›

end Node

/-- The outline of a file: its statements one below the other. -/
def outline (root : Node) : String :=
  String.join (root.children.map (Node.outline "" false))

end LuaFormatter
