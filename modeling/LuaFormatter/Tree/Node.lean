import LuaFormatter.Operator
import LuaFormatter.Source.Span

/-!
# The tree of a source

A `Node` is a piece of the program with its place in the source. What it is made of is its
`Shape`, over any type of parts; the parts of a node are nodes. Leaves hold their text, so that a
tree can be read without the source. Nodes are numbered in the order in which they were made: the
whole file has number zero, and every other node a larger number than its children.

`Shape.children` lists the parts in the order of the source. A part is smaller than the whole
(`Node.size_lt_of_mem_children`), by which functions on trees recurse.
-/

namespace LuaFormatter

/-- The kinds of literal. -/
inductive LiteralKind where
  | string | longString | number | boolean | nil | vararg
deriving DecidableEq

/-- How a member is reached: a field with a dot, a method with a colon. -/
inductive Indexer where
  | dot | colon
deriving DecidableEq

/-- How an indexer is written. -/
def Indexer.text : Indexer → String
  | dot => "."
  | colon => ":"

/-- The keyword that a branch starts with. -/
inductive ClauseKind where
  | ifClause | elseifClause | elseClause
deriving DecidableEq

/-- What a node is made of, with parts of type `α`. -/
inductive Shape (α : Type) where
  /-- A whole file. -/
  | chunk (body : List α)
  /-- Declares local variables, with or without values. -/
  | localVariables (names values : List α)
  /-- Assigns values to variables and fields. -/
  | assignment (targets values : List α)
  /-- A call that stands as a statement. -/
  | callStatement (expression : α)
  /-- A function, with a name as a statement and without one as a value. -/
  | function (isLocal : Bool) (name : Option α) (parameters body : List α)
  /-- A conditional, made of its branches. -/
  | conditional (clauses : List α)
  /-- A branch of a conditional; the last one may have no condition. -/
  | clause (kind : ClauseKind) (condition : Option α) (body : List α)
  | whileLoop (condition : α) (body : List α)
  | doBlock (body : List α)
  | repeatLoop (body : List α) (condition : α)
  /-- A loop over numbers from a first to a last one, with an optional step. -/
  | numericFor (counter first last : α) (step : Option α) (body : List α)
  /-- A loop over what iterators give. -/
  | genericFor (names iterators body : List α)
  | returnStatement (values : List α)
  | breakStatement
  | gotoStatement (label : α)
  | labelStatement (label : α)
  | identifier (name : String)
  | literal (kind : LiteralKind) (text : String)
  | table (fields : List α)
  /-- A field with a computed key. -/
  | keyField (key value : α)
  /-- A field with a name for its key. -/
  | nameField (name value : α)
  /-- A field without a key. -/
  | valueField (value : α)
  | binary (op : BinaryOp) (left right : α)
  | unary (op : UnaryOp) (operand : α)
  | member (indexer : Indexer) (base name : α)
  | index (base key : α)
  | call (base : α) (arguments : List α)
  /-- A call with a table for its only argument, written without parentheses. -/
  | tableCall (base argument : α)
  /-- A call with a string for its only argument, written without parentheses. -/
  | stringCall (base argument : α)
  /-- A place where the source could not be read. -/
  | invalid

namespace Shape

variable {α : Type}

/-- The parts of a shape in the order of the source. -/
def children : Shape α → List α
  | chunk body | doBlock body => body
  | localVariables names values | assignment names values => names ++ values
  | callStatement expression => [expression]
  | function _ name parameters body => name.toList ++ parameters ++ body
  | conditional clauses => clauses
  | clause _ condition body => condition.toList ++ body
  | whileLoop condition body => condition :: body
  | repeatLoop body condition => body ++ [condition]
  | numericFor counter first last step body => [counter, first, last] ++ step.toList ++ body
  | genericFor names iterators body => names ++ iterators ++ body
  | returnStatement values => values
  | gotoStatement label | labelStatement label => [label]
  | table fields => fields
  | keyField key value => [key, value]
  | nameField name value => [name, value]
  | valueField value => [value]
  | binary _ left right => [left, right]
  | unary _ operand => [operand]
  | member _ base name => [base, name]
  | index base key => [base, key]
  | call base arguments => base :: arguments
  | tableCall base argument | stringCall base argument => [base, argument]
  | breakStatement | identifier _ | literal _ _ | invalid => []

/-- The name of a shape in listings. -/
def name : Shape α → String
  | chunk _ => "Chunk"
  | localVariables _ _ => "Local"
  | assignment _ _ => "Assignment"
  | callStatement _ => "Call Statement"
  | function _ _ _ _ => "Function"
  | conditional _ => "If"
  | clause _ _ _ => "Clause"
  | whileLoop _ _ => "While"
  | doBlock _ => "Do"
  | repeatLoop _ _ => "Repeat"
  | numericFor _ _ _ _ _ => "For Numeric"
  | genericFor _ _ _ => "For Generic"
  | returnStatement _ => "Return"
  | breakStatement => "Break"
  | gotoStatement _ => "Goto"
  | labelStatement _ => "Label"
  | identifier _ => "Identifier"
  | literal _ _ => "Literal"
  | table _ => "Table"
  | keyField _ _ => "Table Key"
  | nameField _ _ => "Table Key String"
  | valueField _ => "Table Value"
  | binary _ _ _ => "Binary"
  | unary _ _ => "Unary"
  | member _ _ _ => "Member"
  | index _ _ => "Index"
  | call _ _ => "Call"
  | tableCall _ _ => "Table Call"
  | stringCall _ _ => "String Call"
  | invalid => "Invalid"

/-- The shape is a call in one of its three forms. -/
def isCall : Shape α → Bool
  | call _ _ | tableCall _ _ | stringCall _ _ => true
  | _ => false

/-- The shape stands for source that could not be read. -/
def isInvalid : Shape α → Bool
  | invalid => true
  | _ => false

/-- The shape is a table. -/
def isTable : Shape α → Bool
  | table _ => true
  | _ => false

/-- The shape is a function. -/
def isFunction : Shape α → Bool
  | function _ _ _ _ => true
  | _ => false

/-- The shape is an operation with two operands. -/
def isBinary : Shape α → Bool
  | binary _ _ _ => true
  | _ => false

/-- The shape is a field without a key. -/
def isValueField : Shape α → Bool
  | valueField _ => true
  | _ => false

/-- The value of a field of a table. -/
def fieldValue? : Shape α → Option α
  | valueField value | keyField _ value | nameField _ value => some value
  | _ => none

/-- The statements of a shape that has a body. -/
def body? : Shape α → Option (List α)
  | chunk body | function _ _ _ body | clause _ _ body | whileLoop _ body | doBlock body
  | repeatLoop body _ | numericFor _ _ _ _ body | genericFor _ _ body => some body
  | _ => none

end Shape

/-- A node of the tree: its number, what it is made of, its span without any parentheses around it,
and whether the source has such parentheses. -/
inductive Node where
  | mk (number : Nat) (shape : Shape Node) (span : Span) (inParens : Bool)

namespace Node

/-- The number of the node. -/
def number : Node → Nat
  | mk number _ _ _ => number

/-- What the node is made of. -/
def shape : Node → Shape Node
  | mk _ shape _ _ => shape

/-- Where the node is, without any parentheses around it. -/
def span : Node → Span
  | mk _ _ span _ => span

/-- The source has parentheses around the node. -/
def inParens : Node → Bool
  | mk _ _ _ inParens => inParens

/-- The node with parentheses around it. -/
def parenthesise : Node → Node
  | mk number shape span _ => mk number shape span true

/-- The parts of a node in the order of the source. -/
def children (node : Node) : List Node :=
  node.shape.children

mutual

/-- The number of nodes of a tree. -/
def size : Node → Nat
  | mk _ shape _ _ => 1 + shapeSize shape

/-- The number of nodes in the parts of a shape. -/
def shapeSize : Shape Node → Nat
  | .chunk body | .doBlock body => listSize body
  | .localVariables names values | .assignment names values => listSize names + listSize values
  | .callStatement expression => size expression
  | .function _ name parameters body => optionSize name + listSize parameters + listSize body
  | .conditional clauses => listSize clauses
  | .clause _ condition body => optionSize condition + listSize body
  | .whileLoop condition body => size condition + listSize body
  | .repeatLoop body condition => listSize body + size condition
  | .numericFor counter first last step body =>
    size counter + size first + size last + optionSize step + listSize body
  | .genericFor names iterators body => listSize names + listSize iterators + listSize body
  | .returnStatement values => listSize values
  | .gotoStatement label | .labelStatement label => size label
  | .table fields => listSize fields
  | .keyField key value => size key + size value
  | .nameField name value => size name + size value
  | .valueField value => size value
  | .binary _ left right => size left + size right
  | .unary _ operand => size operand
  | .member _ base name => size base + size name
  | .index base key => size base + size key
  | .call base arguments => size base + listSize arguments
  | .tableCall base argument | .stringCall base argument => size base + size argument
  | .breakStatement | .identifier _ | .literal _ _ | .invalid => 0

/-- The number of nodes of a list of trees. -/
def listSize : List Node → Nat
  | [] => 0
  | node :: rest => size node + listSize rest

/-- The number of nodes of an optional tree. -/
def optionSize : Option Node → Nat
  | none => 0
  | some node => size node

end

/-- The number of nodes of two lists together. Counterpart of `listSize`. -/
theorem listSize_append (front back : List Node) :
    listSize (front ++ back) = listSize front + listSize back := by
  induction front with
  | nil => simp [listSize]
  | cons node front ih => simp [listSize, ih, Nat.add_assoc]

/-- An optional tree has the nodes of a list of at most one. Counterpart of `optionSize`. -/
theorem optionSize_eq_listSize (node : Option Node) : optionSize node = listSize node.toList := by
  cases node <;> simp [optionSize, listSize]

/-- The parts of a shape hold all its nodes. Counterpart of `Shape.children`. -/
theorem shapeSize_eq_listSize_children (shape : Shape Node) :
    shapeSize shape = listSize shape.children := by
  cases shape <;>
    simp [shapeSize, Shape.children, listSize_append, optionSize_eq_listSize, listSize] <;> omega

/-- A tree has one node more than its parts have together. Counterpart of `Node.size`. -/
theorem size_eq (node : Node) : node.size = 1 + listSize node.children := by
  obtain ⟨number, shape, span, inParens⟩ := node
  rw [size, shapeSize_eq_listSize_children]
  rfl

/-- A tree of a list has at most the nodes of the list. Counterpart of `listSize`, by which
functions on the parts of a node end. -/
theorem size_le_listSize {node : Node} {nodes : List Node} (h : node ∈ nodes) :
    node.size ≤ listSize nodes := by
  induction nodes with
  | nil => simp at h
  | cons first rest ih =>
    rcases List.mem_cons.1 h with rfl | h
    · simp [listSize]
    · have := ih h
      simp only [listSize]
      omega

/-- A part has fewer nodes than the whole. Counterpart of `Node.children`, by which walks over a
tree end. -/
theorem size_lt_of_mem_children {node child : Node} (h : child ∈ node.children) :
    child.size < node.size := by
  have := size_le_listSize h
  rw [node.size_eq]
  omega

end Node

end LuaFormatter
