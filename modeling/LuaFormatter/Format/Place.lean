import LuaFormatter.Tree.Node

/-!
# The place of a node

How a node is written depends on where it stands: what its parent is, and which part of it the node
is. `Place` holds all that matters of this, and `needsParens` decides by it which parentheses of the
source are kept. Parentheses that the source does not have are never added.
-/

namespace LuaFormatter

/-- Where a node stands. The default is a place where nothing special holds. -/
structure Place where
  /-- The node is what an access or a call starts with. -/
  isBase : Bool := false
  /-- The node is the last of a list in which all values of a call are kept. -/
  keepsValues : Bool := false
  /-- The node is the left operand of a power. -/
  isPowerBase : Bool := false
  /-- The node is the only thing in its position, so that a chain of operators is not indented. -/
  isAlone : Bool := false
  /-- The node is an operand: whether the operator is a logical one. -/
  parentLogical : Option Bool := none
  /-- The node is an argument that is written close to the parentheses of its call. -/
  isHugged : Bool := false

namespace Place

/-- The base of an access or a call. -/
def base : Place where
  isBase := true

/-- The left operand of an operator. -/
def left (op : BinaryOp) : Place where
  isPowerBase := op = .power
  parentLogical := some op.isLogical

/-- The right operand of an operator. -/
def right (op : BinaryOp) : Place where
  parentLogical := some op.isLogical

/-- A value in a list of a length, at an index. -/
def value (length index : Nat) : Place where
  keepsValues := index + 1 = length
  isAlone := length = 1

/-- An argument in a list of a length, at an index. -/
def argument (length index : Nat) : Place where
  keepsValues := index + 1 = length

/-- The key or the value of a field with a key. -/
def field : Place where
  isAlone := true

end Place

/-- The parentheses that the source has around a node must be kept: they change the meaning, or the
code could not be read without them. -/
def needsParens (place : Place) (node : Node) : Bool :=
  node.inParens &&
    match node.shape with
    | .binary _ _ _ => true
    | .identifier _ | .member _ _ _ | .index _ _ => false
    | .literal .vararg _ | .call _ _ | .tableCall _ _ | .stringCall _ _ =>
      place.isBase || place.keepsValues
    | .unary _ _ => place.isBase || place.isPowerBase
    | _ => place.isBase

end LuaFormatter
