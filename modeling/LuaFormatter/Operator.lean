import LuaFormatter.Token.Kind

/-!
# Operators

The operators of Lua, the priorities by which the parser groups them, and the rule by which a chain
of them is written as one flat list. An operator that groups to the right has a higher priority on
its left than on its right. `flattens` allows a chain to run over operators of one tier, except
where a reader may not know how they group.
-/

namespace LuaFormatter

/-- Operators with two operands. -/
inductive BinaryOp where
  | or | and
  | less | greater | lessEqual | greaterEqual | notEqual | equal
  | bitOr | bitXor | bitAnd | shiftLeft | shiftRight
  | concat
  | add | subtract | multiply | divide | floorDivide | modulo
  | power
deriving DecidableEq

namespace BinaryOp

/-- The kind of token that an operator is written with. -/
def kind : BinaryOp → Kind
  | or => .keyword .orK
  | and => .keyword .andK
  | less => .symbol .less
  | greater => .symbol .greater
  | lessEqual => .symbol .lessEqual
  | greaterEqual => .symbol .greaterEqual
  | notEqual => .symbol .tildeEqual
  | equal => .symbol .equalEqual
  | bitOr => .symbol .pipe
  | bitXor => .symbol .tilde
  | bitAnd => .symbol .ampersand
  | shiftLeft => .symbol .lessLess
  | shiftRight => .symbol .greaterGreater
  | concat => .symbol .dotDot
  | add => .symbol .plus
  | subtract => .symbol .minus
  | multiply => .symbol .star
  | divide => .symbol .slash
  | floorDivide => .symbol .slashSlash
  | modulo => .symbol .percent
  | power => .symbol .caret

/-- How an operator is written. -/
def text (op : BinaryOp) : String :=
  op.kind.describe

/-- All operators with two operands. -/
def all : List BinaryOp :=
  [or, and, less, greater, lessEqual, greaterEqual, notEqual, equal, bitOr, bitXor, bitAnd,
    shiftLeft, shiftRight, concat, add, subtract, multiply, divide, floorDivide, modulo, power]

/-- The operator that a kind of token stands for. -/
def ofKind? (kind : Kind) : Option BinaryOp :=
  all.find? (·.kind = kind)

/-- Reading the token of an operator gives the operator back. -/
theorem ofKind?_kind (op : BinaryOp) : ofKind? op.kind = some op := by
  cases op <;> decide

/-- The priority with which an operator holds on to the operand on its left. -/
def leftPriority : BinaryOp → Nat
  | or => 1
  | and => 2
  | less | greater | lessEqual | greaterEqual | notEqual | equal => 3
  | bitOr => 4
  | bitXor => 5
  | bitAnd => 6
  | shiftLeft | shiftRight => 7
  | concat => 9
  | add | subtract => 10
  | multiply | divide | floorDivide | modulo => 11
  | power => 14

/-- The priority with which an operator holds on to the operand on its right: one less than on the
left for the two that group to the right. -/
def rightPriority (op : BinaryOp) : Nat :=
  match op with
  | concat | power => op.leftPriority - 1
  | _ => op.leftPriority

/-- The tier of an operator; a higher one binds tighter. -/
def precedence : BinaryOp → Nat
  | or => 1
  | and => 2
  | less | greater | lessEqual | greaterEqual | notEqual | equal => 3
  | bitOr => 4
  | bitXor => 5
  | bitAnd => 6
  | shiftLeft | shiftRight => 7
  | concat => 8
  | add | subtract => 9
  | multiply | divide | floorDivide | modulo => 10
  | power => 12

/-- The operator is `and` or `or`. -/
def isLogical (op : BinaryOp) : Bool :=
  op = or || op = and

/-- The operator is `==` or `~=`. -/
def isEquality (op : BinaryOp) : Bool :=
  op = equal || op = notEqual

/-- The operator multiplies or divides. -/
def isMultiplicative (op : BinaryOp) : Bool :=
  op = multiply || op = divide || op = floorDivide || op = modulo

/-- The operator shifts bits. -/
def isShift (op : BinaryOp) : Bool :=
  op = shiftLeft || op = shiftRight

/-- An operation on the left of `parent` is written as part of the same chain. Operators of one
tier share a chain, but powers, comparisons for equality, shifts, and different operators among the
multiplicative ones do not. -/
def flattens (parent child : BinaryOp) : Bool :=
  parent.precedence = child.precedence
    && parent ≠ power
    && !(parent.isEquality && child.isEquality)
    && !(parent.isMultiplicative && child.isMultiplicative && parent ≠ child)
    && !(parent.isShift && child.isShift)

end BinaryOp

/-- Operators with one operand. -/
inductive UnaryOp where
  | not | negate | length | bitNot
deriving DecidableEq

namespace UnaryOp

/-- The kind of token that an operator is written with. -/
def kind : UnaryOp → Kind
  | not => .keyword .notK
  | negate => .symbol .minus
  | length => .symbol .hash
  | bitNot => .symbol .tilde

/-- How an operator is written. -/
def text (op : UnaryOp) : String :=
  op.kind.describe

/-- All operators with one operand. -/
def all : List UnaryOp :=
  [not, negate, length, bitNot]

/-- The operator that a kind of token stands for. -/
def ofKind? (kind : Kind) : Option UnaryOp :=
  all.find? (·.kind = kind)

/-- Reading the token of an operator gives the operator back. -/
theorem ofKind?_kind (op : UnaryOp) : ofKind? op.kind = some op := by
  cases op <;> decide

/-- The priority of every operator with one operand: below a power, above all others. -/
def priority : Nat :=
  12

/-- The operator is a word, so a space divides it from its operand. -/
def isWord (op : UnaryOp) : Bool :=
  op = not

end UnaryOp

end LuaFormatter
