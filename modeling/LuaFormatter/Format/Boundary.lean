import LuaFormatter.Tree.Node

/-!
# Boundaries between statements

A statement that starts with a parenthesis would be read as a call of what the statement before it
ends with. `needsSeparator` asks for a semicolon between such statements.
-/

namespace LuaFormatter

/-- The expression at the right end of an expression. Parentheses close it off. -/
def Node.rightmost (node : Node) : Node :=
  if node.inParens then node
  else
    match _shape : node.shape with
    | .binary _ _ right => right.rightmost
    | .unary _ operand => operand.rightmost
    | _ => node
termination_by node.size
decreasing_by
  all_goals
    apply Node.size_lt_of_mem_children
    simp [Node.children, _shape, Shape.children]

/-- The expression that a statement ends with, if the next line could go on with it. -/
def Node.lastExpression? (statement : Node) : Option Node :=
  match statement.shape with
  | .localVariables _ values | .assignment _ values => values.getLast?.map Node.rightmost
  | .callStatement expression => some expression.rightmost
  | .repeatLoop _ condition => some condition.rightmost
  | _ => none

/-- An expression that a parenthesis after it would call. -/
def Node.isCallable (node : Node) : Bool :=
  node.inParens ||
    match node.shape with
    | .identifier _ | .member _ _ _ | .index _ _ | .call _ _ | .tableCall _ _ | .stringCall _ _ =>
      true
    | _ => false

/-- An expression is written with a parenthesis at its start. -/
def Node.opensWithParen (node : Node) : Bool :=
  match _shape : node.shape with
  | .identifier _ => false
  | .member _ base _ | .index base _ => !node.inParens && base.opensWithParen
  | .call base _ | .tableCall base _ | .stringCall base _ => node.inParens || base.opensWithParen
  | _ => node.inParens
termination_by node.size
decreasing_by
  all_goals
    apply Node.size_lt_of_mem_children
    simp [Node.children, _shape, Shape.children]

/-- A statement is written with a parenthesis at its start. -/
def Node.startsWithParen (statement : Node) : Bool :=
  match statement.shape with
  | .callStatement expression => expression.opensWithParen
  | .assignment targets _ => targets.head?.any Node.opensWithParen
  | _ => false

/-- A semicolon is needed between two statements, for the second not to be read as a call. -/
def needsSeparator (statement next : Node) : Bool :=
  statement.lastExpression?.any Node.isCallable && next.startsWithParen

end LuaFormatter
