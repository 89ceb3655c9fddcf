import LuaFormatter.Parse.State

/-!
# Reading expressions

The rules refer to one another, and a `Grammar` holds the two that are used inside others: an
expression under a limit of priority, and a block. Every rule below takes the grammar for what is
nested in it and reads a token before it turns there, so nesting is never deeper than the number of
tokens.

`operation` reads operators as long as they bind tighter than the limit: the operand on the right
of an operator is read under that operator's own priority.
-/

namespace LuaFormatter

/-- The rules that other rules nest. -/
structure Grammar where
  /-- An expression whose operators bind tighter than a limit. -/
  expression : Nat → Parser Node
  /-- Statements up to the end of a block. -/
  block : Parser (List Node)

namespace Parser

/-- The token ends a block. -/
def endsBlock : Kind → Bool
  | .endOfFile | .keyword .endK | .keyword .elseK | .keyword .elseifK | .keyword .untilK => true
  | _ => false

/-- The text of a token. -/
def textOf (token : Token) : String :=
  String.ofList token.lexeme

/-- A name. -/
def identifier : Parser Node := do
  let token ← current
  if token.kind = .identifier then
    let _ ← advance
    makeAt (.identifier (textOf token)) token.span
  else
    fault (.expected .identifier token)
    makeInvalid token

/-- Expressions with commas between them. -/
def expressionList (grammar : Grammar) : Parser (List Node) :=
  commaSeparated (grammar.expression 0)

/-- One parameter of a function, and whether another one follows. Only a name can be followed. -/
def parameter : Parser (List Node × Bool) := do
  let token ← current
  match token.kind with
  | .identifier =>
    let name ← identifier
    return ([name], ← accept (.symbol .comma))
  | .symbol .dotDotDot =>
    let _ ← advance
    return ([← make (.literal .vararg (textOf token)) token.start], false)
  | _ =>
    fault (.expected .identifier token)
    return ([], false)

/-- The parameters and the body of a function that started at an offset. -/
def functionBody (grammar : Grammar) (start : Nat) (name : Option Node) (isLocal : Bool) :
    Parser Node := do
  expect (.symbol .leftParen)
  let parameters ←
    if (← currentKind) = .symbol .rightParen then pure [] else many parameter
  expect (.symbol .rightParen)
  let body ← grammar.block
  expect (.keyword .endK)
  make (.function isLocal name parameters body) start

/-- One field of a table, and whether a separator follows. -/
def field (grammar : Grammar) : Parser (List Node × Bool) := do
  let token ← current
  match token.kind with
  | .symbol .rightCurly | .endOfFile => return ([], false)
  | _ =>
    let field ←
      if token.kind = .symbol .leftSquare then do
        let _ ← advance
        let key ← grammar.expression 0
        expect (.symbol .rightSquare)
        expect (.symbol .equal)
        let value ← grammar.expression 0
        make (.keyField key value) token.start
      else if token.kind = .identifier ∧ (← followingKind) = .symbol .equal then do
        let name ← identifier
        let _ ← advance
        let value ← grammar.expression 0
        make (.nameField name value) token.start
      else do
        let value ← grammar.expression 0
        make (.valueField value) token.start
    let comma ← accept (.symbol .comma)
    let separated ← if comma then pure true else accept (.symbol .semicolon)
    return ([field], separated)

/-- A table. -/
def table (grammar : Grammar) : Parser Node := do
  let start ← start
  expect (.symbol .leftCurly)
  let fields ← many (field grammar)
  expect (.symbol .rightCurly)
  make (.table fields) start

/-- The kind of literal that a kind of token stands for. -/
def literalKind? : Kind → Option LiteralKind
  | .number => some .number
  | .string => some .string
  | .longString => some .longString
  | .keyword .trueK | .keyword .falseK => some .boolean
  | .keyword .nilK => some .nil
  | .symbol .dotDotDot => some .vararg
  | _ => none

/-- A literal. -/
def literal (kind : LiteralKind) : Parser Node := do
  let token ← advance
  make (.literal kind (textOf token)) token.start

/-- A name or an expression in parentheses. Any other token is a fault, and is passed over unless it
ends a block. -/
def primary (grammar : Grammar) : Parser Node := do
  let token ← current
  match token.kind with
  | .identifier => identifier
  | .symbol .leftParen =>
    let _ ← advance
    let expression ← grammar.expression 0
    expect (.symbol .rightParen)
    return expression.parenthesise
  | kind =>
    fault <| match kind with
      | .unknown => .unknownCharacter token
      | .unterminatedString | .unterminatedLongString => .unterminatedString token
      | _ => .expectedExpression token
    unless endsBlock kind do
      let _ ← advance
    makeInvalid token

/-- The token starts the arguments of a call. -/
def startsArguments : Kind → Bool
  | .symbol .leftParen | .symbol .leftCurly | .string | .longString => true
  | _ => false

/-- A call of a value that started at an offset; the arguments come next. -/
def call (grammar : Grammar) (base : Node) (start : Nat) : Parser Node := do
  match ← currentKind with
  | .symbol .leftCurly =>
    let argument ← table grammar
    make (.tableCall base argument) start
  | .string =>
    let argument ← literal .string
    make (.stringCall base argument) start
  | .longString =>
    let argument ← literal .longString
    make (.stringCall base argument) start
  | _ =>
    expect (.symbol .leftParen)
    let arguments ←
      if (← currentKind) = .symbol .rightParen then pure [] else expressionList grammar
    expect (.symbol .rightParen)
    make (.call base arguments) start

/-- One access or call of a value that started at an offset, if there is one. -/
def suffix (grammar : Grammar) (start : Nat) (base : Node) : Parser (Node × Bool) := do
  match ← currentKind with
  | .symbol .dot =>
    let _ ← advance
    let name ← identifier
    return (← make (.member .dot base name) start, true)
  | .symbol .leftSquare =>
    let _ ← advance
    let key ← grammar.expression 0
    expect (.symbol .rightSquare)
    return (← make (.index base key) start, true)
  | .symbol .colon =>
    let _ ← advance
    let name ← identifier
    let method ← make (.member .colon base name) start
    if startsArguments (← currentKind) then
      return (← call grammar method start, true)
    else
      fault (.expectedArguments (← current))
      return (method, true)
  | kind =>
    if startsArguments kind then
      return (← call grammar base start, true)
    else
      return (base, false)

/-- A name or an expression in parentheses, with all its accesses and calls. -/
def suffixed (grammar : Grammar) : Parser Node := do
  let start ← start
  let base ← primary grammar
  extend (suffix grammar start) base

/-- An operand without operators. -/
def simple (grammar : Grammar) : Parser Node := do
  let token ← current
  match literalKind? token.kind with
  | some kind => literal kind
  | none =>
    match token.kind with
    | .symbol .leftCurly => table grammar
    | .keyword .functionK =>
      let _ ← advance
      functionBody grammar token.start none false
    | _ => suffixed grammar

/-- An operand with the operators before it. -/
def operand (grammar : Grammar) : Parser Node := do
  let token ← current
  match UnaryOp.ofKind? token.kind with
  | some op =>
    let _ ← advance
    let operand ← grammar.expression UnaryOp.priority
    make (.unary op operand) token.start
  | none => simple grammar

/-- One operator that binds tighter than the limit, with the operand on its right. -/
def operation (grammar : Grammar) (limit start : Nat) (left : Node) : Parser (Node × Bool) := do
  match BinaryOp.ofKind? (← currentKind) with
  | some op =>
    if op.leftPriority ≤ limit then
      return (left, false)
    else
      let _ ← advance
      let right ← grammar.expression op.rightPriority
      return (← make (.binary op left right) start, true)
  | none => return (left, false)

/-- An expression whose operators bind tighter than a limit. -/
def expression (grammar : Grammar) (limit : Nat) : Parser Node := do
  let start ← start
  let left ← operand grammar
  extend (operation grammar limit start) left

end Parser

end LuaFormatter
