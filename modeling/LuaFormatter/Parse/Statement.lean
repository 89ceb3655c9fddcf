import LuaFormatter.Parse.Expression

/-!
# Reading statements

The rules for statements, over the grammar for what is nested in them. A block ends before the
keyword that closes it, and a `return` is the last statement of its block. Every other statement
reads at least one token.
-/

namespace LuaFormatter.Parser

/-- A `return` with its values. -/
def returnStatement (grammar : Grammar) : Parser Node := do
  let start ← start
  let _ ← advance
  let kind ← currentKind
  let values ←
    if endsBlock kind ∨ kind = .symbol .semicolon then pure [] else expressionList grammar
  let _ ← accept (.symbol .semicolon)
  make (.returnStatement values) start

/-- The kind of branch that a kind of token starts. -/
def clauseKind : Kind → ClauseKind
  | .keyword .elseK => .elseClause
  | .keyword .elseifK => .elseifClause
  | _ => .ifClause

/-- One branch of a conditional, and whether another one follows: none does after an `else`. A
branch reaches up to the keyword that ends it. -/
def clause (grammar : Grammar) : Parser (List Node × Bool) := do
  let token ← advance
  let kind := clauseKind token.kind
  let condition ←
    if kind = .elseClause then pure none
    else do
      let condition ← grammar.expression 0
      expect (.keyword .thenK)
      pure (some condition)
  let body ← grammar.block
  let clause ← makeAt (.clause kind condition body) ⟨token.start, max (← start) token.start⟩
  let next ← currentKind
  return ([clause],
    kind ≠ .elseClause ∧ (next = .keyword .elseifK ∨ next = .keyword .elseK))

/-- A conditional. -/
def conditional (grammar : Grammar) : Parser Node := do
  let start ← start
  let clauses ← many (clause grammar)
  expect (.keyword .endK)
  make (.conditional clauses) start

/-- A `while` loop. -/
def whileLoop (grammar : Grammar) : Parser Node := do
  let start ← start
  let _ ← advance
  let condition ← grammar.expression 0
  expect (.keyword .doK)
  let body ← grammar.block
  expect (.keyword .endK)
  make (.whileLoop condition body) start

/-- A block of its own. -/
def doBlock (grammar : Grammar) : Parser Node := do
  let start ← start
  let _ ← advance
  let body ← grammar.block
  expect (.keyword .endK)
  make (.doBlock body) start

/-- A `repeat` loop. -/
def repeatLoop (grammar : Grammar) : Parser Node := do
  let start ← start
  let _ ← advance
  let body ← grammar.block
  expect (.keyword .untilK)
  let condition ← grammar.expression 0
  make (.repeatLoop body condition) start

/-- The body of a loop. -/
def loopBody (grammar : Grammar) : Parser (List Node) := do
  expect (.keyword .doK)
  let body ← grammar.block
  expect (.keyword .endK)
  return body

/-- A `for` loop; an equals sign after the first variable tells the two kinds apart. -/
def forLoop (grammar : Grammar) : Parser Node := do
  let start ← start
  let _ ← advance
  let counter ← identifier
  if ← accept (.symbol .equal) then
    let first ← grammar.expression 0
    expect (.symbol .comma)
    let last ← grammar.expression 0
    let step ←
      if ← accept (.symbol .comma) then some <$> grammar.expression 0 else pure none
    let body ← loopBody grammar
    make (.numericFor counter first last step body) start
  else
    let others ←
      if ← accept (.symbol .comma) then commaSeparated identifier else pure []
    expect (.keyword .inK)
    let iterators ← expressionList grammar
    let body ← loopBody grammar
    make (.genericFor (counter :: others) iterators body) start

/-- One more part of a function's name that started at an offset. A method's name is the last. -/
def namePart (start : Nat) (base : Node) : Parser (Node × Bool) := do
  match ← currentKind with
  | .symbol .dot =>
    let _ ← advance
    let name ← identifier
    return (← make (.member .dot base name) start, true)
  | .symbol .colon =>
    let _ ← advance
    let name ← identifier
    return (← make (.member .colon base name) start, false)
  | _ => return (base, false)

/-- The declaration of a function. -/
def functionStatement (grammar : Grammar) : Parser Node := do
  let token ← advance
  let nameStart ← start
  let base ← identifier
  let name ← extend (namePart nameStart) base
  functionBody grammar token.start (some name) false

/-- The declaration of a local function or of local variables. -/
def localStatement (grammar : Grammar) : Parser Node := do
  let token ← advance
  if ← accept (.keyword .functionK) then
    let name ← identifier
    functionBody grammar token.start (some name) true
  else
    let names ← commaSeparated identifier
    let values ←
      if ← accept (.symbol .equal) then expressionList grammar else pure []
    make (.localVariables names values) token.start

/-- A label. -/
def labelStatement : Parser Node := do
  let token ← advance
  let label ← identifier
  expect (.symbol .colonColon)
  make (.labelStatement label) token.start

/-- A jump to a label. -/
def gotoStatement : Parser Node := do
  let token ← advance
  let label ← identifier
  make (.gotoStatement label) token.start

/-- A jump out of a loop. -/
def breakStatement : Parser Node := do
  let token ← advance
  make .breakStatement token.start

/-- The node can be assigned to, or was no expression at all. -/
def isTarget (node : Node) : Bool :=
  match node.shape with
  | .identifier _ | .index _ _ | .member .dot _ _ | .invalid => true
  | _ => false

/-- A statement that starts with an expression: an assignment or a call. -/
def expressionStatement (grammar : Grammar) : Parser Node := do
  let start ← start
  let first ← suffixed grammar
  let kind ← currentKind
  if kind = .symbol .equal ∨ kind = .symbol .comma then
    let others ←
      if ← accept (.symbol .comma) then commaSeparated (suffixed grammar) else pure []
    let targets := first :: others
    for target in targets do
      unless isTarget target do
        fault (.invalidTarget target.span)
    expect (.symbol .equal)
    let values ← expressionList grammar
    make (.assignment targets values) start
  else
    unless first.shape.isCall || first.shape.isInvalid do
      fault (.expectedStatement first.span)
    make (.callStatement first) start

/-- A statement. -/
def statement (grammar : Grammar) : Parser Node := do
  match ← currentKind with
  | .keyword .ifK => conditional grammar
  | .keyword .whileK => whileLoop grammar
  | .keyword .doK => doBlock grammar
  | .keyword .forK => forLoop grammar
  | .keyword .repeatK => repeatLoop grammar
  | .keyword .functionK => functionStatement grammar
  | .keyword .localK => localStatement grammar
  | .symbol .colonColon => labelStatement
  | .keyword .breakK => breakStatement
  | .keyword .gotoK => gotoStatement
  | _ => expressionStatement grammar

/-- One statement of a block, and whether more may follow. Semicolons between statements are passed
over. -/
def blockItem (grammar : Grammar) : Parser (List Node × Bool) := do
  let kind ← currentKind
  if endsBlock kind then
    return ([], false)
  else if kind = .symbol .semicolon then
    let _ ← advance
    return ([], true)
  else if kind = .keyword .returnK then
    let statement ← returnStatement grammar
    let token ← current
    unless endsBlock token.kind do
      fault (.expected (.keyword .endK) token)
    return ([statement], false)
  else
    return ([← statement grammar], true)

/-- Statements up to the end of a block. -/
def block (grammar : Grammar) : Parser (List Node) :=
  many (blockItem grammar)

end LuaFormatter.Parser
