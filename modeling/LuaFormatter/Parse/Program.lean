import LuaFormatter.Parse.Statement

/-!
# Parsing a source

`Grammar.level` ties the rules together: the grammar of a level nests the one below, and the lowest
takes everything for a missing expression. A source with `n` tokens is read at level `n + 1`, which
is deep enough, since each step down has read a token.

`parse` splits the tokens into code, comments and the shebang, and reads the code. It takes every
text: what is wrong with it is listed in `faults`, block comments without an end first.
-/

namespace LuaFormatter

/-- A comment: whether it is between long brackets, where it is, and its text. -/
structure Comment where
  isBlock : Bool
  span : Span
  text : List Char
deriving DecidableEq

/-- A source that has been read. -/
structure Program where
  source : List Char
  /-- The tokens of the code, without comments and the shebang. -/
  tokens : List Token
  comments : List Comment
  shebang : Option Token
  /-- The whole file. -/
  root : Node
  /-- The number of nodes that were made. -/
  nodeCount : Nat
  faults : List Fault

/-- The source is a Lua program. -/
def Program.isValid (program : Program) : Bool :=
  program.faults.isEmpty

namespace Grammar

/-- The grammar that reads nothing: every expression is missing. -/
def stuck : Grammar where
  expression _ := do
    let token ← Parser.current
    Parser.fault (.expectedExpression token)
    Parser.makeInvalid token
  block := return []

/-- The grammar that nests another one. -/
def above (below : Grammar) : Grammar where
  expression := Parser.expression below
  block := Parser.block below

/-- The grammar for a number of nested rules. -/
def level : Nat → Grammar
  | 0 => stuck
  | depth + 1 => above (level depth)

end Grammar

/-- The statements of a whole file. A keyword that closes no block is a fault, and is passed
over. -/
def Parser.chunk (grammar : Grammar) : Parser (List Node) :=
  many do
    let body ← grammar.block
    if (← currentKind) = .endOfFile then
      return (body, false)
    else
      let token ← advance
      fault (.unexpectedToken token)
      return (body, true)

namespace Program

/-- The comment that a token is, if it is one. -/
def commentOf? (token : Token) : Option Comment :=
  if token.kind.isComment then
    some ⟨token.kind ≠ .comment, token.span, token.lexeme⟩
  else
    none

/-- The token is part of the code. -/
def isCode (token : Token) : Bool :=
  !token.kind.isComment && token.kind ≠ .shebang

/-- Where the reading of a source starts. The node for the whole file counts as made. -/
def initialState (source : List Char) (tokens : List Token) : ParseState where
  rest := tokens
  previousStop := 0
  sourceLength := byteLength source
  made := 1
  faults := []

end Program

/-- Read a source. -/
def parse (source : List Char) : Program :=
  let all := tokenise source
  let tokens := all.filter Program.isCode
  let unclosed := all.filter (·.kind = .unterminatedComment)
  let grammar := Grammar.level (tokens.length + 1)
  let (body, state) := Parser.chunk grammar (Program.initialState source tokens)
  { source, tokens
    comments := all.filterMap Program.commentOf?
    shebang := all.find? (·.kind = .shebang)
    root := ⟨0, .chunk body, ⟨0, byteLength source⟩, false⟩
    nodeCount := state.made
    faults := unclosed.map (.unterminatedComment ·.span) ++ state.faults.reverse }

end LuaFormatter
