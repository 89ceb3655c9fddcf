import LuaFormatter.Parse.Fault
import LuaFormatter.Tree.Node

/-!
# Reading tokens

A `Parser` reads tokens from the front of a list, makes nodes and notes faults; it never fails. When
a token is missing it notes a fault and goes on as if the token had been there. All loops of the
grammar are one, `extend`: it goes on only as long as every round reads a token, so it ends.
-/

namespace LuaFormatter

/-- How far the reading has come. -/
structure ParseState where
  /-- The tokens still to be read, without comments. -/
  rest : List Token
  /-- The offset after the last token that was read. -/
  previousStop : Nat
  /-- The number of bytes of the source. -/
  sourceLength : Nat
  /-- The number of nodes made so far. -/
  made : Nat
  /-- The faults noted so far, the newest first. -/
  faults : List Fault

/-- A reader of tokens. -/
abbrev Parser := StateM ParseState

namespace Parser

/-- The token to be read next. Past the last one there is an empty token at the end of the
source. -/
def current : Parser Token := do
  let state ← get
  return state.rest.head?.getD ⟨.endOfFile, state.sourceLength, []⟩

/-- The kind of the token to be read next. -/
def currentKind : Parser Kind :=
  return (← current).kind

/-- The kind of the token after the next one. -/
def followingKind : Parser Kind :=
  return ((← get).rest.tail.head?.map Token.kind).getD .endOfFile

/-- Where the token to be read next starts. -/
def start : Parser Nat :=
  return (← current).start

/-- Read the next token. At the end of the source nothing is read. -/
def advance : Parser Token := do
  let token ← current
  modify fun state => match state.rest with
    | [] => state
    | _ :: rest => { state with rest, previousStop := token.stop }
  return token

/-- Note a fault. -/
def fault (fault : Fault) : Parser Unit :=
  modify fun state => { state with faults := fault :: state.faults }

/-- Read a token of a kind if it comes next, and say whether it did. -/
def accept (kind : Kind) : Parser Bool := do
  if (← currentKind) = kind then
    let _ ← advance
    return true
  else
    return false

/-- Read a token of a kind; it is a fault if another one comes next. -/
def expect (kind : Kind) : Parser Unit := do
  unless ← accept kind do
    fault (.expected kind (← current))

/-- Make a node with a span. -/
def makeAt (shape : Shape Node) (span : Span) : Parser Node := do
  let number := (← get).made
  modify fun state => { state with made := number + 1 }
  return ⟨number, shape, span, false⟩

/-- Make a node that reaches from an offset to the last token that was read. -/
def make (shape : Shape Node) (start : Nat) : Parser Node := do
  makeAt shape ⟨start, max (← get).previousStop start⟩

/-- Make a node for a token that could not be used. -/
def makeInvalid (token : Token) : Parser Node :=
  makeAt .invalid token.span

/-- Improve a value round by round. A round gives the new value and says whether another one is to
follow; the loop ends at the latest when a round reads no token. -/
def extend {α : Type} (round : α → Parser (α × Bool)) (value : α) : Parser α := fun state =>
  let ((next, goesOn), after) := round value state
  if goesOn ∧ after.rest.length < state.rest.length then extend round next after
  else (next, after)
termination_by state => state.rest.length

/-- Collect the items of all rounds. -/
def many {α : Type} (round : Parser (List α × Bool)) : Parser (List α) :=
  extend (fun items => return ((← round).map (items ++ ·) id)) []

/-- Items with commas between them, at least one. -/
def commaSeparated {α : Type} (item : Parser α) : Parser (List α) :=
  many do
    let value ← item
    return ([value], ← accept (.symbol .comma))

end Parser

end LuaFormatter
