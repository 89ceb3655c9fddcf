import LuaFormatter.Token.Scan

/-!
# Faults of a source

A fault is a reason why a source is no Lua program. It knows where it is, and its wording is in one
place: a title, and a message that says what was found.
-/

namespace LuaFormatter

/-- What can be wrong with a source. -/
inductive Fault where
  /-- A token of some kind was needed. -/
  | expected (kind : Kind) (received : Token)
  /-- No expression starts with the token. -/
  | expectedExpression (received : Token)
  /-- A method name has to be followed by arguments. -/
  | expectedArguments (received : Token)
  /-- An expression that is no call does not make a statement. -/
  | expectedStatement (place : Span)
  /-- Only variables, fields and indexed values can be assigned to. -/
  | invalidTarget (place : Span)
  /-- The token closes a block that is not open. -/
  | unexpectedToken (token : Token)
  /-- The character starts no token. -/
  | unknownCharacter (token : Token)
  /-- A string without its end. -/
  | unterminatedString (token : Token)
  /-- A block comment without its end. -/
  | unterminatedComment (place : Span)
deriving DecidableEq

namespace Fault

/-- The title of a fault. -/
def title : Fault → String
  | expected kind _ => "Expected " ++ kind.describe
  | expectedExpression _ => "Expected Expression"
  | expectedArguments _ => "Expected Arguments"
  | expectedStatement _ => "Expected Statement"
  | invalidTarget _ => "Invalid Assignment Target"
  | unexpectedToken _ => "Unexpected Token"
  | unknownCharacter _ => "Unknown Character"
  | unterminatedString _ => "Unterminated String"
  | unterminatedComment _ => "Unterminated Comment"

/-- What a fault says. -/
def message : Fault → String
  | expected kind received =>
    "expected " ++ kind.describe ++ " but got " ++ received.kind.describe
  | expectedExpression received => "expected expression but got " ++ received.kind.describe
  | expectedArguments received =>
    "expected arguments for method call but got " ++ received.kind.describe
  | expectedStatement _ => "only function calls can be used as statements"
  | invalidTarget _ => "can only assign to a variable, a field, or an index"
  | unexpectedToken token => "unexpected " ++ token.kind.describe
  | unknownCharacter _ => "got unknown character"
  | unterminatedString _ => "missing closing quote for string"
  | unterminatedComment _ => "missing closing brackets for block comment"

/-- The title and, on the next line, the message. -/
def fullMessage (fault : Fault) : String :=
  fault.title ++ "\n" ++ fault.message

/-- Where the fault is. -/
def span : Fault → Span
  | expected _ token | expectedExpression token | expectedArguments token | unexpectedToken token
  | unknownCharacter token | unterminatedString token => token.span
  | expectedStatement place | invalidTarget place | unterminatedComment place => place

end Fault

end LuaFormatter
