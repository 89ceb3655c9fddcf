import LuaFormatter.Source.Span
import LuaFormatter.Token.Kind

/-!
# Scanning tokens

`tokenise` cuts a source into tokens and skips the blanks between them. Each class of token has a
reader that says how many characters the token takes after its first one; `nextToken` picks the
reader by what the text starts with. A token always takes its first character, so the scan ends,
and every text can be scanned: a character that starts no token is a token of its own kind.
-/

namespace LuaFormatter

/-- A token: its kind, the byte offset that it starts at, and its text. -/
structure Token where
  kind : Kind
  start : Nat
  lexeme : List Char
deriving DecidableEq

namespace Token

/-- The number of bytes of the token. -/
def length (token : Token) : Nat :=
  byteLength token.lexeme

/-- The offset after the token. -/
def stop (token : Token) : Nat :=
  token.start + token.length

/-- The span of the token. -/
def span (token : Token) : Span :=
  ⟨token.start, token.stop⟩

end Token

namespace Scan

/-- The characters that may stand between two tokens. -/
def isSkipped (c : Char) : Bool :=
  c == ' ' || c == '\t' || c == '\n' || c == '\r' || c == '\x0b' || c == '\x0c'

/-- The characters that a name goes on with. -/
def isWordChar (c : Char) : Bool :=
  c.isAlphanum || c == '_'

/-- The characters that a name starts with. -/
def isWordStart (c : Char) : Bool :=
  c.isAlpha || c == '_'

/-- A hexadecimal digit. -/
def isHexDigit (c : Char) : Bool :=
  c.isDigit || ('a' ≤ c && c ≤ 'f') || ('A' ≤ c && c ≤ 'F')

/-- The number of characters on the rest of the line, without the carriage return of a line
break. -/
def lineLength (rest : List Char) : Nat :=
  let line := rest.takeWhile (· != '\n')
  if line.getLast? == some '\r' then line.length - 1 else line.length

/-- The level of the long bracket that a text starts with: the number of its equals signs. -/
def bracketLevel? : List Char → Option Nat
  | '[' :: rest =>
    let level := (rest.takeWhile (· == '=')).length
    if rest[level]? == some '[' then some level else none
  | _ => none

/-- A text starts with the closing long bracket of a level. -/
def closesBracket (level : Nat) (source : List Char) : Bool :=
  (']' :: (List.replicate level '=' ++ [']'])).isPrefixOf source

/-- The number of characters up to the end of the closing long bracket of a level. -/
def bracketLength? (level : Nat) : List Char → Option Nat
  | [] => none
  | c :: rest =>
    if closesBracket level (c :: rest) then some (level + 2)
    else (bracketLength? level rest).map (· + 1)

/-- The same number (`closingLength?_eq`), found without looking at a character twice: a bracket
that closes nothing is passed over together with the equals signs after it. -/
def closingLength? (level : Nat) : List Char → Option Nat
  | [] => none
  | c :: rest =>
    if c = ']' then
      let equals := (rest.takeWhile (· == '=')).length
      if equals = level ∧ rest[level]? = some ']' then some (level + 2)
      else (closingLength? level (rest.drop equals)).map (· + (equals + 1))
    else (closingLength? level rest).map (· + 1)
termination_by source => source.length

/-- The number of characters of a quoted string after its opening quote, and whether it has a
closing one. A backslash takes the character after it along, and a line feed ends the string. -/
def quotedLength (quote : Char) : List Char → Bool × Nat
  | [] => (false, 0)
  | '\\' :: [] => (false, 1)
  | '\\' :: _ :: rest =>
    let (closed, length) := quotedLength quote rest
    (closed, length + 2)
  | c :: rest =>
    if c = '\n' then (false, 0)
    else if c = quote then (true, 1)
    else
      let (closed, length) := quotedLength quote rest
      (closed, length + 1)

/-- The text after a fraction, if there is one. Two dots are no fraction but a concatenation. -/
def afterFraction (isDigit : Char → Bool) : List Char → List Char
  | '.' :: rest => if rest.head? == some '.' then '.' :: rest else rest.dropWhile isDigit
  | source => source

/-- The text after an exponent, if there is one. -/
def afterExponent (isMark : Char → Bool) : List Char → List Char
  | [] => []
  | c :: rest =>
    if isMark c then
      match rest with
      | '+' :: digits | '-' :: digits => digits.dropWhile Char.isDigit
      | digits => digits.dropWhile Char.isDigit
    else
      c :: rest

/-- The text after a number. The word characters that follow it belong to it, so that a malformed
number is one token. -/
def afterNumber (source : List Char) : List Char :=
  let rest :=
    match source with
    | '0' :: 'x' :: rest | '0' :: 'X' :: rest =>
      afterExponent (fun c => c == 'p' || c == 'P')
        (afterFraction isHexDigit (rest.dropWhile isHexDigit))
    | rest =>
      afterExponent (fun c => c == 'e' || c == 'E')
        (afterFraction Char.isDigit (rest.dropWhile Char.isDigit))
  rest.dropWhile isWordChar

/-- A comment: the text after its first dash. -/
def comment (rest : List Char) : Kind × Nat :=
  match bracketLevel? rest.tail with
  | some level =>
    match closingLength? level (rest.drop (level + 3)) with
    | some length => (.blockComment, level + 3 + length)
    | none => (.unterminatedComment, rest.length)
  | none => (.comment, lineLength rest)

/-- A long string of a level: the text after its first bracket. -/
def longString (level : Nat) (rest : List Char) : Kind × Nat :=
  match closingLength? level (rest.drop (level + 1)) with
  | some length => (.longString, level + 1 + length)
  | none => (.unterminatedLongString, rest.length)

/-- A quoted string: the text after its opening quote. -/
def quoted (quote : Char) (rest : List Char) : Kind × Nat :=
  let (closed, length) := quotedLength quote rest
  (if closed then .string else .unterminatedString, length)

/-- A name or a keyword. -/
def word (first : Char) (rest : List Char) : Kind × Nat :=
  let tail := rest.takeWhile isWordChar
  match Keyword.ofText? (String.ofList (first :: tail)) with
  | some keyword => (.keyword keyword, tail.length)
  | none => (.identifier, tail.length)

/-- The kind of the token that a text starts with, and the number of its characters after the first.
Only the very start of a source can hold a shebang. -/
def nextToken (atStart : Bool) (first : Char) (rest : List Char) : Kind × Nat :=
  if first = '#' ∧ atStart ∧ rest.head? = some '!' then (.shebang, lineLength rest)
  else if first = '-' ∧ rest.head? = some '-' then comment rest
  else if first = '"' ∨ first = '\x27' then quoted first rest
  else
    match bracketLevel? (first :: rest) with
    | some level => longString level rest
    | none =>
      if first.isDigit ∨ (first = '.' ∧ rest.head?.any Char.isDigit) then
        (.number, rest.length - (afterNumber (first :: rest)).length)
      else if isWordStart first then word first rest
      else
        match Symbol.read? (first :: rest) with
        | some symbol => (.symbol symbol, symbol.text.length - 1)
        | none => (.unknown, 0)

/-- The tokens of a text that starts at an offset of the source. -/
def tokensFrom (offset : Nat) : List Char → List Token
  | [] => []
  | c :: rest =>
    if isSkipped c then tokensFrom (offset + c.utf8Size) rest
    else
      let (kind, length) := nextToken (offset == 0) c rest
      let lexeme := c :: rest.take length
      ⟨kind, offset, lexeme⟩ :: tokensFrom (offset + byteLength lexeme) (rest.drop length)
termination_by source => source.length

end Scan

/-- The tokens of a source in order, comments included. -/
def tokenise (source : List Char) : List Token :=
  Scan.tokensFrom 0 source

/-- A text that can be used as a name: it has the form of one and is no keyword. -/
def isName (text : String) : Bool :=
  match text.toList with
  | [] => false
  | c :: rest => Scan.isWordStart c && rest.all Scan.isWordChar && (Keyword.ofText? text).isNone

end LuaFormatter
