/-!
# Kinds of token

The words and marks of Lua: `Symbol` for punctuators and operators, `Keyword` for reserved words,
and `Kind` for these and for the tokens whose text varies. A symbol and a keyword are spelled in one
way only, which is what `Kind.isFixed` asks for.
-/

namespace LuaFormatter

/-- Brackets, punctuators and the operators that are not words. -/
inductive Symbol where
  | leftParen | rightParen | leftCurly | rightCurly | leftSquare | rightSquare
  | comma | semicolon | colon | colonColon | dot | dotDot | dotDotDot | equal
  | plus | minus | star | slash | slashSlash | percent | caret | hash
  | ampersand | tilde | pipe | lessLess | greaterGreater
  | equalEqual | tildeEqual | less | lessEqual | greater | greaterEqual
deriving DecidableEq

namespace Symbol

/-- How a symbol is written. -/
def text : Symbol → String
  | leftParen => "("
  | rightParen => ")"
  | leftCurly => "\x7b"
  | rightCurly => "\x7d"
  | leftSquare => "["
  | rightSquare => "]"
  | comma => ","
  | semicolon => ";"
  | colon => ":"
  | colonColon => "::"
  | dot => "."
  | dotDot => ".."
  | dotDotDot => "..."
  | equal => "="
  | plus => "+"
  | minus => "-"
  | star => "*"
  | slash => "/"
  | slashSlash => "//"
  | percent => "%"
  | caret => "^"
  | hash => "#"
  | ampersand => "&"
  | tilde => "~"
  | pipe => "|"
  | lessLess => "<<"
  | greaterGreater => ">>"
  | equalEqual => "=="
  | tildeEqual => "~="
  | less => "<"
  | lessEqual => "<="
  | greater => ">"
  | greaterEqual => ">="

/-- All symbols, a longer one before every symbol that it starts with. -/
def all : List Symbol :=
  [dotDotDot, colonColon, dotDot, slashSlash, lessLess, greaterGreater, equalEqual, tildeEqual,
    lessEqual, greaterEqual, leftParen, rightParen, leftCurly, rightCurly, leftSquare, rightSquare,
    comma, semicolon, colon, dot, equal, plus, minus, star, slash, percent, caret, hash, ampersand,
    tilde, pipe, less, greater]

/-- Every symbol is in the list. Counterpart of `Symbol.all`. -/
theorem mem_all (symbol : Symbol) : symbol ∈ all := by
  cases symbol <;> decide

/-- The longest symbol that a text starts with. -/
def read? (source : List Char) : Option Symbol :=
  all.find? fun symbol => symbol.text.toList.isPrefixOf source

end Symbol

/-- Reserved words. -/
inductive Keyword where
  | andK | breakK | doK | elseK | elseifK | endK | falseK | forK | functionK | gotoK | ifK | inK
  | localK | nilK | notK | orK | repeatK | returnK | thenK | trueK | untilK | whileK
deriving DecidableEq

namespace Keyword

/-- How a keyword is written. -/
def text : Keyword → String
  | andK => "and"
  | breakK => "break"
  | doK => "do"
  | elseK => "else"
  | elseifK => "elseif"
  | endK => "end"
  | falseK => "false"
  | forK => "for"
  | functionK => "function"
  | gotoK => "goto"
  | ifK => "if"
  | inK => "in"
  | localK => "local"
  | nilK => "nil"
  | notK => "not"
  | orK => "or"
  | repeatK => "repeat"
  | returnK => "return"
  | thenK => "then"
  | trueK => "true"
  | untilK => "until"
  | whileK => "while"

/-- All keywords. -/
def all : List Keyword :=
  [andK, breakK, doK, elseK, elseifK, endK, falseK, forK, functionK, gotoK, ifK, inK, localK, nilK,
    notK, orK, repeatK, returnK, thenK, trueK, untilK, whileK]

/-- The keyword with a text, if it is one. -/
def ofText? (text : String) : Option Keyword :=
  all.find? (·.text == text)

/-- Reading a keyword's text gives the keyword back. Counterpart of `Keyword.ofText?`. -/
theorem ofText?_text (keyword : Keyword) : ofText? keyword.text = some keyword := by
  cases keyword <;> decide +kernel

end Keyword

/-- What a token is. -/
inductive Kind where
  | symbol (mark : Symbol)
  | keyword (word : Keyword)
  /-- A name. -/
  | identifier
  /-- A decimal or hexadecimal number, also a malformed one. -/
  | number
  /-- A string between single or double quotes. -/
  | string
  /-- A string between long brackets. -/
  | longString
  /-- A comment that runs to the end of its line. -/
  | comment
  /-- A comment between long brackets. -/
  | blockComment
  /-- The line at the very start of a file that names its interpreter. -/
  | shebang
  /-- What comes after the last token. -/
  | endOfFile
  /-- A character that starts no token. -/
  | unknown
  /-- A quoted string without its closing quote. -/
  | unterminatedString
  /-- A long bracket string without its closing bracket. -/
  | unterminatedLongString
  /-- A block comment without its closing bracket. -/
  | unterminatedComment
deriving DecidableEq

namespace Kind

/-- The name of a kind in messages. -/
def describe : Kind → String
  | symbol mark => mark.text
  | keyword word => word.text
  | identifier => "Identifier"
  | number => "Number"
  | string => "String"
  | longString => "Long String"
  | comment => "Comment"
  | blockComment => "Block Comment"
  | shebang => "Shebang"
  | endOfFile => "End of File"
  | unknown => "Unknown Character"
  | unterminatedString => "Unterminated String"
  | unterminatedLongString => "Unterminated Long String"
  | unterminatedComment => "Unterminated Comment"

/-- The text of the token follows from its kind. -/
def isFixed : Kind → Bool
  | symbol _ | keyword _ => true
  | _ => false

/-- Comments are tokens, but no part of the tree. -/
def isComment : Kind → Bool
  | comment | blockComment | unterminatedComment => true
  | _ => false

end Kind

end LuaFormatter
