import LuaFormatter.Token.Scan

/-!
# Scanning bytes

The scan as it steps through the bytes of a source. The readers are those of characters, with each
byte read as the character of its number (`glyph`): a byte from 128 on is none of the characters
that they ask for, and a backslash takes along a single byte. Only the length of a character that
starts no token is told by its first byte (`unknownLength`).

A token is known here by its place alone. That the scan finds the tokens of `tokenise`, each of them
made of whole characters, is `scan_utf8`.
-/

namespace LuaFormatter

/-- What the scan of bytes knows of a token: its kind, and the bytes that it takes. -/
structure Extent where
  kind : Kind
  start : Nat
  length : Nat
deriving DecidableEq

/-- The place of a token. -/
def Token.extent (token : Token) : Extent :=
  ⟨token.kind, token.start, token.length⟩

namespace ByteScan

/-- A byte, read as the character of its number. -/
def glyph (byte : UInt8) : Char :=
  Char.ofNat byte.toNat

/-- The number of bytes of a character, as its first byte tells it. -/
def unknownLength (byte : UInt8) : Nat :=
  if byte &&& 0xF0 = 0xF0 then 4
  else if byte &&& 0xE0 = 0xE0 then 3
  else if byte &&& 0xC0 = 0xC0 then 2
  else 1

/-- The kind of the token that bytes start with, and the number of its bytes. -/
def nextToken (atStart : Bool) (first : UInt8) (rest : List UInt8) : Kind × Nat :=
  let (kind, length) := Scan.nextToken atStart (glyph first) (rest.map glyph)
  (kind, if kind = .unknown then unknownLength first else length + 1)

/-- The tokens of bytes that start at an offset of the source, cut off at its end. -/
def tokensFrom (offset : Nat) : List UInt8 → List Extent
  | [] => []
  | byte :: rest =>
    if Scan.isSkipped (glyph byte) then tokensFrom (offset + 1) rest
    else
      let (kind, length) := nextToken (offset == 0) byte rest
      let length := min length (rest.length + 1)
      ⟨kind, offset, length⟩ :: tokensFrom (offset + length) (rest.drop (length - 1))
termination_by bytes => bytes.length

/-- The places of the tokens in the bytes of a source. -/
def scan (bytes : List UInt8) : List Extent :=
  tokensFrom 0 bytes

end ByteScan

end LuaFormatter
