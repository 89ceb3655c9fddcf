import LuaFormatter.Style

/-!
# Quoting strings

A string literal is written with the preferred quote, unless the other one occurs less often in it.
An escaped quote of the other kind loses its backslash, a bare one of the enclosing kind gets one,
and all other escapes are kept.
-/

namespace LuaFormatter

/-- The quote that a string with some content is enclosed in. -/
def QuoteStyle.enclosing (style : QuoteStyle) (content : List Char) : Char :=
  if content.count style.alternate < content.count style.preferred then style.alternate
  else style.preferred

/-- The quote that a string with some content is not enclosed in. -/
def QuoteStyle.inner (style : QuoteStyle) (content : List Char) : Char :=
  if content.count style.alternate < content.count style.preferred then style.preferred
  else style.alternate

/-- The content of a string for an enclosing quote and the other one. -/
def escapeQuotes (enclosing inner : Char) : List Char → List Char
  | [] => []
  | ['\\'] => ['\\']
  | '\\' :: c :: rest =>
    if c = inner then c :: escapeQuotes enclosing inner rest
    else '\\' :: c :: escapeQuotes enclosing inner rest
  | c :: rest =>
    if c = enclosing then '\\' :: c :: escapeQuotes enclosing inner rest
    else c :: escapeQuotes enclosing inner rest

/-- The content of a literal: the text without its first and last character. -/
def literalContent (raw : List Char) : List Char :=
  raw.tail.dropLast

/-- A string literal with the quotes of a style. A text too short for two quotes is left alone. -/
def requote (style : QuoteStyle) (raw : List Char) : List Char :=
  if raw.length < 2 then raw
  else
    let content := literalContent raw
    let enclosing := style.enclosing content
    enclosing :: (escapeQuotes enclosing (style.inner content) content ++ [enclosing])

end LuaFormatter
