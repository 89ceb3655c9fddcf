import LuaFormatter.Format.Block
import LuaFormatter.Format.Quote

/-!
# Tables

A table with keys has a line for every field. A list of values, or a single field that is no table,
may stay on one line; it is broken if one of the fields is.
-/

namespace LuaFormatter

/-- A table with these fields may stay on one line. -/
def mayStayFlat (fields : List Node) : Bool :=
  fields.all (·.shape.isValueField) ||
    match fields with
    | [field] => !field.shape.fieldValue?.any (·.shape.isTable)
    | _ => false

/-- Brackets around a key or an index. A long string has a space to its brackets, which would become
part of them. -/
def bracketed (key : Printed) : List Doc :=
  match key.node.shape with
  | .literal .longString _ => [.text "[ ", key.doc, .text " ]"]
  | _ => [.text "[", key.doc, .text "]"]

namespace Context

variable (context : Context)

/-- A table with fields. -/
def table (node : Node) (fields : List Printed) : Doc :=
  if fields.isEmpty then
    match context.danglingBlock? node with
    | some comments => Doc.cat [.text "\x7b", comments, .hardLine, .text "\x7d"]
    | none => .text "\x7b\x7d"
  else
    let docs := fields.map Printed.doc
    let trailingComma : Doc :=
      if context.style.trailingComma = .never then .empty else .text ","
    let broken := Doc.cat
      [.text "\x7b",
        Doc.indented
          [.hardLine, Doc.join (Doc.cat [.text ",", .hardLine]) docs, trailingComma],
        .hardLine, .text "\x7d"]
    if mayStayFlat (fields.map Printed.node) then
      let space : Doc := if context.style.bracketSpacing then .text " " else .empty
      let flat := Doc.cat
        [.text "\x7b", space, Doc.join Doc.commaLine docs, space, .text "\x7d"]
      .alternatives (docs.any Doc.willBreak) [flat, broken]
    else
      broken

/-- A field with a computed key. A quoted key that is a name is written as one. -/
def keyField (key value : Printed) : Doc :=
  let name? : Option String :=
    match key.node.shape with
    | .literal .string raw =>
      let name := String.ofList (literalContent raw.toList)
      if !key.node.inParens && isName name then some name else none
    | _ => none
  match name? with
  | some name => Doc.cat [context.withComments key.node (.text name), .text " = ", value.doc]
  | none => Doc.cat (bracketed key ++ [.text " = ", value.doc])

end Context

end LuaFormatter
