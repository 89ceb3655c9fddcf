import LuaFormatter.Format.Block

/-!
# Arguments of a call

Arguments are written on one line, or on a line each. A function or a table at the end of the list,
or a function before one other argument, may be hugged: it breaks while the others stay on the line
of the parentheses. Then there are three forms of the list, the most expanded last: all on one
line, only the hugged argument broken, and a line for each.
-/

namespace LuaFormatter

/-- The end of a list of arguments at which one is hugged. -/
inductive Hug where
  | first | last
deriving DecidableEq

/-- The argument can be hugged: it is a function or a table. -/
def Node.canHug (argument : Node) : Bool :=
  argument.shape.isFunction || argument.shape.isTable

/-- The first of two arguments is a function, and the second nothing that could be hugged. -/
def hugsFirst : List Node → Bool
  | [first, second] => first.shape.isFunction && !second.canHug
  | _ => false

/-- The last argument can be hugged, and the one before it is not of the same kind. -/
def hugsLast (arguments : List Node) : Bool :=
  match arguments.reverse with
  | [] => false
  | [last] => last.canHug
  | last :: previous :: _ =>
    (last.shape.isFunction && !previous.shape.isFunction) ||
      (last.shape.isTable && !previous.shape.isTable)

/-- The end of a list of arguments at which one is hugged, if it is. -/
def hug? (arguments : List Node) : Option Hug :=
  if hugsFirst arguments then some .first
  else if hugsLast arguments then some .last
  else none

/-- The argument at an index of a list of a length is the hugged one. -/
def Hug.isAt (hug : Hug) (length index : Nat) : Bool :=
  match hug with
  | first => index = 0
  | last => index + 1 = length

/-- An argument: its node, what is written for it, and what is written if it is hugged. -/
structure Argument extends Printed where
  hugged : Option Doc

/-- The arguments of a list with what is written for them; the hugged one is also written hugged. -/
def printArguments (nodes : List Node)
    (print : (isHugged : Bool) → Nat → (node : Node) → node ∈ nodes → Doc) : List Argument :=
  let hug := hug? nodes
  nodes.attach.zipIdx.map fun (⟨node, member⟩, index) =>
    let isHugged := hug.any (·.isAt nodes.length index)
    { node, doc := print false index node member
      hugged := if isHugged then some (print true index node member) else none }

namespace Context

variable (context : Context)

/-- A blank line follows the argument. -/
def endsParagraph (argument : Argument) : Bool :=
  Gap.isNextLineBlank context.source argument.node.span.stop

/-- Arguments with the commas and line breaks between them. A blank line is kept. -/
def commaSeparated : List Argument → List Doc
  | [] => []
  | [last] => [last.doc]
  | argument :: rest =>
    (if context.endsParagraph argument then
      Doc.cat [argument.doc, .text ",", .hardLine, .hardLine]
    else
      Doc.cat [argument.doc, Doc.commaLine]) :: commaSeparated rest

/-- Parentheses around arguments, broken or not as a whole. -/
def parenthesised (breaks : Bool) (arguments : List Doc) : Doc :=
  Doc.groupedIf breaks
    [.text "(", Doc.indented [.softLine, .concat arguments], .softLine, .text ")"]

/-- What is written for the first argument if it is hugged, with the comma after it. -/
def huggedFirst (argument : Argument) (hugged : Doc) : Doc :=
  let gap : Doc :=
    if context.endsParagraph argument then Doc.cat [.hardLine, .hardLine] else .line
  Doc.cat [hugged, .text ",", gap]

end Context

/-- The three forms of a list of arguments with a hugged one between others. -/
def huggedArguments (breaks : Bool) (all before after : List Doc) (hugged : Doc) (hug : Hug) :
    Doc :=
  let anyBreaks := all.any Doc.willBreak
  let arguments : Doc := .concat (before ++ hugged :: after)
  let flat := Doc.cat
    [.ifBreak (Doc.indented [.text "(", .softLine, arguments]) (Doc.cat [.text "(", arguments]),
      if anyBreaks then .softLine else .empty,
      .text ")"]
  let group := Doc.groupedIf true [hugged]
  let expanded := match hug with
    | .first => Doc.cat [.text "(", group, .concat after, .text ")"]
    | .last => Doc.cat [.text "(", .concat before, group, .text ")"]
  let broken := Context.parenthesised true all
  Doc.cat
    [if anyBreaks then .breakParent else .empty,
      .alternatives ((before ++ after).any Doc.willBreak || breaks) [flat, expanded, broken]]

namespace Context

variable (context : Context)

/-- The arguments of a call in their parentheses. -/
def arguments (node : Node) (arguments : List Argument) : Doc :=
  if arguments.isEmpty then context.emptyParens node
  else
    let docs := context.commaSeparated arguments
    let breaks := arguments.dropLast.any context.endsParagraph
    match hug? (arguments.map (·.node)), arguments.findSome? (·.hugged), arguments.head? with
    | some .first, some hugged, some first =>
      huggedArguments breaks docs [] docs.tail (context.huggedFirst first hugged) .first
    | some .last, some hugged, _ => huggedArguments breaks docs docs.dropLast [] hugged .last
    | _, _, _ => parenthesised breaks docs

end Context

end LuaFormatter
