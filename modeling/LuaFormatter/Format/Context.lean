import LuaFormatter.Comment.Attachment
import LuaFormatter.Doc.Basic
import LuaFormatter.Source.Blank
import LuaFormatter.Style

/-!
# Writing comments

What the formatter knows about the program besides the node at hand, and the documents of comments.
Leading and trailing comments go around what is written for their owner. A line comment after its
owner is put off until the line ends, and what stands around it breaks; a comment that had a line of
its own gets one again. Dangling comments are written inside their owner, those between empty
parentheses apart from the others.
-/

namespace LuaFormatter

/-- What the formatter knows besides the node at hand. -/
structure Context where
  style : Style
  /-- The source as bytes. -/
  source : List UInt8
  tokens : List Token
  shebang : Option Token
  attachments : List Attachment

namespace Context

/-- The context of a program in a style. -/
def ofProgram (program : Program) (style : Style) : Context where
  style
  source := utf8 program.source
  tokens := program.tokens
  shebang := program.shebang
  attachments := LuaFormatter.attachments program

variable (context : Context)

/-- The comments that a node owns, in the order of the source. -/
def owned (node : Node) : List Attachment :=
  context.attachments.filter (·.owner.number = node.number)

/-- The node owns a comment. -/
def hasComments (node : Node) : Bool :=
  !(context.owned node).isEmpty

/-- The node owns a comment inside it. -/
def hasDangling (node : Node) : Bool :=
  (context.owned node).any (·.placement = .dangling)

/-- The text of a comment. A line comment loses the blanks at its end. -/
def commentText (comment : Comment) : Doc :=
  if comment.isBlock then Doc.verbatim comment.text
  else .note (String.ofList (trimEnd comment.text))

/-- A comment before its owner, with the blank line after it if there is one. -/
def leadingComment (comment : Comment) : List Doc :=
  let separator : Doc :=
    if comment.isBlock && !Gap.hasBreakAfter context.source comment.span.stop then .text " "
    else .hardLine
  let blankLine : List Doc :=
    if Gap.isFollowedByBlankLine context.source comment.span.stop then [.hardLine] else []
  Doc.cat [commentText comment, separator] :: blankLine

/-- A comment after its owner. -/
def trailingComment (comment : Comment) : Doc :=
  if Gap.hasBreakBefore context.source comment.span.start then
    let blankLine : Doc :=
      if Gap.isPreviousLineBlank context.source comment.span.start then .hardLine else .empty
    .suffix (Doc.cat [.hardLine, blankLine, commentText comment])
  else if comment.isBlock then
    Doc.cat [.text " ", commentText comment]
  else
    Doc.cat [.suffix (Doc.cat [.text " ", commentText comment]), .breakParent]

/-- What is written for a node, with its leading and trailing comments around it. -/
def withComments (node : Node) (printed : Doc) : Doc :=
  let owned := context.owned node
  let leading := (owned.filter (·.placement = .leading)).map Attachment.comment
  let trailing := (owned.filter (·.placement = .trailing)).map Attachment.comment
  if leading.isEmpty && trailing.isEmpty then printed
  else
    .concat (leading.flatMap context.leadingComment ++
      printed :: trailing.map context.trailingComment)

/-- The comments inside a node, those between empty parentheses or the others. -/
def danglingComments (node : Node) (betweenParens : Bool) : List Comment :=
  ((context.owned node).filter (·.placement = .dangling)).map Attachment.comment
    |>.filter fun comment => isBetweenParens context.tokens comment.span = betweenParens

/-- The comments inside a node one below the other, `none` if there are none. -/
def danglingLines? (node : Node) : Option Doc :=
  match context.danglingComments node false with
  | [] => none
  | comments => some (Doc.join .hardLine (comments.map commentText))

/-- The comments inside a node on indented lines, `none` if there are none. -/
def danglingBlock? (node : Node) : Option Doc :=
  (context.danglingLines? node).map fun lines => Doc.indented [.hardLine, lines]

/-- An empty pair of parentheses of a node, with the comments between them. -/
def emptyParens (node : Node) : Doc :=
  match context.danglingComments node true with
  | [] => .text "()"
  | comments =>
    Doc.groupedIf (comments.any fun comment => !comment.isBlock)
      [.text "(", Doc.indented [.softLine, Doc.join .line (comments.map commentText)], .softLine,
        .text ")"]

end Context

end LuaFormatter
