import LuaFormatter.Comment.Surroundings
import LuaFormatter.Source.Gap

/-!
# Owners of comments

Every comment is given an owner in the tree, and is printed before it, after it or inside it. A
comment on its own line belongs to what follows, one at the end of a line to what precedes. A
comment between two nodes on one line is a tie: it belongs to the node that only blanks divide it
from on the right, else to the node on its left, and a run of such comments is settled together.

`attachments` lists the comments of a program with their owners, in the order of the source.
-/

namespace LuaFormatter

/-- Where a comment is printed: before its owner, after it, or inside it. -/
inductive Placement where
  | leading | trailing | dangling
deriving DecidableEq

/-- A comment with the node that it is printed with. -/
structure Attachment where
  comment : Comment
  owner : Node
  placement : Placement

/-- The node has room for comments inside it. -/
def Shape.printsDangling {α : Type} : Shape α → Bool
  | chunk _ | function _ _ _ _ | clause _ _ _ | whileLoop _ _ | doBlock _ | repeatLoop _ _
  | numericFor _ _ _ _ _ | genericFor _ _ _ => true
  | table fields => fields.isEmpty
  | call _ arguments => arguments.isEmpty
  | _ => false

/-- The node has a pair of parentheses with nothing between them. -/
def Shape.hasEmptyParens {α : Type} : Shape α → Bool
  | function _ _ parameters _ => parameters.isEmpty
  | call _ arguments => arguments.isEmpty
  | _ => false

/-- The tokens on both sides of a span are the two of an empty pair of parentheses. -/
def isBetweenParens (tokens : List Token) (span : Span) : Bool :=
  let before := tokens.takeWhile fun token => token.start < span.start
  let after := tokens.dropWhile fun token => token.start < span.start
  before.getLast?.any (·.kind = .symbol .leftParen) &&
  after.head?.any (·.kind = .symbol .rightParen)

namespace Attachment

/-- A comment between two nodes on one line, which waits for the comments next to it. -/
structure Tie where
  comment : Comment
  preceding : Node
  following : Node

/-- How many of the comments, the last of which comes first, have only blanks between them and an
offset. -/
def leadingRun (source : List UInt8) (stop : Nat) : List Comment → Nat
  | [] => 0
  | comment :: rest =>
    let gap := (Gap.after source comment.span.stop).take (stop - comment.span.stop)
    if gap.all Gap.isSpace then leadingRun source comment.span.start rest + 1 else 0

/-- The owners of a run of ties between the same nodes. -/
def settle (source : List UInt8) : List Tie → List Attachment
  | [] => []
  | first :: rest =>
    let comments := (first :: rest).map Tie.comment
    let leading := leadingRun source first.following.span.start comments.reverse
    let (trailing, leading) := comments.splitAt (comments.length - leading)
    trailing.map (⟨·, first.preceding, .trailing⟩) ++ leading.map (⟨·, first.following, .leading⟩)

/-- What becomes of a comment: it has an owner, or it is a tie. -/
inductive Verdict where
  | owned (attachment : Attachment)
  | tied (tie : Tie)

/-- The owner of a comment that is no tie. -/
def ownerOf (root : Node) (comment : Comment) (around : Surroundings) (onOwnLine : Bool) :
    Attachment :=
  let dangling : Attachment := ⟨comment, around.enclosing.getD root, .dangling⟩
  let inEmptyBody := around.enclosing.any fun node => node.shape.body?.any List.isEmpty
  if onOwnLine && inEmptyBody then dangling
  else
    match around.preceding, around.following with
    | some preceding, some following =>
      if onOwnLine then ⟨comment, following, .leading⟩ else ⟨comment, preceding, .trailing⟩
    | none, some following => ⟨comment, following, .leading⟩
    | some preceding, none => ⟨comment, preceding, .trailing⟩
    | none, none => dangling

/-- What becomes of a comment of a program, whose source is given as bytes. -/
def verdict (program : Program) (source : List UInt8) (comment : Comment) : Verdict :=
  let around := surroundings program.root comment.span
  let parens := around.enclosing.filter fun node =>
    node.shape.hasEmptyParens && isBetweenParens program.tokens comment.span
  match parens with
  | some node => .owned ⟨comment, node, .dangling⟩
  | none =>
    let onOwnLine := Gap.hasBreakBefore source comment.span.start
    let endsLine := Gap.hasBreakAfter source comment.span.stop
    let owned := Verdict.owned (ownerOf program.root comment around onOwnLine)
    match around.preceding, around.following with
    | some preceding, some following =>
      if onOwnLine || endsLine then owned else .tied ⟨comment, preceding, following⟩
    | _, _ => owned

/-- The owners of comments, after a run of ties that are still to be settled. A run ends at a
comment that is no tie, and at a tie before another node. -/
def settleAll (source : List UInt8) (ties : List Tie) : List Verdict → List Attachment
  | [] => settle source ties
  | .owned attachment :: rest => settle source ties ++ attachment :: settleAll source [] rest
  | .tied tie :: rest =>
    if ties.getLast?.all (·.following.number = tie.following.number) then
      settleAll source (ties ++ [tie]) rest
    else
      settle source ties ++ settleAll source [tie] rest

/-- A comment inside a node that has no room for it is printed after the node. -/
def makeRoom (attachment : Attachment) : Attachment :=
  if attachment.placement = .dangling ∧ ¬attachment.owner.shape.printsDangling then
    { attachment with placement := .trailing }
  else
    attachment

end Attachment

/-- The comments of a program with their owners, in the order of the source. -/
def attachments (program : Program) : List Attachment :=
  let source := utf8 program.source
  let verdicts := program.comments.map (Attachment.verdict program source)
  (Attachment.settleAll source [] verdicts).map Attachment.makeRoom

end LuaFormatter
