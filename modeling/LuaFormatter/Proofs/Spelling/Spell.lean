import LuaFormatter.Format.Program
import LuaFormatter.Proofs.Spelling.Slot

/-!
# The spelling of a tree

`spell` lists the slots of a node at a place: its tokens in the order of the source, with the
parentheses that are kept, strings in the quotes of the style, and comments around their owners. It
says nothing about groups and line widths. `implements_compile` states that the document of a node
has no other words, so what is proved about slots holds for every layout.

The spelling of a shape is given over any spelling of its parts (`coreSlots`), and `spell` ties the
knot; `spell_eq` is its equation.
-/

namespace LuaFormatter

/-- A line without the carriage return of its line break. -/
def stripReturn (line : List Char) : List Char :=
  if line.getLast? = some '\r' then line.dropLast else line

/-- A text whose line breaks are all line feeds. -/
def verbatimText (content : List Char) : List Char :=
  if content.contains '\n' then
    ['\n'].intercalate ((content.splitOn '\n').map stripReturn)
  else
    content

/-- The token of a literal. -/
def literalSlot (style : Style) (kind : LiteralKind) (text : String) : Slot :=
  match kind with
  | .string => .token .string (verbatimText (requote style.quotes text.toList))
  | .longString => .token .longString (verbatimText text.toList)
  | .number => .token .number text.toList
  | .boolean => .token (.keyword (if text = "true" then .trueK else .falseK)) text.toList
  | .nil => .token (.keyword .nilK) text.toList
  | .vararg => .token (.symbol .dotDotDot) text.toList

/-- The token of a name. -/
def nameSlot (name : String) : Slot :=
  .token .identifier name.toList

/-- Slots with commas between them. -/
def commaSlots (lists : List (List Slot)) : List Slot :=
  [.symbol .comma, .gap].intercalate lists

/-- A node with its slots. -/
structure Spelled where
  node : Node
  slots : List Slot

/-- The kind of token that a comment is written as. -/
def Comment.kind (comment : Comment) : Kind :=
  if comment.isBlock then .blockComment else .comment

/-- The text that a comment is written with. -/
def Comment.written (comment : Comment) : List Char :=
  if comment.isBlock then verbatimText comment.text else trimEnd comment.text

/-- The token of a comment. -/
def Comment.slot (comment : Comment) : Slot :=
  .token comment.kind comment.written

namespace Context

variable (context : Context)

/-- A comment before its owner. -/
def leadingSlots (comment : Comment) : List Slot :=
  let separator : Slot :=
    if comment.isBlock && !Gap.hasBreakAfter context.source comment.span.stop then .space
    else .hard
  [comment.slot, separator] ++
    if Gap.isFollowedByBlankLine context.source comment.span.stop then [.hard] else []

/-- A comment after its owner. -/
def trailingSlots (comment : Comment) : List Slot :=
  if Gap.hasBreakBefore context.source comment.span.start then
    let breaks := if Gap.isPreviousLineBlank context.source comment.span.start then 2 else 1
    [.later breaks comment.kind comment.written]
  else if comment.isBlock then
    [.space, comment.slot]
  else
    [.later 0 comment.kind comment.written]

/-- The comments of a node with a placement. -/
def placed (node : Node) (placement : Placement) : List Comment :=
  ((context.owned node).filter (·.placement = placement)).map Attachment.comment

/-- Slots of a node with its leading and trailing comments around them. -/
def commented (node : Node) (slots : List Slot) : List Slot :=
  (context.placed node .leading).flatMap context.leadingSlots ++ slots ++
    (context.placed node .trailing).flatMap context.trailingSlots

/-- Comments one below the other. -/
def lineSlots (comments : List Comment) : List Slot :=
  [Slot.hard].intercalate (comments.map fun comment => [comment.slot])

/-- The comments inside a node on lines of their own. -/
def danglingSlots (node : Node) : List Slot :=
  match context.danglingComments node false with
  | [] => []
  | comments => .hard :: lineSlots comments

/-- An empty pair of parentheses with the comments between them. -/
def emptyParensSlots (node : Node) : List Slot :=
  match context.danglingComments node true with
  | [] => [.symbol .leftParen, .symbol .rightParen]
  | comments =>
    let breaks := comments.any fun comment => !comment.isBlock
    let inside : Slot := if breaks then .hard else .soft
    let between : Slot := if breaks then .hard else .gap
    .symbol .leftParen :: inside ::
      ([between].intercalate (comments.map fun comment => [comment.slot]) ++
        [inside, .symbol .rightParen])

/-- Statements with what stands between them. -/
def separatedSlots : List Spelled → List (List Slot)
  | [] => []
  | [last] => [last.slots]
  | statement :: next :: rest =>
    (statement.slots ++
      ((if needsSeparator statement.node next.node then [.symbol .semicolon] else []) ++
        if Gap.isNextLineBlank context.source statement.node.span.stop then [.hard] else [])) ::
      separatedSlots (next :: rest)

/-- Statements on lines of their own. -/
def statementSlots (body : List Spelled) : List Slot :=
  [Slot.hard].intercalate
    (context.separatedSlots (body.filter fun statement => !statement.node.isUnreadStatement))

/-- The body of a node: comments inside the node, then statements. -/
def bodySlots (node : Node) (body : List Spelled) : List Slot :=
  context.danglingSlots node ++ if body.isEmpty then [] else .hard :: context.statementSlots body

/-- There is something in the body of a node. -/
def hasBody (node : Node) (body : List Spelled) : Bool :=
  !body.isEmpty || !(context.danglingComments node false).isEmpty

/-- The body of a node and the keyword that closes it. -/
def bodyEndSlots (node : Node) (body : List Spelled) : List Slot :=
  context.bodySlots node body ++
    [if context.hasBody node body then .hard else .space, .keyword .endK]

/-- Arguments with the commas between them. A blank line is kept. -/
def argumentSlots : List Spelled → List Slot
  | [] => []
  | [last] => last.slots
  | argument :: next :: rest =>
    argument.slots ++
      (.symbol .comma ::
        ((if Gap.isNextLineBlank context.source argument.node.span.stop then [.hard, .hard]
          else [.gap]) ++ argumentSlots (next :: rest)))

/-- The shebang and the blank line after it. -/
def shebangSlots (body : List Spelled) : List Slot :=
  match context.shebang with
  | some token =>
    [.token .shebang (trimEnd token.lexeme), .hard] ++
      if !body.isEmpty && Gap.isNextLineBlank context.source token.stop then [.hard] else []
  | none => []

/-- A whole file. -/
def chunkSlots (node : Node) (body : List Spelled) : List Slot :=
  context.shebangSlots body ++
    ((if body.isEmpty then [] else context.statementSlots body ++ [.hard]) ++
      match context.danglingComments node false with
      | [] => []
      | comments => lineSlots comments ++ [.hard])

/-- A conditional with one empty branch is closed on the same line. -/
def closesOnLine (clauses : List Node) : Bool :=
  match clauses with
  | [clause] =>
    match clause.shape with
    | .clause _ _ body => body.isEmpty && !context.hasDangling clause
    | _ => false
  | _ => false

end Context

/-- The keyword of a branch. -/
def clauseKeyword : ClauseKind → List Slot
  | .ifClause => [.keyword .ifK, .space]
  | .elseifClause => [.keyword .elseifK, .space]
  | .elseClause => [.keyword .elseK]

/-- Brackets around a key or an index. -/
def bracketSlots (key : Node) (slots : List Slot) : List Slot :=
  match key.shape with
  | .literal .longString _ =>
    .symbol .leftSquare :: .space :: (slots ++ [.space, .symbol .rightSquare])
  | _ => .symbol .leftSquare :: (slots ++ [.symbol .rightSquare])

/-- The name that a computed key is written as, if it is a quoted name. -/
def keyName? (key : Node) : Option String :=
  match key.shape with
  | .literal .string raw =>
    let name := String.ofList (literalContent raw.toList)
    if !key.inParens && isName name then some name else none
  | _ => none

/-- A space divides an operator from its operand. -/
def spacesOperand (op : UnaryOp) (operand : Doc) : Bool :=
  op.isWord ||
    (op = .negate && operand.firstText?.any fun text => text.toList.head? = some '-')

/-- The slots of a node at a place, without its parentheses and comments, over a spelling of its
parts. -/
def coreSlots (context : Context) (place : Place) (node : Node)
    (spell : Place → Node → List Slot) : List Slot :=
  let each (nodes : List Node) : List (List Slot) := nodes.map (spell {})
  let block (body : List Node) : List Spelled := body.map fun child => ⟨child, spell {} child⟩
  let values (nodes : List Node) : List (List Slot) :=
    nodes.mapIdx fun index value => spell (Place.value nodes.length index) value
  let items (nodes : List Node) : List (List Slot) :=
    nodes.mapIdx fun index item => spell (Place.argument nodes.length index) item
  match node.shape with
  | .chunk body => context.chunkSlots node (block body)
  | .localVariables names initial =>
    .keyword .localK :: .space :: (commaSlots (each names) ++
      if initial.isEmpty then []
      else .space :: .symbol .equal :: .gap :: commaSlots (values initial))
  | .assignment targets assigned =>
    commaSlots (each targets) ++ .space :: .symbol .equal :: .gap :: commaSlots (values assigned)
  | .callStatement expression => spell {} expression
  | .function isLocal name parameters body =>
    (if isLocal then [.keyword .localK, .space] else []) ++ .keyword .functionK ::
      ((match name with
        | some name => .space :: spell {} name
        | none => []) ++
      ((if parameters.isEmpty then context.emptyParensSlots node
        else
          .symbol .leftParen :: .soft :: (commaSlots (each parameters) ++
            [.soft, .symbol .rightParen])) ++
      context.bodyEndSlots node (block body)))
  | .conditional clauses =>
    [Slot.hard].intercalate (each clauses) ++
      [if context.closesOnLine clauses then .space else .hard, .keyword .endK]
  | .clause kind condition body =>
    clauseKeyword kind ++
      ((match condition with
        | some condition => spell {} condition ++ [.space, .keyword .thenK]
        | none => []) ++
      context.bodySlots node (block body))
  | .whileLoop condition body =>
    .keyword .whileK :: .space :: (spell {} condition ++
      .space :: .keyword .doK :: context.bodyEndSlots node (block body))
  | .doBlock body => .keyword .doK :: context.bodyEndSlots node (block body)
  | .repeatLoop body condition =>
    .keyword .repeatK :: (context.bodySlots node (block body) ++
      (if context.hasBody node (block body) then .hard else .space) :: .keyword .untilK :: .space ::
        spell {} condition)
  | .numericFor counter first last step body =>
    .keyword .forK :: .space :: (spell {} counter ++
      .space :: .symbol .equal :: .space :: (spell {} first ++
        .symbol .comma :: .space :: (spell {} last ++
          ((match step with
            | some step => .symbol .comma :: .space :: spell {} step
            | none => []) ++
          .space :: .keyword .doK :: context.bodyEndSlots node (block body)))))
  | .genericFor names iterators body =>
    .keyword .forK :: .gap :: (commaSlots (each names) ++
      .gap :: .keyword .inK :: .gap :: (commaSlots (items iterators) ++
        .gap :: .keyword .doK :: context.bodyEndSlots node (block body)))
  | .returnStatement returned =>
    .keyword .returnK ::
      if returned.isEmpty then [] else .space :: commaSlots (values returned)
  | .breakStatement => [.keyword .breakK]
  | .gotoStatement label => .keyword .gotoK :: .space :: spell {} label
  | .labelStatement label =>
    .symbol .colonColon :: (spell {} label ++ [.symbol .colonColon])
  | .identifier name => [nameSlot name]
  | .literal kind text => [literalSlot context.style kind text]
  | .table fields =>
    if fields.isEmpty then
      .symbol .leftCurly :: (context.danglingSlots node ++
        [if (context.danglingComments node false).isEmpty then .pad else .hard,
          .symbol .rightCurly])
    else
      .symbol .leftCurly :: .pad :: (commaSlots (items fields) ++
        [.comma, .pad, .symbol .rightCurly])
  | .keyField key value =>
    (match keyName? key with
      | some name => context.commented key [nameSlot name]
      | none => bracketSlots key (spell Place.field key)) ++
      .space :: .symbol .equal :: .space :: spell Place.field value
  | .nameField name value =>
    spell {} name ++ .space :: .symbol .equal :: .space :: spell Place.field value
  | .valueField value => spell { Place.field with keepsValues := place.keepsValues } value
  | .binary op left right =>
    spell (Place.left op) left ++ .space :: .fixed op.kind :: .gap :: spell (Place.right op) right
  | .unary op operand =>
    .fixed op.kind ::
      ((if spacesOperand op (compile context {} operand) then [.space] else []) ++
        spell {} operand)
  | .member indexer base name =>
    spell Place.base base ++
      (match indexer with
        | .dot => .symbol .dot
        | .colon => .symbol .colon) :: spell {} name
  | .index base key => spell Place.base base ++ bracketSlots key (spell {} key)
  | .call base arguments =>
    spell Place.base base ++
      if arguments.isEmpty then context.emptyParensSlots node
      else
        .symbol .leftParen :: .soft ::
          (context.argumentSlots (arguments.mapIdx fun index argument =>
            ⟨argument, spell (Place.argument arguments.length index) argument⟩) ++
            [.soft, .symbol .rightParen])
  | .tableCall base argument | .stringCall base argument =>
    spell Place.base base ++ spell {} argument
  | .invalid => []

/-- Slots between parentheses. -/
def parenSlots (slots : List Slot) : List Slot :=
  .symbol .leftParen :: .soft :: (slots ++ [.soft, .symbol .rightParen])

/-- The slots of a node at a place. -/
def spell (context : Context) (place : Place) (node : Node) : List Slot :=
  let core := coreSlots context place node fun place child =>
    if child.size < node.size then spell context place child else []
  context.commented node (if needsParens place node then parenSlots core else core)
termination_by node.size

/-- The spelling of a shape looks only at the spelling of its parts. Counterpart of `coreSlots`. -/
theorem coreSlots_congr {context : Context} {place : Place} {node : Node}
    {f g : Place → Node → List Slot}
    (h : ∀ place, ∀ child ∈ node.children, f place child = g place child) :
    coreSlots context place node f = coreSlots context place node g := by
  obtain ⟨number, shape, span, inParens⟩ := node
  have hmap : ∀ (nodes : List Node) (place : Place), nodes ⊆ shape.children →
      nodes.map (f place) = nodes.map (g place) := fun nodes place hmem =>
    List.map_congr_left fun child hchild => h place child (hmem hchild)
  have hblock : ∀ (nodes : List Node) (place : Place), nodes ⊆ shape.children →
      nodes.map (fun child => (⟨child, f place child⟩ : Spelled)) =
        nodes.map fun child => ⟨child, g place child⟩ := fun nodes place hmem =>
    List.map_congr_left fun child hchild => by rw [h place child (hmem hchild)]
  have hidx : ∀ (nodes : List Node) (place : Nat → Place), nodes ⊆ shape.children →
      nodes.mapIdx (fun index child => f (place index) child) =
        nodes.mapIdx fun index child => g (place index) child := fun nodes place hmem =>
    List.mapIdx_eq_mapIdx_iff.2 fun index hindex =>
      h _ _ (hmem (List.getElem_mem hindex))
  have hblockIdx : ∀ (nodes : List Node) (place : Nat → Place), nodes ⊆ shape.children →
      nodes.mapIdx (fun index child => (⟨child, f (place index) child⟩ : Spelled)) =
        nodes.mapIdx fun index child => ⟨child, g (place index) child⟩ := fun nodes place hmem =>
    List.mapIdx_eq_mapIdx_iff.2 fun index hindex => by
      rw [h _ _ (hmem (List.getElem_mem hindex))]
  have hone : ∀ place child, child ∈ shape.children → f place child = g place child := h
  cases shape with
  | function isLocal name parameters body =>
    have hparameters := hmap parameters {} fun _ h => by simp [Shape.children, h]
    have hbody := hblock body {} fun _ h => by simp [Shape.children, h]
    cases name with
    | none => simp only [coreSlots, Node.shape, hparameters, hbody]
    | some name =>
      simp only [coreSlots, Node.shape, hparameters, hbody, hone {} name (by simp [Shape.children])]
  | clause kind condition body =>
    have hbody := hblock body {} fun _ h => by simp [Shape.children, h]
    cases condition with
    | none => simp only [coreSlots, Node.shape, hbody]
    | some condition =>
      simp only [coreSlots, Node.shape, hbody, hone {} condition (by simp [Shape.children])]
  | numericFor counter first last step body =>
    have hbody := hblock body {} fun _ h => by simp [Shape.children, h]
    have hcounter := hone {} counter (by simp [Shape.children])
    have hfirst := hone {} first (by simp [Shape.children])
    have hlast := hone {} last (by simp [Shape.children])
    cases step with
    | none => simp only [coreSlots, Node.shape, hbody, hcounter, hfirst, hlast]
    | some step =>
      simp only [coreSlots, Node.shape, hbody, hcounter, hfirst, hlast,
        hone {} step (by simp [Shape.children])]
  | repeatLoop body condition =>
    have hbody := hblock body {} fun _ h => by simp [Shape.children, h]
    simp only [coreSlots, Node.shape, hbody, hone {} condition (by simp [Shape.children])]
  | _ =>
    simp only [coreSlots, Node.shape]
    try repeat' first | rfl | rw [hblock] | rw [hmap] | rw [hblockIdx] | rw [hidx] | rw [hone]
    all_goals simp [Shape.children]

/-- A node is spelled with its comments around it, and its parentheses if they are kept. Counterpart
of `spell`. -/
theorem spell_eq (context : Context) (place : Place) (node : Node) :
    spell context place node =
      context.commented node
        (if needsParens place node then parenSlots (coreSlots context place node (spell context))
        else coreSlots context place node (spell context)) := by
  rw [spell, coreSlots_congr (g := spell context)]
  intro place child hchild
  exact if_pos (Node.size_lt_of_mem_children hchild)

/-- It makes no difference to the spelling whether an argument is hugged. Counterpart of `spell`. -/
theorem spell_hugged (context : Context) (place : Place) (isHugged : Bool) (node : Node) :
    spell context { place with isHugged } node = spell context place node := by
  rw [spell_eq, spell_eq]
  rfl

end LuaFormatter
