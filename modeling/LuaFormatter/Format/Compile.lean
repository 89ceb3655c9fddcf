import LuaFormatter.Format.Arguments
import LuaFormatter.Format.Place
import LuaFormatter.Format.Quote
import LuaFormatter.Format.Table

/-!
# From tree to document

`compile` gives the document of a node at a place. Chains of operators are written as one list of
parts: `chain` collects it down the left operands as long as they flatten, and `concatTail` down the
right operands of `..`, which groups to the right.
-/

namespace LuaFormatter

namespace Node

variable {node child : Node}

/-- Compiling a child is a smaller task than compiling the node. Counterpart of the measure of
`compile`. -/
theorem compile_lt_compile (h : child ∈ node.children) :
    3 * child.size + 1 < 3 * node.size + 1 := by
  have := size_lt_of_mem_children h
  omega

/-- Compiling a child is a smaller task than listing the chain of the node. Counterpart of the
measure of `chain`. -/
theorem compile_lt_chain (h : child ∈ node.children) : 3 * child.size + 1 < 3 * node.size := by
  have := size_lt_of_mem_children h
  omega

/-- Listing the chain of a child is a smaller task than listing that of the node. Counterpart of the
measure of `chain`. -/
theorem chain_lt_chain (h : child ∈ node.children) : 3 * child.size < 3 * node.size := by
  have := size_lt_of_mem_children h
  omega

/-- Listing the rest of a chain from a child on is a smaller task than listing the chain of the
node. Counterpart of the measure of `chain`. -/
theorem tail_lt_chain (h : child ∈ node.children) : 3 * child.size + 2 < 3 * node.size := by
  have := size_lt_of_mem_children h
  omega

/-- Compiling a child is a smaller task than listing the rest of a chain from the node on.
Counterpart of the measure of the rest of a chain. -/
theorem compile_lt_tail (h : child ∈ node.children) : 3 * child.size + 1 < 3 * node.size + 2 := by
  have := size_lt_of_mem_children h
  omega

/-- Listing the rest of a chain from a child on is a smaller task than from the node on. Counterpart
of the measure of the rest of a chain. -/
theorem tail_lt_tail (h : child ∈ node.children) : 3 * child.size + 2 < 3 * node.size + 2 := by
  have := size_lt_of_mem_children h
  omega

end Node

/-- The document of a literal. -/
def literalDoc (style : Style) (kind : LiteralKind) (text : String) : Doc :=
  match kind with
  | .string => Doc.verbatim (requote style.quotes text.toList)
  | .longString => Doc.verbatim text.toList
  | _ => .text text

/-- An operator before its operand. Two minus signs would start a comment, so a space keeps them
apart. -/
def unaryDoc (op : UnaryOp) (operand : Doc) : Doc :=
  let startsWithMinus := operand.firstText?.any fun text => text.toList.head? = some '-'
  let space : Doc :=
    if op.isWord || (op = .negate && startsWithMinus) then .text " " else .empty
  Doc.cat [.text op.text, space, operand]

/-- The parameters of a function. -/
def parametersDoc (isHugged : Bool) (parameters : List Printed) : Doc :=
  if isHugged then
    Doc.cat [.text "(", Doc.join (.text ", ") (parameters.map Printed.doc), .text ")"]
  else
    Doc.grouped [.text "(", Doc.indented [.softLine, commaList parameters], .softLine, .text ")"]

/-- The document of a chain of operators from its parts: the first part, then the operations. -/
def chainDoc (inParens isAlone : Bool) (parts : List Doc) : Doc :=
  if inParens then .concat parts
  else if isAlone then Doc.grouped [.concat parts]
  else
    match parts with
    | first :: rest => Doc.grouped [first, Doc.indented [.concat rest]]
    | [] => .empty

/-- A `return` with its values. -/
def returnDoc : List Printed → Doc
  | [] => .text "return"
  | [value] => Doc.cat [.text "return ", value.doc]
  | values => Doc.cat [.text "return ", Doc.grouped [Doc.indented [commaList values]]]

/-- Parentheses around what is written for a node. -/
def parenthesisedDoc (node : Node) (printed : Doc) : Doc :=
  match node.shape with
  | .binary _ _ _ =>
    Doc.grouped [.text "(", Doc.indented [.softLine, printed], .softLine, .text ")"]
  | _ => Doc.cat [.text "(", printed, .text ")"]

/-- Whether the operator of an operation is a logical one. -/
def Node.isLogical? (node : Node) : Option Bool :=
  match node.shape with
  | .binary op _ _ => some op.isLogical
  | _ => none

/-- The left operand continues the chain of its parent. -/
def continuesChain (op : BinaryOp) (left : Node) : Bool :=
  !left.inParens &&
    match left.shape with
    | .binary child _ _ => op.flattens child
    | _ => false

/-- An operation with its operands is a group of its own: there is no operation of the same
category, logical or not, next to it. -/
def isOwnGroup (op : BinaryOp) (inParens : Bool) (parentLogical : Option Bool) (left right : Node) :
    Bool :=
  let category := some op.isLogical
  !(inParens && op.isLogical) && parentLogical ≠ category && left.isLogical? ≠ category &&
    right.isLogical? ≠ category

/-- The branches of a conditional and the keyword that closes it. -/
def Context.conditional (context : Context) (clauses : List Printed) : Doc :=
  let isEmpty :=
    match clauses with
    | [clause] =>
      match clause.node.shape with
      | .clause _ _ body => body.isEmpty && !context.hasDangling clause.node
      | _ => false
    | _ => false
  let joined := Doc.join .hardLine (clauses.map Printed.doc)
  if isEmpty then Doc.cat [joined, .text " end"]
  else Doc.cat [joined, .hardLine, .text "end"]

/-- A whole file: the shebang, the statements, and the comments of a file without statements. -/
def Context.chunk (context : Context) (node : Node) (body : List Printed) : Doc :=
  let shebang : List Doc :=
    match context.shebang with
    | some token =>
      let blankLine : List Doc :=
        if !body.isEmpty && Gap.isNextLineBlank context.source token.stop then [.hardLine] else []
      [.note (String.ofList (trimEnd token.lexeme)), .hardLine] ++ blankLine
    | none => []
  let statements : List Doc :=
    if body.isEmpty then [] else [context.statements body, .hardLine]
  let comments : List Doc :=
    match context.danglingLines? node with
    | some lines => [lines, .hardLine]
    | none => []
  .concat (shebang ++ statements ++ comments)

/-- A branch of a conditional. -/
def Context.clause (context : Context) (node : Node) (kind : ClauseKind) (condition : Option Doc)
    (body : List Printed) : Doc :=
  let keyword : Doc := .text <| match kind with
    | .ifClause => "if "
    | .elseifClause => "elseif "
    | .elseClause => "else"
  let header := match condition with
    | some condition => Doc.cat [keyword, condition, .text " then"]
    | none => keyword
  match context.body? node body with
  | some body => Doc.cat [header, body]
  | none => header

mutual

/-- The document of a node at a place, with its parentheses and comments. -/
def compile (context : Context) (place : Place) (node : Node) : Doc :=
  let printed : Doc :=
    match _shape : node.shape with
    | .chunk body =>
      context.chunk node (printEach body fun statement _ => compile context {} statement)
    | .localVariables names values =>
      let names := commaList (printEach names fun name _ => compile context {} name)
      let names := Doc.grouped [.text "local ", Doc.indented [names]]
      if values.isEmpty then names
      else
        Doc.cat [names, .text " =", assignedValues <| printIndexed values fun index value _ =>
          compile context (Place.value values.length index) value]
    | .assignment targets values =>
      let targets := commaList (printEach targets fun target _ => compile context {} target)
      Doc.cat [Doc.grouped [Doc.indented [targets]], .text " =",
        assignedValues <| printIndexed values fun index value _ =>
          compile context (Place.value values.length index) value]
    | .callStatement expression => compile context {} expression
    | .function isLocal name parameters body =>
      let keyword : Doc := .text (if isLocal then "local function" else "function")
      let name : Doc := match printOption name fun name _ => compile context {} name with
        | some name => Doc.cat [.text " ", name]
        | none => .empty
      let parameters : Doc :=
        if parameters.isEmpty then context.emptyParens node
        else
          parametersDoc place.isHugged <| printEach parameters fun parameter _ =>
            compile context {} parameter
      Doc.cat [keyword, name, parameters,
        context.bodyAndEnd node (printEach body fun statement _ => compile context {} statement)]
    | .conditional clauses =>
      context.conditional (printEach clauses fun clause _ => compile context {} clause)
    | .clause kind condition body =>
      context.clause node kind
        (printOption condition fun condition _ => compile context {} condition)
        (printEach body fun statement _ => compile context {} statement)
    | .whileLoop condition body =>
      Doc.cat [.text "while ", compile context {} condition, .text " do",
        context.bodyAndEnd node (printEach body fun statement _ => compile context {} statement)]
    | .doBlock body =>
      Doc.cat [.text "do",
        context.bodyAndEnd node (printEach body fun statement _ => compile context {} statement)]
    | .repeatLoop body condition =>
      let condition := compile context {} condition
      match context.body? node (printEach body fun statement _ => compile context {} statement) with
      | some body => Doc.cat [.text "repeat", body, .hardLine, .text "until ", condition]
      | none => Doc.cat [.text "repeat until ", condition]
    | .numericFor counter first last step body =>
      let step : Doc := match printOption step fun step _ => compile context {} step with
        | some step => Doc.cat [.text ", ", step]
        | none => .empty
      Doc.cat [.text "for ", compile context {} counter, .text " = ", compile context {} first,
        .text ", ", compile context {} last, step, .text " do",
        context.bodyAndEnd node (printEach body fun statement _ => compile context {} statement)]
    | .genericFor names iterators body =>
      let names := commaList (printEach names fun name _ => compile context {} name)
      let iterators := commaList <| printIndexed iterators fun index iterator _ =>
        compile context (Place.argument iterators.length index) iterator
      Doc.cat [.text "for", Doc.grouped [Doc.indented [.line, names], .line],
        .text "in", Doc.grouped [Doc.indented [.line, iterators], .line], .text "do",
        context.bodyAndEnd node (printEach body fun statement _ => compile context {} statement)]
    | .returnStatement values =>
      returnDoc <| printIndexed values fun index value _ =>
        compile context (Place.value values.length index) value
    | .breakStatement => .text "break"
    | .gotoStatement label => Doc.cat [.text "goto ", compile context {} label]
    | .labelStatement label => Doc.cat [.text "::", compile context {} label, .text "::"]
    | .identifier name => .text name
    | .literal kind text => literalDoc context.style kind text
    | .table fields =>
      context.table node <| printIndexed fields fun index field _ =>
        compile context (Place.argument fields.length index) field
    | .keyField key value =>
      context.keyField ⟨key, compile context Place.field key⟩
        ⟨value, compile context Place.field value⟩
    | .nameField name value =>
      Doc.cat [compile context {} name, .text " = ", compile context Place.field value]
    | .valueField value =>
      compile context { Place.field with keepsValues := place.keepsValues } value
    | .binary _ _ _ =>
      chainDoc node.inParens place.isAlone (chain context place.parentLogical node)
    | .unary op operand => unaryDoc op (compile context {} operand)
    | .member indexer base name =>
      Doc.cat [compile context Place.base base, .text indexer.text, compile context {} name]
    | .index base key =>
      Doc.cat (compile context Place.base base :: bracketed ⟨key, compile context {} key⟩)
    | .call base arguments =>
      Doc.cat [compile context Place.base base,
        context.arguments node <| printArguments arguments fun isHugged index argument _ =>
          compile context { Place.argument arguments.length index with isHugged } argument]
    | .tableCall base argument | .stringCall base argument =>
      Doc.cat [compile context Place.base base, compile context {} argument]
    | .invalid => .empty
  context.withComments node
    (if needsParens place node then parenthesisedDoc node printed else printed)
termination_by 3 * node.size + 1
decreasing_by
  all_goals first
    | omega
    | (apply Node.compile_lt_compile; simp [Node.children, Shape.children, *])

/-- The parts of a chain of operators: the first operand, and for each operator a space and the
operation. An operation inside the chain that owns comments is kept together with them. -/
def chain (context : Context) (parentLogical : Option Bool) (node : Node) : List Doc :=
  match _shape : node.shape with
  | .binary op left right =>
    let front :=
      if continuesChain op left then
        let parts := chain context (some op.isLogical) left
        if context.hasComments left then [context.withComments left (.concat parts)] else parts
      else
        [compile context (Place.left op) left]
    let (middle, last) :=
      if op = .concat then concatTail context right
      else ([], compile context (Place.right op) right)
    let operation := [.text op.text, .line, last]
    let operation :=
      if isOwnGroup op node.inParens parentLogical left right then Doc.grouped operation
      else Doc.cat operation
    front ++ middle ++ [.text " ", operation]
  | _ => []
termination_by 3 * node.size
decreasing_by
  · apply Node.chain_lt_chain; simp [Node.children, _shape, Shape.children]
  · apply Node.compile_lt_chain; simp [Node.children, _shape, Shape.children]
  · apply Node.tail_lt_chain; simp [Node.children, _shape, Shape.children]
  · apply Node.compile_lt_chain; simp [Node.children, _shape, Shape.children]

/-- The operands of `..` down the right side: the parts up to the last operator, and the document of
the last operand. -/
def concatTail (context : Context) (node : Node) : List Doc × Doc :=
  match _shape : node.shape with
  | .binary .concat left right =>
    if node.inParens || context.hasComments node then
      ([], compile context (Place.right .concat) node)
    else
      let (parts, last) := concatTail context right
      let operand := compile context (Place.left .concat) left
      (.text " " :: Doc.cat [.text BinaryOp.concat.text, .line, operand] :: parts, last)
  | _ => ([], compile context (Place.right .concat) node)
termination_by 3 * node.size + 2
decreasing_by
  · omega
  · apply Node.tail_lt_tail; simp [Node.children, _shape, Shape.children]
  · apply Node.compile_lt_tail; simp [Node.children, _shape, Shape.children]
  · omega

end

end LuaFormatter
