import LuaFormatter.Format.Compile

/-!
# The equation of the formatter

`compile` walks over the parts of a node with proofs that they are parts, by which it ends. Here the
proofs are gone: `coreDoc` is the document of a node without its parentheses and comments, over
plain lists of parts, and `compile_eq` puts the document together.
-/

namespace LuaFormatter

/-- To number items with proofs of their membership is to number the items. Counterpart of
`List.attach`. -/
theorem zipIdx_attach {α β : Type} (items : List α) (f : α × Nat → β) :
    items.attach.zipIdx.map (fun item => f (item.1.1, item.2)) = items.zipIdx.map f := by
  have h := List.zipIdx_map (l := items.attach) (k := 0) (f := Subtype.val)
  rw [List.attach_map_subtype_val] at h
  rw [h, List.map_map]
  rfl

/-- Each node is printed at the top. Counterpart of `printEach`. -/
theorem printEach_eq (nodes : List Node) (print : Node → Doc) :
    printEach nodes (fun node _ => print node) = nodes.map fun node => ⟨node, print node⟩ := by
  simp [printEach]

/-- Each node is printed at its place. Counterpart of `printIndexed`. -/
theorem printIndexed_eq (nodes : List Node) (print : Nat → Node → Doc) :
    printIndexed nodes (fun index node _ => print index node) =
      nodes.mapIdx fun index node => ⟨node, print index node⟩ := by
  rw [List.mapIdx_eq_zipIdx_map]
  exact zipIdx_attach nodes fun item => (⟨item.1, print item.2 item.1⟩ : Printed)

/-- Each argument is printed at its place. Counterpart of `printArguments`. -/
theorem printArguments_eq (nodes : List Node) (print : Bool → Nat → Node → Doc) :
    printArguments nodes (fun isHugged index node _ => print isHugged index node) =
      nodes.mapIdx fun index node =>
        { node, doc := print false index node
          hugged :=
            if (hug? nodes).any (·.isAt nodes.length index) then some (print true index node)
            else none } := by
  rw [List.mapIdx_eq_zipIdx_map]
  exact zipIdx_attach nodes fun item =>
    ({ node := item.1, doc := print false item.2 item.1
       hugged :=
         if (hug? nodes).any (·.isAt nodes.length item.2) then some (print true item.2 item.1)
         else none } : Argument)

/-- A node is printed if it is there. Counterpart of `printOption`. -/
theorem printOption_eq (node : Option Node) (print : Node → Doc) :
    printOption node (fun child _ => print child) = node.map print := by
  cases node <;> rfl

/-- The document of a node at a place, without its parentheses and comments. -/
def coreDoc (context : Context) (place : Place) (node : Node) : Doc :=
  let each (nodes : List Node) : List Printed :=
    nodes.map fun child => ⟨child, compile context {} child⟩
  let values (nodes : List Node) : List Printed :=
    nodes.mapIdx fun index value => ⟨value, compile context (Place.value nodes.length index) value⟩
  let items (nodes : List Node) : List Printed :=
    nodes.mapIdx fun index item => ⟨item, compile context (Place.argument nodes.length index) item⟩
  match node.shape with
  | .chunk body => context.chunk node (each body)
  | .localVariables names initial =>
    let names := Doc.grouped [.text "local ", Doc.indented [commaList (each names)]]
    if initial.isEmpty then names
    else Doc.cat [names, .text " =", assignedValues (values initial)]
  | .assignment targets assigned =>
    Doc.cat [Doc.grouped [Doc.indented [commaList (each targets)]], .text " =",
      assignedValues (values assigned)]
  | .callStatement expression => compile context {} expression
  | .function isLocal name parameters body =>
    Doc.cat [.text (if isLocal then "local function" else "function"),
      (match name.map (compile context {}) with
        | some name => Doc.cat [.text " ", name]
        | none => .empty),
      if parameters.isEmpty then context.emptyParens node
      else parametersDoc place.isHugged (each parameters),
      context.bodyAndEnd node (each body)]
  | .conditional clauses => context.conditional (each clauses)
  | .clause kind condition body =>
    context.clause node kind (condition.map (compile context {})) (each body)
  | .whileLoop condition body =>
    Doc.cat [.text "while ", compile context {} condition, .text " do",
      context.bodyAndEnd node (each body)]
  | .doBlock body => Doc.cat [.text "do", context.bodyAndEnd node (each body)]
  | .repeatLoop body condition =>
    match context.body? node (each body) with
    | some body =>
      Doc.cat [.text "repeat", body, .hardLine, .text "until ", compile context {} condition]
    | none => Doc.cat [.text "repeat until ", compile context {} condition]
  | .numericFor counter first last step body =>
    Doc.cat [.text "for ", compile context {} counter, .text " = ", compile context {} first,
      .text ", ", compile context {} last,
      (match step.map (compile context {}) with
        | some step => Doc.cat [.text ", ", step]
        | none => .empty),
      .text " do", context.bodyAndEnd node (each body)]
  | .genericFor names iterators body =>
    Doc.cat [.text "for", Doc.grouped [Doc.indented [.line, commaList (each names)], .line],
      .text "in", Doc.grouped [Doc.indented [.line, commaList (items iterators)], .line],
      .text "do", context.bodyAndEnd node (each body)]
  | .returnStatement returned => returnDoc (values returned)
  | .breakStatement => .text "break"
  | .gotoStatement label => Doc.cat [.text "goto ", compile context {} label]
  | .labelStatement label => Doc.cat [.text "::", compile context {} label, .text "::"]
  | .identifier name => .text name
  | .literal kind text => literalDoc context.style kind text
  | .table fields => context.table node (items fields)
  | .keyField key value =>
    context.keyField ⟨key, compile context Place.field key⟩
      ⟨value, compile context Place.field value⟩
  | .nameField name value =>
    Doc.cat [compile context {} name, .text " = ", compile context Place.field value]
  | .valueField value => compile context { Place.field with keepsValues := place.keepsValues } value
  | .binary _ _ _ => chainDoc node.inParens place.isAlone (chain context place.parentLogical node)
  | .unary op operand => unaryDoc op (compile context {} operand)
  | .member indexer base name =>
    Doc.cat [compile context Place.base base, .text indexer.text, compile context {} name]
  | .index base key =>
    Doc.cat (compile context Place.base base :: bracketed ⟨key, compile context {} key⟩)
  | .call base arguments =>
    Doc.cat [compile context Place.base base,
      context.arguments node <| arguments.mapIdx fun index argument =>
        let place := Place.argument arguments.length index
        { node := argument, doc := compile context place argument
          hugged :=
            if (hug? arguments).any (·.isAt arguments.length index) then
              some (compile context { place with isHugged := true } argument)
            else none }]
  | .tableCall base argument | .stringCall base argument =>
    Doc.cat [compile context Place.base base, compile context {} argument]
  | .invalid => .empty

/-- The document of a node is its core, with the parentheses that are kept and the comments.
Counterpart of `compile`. -/
theorem compile_eq (context : Context) (place : Place) (node : Node) :
    compile context place node =
      context.withComments node
        (if needsParens place node then parenthesisedDoc node (coreDoc context place node)
        else coreDoc context place node) := by
  obtain ⟨number, shape, span, inParens⟩ := node
  rw [compile]
  simp only [printEach_eq, printIndexed_eq, printOption_eq, printArguments_eq]
  cases shape <;> rfl

end LuaFormatter
