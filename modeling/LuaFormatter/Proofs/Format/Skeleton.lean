import LuaFormatter.Format.Program
import LuaFormatter.Proofs.Grammar.Yield
import LuaFormatter.Proofs.Spelling.Composites
import LuaFormatter.Proofs.Spelling.Core

/-!
# What a document depends on

Without comments the document of a node depends on little: the shapes below it with their texts, the
parentheses of the source, three of the choices of a style, and the blank lines after statements and
arguments that others follow. `Node.skeleton` keeps just this of a tree. The spans of a skeleton are
those of a text of three bytes, in which a blank line follows the second offset and none the first,
so a skeleton is printed like any other tree.

`compile_skeleton` says that a node has the document of its skeleton. So two trees with one skeleton
have the same document, whatever their sources and the widths of their styles are.
-/

namespace LuaFormatter

/-- The style with those choices that only the layout looks at set to fixed values. -/
def Style.wording (style : Style) : Style :=
  { style with printWidth := 0, indentWidth := 0, useTabs := false, lineEnding := .lineFeed }

/-- A context without comments, and with a source that has a blank line after its first byte. -/
def Context.bare (style : Style) : Context where
  style := style.wording
  source := [0x61, 0x0A, 0x0A]
  tokens := []
  shebang := none
  attachments := []

/-- The span of a node in a skeleton. -/
def skeletonSpan (endsParagraph : Bool) : Span :=
  ⟨0, if endsParagraph then 1 else 0⟩

/-- A blank line follows the node of a skeleton where the skeleton says so. Counterpart of
`skeletonSpan`. -/
theorem isNextLineBlank_skeletonSpan (endsParagraph : Bool) :
    Gap.isNextLineBlank [0x61, 0x0A, 0x0A] (skeletonSpan endsParagraph).stop = endsParagraph := by
  revert endsParagraph
  decide +kernel

namespace Node

mutual

/-- A tree without numbers and places. All that is kept of the places is whether a blank line
follows a node of a list, by a test on offsets, and only if another node follows there too. -/
def skeleton (isBlankAfter : Nat → Bool) (endsParagraph : Bool) : Node → Node
  | mk _ shape _ inParens =>
    mk 0 (shapeSkeleton isBlankAfter shape) (skeletonSpan endsParagraph) inParens

/-- A shape with the skeletons of its parts. -/
def shapeSkeleton (isBlankAfter : Nat → Bool) : Shape Node → Shape Node
  | .chunk body => .chunk (listSkeleton isBlankAfter body)
  | .localVariables names values =>
    .localVariables (listSkeleton isBlankAfter names) (listSkeleton isBlankAfter values)
  | .assignment targets values =>
    .assignment (listSkeleton isBlankAfter targets) (listSkeleton isBlankAfter values)
  | .callStatement expression => .callStatement (skeleton isBlankAfter false expression)
  | .function isLocal name parameters body =>
    .function isLocal (optionSkeleton isBlankAfter name) (listSkeleton isBlankAfter parameters)
      (listSkeleton isBlankAfter body)
  | .conditional clauses => .conditional (listSkeleton isBlankAfter clauses)
  | .clause kind condition body =>
    .clause kind (optionSkeleton isBlankAfter condition) (listSkeleton isBlankAfter body)
  | .whileLoop condition body =>
    .whileLoop (skeleton isBlankAfter false condition) (listSkeleton isBlankAfter body)
  | .doBlock body => .doBlock (listSkeleton isBlankAfter body)
  | .repeatLoop body condition =>
    .repeatLoop (listSkeleton isBlankAfter body) (skeleton isBlankAfter false condition)
  | .numericFor counter first last step body =>
    .numericFor (skeleton isBlankAfter false counter) (skeleton isBlankAfter false first)
      (skeleton isBlankAfter false last) (optionSkeleton isBlankAfter step)
      (listSkeleton isBlankAfter body)
  | .genericFor names iterators body =>
    .genericFor (listSkeleton isBlankAfter names) (listSkeleton isBlankAfter iterators)
      (listSkeleton isBlankAfter body)
  | .returnStatement values => .returnStatement (listSkeleton isBlankAfter values)
  | .breakStatement => .breakStatement
  | .gotoStatement label => .gotoStatement (skeleton isBlankAfter false label)
  | .labelStatement label => .labelStatement (skeleton isBlankAfter false label)
  | .identifier name => .identifier name
  | .literal kind text => .literal kind text
  | .table fields => .table (listSkeleton isBlankAfter fields)
  | .keyField key value =>
    .keyField (skeleton isBlankAfter false key) (skeleton isBlankAfter false value)
  | .nameField name value =>
    .nameField (skeleton isBlankAfter false name) (skeleton isBlankAfter false value)
  | .valueField value => .valueField (skeleton isBlankAfter false value)
  | .binary op left right =>
    .binary op (skeleton isBlankAfter false left) (skeleton isBlankAfter false right)
  | .unary op operand => .unary op (skeleton isBlankAfter false operand)
  | .member indexer base name =>
    .member indexer (skeleton isBlankAfter false base) (skeleton isBlankAfter false name)
  | .index base key =>
    .index (skeleton isBlankAfter false base) (skeleton isBlankAfter false key)
  | .call base arguments =>
    .call (skeleton isBlankAfter false base) (listSkeleton isBlankAfter arguments)
  | .tableCall base argument =>
    .tableCall (skeleton isBlankAfter false base) (skeleton isBlankAfter false argument)
  | .stringCall base argument =>
    .stringCall (skeleton isBlankAfter false base) (skeleton isBlankAfter false argument)
  | .invalid => .invalid

/-- The skeletons of a list of nodes, which know where paragraphs end. -/
def listSkeleton (isBlankAfter : Nat → Bool) : List Node → List Node
  | [] => []
  | node :: rest =>
    skeleton isBlankAfter (!rest.isEmpty && isBlankAfter node.span.stop) node ::
      listSkeleton isBlankAfter rest

/-- The skeleton of an optional node. -/
def optionSkeleton (isBlankAfter : Nat → Bool) : Option Node → Option Node
  | none => none
  | some node => some (skeleton isBlankAfter false node)

end

section
variable {isBlankAfter : Nat → Bool} {endsParagraph : Bool}

@[simp] theorem shape_skeleton (node : Node) :
    (node.skeleton isBlankAfter endsParagraph).shape = shapeSkeleton isBlankAfter node.shape := by
  cases node
  rfl

@[simp] theorem inParens_skeleton (node : Node) :
    (node.skeleton isBlankAfter endsParagraph).inParens = node.inParens := by
  cases node
  rfl

@[simp] theorem span_skeleton (node : Node) :
    (node.skeleton isBlankAfter endsParagraph).span = skeletonSpan endsParagraph := by
  cases node
  rfl

@[simp] theorem length_listSkeleton (nodes : List Node) :
    (listSkeleton isBlankAfter nodes).length = nodes.length := by
  induction nodes with
  | nil => rfl
  | cons node rest ih => rw [listSkeleton, List.length_cons, List.length_cons, ih]

@[simp] theorem isEmpty_listSkeleton (nodes : List Node) :
    (listSkeleton isBlankAfter nodes).isEmpty = nodes.isEmpty := by
  cases nodes <;> rfl

/-- The skeleton of a table is one. Counterpart of `Shape.isTable`. -/
theorem isTable_skeleton (shape : Shape Node) :
    (shapeSkeleton isBlankAfter shape).isTable = shape.isTable := by
  cases shape <;> rfl

/-- The skeleton of a function is one. Counterpart of `Shape.isFunction`. -/
theorem isFunction_skeleton (shape : Shape Node) :
    (shapeSkeleton isBlankAfter shape).isFunction = shape.isFunction := by
  cases shape <;> rfl

/-- The skeleton of an operation is one. Counterpart of `Shape.isBinary`. -/
theorem isBinary_skeleton (shape : Shape Node) :
    (shapeSkeleton isBlankAfter shape).isBinary = shape.isBinary := by
  cases shape <;> rfl

/-- The skeleton of a field without a key is one. Counterpart of `Shape.isValueField`. -/
theorem isValueField_skeleton (shape : Shape Node) :
    (shapeSkeleton isBlankAfter shape).isValueField = shape.isValueField := by
  cases shape <;> rfl

/-- The skeleton of what could not be read is so too. Counterpart of `Shape.isInvalid`. -/
theorem isInvalid_skeleton (shape : Shape Node) :
    (shapeSkeleton isBlankAfter shape).isInvalid = shape.isInvalid := by
  cases shape <;> rfl

/-- The value of a field of a skeleton is the skeleton of the value. Counterpart of
`Shape.fieldValue?`. -/
theorem fieldValue?_skeleton (shape : Shape Node) :
    (shapeSkeleton isBlankAfter shape).fieldValue? =
      shape.fieldValue?.map (skeleton isBlankAfter false) := by
  cases shape <;> rfl

/-- An operation is as logical as its skeleton. Counterpart of `Node.isLogical?`. -/
theorem isLogical?_skeleton (node : Node) :
    (node.skeleton isBlankAfter endsParagraph).isLogical? = node.isLogical? := by
  rw [isLogical?, isLogical?, shape_skeleton]
  cases node.shape <;> rfl

/-- A statement was read if its skeleton was. Counterpart of `Node.isUnreadStatement`. -/
theorem isUnreadStatement_skeleton (node : Node) :
    (node.skeleton isBlankAfter endsParagraph).isUnreadStatement = node.isUnreadStatement := by
  rw [isUnreadStatement, isUnreadStatement, shape_skeleton]
  cases node.shape with
  | callStatement expression => simp [shapeSkeleton, isInvalid_skeleton]
  | _ => rfl

/-- A node and its skeleton need the same parentheses. Counterpart of `needsParens`. -/
theorem needsParens_skeleton (place : Place) (node : Node) :
    needsParens place (node.skeleton isBlankAfter endsParagraph) = needsParens place node := by
  rw [needsParens, needsParens, shape_skeleton, inParens_skeleton]
  cases node.shape with
  | literal kind text => cases kind <;> rfl
  | _ => rfl

/-- The parentheses around a node and its skeleton are printed alike. Counterpart of
`parenthesisedDoc`. -/
theorem parenthesisedDoc_skeleton (node : Node) (doc : Doc) :
    parenthesisedDoc (node.skeleton isBlankAfter endsParagraph) doc =
      parenthesisedDoc node doc := by
  rw [parenthesisedDoc, parenthesisedDoc, shape_skeleton]
  cases node.shape <;> rfl

/-! ## Boundaries between statements -/

/-- The right end of a skeleton is the skeleton of the right end. Counterpart of
`Node.rightmost`. -/
theorem rightmost_skeleton (node : Node) (endsParagraph : Bool) :
    ∃ ends, (node.skeleton isBlankAfter endsParagraph).rightmost =
      node.rightmost.skeleton isBlankAfter ends := by
  induction hn : node.size using Nat.strongRecOn generalizing node endsParagraph with
  | _ n ih =>
  obtain ⟨number, shape, span, inParens⟩ := node
  rw [rightmost, inParens_skeleton]
  split
  · rename_i hparens
    rw [rightmost, if_pos hparens]
    exact ⟨endsParagraph, rfl⟩
  · rename_i hparens
    rw [rightmost, if_neg hparens]
    have hchild : ∀ child ∈ shape.children, child.size < n := fun child hmem =>
      hn ▸ @Node.size_lt_of_mem_children (mk number shape span inParens) child hmem
    cases shape with
    | binary op left right =>
      exact ih right.size (hchild right (by simp [Shape.children])) right false rfl
    | unary op operand =>
      exact ih operand.size (hchild operand (by simp [Shape.children])) operand false rfl
    | _ => exact ⟨endsParagraph, rfl⟩

/-- A node can be called if its skeleton can. Counterpart of `Node.isCallable`. -/
theorem isCallable_skeleton (node : Node) :
    (node.skeleton isBlankAfter endsParagraph).isCallable = node.isCallable := by
  rw [isCallable, isCallable, shape_skeleton, inParens_skeleton]
  cases node.shape <;> rfl

/-- The right end of a node can be called if that of its skeleton can. Counterpart of
`Node.rightmost`. -/
theorem isCallable_rightmost_skeleton (node : Node) :
    (node.skeleton isBlankAfter endsParagraph).rightmost.isCallable =
      node.rightmost.isCallable := by
  obtain ⟨ends, hrightmost⟩ := rightmost_skeleton node endsParagraph
  rw [hrightmost, isCallable_skeleton]

/-- A node opens with a parenthesis if its skeleton does. Counterpart of `Node.opensWithParen`. -/
theorem opensWithParen_skeleton (node : Node) (endsParagraph : Bool) :
    (node.skeleton isBlankAfter endsParagraph).opensWithParen = node.opensWithParen := by
  induction hn : node.size using Nat.strongRecOn generalizing node endsParagraph with
  | _ n ih =>
  obtain ⟨number, shape, span, inParens⟩ := node
  have hchild : ∀ child ∈ shape.children, child.size < n := fun child hmem =>
    hn ▸ @Node.size_lt_of_mem_children (mk number shape span inParens) child hmem
  rw [skeleton, opensWithParen, opensWithParen]
  cases shape with
  | member indexer base name | index base name | call base arguments | tableCall base argument
  | stringCall base argument =>
    have hbase := ih base.size (hchild base (by simp [Shape.children])) base false rfl
    simp [shapeSkeleton, Node.inParens, hbase]
  | _ => rfl

/-- The last of the skeletons is that of the last node, and ends no paragraph. Counterpart of
`listSkeleton`. -/
theorem getLast?_listSkeleton (nodes : List Node) :
    (listSkeleton isBlankAfter nodes).getLast? =
      nodes.getLast?.map (skeleton isBlankAfter false) := by
  induction nodes with
  | nil => rfl
  | cons node rest ih =>
    rw [listSkeleton, List.getLast?_cons, List.getLast?_cons, ih]
    cases rest with
    | nil => rfl
    | cons next rest => simp [List.getLast?_cons]

/-- What a statement ends with can be called if what its skeleton ends with can. Counterpart of
`lastExpression?`. -/
theorem isCallable_lastExpression?_skeleton (statement : Node) :
    (statement.skeleton isBlankAfter endsParagraph).lastExpression?.any isCallable =
      statement.lastExpression?.any isCallable := by
  rw [lastExpression?, lastExpression?, shape_skeleton]
  cases statement.shape with
  | localVariables names values | assignment names values =>
    simp only [shapeSkeleton, getLast?_listSkeleton]
    cases values.getLast? <;> simp [isCallable_rightmost_skeleton]
  | callStatement expression | repeatLoop body expression =>
    simp [shapeSkeleton, isCallable_rightmost_skeleton]
  | _ => rfl

/-- Two statements need a semicolon between them if their skeletons do. Counterpart of
`needsSeparator`. -/
theorem needsSeparator_skeleton (statement next : Node) {ends nextEnds : Bool} :
    needsSeparator (statement.skeleton isBlankAfter ends) (next.skeleton isBlankAfter nextEnds) =
      needsSeparator statement next := by
  have hfirst : (next.skeleton isBlankAfter nextEnds).startsWithParen = next.startsWithParen := by
    rw [startsWithParen, startsWithParen, shape_skeleton]
    cases next.shape with
    | callStatement expression => simp [shapeSkeleton, opensWithParen_skeleton]
    | assignment targets values =>
      cases targets <;> simp [shapeSkeleton, listSkeleton, opensWithParen_skeleton]
    | _ => rfl
  rw [needsSeparator, needsSeparator, isCallable_lastExpression?_skeleton, hfirst]

end

end Node

/-! ## Lists of parts -/

/-- Items that hold nodes, and the same items with the skeletons of the nodes. -/
inductive Alike {α : Type} (node : α → Node) (withNode : α → Node → α) (isBlankAfter : Nat → Bool) :
    List α → List α → Prop
  | nil : Alike node withNode isBlankAfter [] []
  | cons {item : α} {endsParagraph : Bool} {items others : List α} :
    (items ≠ [] → endsParagraph = isBlankAfter (node item).span.stop) →
    Alike node withNode isBlankAfter items others →
    Alike node withNode isBlankAfter (item :: items)
      (withNode item ((node item).skeleton isBlankAfter endsParagraph) :: others)

/-- What is printed for nodes, and for their skeletons. -/
abbrev AlikePrinted (isBlankAfter : Nat → Bool) : List Printed → List Printed → Prop :=
  Alike Printed.node (fun printed node => { printed with node }) isBlankAfter

/-- What is printed for arguments, and for their skeletons. -/
abbrev AlikeArguments (isBlankAfter : Nat → Bool) : List Argument → List Argument → Prop :=
  Alike (·.node) (fun argument node => { argument with node }) isBlankAfter

section
variable {α : Type} {node : α → Node} {withNode : α → Node → α} {isBlankAfter : Nat → Bool}
  {items others : List α}

/-- Nodes and their skeletons are alike if the same is printed for them. Counterpart of `Alike`. -/
theorem alike_mapIdx (nodes : List Node) (f g : Nat → Node → α)
    (hnode : ∀ index inner, node (f index inner) = inner)
    (h : ∀ index, ∀ inner ∈ nodes, ∀ ends, g index (inner.skeleton isBlankAfter ends) =
      withNode (f index inner) (inner.skeleton isBlankAfter ends)) :
    Alike node withNode isBlankAfter (nodes.mapIdx f)
      ((Node.listSkeleton isBlankAfter nodes).mapIdx g) := by
  induction nodes generalizing f g with
  | nil => exact .nil
  | cons first rest ih =>
    rw [Node.listSkeleton, List.mapIdx_cons, List.mapIdx_cons, h 0 first List.mem_cons_self]
    have htail := ih (fun index => f (index + 1)) (fun index => g (index + 1))
      (fun index => hnode (index + 1)) fun index inner hmem =>
      h _ inner (List.mem_cons_of_mem _ hmem)
    have hfirst := hnode 0 first
    generalize f 0 first = item at hfirst
    subst hfirst
    refine .cons (fun hne => ?_) htail
    cases rest with
    | nil => exact absurd rfl hne
    | cons next rest => rfl

/-- Alike lists are both empty or not. Counterpart of `Alike`. -/
theorem Alike.isEmpty (h : Alike node withNode isBlankAfter items others) :
    others.isEmpty = items.isEmpty := by
  cases h <;> rfl

/-- Alike lists are so without the items that a test rejects in both. Counterpart of `List.filter`
for `Alike`. -/
theorem Alike.filter (h : Alike node withNode isBlankAfter items others) (keep : α → Bool)
    (hkeep : ∀ item ends,
      keep (withNode item ((node item).skeleton isBlankAfter ends)) = keep item) :
    Alike node withNode isBlankAfter (items.filter keep) (others.filter keep) := by
  induction h with
  | nil => exact .nil
  | @cons item ends items others hends _ ih =>
    rw [List.filter_cons, List.filter_cons, hkeep]
    split
    · refine .cons (fun hne => hends ?_) ih
      rintro rfl
      exact hne rfl
    · exact ih

/-- What does not depend on the node is the same for items that are alike. Counterpart of
`Alike`. -/
theorem Alike.map_eq {β : Type} (h : Alike node withNode isBlankAfter items others) (f : α → β)
    (hf : ∀ item ends, f (withNode item ((node item).skeleton isBlankAfter ends)) = f item) :
    others.map f = items.map f := by
  induction h with
  | nil => rfl
  | cons _ _ ih => rw [List.map_cons, List.map_cons, hf, ih]

end

section
variable {isBlankAfter : Nat → Bool} {printed others : List Printed}

/-- Nodes and their skeletons are alike if the same is printed for each at its place. Counterpart of
`alike_mapIdx`. -/
theorem alikePrinted_mapIdx (nodes : List Node) (f g : Nat → Node → Doc)
    (h : ∀ index, ∀ node ∈ nodes, ∀ ends, g index (node.skeleton isBlankAfter ends) =
        f index node) :
    AlikePrinted isBlankAfter (nodes.mapIdx fun index node => ⟨node, f index node⟩)
      ((Node.listSkeleton isBlankAfter nodes).mapIdx fun index node => ⟨node, g index node⟩) :=
  alike_mapIdx nodes _ _ (fun _ _ => rfl) fun index node hmem ends => by rw [h index node hmem]

/-- Nodes and their skeletons are alike if the same is printed for each. Counterpart of
`alikePrinted_mapIdx` without places. -/
theorem alikePrinted_map (nodes : List Node) (f g : Node → Doc)
    (h : ∀ node ∈ nodes, ∀ ends, g (node.skeleton isBlankAfter ends) = f node) :
    AlikePrinted isBlankAfter (nodes.map fun node => ⟨node, f node⟩)
      ((Node.listSkeleton isBlankAfter nodes).map fun node => ⟨node, g node⟩) := by
  have hmap : ∀ (nodes : List Node) (f : Node → Doc),
      (nodes.mapIdx fun _ node => (⟨node, f node⟩ : Printed)) = nodes.map fun node =>
      ⟨node, f node⟩ :=
    fun nodes f => List.ext_getElem (by simp) (by simp)
  rw [← hmap, ← hmap]
  exact alikePrinted_mapIdx nodes (fun _ => f) (fun _ => g) fun _ => h

/-- Alike lists have the same documents. Counterpart of `Printed.doc`. -/
theorem Alike.map_doc (h : AlikePrinted isBlankAfter printed others) :
    others.map Printed.doc = printed.map Printed.doc :=
  h.map_eq Printed.doc fun _ _ => rfl

/-- Alike lists are printed alike with commas. Counterpart of `commaList`. -/
theorem Alike.commaList_eq (h : AlikePrinted isBlankAfter printed others) :
    commaList others = commaList printed := by
  rw [commaList, commaList, h.map_doc]

/-- Alike lists are printed alike as assigned values. Counterpart of `assignedValues`. -/
theorem Alike.assignedValues_eq (h : AlikePrinted isBlankAfter printed others) :
    assignedValues others = assignedValues printed := by
  cases h with
  | nil => rfl
  | @cons item ends printed others hends hrest =>
    cases hrest with
    | nil =>
      obtain ⟨node, doc⟩ := item
      simp [assignedValues, Node.isTable_skeleton, Node.isBinary_skeleton]
    | cons hends' hrest' =>
      have hdocs := (Alike.cons hends (.cons hends' hrest')).commaList_eq
      exact congrArg (fun list => Doc.grouped [Doc.indented [.line, list]]) hdocs

/-- Alike lists are printed alike as returned values. Counterpart of `returnDoc`. -/
theorem Alike.returnDoc_eq (h : AlikePrinted isBlankAfter printed others) :
    returnDoc others = returnDoc printed := by
  cases h with
  | nil => rfl
  | cons hends hrest =>
    cases hrest with
    | nil => rfl
    | cons hends' hrest' =>
      have hdocs := (Alike.cons hends (.cons hends' hrest')).commaList_eq
      exact congrArg (fun list => Doc.cat [.text "return ", Doc.grouped [Doc.indented [list]]])
        hdocs

/-- Alike lists are printed alike as parameters. Counterpart of `parametersDoc`. -/
theorem Alike.parametersDoc_eq (h : AlikePrinted isBlankAfter printed others) (isHugged : Bool) :
    parametersDoc isHugged others = parametersDoc isHugged printed := by
  rw [parametersDoc, parametersDoc, h.map_doc, h.commaList_eq]

/-- The fields of alike lists may both stay flat or not. Counterpart of `mayStayFlat`. -/
theorem Alike.mayStayFlat_eq (h : AlikePrinted isBlankAfter printed others) :
    mayStayFlat (others.map Printed.node) = mayStayFlat (printed.map Printed.node) := by
  have hflags : others.map (·.node.shape.isValueField) = printed.map (·.node.shape.isValueField) :=
    h.map_eq _ fun item ends => by simp [Node.isValueField_skeleton]
  have hall : ∀ items : List Printed, (items.map Printed.node).all (·.shape.isValueField) =
      (items.map (·.node.shape.isValueField)).all id := fun items => by
    rw [List.all_map, List.all_map]
    rfl
  unfold mayStayFlat
  rw [hall, hall, hflags]
  cases h with
  | nil => rfl
  | @cons item ends printed others hends hrest =>
    cases hrest with
    | nil =>
      cases hvalue : item.node.shape.fieldValue? <;>
        simp [Node.fieldValue?_skeleton, Node.isTable_skeleton, hvalue]
    | cons => rfl

/-- A key between brackets is printed like its skeleton. Counterpart of `bracketed`. -/
theorem bracketed_skeleton (key : Node) (doc : Doc) {endsParagraph : Bool} :
    bracketed ⟨key.skeleton isBlankAfter endsParagraph, doc⟩ = bracketed ⟨key, doc⟩ := by
  simp only [bracketed, Node.shape_skeleton]
  cases key.shape with
  | literal kind text => cases kind <;> rfl
  | _ => rfl

end

/-! ## Contexts without comments -/

section
variable {context : Context}

/-- Without comments no node owns one. Counterpart of `Context.owned`. -/
theorem owned_eq_nil (hcontext : context.attachments = []) (node : Node) :
    context.owned node = [] := by
  simp [Context.owned, hcontext]

/-- Without comments nothing is printed around a node. Counterpart of `Context.withComments`. -/
theorem withComments_eq (hcontext : context.attachments = []) (node : Node) (doc : Doc) :
    context.withComments node doc = doc := by
  simp [Context.withComments, owned_eq_nil hcontext]

/-- Without comments no node has one. Counterpart of `Context.hasComments`. -/
theorem hasComments_eq_false (hcontext : context.attachments = []) (node : Node) :
    context.hasComments node = false := by
  simp [Context.hasComments, owned_eq_nil hcontext]

/-- Without comments no node has one inside. Counterpart of `Context.danglingComments`. -/
theorem danglingComments_eq (hcontext : context.attachments = []) (node : Node) (between : Bool) :
    context.danglingComments node between = [] := by
  simp [Context.danglingComments, owned_eq_nil hcontext]

/-- Without comments no node has a block of them. Counterpart of `Context.danglingBlock?`. -/
theorem danglingBlock?_eq (hcontext : context.attachments = []) (node : Node) :
    context.danglingBlock? node = none := by
  simp [Context.danglingBlock?, Context.danglingLines?, danglingComments_eq hcontext]

/-- Without comments no node has one in place of a body. Counterpart of `Context.hasDangling`. -/
theorem hasDangling_eq_false (hcontext : context.attachments = []) (node : Node) :
    context.hasDangling node = false := by
  simp [Context.hasDangling, owned_eq_nil hcontext]

/-- Without comments empty parentheses are just these. Counterpart of `Context.emptyParens`. -/
theorem emptyParens_eq (hcontext : context.attachments = []) (node : Node) :
    context.emptyParens node = .text "()" := by
  simp [Context.emptyParens, danglingComments_eq hcontext]

end

/-! ## Parts of documents -/

section
variable {context : Context} {printed others : List Printed}

/-- A list of statements with its blank lines. Counterpart of `Context.separated`. -/
theorem separated_skeleton
    (h : AlikePrinted (Gap.isNextLineBlank context.source) printed others) :
    (Context.bare context.style).separated others = context.separated printed := by
  induction h with
  | nil => rfl
  | @cons item ends printed others hends hrest ih =>
    cases hrest with
    | nil => rfl
    | @cons next ends' printed others hends' hrest =>
      rw [Context.separated, Context.separated, ih]
      dsimp only
      rw [Node.needsSeparator_skeleton, Node.span_skeleton, Context.bare,
        isNextLineBlank_skeletonSpan, hends (by simp)]

/-- Alike statements are printed alike, with the blank lines between them. Counterpart of
`Context.statements`. -/
theorem statements_skeleton
    (h : AlikePrinted (Gap.isNextLineBlank context.source) printed others) :
    (Context.bare context.style).statements others = context.statements printed := by
  rw [Context.statements, Context.statements, separated_skeleton (h.filter _ fun item ends => ?_)]
  dsimp only
  rw [Node.isUnreadStatement_skeleton]

/-- Alike bodies are printed alike. Counterpart of `Context.body?`. -/
theorem body?_skeleton (hcontext : context.attachments = []) (node other : Node)
    (h : AlikePrinted (Gap.isNextLineBlank context.source) printed others) :
    (Context.bare context.style).body? other others = context.body? node printed := by
  rw [Context.body?, Context.body?, danglingBlock?_eq hcontext, danglingBlock?_eq rfl, h.isEmpty,
    statements_skeleton h]

/-- Alike bodies are printed alike with their closing keywords. Counterpart of
`Context.bodyAndEnd`. -/
theorem bodyAndEnd_skeleton (hcontext : context.attachments = []) (node other : Node)
    (h : AlikePrinted (Gap.isNextLineBlank context.source) printed others) :
    (Context.bare context.style).bodyAndEnd other others = context.bodyAndEnd node printed := by
  rw [Context.bodyAndEnd, Context.bodyAndEnd, body?_skeleton hcontext node other h]

/-- Alike branches are printed alike. Counterpart of `Context.clause`. -/
theorem clause_skeleton (hcontext : context.attachments = []) (node other : Node)
    (kind : ClauseKind) (condition : Option Doc)
    (h : AlikePrinted (Gap.isNextLineBlank context.source) printed others) :
    (Context.bare context.style).clause other kind condition others =
      context.clause node kind condition printed := by
  unfold Context.clause
  rw [body?_skeleton hcontext node other h]

/-- Alike tables are printed alike. Counterpart of `Context.table`. -/
theorem table_skeleton (hcontext : context.attachments = []) (node other : Node)
    (h : AlikePrinted (Gap.isNextLineBlank context.source) printed others) :
    (Context.bare context.style).table other others = context.table node printed := by
  rw [Context.table, Context.table, danglingBlock?_eq hcontext, danglingBlock?_eq rfl, h.isEmpty,
    h.map_doc, h.mayStayFlat_eq]
  rfl

/-- A field with a key is printed like its skeleton. Counterpart of `Context.keyField`. -/
theorem keyField_skeleton (hcontext : context.attachments = []) (key value : Node)
    (doc valueDoc : Doc) {isBlankAfter : Nat → Bool} :
    (Context.bare context.style).keyField ⟨key.skeleton isBlankAfter false, doc⟩
        ⟨value.skeleton isBlankAfter false, valueDoc⟩ =
      context.keyField ⟨key, doc⟩ ⟨value, valueDoc⟩ := by
  simp only [Context.keyField, bracketed_skeleton, withComments_eq hcontext,
    @withComments_eq (Context.bare context.style) rfl, Node.shape_skeleton,
    Node.inParens_skeleton]
  cases key.shape <;> rfl

/-- Alike conditionals are printed alike. Counterpart of `Context.conditional`. -/
theorem conditional_skeleton (hcontext : context.attachments = [])
    (h : AlikePrinted (Gap.isNextLineBlank context.source) printed others) :
    (Context.bare context.style).conditional others = context.conditional printed := by
  have hdocs := h.map_doc
  unfold Context.conditional
  cases h with
  | nil => rfl
  | @cons item ends printed others hends hrest =>
    cases hrest with
    | nil =>
      dsimp only at hdocs ⊢
      rw [hdocs, Node.shape_skeleton]
      cases item.node.shape with
      | clause kind condition body =>
        simp [Node.shapeSkeleton, hasDangling_eq_false hcontext,
          @hasDangling_eq_false (Context.bare context.style) rfl]
      | _ => rfl
    | cons => rw [hdocs]

end

/-! ## Arguments -/

section
variable {context : Context} {arguments others : List Argument} {isBlankAfter : Nat → Bool}

/-- What decides whether an argument is hugged. -/
def Node.hugKind (node : Node) : Bool × Bool :=
  (node.shape.isFunction, node.shape.isTable)

/-- A node may be hugged as its skeleton may. Counterpart of `Node.hugKind`. -/
theorem Node.hugKind_skeleton (node : Node) {endsParagraph : Bool} :
    (node.skeleton isBlankAfter endsParagraph).hugKind = node.hugKind := by
  simp [hugKind, isFunction_skeleton, isTable_skeleton]

/-- Which argument is hugged depends on which are functions and tables. Counterpart of `hug?`. -/
theorem hug?_congr {nodes skeletons : List Node}
    (h : skeletons.map Node.hugKind = nodes.map Node.hugKind) : hug? skeletons = hug? nodes := by
  have hfirst : hugsFirst skeletons = hugsFirst nodes := by
    obtain _ | ⟨first, _ | ⟨second, _ | ⟨third, nodes⟩⟩⟩ := nodes <;>
      obtain _ | ⟨first', _ | ⟨second', _ | ⟨third', skeletons⟩⟩⟩ := skeletons <;>
      simp_all [hugsFirst, Node.hugKind, Node.canHug]
  have hreverse : skeletons.reverse.map Node.hugKind = nodes.reverse.map Node.hugKind := by
    rw [List.map_reverse, List.map_reverse, h]
  have hlast : hugsLast skeletons = hugsLast nodes := by
    rw [hugsLast, hugsLast]
    generalize nodes.reverse = back at hreverse ⊢
    generalize skeletons.reverse = back' at hreverse ⊢
    obtain _ | ⟨last, _ | ⟨previous, others⟩⟩ := back <;>
      obtain _ | ⟨last', _ | ⟨previous', others'⟩⟩ := back' <;>
      simp_all [Node.hugKind, Node.canHug]
  rw [hug?, hug?, hfirst, hlast]

/-- The nodes of a list may be hugged as their skeletons may. Counterpart of `Node.hugKind`. -/
theorem hugKind_listSkeleton (nodes : List Node) :
    (Node.listSkeleton isBlankAfter nodes).map Node.hugKind = nodes.map Node.hugKind := by
  induction nodes with
  | nil => rfl
  | cons node rest ih =>
    rw [Node.listSkeleton, List.map_cons, List.map_cons, ih, Node.hugKind_skeleton]

/-- An argument ends a paragraph where its skeleton says so. Counterpart of
`Context.endsParagraph`. -/
theorem endsParagraph_skeleton (argument : Argument) (endsParagraph : Bool) :
    (Context.bare context.style).endsParagraph
        { argument with node := argument.node.skeleton isBlankAfter endsParagraph } =
        endsParagraph := by
  rw [Context.endsParagraph, Node.span_skeleton, Context.bare, isNextLineBlank_skeletonSpan]

/-- The first of several arguments has a comma and a line break after it, or a blank line if it ends
a paragraph. Counterpart of `Context.commaSeparated`. -/
theorem commaSeparated_cons_cons (context : Context) (first second : Argument)
    (rest : List Argument) :
    context.commaSeparated (first :: second :: rest) =
      (if context.endsParagraph first then Doc.cat [first.doc, .text ",", .hardLine, .hardLine]
      else Doc.cat [first.doc, Doc.commaLine]) :: context.commaSeparated (second :: rest) :=
  rfl

/-- Alike arguments are printed alike with commas. Counterpart of `Context.commaSeparated`. -/
theorem commaSeparated_skeleton
    (h : AlikeArguments (Gap.isNextLineBlank context.source) arguments others) :
    (Context.bare context.style).commaSeparated others = context.commaSeparated arguments := by
  induction h with
  | nil => rfl
  | @cons item ends arguments others hends hrest ih =>
    cases hrest with
    | nil => rfl
    | cons hends' hrest =>
      rw [commaSeparated_cons_cons, commaSeparated_cons_cons, ih, endsParagraph_skeleton,
        hends (by simp)]
      rfl

/-- A blank line follows an argument that is not the last. Counterpart of
`Context.endsParagraph`. -/
theorem breaks_skeleton (h : AlikeArguments (Gap.isNextLineBlank context.source) arguments others) :
    others.dropLast.any (Context.bare context.style).endsParagraph =
      arguments.dropLast.any context.endsParagraph := by
  induction h with
  | nil => rfl
  | @cons item ends arguments others hends hrest ih =>
    cases hrest with
    | nil => rfl
    | @cons next ends' arguments others hends' hrest =>
      rw [List.dropLast_cons_cons, List.dropLast_cons_cons, List.any_cons, List.any_cons, ih,
        endsParagraph_skeleton, hends (by simp)]
      rfl

/-- Alike arguments are printed alike in all forms. Counterpart of `Context.arguments`. -/
theorem arguments_skeleton (hcontext : context.attachments = []) (node other : Node)
    (h : AlikeArguments (Gap.isNextLineBlank context.source) arguments others) :
    (Context.bare context.style).arguments other others = context.arguments node arguments := by
  have hkinds : (others.map (·.node)).map Node.hugKind =
      (arguments.map (·.node)).map Node.hugKind := by
    rw [List.map_map, List.map_map]
    exact h.map_eq _ fun item ends => Node.hugKind_skeleton item.node
  have hhugged : others.map Argument.hugged = arguments.map Argument.hugged :=
    h.map_eq _ fun _ _ => rfl
  have hfindSome : ∀ items : List Argument,
      items.findSome? (·.hugged) = (items.map Argument.hugged).findSome? id := fun items => by
    rw [List.findSome?_map]
    rfl
  unfold Context.arguments
  dsimp only
  rw [h.isEmpty, commaSeparated_skeleton h, breaks_skeleton h, hug?_congr hkinds, hfindSome,
    hfindSome, hhugged, emptyParens_eq hcontext, @emptyParens_eq (Context.bare context.style) rfl]
  split
  · rfl
  · cases hhug : hug? (arguments.map (·.node)) with
    | none => rfl
    | some hug =>
      cases hug with
      | last => cases (arguments.map Argument.hugged).findSome? id <;> rfl
      | first =>
        -- Only the first of two arguments is hugged, so another one follows it.
        obtain ⟨first, second, hnodes⟩ := hug?_eq_first hhug
        cases (arguments.map Argument.hugged).findSome? id with
        | none => rfl
        | some hugged =>
          cases h with
          | nil => rfl
          | @cons item ends arguments others hends hrest =>
            have hends := hends (by rintro rfl; simp at hnodes)
            simp only [List.head?_cons, Context.huggedFirst]
            rw [endsParagraph_skeleton, hends]
            rfl

end

/-! ## Documents -/

/-- The shape is that of a whole file. -/
def Shape.isChunk {α : Type} : Shape α → Bool
  | chunk _ => true
  | _ => false

/-- No part of the node is a whole file. -/
def Node.IsChunkless (node : Node) : Prop :=
  ∀ part : Node, part.Part node → part.shape.isChunk = false

/-- A node has the document of its skeleton. -/
def PrintsSkeleton (context : Context) (node : Node) : Prop :=
  ∀ place ends, compile (Context.bare context.style) place
    (node.skeleton (Gap.isNextLineBlank context.source) ends) = compile context place node

section
variable {context : Context} {node : Node}

/-- The operands of `..` down the right side of a skeleton. Counterpart of `concatTail`. -/
theorem concatTail_skeleton (hcontext : context.attachments = []) (ends : Bool)
    (hself : PrintsSkeleton context node)
    (ih : ∀ child : Node, child.size < node.size → child.Part node → PrintsSkeleton context child) :
    concatTail (Context.bare context.style)
        (node.skeleton (Gap.isNextLineBlank context.source) ends) =
      concatTail context node := by
  induction hn : node.size using Nat.strongRecOn generalizing node ends with
  | _ n hrec =>
  have hplain : ([], compile (Context.bare context.style) (Place.right .concat)
      (node.skeleton (Gap.isNextLineBlank context.source) ends)) =
      (([], compile context (Place.right .concat) node) : List Doc × Doc) := by
    rw [hself]
  obtain ⟨number, shape, span, inParens⟩ := node
  have hskeleton := hplain
  rw [Node.skeleton] at hskeleton ⊢
  rw [concatTail, concatTail]
  cases shape with
  | binary op left right =>
    cases op with
    | concat =>
      have hright :
          right ∈ (Node.mk number (.binary .concat left right) span inParens).children := by
        simp [Node.children, Shape.children]
      have hleft : left ∈ (Node.mk number (.binary .concat left right) span inParens).children := by
        simp [Node.children, Shape.children]
      have htail := hrec right.size (hn ▸ Node.size_lt_of_mem_children hright) false
        (ih right (Node.size_lt_of_mem_children hright) (.of_mem_children hright))
        (fun child hsize hpart => ih child
          (Nat.lt_trans hsize (Node.size_lt_of_mem_children hright)) (.child hright hpart)) rfl
      have hoperand := ih left (Node.size_lt_of_mem_children hleft) (.of_mem_children hleft)
        (Place.left .concat) false
      simp only [Node.shapeSkeleton, Node.shape_mk, Node.inParens, hasComments_eq_false hcontext,
        @hasComments_eq_false (Context.bare context.style) rfl, htail, hoperand]
      split
      · exact hskeleton
      · rfl
    | _ => exact hskeleton
  | _ => exact hskeleton

/-- The parts of a chain of operators in a skeleton. Counterpart of `chain`. -/
theorem chain_skeleton (hcontext : context.attachments = []) (parentLogical : Option Bool)
    (ends : Bool)
    (ih : ∀ child : Node, child.size < node.size → child.Part node → PrintsSkeleton context child) :
    chain (Context.bare context.style) parentLogical
        (node.skeleton (Gap.isNextLineBlank context.source) ends) =
      chain context parentLogical node := by
  induction hn : node.size using Nat.strongRecOn generalizing node ends parentLogical with
  | _ n hrec =>
  obtain ⟨number, shape, span, inParens⟩ := node
  rw [Node.skeleton, chain, chain]
  cases shape with
  | binary op left right =>
    have hright : right ∈ (Node.mk number (.binary op left right) span inParens).children := by
      simp [Node.children, Shape.children]
    have hleft : left ∈ (Node.mk number (.binary op left right) span inParens).children := by
      simp [Node.children, Shape.children]
    have hbelow : ∀ {child : Node},
        child ∈ (Node.mk number (.binary op left right) span inParens).children →
        ∀ inner : Node, inner.size < child.size → inner.Part child → PrintsSkeleton context inner :=
      fun hchild inner hsize hpart => ih inner
        (Nat.lt_trans hsize (Node.size_lt_of_mem_children hchild)) (.child hchild hpart)
    have hfront :=
      hrec left.size (hn ▸ Node.size_lt_of_mem_children hleft) (some op.isLogical) false
      (hbelow hleft) rfl
    have hoperand := ih left (Node.size_lt_of_mem_children hleft) (.of_mem_children hleft)
      (Place.left op) false
    have hlast := ih right (Node.size_lt_of_mem_children hright) (.of_mem_children hright)
    have htail := concatTail_skeleton hcontext false hlast (hbelow hright)
    have hcontinues : continuesChain op (left.skeleton (Gap.isNextLineBlank context.source) false) =
        continuesChain op left := by
      rw [continuesChain, continuesChain, Node.shape_skeleton, Node.inParens_skeleton]
      cases left.shape <;> rfl
    simp only [Node.shapeSkeleton, Node.shape_mk, Node.inParens, hasComments_eq_false hcontext,
      @hasComments_eq_false (Context.bare context.style) rfl, hfront, hoperand, htail, hcontinues,
      hlast (Place.right op) false, isOwnGroup, Node.isLogical?_skeleton]
    rfl
  | _ => rfl

/-- Nodes that are printed in the same way everywhere. Counterpart of `printEach`. -/
theorem alike_each {nodes : List Node} (ih : ∀ child ∈ nodes, PrintsSkeleton context child)
    (place : Place) :
    AlikePrinted (Gap.isNextLineBlank context.source)
      (nodes.map fun child => ⟨child, compile context place child⟩)
      ((Node.listSkeleton (Gap.isNextLineBlank context.source) nodes).map fun child =>
        ⟨child, compile (Context.bare context.style) place child⟩) :=
  alikePrinted_map nodes _ _ fun child hmem ends => ih child hmem place ends

/-- Nodes that are printed according to their index. Counterpart of `printIndexed`. -/
theorem alike_indexed {nodes : List Node} (ih : ∀ child ∈ nodes, PrintsSkeleton context child)
    (place : Nat → Place) :
    AlikePrinted (Gap.isNextLineBlank context.source)
      (nodes.mapIdx fun index child => ⟨child, compile context (place index) child⟩)
      ((Node.listSkeleton (Gap.isNextLineBlank context.source) nodes).mapIdx fun index child =>
        ⟨child, compile (Context.bare context.style) (place index) child⟩) :=
  alikePrinted_mapIdx nodes _ _ fun index child hmem ends => ih child hmem (place index) ends

/-- Arguments of a call. Counterpart of `printArguments`. -/
theorem alike_arguments {nodes : List Node} (ih : ∀ child ∈ nodes, PrintsSkeleton context child) :
    AlikeArguments (Gap.isNextLineBlank context.source)
      (nodes.mapIdx fun index child =>
        { node := child, doc := compile context (Place.argument nodes.length index) child
          hugged :=
            if (hug? nodes).any (·.isAt nodes.length index) then
              some (compile context { Place.argument nodes.length index with isHugged := true }
                child)
            else none })
      ((Node.listSkeleton (Gap.isNextLineBlank context.source) nodes).mapIdx fun index child =>
        { node := child
          doc := compile (Context.bare context.style)
            (Place.argument (Node.listSkeleton (Gap.isNextLineBlank context.source) nodes).length
              index)
            child
          hugged :=
            if (hug? (Node.listSkeleton (Gap.isNextLineBlank context.source) nodes)).any
                (·.isAt (Node.listSkeleton (Gap.isNextLineBlank context.source) nodes).length index)
            then
              some (compile (Context.bare context.style)
                { Place.argument (Node.listSkeleton (Gap.isNextLineBlank context.source)
                  nodes).length index with isHugged := true } child)
            else none }) := by
  refine alike_mapIdx nodes _ _ (fun _ _ => rfl) fun index child hmem ends => ?_
  simp only [Node.length_listSkeleton, hug?_congr (hugKind_listSkeleton nodes),
    ih child hmem _ ends]

/-- An optional node is printed like its skeleton. Counterpart of `optionSkeleton`. -/
theorem option_skeleton {option : Option Node}
    (ih : ∀ child ∈ option, PrintsSkeleton context child) :
    (Node.optionSkeleton (Gap.isNextLineBlank context.source) option).map
        (compile (Context.bare context.style) {}) = option.map (compile context {}) := by
  cases option with
  | none => rfl
  | some child => exact congrArg some (ih child rfl {} false)

/-- A node without its comments is printed like its skeleton if its parts are. Counterpart of
`coreDoc`, with one case for each shape. -/
theorem coreDoc_skeleton (hcontext : context.attachments = []) (place : Place) (ends : Bool)
    (hchunk : node.shape.isChunk = false)
    (ih : ∀ child : Node, child.size < node.size → child.Part node → PrintsSkeleton context child) :
    coreDoc (Context.bare context.style) place
        (node.skeleton (Gap.isNextLineBlank context.source) ends) =
      coreDoc context place node := by
  have hchild : ∀ child ∈ node.children, PrintsSkeleton context child := fun child hmem =>
    ih child (Node.size_lt_of_mem_children hmem) (.of_mem_children hmem)
  have hchain := fun parentLogical => chain_skeleton hcontext parentLogical ends ih
  have hend := fun printed others (other : Node) =>
    @bodyAndEnd_skeleton context printed others hcontext node other
  have hbody? := fun printed others (other : Node) =>
    @body?_skeleton context printed others hcontext node other
  have hclause := fun printed others (other : Node) =>
    @clause_skeleton context printed others hcontext node other
  have htable := fun printed others (other : Node) =>
    @table_skeleton context printed others hcontext node other
  have hcall := fun arguments others (other : Node) =>
    @arguments_skeleton context arguments others hcontext node other
  obtain ⟨number, shape, span, inParens⟩ := node
  have hone : ∀ child ∈ shape.children, PrintsSkeleton context child := hchild
  have heach : ∀ nodes, nodes ⊆ shape.children → ∀ child ∈ nodes, PrintsSkeleton context child :=
    fun nodes hsubset child hmem => hchild child (hsubset hmem)
  rw [Node.skeleton] at hchain ⊢
  cases shape with
  | chunk body => cases hchunk
  | localVariables names values =>
    have hnames := (alike_each (heach names (by simp [Shape.children])) {}).commaList_eq
    have hvalues := (alike_indexed (heach values (by simp [Shape.children]))
      (Place.value values.length)).assignedValues_eq
    simp only [coreDoc, Node.shapeSkeleton, Node.shape_mk, Node.isEmpty_listSkeleton,
      Node.length_listSkeleton, hnames, hvalues]
  | assignment targets values =>
    have htargets := (alike_each (heach targets (by simp [Shape.children])) {}).commaList_eq
    have hvalues := (alike_indexed (heach values (by simp [Shape.children]))
      (Place.value values.length)).assignedValues_eq
    simp only [coreDoc, Node.shapeSkeleton, Node.shape_mk, Node.length_listSkeleton, htargets,
      hvalues]
  | callStatement expression => exact hone expression (by simp [Shape.children]) {} false
  | function isLocal name parameters body =>
    have hname :=
      @option_skeleton _ name fun child hmem => hone child (by simp_all [Shape.children])
    have hparameters :=
      (alike_each (heach parameters (by simp [Shape.children])) {}).parametersDoc_eq
      place.isHugged
    have hbody := alike_each (heach body (by simp [Shape.children])) {}
    simp only [coreDoc, Node.shapeSkeleton, Node.shape_mk, Node.isEmpty_listSkeleton, hname,
      hparameters, hend _ _ _ hbody, emptyParens_eq hcontext,
      @emptyParens_eq (Context.bare context.style) rfl]
  | conditional clauses =>
    exact conditional_skeleton hcontext (alike_each (heach clauses (by simp [Shape.children])) {})
  | clause kind condition body =>
    have hcondition :=
      @option_skeleton _ condition fun child hmem => hone child (by simp_all [Shape.children])
    have hbody := alike_each (heach body (by simp [Shape.children])) {}
    simp only [coreDoc, Node.shapeSkeleton, Node.shape_mk, hcondition,
      hclause _ _ _ kind _ hbody]
  | whileLoop condition body =>
    have hcondition := hone condition (by simp [Shape.children]) {} false
    have hbody := alike_each (heach body (by simp [Shape.children])) {}
    simp only [coreDoc, Node.shapeSkeleton, Node.shape_mk, hcondition,
      hend _ _ _ hbody]
  | doBlock body =>
    have hbody := alike_each (heach body (by simp [Shape.children])) {}
    simp only [coreDoc, Node.shapeSkeleton, Node.shape_mk, hend _ _ _ hbody]
  | repeatLoop body condition =>
    have hcondition := hone condition (by simp [Shape.children]) {} false
    have hbody := alike_each (heach body (by simp [Shape.children])) {}
    simp only [coreDoc, Node.shapeSkeleton, Node.shape_mk, hcondition,
      hbody? _ _ _ hbody]
  | numericFor counter first last step body =>
    have hcounter := hone counter (by simp [Shape.children]) {} false
    have hfirst := hone first (by simp [Shape.children]) {} false
    have hlast := hone last (by simp [Shape.children]) {} false
    have hstep :=
      @option_skeleton _ step fun child hmem => hone child (by simp_all [Shape.children])
    have hbody := alike_each (heach body fun child hmem => by simp [Shape.children, hmem]) {}
    simp only [coreDoc, Node.shapeSkeleton, Node.shape_mk, hcounter, hfirst, hlast, hstep,
      hend _ _ _ hbody]
  | genericFor names iterators body =>
    have hnames := (alike_each (heach names (by simp [Shape.children])) {}).commaList_eq
    have hiterators := (alike_indexed (heach iterators (by simp [Shape.children]))
      (Place.argument iterators.length)).commaList_eq
    have hbody := alike_each (heach body (by simp [Shape.children])) {}
    simp only [coreDoc, Node.shapeSkeleton, Node.shape_mk, Node.length_listSkeleton, hnames,
      hiterators, hend _ _ _ hbody]
  | returnStatement values =>
    have hvalues := (alike_indexed (heach values (by simp [Shape.children]))
      (Place.value values.length)).returnDoc_eq
    simp only [coreDoc, Node.shapeSkeleton, Node.shape_mk, Node.length_listSkeleton, hvalues]
  | gotoStatement label | labelStatement label =>
    have hlabel := hone label (by simp [Shape.children]) {} false
    simp only [coreDoc, Node.shapeSkeleton, Node.shape_mk, hlabel]
  | table fields =>
    have hfields := alike_indexed (heach fields (by simp [Shape.children]))
      (Place.argument fields.length)
    simp only [coreDoc, Node.shapeSkeleton, Node.shape_mk, Node.length_listSkeleton,
      htable _ _ _ hfields]
  | keyField key value =>
    have hkey := hone key (by simp [Shape.children]) Place.field false
    have hvalue := hone value (by simp [Shape.children]) Place.field false
    simp only [coreDoc, Node.shapeSkeleton, Node.shape_mk, hkey, hvalue, keyField_skeleton hcontext]
  | nameField name value =>
    have hname := hone name (by simp [Shape.children]) {} false
    have hvalue := hone value (by simp [Shape.children]) Place.field false
    simp only [coreDoc, Node.shapeSkeleton, Node.shape_mk, hname, hvalue]
  | valueField value => exact hone value (by simp [Shape.children]) _ false
  | binary op left right =>
    simp only [coreDoc, Node.shapeSkeleton, Node.shape_mk, Node.inParens] at hchain ⊢
    rw [hchain]
  | unary op operand =>
    have hoperand := hone operand (by simp [Shape.children]) {} false
    simp only [coreDoc, Node.shapeSkeleton, Node.shape_mk, hoperand]
  | member indexer base name =>
    have hbase := hone base (by simp [Shape.children]) Place.base false
    have hname := hone name (by simp [Shape.children]) {} false
    simp only [coreDoc, Node.shapeSkeleton, Node.shape_mk, hbase, hname]
  | index base key =>
    have hbase := hone base (by simp [Shape.children]) Place.base false
    have hkey := hone key (by simp [Shape.children]) {} false
    simp only [coreDoc, Node.shapeSkeleton, Node.shape_mk, hbase, hkey, bracketed_skeleton]
  | call base arguments =>
    have hbase := hone base (by simp [Shape.children]) Place.base false
    have harguments := alike_arguments (heach arguments (by simp [Shape.children]))
    simp only [coreDoc, Node.shapeSkeleton, Node.shape_mk, hbase,
      hcall _ _ _ harguments]
  | tableCall base argument | stringCall base argument =>
    have hbase := hone base (by simp [Shape.children]) Place.base false
    have hargument := hone argument (by simp [Shape.children]) {} false
    simp only [coreDoc, Node.shapeSkeleton, Node.shape_mk, hbase, hargument]
  | literal kind text => cases kind <;> rfl
  | breakStatement | identifier name | invalid => rfl

/-- A node in a source without comments has the document of its skeleton. Counterpart of
`compile`. -/
theorem compile_skeleton (hcontext : context.attachments = []) (hnode : node.IsChunkless) :
    PrintsSkeleton context node := by
  induction hn : node.size using Nat.strongRecOn generalizing node with
  | _ n ih =>
  intro place ends
  have hcore :=
    coreDoc_skeleton hcontext place ends (hnode node (.self node)) fun child hsize hpart =>
    ih child.size (hn ▸ hsize) (fun part hinner => hnode part (hinner.trans hpart)) rfl
  rw [compile_eq, compile_eq, withComments_eq hcontext, withComments_eq rfl,
    Node.needsParens_skeleton, Node.parenthesisedDoc_skeleton, hcore]

end

end LuaFormatter
