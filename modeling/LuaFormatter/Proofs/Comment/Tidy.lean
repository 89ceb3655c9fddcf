import LuaFormatter.Proofs.Comment.Builders
import LuaFormatter.Proofs.Tree.Nodes

/-!
# The comments of a tidy tree

`Context.total` are the documents of all comments with an owner in a tree. A node does not print
every comment it could own: one between parentheses that are not empty would be lost. `Context.Tidy`
says that there is none, and that no statement is left out. The document of a tidy tree then shows
the comments of the tree, each of them once (`shows_compile`), by recursion over the tree with one
case for each shape. A chain of operators writes the operations on its left side itself, without the
document that such an operation has elsewhere, so it has an induction of its own (`showAll_chain`).
-/

namespace LuaFormatter

open Doc

/-! ## The comments of a tree -/

namespace Context

variable (context : Context)

/-- The documents of the comments of a node and of all nodes inside it. -/
def total (node : Node) : Multiset Doc :=
  textsOf ((node.preorder.flatMap context.owned).map Attachment.comment)

/-- The texts of comments of two lists together. Counterpart of `Context.textsOf`. -/
theorem textsOf_append (front back : List Comment) :
    textsOf (front ++ back) = textsOf front + textsOf back := by
  unfold textsOf
  rw [List.map_append, Multiset.coe_add]

/-- The text of a first comment, and the others. Counterpart of `Context.textsOf`. -/
theorem textsOf_cons (comment : Comment) (comments : List Comment) :
    textsOf (comment :: comments) = {commentText comment} + textsOf comments :=
  rfl

/-- The comments of a list with owners are those before, after and inside their owners. Counterpart
of `Placement`. -/
theorem textsOf_placements (between : Comment → Bool) (attachments : List Attachment) :
    textsOf (attachments.map Attachment.comment) =
      textsOf ((attachments.filter (·.placement = .leading)).map Attachment.comment) +
        textsOf ((attachments.filter (·.placement = .trailing)).map Attachment.comment) +
        (textsOf (((attachments.filter (·.placement = .dangling)).map Attachment.comment).filter
          (between · = true)) +
          textsOf (((attachments.filter (·.placement = .dangling)).map Attachment.comment).filter
          (between · = false))) := by
  induction attachments with
  | nil => rfl
  | cons attachment attachments ih =>
    obtain ⟨comment, owner, placement⟩ := attachment
    rw [List.map_cons, textsOf_cons, ih]
    cases placement with
    | leading => simp [textsOf_cons, add_assoc]
    | trailing => simp [textsOf_cons, add_left_comm, add_assoc]
    | dangling =>
      cases hbetween : between comment with
      | true => simp [textsOf_cons, hbetween, add_left_comm, add_assoc]
      | false => simp [textsOf_cons, hbetween, add_left_comm, add_assoc]

/-- The comments of all nodes of some trees are those of the trees. Counterpart of `Context.total`,
which follows the shape of a tree. -/
theorem textsOf_flatMap_preorder (nodes : List Node) :
    textsOf (((nodes.flatMap Node.preorder).flatMap context.owned).map Attachment.comment) =
      commentsOf context.total nodes := by
  induction nodes with
  | nil => rfl
  | cons node nodes ih =>
    rw [List.flatMap_cons, List.flatMap_append, List.map_append, textsOf_append, ih]
    rfl

/-- The comments inside a node and those of its parts. -/
def core (node : Node) : Multiset Doc :=
  context.inside node true + context.inside node false + commentsOf context.total node.children

/-- The comments of a tree are those around its root, inside it, and of its parts. Counterpart of
`Context.total`. -/
theorem total_eq (node : Node) : context.total node = context.around node + context.core node := by
  have howned : textsOf ((context.owned node).map Attachment.comment) =
      context.around node + (context.inside node true + context.inside node false) :=
    textsOf_placements (fun comment => isBetweenParens context.tokens comment.span) _
  rw [total, Node.preorder_eq, List.flatMap_cons, List.map_append, textsOf_append,
    textsOf_flatMap_preorder, howned, add_assoc]
  rfl

end Context

/-! ## Tidy trees -/

/-- The text of a leaf. -/
def Shape.leafText? {α : Type} : Shape α → Option String
  | identifier content | literal _ content => some content
  | _ => none

/-- The shape has room for comments that are not between parentheses: it has a body, or it is a
table without fields. -/
def Shape.hasRoom {α : Type} : Shape α → Bool
  | table fields => fields.isEmpty
  | shape => shape.body?.isSome

/-- Of the shapes that print comments inside, only calls have no room for others than those between
parentheses, and a call has parts. Counterpart of `Shape.printsDangling`. -/
theorem Shape.hasRoom_of_printsDangling {α : Type} {shape : Shape α}
    (h : shape.printsDangling = true) (hroom : shape.body?.isSome = true ∨ shape.children = []) :
    shape.hasRoom = true := by
  cases shape with
  | call base arguments => simp [Shape.body?, Shape.children] at hroom
  | table fields => exact h
  | chunk | function | clause | whileLoop | doBlock | repeatLoop | numericFor | genericFor => rfl
  | _ => cases h

/-- A node of a program without faults: a name or a literal does not start with a dash, all
statements were read, and there are comments inside the node only where it has room for them. -/
structure Context.Tidy (context : Context) (node : Node) : Prop where
  leaf : ∀ text ∈ node.shape.leafText?, text.toList.head? ≠ some '-'
  read : ∀ child ∈ node.children, child.isUnreadStatement = false
  betweenParens : node.shape.hasEmptyParens = false → context.inside node true = 0
  elsewhere : node.shape.hasRoom = false → context.inside node false = 0

/-! ## Chains of operators -/

/-- All nodes of a tree are tidy. -/
def Context.TidyTree (context : Context) (root : Node) : Prop :=
  ∀ part : Node, part.Part root → context.Tidy part

section
variable {context : Context} {node left right : Node} {op : BinaryOp}

/-- The root of a tidy tree is tidy. Counterpart of `Context.TidyTree`. -/
theorem Context.TidyTree.self (h : context.TidyTree node) : context.Tidy node :=
  h node (.self node)

/-- The children of a tidy tree are tidy trees. Counterpart of `Context.TidyTree`. -/
theorem Context.TidyTree.child (h : context.TidyTree node) {child : Node}
    (hchild : child ∈ node.children) : context.TidyTree child :=
  fun part hpart => h part (.child hchild hpart)

/-- A node without room for comments has none inside it. Counterpart of `Context.core`. -/
theorem Context.Tidy.core_of_plain (h : context.Tidy node) {shape : Shape Node}
    (hshape : node.shape = shape) (hroom : shape.hasRoom = false)
    (hparens : shape.hasEmptyParens = false) :
    context.core node = commentsOf context.total shape.children := by
  subst hshape
  rw [core, h.betweenParens hparens, h.elsewhere hroom, zero_add, zero_add]
  rfl

/-- A node without empty parentheses has no comments between them. Counterpart of `Context.core`. -/
theorem Context.Tidy.core_of_body (h : context.Tidy node) {shape : Shape Node}
    (hshape : node.shape = shape) (hparens : shape.hasEmptyParens = false) :
    context.core node = context.inside node false + commentsOf context.total shape.children := by
  subst hshape
  rw [core, h.betweenParens hparens, zero_add]
  rfl

/-- The comments of an operation are those around it and those of its operands, since it has no room
inside. Counterpart of `Context.total`. -/
theorem total_binary (h : context.Tidy node) (hshape : node.shape = .binary op left right) :
    context.total node = context.around node + (context.total left + context.total right) := by
  rw [context.total_eq, h.core_of_plain hshape rfl rfl]
  simp [Shape.children, commentsOf]

/-- A node without comments has none around it. Counterpart of `Context.hasComments`. -/
theorem around_of_not_hasComments (h : context.hasComments node = false) :
    context.around node = 0 := by
  have howned : context.owned node = [] := by simpa [Context.hasComments] using h
  rw [Context.around, howned]
  rfl

/-- An operator is no comment, also where it is a minus. Counterpart of `BinaryOp.text`. -/
theorem shows_operator (op : BinaryOp) : (Doc.text op.text).Shows 0 := by
  cases op <;> exact .text rfl

/-- An operator and its right operand show the comments of the operand. Counterpart of
`operationDoc`. -/
theorem shows_operation {last : Doc} {comments : Multiset Doc} (isOwn : Bool) (op : BinaryOp)
    (hlast : last.Shows comments) : (operationDoc isOwn op last).Shows comments := by
  have hparts : ShowAll [.text op.text, .line, last] comments :=
    .skip (shows_operator op) (.skip .line (.one hlast))
  cases isOwn with
  | true => exact .grouped hparts
  | false => exact .cat hparts

/-- The operands of `..` down the right side show the comments of all of them. Counterpart of
`concatTail`. -/
theorem showAll_concatTail (isOwn : Bool) (htidy : context.TidyTree node)
    (ih : ∀ place child, child.size ≤ node.size → context.TidyTree child →
      (compile context place child).Shows (context.total child)) :
    ShowAll ((concatTail context node).1 ++
      [.text " ", operationDoc isOwn .concat (concatTail context node).2])
      (context.total node) := by
  have hwhole :
      ShowAll [.text " ", operationDoc isOwn .concat (compile context (Place.right .concat) node)]
      (context.total node) :=
    .skip (.text rfl) (.one (shows_operation isOwn .concat (ih _ node (Nat.le_refl _) htidy)))
  induction hn : node.size using Nat.strongRecOn generalizing node with
  | _ n hrec =>
  rw [concatTail]
  split
  · rename_i left right hshape
    split
    · exact hwhole
    · rename_i hplain
      simp only [Bool.or_eq_true, not_or, Bool.not_eq_true] at hplain
      have hleftMem : left ∈ node.children := by simp [Node.children, hshape, Shape.children]
      have hrightMem : right ∈ node.children := by simp [Node.children, hshape, Shape.children]
      obtain ⟨hleft, hright⟩ := Node.size_operands_lt hshape
      have hlast := shows_operation isOwn .concat
        (ih (Place.right .concat) right (by omega) (htidy.child hrightMem))
      have htail := hrec right.size (hn ▸ hright) (htidy.child hrightMem)
        (fun place child hchild => ih place child (by omega)) (.skip (.text rfl) (.one hlast)) rfl
      have hoperand := shows_operation false .concat
        (ih (Place.left .concat) left (by omega) (htidy.child hleftMem))
      rw [total_binary htidy.self hshape, around_of_not_hasComments hplain.2, zero_add]
      exact .skip (.text rfl) (.cons hoperand htail)
  · exact hwhole

/-- The parts of a chain show the comments of its operands, and of the operations inside it.
Counterpart of `chainDoc`. -/
theorem showAll_chain (parentLogical : Option Bool) (hmarked : context.IsMarked)
    (htidy : context.TidyTree node) (hshape : node.shape = .binary op left right)
    (ih : ∀ place child, child.size < node.size → context.TidyTree child →
      (compile context place child).Shows (context.total child)) :
    ShowAll (chain context parentLogical node) (context.total left + context.total right) := by
  induction hn : node.size using Nat.strongRecOn generalizing node op left right parentLogical with
  | _ n hrec =>
  have hleftMem : left ∈ node.children := by simp [Node.children, hshape, Shape.children]
  have hrightMem : right ∈ node.children := by simp [Node.children, hshape, Shape.children]
  obtain ⟨hleft, hright⟩ := Node.size_operands_lt hshape
  rw [chain_binary parentLogical hshape]
  refine .append ?_ ?_
  · split
    · rename_i hcontinues
      obtain ⟨-, child, first, second, hchild⟩ := binary_of_continuesChain hcontinues
      have hparts := hrec left.size (hn ▸ hleft) (some op.isLogical) (htidy.child hleftMem) hchild
        (fun place child hchild => ih place child (by omega)) rfl
      rw [total_binary (htidy.child hleftMem).self hchild]
      split
      · exact .one (shows_withComments hmarked (.concat hparts))
      · rename_i hcomments
        rw [around_of_not_hasComments (by simpa using hcomments), zero_add]
        exact hparts
    · exact .one (ih _ left hleft (htidy.child hleftMem))
  · split
    · rename_i hconcat
      subst hconcat
      exact showAll_concatTail _ (htidy.child hrightMem) fun place child hchild =>
        ih place child (by omega)
    · exact .skip (.text rfl)
        (.one (shows_operation _ op (ih _ right hright (htidy.child hrightMem))))

end

/-! ## Shapes

`ShowsNodes` says of a list of nodes that their documents show all their comments, wherever they
stand. A part of a node is smaller than the node, so the recursion over the tree provides it. -/

/-- The documents of nodes show the comments of their trees. -/
def ShowsNodes (context : Context) (nodes : List Node) : Prop :=
  ∀ place, ∀ child ∈ nodes, (compile context place child).Shows (context.total child)

section
variable {context : Context} {place : Place} {node : Node} {nodes : List Node}

/-- What is shown for some nodes is shown for fewer of them. Counterpart of `ShowsNodes`. -/
theorem ShowsNodes.subset (h : ShowsNodes context nodes) (others : List Node)
    (hsub : others ⊆ nodes) : ShowsNodes context others :=
  fun place child hmem => h place child (hsub hmem)

/-- The nodes of a list show their comments where all are printed at the top. Counterpart of
`ShowEach`. -/
theorem ShowsNodes.each (h : ShowsNodes context nodes) :
    ShowEach context.total (nodes.map fun child => ⟨child, compile context {} child⟩) := by
  intro item hmem
  obtain ⟨child, hchild, rfl⟩ := List.mem_map.1 hmem
  exact h {} child hchild

/-- The nodes of a list show their comments where each is printed at its place. Counterpart of
`ShowEach`. -/
theorem ShowsNodes.indexed (place : Nat → Place) (h : ShowsNodes context nodes) :
    ShowEach context.total
      (nodes.mapIdx fun index child => ⟨child, compile context (place index) child⟩) := by
  intro item hmem
  obtain ⟨index, hindex, rfl⟩ := List.mem_mapIdx.1 hmem
  exact h _ _ (List.getElem_mem hindex)

/-- The nodes that are printed are the nodes of the list. Counterpart of `Printed.node`. -/
theorem nodes_each (nodes : List Node) (print : Node → Doc) :
    (nodes.map fun child => (⟨child, print child⟩ : Printed)).map Printed.node = nodes := by
  simp [Function.comp_def]

/-- The nodes that are printed, each at its place, are the nodes of the list. Counterpart of
`Printed.node`. -/
theorem nodes_indexed (nodes : List Node) (print : Nat → Node → Doc) :
    (nodes.mapIdx fun index child => (⟨child, print index child⟩ : Printed)).map Printed.node =
      nodes := by
  apply List.ext_getElem <;> simp

/-- Nodes with commas between them show their comments. Counterpart of `commaList`. -/
theorem ShowsNodes.commas (h : ShowsNodes context nodes) :
    (commaList (nodes.map fun child => ⟨child, compile context {} child⟩)).Shows
      (commentsOf context.total nodes) := by
  have hlist := shows_commaList h.each
  rwa [nodes_each] at hlist

/-- Nodes with commas between them, each at its place, show their comments. Counterpart of
`commaList`. -/
theorem ShowsNodes.commasIndexed (place : Nat → Place) (h : ShowsNodes context nodes) :
    (commaList (nodes.mapIdx fun index child =>
      ⟨child, compile context (place index) child⟩)).Shows (commentsOf context.total nodes) := by
  have hlist := shows_commaList (h.indexed place)
  rwa [nodes_indexed] at hlist

/-- Assigned values show their comments. Counterpart of `assignedValues`. -/
theorem ShowsNodes.assigned (place : Nat → Place) (h : ShowsNodes context nodes) :
    (assignedValues (nodes.mapIdx fun index child =>
      ⟨child, compile context (place index) child⟩)).Shows (commentsOf context.total nodes) := by
  have hvalues := shows_assignedValues (h.indexed place)
  rwa [nodes_indexed] at hvalues

/-- The children of a tidy node were all read. Counterpart of `AllRead`. -/
theorem Context.Tidy.allRead (h : context.Tidy node) (hsub : nodes ⊆ node.children) :
    AllRead (nodes.map fun child => ⟨child, compile context {} child⟩) := by
  intro item hmem
  obtain ⟨child, hchild, rfl⟩ := List.mem_map.1 hmem
  exact h.read child (hsub hchild)

/-- The body of a node, of which all statements were read. Counterpart of `Context.bodyAndEnd`. -/
theorem ShowsNodes.bodyAndEnd (hmarked : context.IsMarked) (htidy : context.Tidy node)
    (h : ShowsNodes context nodes) (hsub : nodes ⊆ node.children) :
    (context.bodyAndEnd node (nodes.map fun child => ⟨child, compile context {} child⟩)).Shows
      (context.inside node false + commentsOf context.total nodes) := by
  have hbody := @shows_bodyAndEnd context node _ _ hmarked h.each (htidy.allRead hsub)
  rwa [nodes_each] at hbody

/-- The comments of two lists of nodes together. Counterpart of `commentsOf`. -/
theorem commentsOf_append (shown : Node → Multiset Doc) (front back : List Node) :
    commentsOf shown (front ++ back) = commentsOf shown front + commentsOf shown back := by
  rw [commentsOf, List.map_append, List.sum_append]
  rfl

/-- A part that may be missing, after a text. Counterpart of `Option.map` for a part. -/
theorem ShowsNodes.option {child : Option Node} {before : String}
    (h : ShowsNodes context child.toList) (hbefore : opensComment before = false) :
    (match child.map (compile context {}) with
      | some child => Doc.cat [.text before, child]
      | none => Doc.empty).Shows (commentsOf context.total child.toList) := by
  cases child with
  | none => exact .empty
  | some child => exact .cat (.skip (.text hbefore) (.cons (h {} child (by simp)) .nil))

/-- The case of a function in the induction over the tree: its name, its parameters and its body
show their comments. Counterpart of `coreDoc`. -/
theorem shows_function (hmarked : context.IsMarked) (htidy : context.Tidy node) {isLocal : Bool}
    {name : Option Node} {parameters body : List Node}
    (hshape : node.shape = .function isLocal name parameters body)
    (h : ShowsNodes context node.children) :
    (coreDoc context place node).Shows (context.core node) := by
  have hsub : ∀ nodes : List Node, nodes ⊆ name.toList ++ parameters ++ body →
      nodes ⊆ node.children := by
    intro nodes hnodes
    rwa [Node.children, hshape]
  have hname := (h.subset name.toList (hsub _ (by simp))).option (rfl : opensComment " " = false)
  have hbodySub := hsub body (by simp)
  have hbody := (h.subset body hbodySub).bodyAndEnd hmarked htidy hbodySub
  have hkeyword : (Doc.text (if isLocal then "local function" else "function")).Shows 0 := by
    cases isLocal <;> exact .text rfl
  have hparameters : (if parameters.isEmpty then context.emptyParens node
      else parametersDoc place.isHugged
        (parameters.map fun child => ⟨child, compile context {} child⟩)).Shows
      (context.inside node true + commentsOf context.total parameters) := by
    cases hempty : parameters.isEmpty with
    | true =>
      obtain rfl := List.isEmpty_iff.1 hempty
      exact (shows_emptyParens hmarked node).congr (add_zero _).symm
    | false =>
      have hparams := h.subset parameters (hsub _ fun _ hmem => by simp [hmem])
      have hlist := @shows_parametersDoc _ context.total place.isHugged hparams.each
      rw [nodes_each] at hlist
      rw [htidy.betweenParens (by rw [hshape]; exact hempty), zero_add]
      exact hlist
  have hcore : context.core node = commentsOf context.total name.toList +
      (context.inside node true + commentsOf context.total parameters +
        (context.inside node false + commentsOf context.total body)) := by
    rw [Context.core, Node.children, hshape, Shape.children, commentsOf_append, commentsOf_append]
    ac_rfl
  rw [hcore]
  simp only [coreDoc, hshape]
  exact .cat (.skip hkeyword (.cons hname (.cons hparameters (.one hbody))))

/-- The case of local variables in the induction over the tree. Counterpart of `coreDoc`. -/
theorem shows_localVariables (htidy : context.Tidy node) {names initial : List Node}
    (hshape : node.shape = .localVariables names initial) (h : ShowsNodes context node.children) :
    (coreDoc context place node).Shows (context.core node) := by
  rw [htidy.core_of_plain hshape rfl rfl, Shape.children, commentsOf_append]
  rw [Node.children, hshape] at h
  have hnames : (Doc.grouped [.text "local ", Doc.indented
      [commaList (names.map fun child => ⟨child, compile context {} child⟩)]]).Shows
      (commentsOf context.total names) :=
    .grouped (.skip (.text rfl) (.one (.indented (.one
      (h.subset names (by simp [Shape.children])).commas))))
  simp only [coreDoc, hshape]
  cases hempty : initial.isEmpty with
  | true =>
    obtain rfl := List.isEmpty_iff.1 hempty
    exact hnames.congr (add_zero _).symm
  | false =>
    exact .cat (.cons hnames (.skip (.text rfl)
      (.one ((h.subset initial (by simp [Shape.children])).assigned _))))

/-- The case of a `repeat` loop in the induction over the tree. Counterpart of `coreDoc`. -/
theorem shows_repeatLoop (hmarked : context.IsMarked) (htidy : context.Tidy node)
    {body : List Node} {condition : Node} (hshape : node.shape = .repeatLoop body condition)
    (h : ShowsNodes context node.children) :
    (coreDoc context place node).Shows (context.core node) := by
  have hsub : body ⊆ node.children := by simp [Node.children, hshape, Shape.children]
  have hcondition := h {} condition (by simp [Node.children, hshape, Shape.children])
  have hbody := @shows_body context node _ _ hmarked (h.subset body hsub).each (htidy.allRead hsub)
  rw [nodes_each] at hbody
  have hcore : context.core node =
      context.inside node false + commentsOf context.total body + context.total condition := by
    rw [htidy.core_of_body hshape rfl, Shape.children, commentsOf_append, ← add_assoc]
    simp [commentsOf]
  rw [hcore]
  simp only [coreDoc, hshape]
  cases hdoc : context.body? node (body.map fun child => ⟨child, compile context {} child⟩) with
  | some inner =>
    rw [hdoc] at hbody
    exact .cat (.skip (.text rfl) (.cons hbody (.skip .hardLine (.skip (.text rfl)
      (.one hcondition)))))
  | none =>
    rw [hdoc] at hbody
    rw [hbody, zero_add]
    exact .cat (.skip (.text rfl) (.one hcondition))

/-- The case of a loop over numbers in the induction over the tree, with and without a step.
Counterpart of `coreDoc`. -/
theorem shows_numericFor (hmarked : context.IsMarked) (htidy : context.Tidy node)
    {counter first last : Node} {step : Option Node} {body : List Node}
    (hshape : node.shape = .numericFor counter first last step body)
    (h : ShowsNodes context node.children) :
    (coreDoc context place node).Shows (context.core node) := by
  have hchildren : node.children = [counter, first, last] ++ step.toList ++ body := by
    rw [Node.children, hshape, Shape.children]
  have hsub : body ⊆ node.children := fun _ hmem => by simp [hchildren, hmem]
  have hstep := (h.subset step.toList fun _ hmem => by rw [hchildren]; simp [hmem]).option
    (rfl : opensComment ", " = false)
  have hbody := (h.subset body hsub).bodyAndEnd hmarked htidy hsub
  have hcore : context.core node = context.total counter + (context.total first +
      (context.total last + (commentsOf context.total step.toList +
        (context.inside node false + commentsOf context.total body)))) := by
    rw [htidy.core_of_body hshape rfl, Shape.children, commentsOf_append, commentsOf_append]
    simp only [commentsOf, List.map_cons, List.map_nil, List.sum_cons, List.sum_nil, add_zero]
    ac_rfl
  rw [hcore]
  simp only [coreDoc, hshape]
  exact .cat (.skip (.text rfl) (.cons (h {} counter (by simp [hchildren]))
    (.skip (.text rfl) (.cons (h {} first (by simp [hchildren]))
      (.skip (.text rfl) (.cons (h {} last (by simp [hchildren]))
        (.cons hstep (.skip (.text rfl) (.one hbody)))))))))

/-- The case of a loop over iterators in the induction over the tree. Counterpart of `coreDoc`. -/
theorem shows_genericFor (hmarked : context.IsMarked) (htidy : context.Tidy node)
    {names iterators body : List Node} (hshape : node.shape = .genericFor names iterators body)
    (h : ShowsNodes context node.children) :
    (coreDoc context place node).Shows (context.core node) := by
  have hchildren : node.children = names ++ iterators ++ body := by
    rw [Node.children, hshape, Shape.children]
  have hsub : body ⊆ node.children := by simp [hchildren]
  have hbody := (h.subset body hsub).bodyAndEnd hmarked htidy hsub
  have hnames := (h.subset names (by simp [hchildren])).commas
  have hiterators := (h.subset iterators fun _ hmem => by
    rw [hchildren]; simp [hmem]).commasIndexed (Place.argument iterators.length)
  have hcore : context.core node = commentsOf context.total names +
      (commentsOf context.total iterators +
        (context.inside node false + commentsOf context.total body)) := by
    rw [htidy.core_of_body hshape rfl, Shape.children, commentsOf_append, commentsOf_append]
    ac_rfl
  rw [hcore]
  simp only [coreDoc, hshape]
  exact .cat (.skip (.text rfl) (.cons
    (.grouped (.only (.indented (.skip .line (.one hnames))) (.one .line)))
    (.skip (.text rfl) (.cons
      (.grouped (.only (.indented (.skip .line (.one hiterators))) (.one .line)))
      (.skip (.text rfl) (.one hbody))))))

/-- The case of a call in the induction over the tree. Counterpart of `coreDoc`. -/
theorem shows_call (hmarked : context.IsMarked) (htidy : context.Tidy node) {base : Node}
    {arguments : List Node} (hshape : node.shape = .call base arguments)
    (h : ShowsNodes context node.children) :
    (coreDoc context place node).Shows (context.core node) := by
  have hchildren : node.children = base :: arguments := by
    rw [Node.children, hshape, Shape.children]
  let printed : List Argument := arguments.mapIdx fun index argument =>
    { node := argument, doc := compile context (Place.argument arguments.length index) argument
      hugged :=
        if (hug? arguments).any (·.isAt arguments.length index) then
          some (compile context
            { Place.argument arguments.length index with isHugged := true } argument)
        else none }
  have hprinted : ShowArguments context.total printed := by
    intro argument hmem
    obtain ⟨index, hindex, rfl⟩ := List.mem_mapIdx.1 hmem
    have hmem : arguments[index] ∈ node.children := by
      rw [hchildren]
      exact List.mem_cons_of_mem base (List.getElem_mem hindex)
    refine ⟨h _ _ hmem, fun hugged hhugged => ?_⟩
    simp only [Option.mem_def, Option.ite_none_right_eq_some, Option.some.injEq] at hhugged
    rw [← hhugged.2]
    exact h _ _ hmem
  have hnodes : printed.map (·.node) = arguments := by
    apply List.ext_getElem <;> simp [printed]
  have hinside : printed ≠ [] → context.inside node true = 0 := by
    intro hne
    refine htidy.betweenParens ?_
    rw [hshape]
    refine List.isEmpty_eq_false_iff.2 fun hnil => hne ?_
    rw [← hnodes] at hnil
    exact List.map_eq_nil_iff.1 hnil
  have harguments := shows_arguments hmarked hprinted hinside
    fun hug hhug => hugged_mapIdx (hnodes ▸ hhug) _ _
  have hcore : context.core node =
      context.total base + (context.inside node true + commentsOf context.total arguments) := by
    rw [Context.core, htidy.elsewhere (by rw [hshape]; rfl), hchildren, add_zero]
    simp only [commentsOf, List.map_cons, List.sum_cons]
    ac_rfl
  rw [hnodes] at harguments
  rw [hcore]
  simp only [coreDoc, hshape]
  exact .cat (.cons (h Place.base base (by simp [hchildren])) (.one harguments))

/-- The case of a branch in the induction over the tree. Counterpart of `coreDoc`. -/
theorem shows_clauseNode (hmarked : context.IsMarked) (htidy : context.Tidy node)
    {kind : ClauseKind} {condition : Option Node} {body : List Node}
    (hshape : node.shape = .clause kind condition body) (h : ShowsNodes context node.children) :
    (coreDoc context place node).Shows (context.core node) := by
  have hchildren : node.children = condition.toList ++ body := by
    rw [Node.children, hshape, Shape.children]
  have hsub : body ⊆ node.children := by simp [hchildren]
  have hcondition : ∀ child ∈ condition, (compile context {} child).Shows (context.total child) :=
    fun child hmem => h {} child (by simp [hchildren, Option.mem_def.1 hmem])
  have hclause := @shows_clause context node _ context.total hmarked kind condition _ hcondition
    (h.subset body hsub).each (htidy.allRead hsub)
  rw [nodes_each] at hclause
  have hcore : context.core node = commentsOf context.total condition.toList +
      (context.inside node false + commentsOf context.total body) := by
    rw [htidy.core_of_body hshape rfl, Shape.children, commentsOf_append]
    ac_rfl
  rw [hcore]
  simp only [coreDoc, hshape]
  exact hclause

/-- The case of a `while` loop in the induction over the tree. Counterpart of `coreDoc`. -/
theorem shows_whileLoop (hmarked : context.IsMarked) (htidy : context.Tidy node) {condition : Node}
    {body : List Node} (hshape : node.shape = .whileLoop condition body)
    (h : ShowsNodes context node.children) :
    (coreDoc context place node).Shows (context.core node) := by
  have hsub : body ⊆ node.children := by simp [Node.children, hshape, Shape.children]
  have hbody := (h.subset body hsub).bodyAndEnd hmarked htidy hsub
  have hcondition := h {} condition (by simp [Node.children, hshape, Shape.children])
  have hcore : context.core node = context.total condition +
      (context.inside node false + commentsOf context.total body) := by
    rw [htidy.core_of_body hshape rfl, Shape.children]
    simp only [commentsOf, List.map_cons, List.sum_cons]
    ac_rfl
  rw [hcore]
  simp only [coreDoc, hshape]
  exact .cat (.skip (.text rfl) (.cons hcondition (.skip (.text rfl) (.one hbody))))

/-- The case of a table in the induction over the tree. Counterpart of `coreDoc`. -/
theorem shows_tableNode (hmarked : context.IsMarked) (htidy : context.Tidy node)
    {fields : List Node} (hshape : node.shape = .table fields)
    (h : ShowsNodes context node.children) :
    (coreDoc context place node).Shows (context.core node) := by
  have hfields := (h.subset fields (by simp [Node.children, hshape, Shape.children])).indexed
    (Place.argument fields.length)
  have hinside : (fields.mapIdx fun index field => (⟨field, compile context
      (Place.argument fields.length index) field⟩ : Printed)) ≠ [] →
      context.inside node false = 0 := by
    intro hne
    refine htidy.elsewhere ?_
    rw [hshape]
    simpa [Shape.hasRoom] using hne
  have htable := shows_table hmarked hfields hinside
  rw [nodes_indexed] at htable
  rw [htidy.core_of_body hshape rfl]
  simp only [coreDoc, hshape]
  exact htable

/-- The case of a field with a key in the induction over the tree: a key that becomes a name has no
comments that would be lost. Counterpart of `coreDoc`. -/
theorem shows_keyFieldNode (hmarked : context.IsMarked) (htidy : context.TidyTree node)
    {key value : Node} (hshape : node.shape = .keyField key value)
    (h : ShowsNodes context node.children) :
    (coreDoc context place node).Shows (context.core node) := by
  have hkeyMem : key ∈ node.children := by simp [Node.children, hshape, Shape.children]
  have hkey := h Place.field key hkeyMem
  have hvalue := h Place.field value (by simp [Node.children, hshape, Shape.children])
  have hleaf : ∀ kind raw, key.shape = .literal kind raw →
      context.total key = context.around key := by
    intro kind raw hliteral
    rw [context.total_eq, (htidy.child hkeyMem).self.core_of_plain hliteral rfl rfl]
    exact add_zero _
  have hfield := @shows_keyField context context.total hmarked ⟨key, _⟩ ⟨value, _⟩ hkey hvalue hleaf
  rw [htidy.self.core_of_plain hshape rfl rfl]
  simp only [coreDoc, hshape]
  exact hfield.congr (by simp [Shape.children, commentsOf])

/-- The core of a node shows the comments inside the node and those of its parts. Counterpart of
`coreDoc`. -/
theorem shows_coreDoc (hmarked : context.IsMarked)
    (hshebang : ∀ token ∈ context.shebang, token.lexeme.head? ≠ some '-')
    (htidy : context.TidyTree node)
    (ih : ∀ place child, child.size < node.size → context.TidyTree child →
      (compile context place child).Shows (context.total child)) :
    (coreDoc context place node).Shows (context.core node) := by
  have hall : ShowsNodes context node.children := fun place child hmem =>
    ih place child (Node.size_lt_of_mem_children hmem) (htidy.child hmem)
  have hself := htidy.self
  cases hshape : node.shape with
  | localVariables names initial => exact shows_localVariables hself hshape hall
  | function isLocal name parameters body => exact shows_function hmarked hself hshape hall
  | repeatLoop body condition => exact shows_repeatLoop hmarked hself hshape hall
  | numericFor counter first last step body => exact shows_numericFor hmarked hself hshape hall
  | genericFor names iterators body => exact shows_genericFor hmarked hself hshape hall
  | call base arguments => exact shows_call hmarked hself hshape hall
  | clause kind condition body => exact shows_clauseNode hmarked hself hshape hall
  | binary op left right =>
    have hchain := showAll_chain place.parentLogical hmarked htidy hshape ih
    rw [hself.core_of_plain hshape rfl rfl]
    simp only [coreDoc, hshape]
    exact (shows_chainDoc hchain).congr (by simp [Shape.children, commentsOf])
  | chunk body =>
    have hsub : body ⊆ node.children := by simp [Node.children, hshape, Shape.children]
    have hchunk := @shows_chunk context node _ _ hmarked (hall.subset body hsub).each
      (hself.allRead hsub) hshebang
    rw [nodes_each] at hchunk
    rw [hself.core_of_body hshape rfl]
    simp only [coreDoc, hshape]
    exact hchunk
  | whileLoop condition body => exact shows_whileLoop hmarked hself hshape hall
  | doBlock body =>
    have hsub : body ⊆ node.children := by simp [Node.children, hshape, Shape.children]
    have hbody := (hall.subset body hsub).bodyAndEnd hmarked hself hsub
    rw [hself.core_of_body hshape rfl]
    simp only [coreDoc, hshape]
    exact .cat (.skip (.text rfl) (.one hbody))
  | table fields => exact shows_tableNode hmarked hself hshape hall
  | assignment targets assigned =>
    have htargets := hall.subset targets (by simp [Node.children, hshape, Shape.children])
    have hassigned := hall.subset assigned (by simp [Node.children, hshape, Shape.children])
    rw [hself.core_of_plain hshape rfl rfl, Shape.children, commentsOf_append]
    simp only [coreDoc, hshape]
    exact .cat (.cons (.grouped (.one (.indented (.one htargets.commas))))
      (.skip (.text rfl) (.one (hassigned.assigned _))))
  | callStatement expression =>
    have hexpression := hall {} expression (by simp [Node.children, hshape, Shape.children])
    rw [hself.core_of_plain hshape rfl rfl]
    simp only [coreDoc, hshape]
    exact hexpression.congr (add_zero _).symm
  | conditional clauses =>
    have hclauses := shows_conditional context
      (hall.subset clauses (by simp [Node.children, hshape, Shape.children])).each
    rw [nodes_each] at hclauses
    rw [hself.core_of_plain hshape rfl rfl]
    simp only [coreDoc, hshape]
    exact hclauses
  | returnStatement returned =>
    have hreturned := shows_returnDoc
      ((hall.subset returned (by simp [Node.children, hshape, Shape.children])).indexed
        (Place.value returned.length))
    rw [nodes_indexed] at hreturned
    rw [hself.core_of_plain hshape rfl rfl]
    simp only [coreDoc, hshape]
    exact hreturned
  | breakStatement =>
    rw [hself.core_of_plain hshape rfl rfl]
    simp only [coreDoc, hshape]
    exact .text rfl
  | gotoStatement label =>
    have hlabel := hall {} label (by simp [Node.children, hshape, Shape.children])
    rw [hself.core_of_plain hshape rfl rfl]
    simp only [coreDoc, hshape]
    exact .cat (.skip (.text rfl) (.cons hlabel .nil))
  | labelStatement label =>
    have hlabel := hall {} label (by simp [Node.children, hshape, Shape.children])
    rw [hself.core_of_plain hshape rfl rfl]
    simp only [coreDoc, hshape]
    exact .cat (.skip (.text rfl) (.cons hlabel (.one (.text rfl))))
  | identifier name =>
    have hleaf := hself.leaf name (by rw [hshape]; rfl)
    rw [hself.core_of_plain hshape rfl rfl]
    simp only [coreDoc, hshape]
    exact .text (opensComment_of_head hleaf)
  | literal kind text =>
    have hleaf := hself.leaf text (by rw [hshape]; rfl)
    rw [hself.core_of_plain hshape rfl rfl]
    simp only [coreDoc, hshape]
    exact shows_literalDoc context.style kind hleaf
  | keyField key value => exact shows_keyFieldNode hmarked htidy hshape hall
  | nameField name value =>
    have hname := hall {} name (by simp [Node.children, hshape, Shape.children])
    have hvalue := hall Place.field value (by simp [Node.children, hshape, Shape.children])
    rw [hself.core_of_plain hshape rfl rfl]
    simp only [coreDoc, hshape]
    exact .cat (.cons hname (.skip (.text rfl) (.cons hvalue .nil)))
  | valueField value =>
    have hvalue := hall { Place.field with keepsValues := place.keepsValues } value
      (by simp [Node.children, hshape, Shape.children])
    rw [hself.core_of_plain hshape rfl rfl]
    simp only [coreDoc, hshape]
    exact hvalue.congr (add_zero _).symm
  | unary op operand =>
    have hoperand := hall {} operand (by simp [Node.children, hshape, Shape.children])
    rw [hself.core_of_plain hshape rfl rfl]
    simp only [coreDoc, hshape]
    exact (shows_unaryDoc op hoperand).congr (add_zero _).symm
  | member indexer base name =>
    have hbase := hall Place.base base (by simp [Node.children, hshape, Shape.children])
    have hname := hall {} name (by simp [Node.children, hshape, Shape.children])
    have hindexer : (Doc.text indexer.text).Shows 0 := by cases indexer <;> exact .text rfl
    rw [hself.core_of_plain hshape rfl rfl]
    simp only [coreDoc, hshape]
    exact .cat (.cons hbase (.skip hindexer (.cons hname .nil)))
  | index base key =>
    have hbase := hall Place.base base (by simp [Node.children, hshape, Shape.children])
    have hkey := hall {} key (by simp [Node.children, hshape, Shape.children])
    rw [hself.core_of_plain hshape rfl rfl]
    simp only [coreDoc, hshape]
    refine (Shows.cat (.cons hbase (@showAll_bracketed ⟨key, _⟩ _ hkey))).congr ?_
    simp [Shape.children, commentsOf]
  | tableCall base argument | stringCall base argument =>
    have hbase := hall Place.base base (by simp [Node.children, hshape, Shape.children])
    have hargument := hall {} argument (by simp [Node.children, hshape, Shape.children])
    rw [hself.core_of_plain hshape rfl rfl]
    simp only [coreDoc, hshape]
    exact .cat (.cons hbase (.cons hargument .nil))
  | invalid =>
    rw [hself.core_of_plain hshape rfl rfl]
    simp only [coreDoc, hshape]
    exact .empty

/-- The document of a node shows the comments of its tree, each of them once. Counterpart of
`compile`. -/
theorem shows_compile (hmarked : context.IsMarked)
    (hshebang : ∀ token ∈ context.shebang, token.lexeme.head? ≠ some '-') (place : Place)
    (node : Node) (htidy : context.TidyTree node) :
    (compile context place node).Shows (context.total node) := by
  induction hn : node.size using Nat.strongRecOn generalizing node place with
  | _ n ih =>
  have hcore : (coreDoc context place node).Shows (context.core node) :=
    shows_coreDoc hmarked hshebang htidy fun place child hchild htidy =>
      ih child.size (hn ▸ hchild) place child htidy rfl
  rw [compile_eq, Context.total_eq]
  refine shows_withComments hmarked ?_
  split
  · exact shows_parenthesisedDoc hcore
  · exact hcore

end

end LuaFormatter
