import LuaFormatter.Proofs.Format.Uncommented
import LuaFormatter.Tree.Outline

/-!
# Chains in the order of the source

A chain of operators is one list of parts, collected down the left operands and, for `..`, down the
right ones. `inOrder` is the plain way to write an operation: the left operand, the operator, the
right operand, and the same for an operand that is an operation. Both have the same text but for
spaces (`dropSpaces_chain`), so no operand is lost, repeated or moved on the way, and none loses
parentheses that are kept where it stands in the tree.
-/

namespace LuaFormatter

namespace Doc

mutual

/-- The texts of a document from left to right, with the first form of a choice between forms, and
the flat one where the group around it decides. -/
def flatText : Doc → List Char
  | text content | note content => content.toList
  | concat items => flatTextOf items
  | indent contents | group _ contents | suffix contents => contents.flatText
  | alternatives _ (first :: _) => first.flatText
  | ifBreak _ flat => flat.flatText
  | alternatives _ [] | empty | softLine | line | hardLine | literalLine | breakParent => []

/-- The texts of documents, one after the other. -/
def flatTextOf : List Doc → List Char
  | [] => []
  | doc :: rest => doc.flatText ++ flatTextOf rest

end

@[simp] theorem flatTextOf_append (docs others : List Doc) :
    flatTextOf (docs ++ others) = flatTextOf docs ++ flatTextOf others := by
  induction docs with
  | nil => rfl
  | cons doc rest ih => simp [flatTextOf, ih]

@[simp] theorem flatText_cat (docs : List Doc) : (cat docs).flatText = flatTextOf docs := by
  match docs with
  | [] => rfl
  | [doc] => simp [cat, flatTextOf]
  | _ :: _ :: _ => rfl

@[simp] theorem flatText_indented (docs : List Doc) : (indented docs).flatText = flatTextOf docs :=
  flatText_cat docs

@[simp] theorem flatText_grouped (docs : List Doc) : (grouped docs).flatText = flatTextOf docs :=
  flatText_cat docs

end Doc

open Doc

/-- A text without its spaces. -/
def dropSpaces (text : List Char) : List Char :=
  text.filter (· ≠ ' ')

@[simp] theorem dropSpaces_append (text other : List Char) :
    dropSpaces (text ++ other) = dropSpaces text ++ dropSpaces other :=
  List.filter_append ..

/-- Parentheses are kept when spaces are dropped. Counterpart of `dropSpaces`. -/
theorem dropSpaces_parens (text : List Char) :
    dropSpaces ('(' :: (text ++ [')'])) = '(' :: (dropSpaces text ++ [')']) := by
  simp [dropSpaces]

/-- The text of an operand at a place. An operation is written as its left operand, the operator and
its right operand, with its parentheses around them; everything else as the formatter writes it. -/
def inOrder (context : Context) (place : Place) (node : Node) : List Char :=
  match _shape : node.shape with
  | .binary op left right =>
    let operation := inOrder context (Place.left op) left ++
      (op.text.toList ++ inOrder context (Place.right op) right)
    if node.inParens then '(' :: (operation ++ [')']) else operation
  | _ => (compile context place node).flatText
termination_by node.size
decreasing_by
  all_goals
    apply Node.size_lt_of_mem_children
    simp [Node.children, Shape.children, _shape]

/-- An operation has an operator and two operands. Counterpart of `Shape.isBinary`. -/
theorem Shape.exists_binary {shape : Shape Node} (h : shape.isBinary = true) :
    ∃ op left right, shape = .binary op left right := by
  cases shape with
  | binary op left right => exact ⟨op, left, right, rfl⟩
  | _ => cases h

section
variable {context : Context} {node left right : Node} {op : BinaryOp}

/-- The text of an operation is that of its operands with the operator between them, in its
parentheses. Counterpart of `inOrder`. -/
theorem inOrder_binary (place : Place) (hshape : node.shape = .binary op left right) :
    inOrder context place node =
      if node.inParens then
        '(' :: (inOrder context (Place.left op) left ++
          (op.text.toList ++ inOrder context (Place.right op) right) ++ [')'])
      else
        inOrder context (Place.left op) left ++
          (op.text.toList ++ inOrder context (Place.right op) right) := by
  rw [inOrder]
  split
  · rename_i op' left' right' hshape'
    obtain ⟨rfl, rfl, rfl⟩ : op = op' ∧ left = left' ∧ right = right' := by
      simpa [hshape] using hshape'
    rfl
  · rename_i hother
    exact absurd hshape (hother op left right)

/-- The text of anything else is what is written for it. Counterpart of `inOrder`. -/
theorem inOrder_operand (place : Place) (hshape : node.shape.isBinary = false) :
    inOrder context place node = (compile context place node).flatText := by
  rw [inOrder]
  split
  · rename_i op left right hbinary
    rw [hbinary] at hshape
    cases hshape
  · rfl

/-- The document of a chain has the texts of its parts. Counterpart of `chainDoc`. -/
theorem flatText_chainDoc (inParens isAlone : Bool) (parts : List Doc) :
    (chainDoc inParens isAlone parts).flatText = flatTextOf parts := by
  unfold chainDoc
  split
  · rfl
  · split
    · simp [flatTextOf, flatText]
    · cases parts <;> simp [flatTextOf, flatText]

/-- An operator is written before its right operand. Counterpart of `operationDoc`. -/
theorem flatText_operationDoc (isOwn : Bool) (op : BinaryOp) (last : Doc) :
    (operationDoc isOwn op last).flatText = op.text.toList ++ last.flatText := by
  cases isOwn <;> simp [operationDoc, flatTextOf, flatText]

/-- A space is dropped. Counterpart of `dropSpaces`. -/
theorem dropSpaces_space : dropSpaces (Doc.text " ").flatText = [] := by
  decide

/-- The operands of `..` down the right side stand in their order. Counterpart of `concatTail`. -/
theorem dropSpaces_concatTail (isOwn : Bool)
    (ih : ∀ place child, child.size ≤ node.size →
      dropSpaces (compile context place child).flatText =
      dropSpaces (inOrder context place child)) :
    dropSpaces (flatTextOf ((concatTail context node).1 ++
        [.text " ", operationDoc isOwn .concat (concatTail context node).2])) =
      dropSpaces (BinaryOp.concat.text.toList ++ inOrder context (Place.right .concat) node) := by
  have hwhole : dropSpaces (flatTextOf
        [.text " ", operationDoc isOwn .concat (compile context (Place.right .concat) node)]) =
      dropSpaces (BinaryOp.concat.text.toList ++ inOrder context (Place.right .concat) node) := by
    simp [dropSpaces_space, flatTextOf, flatText_operationDoc, ih _ node (Nat.le_refl _)]
  induction hn : node.size using Nat.strongRecOn generalizing node with
  | _ n hrec =>
  rw [concatTail]
  split
  · rename_i left right hshape
    split
    · exact hwhole
    · rename_i hplain
      simp only [Bool.or_eq_true, not_or, Bool.not_eq_true] at hplain
      obtain ⟨hleft, hright⟩ := Node.size_operands_lt hshape
      have htail :=
        hrec right.size (hn ▸ hright) (fun place child hchild => ih place child (by omega))
        (by simp [dropSpaces_space, flatTextOf, flatText_operationDoc, ih _ right (by omega)]) rfl
      have hoperand :
          dropSpaces (operationDoc false .concat
            (compile context (Place.left .concat) left)).flatText =
          dropSpaces (BinaryOp.concat.text.toList ++ inOrder context (Place.left .concat)
            left) := by
        rw [flatText_operationDoc, dropSpaces_append, ih _ left (by omega), dropSpaces_append]
      have horder : inOrder context (Place.right .concat) node =
          inOrder context (Place.left .concat) left ++
            (BinaryOp.concat.text.toList ++ inOrder context (Place.right .concat) right) := by
        rw [inOrder_binary _ hshape, hplain.1]
        rfl
      rw [List.cons_append, flatTextOf, dropSpaces_append, dropSpaces_space, List.nil_append,
        List.cons_append, flatTextOf, dropSpaces_append, htail, horder, ← List.append_assoc,
        dropSpaces_append (_ ++ _), ← hoperand]
      rfl
  · exact hwhole

/-- The parts of a chain are the left operand, the operator and the right operand in order, if this
holds for both operands. Counterpart of `chain`. -/
theorem dropSpaces_chain_of (hcontext : context.attachments = []) (parentLogical : Option Bool)
    (hshape : node.shape = .binary op left right)
    (ih : ∀ place child, child.size < node.size →
      dropSpaces (compile context place child).flatText =
      dropSpaces (inOrder context place child)) :
    dropSpaces (flatTextOf (chain context parentLogical node)) =
      dropSpaces (inOrder context (Place.left op) left ++
        (op.text.toList ++ inOrder context (Place.right op) right)) := by
  induction hn : node.size using Nat.strongRecOn generalizing node op left right parentLogical with
  | _ n hrec =>
  obtain ⟨hleft, hright⟩ := Node.size_operands_lt hshape
  rw [chain_binary parentLogical hshape, flatTextOf_append, dropSpaces_append, dropSpaces_append]
  congr 1
  · split
    · rename_i hcontinues
      obtain ⟨hflag, child, first, second, hchild⟩ := binary_of_continuesChain hcontinues
      have hparts := hrec left.size (hn ▸ hleft) (some op.isLogical) hchild
        (fun place child hchild => ih place child (by omega)) rfl
      rw [hasComments_eq_false hcontext, if_neg Bool.false_ne_true, inOrder_binary _ hchild, hflag]
      exact hparts
    · simpa [flatTextOf] using ih (Place.left op) left hleft
  · split
    · rename_i hconcat
      subst hconcat
      exact dropSpaces_concatTail _ fun place child hchild => ih place child (by omega)
    · simp [dropSpaces_space, flatTextOf, flatText_operationDoc, ih _ right hright]

/-- Without comments, an expression has the text of its operands in their order. Counterpart of
`compile`. -/
theorem dropSpaces_compile (hcontext : context.attachments = []) (place : Place) (node : Node) :
    dropSpaces (compile context place node).flatText = dropSpaces (inOrder context place node) := by
  induction hn : node.size using Nat.strongRecOn generalizing node place with
  | _ n hrec =>
  cases hbinary : node.shape.isBinary with
  | false => rw [inOrder_operand place hbinary]
  | true =>
    obtain ⟨op, left, right, hshape⟩ := Shape.exists_binary hbinary
    have hchain := dropSpaces_chain_of hcontext place.parentLogical hshape
      fun place child hchild => hrec child.size (hn ▸ hchild) place child rfl
    have hcore : (coreDoc context place node).flatText =
        flatTextOf (chain context place.parentLogical node) := by
      rw [← flatText_chainDoc node.inParens place.isAlone]
      simp [coreDoc, hshape]
    have hparens : needsParens place node = node.inParens := by simp [needsParens, hshape]
    rw [compile_eq, withComments_eq hcontext, hparens, inOrder_binary place hshape]
    split
    · have hparenthesised : (parenthesisedDoc node (coreDoc context place node)).flatText =
          '(' :: (flatTextOf (chain context place.parentLogical node) ++ [')']) := by
        simp [parenthesisedDoc, hshape, flatTextOf, flatText, hcore]
      rw [hparenthesised, dropSpaces_parens, hchain, dropSpaces_parens]
    · rw [hcore, hchain]

/-- The parts of a chain have the text of the operation in the order of the source: that of the left
operand, the operator and that of the right operand, where operands keep the parentheses they need.
Counterpart of `chain`. -/
theorem dropSpaces_chain {source : List Char} (h : (parse source).comments = []) (style : Style)
    (parentLogical : Option Bool) (hshape : node.shape = .binary op left right) :
    dropSpaces (flatTextOf (chain (.ofProgram (parse source) style) parentLogical node)) =
      dropSpaces (inOrder (.ofProgram (parse source) style) (Place.left op) left ++
        (op.text.toList ++ inOrder (.ofProgram (parse source) style) (Place.right op) right)) := by
  have hcontext : (Context.ofProgram (parse source) style).attachments = [] :=
    attachments_eq_nil h
  exact dropSpaces_chain_of hcontext parentLogical hshape
    fun place child _ => dropSpaces_compile hcontext place child

/-- A chain down the left side, which goes on down the right side of its last operator. -/
theorem dropSpaces_chain_mixed :
    (parse "x = (a .. b) .. c .. (d + e * f) .. g".toList).comments = [] ∧
      ∃ node ∈ (parse "x = (a .. b) .. c .. (d + e * f) .. g".toList).root.preorder,
        ∃ op left right, node.shape = .binary op left right ∧
          dropSpaces (flatTextOf (chain
            (.ofProgram (parse "x = (a .. b) .. c .. (d + e * f) .. g".toList) {}) none node)) =
          dropSpaces (inOrder
            (.ofProgram (parse "x = (a .. b) .. c .. (d + e * f) .. g".toList) {}) (Place.left op)
              left ++ (op.text.toList ++ inOrder
            (.ofProgram (parse "x = (a .. b) .. c .. (d + e * f) .. g".toList) {}) (Place.right op)
              right)) := by
  have hcomments : (parse "x = (a .. b) .. c .. (d + e * f) .. g".toList).comments = [] := by
    decide +kernel
  have hbinary : ∃ node ∈ (parse "x = (a .. b) .. c .. (d + e * f) .. g".toList).root.preorder,
      node.shape.isBinary = true := by
    decide +kernel
  obtain ⟨node, hmem, hbinary⟩ := hbinary
  obtain ⟨op, left, right, hshape⟩ := Shape.exists_binary hbinary
  exact ⟨hcomments, node, hmem, op, left, right, hshape, dropSpaces_chain hcomments {} none hshape⟩

example :
    ((parse "x = (a .. b) .. c .. (d + e * f) .. g".toList).root.preorder.filter
      (·.shape.isBinary)).map (fun node => dropSpaces (inOrder
        (.ofProgram (parse "x = (a .. b) .. c .. (d + e * f) .. g".toList) {}) {} node)) =
      ["(a..b)..c..(d+e*f)..g".toList, "(a..b)".toList, "c..(d+e*f)..g".toList,
        "(d+e*f)..g".toList, "(d+e*f)".toList, "e*f".toList] := by
  decide +kernel

end

end LuaFormatter
