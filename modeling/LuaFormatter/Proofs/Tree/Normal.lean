import LuaFormatter.Format.Boundary
import LuaFormatter.Proofs.Grammar.Yield
import LuaFormatter.Proofs.Spelling.Literal

/-!
# Normal forms of trees

Two trees are compared without the numbers and the places of their nodes. A `View` says what else
does not count: which texts of literals are the same, and whether a field with a quoted name for its
key is the same as a field with the name. `Node.normal` brings a tree into the form that is left,
and what the grammar asks of operands, bases and targets can be told from it.
-/

namespace LuaFormatter

/-- What is looked at when two trees are compared. -/
structure View where
  /-- What is looked at of the text of a literal. -/
  text : LiteralKind → String → String
  /-- A key that is looked at as a name is the same as the name. -/
  namesKeys : Bool

namespace View

/-- Literals are looked at for what they mean: strings without their quotes and without the
backslashes of escaped quotes, and line breaks as line feeds. -/
def meaning : View where
  text
    | .string, text => String.ofList (decodeQuotes (literalContent (unifyBreaks text.toList)))
    | .longString, text => String.ofList (unifyBreaks text.toList)
    | _, text => text
  namesKeys := true

/-- The name that a key is looked at as. -/
def keyName? (view : View) (key : Node) : Option String :=
  match key.shape with
  | .literal .string text => if view.namesKeys && isName text then some text else none
  | _ => none

end View

namespace Node

/-- A node that is known by its shape alone. -/
abbrev ofForm (shape : Shape Node) : Node :=
  mk 0 shape ⟨0, 0⟩ false

/-- A field with a key, both in normal form. -/
def fieldShape (view : View) (key value : Node) : Shape Node :=
  match view.keyName? key with
  | some name => .nameField (ofForm (.identifier name)) value
  | none => .keyField key value

mutual

/-- A tree without what a view does not look at. -/
def normal (view : View) : Node → Node
  | mk _ shape _ inParens => mk 0 (shapeNormal view shape) ⟨0, 0⟩ inParens

/-- A shape with its parts in normal form. -/
def shapeNormal (view : View) : Shape Node → Shape Node
  | .chunk body => .chunk (listNormal view body)
  | .localVariables names values => .localVariables (listNormal view names) (listNormal view values)
  | .assignment targets values => .assignment (listNormal view targets) (listNormal view values)
  | .callStatement expression => .callStatement (normal view expression)
  | .function isLocal name parameters body =>
    .function isLocal (optionNormal view name) (listNormal view parameters) (listNormal view body)
  | .conditional clauses => .conditional (listNormal view clauses)
  | .clause kind condition body => .clause kind (optionNormal view condition) (listNormal view body)
  | .whileLoop condition body => .whileLoop (normal view condition) (listNormal view body)
  | .doBlock body => .doBlock (listNormal view body)
  | .repeatLoop body condition => .repeatLoop (listNormal view body) (normal view condition)
  | .numericFor counter first last step body =>
    .numericFor (normal view counter) (normal view first) (normal view last)
    (optionNormal view step) (listNormal view body)
  | .genericFor names iterators body =>
    .genericFor (listNormal view names) (listNormal view iterators) (listNormal view body)
  | .returnStatement values => .returnStatement (listNormal view values)
  | .breakStatement => .breakStatement
  | .gotoStatement label => .gotoStatement (normal view label)
  | .labelStatement label => .labelStatement (normal view label)
  | .identifier name => .identifier name
  | .literal kind text => .literal kind (view.text kind text)
  | .table fields => .table (listNormal view fields)
  | .keyField key value => fieldShape view (normal view key) (normal view value)
  | .nameField name value => .nameField (normal view name) (normal view value)
  | .valueField value => .valueField (normal view value)
  | .binary op left right => .binary op (normal view left) (normal view right)
  | .unary op operand => .unary op (normal view operand)
  | .member indexer base name => .member indexer (normal view base) (normal view name)
  | .index base key => .index (normal view base) (normal view key)
  | .call base arguments => .call (normal view base) (listNormal view arguments)
  | .tableCall base argument => .tableCall (normal view base) (normal view argument)
  | .stringCall base argument => .stringCall (normal view base) (normal view argument)
  | .invalid => .invalid

/-- The nodes of a list in normal form. -/
def listNormal (view : View) : List Node → List Node
  | [] => []
  | node :: rest => normal view node :: listNormal view rest

/-- A node that may be missing in normal form. -/
def optionNormal (view : View) : Option Node → Option Node
  | none => none
  | some node => some (normal view node)

end

section
variable {view : View} {limit priority : Nat}

/-- The normal form of a node is that of its shape, without a number and a place. Counterpart of
`Node.normal`. -/
theorem normal_mk (number : Nat) (shape : Shape Node) (span : Span) (inParens : Bool) :
    (mk number shape span inParens).normal view = mk 0 (shapeNormal view shape) ⟨0, 0⟩ inParens :=
  rfl

/-- The normal form of a field with a key, which may be a name. Counterpart of `fieldShape`. -/
theorem shapeNormal_keyField (key value : Node) :
    shapeNormal view (.keyField key value) = fieldShape view (key.normal view)
      (value.normal view) :=
  rfl

@[simp] theorem listNormal_cons (node : Node) (rest : List Node) :
    listNormal view (node :: rest) = node.normal view :: listNormal view rest :=
  rfl

@[simp] theorem shape_normal (node : Node) :
    (node.normal view).shape = shapeNormal view node.shape := by
  cases node
  rfl

@[simp] theorem inParens_normal (node : Node) : (node.normal view).inParens = node.inParens := by
  cases node
  rfl

/-- A form is that of a field with a key or with a name. Counterpart of `fieldShape`. -/
theorem fieldShape_cases (view : View) (key value : Node) :
    fieldShape view key value = .keyField key value ∨
      ∃ name, fieldShape view key value = .nameField name value := by
  unfold fieldShape
  split
  · exact .inr ⟨_, rfl⟩
  · exact .inl rfl

/-- Whether a node can be a base is seen of its normal form. Counterpart of `Node.canBeBase`. -/
theorem canBeBase_normal (node : Node) : (node.normal view).canBeBase = node.canBeBase := by
  rw [canBeBase, canBeBase, inParens_normal, shape_normal]
  cases node.shape with
  | member indexer base name => cases indexer <;> rfl
  | keyField key value =>
    rcases fieldShape_cases view (key.normal view) (value.normal view) with h | ⟨name, h⟩ <;>
      rw [shapeNormal_keyField, h]
  | _ => rfl

/-- Whether a node can be assigned to is seen of its normal form. Counterpart of
`Parser.isTarget`. -/
theorem isTarget_normal (node : Node) :
    Parser.isTarget (node.normal view) = Parser.isTarget node := by
  rw [Parser.isTarget, Parser.isTarget, shape_normal]
  cases node.shape with
  | member indexer base name => cases indexer <;> rfl
  | keyField key value =>
    rcases fieldShape_cases view (key.normal view) (value.normal view) with h | ⟨name, h⟩ <;>
      rw [shapeNormal_keyField, h]
  | _ => rfl

/-- Targets are targets in normal form. Counterpart of the condition of `Derives.assignment`. -/
theorem targets_listNormal {targets : List Node}
    (h : ∀ target ∈ targets, target.canBeBase = true ∧ Parser.isTarget target = true) :
    ∀ target ∈ listNormal view targets, target.canBeBase = true ∧
      Parser.isTarget target = true := by
  induction targets with
  | nil => exact List.forall_mem_nil _
  | cons target rest ih =>
    obtain ⟨htarget, hrest⟩ := List.forall_mem_cons.1 h
    refine List.forall_mem_cons.2 ⟨?_, ih hrest⟩
    rwa [canBeBase_normal, isTarget_normal]

/-- Whether a shape is a call is seen of its normal form. Counterpart of `Shape.isCall`. -/
theorem isCall_normal (shape : Shape Node) : (shapeNormal view shape).isCall = shape.isCall := by
  cases shape with
  | keyField key value =>
    rcases fieldShape_cases view (key.normal view) (value.normal view) with h | ⟨name, h⟩ <;>
      rw [shapeNormal_keyField, h] <;> rfl
  | _ => rfl

/-- Whether arguments after a node call it is seen of its normal form. Counterpart of
`Node.isCallable`. -/
theorem isCallable_normal (node : Node) : (node.normal view).isCallable = node.isCallable := by
  rw [isCallable, isCallable, inParens_normal, shape_normal]
  cases node.shape with
  | keyField key value =>
    rcases fieldShape_cases view (key.normal view) (value.normal view) with h | ⟨name, h⟩ <;>
      rw [shapeNormal_keyField, h]
  | _ => rfl

/-- Whether a tree climbs above a limit is seen of its normal form. Counterpart of `Node.Above`. -/
theorem above_normal : ∀ node : Node, (node.normal view).Above limit ↔ node.Above limit
  | mk _ shape _ inParens => by
    rw [normal_mk]
    cases shape with
    | binary op left right =>
      cases inParens with
      | true => exact .rfl
      | false => exact and_congr .rfl left.above_normal
    | keyField key value =>
      rcases fieldShape_cases view (key.normal view) (value.normal view) with h | ⟨name, h⟩ <;>
        rw [shapeNormal_keyField, h] <;> exact .rfl
    | _ => exact .rfl

/-- Whether a tree ends below a priority is seen of its normal form. Counterpart of `Node.Below`. -/
theorem below_normal : ∀ node : Node, (node.normal view).Below priority ↔ node.Below priority
  | mk _ shape _ inParens => by
    rw [normal_mk]
    cases shape with
    | binary op left right =>
      cases inParens with
      | true => exact .rfl
      | false => exact and_congr .rfl right.below_normal
    | unary op operand =>
      cases inParens with
      | true => exact .rfl
      | false => exact and_congr .rfl operand.below_normal
    | keyField key value =>
      rcases fieldShape_cases view (key.normal view) (value.normal view) with h | ⟨name, h⟩ <;>
        rw [shapeNormal_keyField, h] <;> exact .rfl
    | _ => exact .rfl

/-- The normal form of a node of a list is in the normal form of the list. Counterpart of
`listNormal`. -/
theorem mem_listNormal (view : View) {node : Node} {nodes : List Node} (h : node ∈ nodes) :
    node.normal view ∈ listNormal view nodes := by
  induction nodes with
  | nil => cases h
  | cons first rest ih =>
    rcases List.mem_cons.1 h with rfl | h
    · exact List.mem_cons_self
    · exact List.mem_cons_of_mem _ (ih h)

/-- The last node of a list in normal form. Counterpart of `listNormal`. -/
theorem getLast?_listNormal (nodes : List Node) :
    (listNormal view nodes).getLast? = nodes.getLast?.map (normal view) := by
  induction nodes with
  | nil => rfl
  | cons node rest ih =>
    rw [listNormal_cons, List.getLast?_cons, List.getLast?_cons, ih]
    cases rest with
    | nil => rfl
    | cons next rest => simp [List.getLast?_cons]

/-- The rightmost part of a node in normal form. Counterpart of `Node.rightmost`. -/
theorem rightmost_normal (node : Node) :
    (node.normal view).rightmost = node.rightmost.normal view := by
  induction hn : node.size using Nat.strongRecOn generalizing node with
  | _ n ih =>
  obtain ⟨number, shape, span, inParens⟩ := node
  have hchild : ∀ child ∈ shape.children, child.size < n := fun child hmem =>
    hn ▸ @Node.size_lt_of_mem_children (mk number shape span inParens) child hmem
  rw [rightmost, inParens_normal]
  split
  · rename_i hparens
    rw [rightmost, if_pos hparens]
  · rename_i hparens
    rw [rightmost, if_neg hparens]
    cases shape with
    | binary op left right =>
      exact ih right.size (hchild right (by simp [Shape.children])) right rfl
    | unary op operand =>
      exact ih operand.size (hchild operand (by simp [Shape.children])) operand rfl
    | keyField key value =>
      rcases fieldShape_cases view (key.normal view) (value.normal view) with h | ⟨name, h⟩ <;>
        simp [shapeNormal_keyField, h]
    | _ => rfl

/-- What a statement ends with is told from its normal form. Counterpart of
`Node.lastExpression?`. -/
theorem isCallable_lastExpression?_normal (statement : Node) :
    (statement.normal view).lastExpression?.any isCallable =
      statement.lastExpression?.any isCallable := by
  rw [lastExpression?, lastExpression?, shape_normal]
  cases statement.shape with
  | localVariables names values | assignment names values =>
    simp only [shapeNormal, getLast?_listNormal]
    cases values.getLast? <;> simp [rightmost_normal, isCallable_normal]
  | callStatement expression | repeatLoop body expression =>
    simp [shapeNormal, rightmost_normal, isCallable_normal]
  | keyField key value =>
    rcases fieldShape_cases view (key.normal view) (value.normal view) with h | ⟨name, h⟩ <;>
      rw [shapeNormal_keyField, h]
  | _ => rfl

end

end Node

end LuaFormatter
