import LuaFormatter.Format.Place
import LuaFormatter.Proofs.Tree.Nodes

/-!
# The parentheses that are kept

`Node.kept` is the tree as it is written: the same nodes, with only those parentheses that are
needed where each node stands. The walk down this tree meets the numbers of the source's tree in the
same order (`numbers_kept`), so that nodes of the two trees belong together by their numbers. Where
all values of an expression are used, a call keeps its parentheses, which cut its values down to one
(`lastValue?_ne_of_dropped`).
-/

namespace LuaFormatter

namespace Node

mutual

/-- The node at a place, with the parentheses around it and in it that are needed. Every part stands
at the place for which `compile` writes it. -/
def kept (place : Place) : Node → Node
  | mk number shape span inParens =>
    mk number (shapeKept place shape) span (needsParens place (mk number shape span inParens))

/-- The parts of a shape, each at its place. -/
@[simp] def shapeKept (place : Place) : Shape Node → Shape Node
  | .chunk body => .chunk (listKept (fun _ => {}) body)
  | .localVariables names values =>
    .localVariables (listKept (fun _ => {}) names) (listKept (Place.value values.length) values)
  | .assignment targets values =>
    .assignment (listKept (fun _ => {}) targets) (listKept (Place.value values.length) values)
  | .callStatement expression => .callStatement (kept {} expression)
  | .function isLocal name parameters body =>
    .function isLocal (optionKept name) (listKept (fun _ => {}) parameters)
      (listKept (fun _ => {}) body)
  | .conditional clauses => .conditional (listKept (fun _ => {}) clauses)
  | .clause kind condition body =>
    .clause kind (optionKept condition) (listKept (fun _ => {}) body)
  | .whileLoop condition body => .whileLoop (kept {} condition) (listKept (fun _ => {}) body)
  | .doBlock body => .doBlock (listKept (fun _ => {}) body)
  | .repeatLoop body condition => .repeatLoop (listKept (fun _ => {}) body) (kept {} condition)
  | .numericFor counter first last step body =>
    .numericFor (kept {} counter) (kept {} first) (kept {} last) (optionKept step)
      (listKept (fun _ => {}) body)
  | .genericFor names iterators body =>
    .genericFor (listKept (fun _ => {}) names)
      (listKept (Place.argument iterators.length) iterators) (listKept (fun _ => {}) body)
  | .returnStatement values => .returnStatement (listKept (Place.value values.length) values)
  | .breakStatement => .breakStatement
  | .gotoStatement label => .gotoStatement (kept {} label)
  | .labelStatement label => .labelStatement (kept {} label)
  | .identifier name => .identifier name
  | .literal kind text => .literal kind text
  | .table fields => .table (listKept (Place.argument fields.length) fields)
  | .keyField key value => .keyField (kept Place.field key) (kept Place.field value)
  | .nameField name value => .nameField (kept {} name) (kept Place.field value)
  | .valueField value =>
    .valueField (kept { Place.field with keepsValues := place.keepsValues } value)
  | .binary op left right => .binary op (kept (Place.left op) left) (kept (Place.right op) right)
  | .unary op operand => .unary op (kept {} operand)
  | .member indexer base name => .member indexer (kept Place.base base) (kept {} name)
  | .index base key => .index (kept Place.base base) (kept {} key)
  | .call base arguments =>
    .call (kept Place.base base) (listKept (Place.argument arguments.length) arguments)
  | .tableCall base argument => .tableCall (kept Place.base base) (kept {} argument)
  | .stringCall base argument => .stringCall (kept Place.base base) (kept {} argument)
  | .invalid => .invalid

/-- Nodes of a list, each at the place of its index. -/
@[simp] def listKept (place : Nat → Place) : List Node → List Node
  | [] => []
  | node :: rest => kept (place 0) node :: listKept (fun index => place (index + 1)) rest

/-- A node that may be missing, at a place where nothing special holds. -/
@[simp] def optionKept : Option Node → Option Node
  | none => none
  | some node => some (kept {} node)

end

section
variable (place : Place) (node : Node)

@[simp] theorem number_kept : (node.kept place).number = node.number := by
  cases node
  rfl

@[simp] theorem shape_kept : (node.kept place).shape = shapeKept place node.shape := by
  cases node
  rfl

@[simp] theorem inParens_kept : (node.kept place).inParens = needsParens place node := by
  cases node
  rfl

/-- Without parentheses in the source there are none to be kept. Counterpart of `Node.kept`. -/
@[simp] theorem kept_open (number : Nat) (shape : Shape Node) (span : Span) :
    (mk number shape span false).kept place = mk number (shapeKept place shape) span false :=
  rfl

end

/-- A call stays a call. Counterpart of `shapeKept`. -/
theorem isCall_shapeKept (place : Place) (shape : Shape Node) :
    (shapeKept place shape).isCall = shape.isCall := by
  cases shape <;> rfl

@[simp] theorem isEmpty_listKept (place : Nat → Place) (nodes : List Node) :
    (listKept place nodes).isEmpty = nodes.isEmpty := by
  cases nodes <;> rfl

/-- No node of a list is lost. Counterpart of `listKept`. -/
theorem listKept_ne_nil {place : Nat → Place} {nodes : List Node} (h : nodes ≠ []) :
    listKept place nodes ≠ [] := by
  cases nodes with
  | nil => exact absurd rfl h
  | cons => exact List.cons_ne_nil _ _

/-! ## The same nodes -/

/-- The nodes of the second list are those of the first, each at some place. -/
abbrev KeptAs : List Node → List Node → Prop :=
  List.Forall₂ fun node other => ∃ place, other = kept place node

/-- The nodes of a list are kept, each at its place. Counterpart of `KeptAs`. -/
theorem keptAs_listKept (nodes : List Node) (place : Nat → Place) :
    KeptAs nodes (listKept place nodes) := by
  induction nodes generalizing place with
  | nil => exact .nil
  | cons node rest ih => exact .cons ⟨_, rfl⟩ (ih _)

/-- A node that may be missing is kept. Counterpart of `KeptAs`. -/
theorem keptAs_optionKept (node : Option Node) : KeptAs node.toList (optionKept node).toList := by
  cases node with
  | none => exact .nil
  | some node => exact .cons ⟨_, rfl⟩ .nil

/-- Each node of a list is kept at some place. Counterpart of `KeptAs`. -/
theorem KeptAs.exists_of_mem {nodes others : List Node} (h : KeptAs nodes others) {node : Node}
    (hnode : node ∈ nodes) : ∃ written ∈ others, ∃ place, written = kept place node := by
  induction h with
  | nil => cases hnode
  | @cons first other nodes others hfirst _ ih =>
    rcases List.mem_cons.1 hnode with rfl | hnode
    · exact ⟨other, List.mem_cons_self, hfirst⟩
    · obtain ⟨written, hmem, hwritten⟩ := ih hnode
      exact ⟨written, List.mem_cons_of_mem _ hmem, hwritten⟩

/-- A node has the parts that it had, each at some place. Counterpart of `KeptAs`. -/
theorem keptAs_children (place : Place) (node : Node) :
    KeptAs node.children (node.kept place).children := by
  have hone : ∀ (place : Place) (node : Node), KeptAs [node] [kept place node] :=
    fun place node => .cons ⟨place, rfl⟩ .nil
  have happend : ∀ {front front' back back' : List Node}, KeptAs front front' → KeptAs back back' →
      KeptAs (front ++ back) (front' ++ back') := fun h h' => List.rel_append h h'
  rw [children, children, shape_kept]
  cases node.shape with
  | chunk | doBlock | conditional | returnStatement | table => exact keptAs_listKept _ _
  | localVariables | assignment => exact happend (keptAs_listKept _ _) (keptAs_listKept _ _)
  | callStatement | gotoStatement | labelStatement | valueField | unary => exact hone _ _
  | function =>
    exact happend (happend (keptAs_optionKept _) (keptAs_listKept _ _)) (keptAs_listKept _ _)
  | clause => exact happend (keptAs_optionKept _) (keptAs_listKept _ _)
  | whileLoop | call => exact .cons ⟨_, rfl⟩ (keptAs_listKept _ _)
  | repeatLoop => exact happend (keptAs_listKept _ _) (hone _ _)
  | numericFor =>
    exact happend (happend (.cons ⟨_, rfl⟩ (.cons ⟨_, rfl⟩ (hone _ _))) (keptAs_optionKept _))
      (keptAs_listKept _ _)
  | genericFor =>
    exact happend (happend (keptAs_listKept _ _) (keptAs_listKept _ _)) (keptAs_listKept _ _)
  | keyField | nameField | binary | member | index | tableCall | stringCall =>
    exact .cons ⟨_, rfl⟩ (hone _ _)
  | breakStatement | identifier | literal | invalid => exact .nil

/-- The walk down the tree that is written meets the same numbers. Counterpart of `Node.kept`. -/
theorem numbers_kept (place : Place) (node : Node) :
    (node.kept place).preorder.map number = node.preorder.map number := by
  induction hsize : node.size using Nat.strongRecOn generalizing place node with
  | ind size ih =>
    rw [preorder_eq, preorder_eq, List.map_cons, List.map_cons, number_kept, List.map_flatMap,
      List.map_flatMap]
    have hparts : ∀ {nodes others : List Node}, KeptAs nodes others →
        (∀ child ∈ nodes, child.size < size) →
        others.flatMap (fun child => child.preorder.map number) =
          nodes.flatMap fun child => child.preorder.map number := by
      intro nodes others h
      induction h with
      | nil => exact fun _ => rfl
      | @cons child other nodes others hchild _ ihrest =>
        obtain ⟨place, rfl⟩ := hchild
        intro hsmaller
        rw [List.flatMap_cons, List.flatMap_cons, ih _ (hsmaller child (by simp)) place child rfl,
          ihrest fun child hmem => hsmaller child (List.mem_cons_of_mem _ hmem)]
    rw [hparts (keptAs_children place node) fun child hchild =>
      hsize ▸ size_lt_of_mem_children hchild]

/-- Every part of a tree is a part of the tree that is written, at some place. Counterpart of
`Node.kept`. -/
theorem Part.exists_kept {part node : Node} (h : part.Part node) (place : Place) :
    ∃ other, (part.kept other).Part (node.kept place) := by
  induction h generalizing place with
  | self => exact ⟨place, .self _⟩
  | @child child node hchild hpart ih =>
    obtain ⟨_, hmem, other, rfl⟩ := (keptAs_children place node).exists_of_mem hchild
    obtain ⟨inner, hinner⟩ := ih other
    exact ⟨inner, .child hmem hinner⟩

end Node

/-! ## Values -/

/-- The shape gives any number of values, of which parentheses leave one. -/
def Shape.givesValues {α : Type} : Shape α → Bool
  | literal .vararg _ | call _ _ | tableCall _ _ | stringCall _ _ => true
  | _ => false

/-- The last expression of a list in which all of its values are used. In a table it is the value of
the last field, if that has no key. -/
def Shape.lastValue? : Shape Node → Option Node
  | localVariables _ values | assignment _ values | returnStatement values => values.getLast?
  | call _ arguments => arguments.getLast?
  | genericFor _ iterators _ => iterators.getLast?
  | table fields =>
    fields.getLast?.bind fun field =>
      match field.shape with
      | .valueField value => some value
      | _ => none
  | _ => none

namespace Node

/-- The last node of a list is kept at the last place. Counterpart of `listKept`. -/
theorem mem_listKept_of_getLast? {nodes : List Node} {node : Node} (h : nodes.getLast? = some node)
    (place : Nat → Place) : node.kept (place (nodes.length - 1)) ∈ listKept place nodes := by
  induction nodes generalizing place with
  | nil => cases h
  | cons first rest ih =>
    cases rest with
    | nil =>
      cases h
      exact List.mem_cons_self
    | cons next rest =>
      rw [List.getLast?_cons_cons] at h
      exact List.mem_cons_of_mem _ (ih h fun index => place (index + 1))

/-- The last of a list of values is kept at a place where all of its values are used. Counterpart of
`Shape.lastValue?`. -/
theorem exists_kept_of_lastValue {parent value : Node} (h : parent.shape.lastValue? = some value)
    (place : Place) :
    ∃ other, other.keepsValues = true ∧ (value.kept other).Part (parent.kept place) := by
  -- The last index of a list is that at which the values are used.
  have hlast : ∀ {nodes : List Node} {node : Node} (places : Nat → Nat → Place),
      (∀ length index, (places length index).keepsValues = decide (index + 1 = length)) →
      nodes.getLast? = some node →
      ∃ other, other.keepsValues = true ∧
      node.kept other ∈ listKept (places nodes.length) nodes := by
    intro nodes node places hplaces hnode
    refine ⟨_, ?_, mem_listKept_of_getLast? hnode _⟩
    have hlength := List.length_pos_of_mem (List.mem_of_getLast? hnode)
    rw [hplaces, decide_eq_true_iff]
    omega
  have hpart : ∀ {other : Place} {nodes : List Node}, value.kept other ∈ nodes →
      nodes ⊆ (parent.kept place).children → (value.kept other).Part (parent.kept place) :=
    fun hmem hsub => .of_mem_children (hsub hmem)
  cases hshape : parent.shape with
  | localVariables names values | assignment names values =>
    rw [hshape] at h
    obtain ⟨other, hkeeps, hmem⟩ := hlast Place.value (fun _ _ => rfl) h
    exact ⟨other, hkeeps, hpart hmem (by simp [children, hshape, Shape.children])⟩
  | returnStatement values =>
    rw [hshape] at h
    obtain ⟨other, hkeeps, hmem⟩ := hlast Place.value (fun _ _ => rfl) h
    exact ⟨other, hkeeps, hpart hmem (by simp [children, hshape, Shape.children])⟩
  | call base arguments =>
    rw [hshape] at h
    obtain ⟨other, hkeeps, hmem⟩ := hlast Place.argument (fun _ _ => rfl) h
    exact ⟨other, hkeeps, hpart hmem (by simp [children, hshape, Shape.children])⟩
  | genericFor names iterators body =>
    rw [hshape] at h
    obtain ⟨other, hkeeps, hmem⟩ := hlast Place.argument (fun _ _ => rfl) h
    refine ⟨other, hkeeps, hpart hmem fun node hnode => ?_⟩
    simp [children, hshape, Shape.children, hnode]
  | table fields =>
    rw [hshape] at h
    obtain ⟨field, hfield, hvalue⟩ := Option.bind_eq_some_iff.1 h
    obtain ⟨fieldPlace, hkeeps, hmem⟩ := hlast Place.argument (fun _ _ => rfl) hfield
    obtain ⟨other, hother, hinner⟩ : ∃ other, other.keepsValues = true ∧
        value.kept other ∈ (field.kept fieldPlace).children := by
      cases hfieldShape : field.shape with
      | valueField inner =>
        rw [hfieldShape] at hvalue
        cases hvalue
        exact ⟨{ Place.field with keepsValues := fieldPlace.keepsValues }, hkeeps,
          by simp [children, hfieldShape, Shape.children]⟩
      | _ =>
        rw [hfieldShape] at hvalue
        cases hvalue
    exact ⟨other, hother, .child (by simpa [children, hshape, Shape.children] using hmem)
      (.of_mem_children hinner)⟩
  | _ =>
    rw [hshape] at h
    cases h

/-- Where all of its values are used, an expression that has parentheses keeps them if it gives any
number of values. Counterpart of `needsParens`. -/
theorem needsParens_of_keepsValues {place : Place} {node : Node} (hplace : place.keepsValues = true)
    (hvalues : node.shape.givesValues = true) (hparens : node.inParens = true) :
    needsParens place node = true := by
  rw [needsParens, hparens]
  cases hshape : node.shape with
  | literal kind text => cases kind <;> simp_all [Shape.givesValues]
  | call | tableCall | stringCall => simp [hplace]
  | _ => simp [hshape, Shape.givesValues] at hvalues

end Node

section
variable {source : List Char}

/-- No two nodes of the tree that is written have the same number. Counterpart of `Node.kept`. -/
theorem eq_of_number_eq_kept {node other : Node} (hnode : node.Part ((parse source).root.kept {}))
    (hother : other.Part ((parse source).root.kept {})) (hnumber : node.number = other.number) :
    node = other := by
  have hnodup := (preorder_numbers source).nodup_iff.2 List.nodup_range
  rw [← Node.numbers_kept {}] at hnodup
  exact List.inj_on_of_nodup_map hnodup (Node.mem_preorder.2 hnode)
    (Node.mem_preorder.2 hother) hnumber

/-- An expression that gives any number of values and loses its parentheses is not the last of a
list in which all of them are used. Counterpart of `needsParens`. -/
theorem lastValue?_ne_of_dropped {node written parent : Node}
    (hwritten : written.Part ((parse source).root.kept {})) (hnumber : written.number = node.number)
    (hvalues : node.shape.givesValues = true) (hparens : node.inParens = true)
    (hdropped : written.inParens = false) (hparent : parent.Part (parse source).root) :
    parent.shape.lastValue? ≠ some node := by
  intro hlast
  obtain ⟨place, hplace⟩ := hparent.exists_kept {}
  obtain ⟨other, hkeeps, hpart⟩ := Node.exists_kept_of_lastValue hlast place
  have heq : written = node.kept other :=
    eq_of_number_eq_kept hwritten (hpart.trans hplace) (by rw [hnumber, Node.number_kept])
  rw [heq, Node.inParens_kept, Node.needsParens_of_keepsValues hkeeps hvalues hparens] at hdropped
  cases hdropped

end

end LuaFormatter
