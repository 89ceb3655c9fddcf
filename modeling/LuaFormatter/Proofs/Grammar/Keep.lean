import LuaFormatter.Proofs.Grammar.Priority
import LuaFormatter.Proofs.Tree.Kept
import LuaFormatter.Proofs.Tree.Words

/-!
# Dropping parentheses

The tree that is written, with only those parentheses that are needed, is read back from its words.
Three things could go wrong where parentheses are gone. Operators could group in another way: but an
operation between two operands keeps its parentheses, and so does one with a single operand on the
left of a power, so the tree stays well parenthesised (`Node.WellParenthesised.kept`). What is
accessed or called could be none that may be: but all others keep their parentheses there
(`Node.canBeBase_kept`). And a statement could go on into a parenthesis at the start of the next:
but there is a semicolon. With this each rule that read nodes reads them back as they are kept
(`Derives.keeps`).
-/

namespace LuaFormatter

/-! ## Trees of one form -/

namespace Node

variable {limit priority : Nat}

/-- Whether a tree climbs above a limit does not depend on positions and numbers. Counterpart of
`Node.Above`. -/
theorem above_skeleton : ∀ node : Node,
    (node.skeleton (fun _ => false) false).Above limit ↔ node.Above limit
  | mk _ shape _ inParens => by
    rw [skeleton]
    cases shape with
    | binary op left right =>
      cases inParens with
      | true => exact .rfl
      | false => exact and_congr .rfl left.above_skeleton
    | _ => exact .rfl

/-- Whether a tree ends below a priority does not depend on positions and numbers. Counterpart of
`Node.Below`. -/
theorem below_skeleton : ∀ node : Node,
    (node.skeleton (fun _ => false) false).Below priority ↔ node.Below priority
  | mk _ shape _ inParens => by
    rw [skeleton]
    cases shape with
    | binary op left right =>
      cases inParens with
      | true => exact .rfl
      | false => exact and_congr .rfl right.below_skeleton
    | unary op operand =>
      cases inParens with
      | true => exact .rfl
      | false => exact and_congr .rfl operand.below_skeleton
    | _ => exact .rfl

/-- Whether a node can be a base does not depend on positions and numbers. Counterpart of
`Node.canBeBase`. -/
theorem canBeBase_skeleton (node : Node) :
    (node.skeleton (fun _ => false) false).canBeBase = node.canBeBase := by
  rw [canBeBase, canBeBase, inParens_skeleton, shape_skeleton]
  cases node.shape with
  | member indexer base name => cases indexer <;> rfl
  | _ => rfl

/-- Whether a node can be assigned to does not depend on positions and numbers. Counterpart of
`Parser.isTarget`. -/
theorem isTarget_skeleton (node : Node) :
    Parser.isTarget (node.skeleton (fun _ => false) false) = Parser.isTarget node := by
  rw [Parser.isTarget, Parser.isTarget, shape_skeleton]
  cases node.shape with
  | member indexer base name => cases indexer <;> rfl
  | _ => rfl

end Node

section
variable {node other : Node} {nodes others : List Node} {shape shape' : Shape Node}

/-- Trees of one form climb above the same limits. Counterpart of `Node.Above`. -/
theorem SameForm.above {limit : Nat} (h : SameForm node other) (hother : other.Above limit) :
    node.Above limit := by
  rwa [← Node.above_skeleton, h, Node.above_skeleton]

/-- Trees of one form end below the same priorities. Counterpart of `Node.Below`. -/
theorem SameForm.below {priority : Nat} (h : SameForm node other) (hother : other.Below priority) :
    node.Below priority := by
  rwa [← Node.below_skeleton, h, Node.below_skeleton]

/-- Of two trees of one form both can be bases. Counterpart of `Node.canBeBase`. -/
theorem SameForm.canBeBase (h : SameForm node other) (hother : other.canBeBase = true) :
    node.canBeBase = true := by
  rwa [← Node.canBeBase_skeleton, h, Node.canBeBase_skeleton]

/-- Of two trees of one form both can be assigned to. Counterpart of `Parser.isTarget`. -/
theorem SameForm.isTarget (h : SameForm node other) (hother : Parser.isTarget other = true) :
    Parser.isTarget node = true := by
  rwa [← Node.isTarget_skeleton, h, Node.isTarget_skeleton]

/-- Nodes of one shape without parentheses are of one form. Counterpart of `SameForm`. -/
theorem SameShape.sameForm (h : SameShape shape shape') (number number' : Nat) (span span' : Span) :
    SameForm ⟨number, shape, span, false⟩ ⟨number', shape', span', false⟩ := by
  rw [SameForm, Node.skeleton, Node.skeleton, h]

/-- A list with the form of one node is one node of that form. Counterpart of `SameForms`. -/
theorem SameForms.exists_single (h : SameForms others [node]) :
    ∃ other, others = [other] ∧ SameForm other node := by
  cases others with
  | nil => cases h
  | cons other rest =>
    simp only [SameForms, Node.listSkeleton, Bool.and_false, List.cons.injEq] at h
    cases rest with
    | nil => exact ⟨other, rfl, h.1⟩
    | cons => cases h.2

/-- A list with the form of some nodes has nodes. Counterpart of `SameForms`. -/
theorem SameForms.ne_nil (h : SameForms others nodes) (hne : nodes ≠ []) : others ≠ [] := by
  rintro rfl
  cases nodes with
  | nil => exact hne rfl
  | cons => cases h

/-- What holds of trees of any form holds of all nodes of a list if it does of those of its form.
Counterpart of `SameForms`. -/
theorem SameForms.forall_mem {P : Node → Prop} (h : SameForms others nodes)
    (hform : ∀ {node other : Node}, SameForm other node → P node → P other)
    (hnodes : ∀ node ∈ nodes, P node) : ∀ other ∈ others, P other := by
  induction others generalizing nodes with
  | nil => exact List.forall_mem_nil _
  | cons other others ih =>
    match nodes, h with
    | node :: nodes, h =>
      simp only [SameForms, Node.listSkeleton, Bool.and_false, List.cons.injEq] at h
      obtain ⟨hnode, hnodes⟩ := List.forall_mem_cons.1 hnodes
      exact List.forall_mem_cons.2 ⟨hform h.1 hnode, ih h.2 hnodes⟩

/-- Functions with parts of the same forms are of the same shape. Counterpart of
`Shape.function`. -/
theorem sameShape_function {isLocal : Bool} {name name' : Option Node}
    {parameters parameters' body body' : List Node} (hname : SameOption name' name)
    (hparameters : SameForms parameters' parameters) (hbody : SameForms body' body) :
    SameShape
      (.function isLocal name' parameters' body') (.function isLocal name parameters body) := by
  simp only [SameShape, Node.shapeSkeleton, hname, hparameters, hbody]

/-- Loops over numbers with parts of the same forms are of the same shape. Counterpart of
`Shape.numericFor`. -/
theorem sameShape_numericFor {counter counter' first first' last last' : Node}
    {step step' : Option Node} {body body' : List Node} (hcounter : SameForm counter' counter)
    (hfirst : SameForm first' first) (hlast : SameForm last' last) (hstep : SameOption step' step)
    (hbody : SameForms body' body) :
    SameShape (.numericFor counter' first' last' step' body')
      (.numericFor counter first last step body) := by
  simp only [SameShape, Node.shapeSkeleton, hcounter, hfirst, hlast, hstep, hbody]

/-- Loops over iterators with parts of the same forms are of the same shape. Counterpart of
`Shape.genericFor`. -/
theorem sameShape_genericFor {names names' iterators iterators' body body' : List Node}
    (hnames : SameForms names' names) (hiterators : SameForms iterators' iterators)
    (hbody : SameForms body' body) :
    SameShape (.genericFor names' iterators' body') (.genericFor names iterators body) := by
  simp only [SameShape, Node.shapeSkeleton, hnames, hiterators, hbody]

/-- Branches of one kind with parts of the same forms are of the same shape. Counterpart of
`Shape.clause`. -/
theorem sameShape_clause {kind kind' : ClauseKind} {condition condition' : Option Node}
    {body body' : List Node} (hkind : kind' = kind) (hcondition : SameOption condition' condition)
    (hbody : SameForms body' body) :
    SameShape (.clause kind' condition' body') (.clause kind condition body) := by
  simp only [SameShape, Node.shapeSkeleton, hkind, hcondition, hbody]

end

/-! ## Nodes that are kept -/

section
variable {isApart : Bool} {rule : Rule} {a b : Nat} {ts : List Token} {nodes : List Node}

/-- The nodes that are read are well parenthesised. Counterpart of `Node.WellParenthesised`. -/
theorem Derives.wellParenthesised (h : Derives isApart rule a b ts nodes) :
    ∀ node ∈ nodes, node.WellParenthesised := by
  induction h with
  | parens _ _ _ ih =>
    exact List.forall_mem_singleton.2
      ((Node.wellParenthesised_parenthesise _).2 (ih _ (List.mem_singleton_self _)))
  | unary _ habove _ ih =>
    refine List.forall_mem_singleton.2 ⟨fun inner hinner => ?_, ih _ (List.mem_singleton_self _)⟩
    exact BinaryOp.eq_power_of_lt (habove.lt_of_openBinary hinner)
  | binary _ hbelow habove _ _ ihleft ihright =>
    refine List.forall_mem_singleton.2 ⟨fun _ => hbelow.le_of_openBinary,
      fun _ => habove.lt_of_openBinary, fun hopen => ?_, ihleft _ (List.mem_singleton_self _),
      ihright _ (List.mem_singleton_self _)⟩
    exact BinaryOp.ne_power_iff.2 (hbelow.le_of_isOpenUnary hopen)
  | plain _ _ ih | lastExpression _ ih | someArguments _ ih | lastField _ ih | nameDotted _ ih
  | semicolon _ _ ih | lastClause _ ih => exact ih
  | moreExpressions _ _ _ ih ihs | moreFields _ _ _ ih ihs | moreStatements _ _ _ ih ihs
  | moreClauses _ _ _ _ ih ihs =>
    exact List.forall_mem_cons.2 ⟨ih _ (List.mem_singleton_self _), ihs⟩
  | moreNames _ _ _ ih | moreParameters _ _ _ _ ih => exact List.forall_mem_cons.2 ⟨trivial, ih⟩
  | noArguments | noParameters | noFields | emptyBlock => exact List.forall_mem_nil _
  | _ => exact List.forall_mem_singleton.2 trivial

/-- No expression is a method on its own. Counterpart of `Derives.method`. -/
theorem Derives.shape_ne_method (h : Derives isApart rule a b ts nodes)
    (hrule : rule = .expression) :
    ∀ node ∈ nodes, ∀ base name, node.shape ≠ .member .colon base name := by
  induction h with
  | parens _ _ _ ih =>
    refine List.forall_mem_singleton.2 fun base name => ?_
    rw [Node.shape_parenthesise]
    exact ih rfl _ (List.mem_singleton_self _) base name
  | identifier | literal | table | function | member | index | call | tableCall | stringCall | unary
  | binary =>
    refine List.forall_mem_singleton.2 fun base name heq => ?_
    cases heq
  | _ => cases hrule

end

namespace Node

variable {place : Place} {node : Node}

/-- An operation between two operands loses no parentheses. Counterpart of `Node.openBinary?`. -/
theorem openBinary?_kept (place : Place) (node : Node) :
    (node.kept place).openBinary? = node.openBinary? := by
  obtain ⟨number, shape, span, inParens⟩ := node
  cases shape with
  | binary op left right =>
    rw [kept]
    cases inParens <;> rfl
  | _ => rfl

/-- An operation with a single operand keeps its parentheses on the left of a power. Counterpart of
`Node.isOpenUnary`. -/
theorem isOpenUnary_of_kept (h : (node.kept place).isOpenUnary = true) :
    node.isOpenUnary = true ∨ place.isPowerBase = false := by
  obtain ⟨number, shape, span, inParens⟩ := node
  cases shape with
  | unary op operand =>
    cases inParens with
    | false => exact .inl rfl
    | true =>
      refine .inr ?_
      by_contra hplace
      rw [kept] at h
      simp [needsParens, inParens, shape, hplace, isOpenUnary] at h
  | _ => cases h

/-- Every operand of a tree that is written fits the operator next to it. Counterpart of
`needsParens`. -/
theorem WellParenthesised.kept : ∀ {node : Node}, node.WellParenthesised →
    ∀ place : Place, (node.kept place).WellParenthesised
  | mk number shape span inParens, h, place => by
    rw [Node.kept]
    cases shape with
    | binary op left right =>
      obtain ⟨hbelow, habove, hunary, hleft, hright⟩ := h
      refine ⟨?_, ?_, fun hopen => ?_, hleft.kept _, hright.kept _⟩
      · rwa [openBinary?_kept]
      · rwa [openBinary?_kept]
      · rcases isOpenUnary_of_kept hopen with hopen | hplace
        · exact hunary hopen
        · rintro rfl
          cases hplace
    | unary op operand =>
      obtain ⟨hpower, hoperand⟩ := h
      refine ⟨?_, hoperand.kept _⟩
      rwa [openBinary?_kept]
    | _ => trivial

/-- What is accessed or called may be, with the parentheses that it keeps. Counterpart of
`Node.canBeBase`. -/
theorem canBeBase_kept (h : node.canBeBase = true)
    (hmethod : ∀ base name, node.shape ≠ .member .colon base name) (hplace : place.isBase = true) :
    (node.kept place).canBeBase = true := by
  obtain ⟨number, shape, span, inParens⟩ := node
  rw [kept]
  cases shape with
  | member indexer base name =>
    cases indexer with
    | dot => exact Bool.or_true _
    | colon => exact absurd rfl (hmethod base name)
  | identifier | index | call | tableCall | stringCall => exact Bool.or_true _
  | literal kind text =>
    cases kind <;> simp_all [canBeBase, needsParens, Node.inParens, Node.shape]
  | _ => simp_all [canBeBase, needsParens, Node.inParens, Node.shape]

/-- What can be assigned to needs no parentheses. Counterpart of `Parser.isTarget`. -/
theorem target_kept (hread : node.shape.isInvalid = false)
    (h : node.canBeBase = true ∧ Parser.isTarget node = true) :
    (node.kept place).canBeBase = true ∧ Parser.isTarget (node.kept place) = true := by
  obtain ⟨number, shape, span, inParens⟩ := node
  rw [kept]
  cases shape with
  | member indexer base name =>
    cases indexer with
    | dot => exact ⟨Bool.or_true _, rfl⟩
    | colon => cases h.2
  | identifier | index => exact ⟨Bool.or_true _, rfl⟩
  | invalid => cases hread
  | _ => cases h.2

/-- Targets stay targets when parentheses that mean nothing are dropped, since a target has none to
lose. Counterpart of the condition of `Derives.assignment`. -/
theorem targets_listKept {targets : List Node} (place : Nat → Place)
    (hread : ∀ target ∈ targets, target.shape.isInvalid = false)
    (h : ∀ target ∈ targets, target.canBeBase = true ∧ Parser.isTarget target = true) :
    ∀ target ∈ listKept place targets, target.canBeBase = true ∧ Parser.isTarget target = true := by
  induction targets generalizing place with
  | nil => exact List.forall_mem_nil _
  | cons target rest ih =>
    obtain ⟨htarget, hrest⟩ := List.forall_mem_cons.1 h
    obtain ⟨hreadTarget, hreadRest⟩ := List.forall_mem_cons.1 hread
    exact List.forall_mem_cons.2 ⟨target_kept hreadTarget htarget, ih _ hreadRest hrest⟩

end Node

/-! ## Reading words -/

/-- What stands between the words of the nodes that a rule reads. -/
def Rule.separator : Rule → List Word
  | expressions | arguments | names | parameters | fields => [Symbol.comma.word]
  | block => [Symbol.semicolon.word]
  | _ => []

/-- The rule, for a branch that reaches up to another offset. -/
def Rule.endingAt (stop : Nat) : Rule → Rule
  | clause _ => clause stop
  | clauses _ => clauses stop
  | rule => rule

/-- All tokens with the words of the nodes are read as nodes of the same form. -/
def Rereads (rule : Rule) (nodes : List Node) : Prop :=
  ∀ stop first tokens, tokens.map Token.content = Node.listWords rule.separator nodes →
    ∃ next others, Derives true (rule.endingAt stop) first next tokens others ∧
    SameForms others nodes

/-- The rule reads what is called. -/
def Rule.isCallee : Rule → Bool
  | callee => true
  | _ => false

/-- The nodes are read back as they are kept, wherever they stand. What is called stands before its
arguments. -/
def Keeps (rule : Rule) (nodes : List Node) : Prop :=
  ∀ place : Nat → Place, rule.isCallee = false ∨ (place 0).isBase = true →
    Rereads rule (Node.listKept place nodes)

section
variable {rule : Rule} {node : Node} {nodes : List Node} {tokens : List Token}

/-- A rule that reads one node keeps its meaning if that node is read back at every place where the
rule may read it. Counterpart of `Keeps`. -/
theorem Keeps.of_one (h : ∀ place : Place, rule.isCallee = false ∨ place.isBase = true →
    Rereads rule [node.kept place]) : Keeps rule [node] :=
  fun place hplace => h (place 0) hplace

/-- A single node is read back. Counterpart of `Keeps`. -/
theorem Keeps.one (h : Keeps rule [node]) (place : Place)
    (hplace : rule.isCallee = false ∨ place.isBase = true) (stop first : Nat)
    (htokens : tokens.map Token.content = (node.kept place).words) :
    ∃ next other, Derives true (rule.endingAt stop) first next tokens [other] ∧
      SameForm other (node.kept place) := by
  obtain ⟨next, others, hderives, hforms⟩ := h (fun _ => place) hplace stop first tokens (by simpa)
  obtain ⟨other, rfl, hform⟩ := hforms.exists_single
  exact ⟨next, other, hderives, hform⟩

/-- Nodes of a list are read back. Counterpart of `Keeps`. -/
theorem Keeps.list (h : Keeps rule nodes) (place : Nat → Place) (hrule : rule.isCallee = false)
    (stop first : Nat)
    (htokens : tokens.map Token.content =
        Node.listWords rule.separator (Node.listKept place nodes)) :
    ∃ next others, Derives true (rule.endingAt stop) first next tokens others ∧
      SameForms others (Node.listKept place nodes) :=
  h place (.inl hrule) stop first tokens htokens

/-- A node without parentheses is read back if its shape is. Counterpart of `Keeps`. -/
theorem Keeps.of_shape {number : Nat} {shape : Shape Node} {span : Span}
    (h : ∀ place : Place, rule.isCallee = false ∨ place.isBase = true → ∀ stop first tokens,
      tokens.map Token.content = Node.shapeWords (Node.shapeKept place shape) →
      ∃ next other, Derives true (rule.endingAt stop) first next tokens [other] ∧
        other.inParens = false ∧ SameShape other.shape (Node.shapeKept place shape)) :
    Keeps rule [⟨number, shape, span, false⟩] := by
  refine .of_one fun place hplace stop first tokens htokens => ?_
  rw [Node.listWords_single, Node.kept_open, Node.words_open] at htokens
  obtain ⟨next, ⟨number', shape', span', inParens⟩, hderives, rfl, hshape⟩ :=
    h place hplace stop first tokens htokens
  rw [Node.kept_open]
  exact ⟨next, _, hderives, (hshape.sameForm number' number span' span).single⟩

end

/-- A name is read back. Counterpart of `Derives.identifier`. -/
theorem sameForm_name {t t' : Token} (n n' : Nat)
    (h : t'.content = (.identifier, (Parser.textOf t).toList)) :
    SameForm (nameOf n' t') ((nameOf n t).kept {}) := by
  have hshape : SameShape (.identifier (Parser.textOf t')) (.identifier (Parser.textOf t)) :=
    congrArg Shape.identifier (textOf_eq h)
  rw [Node.kept_open]
  exact hshape.sameForm ..

end LuaFormatter
