import LuaFormatter.Proofs.Spelling.Composites
import LuaFormatter.Proofs.Spelling.Core

/-!
# Documents implement spellings

The document of a node has no other words than those that its slots allow: `implements_compile`. The
cases follow the shapes of a node, and the recursion over the tree is in the last theorem alone.
-/

namespace LuaFormatter

open Layout

/-! ## The tree -/

section
variable {context : Context} {place : Place} {node : Node}

/-- An operator and its operand implement the token, a space where one is needed, and the operand.
Counterpart of `unaryDoc`. -/
theorem implements_unaryDoc {op : UnaryOp} {operand : Doc} {slots : List Slot}
    (h : Implements operand slots) :
    Implements (unaryDoc op operand)
      (.fixed op.kind :: ((if spacesOperand op operand then [.space] else []) ++ slots)) := by
  have hop : Implements (.text op.text) [.fixed op.kind] := by cases op <;> exact .token rfl rfl
  refine .cat (.slot hop (.cons ?_ (.one h)))
  change Implements (if spacesOperand op operand then .text " " else .empty) _
  split
  · exact implements_space
  · exact .empty

/-- Parameters implement their names between parentheses. Counterpart of `parametersDoc`. -/
theorem implements_parametersDoc {isHugged : Bool} {printed : List Printed}
    {spelled : List Spelled} (h : List.Forall₂ Prints printed spelled) :
    Implements (parametersDoc isHugged printed)
      (.symbol .leftParen :: .soft ::
        (commaSlots (spelled.map Spelled.slots) ++ [.soft, .symbol .rightParen])) := by
  unfold parametersDoc
  split
  · have hcomma : Implements (.text ", ") [.symbol .comma, .gap] :=
      .text [.token (.symbol .comma) [','], .space]
        ⟨[_], [_], rfl, rfl, [_], [], rfl, .inl rfl, rfl⟩ rfl
    have hlist : Implements (Doc.join (.text ", ") (printed.map Printed.doc))
        (commaSlots (spelled.map Spelled.slots)) := by
      refine implements_join hcomma ?_
      rw [List.forall₂_map_left_iff, List.forall₂_map_right_iff]
      exact h.imp fun _ _ hprints => hprints.doc_implements
    exact .cat (.slot (implements_symbol .leftParen) (.skip (.inl rfl)
      (.cons hlist (.skip (.inl rfl) (.one (implements_symbol .rightParen))))))
  · exact .grouped (.slot (implements_symbol .leftParen) (.lead
      (.indented (.slot .softLine (.one (implements_commaList h))))
      (.slot .softLine (.one (implements_symbol .rightParen)))))

/-- A document in parentheses implements its slots between them. Counterpart of
`parenthesisedDoc`. -/
theorem implements_parenthesisedDoc {printed : Doc} {slots : List Slot}
    (h : Implements printed slots) :
    Implements (parenthesisedDoc node printed) (parenSlots slots) := by
  unfold parenthesisedDoc parenSlots
  split
  · exact .grouped (.slot (implements_symbol .leftParen) (.lead
      (.indented (.slot .softLine (.one h)))
      (.slot .softLine (.one (implements_symbol .rightParen)))))
  · exact .cat (.slot (implements_symbol .leftParen) (.skip (.inl rfl)
      (.cons h (.skip (.inl rfl) (.one (implements_symbol .rightParen))))))

/-- A chain of operations implements the slots of its parts. Counterpart of `chainDoc`. -/
theorem implements_chainDoc {inParens isAlone : Bool} {parts : List Doc} {slots : List Slot}
    (h : ImplementEach parts slots) : Implements (chainDoc inParens isAlone parts) slots := by
  unfold chainDoc
  split
  · exact .concat h.all
  · split
    · exact .grouped (.one (.concat h.all))
    · cases h with
      | nil => exact .empty
      | cons hfirst hrest =>
        exact .grouped (.cons hfirst (.one (.indented (.one (.concat hrest.all)))))

/-- A conditional is closed on its last line if it may be, and else on a line of its own.
Counterpart of `Context.conditional`. -/
theorem conditional_eq (clauses : List Printed) :
    context.conditional clauses =
      if context.closesOnLine (clauses.map Printed.node) then
        Doc.cat [Doc.join .hardLine (clauses.map Printed.doc), .text " end"]
      else
        Doc.cat [Doc.join .hardLine (clauses.map Printed.doc), .hardLine, .text "end"] := by
  match clauses with
  | [] | [_] | _ :: _ :: _ => rfl

/-- A conditional implements its branches on lines of their own. Counterpart of
`Context.conditional`. -/
theorem implements_conditional (context : Context) {clauses : List Printed} {spelled : List Spelled}
    (h : List.Forall₂ Prints clauses spelled) :
    Implements (context.conditional clauses)
      ([Slot.hard].intercalate (spelled.map Spelled.slots) ++
        [if context.closesOnLine (spelled.map Spelled.node) then .space else .hard,
          .keyword .endK]) := by
  have hnodes : clauses.map Printed.node = spelled.map Spelled.node := by
    induction h with
    | nil => rfl
    | cons hfirst _ ih => simp [hfirst.node_eq, ih]
  have hjoined : Implements (Doc.join .hardLine (clauses.map Printed.doc))
      ([Slot.hard].intercalate (spelled.map Spelled.slots)) := by
    refine implements_join .hardLine ?_
    rw [List.forall₂_map_left_iff, List.forall₂_map_right_iff]
    exact h.imp fun _ _ hprints => hprints.doc_implements
  rw [conditional_eq, hnodes]
  split
  · exact .cat (.cons hjoined (.one (.text [.space, .token (.keyword .endK) ['e', 'n', 'd']]
      ⟨[_], [_], rfl, rfl, [_], [], rfl, rfl, rfl⟩ rfl)))
  · exact .cat (.cons hjoined (.slot .hardLine (.one (implements_keyword .endK))))

/-- The keyword of a branch implements its token. Counterpart of `Context.clause`. -/
theorem implements_clauseKeyword (kind : ClauseKind) :
    Implements (.text (match kind with
      | .ifClause => "if "
      | .elseifClause => "elseif "
      | .elseClause => "else")) (clauseKeyword kind) := by
  cases kind with
  | ifClause =>
    exact .text [.token (.keyword .ifK) ['i', 'f'], .space]
      ⟨[_], [_], rfl, rfl, [_], [], rfl, rfl, rfl⟩ rfl
  | elseifClause =>
    exact .text [.token (.keyword .elseifK) ['e', 'l', 's', 'e', 'i', 'f'], .space]
      ⟨[_], [_], rfl, rfl, [_], [], rfl, rfl, rfl⟩ rfl
  | elseClause => exact implements_keyword .elseK

/-- A branch implements its keyword, its condition and its body. Counterpart of `Context.clause`. -/
theorem implements_clause {kind : ClauseKind} {condition : Option Doc}
    {slots : Option (List Slot)} {body : List Printed} {spelled : List Spelled}
    (hcondition : Option.Rel Implements condition slots) (h : List.Forall₂ Prints body spelled) :
    Implements (context.clause node kind condition body)
      (clauseKeyword kind ++
        (slots.elim [] (· ++ [.space, .keyword .thenK]) ++ context.bodySlots node spelled)) := by
  have hbody := implements_body context node h
  have hkeyword := implements_clauseKeyword kind
  have hthen : Implements (.text " then") [.space, .keyword .thenK] :=
    .text [.space, .token (.keyword .thenK) ['t', 'h', 'e', 'n']]
      ⟨[_], [_], rfl, rfl, [_], [], rfl, rfl, rfl⟩ rfl
  unfold Context.clause
  rw [← List.append_assoc]
  cases hcondition with
  | none =>
    rw [Option.elim_none, List.append_nil]
    cases hdoc : context.body? node body with
    | some inner =>
      rw [hdoc] at hbody
      exact .cat (.cons hkeyword (.one hbody.1))
    | none =>
      rw [hdoc] at hbody
      rw [hbody.1, List.append_nil]
      exact hkeyword
  | some hcondition =>
    have hheader := Implements.cat (.cons hkeyword (.cons hcondition (.one hthen)))
    cases hdoc : context.body? node body with
    | some inner =>
      rw [hdoc] at hbody
      exact .cat (.cons hheader (.one hbody.1))
    | none =>
      rw [hdoc] at hbody
      rw [hbody.1, List.append_nil]
      exact hheader

/-- A file implements its statements. Counterpart of `Context.chunk`. -/
theorem implements_chunk {body : List Printed} {spelled : List Spelled}
    (h : List.Forall₂ Prints body spelled) :
    Implements (context.chunk node body) (context.chunkSlots node spelled) := by
  have hempty : body.isEmpty = spelled.isEmpty := by cases h <;> rfl
  unfold Context.chunk Context.chunkSlots Context.shebangSlots
  rw [hempty]
  refine .concat ?_
  rw [List.append_assoc]
  refine .append ?_ (.append ?_ ?_)
  · cases context.shebang with
    | some token =>
      refine .slot (.note rfl) (.slot .hardLine ?_)
      split
      · exact .one .hardLine
      · exact .nil
    | none => exact .nil
  · split
    · exact .nil
    · exact .cons (implements_statements h) (.one .hardLine)
  · cases hcomments : context.danglingComments node false with
    | nil =>
      have hlines : context.danglingLines? node = none := by
        simp [Context.danglingLines?, hcomments]
      rw [hlines]
      exact .nil
    | cons first others =>
      have hlines : context.danglingLines? node =
          some (Doc.join .hardLine ((first :: others).map Context.commentText)) := by
        simp [Context.danglingLines?, hcomments]
      have hdangling := implements_danglingLines hlines
      rw [hcomments] at hdangling
      rw [hlines]
      exact .cons hdangling (.one .hardLine)

end

/-! ## Shapes

`Spells` says of a list of nodes that their documents implement their spellings, wherever they
stand. A part of a node is smaller than the node, so the recursion over the tree provides it. -/

/-- The documents of nodes implement their spellings. -/
def Spells (context : Context) (nodes : List Node) : Prop :=
  ∀ place, ∀ child ∈ nodes, Implements (compile context place child) (spell context place child)

section
variable {context : Context} {place : Place} {node : Node} {nodes : List Node}

/-- What holds of some nodes holds of fewer. Counterpart of `Spells`. -/
theorem Spells.subset (h : Spells context nodes) (others : List Node) (hsub : others ⊆ nodes) :
    Spells context others :=
  fun place child hmem => h place child (hsub hmem)

/-- The nodes of a list implement their spellings where all are printed at the top. Counterpart of
`Prints`. -/
theorem Spells.each (h : Spells context nodes) :
    List.Forall₂ Prints (nodes.map fun child => ⟨child, compile context {} child⟩)
      (nodes.map fun child => ⟨child, spell context {} child⟩) := by
  rw [List.forall₂_map_left_iff, List.forall₂_map_right_iff, List.forall₂_same]
  exact fun child hmem => ⟨rfl, h {} child hmem⟩

/-- The nodes of a list implement their spellings where each is printed at its place. Counterpart of
`Prints`. -/
theorem Spells.indexed (place : Nat → Place) (h : Spells context nodes) :
    List.Forall₂ Prints
      (nodes.mapIdx fun index child => ⟨child, compile context (place index) child⟩)
      (nodes.mapIdx fun index child => ⟨child, spell context (place index) child⟩) := by
  rw [List.forall₂_iff_get]
  refine ⟨by simp, fun index _ _ => ?_⟩
  simp only [List.get_eq_getElem, List.getElem_mapIdx]
  exact ⟨rfl, h _ _ (List.getElem_mem _)⟩

/-- The slots of spelled nodes are their spellings. Counterpart of `Spelled.slots`. -/
theorem slots_each (nodes : List Node) :
    (nodes.map fun child => (⟨child, spell context {} child⟩ : Spelled)).map Spelled.slots =
      nodes.map (spell context {}) := by
  simp

/-- The slots of spelled nodes, each at its place, are their spellings. Counterpart of
`Spelled.slots`. -/
theorem slots_indexed (place : Nat → Place) (nodes : List Node) :
    (nodes.mapIdx fun index child =>
      (⟨child, spell context (place index) child⟩ : Spelled)).map Spelled.slots =
      nodes.mapIdx fun index child => spell context (place index) child := by
  apply List.ext_getElem <;> simp

/-- Nodes with commas between them implement their spellings. Counterpart of `commaList`. -/
theorem Spells.commas (h : Spells context nodes) :
    Implements (commaList (nodes.map fun child => ⟨child, compile context {} child⟩))
      (commaSlots (nodes.map (spell context {}))) := by
  rw [← slots_each]
  exact implements_commaList h.each

/-- Nodes with commas between them, each at its place, implement their spellings. Counterpart of
`commaList`. -/
theorem Spells.commasIndexed (place : Nat → Place) (h : Spells context nodes) :
    Implements (commaList (nodes.mapIdx fun index child =>
      ⟨child, compile context (place index) child⟩))
      (commaSlots (nodes.mapIdx fun index child => spell context (place index) child)) := by
  rw [← slots_indexed]
  exact implements_commaList (h.indexed place)

/-- Assigned values implement their spellings. Counterpart of `assignedValues`. -/
theorem Spells.assigned (place : Nat → Place) (h : Spells context nodes) :
    Implements (assignedValues (nodes.mapIdx fun index child =>
      ⟨child, compile context (place index) child⟩))
      (.gap :: commaSlots (nodes.mapIdx fun index child => spell context (place index) child)) := by
  rw [← slots_indexed]
  exact implements_assignedValues (h.indexed place)

/-- An equals sign implements a space and its token. Counterpart of `Symbol.equal`. -/
theorem implements_assign : Implements (.text " =") [.space, .symbol .equal] :=
  .text [.space, .token (.symbol .equal) ['=']] ⟨[_], [_], rfl, rfl, [_], [], rfl, rfl, rfl⟩ rfl

/-- The keyword of a body implements a space and its token. Counterpart of `Keyword.doK`. -/
theorem implements_do : Implements (.text " do") [.space, .keyword .doK] :=
  .text [.space, .token (.keyword .doK) ['d', 'o']]
    ⟨[_], [_], rfl, rfl, [_], [], rfl, rfl, rfl⟩ rfl

/-- The case of local variables in the induction over the tree. Counterpart of `coreDoc`. -/
theorem implements_localVariables {names initial : List Node}
    (hshape : node.shape = .localVariables names initial) (h : Spells context node.children) :
    Implements (coreDoc context place node) (coreSlots context place node (spell context)) := by
  rw [Node.children, hshape] at h
  have hlocal : Implements (.text "local ") [.keyword .localK, .space] :=
    .text [.token (.keyword .localK) ['l', 'o', 'c', 'a', 'l'], .space]
      ⟨[_], [_], rfl, rfl, [_], [], rfl, rfl, rfl⟩ rfl
  have hnames := Implements.grouped (.cons hlocal (.one (Implements.indented (.one
    (h.subset names (by simp [Shape.children])).commas))))
  simp only [coreDoc, coreSlots, hshape]
  split
  · simpa using hnames
  · exact .cat (.cons hnames (.cons implements_assign
      (.one ((h.subset initial (by simp [Shape.children])).assigned _))))

/-- The case of a function in the induction over the tree, with or without a name. Counterpart of
`coreDoc`. -/
theorem implements_function {isLocal : Bool} {name : Option Node} {parameters body : List Node}
    (hshape : node.shape = .function isLocal name parameters body)
    (h : Spells context node.children) :
    Implements (coreDoc context place node) (coreSlots context place node (spell context)) := by
  rw [Node.children, hshape] at h
  have hkeyword : Implements (.text (if isLocal then "local function" else "function"))
      ((if isLocal then [.keyword .localK, .space] else []) ++ [.keyword .functionK]) := by
    cases isLocal with
    | true =>
      exact .text [.token (.keyword .localK) ['l', 'o', 'c', 'a', 'l'], .space,
        .token (.keyword .functionK) ['f', 'u', 'n', 'c', 't', 'i', 'o', 'n']]
        ⟨[_], [_, _], rfl, rfl, [_], [_], rfl, rfl, [_], [], rfl, rfl, rfl⟩ rfl
    | false => exact implements_keyword .functionK
  have hparameters : Implements
      (if parameters.isEmpty then context.emptyParens node
      else parametersDoc place.isHugged
        (parameters.map fun child => ⟨child, compile context {} child⟩))
      (if parameters.isEmpty then context.emptyParensSlots node
      else
        .symbol .leftParen :: .soft :: (commaSlots (parameters.map (spell context {})) ++
          [.soft, .symbol .rightParen])) := by
    split
    · exact implements_emptyParens context node
    · rw [← slots_each]
      exact implements_parametersDoc
        (h.subset parameters fun _ h => by simp [Shape.children, h]).each
  have hbody := implements_bodyAndEnd context node
    (h.subset body fun _ h => by simp [Shape.children, h]).each
  simp only [coreDoc, coreSlots, hshape]
  rw [← List.singleton_append (x := Slot.keyword .functionK), ← List.append_assoc]
  cases name with
  | none =>
    dsimp only [Option.map]
    rw [List.nil_append]
    exact .cat (.cons hkeyword (.none .empty (.cons hparameters (.one hbody))))
  | some name =>
    have hname := Implements.cat (.slot implements_space
      (.one (h {} name (by simp [Shape.children]))))
    exact .cat (.cons hkeyword (.cons hname (.cons hparameters (.one hbody))))

/-- The case of a `repeat` loop in the induction over the tree. Counterpart of `coreDoc`. -/
theorem implements_repeatLoop {body : List Node} {condition : Node}
    (hshape : node.shape = .repeatLoop body condition) (h : Spells context node.children) :
    Implements (coreDoc context place node) (coreSlots context place node (spell context)) := by
  rw [Node.children, hshape] at h
  have hbody := implements_body context node
    (h.subset body (by simp [Shape.children])).each
  have hcondition := h {} condition (by simp [Shape.children])
  have huntil : Implements (.text "until ") [.keyword .untilK, .space] :=
    .text [.token (.keyword .untilK) ['u', 'n', 't', 'i', 'l'], .space]
      ⟨[_], [_], rfl, rfl, [_], [], rfl, rfl, rfl⟩ rfl
  simp only [coreDoc, coreSlots, hshape]
  cases hdoc : context.body? node
      (body.map fun child => ⟨child, compile context {} child⟩) with
  | some inner =>
    rw [hdoc] at hbody
    rw [if_pos hbody.2]
    exact .cat (.slot (implements_keyword .repeatK) (.cons hbody.1 (.slot .hardLine
      (.cons huntil (.one hcondition)))))
  | none =>
    rw [hdoc] at hbody
    rw [if_neg hbody.2, hbody.1]
    have hrepeat : Implements (.text "repeat until ")
        [.keyword .repeatK, .space, .keyword .untilK, .space] :=
      .text [.token (.keyword .repeatK) ['r', 'e', 'p', 'e', 'a', 't'], .space,
        .token (.keyword .untilK) ['u', 'n', 't', 'i', 'l'], .space]
        ⟨[_], [_, _, _], rfl, rfl, [_], [_, _], rfl, rfl, [_], [_], rfl, rfl, [_], [], rfl, rfl,
          rfl⟩ rfl
    exact .cat (.cons hrepeat (.one hcondition))

/-- The case of a loop over numbers in the induction over the tree, with or without a step.
Counterpart of `coreDoc`. -/
theorem implements_numericFor {counter first last : Node} {step : Option Node} {body : List Node}
    (hshape : node.shape = .numericFor counter first last step body)
    (h : Spells context node.children) :
    Implements (coreDoc context place node) (coreSlots context place node (spell context)) := by
  rw [Node.children, hshape] at h
  have hfor : Implements (.text "for ") [.keyword .forK, .space] :=
    .text [.token (.keyword .forK) ['f', 'o', 'r'], .space]
      ⟨[_], [_], rfl, rfl, [_], [], rfl, rfl, rfl⟩ rfl
  have hcomma : Implements (.text ", ") [.symbol .comma, .space] :=
    .text [.token (.symbol .comma) [','], .space]
      ⟨[_], [_], rfl, rfl, [_], [], rfl, rfl, rfl⟩ rfl
  have hbody := implements_bodyAndEnd context node
    (h.subset body fun _ h => by simp [Shape.children, h]).each
  have hcounter := h {} counter (by simp [Shape.children])
  have hfirst := h {} first (by simp [Shape.children])
  have hlast := h {} last (by simp [Shape.children])
  simp only [coreDoc, coreSlots, hshape]
  cases step with
  | none =>
    dsimp only [Option.map]
    rw [List.nil_append]
    exact .cat (.cons hfor (.cons hcounter (.cons implements_equals (.cons hfirst (.cons hcomma
      (.cons hlast (.none .empty (.cons implements_do (.one hbody)))))))))
  | some step =>
    have hstep := Implements.cat (.cons hcomma (.one (h {} step (by simp [Shape.children]))))
    exact .cat (.cons hfor (.cons hcounter (.cons implements_equals (.cons hfirst (.cons hcomma
      (.cons hlast (.cons hstep (.cons implements_do (.one hbody)))))))))

/-- The case of a loop over iterators in the induction over the tree. Counterpart of `coreDoc`. -/
theorem implements_genericFor {names iterators body : List Node}
    (hshape : node.shape = .genericFor names iterators body) (h : Spells context node.children) :
    Implements (coreDoc context place node) (coreSlots context place node (spell context)) := by
  rw [Node.children, hshape] at h
  have hnames := Implements.grouped (.lead (Implements.indented
    (.slot .line (.one (h.subset names (by simp [Shape.children])).commas)))
    (.one .line))
  have hiterators := Implements.grouped (.lead (Implements.indented
    (.slot .line (.one ((h.subset iterators fun _ h => by
      simp [Shape.children, h]).commasIndexed (Place.argument iterators.length))))) (.one .line))
  have hbody := implements_bodyAndEnd context node
    (h.subset body fun _ h => by simp [Shape.children, h]).each
  have hall := Implements.cat (.slot (implements_keyword .forK) (.cons hnames
    (.slot (implements_keyword .inK) (.cons hiterators
      (.slot (implements_keyword .doK) (.one hbody))))))
  rw [List.cons_append, List.cons_append, List.append_assoc, List.append_assoc] at hall
  simp only [coreDoc, coreSlots, hshape]
  exact hall

/-- The case of a call in the induction over the tree, whose arguments may be hugged. Counterpart of
`coreDoc`. -/
theorem implements_call {base : Node} {arguments : List Node}
    (hshape : node.shape = .call base arguments) (h : Spells context node.children) :
    Implements (coreDoc context place node) (coreSlots context place node (spell context)) := by
  rw [Node.children, hshape] at h
  let printed : List Argument := arguments.mapIdx fun index argument =>
    { node := argument, doc := compile context (Place.argument arguments.length index) argument
      hugged :=
        if (hug? arguments).any (·.isAt arguments.length index) then
          some (compile context
            { Place.argument arguments.length index with isHugged := true } argument)
        else none }
  have hprints : List.Forall₂ PrintsArgument printed (arguments.mapIdx fun index argument =>
      ⟨argument, spell context (Place.argument arguments.length index) argument⟩) := by
    rw [List.forall₂_iff_get]
    refine ⟨by simp [printed], fun index hindex _ => ?_⟩
    simp only [printed, List.get_eq_getElem, List.getElem_mapIdx]
    have hmem := List.mem_cons_of_mem base (arguments.getElem_mem (by simpa [printed] using hindex))
    refine ⟨⟨rfl, h _ _ hmem⟩, fun hugged hhugged => ?_⟩
    simp only [Option.mem_def, Option.ite_none_right_eq_some, Option.some.injEq] at hhugged
    rw [← hhugged.2, ← spell_hugged context _ true]
    exact h _ _ hmem
  have hnodes : printed.map (·.node) = arguments := by
    apply List.ext_getElem <;> simp [printed]
  have harguments := implements_arguments context node hprints
    fun hug hhug => hugged_mapIdx (hnodes ▸ hhug) _ _
  simp only [coreDoc, coreSlots, hshape]
  refine .cat (.cons (h Place.base base (by simp [Shape.children])) (.one ?_))
  simpa using harguments

/-- The core of a node implements its slots if its parts do. Counterpart of `coreDoc`. -/
theorem implements_coreDoc
    (ih : ∀ place child, child.size < node.size →
      Implements (compile context place child) (spell context place child)) :
    Implements (coreDoc context place node) (coreSlots context place node (spell context)) := by
  have hall : Spells context node.children :=
    fun place child hmem => ih place child (Node.size_lt_of_mem_children hmem)
  have hparts : ∀ nodes, nodes ⊆ node.children → Spells context nodes := hall.subset
  cases hshape : node.shape with
  | localVariables names initial => exact implements_localVariables hshape hall
  | function isLocal name parameters body => exact implements_function hshape hall
  | repeatLoop body condition => exact implements_repeatLoop hshape hall
  | numericFor counter first last step body => exact implements_numericFor hshape hall
  | genericFor names iterators body => exact implements_genericFor hshape hall
  | call base arguments => exact implements_call hshape hall
  | binary op left right =>
    have hchain := implements_chain place place.parentLogical hshape ih
    simp only [coreDoc, hshape]
    exact implements_chainDoc hchain
  | chunk body =>
    simp only [coreDoc, coreSlots, hshape]
    exact implements_chunk (hparts body (by simp [Node.children, hshape, Shape.children])).each
  | assignment targets assigned =>
    have htargets := hparts targets (by simp [Node.children, hshape, Shape.children])
    have hassigned := hparts assigned (by simp [Node.children, hshape, Shape.children])
    simp only [coreDoc, coreSlots, hshape]
    exact .cat (.cons (.grouped (.one (.indented (.one htargets.commas))))
      (.cons implements_assign (.one (hassigned.assigned _))))
  | callStatement expression =>
    simp only [coreDoc, coreSlots, hshape]
    exact hall {} expression (by simp [Node.children, hshape, Shape.children])
  | conditional clauses =>
    have hclauses := implements_conditional context
      (hparts clauses (by simp [Node.children, hshape, Shape.children])).each
    rw [slots_each, List.map_map] at hclauses
    simpa [coreDoc, coreSlots, hshape, Function.comp_def] using hclauses
  | clause kind condition body =>
    have hbody := hparts body fun _ h => by simp [Node.children, hshape, Shape.children, h]
    simp only [coreDoc, coreSlots, hshape]
    cases condition with
    | none => exact implements_clause .none hbody.each
    | some condition =>
      exact implements_clause
        (.some (hall {} condition (by simp [Node.children, hshape, Shape.children]))) hbody.each
  | whileLoop condition body =>
    have hwhile : Implements (.text "while ") [.keyword .whileK, .space] :=
      .text [.token (.keyword .whileK) ['w', 'h', 'i', 'l', 'e'], .space]
        ⟨[_], [_], rfl, rfl, [_], [], rfl, rfl, rfl⟩ rfl
    have hcondition := hall {} condition (by simp [Node.children, hshape, Shape.children])
    have hbody := hparts body (by simp [Node.children, hshape, Shape.children])
    simp only [coreDoc, coreSlots, hshape]
    exact .cat (.cons hwhile (.cons hcondition (.cons implements_do
      (.one (implements_bodyAndEnd context node hbody.each)))))
  | doBlock body =>
    simp only [coreDoc, coreSlots, hshape]
    exact .cat (.slot (implements_keyword .doK) (.one (implements_bodyAndEnd context node
      (hparts body (by simp [Node.children, hshape, Shape.children])).each)))
  | returnStatement returned =>
    have hreturned := implements_returnDoc
      ((hparts returned (by simp [Node.children, hshape, Shape.children])).indexed
        (Place.value returned.length))
    rw [slots_indexed] at hreturned
    simpa [coreDoc, coreSlots, hshape] using hreturned
  | breakStatement =>
    simp only [coreDoc, coreSlots, hshape]
    exact implements_keyword .breakK
  | gotoStatement label =>
    have hgoto : Implements (.text "goto ") [.keyword .gotoK, .space] :=
      .text [.token (.keyword .gotoK) ['g', 'o', 't', 'o'], .space]
        ⟨[_], [_], rfl, rfl, [_], [], rfl, rfl, rfl⟩ rfl
    simp only [coreDoc, coreSlots, hshape]
    exact .cat (.cons hgoto (.one (hall _ _ (by simp [Node.children, hshape, Shape.children]))))
  | labelStatement label =>
    simp only [coreDoc, coreSlots, hshape]
    exact .cat (.slot (implements_symbol .colonColon) (.cons
      (hall _ _ (by simp [Node.children, hshape, Shape.children]))
      (.one (implements_symbol .colonColon))))
  | identifier name =>
    simp only [coreDoc, coreSlots, hshape]
    exact .token rfl rfl
  | literal kind text =>
    simp only [coreDoc, coreSlots, hshape]
    exact implements_literalDoc context.style kind text
  | table fields =>
    have hfields := implements_table context node
      ((hparts fields (by simp [Node.children, hshape, Shape.children])).indexed
        (Place.argument fields.length))
    rw [slots_indexed] at hfields
    simpa [coreDoc, coreSlots, hshape] using hfields
  | keyField key value =>
    have hkey := hall Place.field key (by simp [Node.children, hshape, Shape.children])
    have hvalue := hall Place.field value (by simp [Node.children, hshape, Shape.children])
    simp only [coreDoc, coreSlots, hshape]
    exact implements_keyField ⟨key, _⟩ ⟨value, _⟩ hkey hvalue
  | nameField name value =>
    have hname := hall {} name (by simp [Node.children, hshape, Shape.children])
    have hvalue := hall Place.field value (by simp [Node.children, hshape, Shape.children])
    simp only [coreDoc, coreSlots, hshape]
    exact .cat (.cons hname (.cons implements_equals (.one hvalue)))
  | valueField value =>
    simp only [coreDoc, coreSlots, hshape]
    exact hall _ _ (by simp [Node.children, hshape, Shape.children])
  | unary op operand =>
    simp only [coreDoc, coreSlots, hshape]
    exact implements_unaryDoc (hall _ _ (by simp [Node.children, hshape, Shape.children]))
  | member indexer base name =>
    have hbase := hall Place.base base (by simp [Node.children, hshape, Shape.children])
    have hname := hall {} name (by simp [Node.children, hshape, Shape.children])
    simp only [coreDoc, coreSlots, hshape]
    cases indexer with
    | dot => exact .cat (.cons hbase (.slot (implements_symbol .dot) (.one hname)))
    | colon => exact .cat (.cons hbase (.slot (implements_symbol .colon) (.one hname)))
  | index base key =>
    have hbase := hall Place.base base (by simp [Node.children, hshape, Shape.children])
    have hkey := hall {} key (by simp [Node.children, hshape, Shape.children])
    simp only [coreDoc, coreSlots, hshape]
    exact .cat (.cons hbase (implements_bracketed ⟨key, _⟩ hkey))
  | tableCall base argument | stringCall base argument =>
    have hbase := hall Place.base base (by simp [Node.children, hshape, Shape.children])
    have hargument := hall {} argument (by simp [Node.children, hshape, Shape.children])
    simp only [coreDoc, coreSlots, hshape]
    exact .cat (.cons hbase (.one hargument))
  | invalid =>
    simp only [coreDoc, coreSlots, hshape]
    exact .empty

/-- Whatever is written for a node at a place fills in the slots of its spelling. Counterpart of
`compile`. -/
theorem implements_compile (context : Context) (place : Place) (node : Node) :
    Implements (compile context place node) (spell context place node) := by
  induction hn : node.size using Nat.strongRecOn generalizing node place with
  | _ n ih =>
  have hcore : Implements (coreDoc context place node)
      (coreSlots context place node (spell context)) := implements_coreDoc fun place child hchild =>
      ih child.size (hn ▸ hchild) place child rfl
  rw [compile_eq, spell_eq]
  refine implements_withComments ?_
  split
  · exact implements_parenthesisedDoc hcore
  · exact hcore

end

end LuaFormatter
