import LuaFormatter.Proofs.Grammar.Keep
import LuaFormatter.Proofs.Token.Appended

/-!
# Moving a tree

A text that is put into another one keeps its tokens at greater offsets (`Token.moved`). The rules
of the grammar look at no offset, so they read the same tree from the moved tokens, with all spans
moved by the same distance and all numbers raised by what was read before (`Derives.moved`). The
skeleton of a moved tree is that of the tree, if blank lines are looked for at the moved offsets
(`Node.skeleton_moved`). The tokens of a valid text without comments are among those that are kept
(`tokensFrom_inside`).
-/

namespace LuaFormatter

/-- The span of the same text, at a greater distance from the start of the source. Counterpart of
`Token.moved`. -/
def Span.moved (distance : Nat) (span : Span) : Span :=
  ⟨span.start + distance, span.stop + distance⟩

namespace Node

mutual

/-- A tree with all spans moved by a distance, and all numbers raised by a count. Counterpart of
`skeleton`, which leaves out both. -/
def moved (distance count : Nat) : Node → Node
  | mk number shape span inParens =>
    mk (count + number) (shapeMoved distance count shape) (span.moved distance) inParens

/-- A shape with moved parts. -/
def shapeMoved (distance count : Nat) : Shape Node → Shape Node
  | .chunk body => .chunk (listMoved distance count body)
  | .localVariables names values =>
    .localVariables (listMoved distance count names) (listMoved distance count values)
  | .assignment targets values =>
    .assignment (listMoved distance count targets) (listMoved distance count values)
  | .callStatement expression => .callStatement (moved distance count expression)
  | .function isLocal name parameters body =>
    .function isLocal (optionMoved distance count name) (listMoved distance count parameters)
      (listMoved distance count body)
  | .conditional clauses => .conditional (listMoved distance count clauses)
  | .clause kind condition body =>
    .clause kind (optionMoved distance count condition) (listMoved distance count body)
  | .whileLoop condition body =>
    .whileLoop (moved distance count condition) (listMoved distance count body)
  | .doBlock body => .doBlock (listMoved distance count body)
  | .repeatLoop body condition =>
    .repeatLoop (listMoved distance count body) (moved distance count condition)
  | .numericFor counter first last step body =>
    .numericFor (moved distance count counter) (moved distance count first)
      (moved distance count last) (optionMoved distance count step) (listMoved distance count body)
  | .genericFor names iterators body =>
    .genericFor (listMoved distance count names) (listMoved distance count iterators)
      (listMoved distance count body)
  | .returnStatement values => .returnStatement (listMoved distance count values)
  | .breakStatement => .breakStatement
  | .gotoStatement label => .gotoStatement (moved distance count label)
  | .labelStatement label => .labelStatement (moved distance count label)
  | .identifier name => .identifier name
  | .literal kind text => .literal kind text
  | .table fields => .table (listMoved distance count fields)
  | .keyField key value => .keyField (moved distance count key) (moved distance count value)
  | .nameField name value => .nameField (moved distance count name) (moved distance count value)
  | .valueField value => .valueField (moved distance count value)
  | .binary op left right => .binary op (moved distance count left) (moved distance count right)
  | .unary op operand => .unary op (moved distance count operand)
  | .member indexer base name =>
    .member indexer (moved distance count base) (moved distance count name)
  | .index base key => .index (moved distance count base) (moved distance count key)
  | .call base arguments => .call (moved distance count base) (listMoved distance count arguments)
  | .tableCall base argument =>
    .tableCall (moved distance count base) (moved distance count argument)
  | .stringCall base argument =>
    .stringCall (moved distance count base) (moved distance count argument)
  | .invalid => .invalid

/-- The moved nodes of a list. -/
def listMoved (distance count : Nat) : List Node → List Node
  | [] => []
  | node :: rest => moved distance count node :: listMoved distance count rest

/-- The moved optional node. -/
def optionMoved (distance count : Nat) : Option Node → Option Node
  | none => none
  | some node => some (moved distance count node)

end

section
variable {distance count : Nat}

@[simp] theorem isEmpty_listMoved (nodes : List Node) :
    (listMoved distance count nodes).isEmpty = nodes.isEmpty := by
  cases nodes <;> rfl

mutual

/-- The skeleton of a moved tree. Counterpart of `skeleton`. -/
theorem skeleton_moved (isBlankAfter : Nat → Bool) (endsParagraph : Bool) : ∀ node : Node,
    (node.moved distance count).skeleton isBlankAfter endsParagraph =
      node.skeleton (fun offset => isBlankAfter (offset + distance)) endsParagraph
  | mk _ shape _ inParens => by
    rw [moved, skeleton, skeleton, shapeSkeleton_moved isBlankAfter shape]

/-- The skeleton of a moved shape. Counterpart of `shapeSkeleton`. -/
theorem shapeSkeleton_moved (isBlankAfter : Nat → Bool) : ∀ shape : Shape Node,
    shapeSkeleton isBlankAfter (shapeMoved distance count shape) =
      shapeSkeleton (fun offset => isBlankAfter (offset + distance)) shape
  | .chunk body | .conditional body | .doBlock body | .returnStatement body | .table body => by
    simp only [shapeMoved, shapeSkeleton, listSkeleton_moved]
  | .localVariables names values | .assignment names values => by
    simp only [shapeMoved, shapeSkeleton, listSkeleton_moved]
  | .callStatement node | .gotoStatement node | .labelStatement node | .valueField node
  | .unary _ node => by
    simp only [shapeMoved, shapeSkeleton, skeleton_moved]
  | .function _ name parameters body => by
    simp only [shapeMoved, shapeSkeleton, optionSkeleton_moved, listSkeleton_moved]
  | .clause _ condition body => by
    simp only [shapeMoved, shapeSkeleton, optionSkeleton_moved, listSkeleton_moved]
  | .whileLoop condition body | .repeatLoop body condition | .call condition body => by
    simp only [shapeMoved, shapeSkeleton, skeleton_moved, listSkeleton_moved]
  | .numericFor counter first last step body => by
    simp only [shapeMoved, shapeSkeleton, skeleton_moved, optionSkeleton_moved, listSkeleton_moved]
  | .genericFor names iterators body => by
    simp only [shapeMoved, shapeSkeleton, listSkeleton_moved]
  | .keyField first second | .nameField first second | .binary _ first second
  | .member _ first second | .index first second | .tableCall first second
  | .stringCall first second => by
    simp only [shapeMoved, shapeSkeleton, skeleton_moved]
  | .breakStatement | .identifier _ | .literal _ _ | .invalid => rfl

/-- The skeletons of moved nodes. Counterpart of `listSkeleton`. -/
theorem listSkeleton_moved (isBlankAfter : Nat → Bool) : ∀ nodes : List Node,
    listSkeleton isBlankAfter (listMoved distance count nodes) =
      listSkeleton (fun offset => isBlankAfter (offset + distance)) nodes
  | [] => rfl
  | ⟨_, shape, span, inParens⟩ :: rest => by
    rw [listMoved, listSkeleton, listSkeleton, skeleton_moved, listSkeleton_moved,
      isEmpty_listMoved]
    rfl

/-- The skeleton of a moved optional node. Counterpart of `optionSkeleton`. -/
theorem optionSkeleton_moved (isBlankAfter : Nat → Bool) : ∀ node : Option Node,
    optionSkeleton isBlankAfter (optionMoved distance count node) =
      optionSkeleton (fun offset => isBlankAfter (offset + distance)) node
  | none => rfl
  | some node => congrArg some (skeleton_moved isBlankAfter false node)

end

@[simp] theorem shape_moved (node : Node) :
    (node.moved distance count).shape = shapeMoved distance count node.shape := by
  cases node
  rfl

@[simp] theorem moved_parenthesise (node : Node) :
    node.parenthesise.moved distance count = (node.moved distance count).parenthesise := by
  cases node
  rfl

/-- A call that is moved is a call. Counterpart of `Shape.isCall`. -/
theorem isCall_shapeMoved (shape : Shape Node) :
    (shapeMoved distance count shape).isCall = shape.isCall := by
  cases shape <;> rfl

/-- Nodes that are moved are as many as before. Counterpart of `listMoved`. -/
theorem listMoved_ne_nil {nodes : List Node} (h : nodes ≠ []) :
    listMoved distance count nodes ≠ [] := by
  cases nodes with
  | nil => exact absurd rfl h
  | cons => exact List.cons_ne_nil _ _

/-- What holds of the moved form of all nodes that it holds of, it does of all nodes of a list.
Counterpart of `SameForms.forall_mem`. -/
theorem forall_mem_listMoved {P : Node → Prop} {nodes : List Node}
    (hmoved : ∀ node, P node → P (node.moved distance count)) (h : ∀ node ∈ nodes, P node) :
    ∀ node ∈ listMoved distance count nodes, P node := by
  induction nodes with
  | nil => exact List.forall_mem_nil _
  | cons node rest ih =>
    obtain ⟨hnode, hrest⟩ := List.forall_mem_cons.1 h
    exact List.forall_mem_cons.2 ⟨hmoved node hnode, ih hrest⟩

/-- A moved tree is of the form of the tree. Counterpart of `SameForm`. -/
theorem sameForm_moved (node : Node) : SameForm (node.moved distance count) node :=
  skeleton_moved _ _ node

/-- A moved statement goes on into a parenthesis if the statement does. Counterpart of
`isCallable_lastExpression?_skeleton`. -/
theorem isCallable_lastExpression?_moved (statement : Node) :
    (statement.moved distance count).lastExpression?.any isCallable =
      statement.lastExpression?.any isCallable := by
  rw [← @isCallable_lastExpression?_skeleton (fun _ => false) false, skeleton_moved,
    isCallable_lastExpression?_skeleton]

end

end Node

/-! ## Moving a derivation -/

/-- The rule, for branches that reach up to a moved offset. Counterpart of `Rule.endingAt`. -/
def Rule.moved (distance : Nat) : Rule → Rule
  | clause stop => clause (stop + distance)
  | clauses stop => clauses (stop + distance)
  | rule => rule

section
variable {distance count : Nat}

/-- The span of moved tokens. Counterpart of `tokensSpan`. -/
theorem tokensSpan_moved {tokens : List Token} (h : tokens ≠ []) :
    tokensSpan (tokens.map (Token.moved distance)) = (tokensSpan tokens).moved distance := by
  cases tokens with
  | nil => exact absurd rfl h
  | cons first rest =>
    simp [tokensSpan, Span.moved, List.getLast?_cons, List.getLast?_map,
      Nat.add_max_add_right]

/-- A node that takes up its tokens does so when both are moved. Counterpart of `nodeOf`. -/
theorem moved_nodeOf {number : Nat} {shape : Shape Node} {tokens : List Token}
    (h : tokens ≠ []) :
    (nodeOf number shape tokens).moved distance count =
      nodeOf (count + number) (Node.shapeMoved distance count shape)
        (tokens.map (Token.moved distance)) := by
  rw [nodeOf, nodeOf, tokensSpan_moved h]
  rfl

/-- The kind of the first token is that of the first moved token. Counterpart of
`Token.kind_moved`. -/
theorem any_head?_moved (kind : Kind) (tokens : List Token) :
    (tokens.map (Token.moved distance)).head?.any (·.kind = kind) =
      tokens.head?.any (·.kind = kind) := by
  cases tokens <;> rfl

/-- The grammar reads moved tokens as the moved nodes. Counterpart of `Derives.keeps`, which is
about other tokens and the form of the nodes only. -/
theorem Derives.moved {isApart : Bool} {rule : Rule} {a b : Nat} {tokens : List Token}
    {nodes : List Node} (h : Derives isApart rule a b tokens nodes) (distance count : Nat) :
    Derives isApart (rule.moved distance) (count + a) (count + b)
      (tokens.map (Token.moved distance)) (Node.listMoved distance count nodes) := by
  induction h
  all_goals
    try simp (disch := simp) only [moved_nodeOf, Node.listMoved, Node.shapeMoved, Node.optionMoved,
      Node.moved_parenthesise, List.map_append, List.map_cons, List.map_nil]
  case identifier ht => exact .identifier ht
  case literal ht => exact .literal ht
  case parens hl hr _ ih => exact .parens hl hr ih
  case table hl hr _ ih => exact .table hl hr ih
  case function hf hl hr he _ _ ihp ihb => exact .function hf hl hr he ihp ihb
  case member hd ht hbase _ ih =>
    exact .member hd ht ((Node.sameForm_moved _).canBeBase hbase) ih
  case index hl hr hbase _ _ ih ihk =>
    exact .index hl hr ((Node.sameForm_moved _).canBeBase hbase) ih ihk
  case call hl hr _ _ ih ihs => exact .call hl hr ih ihs
  case tableCall hl hr _ _ ih ihs => exact .tableCall hl hr ih ihs
  case stringCall ht hs _ ih => exact .stringCall ht hs ih
  case plain hbase _ ih => exact .plain ((Node.sameForm_moved _).canBeBase hbase) ih
  case method hd ht hbase _ ih =>
    exact .method hd ht ((Node.sameForm_moved _).canBeBase hbase) ih
  case unary ht habove _ ih => exact .unary ht ((Node.sameForm_moved _).above habove) ih
  case binary ht hbelow habove _ _ ihl ihr =>
    exact .binary ht ((Node.sameForm_moved _).below hbelow)
      ((Node.sameForm_moved _).above habove) ihl ihr
  case lastExpression _ ih => exact .lastExpression ih
  case moreExpressions ht _ _ ih ihs => exact .moreExpressions ht ih ihs
  case noArguments => exact .noArguments
  case someArguments _ ih => exact .someArguments ih
  case lastName ht => exact .lastName ht
  case moreNames ht hc _ ih => exact .moreNames ht hc ih
  case noParameters => exact .noParameters
  case lastParameter ht => exact .lastParameter ht
  case varargs ht => exact .varargs ht
  case moreParameters ht hc hne _ ih =>
    exact .moreParameters ht hc (Node.listMoved_ne_nil hne) ih
  case keyField hl hr he _ _ ihk ihv => exact .keyField hl hr he ihk ihv
  case nameField ht he _ ih => exact .nameField ht he ih
  case valueField h ih =>
    rw [moved_nodeOf (h.ne_nil rfl)]
    exact .valueField ih
  case noFields => exact .noFields
  case lastField _ ih => exact .lastField ih
  case moreFields ht _ _ ih ihs => exact .moreFields ht ih ihs
  case nameStart ht => exact .nameStart ht
  case nameMember hd ht _ ih => exact .nameMember hd ht ih
  case nameDotted _ ih => exact .nameDotted ih
  case nameMethod hd ht _ ih => exact .nameMethod hd ht ih
  case declaration hk _ ih => exact .declaration hk ih
  case definition hk he _ _ ih ihv => exact .definition hk he ih ihv
  case localFunction hk hf ht hl hr he _ _ ihp ihb =>
    exact .localFunction hk hf ht hl hr he ihp ihb
  case globalFunction hf hl hr he _ _ _ ihn ihp ihb =>
    exact .globalFunction hf hl hr he ihn ihp ihb
  case assignment he htargets _ _ ih ihv =>
    refine .assignment he (Node.forall_mem_listMoved (fun target htarget => ?_) htargets) ih ihv
    exact ⟨(Node.sameForm_moved _).canBeBase htarget.1, (Node.sameForm_moved _).isTarget htarget.2⟩
  case callStatement hcall h ih =>
    rw [moved_nodeOf (h.ne_nil rfl)]
    exact .callStatement (by simpa [Node.isCall_shapeMoved] using hcall) ih
  case conditional hk he _ ih => exact .conditional hk he ih
  case whileLoop hk hd he _ _ ih ihb => exact .whileLoop hk hd he ih ihb
  case doBlock hk he _ ih => exact .doBlock hk he ih
  case repeatLoop hk hu _ _ ihb ih => exact .repeatLoop hk hu ihb ih
  case numericFor hk ht he hm ho hf _ _ _ ih ihl ihb =>
    exact .numericFor hk ht he hm ho hf ih ihl ihb
  case steppedFor hk ht he hm hp ho hf _ _ _ _ ih ihl ihs ihb =>
    exact .steppedFor hk ht he hm hp ho hf ih ihl ihs ihb
  case genericFor hk hi ho hf _ _ _ ihn ihv ihb => exact .genericFor hk hi ho hf ihn ihv ihb
  case breakStatement hk => exact .breakStatement hk
  case gotoStatement hk ht => exact .gotoStatement hk ht
  case labelStatement hl ht hr => exact .labelStatement hl ht hr
  case emptyBlock => exact .emptyBlock
  case semicolon ht _ ih => exact .semicolon ht ih
  case moreStatements hapart _ _ ih ihs =>
    refine .moreStatements (fun htrue hparen => ?_) ih ihs
    rw [Node.isCallable_lastExpression?_moved]
    exact hapart htrue (by rwa [any_head?_moved] at hparen)
  case returnStatement hk hends _ ih =>
    refine .returnStatement hk ?_ ih
    rcases hends with rfl | ⟨s, hs, rfl⟩
    · exact .inl rfl
    · exact .inr ⟨s.moved distance, hs, rfl⟩
  case clause hk ht _ _ ih ihb =>
    simp only [Node.moved, Node.shapeMoved, Node.optionMoved, Span.moved, ← Nat.add_max_add_right]
    exact .clause hk ht ih ihb
  case elseClause hk _ ih =>
    simp only [Node.moved, Node.shapeMoved, Node.optionMoved, Span.moved, ← Nat.add_max_add_right]
    exact .elseClause hk ih
  case lastClause _ ih => exact .lastClause ih
  case moreClauses hk helse _ _ ih ihs =>
    exact .moreClauses hk (by rwa [any_head?_moved]) ih ihs

end

/-! ## The tokens of a valid text -/

/-- The grammar reads only tokens that can be part of a program. Counterpart of `Kind.isWord`. -/
theorem Derives.isWord {isApart : Bool} {rule : Rule} {a b : Nat} {tokens : List Token}
    {nodes : List Node} (h : Derives isApart rule a b tokens nodes) :
    ∀ token ∈ tokens, token.kind.isWord = true := by
  have hsymbol : ∀ mark : Symbol, (Kind.symbol mark).isWord = true := fun _ => rfl
  have hkeyword : ∀ word : Keyword, (Kind.keyword word).isWord = true := fun _ => rfl
  have hname : Kind.identifier.isWord = true := rfl
  induction h
  case literal ht => exact List.forall_mem_singleton.2 (Kind.isWord_of_literalKind? ht)
  case stringCall ht _ _ ih =>
    exact List.forall_mem_append.2
      ⟨ih, List.forall_mem_singleton.2 (Kind.isWord_of_literalKind? ht)⟩
  case unary op _ _ ht _ _ ih =>
    have hop : op.kind.isWord = true := by cases op <;> rfl
    exact List.forall_mem_cons.2 ⟨by rwa [UnaryOp.eq_kind_of_ofKind? ht], ih⟩
  case binary op _ _ _ _ ht _ _ _ _ ihl ihr =>
    have hop : op.kind.isWord = true := by cases op <;> rfl
    exact List.forall_mem_append.2
      ⟨ihl, List.forall_mem_cons.2 ⟨by rwa [BinaryOp.eq_kind_of_ofKind? ht], ihr⟩⟩
  case moreFields ht _ _ ih ihs =>
    refine List.forall_mem_append.2 ⟨ih, List.forall_mem_cons.2 ⟨?_, ihs⟩⟩
    rcases ht with ht | ht <;> rw [ht, hsymbol]
  case returnStatement hk hends _ ih =>
    refine List.forall_mem_cons.2 ⟨by rw [hk, hkeyword], List.forall_mem_append.2 ⟨ih, ?_⟩⟩
    rcases hends with rfl | ⟨s, hs, rfl⟩
    · exact List.forall_mem_nil _
    · exact List.forall_mem_singleton.2 (by rw [hs, hsymbol])
  case clause hk ht _ _ ih ihb =>
    refine List.forall_mem_cons.2 ⟨?_, List.forall_mem_append.2
      ⟨ih, List.forall_mem_cons.2 ⟨by rw [ht, hkeyword], ihb⟩⟩⟩
    rcases hk with hk | hk <;> rw [hk, hkeyword]
  all_goals simp_all [or_imp, forall_and]

/-- The tokens of a valid text without comments and a shebang, between other tokens. Counterpart of
`Scan.tokensFrom_moved`. -/
theorem tokensFrom_inside {text : List Char} (h : (parse text).isValid = true)
    (hcomments : (parse text).comments = []) (hshebang : (parse text).shebang = none)
    {distance : Nat} (hdistance : 0 < distance) (other : List Char) :
    Scan.tokensFrom distance (text ++ ' ' :: other) =
      (parse text).tokens.map (Token.moved distance) ++
        Scan.tokensFrom (distance + byteLength text + 1) other := by
  have hcode : ∀ token ∈ tokenise text, Program.isCode token = true := fun token hmem => by
    have hcomment := List.filterMap_eq_nil_iff.1 hcomments token hmem
    have hline := List.find?_eq_none.1 hshebang token hmem
    unfold Program.commentOf? at hcomment
    split at hcomment
    · cases hcomment
    · simp_all [Program.isCode]
  have htokens : (parse text).tokens = tokenise text := List.filter_eq_self.2 hcode
  have hword : ∀ token ∈ Scan.tokensFrom 0 text, token.kind.isWord = true := by
    have hall := (derives_of_isValid h).isWord
    rwa [htokens] at hall
  have hmoved := Scan.tokensFrom_moved hdistance hword other
  rw [Nat.zero_add] at hmoved
  rw [hmoved, htokens]
  rfl

end LuaFormatter
