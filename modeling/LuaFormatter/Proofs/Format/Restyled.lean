import LuaFormatter.Format.Program
import LuaFormatter.Proofs.Format.Skeleton

/-!
# The style and the document

A document is put together with three of the choices of a style, those that `Style.wording` keeps:
the quotes, the comma after the last field, and the spaces inside braces. Two styles with the same
wording have the same document of every program, with its comments (`Program.toDoc_congr`). What
lines are indented with and end with is left to the layout.
-/

namespace LuaFormatter

/-- The context in another style. -/
def Context.restyled (context : Context) (style : Style) : Context :=
  { context with style }

namespace Context

variable (context : Context) (style : Style) (node : Node)

@[simp] theorem hasComments_restyled :
    (context.restyled style).hasComments node = context.hasComments node :=
  rfl

@[simp] theorem withComments_restyled (printed : Doc) :
    (context.restyled style).withComments node printed = context.withComments node printed :=
  rfl

@[simp] theorem emptyParens_restyled :
    (context.restyled style).emptyParens node = context.emptyParens node :=
  rfl

@[simp] theorem separated_restyled (body : List Printed) :
    (context.restyled style).separated body = context.separated body := by
  fun_induction separated context body with
  | case1 | case2 => rfl
  | case3 statement next rest separator blankLine ih =>
    rw [separated, ih]
    rfl

@[simp] theorem body?_restyled (body : List Printed) :
    (context.restyled style).body? node body = context.body? node body := by
  simp only [body?, statements, separated_restyled]
  rfl

@[simp] theorem bodyAndEnd_restyled (body : List Printed) :
    (context.restyled style).bodyAndEnd node body = context.bodyAndEnd node body := by
  simp only [bodyAndEnd, body?_restyled]

@[simp] theorem clause_restyled (kind : ClauseKind) (condition : Option Doc) (body : List Printed) :
    (context.restyled style).clause node kind condition body =
      context.clause node kind condition body := by
  simp only [clause, body?_restyled]

@[simp] theorem chunk_restyled (body : List Printed) :
    (context.restyled style).chunk node body = context.chunk node body := by
  simp only [chunk, statements, separated_restyled]
  rfl

@[simp] theorem conditional_restyled (clauses : List Printed) :
    (context.restyled style).conditional clauses = context.conditional clauses :=
  rfl

@[simp] theorem keyField_restyled (key value : Printed) :
    (context.restyled style).keyField key value = context.keyField key value :=
  rfl

/-- A table is printed alike in a style of the same wording. Counterpart of `Context.table`. -/
theorem table_restyled {style : Style} (h : style.wording = context.style.wording)
    (fields : List Printed) :
    (context.restyled style).table node fields = context.table node fields := by
  have hcomma : style.trailingComma = context.style.trailingComma :=
    (congrArg Style.trailingComma h :)
  have hspacing : style.bracketSpacing = context.style.bracketSpacing :=
    (congrArg Style.bracketSpacing h :)
  simp only [table, restyled, hcomma, hspacing]
  rfl

@[simp] theorem commaSeparated_restyled (arguments : List Argument) :
    (context.restyled style).commaSeparated arguments = context.commaSeparated arguments := by
  induction arguments with
  | nil => rfl
  | cons argument rest ih =>
    cases rest with
    | nil => rfl
    | cons next rest => exact congrArg (List.cons _) ih

@[simp] theorem arguments_restyled (arguments : List Argument) :
    (context.restyled style).arguments node arguments = context.arguments node arguments := by
  simp only [Context.arguments, commaSeparated_restyled]
  rfl

end Context

/-- The node is printed alike in the other style, wherever it stands. -/
def PrintsRestyled (context : Context) (style : Style) (node : Node) : Prop :=
  ∀ place, compile (context.restyled style) place node = compile context place node

section
variable {context : Context} {style : Style} {node : Node} {nodes : List Node}

/-- The operands of `..` down the right side. Counterpart of `concatTail`. -/
theorem concatTail_restyled
    (ih : ∀ child : Node, child.size ≤ node.size → PrintsRestyled context style child) :
    concatTail (context.restyled style) node = concatTail context node := by
  induction hn : node.size using Nat.strongRecOn generalizing node with
  | _ n hrec =>
  have hplain : ([], compile (context.restyled style) (Place.right .concat) node) =
      (([], compile context (Place.right .concat) node) : List Doc × Doc) := by
    rw [ih node (Nat.le_refl _)]
  obtain ⟨number, shape, span, inParens⟩ := node
  rw [concatTail, concatTail]
  cases shape with
  | binary op left right =>
    cases op with
    | concat =>
      have hright : right.size < (Node.mk number (.binary .concat left right) span inParens).size :=
        Node.size_lt_of_mem_children (by simp [Node.children, Shape.children])
      have hleft : left.size < (Node.mk number (.binary .concat left right) span inParens).size :=
        Node.size_lt_of_mem_children (by simp [Node.children, Shape.children])
      have htail := hrec right.size (hn ▸ hright)
        (fun child hsize => ih child (Nat.le_trans hsize (Nat.le_of_lt hright))) rfl
      simp only [Node.shape_mk, Context.hasComments_restyled, htail,
        ih left (Nat.le_of_lt hleft) (Place.left .concat)]
      split
      · exact hplain
      · rfl
    | _ => exact hplain
  | _ => exact hplain

/-- The parts of a chain of operators. Counterpart of `chain`. -/
theorem chain_restyled (parentLogical : Option Bool)
    (ih : ∀ child : Node, child.size < node.size → PrintsRestyled context style child) :
    chain (context.restyled style) parentLogical node = chain context parentLogical node := by
  induction hn : node.size using Nat.strongRecOn generalizing node parentLogical with
  | _ n hrec =>
  obtain ⟨number, shape, span, inParens⟩ := node
  rw [chain, chain]
  cases shape with
  | binary op left right =>
    have hright : right.size < (Node.mk number (.binary op left right) span inParens).size :=
      Node.size_lt_of_mem_children (by simp [Node.children, Shape.children])
    have hleft : left.size < (Node.mk number (.binary op left right) span inParens).size :=
      Node.size_lt_of_mem_children (by simp [Node.children, Shape.children])
    have hfront := hrec left.size (hn ▸ hleft) (some op.isLogical)
      (fun child hsize => ih child (Nat.lt_trans hsize hleft)) rfl
    have htail : concatTail (context.restyled style) right = concatTail context right :=
      concatTail_restyled fun child hsize => ih child (Nat.lt_of_le_of_lt hsize hright)
    simp only [Node.shape_mk, hfront, htail, ih left hleft (Place.left op),
      ih right hright (Place.right op)]
    rfl
  | _ => rfl

/-- The nodes of a list are printed alike where all are printed at the top. Counterpart of
`PrintsRestyled`. -/
theorem each_restyled (h : ∀ child ∈ nodes, PrintsRestyled context style child) :
    (nodes.map fun child => (⟨child, compile (context.restyled style) {} child⟩ : Printed)) =
      nodes.map fun child => ⟨child, compile context {} child⟩ :=
  List.map_congr_left fun child hmem => by rw [h child hmem]

/-- The nodes of a list are printed alike where each is printed at its place. Counterpart of
`PrintsRestyled`. -/
theorem indexed_restyled (place : Nat → Place)
    (h : ∀ child ∈ nodes, PrintsRestyled context style child) :
    (nodes.mapIdx fun index child =>
        (⟨child, compile (context.restyled style) (place index) child⟩ : Printed)) =
      nodes.mapIdx fun index child => ⟨child, compile context (place index) child⟩ := by
  apply List.ext_getElem
  · simp
  · intro index _ _
    simp only [List.getElem_mapIdx]
    rw [h _ (List.getElem_mem _)]

/-- An optional node is printed alike. Counterpart of `PrintsRestyled`. -/
theorem option_restyled (option : Option Node)
    (h : ∀ child ∈ option, PrintsRestyled context style child) :
    option.map (compile (context.restyled style) {}) = option.map (compile context {}) := by
  cases option with
  | none => rfl
  | some child => exact congrArg some (h child rfl {})

/-- The arguments of a call are printed alike, each at its place and also where they are hugged.
Counterpart of `PrintsRestyled`. -/
theorem mapIdx_restyled (nodes : List Node)
    (h : ∀ child ∈ nodes, PrintsRestyled context style child) :
    (nodes.mapIdx fun index child =>
        ({ node := child
           doc := compile (context.restyled style) (Place.argument nodes.length index) child
           hugged :=
            if (hug? nodes).any (·.isAt nodes.length index) then
              some (compile (context.restyled style)
                { Place.argument nodes.length index with isHugged := true } child)
            else none } : Argument)) =
      nodes.mapIdx fun index child =>
        { node := child
          doc := compile context (Place.argument nodes.length index) child
          hugged :=
            if (hug? nodes).any (·.isAt nodes.length index) then
              some (compile context { Place.argument nodes.length index with isHugged := true }
                child)
            else none } := by
  apply List.ext_getElem
  · simp
  · intro index _ _
    simp only [List.getElem_mapIdx]
    rw [h _ (List.getElem_mem _), h _ (List.getElem_mem _)]

/-- The document of a node without its comments is the same if those of its parts are. Counterpart
of `coreDoc`. -/
theorem coreDoc_restyled (hwording : style.wording = context.style.wording) (place : Place)
    (ih : ∀ child : Node, child.size < node.size → PrintsRestyled context style child) :
    coreDoc (context.restyled style) place node = coreDoc context place node := by
  have hchild : ∀ child ∈ node.children, PrintsRestyled context style child :=
    fun child hmem => ih child (Node.size_lt_of_mem_children hmem)
  have hchain := chain_restyled (place.parentLogical) ih
  obtain ⟨number, shape, span, inParens⟩ := node
  have hone : ∀ child ∈ shape.children, PrintsRestyled context style child := hchild
  have heach : ∀ nodes ⊆ shape.children,
      (nodes.map fun child => (⟨child, compile (context.restyled style) {} child⟩ : Printed)) =
        nodes.map fun child => ⟨child, compile context {} child⟩ :=
    fun nodes hsubset => each_restyled fun child hmem => hone child (hsubset hmem)
  have hindexed : ∀ nodes ⊆ shape.children, ∀ place : Nat → Place,
      (nodes.mapIdx fun index child =>
          (⟨child, compile (context.restyled style) (place index) child⟩ : Printed)) =
        nodes.mapIdx fun index child => ⟨child, compile context (place index) child⟩ :=
    fun nodes hsubset place => indexed_restyled place fun child hmem => hone child (hsubset hmem)
  simp only [coreDoc, Node.shape_mk]
  cases shape with
  | chunk body | doBlock body | conditional body =>
    simp [heach body (by simp [Shape.children])]
  | localVariables names values =>
    simp only [heach names (by simp [Shape.children]),
      hindexed values (by simp [Shape.children]) (Place.value values.length)]
  | assignment targets values =>
    simp only [heach targets (by simp [Shape.children]),
      hindexed values (by simp [Shape.children]) (Place.value values.length)]
  | function isLocal name parameters body =>
    have hname := option_restyled name fun child hmem =>
      hone child (by simp_all [Shape.children])
    simp only [hname, heach parameters (by simp [Shape.children]),
      heach body (by simp [Shape.children]), Context.emptyParens_restyled,
      Context.bodyAndEnd_restyled]
  | clause kind condition body =>
    have hcondition := option_restyled condition fun child hmem =>
      hone child (by simp_all [Shape.children])
    simp only [hcondition, heach body (by simp [Shape.children]), Context.clause_restyled]
  | whileLoop condition body | repeatLoop body condition =>
    simp only [hone condition (by simp [Shape.children]) {}, heach body (by simp [Shape.children]),
      Context.body?_restyled, Context.bodyAndEnd_restyled]
  | numericFor counter first last step body =>
    have hstep := option_restyled step fun child hmem =>
      hone child (by simp_all [Shape.children])
    simp only [hone counter (by simp [Shape.children]) {}, hone first (by simp [Shape.children]) {},
      hone last (by simp [Shape.children]) {}, hstep,
      heach body fun child hmem => by simp [Shape.children, hmem], Context.bodyAndEnd_restyled]
  | genericFor names iterators body =>
    simp only [heach names (by simp [Shape.children]),
      hindexed iterators (by simp [Shape.children]) (Place.argument iterators.length),
      heach body (by simp [Shape.children]), Context.bodyAndEnd_restyled]
  | returnStatement values =>
    simp only [hindexed values (by simp [Shape.children]) (Place.value values.length)]
  | gotoStatement child | labelStatement child | callStatement child | unary op child =>
    simp only [hone child (by simp [Shape.children]) {}]
  | literal kind text =>
    have hquotes : style.quotes = context.style.quotes := (congrArg Style.quotes hwording :)
    simp only [literalDoc, Context.restyled, hquotes]
  | table fields =>
    simp only [hindexed fields (by simp [Shape.children]) (Place.argument fields.length),
      Context.table_restyled _ _ hwording]
  | keyField key value =>
    simp only [hone key (by simp [Shape.children]) Place.field,
      hone value (by simp [Shape.children]) Place.field, Context.keyField_restyled]
  | nameField name value =>
    simp only [hone name (by simp [Shape.children]) {},
      hone value (by simp [Shape.children]) Place.field]
  | valueField value => exact hone value (by simp [Shape.children]) _
  | binary op left right => rw [hchain]
  | member indexer base key | index base key =>
    simp only [hone base (by simp [Shape.children]) Place.base,
      hone key (by simp [Shape.children]) {}]
  | call base arguments =>
    have harguments := mapIdx_restyled arguments fun child hmem =>
      hone child (by simp [Shape.children, hmem])
    simp only [hone base (by simp [Shape.children]) Place.base, harguments,
      Context.arguments_restyled]
  | tableCall base argument | stringCall base argument =>
    simp only [hone base (by simp [Shape.children]) Place.base,
      hone argument (by simp [Shape.children]) {}]
  | breakStatement | identifier name | invalid => rfl

/-- Every node is printed alike in a style with the same wording. Counterpart of `compile`. -/
theorem compile_restyled (hwording : style.wording = context.style.wording) :
    PrintsRestyled context style node := by
  induction hn : node.size using Nat.strongRecOn generalizing node with
  | _ n ih =>
  intro place
  have hcore := coreDoc_restyled hwording place fun child hsize => ih child.size (hn ▸ hsize) rfl
  rw [compile_eq, compile_eq, hcore]
  rfl

end

/-- The document of a program depends on the wording of the style only. Counterpart of
`Program.toDoc`. -/
theorem Program.toDoc_congr (program : Program) {style other : Style}
    (h : other.wording = style.wording) : program.toDoc other = program.toDoc style := by
  have hcompile : PrintsRestyled (Context.ofProgram program style) other program.root :=
    compile_restyled h
  exact hcompile {}

end LuaFormatter
