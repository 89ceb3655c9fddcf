import LuaFormatter.Proofs.Format.Announced
import LuaFormatter.Proofs.Layout.Measure

/-!
# Flat groups stay on one line

Every document that the formatter writes announces its breaks (`announces_compile`), by recursion
over the tree with one case for each shape. So a group that need not break stays flat, wherever it
stands in the document, and when the layout prints it flat it does not leave the line
(`flatGroup_staysOnLine`).
-/

namespace LuaFormatter

open Doc

section
variable {context : Context} {place : Place} {node left right : Node} {op : BinaryOp}
  {doc other : Doc}

/-! ## Hugged arguments -/

/-- Whether a document with its comments breaks depends on the document by whether it breaks.
Counterpart of `Context.withComments`. -/
theorem willBreak_withComments (context : Context) (node : Node)
    (h : doc.willBreak = other.willBreak) :
    (context.withComments node doc).willBreak = (context.withComments node other).willBreak := by
  unfold Context.withComments
  dsimp only
  split
  · exact h
  · simp [h]

/-- Parameters break if one of them does. Counterpart of `parametersDoc`. -/
theorem willBreak_parametersDoc (isHugged : Bool) (parameters : List Printed) :
    (parametersDoc isHugged parameters).willBreak =
      (parameters.map Printed.doc).any Doc.willBreak := by
  have hclose := @willBreak_join (.text ", ") rfl (parameters.map Printed.doc)
  have hlines := @willBreak_join Doc.commaLine rfl (parameters.map Printed.doc)
  unfold parametersDoc
  split
  · simp [hclose, willBreak]
  · simp [Doc.grouped, Doc.groupedIf, Doc.indented, hlines, willBreak, commaList]

/-- A hugged function breaks if it does elsewhere: only its parameters are written in another way.
Counterpart of `compile`. -/
theorem willBreak_hugged (context : Context) (place : Place) (isHugged : Bool) (node : Node) :
    (compile context { place with isHugged } node).willBreak =
      (compile context place node).willBreak := by
  have hcore : (coreDoc context { place with isHugged } node).willBreak =
      (coreDoc context place node).willBreak := by
    cases hshape : node.shape with
    | function isLocal name parameters body =>
      simp only [coreDoc, hshape, willBreak_cat, List.any_cons]
      cases parameters.isEmpty with
      | true => rfl
      | false => simp [willBreak_parametersDoc]
    | _ => simp only [coreDoc, hshape]
  have hparens : (parenthesisedDoc node (coreDoc context { place with isHugged } node)).willBreak =
      (parenthesisedDoc node (coreDoc context place node)).willBreak := by
    unfold parenthesisedDoc
    split
    · simp [Doc.grouped, Doc.groupedIf, Doc.indented, willBreak, hcore]
    · simp [hcore]
  rw [compile_eq, compile_eq]
  refine willBreak_withComments context node ?_
  have hneeds : needsParens { place with isHugged } node = needsParens place node := rfl
  rw [hneeds]
  split
  · exact hparens
  · exact hcore

/-! ## Chains of operators -/

/-- An operator with its right operand announces its breaks. Counterpart of `operationDoc`. -/
theorem announces_operation (isOwn : Bool) (op : BinaryOp) (h : doc.Announces) :
    (operationDoc isOwn op doc).Announces := by
  have hop : '\n' ∉ op.text.toList := by cases op <;> decide
  unfold operationDoc
  split
  · exact .grouped (by simp [hop, h])
  · exact .cat (by simp [hop, h])

/-- The texts of the leaves of a tree are on one line each, as they are written in a style. -/
def OneLineTree (style : Style) (node : Node) : Prop :=
  ∀ part : Node, part.Part node → part.shape.HasText style Kind.OneLine

/-- A child of a tree on one line is one. Counterpart of `OneLineTree`. -/
theorem OneLineTree.child {style : Style} {child : Node} (h : OneLineTree style node)
    (hchild : child ∈ node.children) : OneLineTree style child :=
  fun part hpart => h part (.child hchild hpart)

/-- The parts of a concatenation announce their breaks, and so does the last of them on its own.
Counterpart of `concatTail`. -/
theorem announces_concatTail (htree : OneLineTree context.style node)
    (ih : ∀ place child, child.size ≤ node.size → OneLineTree context.style child →
      (compile context place child).Announces) :
    (∀ doc ∈ (concatTail context node).1, doc.Announces) ∧
      (concatTail context node).2.Announces := by
  have hwhole := ih (Place.right .concat) node (Nat.le_refl _) htree
  induction hn : node.size using Nat.strongRecOn generalizing node with
  | _ n hrec =>
  rw [concatTail]
  split
  · rename_i left right hshape
    split
    · exact ⟨nofun, hwhole⟩
    · have hleftMem : left ∈ node.children := by simp [Node.children, hshape, Shape.children]
      have hrightMem : right ∈ node.children := by simp [Node.children, hshape, Shape.children]
      obtain ⟨hleft, hright⟩ := Node.size_operands_lt hshape
      have hlast := ih (Place.right .concat) right (by omega) (htree.child hrightMem)
      have hoperand := ih (Place.left .concat) left (by omega) (htree.child hleftMem)
      have htail := hrec right.size (hn ▸ hright) (htree.child hrightMem)
        (fun place child hchild => ih place child (by omega)) hlast rfl
      have hoperation := announces_operation false .concat hoperand
      refine ⟨?_, htail.2⟩
      simp only [List.forall_mem_cons]
      exact ⟨by simp, hoperation, htail.1⟩
  · exact ⟨nofun, hwhole⟩

/-- The parts of a chain announce their breaks, by recursion down its left side. Counterpart of
`chain`. -/
theorem announces_chain (hwrites : context.Writes Kind.OneLine) (parentLogical : Option Bool)
    (htree : OneLineTree context.style node) (hshape : node.shape = .binary op left right)
    (ih : ∀ place child, child.size < node.size → OneLineTree context.style child →
      (compile context place child).Announces) :
    ∀ doc ∈ chain context parentLogical node, doc.Announces := by
  induction hn : node.size using Nat.strongRecOn generalizing node op left right parentLogical with
  | _ n hrec =>
  have hleftMem : left ∈ node.children := by simp [Node.children, hshape, Shape.children]
  have hrightMem : right ∈ node.children := by simp [Node.children, hshape, Shape.children]
  obtain ⟨hleft, hright⟩ := Node.size_operands_lt hshape
  rw [chain_binary parentLogical hshape, List.forall_mem_append]
  constructor
  · split
    · rename_i hcontinues
      obtain ⟨-, child, first, second, hchild⟩ := binary_of_continuesChain hcontinues
      have hparts := hrec left.size (hn ▸ hleft) (some op.isLogical) (htree.child hleftMem) hchild
        (fun place child hchild => ih place child (by omega)) rfl
      split
      · exact List.forall_mem_singleton.2 (announces_withComments hwrites (.concat hparts))
      · exact hparts
    · exact List.forall_mem_singleton.2 (ih _ left hleft (htree.child hleftMem))
  · split
    · obtain ⟨hparts, hlast⟩ := announces_concatTail (htree.child hrightMem)
        fun place child hchild => ih place child (by omega)
      rw [List.forall_mem_append]
      exact ⟨hparts, by simp [announces_operation _ op hlast]⟩
    · simp [announces_operation _ op (ih _ right hright (htree.child hrightMem))]

/-- A chain of operators announces the breaks of its parts. Counterpart of `chainDoc`. -/
theorem announces_chainDoc (inParens isAlone : Bool) {parts : List Doc}
    (h : ∀ part ∈ parts, part.Announces) :
    (chainDoc inParens isAlone parts).Announces := by
  unfold chainDoc
  split
  · exact .concat h
  · split
    · exact .grouped (by simpa using Announces.concat h)
    · split
      · rename_i first rest
        have hrest := Announces.concat fun part hpart => h part (List.mem_cons_of_mem first hpart)
        have hindented := @Announces.indented [.concat rest] (by simpa using hrest)
        exact .grouped (by simp [hindented, h first List.mem_cons_self])
      · exact .empty

/-! ## The tree -/

/-- A literal announces its line breaks. Counterpart of `literalDoc`. -/
theorem announces_literalDoc (style : Style) {kind : LiteralKind} {text : String}
    (h : (literalSlot style kind text).HasText Kind.OneLine) :
    (literalDoc style kind text).Announces := by
  cases kind with
  | string | longString => exact announces_verbatim _
  | number | nil | vararg => exact Announces.text_iff.2 (h rfl)
  | boolean =>
    rw [literalDoc]
    · exact Announces.text_iff.2 (h (by split <;> rfl))
    all_goals simp

/-- What is written for each of the nodes announces its breaks, at every place. -/
def AnnounceNodes (context : Context) (nodes : List Node) : Prop :=
  ∀ place, ∀ child ∈ nodes, (compile context place child).Announces

variable {nodes : List Node}

/-- The nodes of a list announce their breaks where all are printed at the top. Counterpart of
`AnnounceEach`. -/
theorem AnnounceNodes.each (h : AnnounceNodes context nodes) :
    AnnounceEach (nodes.map fun child => ⟨child, compile context {} child⟩) := by
  intro item hitem
  obtain ⟨child, hchild, rfl⟩ := List.mem_map.1 hitem
  exact h {} child hchild

/-- The nodes of a list announce their breaks where each is printed at its place. Counterpart of
`AnnounceEach`. -/
theorem AnnounceNodes.indexed (h : AnnounceNodes context nodes) (place : Nat → Place) :
    AnnounceEach (nodes.mapIdx fun index child =>
        ⟨child, compile context (place index) child⟩) := by
  intro item hitem
  obtain ⟨index, hindex, rfl⟩ := List.mem_mapIdx.1 hitem
  exact h _ _ (List.getElem_mem hindex)

/-- What some nodes announce, fewer of them do. Counterpart of `AnnounceNodes`. -/
theorem AnnounceNodes.subset (h : AnnounceNodes context nodes) (others : List Node)
    (hsub : others ⊆ nodes) :
    AnnounceNodes context others :=
  fun place child hchild => h place child (hsub hchild)

/-- A part that may be left out, after a text. Counterpart of `coreDoc`, where a part may be
missing. -/
theorem announces_optional {lead : String} {part : Option Node} (hlead : (Doc.text lead).Announces)
    (h : ∀ child ∈ part, (compile context {} child).Announces) :
    (match part.map (compile context {}) with
      | some part => Doc.cat [.text lead, part]
      | none => Doc.empty).Announces := by
  cases part with
  | none => exact .empty
  | some child =>
    exact .cat (List.forall_mem_cons.2 ⟨hlead, List.forall_mem_singleton.2 (h child rfl)⟩)

/-- The case of local variables in the induction over the tree. Counterpart of `coreDoc`. -/
theorem announces_localVariables {names initial : List Node}
    (hshape : node.shape = .localVariables names initial)
    (h : AnnounceNodes context node.children) :
    (coreDoc context place node).Announces := by
  rw [Node.children, hshape] at h
  have hnames := announces_commaList (h.subset names (by simp [Shape.children])).each
  have hinitial := announces_assignedValues
    ((h.subset initial (by simp [Shape.children])).indexed (Place.value initial.length))
  have hindented := Announces.indented (List.forall_mem_singleton.2 hnames)
  have hgroup := @Announces.grouped [.text "local ", Doc.indented _] (by simpa using hindented)
  simp only [coreDoc, hshape]
  split
  · exact hgroup
  · exact .cat (by simp [hgroup, hinitial])

/-- The case of a function in the induction over the tree. Counterpart of `coreDoc`. -/
theorem announces_function (hwrites : context.Writes Kind.OneLine) {isLocal : Bool}
    {name : Option Node} {parameters body : List Node}
    (hshape : node.shape = .function isLocal name parameters body)
    (h : AnnounceNodes context node.children) : (coreDoc context place node).Announces := by
  rw [Node.children, hshape] at h
  have hkeyword : (Doc.text (if isLocal then "local function" else "function")).Announces := by
    cases isLocal <;> simp
  have hname := @announces_optional context " " name (by simp)
    fun child hchild => h {} child (by simp [Shape.children, Option.mem_def.1 hchild])
  have hparens := announces_emptyParens hwrites node
  have hparameters := announces_parametersDoc place.isHugged
    (h.subset parameters fun _ h => by simp [Shape.children, h]).each
  have hbody := announces_bodyAndEnd hwrites node
    (h.subset body fun _ h => by simp [Shape.children, h]).each
  simp only [coreDoc, hshape]
  refine .cat (List.forall_mem_cons.2 ⟨hkeyword, List.forall_mem_cons.2 ⟨hname, ?_⟩⟩)
  split <;> simp [hparens, hparameters, hbody]

/-- The case of a loop over numbers in the induction over the tree, with and without a step.
Counterpart of `coreDoc`. -/
theorem announces_numericFor (hwrites : context.Writes Kind.OneLine) {counter first last : Node}
    {step : Option Node} {body : List Node}
    (hshape : node.shape = .numericFor counter first last step body)
    (h : AnnounceNodes context node.children) : (coreDoc context place node).Announces := by
  rw [Node.children, hshape] at h
  have hcounter := h {} counter (by simp [Shape.children])
  have hfirst := h {} first (by simp [Shape.children])
  have hlast := h {} last (by simp [Shape.children])
  have hstep := @announces_optional context ", " step (by simp)
    fun child hchild => h {} child (by simp [Shape.children, Option.mem_def.1 hchild])
  have hbody := announces_bodyAndEnd hwrites node
    (h.subset body fun _ h => by simp [Shape.children, h]).each
  simp only [coreDoc, hshape]
  refine .cat ?_
  simp only [List.forall_mem_cons]
  exact ⟨by simp, hcounter, by simp, hfirst, by simp, hlast, hstep, by simp, hbody, by simp⟩

/-- The case of a loop over iterators in the induction over the tree. Counterpart of `coreDoc`. -/
theorem announces_genericFor (hwrites : context.Writes Kind.OneLine)
    {names iterators body : List Node} (hshape : node.shape = .genericFor names iterators body)
    (h : AnnounceNodes context node.children) :
    (coreDoc context place node).Announces := by
  rw [Node.children, hshape] at h
  have hnames := announces_commaList (h.subset names fun _ h => by simp [Shape.children, h]).each
  have hiterators := announces_commaList
    ((h.subset iterators fun _ h => by simp [Shape.children, h]).indexed
      (Place.argument iterators.length))
  have hbody := announces_bodyAndEnd hwrites node
    (h.subset body fun _ h => by simp [Shape.children, h]).each
  have hspread : ∀ list : Doc, list.Announces →
      (Doc.grouped [Doc.indented [.line, list], .line]).Announces := fun list hlist =>
    .grouped (List.forall_mem_cons.2 ⟨.indented (by simp [hlist]), by simp⟩)
  simp only [coreDoc, hshape]
  exact .cat (by simp [hspread _ hnames, hspread _ hiterators, hbody])

/-- The case of a call in the induction over the tree: its arguments may be printed hugged too.
Counterpart of `coreDoc`. -/
theorem announces_call (hwrites : context.Writes Kind.OneLine) {base : Node} {arguments : List Node}
    (hshape : node.shape = .call base arguments) (h : AnnounceNodes context node.children) :
    (coreDoc context place node).Announces := by
  rw [Node.children, hshape] at h
  have hbase := h Place.base base (by simp [Shape.children])
  let printed : List Argument := arguments.mapIdx fun index argument =>
    { node := argument, doc := compile context (Place.argument arguments.length index) argument
      hugged :=
        if (hug? arguments).any (·.isAt arguments.length index) then
          some (compile context { Place.argument arguments.length index with isHugged := true }
            argument)
        else none }
  have hall : AnnounceArguments printed := by
    intro argument hargument
    obtain ⟨index, hindex, rfl⟩ := List.mem_mapIdx.1 hargument
    have hmem := List.mem_cons_of_mem base (List.getElem_mem hindex)
    refine ⟨h _ _ hmem, fun hugged hhugged => ?_⟩
    simp only [Option.mem_def, Option.ite_none_right_eq_some, Option.some.injEq] at hhugged
    obtain ⟨-, rfl⟩ := hhugged
    exact ⟨h _ _ hmem, fun hquiet => (willBreak_hugged ..).trans hquiet⟩
  have hnodes : printed.map (·.node) = arguments := by
    apply List.ext_getElem <;> simp [printed]
  have harguments := announces_arguments hwrites node hall
    fun hug hhug => hugged_mapIdx (hnodes ▸ hhug) _ _
  simp only [coreDoc, hshape]
  exact .cat (List.forall_mem_cons.2 ⟨hbase, List.forall_mem_singleton.2 harguments⟩)

/-- What a node is without its parentheses and comments announces its breaks if its parts do.
Counterpart of `coreDoc`. -/
theorem announces_coreDoc (hwrites : context.Writes Kind.OneLine)
    (htree : OneLineTree context.style node)
    (ih : ∀ place child, child.size < node.size → OneLineTree context.style child →
      (compile context place child).Announces) :
    (coreDoc context place node).Announces := by
  have hall : AnnounceNodes context node.children := fun place child hchild =>
    ih place child (Node.size_lt_of_mem_children hchild) (htree.child hchild)
  have hparts : ∀ nodes, nodes ⊆ node.children → AnnounceNodes context nodes := hall.subset
  have hbodyAndEnd : ∀ body, body ⊆ node.children →
      (context.bodyAndEnd node (body.map fun child =>
        ⟨child, compile context {} child⟩)).Announces :=
    fun body hsub => announces_bodyAndEnd hwrites node (hparts body hsub).each
  cases hshape : node.shape with
  | localVariables names initial => exact announces_localVariables hshape hall
  | function isLocal name parameters body => exact announces_function hwrites hshape hall
  | numericFor counter first last step body => exact announces_numericFor hwrites hshape hall
  | genericFor names iterators body => exact announces_genericFor hwrites hshape hall
  | call base arguments => exact announces_call hwrites hshape hall
  | binary op left right =>
    simp only [coreDoc, hshape]
    exact announces_chainDoc _ _ (announces_chain hwrites _ htree hshape ih)
  | literal kind text =>
    have hleaf := htree node (.self node)
    rw [hshape] at hleaf
    simp only [coreDoc, hshape]
    exact announces_literalDoc _ hleaf
  | identifier name =>
    have hleaf := htree node (.self node)
    rw [hshape] at hleaf
    simp only [coreDoc, hshape]
    exact Announces.text_iff.2 (hleaf rfl)
  | chunk body =>
    simp only [coreDoc, hshape]
    exact announces_chunk hwrites
      (hparts body (by simp [Node.children, hshape, Shape.children])).each
  | assignment targets assigned =>
    have htargets := announces_commaList
      (hparts targets (by simp [Node.children, hshape, Shape.children])).each
    have hassigned := announces_assignedValues
      ((hparts assigned (by simp [Node.children, hshape, Shape.children])).indexed
        (Place.value assigned.length))
    have hindented := Announces.indented (List.forall_mem_singleton.2 htargets)
    have hgroup := Announces.grouped (List.forall_mem_singleton.2 hindented)
    simp only [coreDoc, hshape]
    exact .cat (by simp [hgroup, hassigned])
  | callStatement expression =>
    simp only [coreDoc, hshape]
    exact hall {} expression (by simp [Node.children, hshape, Shape.children])
  | conditional clauses =>
    simp only [coreDoc, hshape]
    exact announces_conditional (hparts clauses
        (by simp [Node.children, hshape, Shape.children])).each
  | clause kind condition body =>
    have hbody := hparts body fun _ h => by simp [Node.children, hshape, Shape.children, h]
    simp only [coreDoc, hshape]
    refine announces_clause hwrites node kind (fun doc hdoc => ?_) hbody.each
    obtain ⟨child, rfl, rfl⟩ := Option.map_eq_some_iff.1 hdoc
    exact hall {} child (by simp [Node.children, hshape, Shape.children])
  | whileLoop condition body =>
    have hcondition := hall {} condition (by simp [Node.children, hshape, Shape.children])
    have hbody := hbodyAndEnd body fun _ h => by simp [Node.children, hshape, Shape.children, h]
    simp only [coreDoc, hshape]
    exact .cat (by simp [hcondition, hbody])
  | doBlock body =>
    have hbody := hbodyAndEnd body fun _ h => by simp [Node.children, hshape, Shape.children, h]
    simp only [coreDoc, hshape]
    exact .cat (by simp [hbody])
  | repeatLoop body condition =>
    have hcondition := hall {} condition (by simp [Node.children, hshape, Shape.children])
    have hbody := hparts body fun _ h => by simp [Node.children, hshape, Shape.children, h]
    simp only [coreDoc, hshape]
    split
    · rename_i inner hinner
      exact .cat (by simp [announces_body hwrites hbody.each hinner, hcondition])
    · exact .cat (by simp [hcondition])
  | returnStatement returned =>
    simp only [coreDoc, hshape]
    exact announces_returnDoc
      ((hparts returned (by simp [Node.children, hshape, Shape.children])).indexed
        (Place.value returned.length))
  | breakStatement => simp [coreDoc, hshape]
  | gotoStatement label | labelStatement label =>
    have hlabel := hall {} label (by simp [Node.children, hshape, Shape.children])
    simp only [coreDoc, hshape]
    exact .cat (by simp [hlabel])
  | table fields =>
    simp only [coreDoc, hshape]
    exact announces_table hwrites node
      ((hparts fields (by simp [Node.children, hshape, Shape.children])).indexed
        (Place.argument fields.length))
  | keyField key value =>
    simp only [coreDoc, hshape]
    exact announces_keyField hwrites
      (hall Place.field key (by simp [Node.children, hshape, Shape.children]))
      (hall Place.field value (by simp [Node.children, hshape, Shape.children]))
  | nameField name value =>
    have hname := hall {} name (by simp [Node.children, hshape, Shape.children])
    have hvalue := hall Place.field value (by simp [Node.children, hshape, Shape.children])
    simp only [coreDoc, hshape]
    exact .cat (by simp [hname, hvalue])
  | valueField value =>
    simp only [coreDoc, hshape]
    exact hall _ value (by simp [Node.children, hshape, Shape.children])
  | unary op operand =>
    simp only [coreDoc, hshape]
    exact announces_unaryDoc op (hall {} operand (by simp [Node.children, hshape, Shape.children]))
  | member indexer base name =>
    have hbase := hall Place.base base (by simp [Node.children, hshape, Shape.children])
    have hname := hall {} name (by simp [Node.children, hshape, Shape.children])
    simp only [coreDoc, hshape]
    refine .cat ?_
    cases indexer <;> simp [hbase, hname, Indexer.text]
  | index base key =>
    have hbase := hall Place.base base (by simp [Node.children, hshape, Shape.children])
    have hkey := hall {} key (by simp [Node.children, hshape, Shape.children])
    simp only [coreDoc, hshape]
    exact .cat (List.forall_mem_cons.2 ⟨hbase, announces_bracketed hkey⟩)
  | tableCall base argument | stringCall base argument =>
    have hbase := hall Place.base base (by simp [Node.children, hshape, Shape.children])
    have hargument := hall {} argument (by simp [Node.children, hshape, Shape.children])
    simp only [coreDoc, hshape]
    exact .cat (by simp [hbase, hargument])
  | invalid =>
    simp only [coreDoc, hshape]
    exact .empty

/-- The document of a node announces its breaks, at every place. Counterpart of `compile`. -/
theorem announces_compile (hwrites : context.Writes Kind.OneLine) (place : Place)
    (htree : OneLineTree context.style node) : (compile context place node).Announces := by
  induction hn : node.size using Nat.strongRecOn generalizing node place with
  | _ n ih =>
  have hcore : (coreDoc context place node).Announces := announces_coreDoc hwrites htree
    fun place child hchild hsub => ih child.size (hn ▸ hchild) place hsub rfl
  rw [compile_eq]
  refine announces_withComments hwrites ?_
  split
  · exact announces_parenthesisedDoc node hcore
  · exact hcore

end

/-- The document of a source announces its breaks. Counterpart of `Program.toDoc`. -/
theorem announces_toDoc (source : List Char) (style : Style) :
    ((parse source).toDoc style).Announces :=
  announces_compile (writes_oneLine source style) {} fun _ hpart => oneLine_leaf hpart

open Layout

/-- Flat groups stay on one line. In the document of a source, with or without faults, what is in a
group that need not break has no line break in the forms that flat printing takes, nothing that
forces one and nothing that is put off. So whenever the layout comes to such a group and prints it
flat, steps lead to what comes after the group without breaking the line and without putting
anything off. Counterpart of `Program.toDoc` and `performGroup`. -/
theorem flatGroup_staysOnLine (source : List Char) (style : Style) {contents : Doc}
    (hgroup : (Doc.group false contents).Within ((parse source).toDoc style)) :
    contents.staysFlat = true ∧
    ∀ level mode rest state next, state.commands = ⟨level, mode, .group false contents⟩ :: rest →
      step style state = some next → next.commands = ⟨level, .flat, contents⟩ :: rest →
      ∃ inks later, Proceeds style state inks later ∧ later.commands = rest ∧
        later.suffixes = state.suffixes ∧ ∀ ink ∈ inks, ink.IsInLine := by
  have hparts := (announces_toDoc source style).parts
  have hflat : contents.staysFlat = true := hparts _ hgroup
  refine ⟨hflat, fun level mode rest state next hcommands hstep hnext => ?_⟩
  exact proceeds_group hflat (fun part hpart => hparts part (hpart.group.trans hgroup)) hcommands
    hstep hnext

/-- The arguments of a call, printed flat at the start of a line. -/
theorem flatGroup_staysOnLine_call :
    let contents := Doc.concat
      [.text "(", .indent (.concat [.softLine, .concat [.text "a"]]), .softLine, .text ")"]
    let state := start (.group false contents)
    let next := { state with commands := [⟨0, .flat, contents⟩] }
    ((Doc.group false contents).Within ((parse "f(a)".toList).toDoc {}) ∧
        state.commands = [⟨0, .broken, .group false contents⟩] ∧ step {} state = some next ∧
        next.commands = [⟨0, .flat, contents⟩]) ∧
      contents.staysFlat = true ∧
      ∃ inks later, Proceeds {} state inks later ∧ later.commands = [] ∧ later.suffixes = [] ∧
        ∀ ink ∈ inks, ink.IsInLine := by
  intro contents state next
  have hdoc : (parse "f(a)".toList).toDoc {} =
      .concat [.concat [.concat [.text "f", .group false contents]], .hardLine] := by
    with_unfolding_all rfl
  have hgroup : (Doc.group false contents).Within ((parse "f(a)".toList).toDoc {}) := by
    rw [hdoc]
    exact .item (List.mem_cons_self) (.item (List.mem_cons_self) (.item (by simp) .self))
  have hstep : step {} state = some next := by
    have hfits : fits 80 [⟨0, .flat, contents⟩] = true := by
      simp only [contents, fits_concat, commandsOf, List.map, List.append_nil, fits_text,
        fits_indent, List.cons_append, List.nil_append, fits_flatSoftLine]
      exact (fits_nil _).trans (by decide)
    simp [step, perform, performGroup, state, next, start, State.fitsNext, State.push, hfits]
  obtain ⟨hflat, hprinted⟩ := flatGroup_staysOnLine "f(a)".toList {} hgroup
  exact ⟨⟨hgroup, rfl, hstep, rfl⟩, hflat, hprinted 0 .broken [] state next rfl hstep rfl⟩

end LuaFormatter
