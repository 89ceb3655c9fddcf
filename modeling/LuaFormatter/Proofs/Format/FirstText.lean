import LuaFormatter.Proofs.Format.TidyLines
import LuaFormatter.Proofs.Layout.FirstText

/-!
# The first text of an expression

The document of an expression starts with a text that `firstText?` finds (`opens_compile`): its
first comment, a parenthesis that is kept, or the first token. The proof follows the left side of
the tree, as an operation or an access starts with its left part; that this part is an expression
too is known from the grammar (`isExpression_lead`). The space after a minus depends on the first
text of the operand, so no minus is ever written right after another one (`expression_opens`).
-/

namespace LuaFormatter

open Doc Layout

/-- The shapes of expressions, with names and functions as they stand in statements too. -/
def Shape.isExpression {α : Type} : Shape α → Bool
  | identifier _ | literal _ _ | table _ | function _ _ _ _ | binary _ _ _ | unary _ _
  | member _ _ _ | index _ _ | call _ _ | tableCall _ _ | stringCall _ _ =>
    true
  | _ => false

/-- The first expression inside an expression: what it starts with, or the operand of an operator
before it. -/
def Shape.lead? {α : Type} : Shape α → Option α
  | unary _ lead | binary _ lead _ | member _ lead _ | index lead _
  | call lead _ | tableCall lead _ | stringCall lead _ => some lead
  | _ => none

/-- What these rules read is an expression. -/
def Rule.givesExpression : Rule → Bool
  | expression | callee | dotted | name => true
  | _ => false

section
variable {source : List Char} {part : Node}

/-- What the rules for expressions read is an expression. Counterpart of `Rule.givesExpression`. -/
theorem Derives.isExpression {isApart : Bool} {rule : Rule} {a b : Nat} {ts : List Token}
    {nodes : List Node} (h : Derives isApart rule a b ts nodes)
    (hrule : rule.givesExpression = true) :
    ∀ node ∈ nodes, node.shape.isExpression = true := by
  induction h with
  | parens _ _ _ ih =>
    intro node hmem
    rw [List.mem_singleton.1 hmem, Node.shape_parenthesise]
    exact ih rfl _ (List.mem_singleton_self _)
  | plain _ _ ih | nameDotted _ ih => exact ih rfl
  | identifier | literal | table | function | member | index | call | tableCall | stringCall
  | method | unary | binary | nameStart | nameMember | nameMethod =>
    exact List.forall_mem_singleton.2 rfl
  | _ => cases hrule

/-- The first part of an expression is an expression. Counterpart of `Shape.lead?`. -/
theorem Derives.isExpression_lead {isApart : Bool} {rule : Rule} {a b : Nat} {ts : List Token}
    {nodes : List Node} (h : Derives isApart rule a b ts nodes) :
    ∀ node ∈ nodes, ∀ lead ∈ node.shape.lead?, lead.shape.isExpression = true := by
  induction h with
  | member _ _ _ hbase | index _ _ _ hbase | call _ _ hbase | tableCall _ _ hbase
  | stringCall _ _ hbase | method _ _ _ hbase | unary _ _ hbase | binary _ _ _ hbase
  | nameMember _ _ hbase | nameMethod _ _ hbase =>
    intro node hmem lead hlead
    rw [List.mem_singleton.1 hmem] at hlead
    cases hlead
    exact hbase.isExpression rfl _ (List.mem_singleton_self _)
  | parens _ _ _ ih =>
    intro node hmem
    rw [List.mem_singleton.1 hmem, Node.shape_parenthesise]
    exact ih _ (List.mem_singleton_self _)
  | lastExpression _ ih | someArguments _ ih | plain _ _ ih | lastField _ ih | nameDotted _ ih
  | lastClause _ ih | semicolon _ _ ih => exact ih
  | moreExpressions _ _ _ ih ihs | moreFields _ _ _ ih ihs | moreStatements _ _ _ ih ihs
  | moreClauses _ _ _ _ ih ihs =>
    exact List.forall_mem_cons.2 ⟨ih _ (List.mem_singleton_self _), ihs⟩
  | moreNames _ _ _ ih | moreParameters _ _ _ _ ih => exact List.forall_mem_cons.2 ⟨nofun, ih⟩
  | noArguments | noParameters | noFields | emptyBlock => exact List.forall_mem_nil _
  | _ => exact List.forall_mem_singleton.2 nofun

/-- The first parts of expressions in a valid program are expressions. Counterpart of
`Shape.lead?`. -/
theorem isExpression_lead (h : (parse source).isValid = true)
    (hpart : part.Part (parse source).root) :
    ∀ lead ∈ part.shape.lead?, lead.shape.isExpression = true := by
  rcases derives_part h hpart with rfl | ⟨_, _, _, _, _, -, -, -, hderives⟩
  · rw [root_parse]
    nofun
  · simpa using hderives.isExpression_lead _ (List.mem_singleton_self _)

/-- The text of a name or a literal does not start with a blank. Counterpart of
`Shape.leafText?`. -/
theorem isBlank_leafText (h : (parse source).isValid = true)
    (hpart : part.Part (parse source).root) :
    ∀ text ∈ part.shape.leafText?, ∃ c ∈ text.toList.head?, isBlank c = false := by
  intro text htext
  rcases derives_part h hpart with rfl | ⟨rule, first, front, us, back, htokens, -, -, hderives⟩
  · rw [root_parse] at htext
    cases htext
  · obtain ⟨token, hmem, rfl, hkind⟩ := hderives.isLeafText part.bare (by simp) text
      (by rwa [Node.shape_bare])
    have htoken : token ∈ (parse source).tokens := by
      rw [htokens]
      simp [hmem]
    rw [Parser.textOf, String.toList_ofList]
    refine Scan.isBlank_of_mem (List.mem_filter.1 htoken).1 fun hunknown => ?_
    rw [hunknown] at hkind
    rcases hkind with hkind | hkind <;> cases hkind

end

/-! ## What is written first -/

section
variable {context : Context} {place : Place} {node lead : Node} {doc : Doc} {content : String}

/-- A comment opens with a text. Counterpart of `Context.commentText`. -/
theorem opens_commentText {comment : Comment} (h : comment.IsMarked) :
    ∃ text, (Context.commentText comment).Opens text := by
  unfold Context.commentText
  split
  · obtain ⟨rest, hrest⟩ := List.isPrefixOf_iff_prefix.1 h
    exact opens_verbatim ⟨'-', by rw [← hrest]; rfl, by decide⟩
  · refine ⟨_, @Opens.note (String.ofList (trimEnd comment.text)) fun hempty => ?_⟩
    have hdashes := isPrefixOf_trimEnd h
    rw [String.ofList_eq_empty_iff.1 hempty] at hdashes
    cases hdashes

/-- The first comment before a node comes first, and without one what is written for the node.
Counterpart of `Context.withComments`. -/
theorem opens_withComments (hmarked : context.IsMarked) (h : doc.Opens content) :
    ∃ text, (context.withComments node doc).Opens text := by
  unfold Context.withComments
  dsimp only
  split
  · exact ⟨content, h⟩
  · cases hleading :
      ((context.owned node).filter (·.placement = .leading)).map Attachment.comment with
    | nil => exact ⟨content, h.concat _⟩
    | cons comment rest =>
      have hmem : comment ∈ ((context.owned node).filter (·.placement = .leading)).map
          Attachment.comment := by
        rw [hleading]
        exact List.mem_cons_self
      obtain ⟨text, htext⟩ := opens_commentText (hmarked.of_mem_map hmem)
      exact ⟨text, (htext.cat _).concat _⟩

/-- An operation with one operand opens with its operator. Counterpart of `unaryDoc`. -/
theorem opens_unaryDoc (op : UnaryOp) (operand : Doc) : (unaryDoc op operand).Opens op.text := by
  have hop : op.text ≠ "" := by cases op <;> decide
  unfold unaryDoc
  exact (Opens.text hop).cat _

/-- An expression between parentheses opens with one. Counterpart of `parenthesisedDoc`. -/
theorem opens_parenthesisedDoc (node : Node) (doc : Doc) :
    (parenthesisedDoc node doc).Opens "(" := by
  unfold parenthesisedDoc
  split
  · exact Opens.grouped (.text (by decide)) _
  · exact Opens.cat (.text (by decide)) _

/-- A literal opens with its first line. Counterpart of `literalDoc`. -/
theorem opens_literalDoc (style : Style) (kind : LiteralKind) {text : String}
    (h : ∃ c ∈ text.toList.head?, isBlank c = false) :
    ∃ first, (literalDoc style kind text).Opens first := by
  have hfilled : text ≠ "" := by
    rintro rfl
    obtain ⟨c, hc, -⟩ := h
    cases hc
  cases kind with
  | string => exact opens_verbatim (head_requote h)
  | longString => exact opens_verbatim h
  | number | boolean | nil | vararg => exact ⟨text, .text hfilled⟩

/-- Both forms of a table start with its bracket. Counterpart of `Context.table`. -/
theorem opens_table (context : Context) (node : Node) (fields : List Printed) :
    ∃ text, (context.table node fields).Opens text := by
  have hbracket : (Doc.text "\x7b").Opens "\x7b" := .text (by decide)
  unfold Context.table
  split
  · split
    · exact ⟨_, hbracket.cat _⟩
    · exact ⟨_, .text (by decide)⟩
  · dsimp only
    split
    · refine ⟨"\x7b", .alternatives ?_ _⟩
      exact List.forall_mem_cons.2 ⟨hbracket.cat _, List.forall_mem_singleton.2 (hbracket.cat _)⟩
    · exact ⟨_, hbracket.cat _⟩

/-- A chain opens with its first part. Counterpart of `chainDoc`. -/
theorem opens_chainDoc (inParens isAlone : Bool) {first : Doc} (h : first.Opens content)
    (rest : List Doc) :
    (chainDoc inParens isAlone (first :: rest)).Opens content := by
  unfold chainDoc
  split
  · exact h.concat rest
  · split
    · exact (h.concat rest).grouped _
    · exact h.grouped _

/-- What is written for a node opens with a text, at every place, and so does the first part of its
chain if it is an operation. -/
structure Context.OpensNode (context : Context) (node : Node) : Prop where
  whole : ∀ place, ∃ text, (compile context place node).Opens text
  chain : ∀ op left right, node.shape = .binary op left right → ∀ parentLogical,
    ∃ first rest text, LuaFormatter.chain context parentLogical node = first :: rest ∧
      first.Opens text

/-- A chain starts with the chain of its left operand, or with the operand as a whole. Counterpart
of `chain`. -/
theorem opens_chain (hmarked : context.IsMarked) {op : BinaryOp} {left right : Node}
    (hshape : node.shape = .binary op left right) (hleft : context.OpensNode left)
    (parentLogical : Option Bool) :
    ∃ first rest text, chain context parentLogical node = first :: rest ∧ first.Opens text := by
  rw [chain_binary parentLogical hshape]
  split
  · rename_i hcontinues
    obtain ⟨-, child, inner, outer, hchild⟩ := binary_of_continuesChain hcontinues
    obtain ⟨first, rest, text, hchain, hopens⟩ :=
      hleft.chain child inner outer hchild (some op.isLogical)
    rw [hchain]
    split
    · obtain ⟨text, hopens⟩ := @opens_withComments context left _ _ hmarked (hopens.concat rest)
      exact ⟨_, _, text, rfl, hopens⟩
    · exact ⟨first, _, text, rfl, hopens⟩
  · obtain ⟨text, hopens⟩ := hleft.whole (Place.left op)
    exact ⟨_, _, text, rfl, hopens⟩

/-- An expression opens with a text if the part that it starts with does. Counterpart of
`coreDoc`. -/
theorem opens_coreDoc (hmarked : context.IsMarked) (hexpression : node.shape.isExpression = true)
    (hleaf : ∀ text ∈ node.shape.leafText?, ∃ c ∈ text.toList.head?, isBlank c = false)
    (hlead : ∀ lead ∈ node.shape.lead?, context.OpensNode lead) (place : Place) :
    ∃ text, (coreDoc context place node).Opens text := by
  have hbase : ∀ lead ∈ node.shape.lead?, ∀ place others,
      ∃ text, (Doc.cat (compile context place lead :: others)).Opens text := by
    intro lead hmem place others
    obtain ⟨text, hopens⟩ := (hlead lead hmem).whole place
    exact ⟨text, hopens.cat others⟩
  cases hshape : node.shape with
  | identifier name =>
    rw [hshape] at hleaf
    obtain ⟨c, hc, -⟩ := hleaf name rfl
    simp only [coreDoc, hshape]
    refine ⟨name, .text ?_⟩
    rintro rfl
    cases hc
  | literal kind text =>
    rw [hshape] at hleaf
    simp only [coreDoc, hshape]
    exact opens_literalDoc _ kind (hleaf text rfl)
  | table fields =>
    simp only [coreDoc, hshape]
    exact opens_table context node _
  | function isLocal name parameters body =>
    simp only [coreDoc, hshape]
    exact ⟨_, Opens.cat (.text (by cases isLocal <;> decide)) _⟩
  | unary op operand =>
    simp only [coreDoc, hshape]
    exact ⟨_, opens_unaryDoc op _⟩
  | binary op left right =>
    obtain ⟨first, rest, text, hchain, hopens⟩ :=
      opens_chain hmarked hshape (hlead left (by rw [hshape]; rfl)) place.parentLogical
    simp only [coreDoc, hshape, hchain]
    exact ⟨text, opens_chainDoc _ _ hopens rest⟩
  | member _ base _ | index base _ | call base _ | tableCall base _ | stringCall base _ =>
    simp only [coreDoc, hshape]
    exact hbase base (by rw [hshape]; rfl) _ _
  | _ =>
    rw [hshape] at hexpression
    cases hexpression

end

/-- The expressions of a valid program open with texts. Counterpart of `compile`. -/
theorem opensNode_of_part {source : List Char} (h : (parse source).isValid = true) (style : Style)
    {node : Node} (hpart : node.Part (parse source).root)
    (hexpression : node.shape.isExpression = true) :
    (Context.ofProgram (parse source) style).OpensNode node := by
  have hmarked := isMarked_ofProgram source style
  induction hn : node.size using Nat.strongRecOn generalizing node with
  | _ n ih =>
  have hlead : ∀ lead ∈ node.shape.lead?,
      (Context.ofProgram (parse source) style).OpensNode lead := by
    intro lead hmem
    have hchild : lead ∈ node.children := by
      rw [Node.children]
      cases hshape : node.shape <;> rw [hshape] at hmem <;> cases hmem <;> exact List.mem_cons_self
    exact ih lead.size (hn ▸ Node.size_lt_of_mem_children hchild)
      ((Node.Part.of_mem_children hchild).trans hpart) (isExpression_lead h hpart lead hmem) rfl
  constructor
  · intro place
    obtain ⟨text, hopens⟩ :=
      opens_coreDoc hmarked hexpression (isBlank_leafText h hpart) hlead place
    rw [compile_eq]
    split
    · exact opens_withComments hmarked (opens_parenthesisedDoc node _)
    · exact opens_withComments hmarked hopens
  · intro op left right hshape
    exact opens_chain hmarked hshape (hlead left (by rw [hshape]; rfl))

/-! ## Minus signs -/

/-- The character after a minus is the space that keeps two minus signs apart, or the first of the
operand, which is then no minus. Counterpart of `unaryDoc` for `UnaryOp.negate`. -/
theorem proceeds_negation {operand : Doc} {text : String} (h : operand.Opens text) {style : Style}
    {level : Nat} {mode : Mode} {state : State} {rest : List Command}
    (hcommands : state.commands = ⟨level, mode, unaryDoc .negate operand⟩ :: rest) :
    ∃ isNote c inks later, c ≠ '-' ∧
      Proceeds style state (.char false '-' :: .char isNote c :: inks) later := by
  obtain ⟨c, tail, htext⟩ := List.exists_cons_of_ne_nil (mt String.toList_eq_nil_iff.1 h.filled)
  let space : Doc := if c = '-' then .text " " else .empty
  have hdoc : unaryDoc .negate operand = .concat [.text "-", space, operand] := by
    have hminus : UnaryOp.negate.text = "-" := rfl
    simp [unaryDoc, h.first, htext, Doc.cat, UnaryOp.isWord, hminus, space]
  rw [hdoc] at hcommands
  -- The list is taken apart, and the minus is written.
  let opened :=
    perform style ⟨level, mode, .concat [.text "-", space, operand]⟩ { state with commands := rest }
  have hopened : opened.commands = ⟨level, mode, .text "-"⟩ :: ⟨level, mode, space⟩ ::
      ⟨level, mode, operand⟩ :: rest := rfl
  let written := perform style ⟨level, mode, .text "-"⟩
    { opened with commands := ⟨level, mode, space⟩ :: ⟨level, mode, operand⟩ :: rest }
  have hwritten : Proceeds style state [.char false '-'] written := by
    simpa [commandInks, Ink.ofText] using Proceeds.performed hcommands (.one style hopened)
  have hcommands : written.commands = ⟨level, mode, space⟩ :: ⟨level, mode, operand⟩ :: rest := rfl
  by_cases hminus : c = '-'
  · have hspace := Proceeds.one style hcommands
    simp only [space, if_pos hminus] at hspace
    exact ⟨false, ' ', [], _, by decide, hwritten.trans hspace⟩
  · let reached := perform style ⟨level, mode, space⟩
      { written with commands := ⟨level, mode, operand⟩ :: rest }
    have hreached : Proceeds style written [] reached := by
      have hspace := Proceeds.one style hcommands
      have hinks : commandInks ⟨level, mode, space⟩ written = [] := by
        simp [commandInks, space, if_neg hminus]
      rwa [hinks] at hspace
    have hoperand : reached.commands = ⟨level, mode, operand⟩ :: rest := by
      simp [reached, space, if_neg hminus, perform]
    obtain ⟨isNote, _, later, hprinted, -, -⟩ := h.printed style level mode reached rest hoperand
    rw [htext] at hprinted
    exact ⟨isNote, c, Ink.ofText isNote tail, later, hminus,
      hwritten.trans (hreached.trans hprinted)⟩

/-- The first text of an expression predicts what is printed. Every expression of a valid program,
with its comments and at any place, has a first text that is not empty, and whatever mode and state
the layout is in, it is the first that is printed of the expression. So no minus is followed by
another one: what is printed of an operation with a minus before its operand goes on with another
character. Counterpart of `Doc.firstText?`. -/
theorem expression_opens {source : List Char} (h : (parse source).isValid = true) (style : Style)
    {node : Node} (hpart : node.Part (parse source).root)
    (hexpression : node.shape.isExpression = true) (place : Place) :
    let context := Context.ofProgram (parse source) style
    (∃ text, (compile context place node).Opens text) ∧
    ∀ operand, node.shape = .unary .negate operand →
      let minus := unaryDoc .negate (compile context {} operand)
      compile context place node =
          context.withComments node (if needsParens place node then parenthesisedDoc node minus
            else minus) ∧
        ∀ level mode (state : State) rest, state.commands = ⟨level, mode, minus⟩ :: rest →
          ∃ isNote c inks later, c ≠ '-' ∧
            Proceeds style state (.char false '-' :: .char isNote c :: inks) later := by
  intro context
  refine ⟨(opensNode_of_part h style hpart hexpression).whole place, fun operand hshape => ?_⟩
  have hcore : coreDoc context place node = unaryDoc .negate (compile context {} operand) := by
    simp only [coreDoc, hshape]
  have hchild : operand ∈ node.children := by simp [Node.children, hshape, Shape.children]
  have hinside : operand.shape.isExpression = true :=
    isExpression_lead h hpart operand (by rw [hshape]; rfl)
  have hopens := opensNode_of_part h style ((Node.Part.of_mem_children hchild).trans hpart) hinside
  obtain ⟨text, hoperand⟩ := hopens.whole {}
  exact ⟨hcore ▸ compile_eq context place node,
    fun level mode state rest hcommands => proceeds_negation hoperand hcommands⟩

/-- A minus before another one, as an instance. -/
theorem expression_opens_negation :
    let operand : Node := ⟨3, .unary .negate ⟨2, .identifier "a", ⟨7, 8⟩, false⟩, ⟨6, 8⟩, false⟩
    let node : Node := ⟨4, .unary .negate operand, ⟨4, 8⟩, false⟩
    let context := Context.ofProgram (parse "x = - -a".toList) {}
    let minus := unaryDoc .negate (compile context {} operand)
    ((parse "x = - -a".toList).isValid = true ∧ node.Part (parse "x = - -a".toList).root ∧
        node.shape.isExpression = true ∧ node.shape = .unary .negate operand ∧
        (start minus).commands = [⟨0, .broken, minus⟩]) ∧
      (∃ text, (compile context {} node).Opens text) ∧
      ∃ isNote c inks later, c ≠ '-' ∧
        Proceeds {} (start minus) (.char false '-' :: .char isNote c :: inks) later := by
  intro operand node
  have hvalid : (parse "x = - -a".toList).isValid = true := by decide +kernel
  have hroot : (parse "x = - -a".toList).root = ⟨0, .chunk [⟨5, .assignment
      [⟨1, .identifier "x", ⟨0, 1⟩, false⟩] [node], ⟨0, 8⟩, false⟩], ⟨0, 8⟩, false⟩ := by
    with_unfolding_all rfl
  have hpart : node.Part (parse "x = - -a".toList).root := by
    rw [hroot]
    refine .child List.mem_cons_self (.child ?_ (.self node))
    exact List.mem_cons_of_mem _ List.mem_cons_self
  obtain ⟨hopens, hminus⟩ := expression_opens hvalid {} hpart rfl {}
  intro context minus
  exact ⟨⟨hvalid, hpart, rfl, rfl, rfl⟩, hopens,
      (hminus operand rfl).2 0 .broken (start minus) [] rfl⟩

end LuaFormatter
