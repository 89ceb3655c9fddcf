import LuaFormatter.Proofs.Format.ReprintExpression
import LuaFormatter.Proofs.Spelling.TouchStatement

/-!
# Statements are read as they are written

One theorem for each production of a statement, a block or a branch: if what is written for the
parts is read as what is kept of them, then so it is for the whole. With the productions of
expressions they are the cases of the induction over derivations, so what is written for a legible
tree is read as what is kept of the tree (`Derives.reprints`).
-/

namespace LuaFormatter

open Word

section
variable {context : Context} {isApart : Bool} {a b c n m stop stop' : Nat} {k t : Token}
  {ts us vs : List Token} {span : Span} {name condition first last step node : Node}
  {names values targets iterators parameters clauses body nodes : List Node}
variable (hcontext : context.attachments = [])
include hcontext

/-! ## Variables and functions -/

/-- Local variables without values. Counterpart of `Derives.declaration`. -/
theorem reprints_declaration (ih : ReprintsLegible context .names names) :
    ReprintsLegible context .statement [nodeOf n (.localVariables names []) ts] := by
  refine .of_core hcontext (by simp) rfl fun hlegible place _ => ?_
  have hnames := ih.children trivial hlegible fun _ hmem => by simp [Shape.children, hmem]
  refine (ReadsAs.declaration (hnames _ trivial)).of_eq ?_
  show wording context.style (.keyword .localK :: .space :: (commaSlots (List.map _ _) ++ [])) = _
  rw [map_spell]
  simp [Rule.slots]

/-- Local variables and their values. Counterpart of `Derives.definition`. -/
theorem reprints_definition (hne : values ≠ []) (ih : ReprintsLegible context .names names)
    (ihv : ReprintsLegible context .expressions values) :
    ReprintsLegible context .statement [nodeOf n (.localVariables names values) ts] := by
  refine .of_core hcontext (by simp) rfl fun hlegible place _ => ?_
  have hnames := ih.children trivial hlegible fun _ hmem => by simp [Shape.children, hmem]
  have hvalues := ihv.children trivial hlegible fun _ hmem => by simp [Shape.children, hmem]
  refine (ReadsAs.definition (hnames _ trivial) (hvalues _ trivial)).of_eq ?_
  show wording context.style (.keyword .localK :: .space :: (commaSlots (List.map _ _) ++ _)) = _
  rw [map_spell, if_neg (by simpa using hne)]
  simp [Rule.slots, nodeSlots]

/-- A local function (`wording_function`). Counterpart of `Derives.localFunction`. -/
theorem reprints_localFunction (ihp : ReprintsLegible context .parameters parameters)
    (hbody : Derives isApart .block a b us body) (ihb : ReprintsLegible context .block body) :
    ReprintsLegible context .statement
      [nodeOf m (.function true (some (nameOf n t)) parameters body) ts] := by
  refine .of_core hcontext (by simp) rfl fun hlegible place _ => ?_
  have hparameters := ihp.children trivial hlegible fun _ hmem => by simp [Shape.children, hmem]
  have hblock := ihb.body hlegible rfl fun _ hmem => by simp [Shape.children, hmem]
  refine (ReadsAs.localFunction (hparameters _ trivial) (hblock _ rfl)).of_eq ?_
  show wording context.style (.keyword .localK :: .space :: .keyword .functionK :: .space ::
    (spell context {} (nameOf n t) ++ _)) = _
  simp only [wording_cons, wording_append, Slot.wording_keyword, Slot.wording_space, one_mul,
    wording_spell_name hcontext]
  rw [← wording_append, wording_function hcontext _ hbody]

/-- A function with a name (`wording_function`). Counterpart of `Derives.globalFunction`. -/
theorem reprints_globalFunction (ihn : ReprintsLegible context .name [name])
    (ihp : ReprintsLegible context .parameters parameters)
    (hbody : Derives isApart .block a b us body) (ihb : ReprintsLegible context .block body) :
    ReprintsLegible context .statement
      [nodeOf n (.function false (some name) parameters body) ts] := by
  refine .of_core hcontext (by simp) rfl fun hlegible place _ => ?_
  have hname := ihn.child (by simp) trivial hlegible (by simp [Shape.children]) {} trivial
  have hparameters := ihp.children trivial hlegible fun _ hmem => by simp [Shape.children, hmem]
  have hblock := ihb.body hlegible rfl fun _ hmem => by simp [Shape.children, hmem]
  refine (ReadsAs.globalFunction hname (hparameters _ trivial) (hblock _ rfl)).of_eq ?_
  show wording context.style (.keyword .functionK :: .space :: (spell context {} name ++ _)) = _
  rw [wording_cons, wording_cons, wording_append, wording_function hcontext _ hbody]
  simp

/-- An assignment, whose targets are kept as targets (`Node.targets_listKept`). Counterpart of
`Derives.assignment`. -/
theorem reprints_assignment
    (hall : ∀ target ∈ targets, target.canBeBase = true ∧ Parser.isTarget target = true)
    (hderives : Derives isApart .expressions a b us targets)
    (ih : ReprintsLegible context .expressions targets)
    (ihv : ReprintsLegible context .expressions values) :
    ReprintsLegible context .statement [nodeOf n (.assignment targets values) ts] := by
  refine .of_core hcontext (by simp) rfl fun hlegible place _ => ?_
  have htargets := ih.children trivial hlegible fun _ hmem => by simp [Shape.children, hmem]
  have hvalues := ihv.children trivial hlegible fun _ hmem => by simp [Shape.children, hmem]
  have hkept := Node.targets_listKept (fun _ => {})
    (fun target hmem => (hderives.isRead target hmem).1) hall
  refine (ReadsAs.assignment (htargets _ trivial) (Node.targets_listNormal hkept)
    (hvalues _ trivial)).of_eq ?_
  show wording context.style
    (commaSlots (List.map _ _) ++ .space :: .symbol .equal :: .gap :: commaSlots _) = _
  rw [map_spell]
  simp [Rule.slots, nodeSlots]

/-- A call that is a statement is kept as a call. Counterpart of `Derives.callStatement`. -/
theorem reprints_callStatement (hcall : node.shape.isCall = true)
    (ih : ReprintsLegible context .expression [node]) :
    ReprintsLegible context .statement [nodeOf n (.callStatement node) ts] := by
  refine .of_core hcontext (by simp) rfl fun hlegible place _ => ?_
  refine ReadsAs.callStatement
    (ih.child (by simp) trivial hlegible (by simp [Shape.children]) {} trivial) ?_
  rw [Node.shape_normal, Node.isCall_normal, Node.shape_kept, Node.isCall_shapeKept, hcall]

/-! ## Branches -/

omit hcontext in
/-- The keyword that a node in its form starts with, if it is a branch. Counterpart of
`clauseKeyword?`. -/
theorem Derives.clauseKeyword?_form {rule : Rule} {word : Keyword} (place : Nat → Place)
    (h : Derives isApart rule a b (k :: us) nodes) (hrule : rule.isBranch = true)
    (hk : k.kind = .keyword word) :
    clauseKeyword? (Node.listNormal .meaning (Node.listKept place nodes)) = some word := by
  obtain ⟨other, l, vs, hword, heq, hkind⟩ := h.exists_keyword hrule
  cases heq
  rw [Node.clauseKeyword?_normal, clauseKeyword?_kept, hword]
  exact congrArg some (Kind.keyword.inj (hkind.symm.trans hk))

/-- A conditional, whose first branch is the one that its keyword starts. Counterpart of
`Derives.conditional`. -/
theorem reprints_conditional (hk : k.kind = .keyword .ifK)
    (hclauses : Derives isApart (.clauses stop) a b (k :: us) clauses)
    (ih : ReprintsLegible context (.clauses stop) clauses) :
    ReprintsLegible context .statement [nodeOf n (.conditional clauses) ts] := by
  refine .of_core hcontext (by simp) rfl fun hlegible place _ => ?_
  have hread := ih.children trivial hlegible fun _ hmem => hmem
  refine (ReadsAs.conditional (hread _ trivial) (hclauses.clauseKeyword?_form _ rfl hk)).of_eq ?_
  show wording context.style
    ([Slot.hard].intercalate (List.map _ _) ++ [_, .keyword .endK]) = _
  rw [map_spell]
  split <;> simp [Rule.slots]

/-- A branch with a condition. Counterpart of `Derives.clause`. -/
theorem reprints_clause {kind : ClauseKind} (hkind : kind ≠ .elseClause)
    (hbody : Derives isApart .block a b us body)
    (ih : ReprintsLegible context .expression [condition])
    (ihb : ReprintsLegible context .block body) :
    ReprintsLegible context (.clause stop)
      [.mk n (.clause kind (some condition) body) span false] := by
  refine .of_core hcontext (by simp) rfl fun hlegible place _ => ?_
  have hcondition := ih.child (by simp) trivial hlegible (by simp [Shape.children]) {} trivial
  have hblock := ihb.body hlegible rfl fun _ hmem => by simp [Shape.children, hmem]
  refine (ReadsAs.clause hkind hcondition (hblock _ rfl)).of_eq ?_
  simp [core, coreSlots, wording_clauseKeyword, wording_bodySlots hcontext _ hbody]

/-- The branch without a condition. Counterpart of `Derives.elseClause`. -/
theorem reprints_elseClause (hbody : Derives isApart .block a b us body)
    (ihb : ReprintsLegible context .block body) :
    ReprintsLegible context (.clause stop) [.mk n (.clause .elseClause none body) span false] := by
  refine .of_core hcontext (by simp) rfl fun hlegible place _ => ?_
  have hblock := ihb.body hlegible rfl fun _ hmem => by simp [Shape.children, hmem]
  refine (ReadsAs.elseClause (hblock _ rfl)).of_eq ?_
  simp [core, coreSlots, wording_clauseKeyword, wording_bodySlots hcontext _ hbody]

omit hcontext in
/-- The last branch of a conditional. Counterpart of `Derives.lastClause`. -/
theorem reprints_lastClause (ih : ReprintsLegible context (.clause stop) [node]) :
    ReprintsLegible context (.clauses stop) [node] :=
  fun hlegible _ => .of_spell (by simp) fun place _ =>
    ((ih hlegible trivial).one (by simp) place trivial).imp .lastClause

omit hcontext in
/-- A branch that is not the last one, and the ones after it: no branch comes after the one without
a condition. Counterpart of `Derives.moreClauses`. -/
theorem reprints_moreClauses (hk : k.kind = .keyword .elseifK ∨ k.kind = .keyword .elseK)
    (hhead : ts.head?.any (·.kind = .keyword .elseK) = false)
    (hclause : Derives isApart (.clause stop') a b ts [node])
    (hclauses : Derives isApart (.clauses stop) b c (k :: us) clauses)
    (ih : ReprintsLegible context (.clause stop') [node])
    (ihs : ReprintsLegible context (.clauses stop) clauses) :
    ReprintsLegible context (.clauses stop) (node :: clauses) := by
  intro hlegible _ place _
  have hfirst := (ih (hlegible.subset (by simp)) trivial).one (by simp) (place 0) trivial
  have hrest := ihs (hlegible.subset (by simp)) trivial (fun index => place (index + 1)) trivial
  refine (ReadsAs.moreClauses hfirst ?_ hrest ?_).of_eq ?_
  · obtain ⟨word, l, vs, -, rfl, hkind⟩ := hclause.exists_keyword rfl
    have hsame : clauseKeyword? [node.form (place 0)] = some word :=
      hclause.clauseKeyword?_form (fun _ => place 0) rfl hkind
    rw [hsame]
    rintro ⟨⟩
    simp [hkind] at hhead
  · exact hk.imp (hclauses.clauseKeyword?_form _ rfl) (hclauses.clauseKeyword?_form _ rfl)
  · obtain ⟨next, rest, rfl⟩ := List.exists_cons_of_ne_nil (hclauses.nodes_ne_nil rfl)
    simp [Rule.slots, List.intercalate_cons_cons]

/-! ## Loops -/

/-- A block between `do` and `end` (`wording_bodyEndSlots`). Counterpart of `Derives.doBlock`. -/
theorem reprints_doBlock (hbody : Derives isApart .block a b us body)
    (ihb : ReprintsLegible context .block body) :
    ReprintsLegible context .statement [nodeOf n (.doBlock body) ts] := by
  refine .of_core hcontext (by simp) rfl fun hlegible place _ => ?_
  have hblock := ihb.body hlegible rfl fun _ hmem => hmem
  refine (ReadsAs.doBlock (hblock _ rfl)).of_eq ?_
  simp [core, coreSlots, wording_bodyEndSlots hcontext _ hbody]

/-- A loop with its condition before its body. Counterpart of `Derives.whileLoop`. -/
theorem reprints_whileLoop (ih : ReprintsLegible context .expression [condition])
    (hbody : Derives isApart .block a b us body) (ihb : ReprintsLegible context .block body) :
    ReprintsLegible context .statement [nodeOf n (.whileLoop condition body) ts] := by
  refine .of_core hcontext (by simp) rfl fun hlegible place _ => ?_
  have hcondition := ih.child (by simp) trivial hlegible (by simp [Shape.children]) {} trivial
  have hblock := ihb.body hlegible rfl fun _ hmem => by simp [Shape.children, hmem]
  refine (ReadsAs.whileLoop hcondition (hblock _ rfl)).of_eq ?_
  simp [core, coreSlots, wording_bodyEndSlots hcontext _ hbody]

/-- A loop with its condition after its body. Counterpart of `Derives.repeatLoop`. -/
theorem reprints_repeatLoop (hbody : Derives isApart .block a b us body)
    (ihb : ReprintsLegible context .block body)
    (ih : ReprintsLegible context .expression [condition]) :
    ReprintsLegible context .statement [nodeOf n (.repeatLoop body condition) ts] := by
  refine .of_core hcontext (by simp) rfl fun hlegible place _ => ?_
  have hcondition := ih.child (by simp) trivial hlegible (by simp [Shape.children]) {} trivial
  have hblock := ihb.body hlegible rfl fun _ hmem => by simp [Shape.children, hmem]
  refine (ReadsAs.repeatLoop (hblock _ rfl) hcondition).of_eq ?_
  simp only [core, coreSlots, Node.shape_mk, wording_cons, wording_append,
    wording_bodySlots hcontext _ hbody]
  split <;> simp

/-- A loop over numbers from a first to a last one. Counterpart of `Derives.numericFor`. -/
theorem reprints_numericFor (ih : ReprintsLegible context .expression [first])
    (ihl : ReprintsLegible context .expression [last]) (hbody : Derives isApart .block a b us body)
    (ihb : ReprintsLegible context .block body) :
    ReprintsLegible context .statement
      [nodeOf m (.numericFor (nameOf n t) first last none body) ts] := by
  refine .of_core hcontext (by simp) rfl fun hlegible place _ => ?_
  have hfirst := ih.child (by simp) trivial hlegible (by simp [Shape.children]) {} trivial
  have hlast := ihl.child (by simp) trivial hlegible (by simp [Shape.children]) {} trivial
  have hblock := ihb.body hlegible rfl fun _ hmem => by simp [Shape.children, hmem]
  refine (ReadsAs.numericFor hfirst hlast (hblock _ rfl)).of_eq ?_
  simp [core, coreSlots, wording_spell_name hcontext, wording_bodyEndSlots hcontext _ hbody]

/-- A loop over numbers with a step. Counterpart of `Derives.steppedFor`. -/
theorem reprints_steppedFor (ih : ReprintsLegible context .expression [first])
    (ihl : ReprintsLegible context .expression [last])
    (ihs : ReprintsLegible context .expression [step]) (hbody : Derives isApart .block a b us body)
    (ihb : ReprintsLegible context .block body) :
    ReprintsLegible context .statement
      [nodeOf m (.numericFor (nameOf n t) first last (some step) body) ts] := by
  refine .of_core hcontext (by simp) rfl fun hlegible place _ => ?_
  have hfirst := ih.child (by simp) trivial hlegible (by simp [Shape.children]) {} trivial
  have hlast := ihl.child (by simp) trivial hlegible (by simp [Shape.children]) {} trivial
  have hstep := ihs.child (by simp) trivial hlegible (by simp [Shape.children]) {} trivial
  have hblock := ihb.body hlegible rfl fun _ hmem => by simp [Shape.children, hmem]
  refine (ReadsAs.steppedFor hfirst hlast hstep (hblock _ rfl)).of_eq ?_
  simp [core, coreSlots, wording_spell_name hcontext, wording_bodyEndSlots hcontext _ hbody]

/-- A loop over what iterators give. Counterpart of `Derives.genericFor`. -/
theorem reprints_genericFor (ih : ReprintsLegible context .names names)
    (ihi : ReprintsLegible context .expressions iterators)
    (hbody : Derives isApart .block a b us body) (ihb : ReprintsLegible context .block body) :
    ReprintsLegible context .statement [nodeOf n (.genericFor names iterators body) ts] := by
  refine .of_core hcontext (by simp) rfl fun hlegible place _ => ?_
  have hnames := ih.children trivial hlegible fun _ hmem => by simp [Shape.children, hmem]
  have hiterators := ihi.children trivial hlegible fun _ hmem => by simp [Shape.children, hmem]
  have hblock := ihb.body hlegible rfl fun _ hmem => by simp [Shape.children, hmem]
  refine (ReadsAs.genericFor (hnames _ trivial) (hiterators _ trivial) (hblock _ rfl)).of_eq ?_
  show wording context.style (.keyword .forK :: .gap :: (commaSlots (List.map _ _) ++
    .gap :: .keyword .inK :: .gap :: (commaSlots _ ++ .gap :: .keyword .doK :: _))) = _
  rw [map_spell]
  simp [Rule.slots, nodeSlots, wording_bodyEndSlots hcontext _ hbody]

/-! ## Jumps -/

/-- A jump out of a loop. Counterpart of `Derives.breakStatement`. -/
theorem reprints_breakStatement :
    ReprintsLegible context .statement [nodeOf n .breakStatement ts] :=
  .of_core hcontext (by simp) rfl fun _ _ _ => ReadsAs.breakStatement.of_eq (mul_one _)

/-- A jump to a label. Counterpart of `Derives.gotoStatement`. -/
theorem reprints_gotoStatement :
    ReprintsLegible context .statement [nodeOf m (.gotoStatement (nameOf n t)) ts] := by
  refine .of_core hcontext (by simp) rfl fun _ place _ => ReadsAs.gotoStatement.of_eq ?_
  simp [core, coreSlots, wording_spell_name hcontext]

/-- A label. Counterpart of `Derives.labelStatement`. -/
theorem reprints_labelStatement :
    ReprintsLegible context .statement [nodeOf m (.labelStatement (nameOf n t)) ts] := by
  refine .of_core hcontext (by simp) rfl fun _ place _ => ReadsAs.labelStatement.of_eq ?_
  simp [core, coreSlots, wording_spell_name hcontext]

/-- A return, with values or without. Counterpart of `Derives.returnStatement`. -/
theorem reprints_returnStatement (ih : ReprintsLegible context .arguments values) :
    ReprintsLegible context .block [nodeOf n (.returnStatement values) ts] := by
  refine .of_core hcontext (by simp) rfl fun hlegible place _ => ?_
  have hvalues := ih.children trivial hlegible fun _ hmem => hmem
  refine (ReadsAs.returnStatement (hvalues _ trivial)).of_eq ?_
  simp only [core, coreSlots, Node.shape_mk]
  split
  · rename_i hempty
    obtain rfl := List.isEmpty_iff.1 hempty
    simp [Rule.slots, commaSlots]
  · simp [Rule.slots, nodeSlots]

end

/-! ## All productions -/

/-- What is written for what was read is read as what is kept of it, by induction on how it was
read: one case for each production, which is the theorem named for it. Counterpart of `Derives`. -/
theorem Derives.reprints {context : Context} (hcontext : context.attachments = []) {isApart : Bool}
    {rule : Rule} {a b : Nat} {ts : List Token} {nodes : List Node}
    (h : Derives isApart rule a b ts nodes) : ReprintsLegible context rule nodes := by
  induction h with
  | identifier => exact fun _ _ => reprints_name hcontext (by simp) fun _ _ _ => .identifier
  | nameStart => exact fun _ _ => reprints_name hcontext (by simp) fun _ _ _ => .nameStart
  | lastName => exact fun _ _ => reprints_name hcontext (by simp) fun _ _ _ => .lastName
  | lastParameter => exact fun _ _ => reprints_name hcontext (by simp) fun _ _ _ => .lastParameter
  | literal => exact reprints_literal hcontext
  | varargs => exact reprints_varargs hcontext
  | parens _ _ _ ih => exact reprints_parens hcontext ih
  | table _ _ _ ih => exact reprints_table hcontext ih
  | function _ _ _ _ _ hbody ihp ihb => exact reprints_function hcontext ihp hbody ihb
  | member _ _ hbase hderives ih => exact reprints_member hcontext hderives hbase ih
  | method _ _ hbase hderives ih => exact reprints_method hcontext hderives hbase ih
  | nameMember _ _ _ ih => exact reprints_nameMember hcontext ih
  | nameMethod _ _ _ ih => exact reprints_nameMethod hcontext ih
  | nameDotted _ ih => exact reprints_nameDotted ih
  | index _ _ hbase hderives _ ih ihk => exact reprints_index hcontext hderives hbase ih ihk
  | plain hbase hderives ih => exact reprints_plain hbase hderives ih
  | call _ _ _ _ ih ihs => exact reprints_call hcontext ih ihs
  | tableCall _ _ _ _ ih ihs => exact reprints_tableCall hcontext ih ihs
  | stringCall hkind hstarts _ ih => exact reprints_stringCall hcontext hkind hstarts ih
  | unary hop habove hderives ih => exact reprints_unary hcontext (.unary hop habove hderives) ih
  | binary hop hbelow habove hleft hright ih ihr =>
    exact reprints_binary hcontext (.binary hop hbelow habove hleft hright) ih ihr
  | lastExpression _ ih => exact reprints_lastExpression ih
  | moreExpressions _ _ hrest ih ihs =>
    exact reprints_moreExpressions (hrest.nodes_ne_nil rfl) ih ihs
  | someArguments _ ih => exact reprints_someArguments ih
  | noArguments => exact fun _ _ => .nil (fun _ => rfl) fun _ _ => .noArguments
  | noParameters => exact fun _ _ => .nil (fun _ => rfl) fun _ _ => .noParameters
  | noFields => exact fun _ _ => .nil (fun _ => rfl) fun _ _ => .noFields
  | emptyBlock => exact fun _ _ => .nil (fun _ => rfl) fun _ _ => .emptyBlock
  | moreNames _ _ hrest ih =>
    exact fun hlegible _ => reprints_moreNames hcontext (hrest.nodes_ne_nil rfl) (fun _ _ => rfl)
      (fun _ => trivial) (fun ht hcomma _ => .moreNames ht hcomma)
      (ih (hlegible.subset (by simp)) trivial)
  | moreParameters _ _ hne _ ih =>
    exact fun hlegible _ => reprints_moreNames hcontext hne (fun _ _ => rfl) (fun _ => trivial)
      .moreParameters (ih (hlegible.subset (by simp)) trivial)
  | keyField _ _ _ _ _ ih ihv => exact reprints_keyField hcontext ih ihv
  | nameField _ _ _ ih => exact reprints_nameField hcontext ih
  | valueField _ ih => exact reprints_valueField hcontext ih
  | lastField _ ih => exact reprints_lastField ih
  | moreFields _ _ _ ih ihs => exact reprints_moreFields ih ihs
  | declaration _ _ ih => exact reprints_declaration hcontext ih
  | definition _ _ _ hvalues ih ihv =>
    exact reprints_definition hcontext (hvalues.nodes_ne_nil rfl) ih ihv
  | localFunction _ _ _ _ _ _ _ hbody ihp ihb => exact reprints_localFunction hcontext ihp hbody ihb
  | globalFunction _ _ _ _ _ _ hbody ihn ihp ihb =>
    exact reprints_globalFunction hcontext ihn ihp hbody ihb
  | assignment _ hall hderives _ ih ihv => exact reprints_assignment hcontext hall hderives ih ihv
  | callStatement hcall _ ih => exact reprints_callStatement hcontext hcall ih
  | conditional hk _ hclauses ih => exact reprints_conditional hcontext hk hclauses ih
  | whileLoop _ _ _ _ hbody ih ihb => exact reprints_whileLoop hcontext ih hbody ihb
  | doBlock _ _ hbody ih => exact reprints_doBlock hcontext hbody ih
  | repeatLoop _ _ hbody _ ihb ih => exact reprints_repeatLoop hcontext hbody ihb ih
  | numericFor _ _ _ _ _ _ _ _ hbody ih ihl ihb =>
    exact reprints_numericFor hcontext ih ihl hbody ihb
  | steppedFor _ _ _ _ _ _ _ _ _ _ hbody ih ihl ihs ihb =>
    exact reprints_steppedFor hcontext ih ihl ihs hbody ihb
  | genericFor _ _ _ _ _ _ hbody ih ihi ihb => exact reprints_genericFor hcontext ih ihi hbody ihb
  | breakStatement => exact reprints_breakStatement hcontext
  | gotoStatement => exact reprints_gotoStatement hcontext
  | labelStatement => exact reprints_labelStatement hcontext
  | semicolon _ _ ih => exact ih
  | moreStatements _ hstatement hbody ih ihs =>
    exact fun hlegible hdivides => .moreStatements hcontext hstatement hbody hdivides
      (ih (hlegible.subset (by simp)) trivial) (ihs (hlegible.subset (by simp)) hdivides.of_cons)
  | returnStatement _ _ _ ih => exact reprints_returnStatement hcontext ih
  | clause hk _ _ hbody ih ihb =>
    refine reprints_clause hcontext ?_ hbody ih ihb
    rcases hk with hk | hk <;> rw [hk] <;> decide
  | elseClause _ hbody ihb => exact reprints_elseClause hcontext hbody ihb
  | lastClause _ ih => exact reprints_lastClause ih
  | moreClauses hk hhead hclause hclauses ih ihs =>
    exact reprints_moreClauses hk hhead hclause hclauses ih ihs

end LuaFormatter
