import LuaFormatter.Proofs.Spelling.TouchExpression

/-!
# Statements that touch nowhere

One theorem for each production of a statement, a block or a branch: if what is written for the
parts touches nowhere, then neither does what is written for the whole. With the productions of
expressions they are the cases of the induction over derivations, so what is written for legible
trees touches nowhere (`Derives.touches`).
-/

namespace LuaFormatter

section
variable {context : Context} {isApart : Bool} {a b n m stop stop' : Nat} {t : Token}
  {ts us : List Token}
  {span : Span} {name condition first last step node : Node}
  {names values targets iterators parameters clauses body nodes : List Node}

/-! ## Blocks and branches -/

/-- A statement and the rest of its block (`RuleTouches.moreStatements`). Counterpart of
`Derives.moreStatements`. -/
theorem touches_moreStatements (ih : TouchesLegible context .statement [node])
    (ihs : TouchesLegible context .block nodes) : TouchesLegible context .block (node :: nodes) :=
  fun hlegible => (ih (hlegible.subset (by simp))).moreStatements (ihs (hlegible.subset (by simp)))

/-- The last branch of a conditional. Counterpart of `Derives.lastClause`. -/
theorem touches_lastClause (ih : TouchesLegible context (.clause stop) [node]) :
    TouchesLegible context (.clauses stop') [node] := by
  intro hlegible place
  rw [slots_single (by simp)]
  exact (ih hlegible).one (by simp) _

/-- A branch and the ones after it (`RuleTouches.moreClauses`). Counterpart of
`Derives.moreClauses`. -/
theorem touches_moreClauses (ih : TouchesLegible context (.clause stop) [node])
    (ihs : TouchesLegible context (.clauses stop') nodes) :
    TouchesLegible context (.clauses stop') (node :: nodes) :=
  fun hlegible => (ih (hlegible.subset (by simp))).moreClauses (ihs (hlegible.subset (by simp)))

variable (hcontext : context.attachments = [])
include hcontext

/-- A branch with a condition and its body after it. Counterpart of `Derives.clause`. -/
theorem touches_clause {keyword : Keyword} (hkeyword : keyword = .ifK ∨ keyword = .elseifK)
    (hbody : Derives isApart .block a b us body)
    (ih : TouchesLegible context .expression [condition])
    (ihb : TouchesLegible context .block body) :
    TouchesLegible context (.clause stop)
      [.mk n (.clause (Parser.clauseKind (.keyword keyword)) (some condition) body)
        span false] := by
  refine .of_core hcontext (by simp) fun hlegible place => ?_
  have hblock := ihb.children hlegible fun _ hmem => by simp [Shape.children, hmem]
  have hthen : ∀ node, Touches context.style none (spell context {} condition ++
      [.space, .keyword .thenK] ++
        context.bodySlots node (body.map fun child => ⟨child, spell context {} child⟩)) := by
    intro node
    rw [List.append_assoc, ← List.append_nil (context.bodySlots _ _)]
    exact (ih.child (by simp) hlegible (by simp [Shape.children]) _).append
      (.blank (follows_bodySlots hcontext node hbody hblock .nil).opened)
  rcases hkeyword with rfl | rfl
  · exact .keyword (hthen _)
  · exact .keyword (hthen _)

/-- The branch without a condition. Counterpart of `Derives.elseClause`. -/
theorem touches_elseClause (hbody : Derives isApart .block a b us body)
    (ihb : TouchesLegible context .block body) :
    TouchesLegible context (.clause stop) [.mk n (.clause .elseClause none body) span false] := by
  refine .of_core hcontext (by simp) fun hlegible place => Follows.opened ?_
  show Follows context.style (context.bodySlots _ _)
  rw [← List.append_nil (context.bodySlots _ _)]
  exact follows_bodySlots hcontext _ hbody
    (ihb.children hlegible fun _ hmem => by simp [Shape.children, hmem]) .nil

/-- A conditional: its branches, and its end on the same line or on the next one. Counterpart of
`Derives.conditional`. -/
theorem touches_conditional (ih : TouchesLegible context (.clauses stop) clauses) :
    TouchesLegible context .statement [nodeOf n (.conditional clauses) ts] := by
  refine .of_core hcontext (by simp) fun hlegible place => ?_
  show Touches context.style none ([Slot.hard].intercalate (List.map _ _) ++ _)
  rw [map_spell]
  have hend : Touches context.style none [.keyword .endK] := .keyword trivial
  refine (ih.children hlegible (fun _ hmem => hmem) _).append ?_
  split
  · exact .blank hend
  · exact .hard hend

/-! ## Variables and functions -/

/-- Local variables without values. Counterpart of `Derives.declaration`. -/
theorem touches_declaration (ih : TouchesLegible context .names names) :
    TouchesLegible context .statement [nodeOf n (.localVariables names []) ts] := by
  refine .of_core hcontext (by simp) fun hlegible place => .keyword ?_
  show Touches context.style none (commaSlots (List.map _ _) ++ [])
  rw [map_spell, List.append_nil]
  exact ih.children hlegible (fun _ hmem => by simp [Shape.children, hmem]) _

/-- Local variables and their values. Counterpart of `Derives.definition`. -/
theorem touches_definition (ih : TouchesLegible context .names names)
    (ihv : TouchesLegible context .expressions values) :
    TouchesLegible context .statement [nodeOf n (.localVariables names values) ts] := by
  refine .of_core hcontext (by simp) fun hlegible place => .keyword ?_
  show Touches context.style none (commaSlots (List.map _ _) ++ _)
  rw [map_spell]
  refine (ih.children hlegible (fun _ hmem => by simp [Shape.children, hmem]) _).append ?_
  split
  · exact .nil
  · exact .blank (.symbol (ihv.children hlegible (fun _ hmem => by simp [Shape.children, hmem]) _))

/-- A local function: its parameters come right after its name (`touches_routine`). Counterpart of
`Derives.localFunction`. -/
theorem touches_localFunction (ihp : TouchesLegible context .parameters parameters)
    (hbody : Derives isApart .block a b us body) (ihb : TouchesLegible context .block body) :
    TouchesLegible context .statement
      [nodeOf m (.function true (some (nameOf n t)) parameters body) ts] := by
  refine .of_core hcontext (by simp) fun hlegible place => .keyword (.keyword ?_)
  have hname : LegibleTrees context [nameOf n t] := hlegible.child (by simp [Shape.children])
  show Touches context.style none (spell context {} (nameOf n t) ++ _)
  rw [spell_name hcontext]
  exact touches_append.2 ⟨hname.self.touches_name, touches_routine hcontext (.inl rfl)
    (ihp.children hlegible fun _ hmem => by simp [Shape.children, hmem]) hbody
    (ihb.children hlegible fun _ hmem => by simp [Shape.children, hmem])⟩

/-- A function with a name, which ends in a name (`Derives.last_name`). Counterpart of
`Derives.globalFunction`. -/
theorem touches_globalFunction (hname : Derives isApart .name a b us [name])
    (ihn : TouchesLegible context .name [name])
    (ihp : TouchesLegible context .parameters parameters) {c d : Nat} {bs : List Token}
    (hbody : Derives isApart .block c d bs body) (ihb : TouchesLegible context .block body) :
    TouchesLegible context .statement
      [nodeOf n (.function false (some name) parameters body) ts] := by
  refine .of_core hcontext (by simp) fun hlegible place => .keyword ?_
  show Touches context.style none (spell context {} name ++ _)
  refine touches_append.2 ⟨ihn.child (by simp) hlegible (by simp [Shape.children]) _, ?_⟩
  rw [hname.last_name hcontext (.inr rfl) rfl]
  exact touches_routine hcontext (.inl rfl)
    (ihp.children hlegible fun _ hmem => by simp [Shape.children, hmem]) hbody
    (ihb.children hlegible fun _ hmem => by simp [Shape.children, hmem])

/-- An assignment. Counterpart of `Derives.assignment`. -/
theorem touches_assignment (ih : TouchesLegible context .expressions targets)
    (ihv : TouchesLegible context .expressions values) :
    TouchesLegible context .statement [nodeOf n (.assignment targets values) ts] := by
  refine .of_core hcontext (by simp) fun hlegible place => ?_
  show Touches context.style none
    (commaSlots (List.map _ _) ++ .space :: .symbol .equal :: .gap :: commaSlots _)
  rw [map_spell]
  have htargets := ih.children hlegible fun _ hmem => by simp [Shape.children, hmem]
  have hvalues := ihv.children hlegible fun _ hmem => by simp [Shape.children, hmem]
  exact (htargets _).append (.blank (.symbol (hvalues _)))

/-- A call that is a statement. Counterpart of `Derives.callStatement`. -/
theorem touches_callStatement (ih : TouchesLegible context .expression [node]) :
    TouchesLegible context .statement [nodeOf n (.callStatement node) ts] :=
  .of_core hcontext (by simp) fun hlegible _ =>
    ih.child (by simp) hlegible (by simp [Shape.children]) _

/-! ## Loops -/

/-- A block between `do` and `end` (`follows_bodyEndSlots`). Counterpart of `Derives.doBlock`. -/
theorem touches_doBlock (hbody : Derives isApart .block a b us body)
    (ihb : TouchesLegible context .block body) :
    TouchesLegible context .statement [nodeOf n (.doBlock body) ts] :=
  .of_core hcontext (by simp) fun hlegible _ =>
    (follows_bodyEndSlots hcontext _ hbody (ihb.children hlegible fun _ hmem => hmem)).opened

/-- A loop with its condition before its body. Counterpart of `Derives.whileLoop`. -/
theorem touches_whileLoop (ih : TouchesLegible context .expression [condition])
    (hbody : Derives isApart .block a b us body) (ihb : TouchesLegible context .block body) :
    TouchesLegible context .statement [nodeOf n (.whileLoop condition body) ts] := by
  refine .of_core hcontext (by simp) fun hlegible place => .keyword ?_
  have hblock := ihb.children hlegible fun _ hmem => by simp [Shape.children, hmem]
  exact (ih.child (by simp) hlegible (by simp [Shape.children]) _).append
    (.blank (follows_bodyEndSlots hcontext _ hbody hblock).opened)

/-- A loop with its condition after its body, on the same line or on the next one. Counterpart of
`Derives.repeatLoop`. -/
theorem touches_repeatLoop (hbody : Derives isApart .block a b us body)
    (ihb : TouchesLegible context .block body)
    (ih : TouchesLegible context .expression [condition]) :
    TouchesLegible context .statement [nodeOf n (.repeatLoop body condition) ts] := by
  refine .of_core hcontext (by simp) fun hlegible place => Follows.opened ?_
  have hblock := ihb.children hlegible fun _ hmem => by simp [Shape.children, hmem]
  have huntil :
      Touches context.style none (.keyword .untilK :: .space :: spell context {} condition) :=
    .keyword (ih.child (by simp) hlegible (by simp [Shape.children]) _)
  refine follows_bodySlots hcontext _ hbody hblock ?_
  split
  · exact .hard huntil
  · exact .blank huntil

/-- A loop over numbers from a first to a last one. Counterpart of `Derives.numericFor`. -/
theorem touches_numericFor (ih : TouchesLegible context .expression [first])
    (ihl : TouchesLegible context .expression [last]) (hbody : Derives isApart .block a b us body)
    (ihb : TouchesLegible context .block body) :
    TouchesLegible context .statement
      [nodeOf m (.numericFor (nameOf n t) first last none body) ts] := by
  refine .of_core hcontext (by simp) fun hlegible place => .keyword ?_
  have hname : LegibleTrees context [nameOf n t] := hlegible.child (by simp [Shape.children])
  have hblock := ihb.children hlegible fun _ hmem => by simp [Shape.children, hmem]
  have hfirst := ih.child (by simp) hlegible (by simp [Shape.children]) {}
  have hlast := ihl.child (by simp) hlegible (by simp [Shape.children]) {}
  show Touches context.style none (spell context {} (nameOf n t) ++ _)
  rw [spell_name hcontext]
  refine hname.self.touches_name.append
    (.blank (.symbol (hfirst.append (.closer (.blank (hlast.append ?_)) rfl))))
  exact .blank (follows_bodyEndSlots hcontext _ hbody hblock).opened

/-- A loop over numbers with a step. Counterpart of `Derives.steppedFor`. -/
theorem touches_steppedFor (ih : TouchesLegible context .expression [first])
    (ihl : TouchesLegible context .expression [last])
    (ihs : TouchesLegible context .expression [step]) (hbody : Derives isApart .block a b us body)
    (ihb : TouchesLegible context .block body) :
    TouchesLegible context .statement
      [nodeOf m (.numericFor (nameOf n t) first last (some step) body) ts] := by
  refine .of_core hcontext (by simp) fun hlegible place => .keyword ?_
  have hname : LegibleTrees context [nameOf n t] := hlegible.child (by simp [Shape.children])
  have hblock := ihb.children hlegible fun _ hmem => by simp [Shape.children, hmem]
  have hfirst := ih.child (by simp) hlegible (by simp [Shape.children]) {}
  have hlast := ihl.child (by simp) hlegible (by simp [Shape.children]) {}
  have hstep := ihs.child (by simp) hlegible (by simp [Shape.children]) {}
  show Touches context.style none (spell context {} (nameOf n t) ++ _)
  rw [spell_name hcontext]
  refine hname.self.touches_name.append
    (.blank (.symbol (hfirst.append (.closer (.blank (hlast.append ?_)) rfl))))
  refine .closer (.blank (hstep.append ?_)) rfl
  exact .blank (follows_bodyEndSlots hcontext _ hbody hblock).opened

/-- A loop over what iterators give. Counterpart of `Derives.genericFor`. -/
theorem touches_genericFor (ih : TouchesLegible context .names names)
    (ihi : TouchesLegible context .expressions iterators)
    (hbody : Derives isApart .block a b us body) (ihb : TouchesLegible context .block body) :
    TouchesLegible context .statement [nodeOf n (.genericFor names iterators body) ts] := by
  refine .of_core hcontext (by simp) fun hlegible place => .keyword ?_
  have hnames := ih.children hlegible fun _ hmem => by simp [Shape.children, hmem]
  have hiterators := ihi.children hlegible fun _ hmem => by simp [Shape.children, hmem]
  have hblock := ihb.children hlegible fun _ hmem => by simp [Shape.children, hmem]
  show Touches context.style none (commaSlots (List.map _ _) ++ _)
  rw [map_spell]
  exact (hnames _).append (.gap (.keyword ((hiterators _).append
    (.gap (follows_bodyEndSlots hcontext _ hbody hblock).opened))))

/-! ## Jumps -/

/-- A jump to a label. Counterpart of `Derives.gotoStatement`. -/
theorem touches_gotoStatement :
    TouchesLegible context .statement [nodeOf m (.gotoStatement (nameOf n t)) ts] := by
  refine .of_core hcontext (by simp) fun hlegible place => .keyword ?_
  have hname : LegibleTrees context [nameOf n t] := hlegible.child (by simp [Shape.children])
  show Touches context.style none (spell context {} (nameOf n t))
  rw [spell_name hcontext]
  exact hname.self.touches_name

/-- A label: its name ends before the colons that close it. Counterpart of
`Derives.labelStatement`. -/
theorem touches_labelStatement :
    TouchesLegible context .statement [nodeOf m (.labelStatement (nameOf n t)) ts] := by
  refine .of_core hcontext (by simp) fun hlegible place => .symbol (Touches.alone ?_ rfl)
  have hname : LegibleTrees context [nameOf n t] := hlegible.child (by simp [Shape.children])
  show Touches context.style none (spell context {} (nameOf n t) ++ [.symbol .colonColon])
  rw [spell_name hcontext]
  refine touches_append.2 ⟨hname.self.touches_name, touches_symbol.2 ⟨?_, trivial⟩⟩
  rintro _ ⟨⟩ c hc
  cases hc
  decide

/-- A return, with values or without. Counterpart of `Derives.returnStatement`. -/
theorem touches_returnStatement (ih : TouchesLegible context .arguments values) :
    TouchesLegible context .block [nodeOf n (.returnStatement values) ts] := by
  refine .of_core hcontext (by simp) fun hlegible place => .keyword ?_
  split
  · trivial
  · exact ih.children hlegible (fun _ hmem => hmem) _

end

/-! ## All productions -/

/-- What is written for legible trees touches nowhere, by induction on how they were read: one case
for each production, which is the theorem named for it. Counterpart of `Derives`. -/
theorem Derives.touches {context : Context} (hcontext : context.attachments = []) {isApart : Bool}
    {rule : Rule} {a b : Nat} {ts : List Token} {nodes : List Node}
    (h : Derives isApart rule a b ts nodes) :
    TouchesLegible context rule nodes := by
  induction h with
  | identifier | nameStart | lastName | lastParameter => exact touches_name hcontext (by simp)
  | literal | varargs => exact touches_literal hcontext (by simp)
  | parens _ _ _ ih => exact touches_parens hcontext ih
  | table _ _ _ ih => exact touches_table hcontext ih
  | function _ _ _ _ _ hbody ihp ihb => exact touches_function hcontext ihp hbody ihb
  | member _ _ hbase hderives ih | method _ _ hbase hderives ih =>
    exact touches_member hcontext (by simp) hderives hbase ih
  | nameMember _ _ hderives ih | nameMethod _ _ hderives ih =>
    exact touches_namePart hcontext (by simp) hderives ih
  | index _ _ hbase hderives hkey ih ihk => exact touches_index hcontext hderives hbase hkey ih ihk
  | call _ _ hderives _ ih ihs => exact touches_call hcontext hderives ih ihs
  | tableCall _ _ hderives _ ih ihs => exact touches_tableCall hcontext hderives ih ihs
  | stringCall hkind hstarts hderives ih =>
    exact touches_stringCall hcontext hkind hstarts hderives ih
  | plain _ _ ih | lastExpression _ ih | someArguments _ ih | nameDotted _ ih | semicolon _ _ ih =>
    exact ih
  | unary _ _ hderives ih => exact touches_unary hcontext hderives ih
  | binary _ _ _ _ _ ih ihr => exact touches_binary hcontext ih ihr
  | noArguments | noParameters | noFields | emptyBlock => exact touches_nil fun _ => rfl
  | moreExpressions _ _ _ ih ihs => exact touches_moreExpressions ih ihs
  | moreNames _ _ _ ih | moreParameters _ _ _ _ ih => exact touches_moreNames hcontext ih
  | keyField _ _ _ hkey _ ih ihv => exact touches_keyField hcontext hkey ih ihv
  | nameField _ _ _ ih => exact touches_nameField hcontext ih
  | valueField _ ih => exact touches_valueField hcontext ih
  | lastField _ ih => exact touches_lastField ih
  | moreFields _ _ _ ih ihs => exact touches_moreFields ih ihs
  | declaration _ _ ih => exact touches_declaration hcontext ih
  | definition _ _ _ _ ih ihv => exact touches_definition hcontext ih ihv
  | localFunction _ _ _ _ _ _ _ hbody ihp ihb => exact touches_localFunction hcontext ihp hbody ihb
  | globalFunction _ _ _ _ hname _ hbody ihn ihp ihb =>
    exact touches_globalFunction hcontext hname ihn ihp hbody ihb
  | assignment _ _ _ _ ih ihv => exact touches_assignment hcontext ih ihv
  | callStatement _ _ ih => exact touches_callStatement hcontext ih
  | conditional _ _ _ ih => exact touches_conditional hcontext ih
  | whileLoop _ _ _ _ hbody ih ihb => exact touches_whileLoop hcontext ih hbody ihb
  | doBlock _ _ hbody ih => exact touches_doBlock hcontext hbody ih
  | repeatLoop _ _ hbody _ ihb ih => exact touches_repeatLoop hcontext hbody ihb ih
  | numericFor _ _ _ _ _ _ _ _ hbody ih ihl ihb =>
    exact touches_numericFor hcontext ih ihl hbody ihb
  | steppedFor _ _ _ _ _ _ _ _ _ _ hbody ih ihl ihs ihb =>
    exact touches_steppedFor hcontext ih ihl ihs hbody ihb
  | genericFor _ _ _ _ _ _ hbody ih ihi ihb => exact touches_genericFor hcontext ih ihi hbody ihb
  | breakStatement => exact .of_core hcontext (by simp) fun _ _ => .keyword trivial
  | gotoStatement => exact touches_gotoStatement hcontext
  | labelStatement => exact touches_labelStatement hcontext
  | moreStatements _ _ _ ih ihs => exact touches_moreStatements ih ihs
  | returnStatement _ _ _ ih => exact touches_returnStatement hcontext ih
  | clause hk _ _ hbody ih ihb =>
    rcases hk with hk | hk <;> rw [hk]
    · exact touches_clause hcontext (.inl rfl) hbody ih ihb
    · exact touches_clause hcontext (.inr rfl) hbody ih ihb
  | elseClause _ hbody ihb => exact touches_elseClause hcontext hbody ihb
  | lastClause _ ih => exact touches_lastClause ih
  | moreClauses _ _ _ _ ih ihs => exact touches_moreClauses ih ihs

end LuaFormatter
