import LuaFormatter.Proofs.Spelling.Touching

/-!
# Expressions that touch nowhere

One theorem for each production of an expression, a list or a field: if what is written for the
parts touches nowhere, then neither does what is written for the whole. They are the cases of
`Derives.touches`, and take its induction hypotheses.
-/

namespace LuaFormatter

section
variable {context : Context} {rule : Rule} {isApart : Bool} {a b c n m : Nat} {t : Token}
  {ts us ws : List Token} {node base key value left right : Node}
  {nodes arguments parameters body fields : List Node}

/-! ## Lists -/

/-- A rule that reads no nodes and writes nothing for them touches nowhere. Counterpart of
`Rule.slots`. -/
theorem touches_nil (hslots : ∀ place, rule.slots context place [] = []) :
    TouchesLegible context rule [] := by
  intro _ place
  rw [hslots]
  exact trivial

/-- More expressions than one, with a comma after the first (`RuleTouches.commas`). Counterpart of
`Derives.moreExpressions`. -/
theorem touches_moreExpressions (ih : TouchesLegible context .expression [node])
    (ihs : TouchesLegible context .expressions nodes) :
    TouchesLegible context .expressions (node :: nodes) :=
  fun hlegible => (ih (hlegible.subset (by simp))).commas (by simp)
  (ihs (hlegible.subset (by simp)))

/-- A last field, after which a comma may be written. Counterpart of `Derives.lastField`. -/
theorem touches_lastField (ih : TouchesLegible context .field [node]) :
    TouchesLegible context .fields [node] :=
  fun hlegible => (ih hlegible).moreFields fun _ => trivial

/-- More fields than one (`RuleTouches.moreFields`). Counterpart of `Derives.moreFields`. -/
theorem touches_moreFields (ih : TouchesLegible context .field [node])
    (ihs : TouchesLegible context .fields nodes) : TouchesLegible context .fields (node :: nodes) :=
  fun hlegible => (ih (hlegible.subset (by simp))).moreFields (ihs (hlegible.subset (by simp)))

variable (hcontext : context.attachments = [])
include hcontext

/-! ## Operands -/

/-- A name, in whichever rule reads it. Counterpart of `Derives.identifier`, `Derives.lastName`,
`Derives.lastParameter` and `Derives.nameStart`. -/
theorem touches_name (hrule : rule ≠ .fields) : TouchesLegible context rule [nameOf n t] :=
  .of_core hcontext hrule fun hlegible _ => hlegible.self.touches_name

/-- More names than one, which are written as expressions are. Counterpart of `Derives.moreNames`
and `Derives.moreParameters`. -/
theorem touches_moreNames (ih : TouchesLegible context .expressions nodes) :
    TouchesLegible context .expressions (nameOf n t :: nodes) :=
  touches_moreExpressions (touches_name hcontext (by simp)) ih

/-- A literal, or the dots at the end of parameters (`Node.Legible.touches_literal`). Counterpart of
`Derives.literal` and `Derives.varargs`. -/
theorem touches_literal {kind : LiteralKind} {text : String} (hrule : rule ≠ .fields) :
    TouchesLegible context rule [nodeOf n (.literal kind text) ts] :=
  .of_core hcontext hrule fun hlegible _ => hlegible.self.touches_literal [] .nil (by simp)

/-- An expression in parentheses, which are written or left out (`touches_core`). Counterpart of
`Derives.parens`. -/
theorem touches_parens (ih : TouchesLegible context .expression [node]) :
    TouchesLegible context .expression [node.parenthesise] := by
  refine .of_core hcontext (by simp) fun hlegible place => ?_
  rw [core_parenthesise]
  exact touches_core hcontext ((ih hlegible.of_parenthesise).one (by simp) place)

/-- A table, whose fields stand between braces (`touches_braces`). Counterpart of
`Derives.table`. -/
theorem touches_table (ih : TouchesLegible context .fields fields) :
    TouchesLegible context .expression [nodeOf n (.table fields) ts] :=
  .of_core hcontext (by simp) fun hlegible _ =>
    touches_braces hcontext (ih.children hlegible fun _ hmem => hmem) (by simp)

/-- A function without a name: its parameters come right after the keyword (`touches_routine`).
Counterpart of `Derives.function`. -/
theorem touches_function (ihp : TouchesLegible context .parameters parameters)
    (hbody : Derives isApart .block a b us body) (ihb : TouchesLegible context .block body) :
    TouchesLegible context .expression [nodeOf n (.function false none parameters body) ts] := by
  refine .of_core hcontext (by simp) fun hlegible place => .keyword ?_
  exact touches_routine hcontext (.inr rfl)
    (ihp.children hlegible fun _ hmem => by simp [Shape.children, hmem]) hbody
    (ihb.children hlegible fun _ hmem => by simp [Shape.children, hmem])

/-! ## Accesses and calls -/

/-- The name of a member or of a method after what it belongs to (`touches_access`). Counterpart of
`Derives.member` and `Derives.method`. -/
theorem touches_member {indexer : Indexer} (hrule : rule ≠ .fields)
    (hderives : Derives isApart .expression a b us [base]) (hbase : base.canBeBase = true)
    (ih : TouchesLegible context .expression [base]) :
    TouchesLegible context rule [nodeOf m (.member indexer base (nameOf n t)) ts] :=
  .of_core hcontext hrule fun hlegible _ =>
    touches_access hcontext (ih.child (by simp) hlegible (by simp [Shape.children]) _)
      (hderives.closesBase hcontext (.inl ⟨rfl, hbase⟩))
      (hlegible.child (by simp [Shape.children])).self

/-- A name after another one in the name of a function, which ends in a name (`Derives.last_name`).
Counterpart of `Derives.nameMember` and `Derives.nameMethod`. -/
theorem touches_namePart {indexer : Indexer} (hrule : rule ≠ .fields)
    (hderives : Derives isApart .dotted a b us [base])
    (ih : TouchesLegible context .dotted [base]) :
    TouchesLegible context rule [nodeOf m (.member indexer base (nameOf n t)) ts] :=
  .of_core hcontext hrule fun hlegible _ =>
    touches_access hcontext (ih.child (by simp) hlegible (by simp [Shape.children]) _)
      ⟨_, hderives.last_name hcontext (.inl rfl) rfl _, rfl⟩
      (hlegible.child (by simp [Shape.children])).self

/-- An access by a key: the bracket ends before the key (`touches_bracketSlots`). Counterpart of
`Derives.index`. -/
theorem touches_index (hderives : Derives isApart .expression a b us [base])
    (hbase : base.canBeBase = true) (hkey : Derives isApart .expression b c ws [key])
    (ih : TouchesLegible context .expression [base])
    (ihk : TouchesLegible context .expression [key]) :
    TouchesLegible context .expression [nodeOf n (.index base key) ts] := by
  refine .of_core hcontext (by simp) fun hlegible place => ?_
  show Touches context.style none
    (spell context Place.base base ++ bracketSlots key (spell context {} key))
  refine (ih.child (by simp) hlegible (by simp [Shape.children]) _).suffix
    (hderives.closesBase hcontext (.inl ⟨rfl, hbase⟩)) fun kind hkind => ?_
  rw [← List.append_nil (bracketSlots _ _)]
  refine touches_bracketSlots hcontext hkey
    (ihk.child (by simp) hlegible (by simp [Shape.children]) _) hlegible.self.bracket ?_ .nil
  rintro _ ⟨⟩
  exact Kind.endsBefore_suffix hkind (by simp)

/-- A call with arguments in parentheses, which may come right after what is called. Counterpart of
`Derives.call`. -/
theorem touches_call (hderives : Derives isApart .callee a b us [base])
    (ih : TouchesLegible context .callee [base])
    (ihs : TouchesLegible context .arguments arguments) :
    TouchesLegible context .expression [nodeOf n (.call base arguments) ts] := by
  refine .of_core hcontext (by simp) fun hlegible place => ?_
  simp only [core, coreSlots, Node.shape_mk, emptyParensSlots_eq hcontext]
  refine (ih.child (by simp) hlegible (by simp [Shape.children]) _).suffix
    (hderives.closesBase hcontext (.inr rfl)) fun kind hkind => ?_
  have hparen : ∀ before ∈ some kind, before.EndsBefore (Symbol.leftParen).text.toList := by
    rintro _ ⟨⟩
    exact Kind.endsBefore_suffix hkind (by simp)
  split
  · exact touches_symbol.2 ⟨hparen, Touches.alone (.symbol trivial) rfl⟩
  · refine touches_symbol.2 ⟨hparen, Touches.alone (Touches.append (touches_argumentSlots _ ?_)
      (.soft (.closer .nil rfl))) rfl⟩
    rw [slots_indexed]
    exact ihs.children hlegible (fun _ hmem => by simp [Shape.children, hmem]) _

/-- A call with a table, which may come right after what is called. Counterpart of
`Derives.tableCall`. -/
theorem touches_tableCall (hderives : Derives isApart .callee a b us [base])
    (ih : TouchesLegible context .callee [base]) (ihs : TouchesLegible context .fields fields) :
    TouchesLegible context .expression
      [nodeOf n (.tableCall base (nodeOf m (.table fields) ws)) ts] := by
  refine .of_core hcontext (by simp) fun hlegible place => ?_
  have htable : LegibleTrees context [nodeOf m (.table fields) ws] :=
    hlegible.child (by simp [Shape.children])
  show Touches context.style none
    (spell context Place.base base ++ spell context {} (nodeOf m (.table fields) ws))
  refine (ih.child (by simp) hlegible (by simp [Shape.children]) _).suffix
    (hderives.closesBase hcontext (.inr rfl)) fun kind hkind => ?_
  rw [spell_nodeOf hcontext]
  refine touches_braces hcontext (ihs.children htable fun _ hmem => hmem) ?_
  rintro _ ⟨⟩
  exact Kind.endsBefore_suffix hkind (by simp)

/-- A call with a string: no token that closes a value goes on with a quote or with the bracket of a
long string (`head_string`). Counterpart of `Derives.stringCall`. -/
theorem touches_stringCall {kind : LiteralKind} (hkind : Parser.literalKind? t.kind = some kind)
    (hstarts : Parser.startsArguments t.kind = true)
    (hderives : Derives isApart .callee a b us [base])
    (ih : TouchesLegible context .callee [base]) :
    TouchesLegible context .expression
      [nodeOf n (.stringCall base (nodeOf m (.literal kind (Parser.textOf t)) ws)) ts] := by
  refine .of_core hcontext (by simp) fun hlegible place => ?_
  have hstring : (nodeOf m (.literal kind (Parser.textOf t)) ws).Legible context :=
    (hlegible.child (by simp [Shape.children]) : LegibleTrees context [nodeOf m _ ws]).self
  show Touches context.style none
    (spell context Place.base base ++ spell context {}
      (nodeOf m (.literal kind (Parser.textOf t)) ws))
  refine (ih.child (by simp) hlegible (by simp [Shape.children]) _).suffix
    (hderives.closesBase hcontext (.inr rfl)) fun last hcloses => ?_
  rw [spell_nodeOf hcontext]
  refine hstring.touches_literal [] .nil ?_
  rintro _ ⟨⟩ c hc
  refine Kind.endsBefore_of_closesBase hcloses (head_string (hstring.literal _ _ rfl).reads ?_ c hc)
  rcases isString_of_startsArguments hkind hstarts with rfl | rfl
  · exact .inl rfl
  · exact .inr rfl

/-! ## Operations -/

/-- An operation with one operand (`touches_operation`). Counterpart of `Derives.unary`. -/
theorem touches_unary {op : UnaryOp} (hderives : Derives isApart .expression a b us [base])
    (ih : TouchesLegible context .expression [base]) :
    TouchesLegible context .expression [nodeOf n (.unary op base) ts] :=
  .of_core hcontext (by simp) fun hlegible _ => touches_operation hcontext hlegible.self hderives
    (ih.child (by simp) hlegible (by simp [Shape.children]) _)

/-- An operation with two operands has blanks on both sides of its operator. Counterpart of
`Derives.binary`. -/
theorem touches_binary {op : BinaryOp} (ih : TouchesLegible context .expression [left])
    (ihr : TouchesLegible context .expression [right]) :
    TouchesLegible context .expression [nodeOf n (.binary op left right) ts] := by
  refine .of_core hcontext (by simp) fun hlegible place => ?_
  have hright := ihr.child (by simp) hlegible (by simp [Shape.children]) (Place.right op)
  exact (ih.child (by simp) hlegible (by simp [Shape.children]) _).append
    (.blank (touches_fixed (by cases op <;> rfl) hright))

/-! ## Fields -/

/-- A field with a key: written as a name, or between brackets (`touches_bracketSlots`). Counterpart
of `Derives.keyField`. -/
theorem touches_keyField (hkey : Derives isApart .expression a b us [key])
    (ih : TouchesLegible context .expression [key])
    (ihv : TouchesLegible context .expression [value]) :
    TouchesLegible context .field [nodeOf n (.keyField key value) ts] := by
  refine .of_core hcontext (by simp) fun hlegible place => ?_
  have hback : Follows context.style
      (.space :: .symbol .equal :: .space :: spell context Place.field value) :=
    .blank (.symbol (ihv.child (by simp) hlegible (by simp [Shape.children]) _))
  simp only [core, coreSlots, Node.shape_mk, commented_eq hcontext]
  cases hname : keyName? key with
  | some name =>
    have hreads := Scan.reads_of_isName (isName_of_keyName? hname)
    exact Touches.append ⟨rfl, hreads, (by simp), trivial⟩ hback
  | none =>
    exact touches_bracketSlots hcontext hkey
      (ih.child (by simp) hlegible (by simp [Shape.children]) _) hlegible.self.bracket
      (by simp) hback

/-- A field with a name. Counterpart of `Derives.nameField`. -/
theorem touches_nameField (ih : TouchesLegible context .expression [value]) :
    TouchesLegible context .field [nodeOf m (.nameField (nameOf n t) value) ts] := by
  refine .of_core hcontext (by simp) fun hlegible place => ?_
  show Touches context.style none (spell context {} (nameOf n t) ++
    .space :: .symbol .equal :: .space :: spell context Place.field value)
  rw [spell_name hcontext]
  have hname : LegibleTrees context [nameOf n t] := hlegible.child (by simp [Shape.children])
  exact hname.self.touches_name.append
    (.blank (.symbol (ih.child (by simp) hlegible (by simp [Shape.children]) _)))

/-- A field that is a value only. Counterpart of `Derives.valueField`. -/
theorem touches_valueField (ih : TouchesLegible context .expression [value]) :
    TouchesLegible context .field [nodeOf n (.valueField value) ts] :=
  .of_core hcontext (by simp) fun hlegible _ =>
    ih.child (by simp) hlegible (by simp [Shape.children]) _

end

end LuaFormatter
