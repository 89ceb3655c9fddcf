import LuaFormatter.Proofs.Format.Reprint

/-!
# Expressions are read as they are written

One theorem for each production of an expression, a list or a field: if what is written for the
parts is read as what is kept of them, then so it is for the whole. They are the cases of
`Derives.reprints`, and take its induction hypotheses.
-/

namespace LuaFormatter

open Word

section
variable {context : Context} {rule : Rule} {isApart : Bool} {a b n m : Nat} {t : Token}
  {ts us ws : List Token} {node base key value left right : Node}
  {nodes arguments parameters body fields : List Node}

/-! ## Lists and names -/

/-- A single expression where more may stand. Counterpart of `Derives.lastExpression`. -/
theorem reprints_lastExpression (ih : ReprintsLegible context .expression [node]) :
    ReprintsLegible context .expressions [node] :=
  fun hlegible hdivides => .of_spell (by simp) fun place _ =>
    ((ih hlegible hdivides).one (by simp) place trivial).imp .lastExpression

/-- Arguments are expressions with commas between them, wherever they are written. Counterpart of
`Derives.someArguments`. -/
theorem reprints_someArguments (ih : ReprintsLegible context .expressions nodes) :
    ReprintsLegible context .arguments nodes :=
  fun hlegible hdivides place _ => (ih hlegible hdivides place trivial).someArguments

/-- More expressions than one (`Reprints.commas`). Counterpart of `Derives.moreExpressions`. -/
theorem reprints_moreExpressions (hne : nodes ≠ [])
    (ih : ReprintsLegible context .expression [node])
    (ihs : ReprintsLegible context .expressions nodes) :
    ReprintsLegible context .expressions (node :: nodes) := by
  intro hlegible _
  refine (ih (hlegible.subset (by simp)) trivial).commas (ihs (hlegible.subset (by simp)) trivial)
    hne (by simp) (fun _ => ⟨trivial, trivial⟩) [] (fun _ _ _ => ?_) .moreExpressions
  exact (List.append_nil _).symm

/-- A last field (`Reprints.lastField`). Counterpart of `Derives.lastField`. -/
theorem reprints_lastField (ih : ReprintsLegible context .field [node]) :
    ReprintsLegible context .fields [node] :=
  fun hlegible _ => (ih hlegible trivial).lastField

/-- More fields than one (`Reprints.moreFields`). Counterpart of `Derives.moreFields`. -/
theorem reprints_moreFields (ih : ReprintsLegible context .field [node])
    (ihs : ReprintsLegible context .fields nodes) :
    ReprintsLegible context .fields (node :: nodes) :=
  fun hlegible _ =>
    (ih (hlegible.subset (by simp)) trivial).moreFields (ihs (hlegible.subset (by simp)) trivial)

/-- A dotted name is the name of a function. Counterpart of `Derives.nameDotted`. -/
theorem reprints_nameDotted (ih : ReprintsLegible context .dotted [node]) :
    ReprintsLegible context .name [node] :=
  fun hlegible hdivides => .of_spell (by simp) fun place _ =>
    ((ih hlegible hdivides).one (by simp) place trivial).imp .nameDotted

/-- What can be called is kept so that it can be called (`Node.canBeBase_kept`). Counterpart of
`Derives.plain`. -/
theorem reprints_plain (hbase : base.canBeBase = true)
    (hderives : Derives isApart .expression a b ts [base])
    (ih : ReprintsLegible context .expression [base]) : ReprintsLegible context .callee [base] := by
  refine fun hlegible _ => .of_spell (by simp) fun place hplace => ?_
  refine ((ih hlegible trivial).one (by simp) place trivial).plain ?_
  rw [Node.canBeBase_normal]
  exact Node.canBeBase_kept hbase
    (hderives.shape_ne_method rfl _ (List.mem_singleton_self _)) hplace

variable (hcontext : context.attachments = [])
include hcontext

/-! ## Operands -/

/-- A literal is read with the same meaning (`LiteralWritten.readsAs`). Counterpart of
`Derives.literal`. -/
theorem reprints_literal {kind : LiteralKind} {text : String} :
    ReprintsLegible context .expression [nodeOf n (.literal kind text) ts] :=
  .of_core hcontext (by simp) rfl fun hlegible _ _ =>
    (hlegible.self.literal kind _ rfl).readsAs.of_eq (by simp [core, coreSlots])

/-- The dots at the end of parameters are written as they are. Counterpart of `Derives.varargs`. -/
theorem reprints_varargs :
    ReprintsLegible context .parameters [nodeOf n (.literal .vararg (Parser.textOf t)) ts] := by
  refine .of_core hcontext (by simp) rfl fun hlegible place _ => ?_
  have hwritten := hlegible.self.literal .vararg _ rfl
  have hword : literalWord context.style .vararg (Parser.textOf t) =
      Word.ofKind (.symbol .dotDotDot) :=
    congrArg (Prod.mk _) hwritten.reads.lexeme_symbol
  have htext := hwritten.text_eq
  rw [hword] at htext
  refine (ReadsAs.varargs htext).of_eq ?_
  show wording context.style [literalSlot context.style .vararg (Parser.textOf t)] = _
  rw [wording_single, wording_literal, hword]
  rfl

/-- An expression in parentheses, which are kept or left out (`Reprints.parenthesise`). Counterpart
of `Derives.parens`. -/
theorem reprints_parens (ih : ReprintsLegible context .expression [node]) :
    ReprintsLegible context .expression [node.parenthesise] :=
  fun hlegible _ => (ih hlegible.of_parenthesise trivial).parenthesise hcontext

/-- A table and its fields (`wording_table`). Counterpart of `Derives.table`. -/
theorem reprints_table (ih : ReprintsLegible context .fields fields) :
    ReprintsLegible context .expression [nodeOf n (.table fields) ts] :=
  .of_core hcontext (by simp) rfl fun hlegible _ _ =>
    (ReadsAs.table (ih.children trivial hlegible (fun _ hmem => hmem) _ trivial)).of_eq
      (wording_table hcontext)

/-- A function without a name (`wording_function`). Counterpart of `Derives.function`. -/
theorem reprints_function (ihp : ReprintsLegible context .parameters parameters)
    (hbody : Derives isApart .block a b us body) (ihb : ReprintsLegible context .block body) :
    ReprintsLegible context .expression [nodeOf n (.function false none parameters body) ts] := by
  refine .of_core hcontext (by simp) rfl fun hlegible place _ => ?_
  have hparameters := ihp.children trivial hlegible fun _ hmem => by simp [Shape.children, hmem]
  have hblock := ihb.body hlegible rfl fun _ hmem => by simp [Shape.children, hmem]
  refine (ReadsAs.function (hparameters _ trivial) (hblock _ rfl)).of_eq ?_
  exact congrArg (keyword .functionK * ·) (wording_function hcontext _ hbody)

/-! ## Accesses and calls -/

/-- The name of a member after what it belongs to. Counterpart of `Derives.member`. -/
theorem reprints_member (hderives : Derives isApart .expression a b us [base])
    (hbase : base.canBeBase = true) (ih : ReprintsLegible context .expression [base]) :
    ReprintsLegible context .expression [nodeOf m (.member .dot base (nameOf n t)) ts] := by
  refine .of_core hcontext (by simp) rfl fun hlegible place _ => ?_
  have hread := ih.child (by simp) trivial hlegible (by simp [Shape.children]) Place.base trivial
  refine (ReadsAs.member hread (hderives.canBeBase_form hbase)).of_eq ?_
  show wording context.style
    (spell context Place.base base ++ .symbol .dot :: spell context {} (nameOf n t)) = _
  simp [wording_spell_name hcontext]

/-- The name of a method after what it belongs to. Counterpart of `Derives.method`. -/
theorem reprints_method (hderives : Derives isApart .expression a b us [base])
    (hbase : base.canBeBase = true) (ih : ReprintsLegible context .expression [base]) :
    ReprintsLegible context .callee [nodeOf m (.member .colon base (nameOf n t)) ts] := by
  refine .of_core hcontext (by simp) rfl fun hlegible place _ => ?_
  have hread := ih.child (by simp) trivial hlegible (by simp [Shape.children]) Place.base trivial
  refine (ReadsAs.method hread (hderives.canBeBase_form hbase)).of_eq ?_
  show wording context.style
    (spell context Place.base base ++ .symbol .colon :: spell context {} (nameOf n t)) = _
  simp [wording_spell_name hcontext]

/-- A name after a dot in the name of a function. Counterpart of `Derives.nameMember`. -/
theorem reprints_nameMember (ih : ReprintsLegible context .dotted [base]) :
    ReprintsLegible context .dotted [nodeOf m (.member .dot base (nameOf n t)) ts] := by
  refine .of_core hcontext (by simp) rfl fun hlegible place _ => ?_
  have hread := ih.child (by simp) trivial hlegible (by simp [Shape.children]) Place.base trivial
  refine (ReadsAs.nameMember hread).of_eq ?_
  show wording context.style
    (spell context Place.base base ++ .symbol .dot :: spell context {} (nameOf n t)) = _
  simp [wording_spell_name hcontext]

/-- The name of a method at the end of the name of a function. Counterpart of
`Derives.nameMethod`. -/
theorem reprints_nameMethod (ih : ReprintsLegible context .dotted [base]) :
    ReprintsLegible context .name [nodeOf m (.member .colon base (nameOf n t)) ts] := by
  refine .of_core hcontext (by simp) rfl fun hlegible place _ => ?_
  have hread := ih.child (by simp) trivial hlegible (by simp [Shape.children]) Place.base trivial
  refine (ReadsAs.nameMethod hread).of_eq ?_
  show wording context.style
    (spell context Place.base base ++ .symbol .colon :: spell context {} (nameOf n t)) = _
  simp [wording_spell_name hcontext]

/-- An access by a key, in brackets that are written in either form (`wording_bracketSlots`).
Counterpart of `Derives.index`. -/
theorem reprints_index (hderives : Derives isApart .expression a b us [base])
    (hbase : base.canBeBase = true) (ih : ReprintsLegible context .expression [base])
    (ihk : ReprintsLegible context .expression [key]) :
    ReprintsLegible context .expression [nodeOf n (.index base key) ts] := by
  refine .of_core hcontext (by simp) rfl fun hlegible place _ => ?_
  have hread := ih.child (by simp) trivial hlegible (by simp [Shape.children]) Place.base trivial
  have hkey := ihk.child (by simp) trivial hlegible (by simp [Shape.children]) {} trivial
  refine (ReadsAs.index hread (hderives.canBeBase_form hbase) hkey).of_eq ?_
  show wording context.style
    (spell context Place.base base ++ bracketSlots key (spell context {} key)) = _
  rw [wording_append, wording_bracketSlots]

/-- A call with arguments in parentheses. Counterpart of `Derives.call`. -/
theorem reprints_call (ih : ReprintsLegible context .callee [base])
    (ihs : ReprintsLegible context .arguments arguments) :
    ReprintsLegible context .expression [nodeOf n (.call base arguments) ts] := by
  refine .of_core hcontext (by simp) rfl fun hlegible place _ => ?_
  have hread := ih.child (by simp) trivial hlegible (by simp [Shape.children]) Place.base rfl
  have harguments := ihs.children trivial hlegible fun _ hmem => by simp [Shape.children, hmem]
  refine (ReadsAs.call hread (harguments _ trivial)).of_eq ?_
  simp only [core, coreSlots, Node.shape_mk, emptyParensSlots_eq hcontext]
  split
  · rename_i hempty
    obtain rfl := List.isEmpty_iff.1 hempty
    simp [Rule.slots, commaSlots]
  · simp only [wording_append, wording_cons, wording_argumentSlots, slots_indexed]
    simp [Rule.slots, nodeSlots]

/-- A call with a table. Counterpart of `Derives.tableCall`. -/
theorem reprints_tableCall (ih : ReprintsLegible context .callee [base])
    (ihs : ReprintsLegible context .fields fields) :
    ReprintsLegible context .expression
      [nodeOf n (.tableCall base (nodeOf m (.table fields) ws)) ts] := by
  refine .of_core hcontext (by simp) rfl fun hlegible place _ => ?_
  have htable : LegibleTrees context [nodeOf m (.table fields) ws] :=
    hlegible.child (by simp [Shape.children])
  have hread := ih.child (by simp) trivial hlegible (by simp [Shape.children]) Place.base rfl
  have hfields := ihs.children trivial htable fun _ hmem => hmem
  refine (ReadsAs.tableCall hread (hfields _ trivial)).of_eq ?_
  show wording context.style
    (spell context Place.base base ++ spell context {} (nodeOf m (.table fields) ws)) = _
  rw [wording_append, spell_nodeOf hcontext, wording_table hcontext]

/-- A call with a string, which is written as a string that arguments may start with
(`startsArguments_of_literal`). Counterpart of `Derives.stringCall`. -/
theorem reprints_stringCall {kind : LiteralKind} (hkind : Parser.literalKind? t.kind = some kind)
    (hstarts : Parser.startsArguments t.kind = true) (ih : ReprintsLegible context .callee [base]) :
    ReprintsLegible context .expression
      [nodeOf n (.stringCall base (nodeOf m (.literal kind (Parser.textOf t)) ws)) ts] := by
  refine .of_core hcontext (by simp) rfl fun hlegible place _ => ?_
  have hstring : (nodeOf m (.literal kind (Parser.textOf t)) ws).Legible context :=
    (hlegible.child (by simp [Shape.children]) : LegibleTrees context [nodeOf m _ ws]).self
  have hwritten := hstring.literal kind _ rfl
  have hread := ih.child (by simp) trivial hlegible (by simp [Shape.children]) Place.base rfl
  refine (ReadsAs.stringCall hread (literalKind?_literalWord _ _ _) ?_ hwritten.text_eq).of_eq ?_
  · obtain ⟨raw, -, hword⟩ := literalSlot_eq context.style kind (Parser.textOf t)
    rw [hword]
    exact startsArguments_of_literal hkind hstarts
  · show wording context.style
      (spell context Place.base base ++ spell context {} (nodeOf m (.literal kind _) ws)) = _
    rw [wording_append, spell_nodeOf hcontext]
    simp [core, coreSlots]

/-! ## Operations -/

/-- An operation with one operand, which is kept above it (`Derives.above_form`). Counterpart of
`Derives.unary`. -/
theorem reprints_unary {op : UnaryOp}
    (hderives : Derives isApart .expression a b us [nodeOf n (.unary op base) ts])
    (ih : ReprintsLegible context .expression [base]) :
    ReprintsLegible context .expression [nodeOf n (.unary op base) ts] := by
  refine .of_core hcontext (by simp) rfl fun hlegible place _ => ?_
  have hread := ih.child (by simp) trivial hlegible (by simp [Shape.children]) {} trivial
  refine (ReadsAs.unary hread hderives.above_form).of_eq ?_
  show wording context.style (.fixed op.kind ::
    ((if spacesOperand op (compile context {} base) then [.space] else []) ++
      spell context {} base)) = _
  split <;> simp

/-- An operation with two operands, which are kept on their sides of it (`Derives.fits_form`).
Counterpart of `Derives.binary`. -/
theorem reprints_binary {op : BinaryOp}
    (hderives : Derives isApart .expression a b us [nodeOf n (.binary op left right) ts])
    (ih : ReprintsLegible context .expression [left])
    (ihr : ReprintsLegible context .expression [right]) :
    ReprintsLegible context .expression [nodeOf n (.binary op left right) ts] := by
  refine .of_core hcontext (by simp) rfl fun hlegible place _ => ?_
  have hfirst :=
    ih.child (by simp) trivial hlegible (by simp [Shape.children]) (Place.left op) trivial
  have hsecond :=
    ihr.child (by simp) trivial hlegible (by simp [Shape.children]) (Place.right op) trivial
  obtain ⟨hbelow, habove⟩ := hderives.fits_form
  refine (ReadsAs.binary hfirst hsecond hbelow habove).of_eq ?_
  show wording context.style (spell context (Place.left op) left ++
    .space :: .fixed op.kind :: .gap :: spell context (Place.right op) right) = _
  simp

/-! ## Fields -/

/-- A field with a key. A key that is written as a name is looked at as the name
(`keyName?_meaning`). Counterpart of `Derives.keyField`. -/
theorem reprints_keyField (ih : ReprintsLegible context .expression [key])
    (ihv : ReprintsLegible context .expression [value]) :
    ReprintsLegible context .field [nodeOf n (.keyField key value) ts] := by
  refine .of_core hcontext (by simp) rfl fun hlegible place _ => ?_
  have hkey := ih.child (by simp) trivial hlegible (by simp [Shape.children]) Place.field trivial
  have hvalue := ihv.child (by simp) trivial hlegible (by simp [Shape.children]) Place.field trivial
  simp only [core, coreSlots, Node.shape_mk, commented_eq hcontext]
  show ReadsAs .meaning .field _
    [.ofForm (Node.fieldShape .meaning (key.form Place.field) (value.form Place.field))]
  cases hname : keyName? key with
  | some name =>
    have hform : Node.fieldShape .meaning (key.form Place.field) (value.form Place.field) =
        .nameField (.ofForm (.identifier name)) (value.form Place.field) := by
      rw [Node.fieldShape, keyName?_meaning hname]
    rw [hform]
    exact (ReadsAs.nameField hvalue).of_eq (by simp)
  | none => exact (ReadsAs.keyField hkey hvalue).of_eq (by simp [wording_bracketSlots, mul_assoc])

/-- A field with a name. Counterpart of `Derives.nameField`. -/
theorem reprints_nameField (ih : ReprintsLegible context .expression [value]) :
    ReprintsLegible context .field [nodeOf m (.nameField (nameOf n t) value) ts] := by
  refine .of_core hcontext (by simp) rfl fun hlegible place _ => ?_
  have hvalue := ih.child (by simp) trivial hlegible (by simp [Shape.children]) Place.field trivial
  refine (ReadsAs.nameField hvalue).of_eq ?_
  show wording context.style (spell context {} (nameOf n t) ++
    .space :: .symbol .equal :: .space :: spell context Place.field value) = _
  simp [wording_spell_name hcontext]

/-- A field that is a value only. Counterpart of `Derives.valueField`. -/
theorem reprints_valueField (ih : ReprintsLegible context .expression [value]) :
    ReprintsLegible context .field [nodeOf n (.valueField value) ts] :=
  .of_core hcontext (by simp) rfl fun hlegible _ _ =>
    (ih.child (by simp) trivial hlegible (by simp [Shape.children]) _ trivial).valueField

end

end LuaFormatter
