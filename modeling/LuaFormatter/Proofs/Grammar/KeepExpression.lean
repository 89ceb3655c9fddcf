import LuaFormatter.Proofs.Grammar.Keep

/-!
# Reading expressions back

One lemma for each form of an expression, a list or a field: if its parts are read back as they are
kept, then so is the whole.
-/

namespace LuaFormatter

/-! ## Operands -/

section
variable {number n : Nat} {span : Span} {t : Token}

/-- A name is read back as it is, by each rule that reads names. Counterpart of
`Derives.identifier`, `Derives.lastName`, `Derives.lastParameter` and `Derives.nameStart`. -/
theorem keeps_name {rule : Rule}
    (hrule : ∀ stop n (t : Token), t.kind = .identifier →
      Derives true (rule.endingAt stop) n (n + 1) [t] [nameOf n t]) : Keeps rule [nameOf n t] := by
  refine .of_shape fun place _ stop first tokens h => ?_
  simp only [Node.shapeKept, Node.shapeWords, List.map_eq_cons_iff, List.map_eq_nil_iff] at h
  obtain ⟨t', _, rfl, ht', rfl⟩ := h
  exact ⟨_, _, hrule stop first t' (Token.kind_eq ht'), rfl, congrArg Shape.identifier (textOf_eq
    ht')⟩

/-- A literal is read back as it is. Counterpart of `Derives.literal`. -/
theorem keeps_literal {kind : LiteralKind} {text : String} :
    Keeps .expression [⟨number, .literal kind text, span, false⟩] := by
  refine .of_shape fun place _ stop first tokens h => ?_
  simp only [Node.shapeKept, Node.shapeWords, List.map_eq_cons_iff, List.map_eq_nil_iff] at h
  obtain ⟨t', _, rfl, ht', rfl⟩ := h
  have hliteral : Parser.literalKind? t'.kind = some kind := by
    rw [Token.kind_eq ht', LiteralKind.literalKind?_tokenKind]
  exact ⟨_, _, .literal hliteral, rfl, congrArg (Shape.literal kind) (textOf_eq ht')⟩

/-- Parentheses are read back if they are kept; and without them the node is read back as it is.
Counterpart of `Derives.parens`. -/
theorem keeps_parens {node : Node} (h : Keeps .expression [node]) :
    Keeps .expression [node.parenthesise] := by
  refine .of_one fun place _ stop first tokens htokens => ?_
  obtain ⟨number, shape, span, inParens⟩ := node
  cases inParens with
  | true => exact h (fun _ => place) (.inl rfl) stop first tokens htokens
  | false =>
    rw [Node.listWords_single] at htokens
    rw [Node.parenthesise, Node.kept] at htokens ⊢
    have hinner : ∀ {us : List Token} (first : Nat),
        us.map Token.content = Node.shapeWords (Node.shapeKept place shape) →
        ∃ next other, Derives true .expression first next us [other] ∧
          SameForm other ⟨number, Node.shapeKept place shape, span, false⟩ := by
      intro us first hus
      rw [← Node.words_open number _ span, ← Node.kept_open] at hus
      simpa only [Node.kept_open, Rule.endingAt] using h.one place (.inl rfl) stop first hus
    cases hkept : needsParens place (.mk number shape span true) with
    | false =>
      rw [hkept, Node.words_open] at htokens
      obtain ⟨next, other, hderives, hform⟩ := hinner first htokens
      exact ⟨next, [other], hderives, hform.single⟩
    | true =>
      rw [hkept, Node.words_parenthesised] at htokens
      simp only [List.map_eq_cons_iff, List.map_eq_append_iff, List.map_eq_nil_iff] at htokens
      obtain ⟨l, _, rfl, hl, us, _, rfl, hus, r, _, rfl, hr, rfl⟩ := htokens
      obtain ⟨next, other, hderives, hform⟩ := hinner first hus
      exact ⟨next, _, .parens (Token.kind_eq hl) (Token.kind_eq hr) hderives,
        hform.parenthesise.single⟩

/-- A table is read back if its fields are. Counterpart of `Derives.table`. -/
theorem keeps_table {fields : List Node} (hkeeps : Keeps .fields fields) :
    Keeps .expression [⟨number, .table fields, span, false⟩] := by
  refine .of_shape fun place _ stop first tokens h => ?_
  simp only [Node.shapeKept, Node.shapeWords, List.map_eq_cons_iff, List.map_eq_append_iff,
    List.map_eq_nil_iff] at h
  obtain ⟨l, _, rfl, hl, us, _, rfl, hus, r, _, rfl, hr, rfl⟩ := h
  obtain ⟨_, fields', hfields, hsame⟩ := hkeeps.list _ rfl 0 first hus
  exact ⟨_, _, .table (Token.kind_eq hl) (Token.kind_eq hr) hfields, rfl,
    congrArg Shape.table hsame⟩

/-- A function value is read back if its parameters and its body are. Counterpart of
`Derives.function`. -/
theorem keeps_function {parameters body : List Node} (hparameters : Keeps .parameters parameters)
    (hbody : Keeps .block body) :
    Keeps .expression [⟨number, .function false none parameters body, span, false⟩] := by
  refine .of_shape fun place _ stop first tokens h => ?_
  simp only [Node.shapeKept, Node.shapeWords, Node.optionKept, Node.optionWords, Bool.false_eq_true,
    if_false, List.nil_append, List.map_eq_cons_iff, List.map_eq_append_iff,
    List.map_eq_nil_iff] at h
  obtain ⟨f, _, rfl, hf, l, _, rfl, hl, ps, _, rfl, hps, r, _, rfl, hr, bs, _, rfl, hbs, e, _, rfl,
    he, rfl⟩ := h
  obtain ⟨_, parameters', hparameters', hsame⟩ := hparameters.list _ rfl 0 first hps
  obtain ⟨_, body', hbody', hsame'⟩ := hbody.list _ rfl 0 _ hbs
  exact ⟨_, _, .function (Token.kind_eq hf) (Token.kind_eq hl) (Token.kind_eq hr) (Token.kind_eq he)
    hparameters' hbody', rfl,
    congrArg₂ (Shape.function false none) hsame hsame'⟩

end

/-! ## Accesses and calls -/

section
variable {isApart : Bool} {a b number n : Nat} {ts : List Token} {span : Span} {t : Token}
  {base : Node}

/-- What is accessed or called is read back as something that may be. Counterpart of
`Derives.member` and `Derives.index`. -/
theorem Derives.keeps_base {tokens : List Token} {place : Place}
    (h : Derives isApart .expression a b ts [base]) (hbase : base.canBeBase = true)
    (hkeeps : Keeps .expression [base]) (hplace : place.isBase = true) (first : Nat)
    (htokens : tokens.map Token.content = (base.kept place).words) :
    ∃ next other, Derives true .expression first next tokens [other] ∧ other.canBeBase = true ∧
      SameForm other (base.kept place) := by
  obtain ⟨next, other, hderives, hform⟩ := hkeeps.one place (.inl rfl) 0 first htokens
  have hmethod := h.shape_ne_method rfl base (List.mem_singleton_self base)
  exact ⟨next, other, hderives, hform.canBeBase (Node.canBeBase_kept hbase hmethod hplace), hform⟩

/-- An access is read back if its base is, which is in a base position and so keeps the parentheses
it needs. Counterpart of `Derives.member`. -/
theorem keeps_member (hderives : Derives isApart .expression a b ts [base])
    (hbase : base.canBeBase = true) (hkeeps : Keeps .expression [base]) :
    Keeps .expression [⟨number, .member .dot base (nameOf n t), span, false⟩] := by
  refine .of_shape fun place _ stop first tokens h => ?_
  simp only [Node.shapeKept, Node.shapeWords, Node.kept_open, Node.words_open, Indexer.symbol,
    List.map_eq_cons_iff, List.map_eq_append_iff, List.map_eq_nil_iff] at h
  obtain ⟨us, _, rfl, hus, d, _, rfl, hd, t', _, rfl, ht', rfl⟩ := h
  obtain ⟨_, base', hbase', hcan, hsame⟩ := hderives.keeps_base hbase hkeeps rfl first hus
  exact ⟨_, _, .member (Token.kind_eq hd) (Token.kind_eq ht') hcan hbase', rfl,
    congrArg₂ (Shape.member .dot) hsame (sameForm_name _ _ ht')⟩

/-- An indexing is read back if its base and its key are. Counterpart of `Derives.index`. -/
theorem keeps_index {key : Node} (hderives : Derives isApart .expression a b ts [base])
    (hbase : base.canBeBase = true) (hkeeps : Keeps .expression [base])
    (hkey : Keeps .expression [key]) :
    Keeps .expression [⟨number, .index base key, span, false⟩] := by
  refine .of_shape fun place _ stop first tokens h => ?_
  simp only [Node.shapeKept, Node.shapeWords, List.map_eq_cons_iff, List.map_eq_append_iff,
    List.map_eq_nil_iff] at h
  obtain ⟨us, _, rfl, hus, l, _, rfl, hl, ks, _, rfl, hks, r, _, rfl, hr, rfl⟩ := h
  obtain ⟨_, base', hbase', hcan, hsame⟩ := hderives.keeps_base hbase hkeeps rfl first hus
  obtain ⟨_, key', hkey', hsame'⟩ := hkey.one {} (.inl rfl) 0 _ hks
  exact ⟨_, _, .index (Token.kind_eq hl) (Token.kind_eq hr) hcan hbase' hkey', rfl,
    congrArg₂ Shape.index hsame hsame'⟩

/-- What is called is read back if it is read back as an expression. Counterpart of
`Derives.plain`. -/
theorem keeps_plain (hderives : Derives isApart .expression a b ts [base])
    (hbase : base.canBeBase = true) (hkeeps : Keeps .expression [base]) : Keeps .callee [base] := by
  refine .of_one fun place hplace stop first tokens htokens => ?_
  rw [Node.listWords_single] at htokens
  have hisBase : place.isBase = true := hplace.resolve_left (by decide)
  obtain ⟨next, base', hbase', hcan, hsame⟩ :=
    hderives.keeps_base hbase hkeeps hisBase first htokens
  exact ⟨next, _, .plain hcan hbase', hsame.single⟩

/-- The name of a method is read back after its base. Counterpart of `Derives.method`. -/
theorem keeps_method (hderives : Derives isApart .expression a b ts [base])
    (hbase : base.canBeBase = true) (hkeeps : Keeps .expression [base]) :
    Keeps .callee [⟨number, .member .colon base (nameOf n t), span, false⟩] := by
  refine .of_shape fun place _ stop first tokens h => ?_
  simp only [Node.shapeKept, Node.shapeWords, Node.kept_open, Node.words_open, Indexer.symbol,
    List.map_eq_cons_iff, List.map_eq_append_iff, List.map_eq_nil_iff] at h
  obtain ⟨us, _, rfl, hus, d, _, rfl, hd, t', _, rfl, ht', rfl⟩ := h
  obtain ⟨_, base', hbase', hcan, hsame⟩ := hderives.keeps_base hbase hkeeps rfl first hus
  exact ⟨_, _, .method (Token.kind_eq hd) (Token.kind_eq ht') hcan hbase', rfl,
    congrArg₂ (Shape.member .colon) hsame (sameForm_name _ _ ht')⟩

/-- A call is read back if what is called and its arguments are. Counterpart of `Derives.call`. -/
theorem keeps_call {arguments : List Node} (hcallee : Keeps .callee [base])
    (harguments : Keeps .arguments arguments) :
    Keeps .expression [⟨number, .call base arguments, span, false⟩] := by
  refine .of_shape fun place _ stop first tokens h => ?_
  simp only [Node.shapeKept, Node.shapeWords, List.map_eq_cons_iff, List.map_eq_append_iff,
    List.map_eq_nil_iff] at h
  obtain ⟨us, _, rfl, hus, l, _, rfl, hl, vs, _, rfl, hvs, r, _, rfl, hr, rfl⟩ := h
  obtain ⟨_, base', hbase, hsame⟩ := hcallee.one Place.base (.inr rfl) 0 first hus
  obtain ⟨_, arguments', harguments', hsame'⟩ := harguments.list _ rfl 0 _ hvs
  exact ⟨_, _, .call (Token.kind_eq hl) (Token.kind_eq hr) hbase harguments', rfl,
    congrArg₂ Shape.call hsame hsame'⟩

/-- A call with a table is read back if what is called and the fields are. Counterpart of
`Derives.tableCall`. -/
theorem keeps_tableCall {fields : List Node} {inner : Span} (hcallee : Keeps .callee [base])
    (hfields : Keeps .fields fields) :
    Keeps .expression [⟨number, .tableCall base ⟨n, .table fields, inner, false⟩, span,
        false⟩] := by
  refine .of_shape fun place _ stop first tokens h => ?_
  simp only [Node.shapeKept, Node.shapeWords, Node.kept_open, Node.words_open, List.map_eq_cons_iff,
    List.map_eq_append_iff, List.map_eq_nil_iff] at h
  obtain ⟨us, _, rfl, hus, l, _, rfl, hl, vs, _, rfl, hvs, r, _, rfl, hr, rfl⟩ := h
  obtain ⟨_, base', hbase, hsame⟩ := hcallee.one Place.base (.inr rfl) 0 first hus
  obtain ⟨_, fields', hfields', hsame'⟩ := hfields.list _ rfl 0 _ hvs
  have htable : SameShape (.table fields')
      (.table (Node.listKept (Place.argument fields.length) fields)) := congrArg Shape.table hsame'
  exact ⟨_, _, .tableCall (Token.kind_eq hl) (Token.kind_eq hr) hbase hfields', rfl,
    congrArg₂ Shape.tableCall hsame (htable.sameForm ..)⟩

/-- A literal that starts arguments is a string, so the token its text is read as starts them too.
Counterpart of `Parser.startsArguments`. -/
theorem startsArguments_of_literal {kind : LiteralKind} {t : Token} {text : String}
    (hkind : Parser.literalKind? t.kind = some kind)
    (hstarts : Parser.startsArguments t.kind = true) :
    Parser.startsArguments (kind.tokenKind text) = true := by
  cases hcase : t.kind with
  | string | longString =>
    rw [hcase] at hkind
    cases hkind
    rfl
  | symbol mark =>
    rw [hcase] at hkind hstarts
    cases mark <;> first | (cases hkind; done) | cases hstarts
  | _ =>
    rw [hcase] at hstarts
    cases hstarts

/-- A call with a string is read back if what is called is. Counterpart of `Derives.stringCall`. -/
theorem keeps_stringCall {kind : LiteralKind} {text : String} {inner : Span}
    (hkind : Parser.literalKind? t.kind = some kind)
    (hstarts : Parser.startsArguments t.kind = true) (hcallee : Keeps .callee [base]) :
    Keeps .expression
      [⟨number, .stringCall base ⟨n, .literal kind text, inner, false⟩, span, false⟩] := by
  refine .of_shape fun place _ stop first tokens h => ?_
  simp only [Node.shapeKept, Node.shapeWords, Node.kept_open, Node.words_open, List.map_eq_cons_iff,
    List.map_eq_append_iff, List.map_eq_nil_iff] at h
  obtain ⟨us, _, rfl, hus, t', _, rfl, ht', rfl⟩ := h
  obtain ⟨_, base', hbase, hsame⟩ := hcallee.one Place.base (.inr rfl) 0 first hus
  have hliteral : Parser.literalKind? t'.kind = some kind := by
    rw [Token.kind_eq ht', LiteralKind.literalKind?_tokenKind]
  have hstarts' : Parser.startsArguments t'.kind = true := by
    rw [Token.kind_eq ht']
    exact startsArguments_of_literal hkind hstarts
  have hstring : SameShape (.literal kind (Parser.textOf t')) (.literal kind text) :=
    congrArg (Shape.literal kind) (textOf_eq ht')
  exact ⟨_, _, .stringCall hliteral hstarts' hbase, rfl,
    congrArg₂ Shape.stringCall hsame (hstring.sameForm ..)⟩

end

/-! ## Operations -/

section
variable {number : Nat} {span : Span}

/-- An operator before an operand is read back with its operand, since the tree is well
parenthesised. Counterpart of `Derives.unary`. -/
theorem keeps_unary {op : UnaryOp} {operand : Node}
    (hwell : Node.WellParenthesised ⟨number, .unary op operand, span, false⟩)
    (hoperand : Keeps .expression [operand]) :
    Keeps .expression [⟨number, .unary op operand, span, false⟩] := by
  refine .of_shape fun place _ stop first tokens h => ?_
  simp only [Node.shapeKept, Node.shapeWords, List.map_eq_cons_iff] at h
  obtain ⟨t', us, rfl, ht', hus⟩ := h
  obtain ⟨_, operand', hoperand', hsame⟩ := hoperand.one {} (.inl rfl) 0 first hus
  have hop : UnaryOp.ofKind? t'.kind = some op := by
    rw [Token.kind_eq ht']
    exact op.ofKind?_kind
  have habove : (operand.kept {}).Above UnaryOp.priority := by
    refine (hwell.2.kept {}).above fun inner hinner => ?_
    rw [Node.openBinary?_kept] at hinner
    rw [hwell.1 inner hinner]
    decide
  exact ⟨_, _, .unary hop (hsame.above habove) hoperand', rfl, congrArg (Shape.unary op) hsame⟩

/-- An operation is read back with its operands, since the tree is well parenthesised. Counterpart
of `Derives.binary`. -/
theorem keeps_binary {op : BinaryOp} {left right : Node}
    (hwell : Node.WellParenthesised ⟨number, .binary op left right, span, false⟩)
    (hleft : Keeps .expression [left]) (hright : Keeps .expression [right]) :
    Keeps .expression [⟨number, .binary op left right, span, false⟩] := by
  refine .of_shape fun place _ stop first tokens h => ?_
  simp only [Node.shapeKept, Node.shapeWords, List.map_eq_cons_iff, List.map_eq_append_iff] at h
  obtain ⟨us, _, rfl, hus, t', vs, rfl, ht', hvs⟩ := h
  obtain ⟨_, left', hleft', hsame⟩ := hleft.one (Place.left op) (.inl rfl) 0 first hus
  obtain ⟨_, right', hright', hsame'⟩ := hright.one (Place.right op) (.inl rfl) 0 _ hvs
  have hop : BinaryOp.ofKind? t'.kind = some op := by
    rw [Token.kind_eq ht']
    exact op.ofKind?_kind
  obtain ⟨hoperators, hoperators', hunary, hwellLeft, hwellRight⟩ := hwell.kept {}
  have hbelow : (left.kept (Place.left op)).Below op.leftPriority :=
    hwellLeft.below hoperators fun hopen => BinaryOp.ne_power_iff.1 (hunary hopen)
  have habove : (right.kept (Place.right op)).Above op.rightPriority := hwellRight.above hoperators'
  exact ⟨_, _, .binary hop (hsame.below hbelow) (hsame'.above habove) hleft' hright', rfl,
    congrArg₂ (Shape.binary op) hsame hsame'⟩

end

/-! ## Lists -/

section
variable {rule one : Rule} {n : Nat} {t : Token} {node : Node} {nodes : List Node}

/-- What a rule reads as a single node is kept by a rule that reads it too. Counterpart of
`Derives.lastExpression` and the other rules for single nodes. -/
theorem Keeps.imp (h : Keeps one [node]) (hone : one.isCallee = false)
    (hrule : ∀ {stop a b : Nat} {ts : List Token} {other : Node},
      Derives true (one.endingAt stop) a b ts [other] →
        Derives true (rule.endingAt stop) a b ts [other]) : Keeps rule [node] := by
  refine .of_one fun place _ stop first tokens htokens => ?_
  rw [Node.listWords_single] at htokens
  obtain ⟨next, other, hother, hsame⟩ := h.one place (.inl hone) stop first htokens
  exact ⟨next, _, hrule hother, hsame.single⟩

/-- A node, a comma and more nodes. Counterpart of `Derives.moreExpressions`. -/
theorem Keeps.cons (hseparator : rule.separator = [Symbol.comma.word])
    (hcallee : rule.isCallee = false) (hone : one.isCallee = false) (hne : nodes ≠ [])
    (hrule : ∀ {stop a b c : Nat} {comma : Token} {ts us : List Token} {other : Node}
      {others : List Node}, comma.kind = .symbol .comma →
        Derives true (one.endingAt stop) a b ts [other] →
        Derives true (rule.endingAt stop) b c us others →
        Derives true (rule.endingAt stop) a c (ts ++ comma :: us) (other :: others))
    (hnode : Keeps one [node]) (hnodes : Keeps rule nodes) : Keeps rule (node :: nodes) := by
  intro place _ stop first tokens h
  rw [Node.listKept, Node.listWords_cons _ _ (Node.listKept_ne_nil hne), hseparator] at h
  simp only [List.singleton_append, List.map_eq_cons_iff, List.map_eq_append_iff] at h
  obtain ⟨us, _, rfl, hus, comma, vs, rfl, hcomma, hvs⟩ := h
  rw [← hseparator] at hvs
  obtain ⟨_, other, hother, hsame⟩ := hnode.one (place 0) (.inl hone) stop first hus
  obtain ⟨_, others, hothers, hsame'⟩ := hnodes.list _ hcallee stop _ hvs
  exact ⟨_, _, hrule (Token.kind_eq hcomma) hother hothers, hsame.cons hsame'⟩

/-- Nothing is read back as nothing. Counterpart of `Derives.noArguments` and the other rules that
read nothing. -/
theorem Keeps.nil (hrule : ∀ stop n, Derives true (rule.endingAt stop) n n [] []) :
    Keeps rule [] := by
  intro place _ stop first tokens h
  obtain rfl := List.map_eq_nil_iff.1 h
  exact ⟨_, _, hrule stop first, rfl⟩

/-- Some arguments are read back if they are as expressions. Counterpart of
`Derives.someArguments`. -/
theorem keeps_someArguments (h : Keeps .expressions nodes) : Keeps .arguments nodes := by
  intro place _ stop first tokens htokens
  obtain ⟨_, others, hothers, hsame⟩ := h.list place rfl 0 first htokens
  exact ⟨_, _, .someArguments hothers, hsame⟩

/-- A name, a comma and more nodes. Counterpart of `Derives.moreNames` and
`Derives.moreParameters`. -/
theorem Keeps.cons_name (hseparator : rule.separator = [Symbol.comma.word])
    (hcallee : rule.isCallee = false) (hne : nodes ≠ [])
    (hrule : ∀ {stop a b : Nat} {t comma : Token} {us : List Token} {others : List Node},
      t.kind = .identifier → comma.kind = .symbol .comma → others ≠ [] →
        Derives true (rule.endingAt stop) (a + 1) b us others →
        Derives true (rule.endingAt stop) a b (t :: comma :: us) (nameOf a t :: others))
    (hnodes : Keeps rule nodes) : Keeps rule (nameOf n t :: nodes) := by
  intro place _ stop first tokens htokens
  rw [Node.listKept, Node.listWords_cons _ _ (Node.listKept_ne_nil hne), Node.kept_open,
    Node.words_open, hseparator] at htokens
  simp only [Node.shapeKept, Node.shapeWords, List.singleton_append,
    List.map_eq_cons_iff] at htokens
  obtain ⟨t', _, rfl, ht', comma, us, rfl, hcomma, hus⟩ := htokens
  rw [← hseparator] at hus
  obtain ⟨_, others, hothers, hsame⟩ := hnodes.list _ hcallee stop _ hus
  have hothersNe : others ≠ [] := hsame.ne_nil (Node.listKept_ne_nil hne)
  exact ⟨_, _, hrule (Token.kind_eq ht') (Token.kind_eq hcomma) hothersNe hothers,
    (sameForm_name _ _ ht').cons hsame⟩

/-- The mark for more parameters is read back as it is. Counterpart of `Derives.varargs`. -/
theorem keeps_varargs {number : Nat} {text : String} {span : Span} :
    Keeps .parameters [⟨number, .literal .vararg text, span, false⟩] := by
  refine .of_shape fun place _ stop first tokens h => ?_
  simp only [Node.shapeKept, Node.shapeWords, List.map_eq_cons_iff, List.map_eq_nil_iff] at h
  obtain ⟨t', _, rfl, ht', rfl⟩ := h
  exact ⟨_, _, .varargs (Token.kind_eq ht'), rfl, congrArg (Shape.literal .vararg) (textOf_eq ht')⟩

end

/-! ## Fields -/

section
variable {number n : Nat} {t : Token} {span : Span} {value field : Node} {fields : List Node}

/-- A field with a computed key is read back if its key and its value are. Counterpart of
`Derives.keyField`. -/
theorem keeps_keyField {key : Node} (hkey : Keeps .expression [key])
    (hvalue : Keeps .expression [value]) :
    Keeps .field [⟨number, .keyField key value, span, false⟩] := by
  refine .of_shape fun place _ stop first tokens h => ?_
  simp only [Node.shapeKept, Node.shapeWords, List.map_eq_cons_iff, List.map_eq_append_iff] at h
  obtain ⟨l, _, rfl, hl, ks, _, rfl, hks, r, _, rfl, hr, e, vs, rfl, he, hvs⟩ := h
  obtain ⟨_, key', hkey', hsame⟩ := hkey.one Place.field (.inl rfl) 0 first hks
  obtain ⟨_, value', hvalue', hsame'⟩ := hvalue.one Place.field (.inl rfl) 0 _ hvs
  exact ⟨_, _, .keyField (Token.kind_eq hl) (Token.kind_eq hr) (Token.kind_eq he) hkey' hvalue',
    rfl,
    congrArg₂ Shape.keyField hsame hsame'⟩

/-- A field with a name is read back if its value is. Counterpart of `Derives.nameField`. -/
theorem keeps_nameField (hvalue : Keeps .expression [value]) :
    Keeps .field [⟨number, .nameField (nameOf n t) value, span, false⟩] := by
  refine .of_shape fun place _ stop first tokens h => ?_
  simp only [Node.shapeKept, Node.shapeWords, Node.kept_open, Node.words_open,
    List.singleton_append, List.map_eq_cons_iff] at h
  obtain ⟨t', _, rfl, ht', e, vs, rfl, he, hvs⟩ := h
  obtain ⟨_, value', hvalue', hsame⟩ := hvalue.one Place.field (.inl rfl) 0 _ hvs
  exact ⟨_, _, .nameField (Token.kind_eq ht') (Token.kind_eq he) hvalue', rfl,
    congrArg₂ Shape.nameField (sameForm_name _ _ ht') hsame⟩

/-- A field without a key is read back if its value is. Counterpart of `Derives.valueField`. -/
theorem keeps_valueField (hvalue : Keeps .expression [value]) :
    Keeps .field [⟨number, .valueField value, span, false⟩] := by
  refine .of_shape fun place _ stop first tokens h => ?_
  obtain ⟨_, value', hvalue', hsame⟩ := hvalue.one _ (.inl rfl) 0 first h
  exact ⟨_, _, .valueField hvalue', rfl, congrArg Shape.valueField hsame⟩

/-- Fields are read back if the first one and the others are. Counterpart of
`Derives.moreFields`. -/
theorem keeps_moreFields (hfield : Keeps .field [field]) (hfields : Keeps .fields fields) :
    Keeps .fields (field :: fields) := by
  cases fields with
  | nil => exact hfield.imp rfl .lastField
  | cons next rest =>
    exact .cons rfl rfl rfl (List.cons_ne_nil next rest) (fun hcomma => .moreFields (.inl hcomma))
      hfield hfields

end

end LuaFormatter
