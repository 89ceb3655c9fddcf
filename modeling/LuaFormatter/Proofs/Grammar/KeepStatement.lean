import LuaFormatter.Proofs.Grammar.KeepExpression

/-!
# Reading statements back

The lemmas for statements, blocks and branches, and the induction over all rules: whatever was read
is read back as it is kept (`Derives.keeps`).
-/

namespace LuaFormatter

/-! ## Names of functions -/

section
variable {number n : Nat} {span : Span} {t : Token} {base : Node}

/-- A name of a function with a dot is read back. Counterpart of `Derives.nameMember`. -/
theorem keeps_nameMember (hbase : Keeps .dotted [base]) :
    Keeps .dotted [⟨number, .member .dot base (nameOf n t), span, false⟩] := by
  refine .of_shape fun place _ stop first tokens h => ?_
  simp only [Node.shapeKept, Node.shapeWords, Node.kept_open, Node.words_open, Indexer.symbol,
    List.map_eq_cons_iff, List.map_eq_append_iff, List.map_eq_nil_iff] at h
  obtain ⟨us, _, rfl, hus, d, _, rfl, hd, t', _, rfl, ht', rfl⟩ := h
  obtain ⟨_, base', hbase', hsame⟩ := hbase.one Place.base (.inl rfl) 0 first hus
  exact ⟨_, _, .nameMember (Token.kind_eq hd) (Token.kind_eq ht') hbase', rfl,
    congrArg₂ (Shape.member .dot) hsame (sameForm_name _ _ ht')⟩

/-- A name of a method is read back. Counterpart of `Derives.nameMethod`. -/
theorem keeps_nameMethod (hbase : Keeps .dotted [base]) :
    Keeps .name [⟨number, .member .colon base (nameOf n t), span, false⟩] := by
  refine .of_shape fun place _ stop first tokens h => ?_
  simp only [Node.shapeKept, Node.shapeWords, Node.kept_open, Node.words_open, Indexer.symbol,
    List.map_eq_cons_iff, List.map_eq_append_iff, List.map_eq_nil_iff] at h
  obtain ⟨us, _, rfl, hus, d, _, rfl, hd, t', _, rfl, ht', rfl⟩ := h
  obtain ⟨_, base', hbase', hsame⟩ := hbase.one Place.base (.inl rfl) 0 first hus
  exact ⟨_, _, .nameMethod (Token.kind_eq hd) (Token.kind_eq ht') hbase', rfl,
    congrArg₂ (Shape.member .colon) hsame (sameForm_name _ _ ht')⟩

end

/-! ## Statements -/

section
variable {number n : Nat} {span : Span} {t : Token} {names values parameters body : List Node}
  {condition : Node}

/-- Local variables without values are read back. Counterpart of `Derives.declaration`. -/
theorem keeps_declaration (hnames : Keeps .names names) :
    Keeps .statement [⟨number, .localVariables names [], span, false⟩] := by
  refine .of_shape fun place _ stop first tokens h => ?_
  simp only [Node.shapeKept, Node.shapeWords, Node.listKept, List.isEmpty_nil, if_true,
    List.append_nil, List.map_eq_cons_iff] at h
  obtain ⟨k, us, rfl, hk, hus⟩ := h
  obtain ⟨_, names', hnames', hsame⟩ := hnames.list _ rfl 0 first hus
  exact ⟨_, _, .declaration (Token.kind_eq hk) hnames', rfl,
    congrArg (Shape.localVariables · []) hsame⟩

/-- Local variables with values are read back if the values are. Counterpart of
`Derives.definition`. -/
theorem keeps_definition (hne : values ≠ []) (hnames : Keeps .names names)
    (hvalues : Keeps .expressions values) :
    Keeps .statement [⟨number, .localVariables names values, span, false⟩] := by
  refine .of_shape fun place _ stop first tokens h => ?_
  simp only [Node.shapeKept, Node.shapeWords, Node.isEmpty_listKept,
    List.isEmpty_eq_false_iff.2 hne, Bool.false_eq_true, if_false, List.map_eq_cons_iff,
    List.map_eq_append_iff] at h
  obtain ⟨k, _, rfl, hk, us, _, rfl, hus, e, vs, rfl, he, hvs⟩ := h
  obtain ⟨_, names', hnames', hsame⟩ := hnames.list _ rfl 0 first hus
  obtain ⟨_, values', hvalues', hsame'⟩ := hvalues.list _ rfl 0 _ hvs
  exact ⟨_, _, .definition (Token.kind_eq hk) (Token.kind_eq he) hnames' hvalues', rfl,
    congrArg₂ Shape.localVariables hsame hsame'⟩

/-- A local function is read back if its parameters and its body are. Counterpart of
`Derives.localFunction`. -/
theorem keeps_localFunction (hparameters : Keeps .parameters parameters)
    (hbody : Keeps .block body) :
    Keeps .statement [⟨number, .function true (some (nameOf n t)) parameters body, span,
        false⟩] := by
  refine .of_shape fun place _ stop first tokens h => ?_
  simp only [Node.shapeKept, Node.shapeWords, Node.optionKept, Node.optionWords, Node.kept_open,
    Node.words_open, if_true, List.cons_append, List.nil_append, List.append_nil,
    List.map_eq_cons_iff, List.map_eq_append_iff, List.map_eq_nil_iff] at h
  obtain ⟨k, _, rfl, hk, f, _, rfl, hf, t', _, rfl, ht', l, _, rfl, hl, ps, _, rfl, hps, r, _, rfl,
    hr, bs, _, rfl, hbs, e, _, rfl, he, rfl⟩ := h
  obtain ⟨_, parameters', hparameters', hsame⟩ := hparameters.list _ rfl 0 _ hps
  obtain ⟨_, body', hbody', hsame'⟩ := hbody.list _ rfl 0 _ hbs
  exact ⟨_, _, .localFunction (Token.kind_eq hk) (Token.kind_eq hf) (Token.kind_eq ht')
    (Token.kind_eq hl) (Token.kind_eq hr) (Token.kind_eq he) hparameters' hbody', rfl,
    sameShape_function (sameForm_name _ _ ht').some hsame hsame'⟩

/-- A function with a name is read back if its name, its parameters and its body are. Counterpart of
`Derives.globalFunction`. -/
theorem keeps_globalFunction {name : Node} (hname : Keeps .name [name])
    (hparameters : Keeps .parameters parameters) (hbody : Keeps .block body) :
    Keeps .statement [⟨number, .function false (some name) parameters body, span, false⟩] := by
  refine .of_shape fun place _ stop first tokens h => ?_
  simp only [Node.shapeKept, Node.shapeWords, Node.optionKept, Node.optionWords, Bool.false_eq_true,
    if_false, List.nil_append, List.append_nil, List.map_eq_cons_iff, List.map_eq_append_iff,
    List.map_eq_nil_iff] at h
  obtain ⟨f, _, rfl, hf, ns, _, rfl, hns, l, _, rfl, hl, ps, _, rfl, hps, r, _, rfl, hr, bs, _, rfl,
    hbs, e, _, rfl, he, rfl⟩ := h
  obtain ⟨_, name', hname', hsame⟩ := hname.one {} (.inl rfl) 0 first hns
  obtain ⟨_, parameters', hparameters', hsame'⟩ := hparameters.list _ rfl 0 _ hps
  obtain ⟨_, body', hbody', hsame''⟩ := hbody.list _ rfl 0 _ hbs
  exact ⟨_, _, .globalFunction (Token.kind_eq hf) (Token.kind_eq hl) (Token.kind_eq hr)
    (Token.kind_eq he) hname' hparameters' hbody', rfl,
    sameShape_function hsame.some hsame' hsame''⟩

/-- An assignment is read back, as its targets are targets still. Counterpart of
`Derives.assignment`. -/
theorem keeps_assignment {targets : List Node}
    (hread : ∀ target ∈ targets, target.shape.isInvalid = false)
    (hall : ∀ target ∈ targets, target.canBeBase = true ∧ Parser.isTarget target = true)
    (htargets : Keeps .expressions targets) (hvalues : Keeps .expressions values) :
    Keeps .statement [⟨number, .assignment targets values, span, false⟩] := by
  refine .of_shape fun place _ stop first tokens h => ?_
  simp only [Node.shapeKept, Node.shapeWords, List.map_eq_cons_iff, List.map_eq_append_iff] at h
  obtain ⟨us, _, rfl, hus, e, vs, rfl, he, hvs⟩ := h
  obtain ⟨_, targets', htargets', hsame⟩ := htargets.list _ rfl 0 first hus
  obtain ⟨_, values', hvalues', hsame'⟩ := hvalues.list _ rfl 0 _ hvs
  have hall' : ∀ target ∈ targets', target.canBeBase = true ∧ Parser.isTarget target = true :=
    hsame.forall_mem (fun hform h => ⟨hform.canBeBase h.1, hform.isTarget h.2⟩)
      (Node.targets_listKept _ hread hall)
  exact ⟨_, _, .assignment (Token.kind_eq he) hall' htargets' hvalues', rfl,
    congrArg₂ Shape.assignment hsame hsame'⟩

/-- A call that stands as a statement is read back, as it is a call still. Counterpart of
`Derives.callStatement`. -/
theorem keeps_callStatement {call : Node} (hcall : call.shape.isCall = true)
    (h : Keeps .expression [call]) :
    Keeps .statement [⟨number, .callStatement call, span, false⟩] := by
  refine .of_shape fun place _ stop first tokens htokens => ?_
  obtain ⟨_, call', hcall', hsame⟩ := h.one {} (.inl rfl) 0 first htokens
  have hshape : call'.shape.isCall = true := by
    rw [hsame.isCall_eq, Node.shape_kept, Node.isCall_shapeKept, hcall]
  exact ⟨_, _, .callStatement hshape hcall', rfl, congrArg Shape.callStatement hsame⟩

/-- A `while` loop is read back if its condition and its body are. Counterpart of
`Derives.whileLoop`. -/
theorem keeps_whileLoop (hcondition : Keeps .expression [condition]) (hbody : Keeps .block body) :
    Keeps .statement [⟨number, .whileLoop condition body, span, false⟩] := by
  refine .of_shape fun place _ stop first tokens h => ?_
  simp only [Node.shapeKept, Node.shapeWords, List.map_eq_cons_iff, List.map_eq_append_iff,
    List.map_eq_nil_iff] at h
  obtain ⟨k, _, rfl, hk, us, _, rfl, hus, d, _, rfl, hd, bs, _, rfl, hbs, e, _, rfl, he, rfl⟩ := h
  obtain ⟨_, condition', hcondition', hsame⟩ := hcondition.one {} (.inl rfl) 0 first hus
  obtain ⟨_, body', hbody', hsame'⟩ := hbody.list _ rfl 0 _ hbs
  exact ⟨_, _, .whileLoop (Token.kind_eq hk) (Token.kind_eq hd) (Token.kind_eq he) hcondition'
    hbody', rfl,
    congrArg₂ Shape.whileLoop hsame hsame'⟩

/-- A block is read back if its body is. Counterpart of `Derives.doBlock`. -/
theorem keeps_doBlock (hbody : Keeps .block body) :
    Keeps .statement [⟨number, .doBlock body, span, false⟩] := by
  refine .of_shape fun place _ stop first tokens h => ?_
  simp only [Node.shapeKept, Node.shapeWords, List.map_eq_cons_iff, List.map_eq_append_iff,
    List.map_eq_nil_iff] at h
  obtain ⟨k, _, rfl, hk, bs, _, rfl, hbs, e, _, rfl, he, rfl⟩ := h
  obtain ⟨_, body', hbody', hsame⟩ := hbody.list _ rfl 0 first hbs
  exact ⟨_, _, .doBlock (Token.kind_eq hk) (Token.kind_eq he) hbody', rfl,
    congrArg Shape.doBlock hsame⟩

/-- A `repeat` loop is read back if its body and its condition are. Counterpart of
`Derives.repeatLoop`. -/
theorem keeps_repeatLoop (hbody : Keeps .block body) (hcondition : Keeps .expression [condition]) :
    Keeps .statement [⟨number, .repeatLoop body condition, span, false⟩] := by
  refine .of_shape fun place _ stop first tokens h => ?_
  simp only [Node.shapeKept, Node.shapeWords, List.map_eq_cons_iff, List.map_eq_append_iff] at h
  obtain ⟨k, _, rfl, hk, bs, _, rfl, hbs, u, us, rfl, hu, hus⟩ := h
  obtain ⟨_, body', hbody', hsame⟩ := hbody.list _ rfl 0 first hbs
  obtain ⟨_, condition', hcondition', hsame'⟩ := hcondition.one {} (.inl rfl) 0 _ hus
  exact ⟨_, _, .repeatLoop (Token.kind_eq hk) (Token.kind_eq hu) hbody' hcondition', rfl,
    congrArg₂ Shape.repeatLoop hsame hsame'⟩

/-- A loop over numbers is read back if its bounds and its body are. Counterpart of
`Derives.numericFor`. -/
theorem keeps_numericFor {first last : Node} (hfirst : Keeps .expression [first])
    (hlast : Keeps .expression [last]) (hbody : Keeps .block body) :
    Keeps .statement [⟨number, .numericFor (nameOf n t) first last none body, span, false⟩] := by
  refine .of_shape fun place _ stop first tokens h => ?_
  simp only [Node.shapeKept, Node.shapeWords, Node.optionKept, Node.optionWords, Node.kept_open,
    Node.words_open, List.cons_append, List.nil_append, List.map_eq_cons_iff,
    List.map_eq_append_iff, List.map_eq_nil_iff] at h
  obtain ⟨k, _, rfl, hk, t', _, rfl, ht', e, _, rfl, he, us, _, rfl, hus, m, _, rfl, hm, vs, _, rfl,
    hvs, o, _, rfl, ho, bs, _, rfl, hbs, f, _, rfl, hf, rfl⟩ := h
  obtain ⟨_, first', hfirst', hsame⟩ := hfirst.one {} (.inl rfl) 0 _ hus
  obtain ⟨_, last', hlast', hsame'⟩ := hlast.one {} (.inl rfl) 0 _ hvs
  obtain ⟨_, body', hbody', hsame''⟩ := hbody.list _ rfl 0 _ hbs
  exact ⟨_, _, .numericFor (Token.kind_eq hk) (Token.kind_eq ht') (Token.kind_eq he)
    (Token.kind_eq hm) (Token.kind_eq ho) (Token.kind_eq hf) hfirst' hlast' hbody', rfl,
    sameShape_numericFor (sameForm_name _ _ ht') hsame hsame' rfl hsame''⟩

/-- A loop over numbers with a step is read back if its bounds, its step and its body are.
Counterpart of `Derives.steppedFor`. -/
theorem keeps_steppedFor {first last step : Node} (hfirst : Keeps .expression [first])
    (hlast : Keeps .expression [last]) (hstep : Keeps .expression [step])
    (hbody : Keeps .block body) :
    Keeps .statement [⟨number, .numericFor (nameOf n t) first last (some step) body, span,
        false⟩] := by
  refine .of_shape fun place _ stop first tokens h => ?_
  simp only [Node.shapeKept, Node.shapeWords, Node.optionKept, Node.optionWords, Node.kept_open,
    Node.words_open, List.cons_append, List.nil_append, List.append_nil, List.map_eq_cons_iff,
    List.map_eq_append_iff, List.map_eq_nil_iff] at h
  obtain ⟨k, _, rfl, hk, t', _, rfl, ht', e, _, rfl, he, us, _, rfl, hus, m, _, rfl, hm, vs, _, rfl,
    hvs, p, _, rfl, hp, ws, _, rfl, hws, o, _, rfl, ho, bs, _, rfl, hbs, f, _, rfl, hf, rfl⟩ := h
  obtain ⟨_, first', hfirst', hsame⟩ := hfirst.one {} (.inl rfl) 0 _ hus
  obtain ⟨_, last', hlast', hsame'⟩ := hlast.one {} (.inl rfl) 0 _ hvs
  obtain ⟨_, step', hstep', hsame''⟩ := hstep.one {} (.inl rfl) 0 _ hws
  obtain ⟨_, body', hbody', hforms⟩ := hbody.list _ rfl 0 _ hbs
  exact ⟨_, _, .steppedFor (Token.kind_eq hk) (Token.kind_eq ht') (Token.kind_eq he)
    (Token.kind_eq hm) (Token.kind_eq hp) (Token.kind_eq ho) (Token.kind_eq hf) hfirst' hlast'
    hstep' hbody', rfl,
    sameShape_numericFor (sameForm_name _ _ ht') hsame hsame' hsame''.some hforms⟩

/-- A loop over iterators is read back if its names, its values and its body are. Counterpart of
`Derives.genericFor`. -/
theorem keeps_genericFor (hnames : Keeps .names names) (hvalues : Keeps .expressions values)
    (hbody : Keeps .block body) :
    Keeps .statement [⟨number, .genericFor names values body, span, false⟩] := by
  refine .of_shape fun place _ stop first tokens h => ?_
  simp only [Node.shapeKept, Node.shapeWords, List.map_eq_cons_iff, List.map_eq_append_iff,
    List.map_eq_nil_iff] at h
  obtain ⟨k, _, rfl, hk, us, _, rfl, hus, i, _, rfl, hi, vs, _, rfl, hvs, o, _, rfl, ho, bs, _, rfl,
    hbs, f, _, rfl, hf, rfl⟩ := h
  obtain ⟨_, names', hnames', hsame⟩ := hnames.list _ rfl 0 first hus
  obtain ⟨_, values', hvalues', hsame'⟩ := hvalues.list _ rfl 0 _ hvs
  obtain ⟨_, body', hbody', hsame''⟩ := hbody.list _ rfl 0 _ hbs
  exact ⟨_, _, .genericFor (Token.kind_eq hk) (Token.kind_eq hi) (Token.kind_eq ho)
    (Token.kind_eq hf) hnames' hvalues' hbody', rfl,
    sameShape_genericFor hsame hsame' hsame''⟩

/-- A `break` is read back as it is. Counterpart of `Derives.breakStatement`. -/
theorem keeps_breakStatement : Keeps .statement [⟨number, .breakStatement, span, false⟩] := by
  refine .of_shape fun place _ stop first tokens h => ?_
  simp only [Node.shapeKept, Node.shapeWords, List.map_eq_cons_iff, List.map_eq_nil_iff] at h
  obtain ⟨k, _, rfl, hk, rfl⟩ := h
  exact ⟨_, _, .breakStatement (Token.kind_eq hk), rfl, rfl⟩

/-- A `goto` is read back as it is. Counterpart of `Derives.gotoStatement`. -/
theorem keeps_gotoStatement :
    Keeps .statement [⟨number, .gotoStatement (nameOf n t), span, false⟩] := by
  refine .of_shape fun place _ stop first tokens h => ?_
  simp only [Node.shapeKept, Node.shapeWords, Node.kept_open, Node.words_open,
    List.map_eq_cons_iff, List.map_eq_nil_iff] at h
  obtain ⟨k, _, rfl, hk, t', _, rfl, ht', rfl⟩ := h
  exact ⟨_, _, .gotoStatement (Token.kind_eq hk) (Token.kind_eq ht'), rfl,
    congrArg Shape.gotoStatement (sameForm_name _ _ ht')⟩

/-- A label is read back as it is. Counterpart of `Derives.labelStatement`. -/
theorem keeps_labelStatement :
    Keeps .statement [⟨number, .labelStatement (nameOf n t), span, false⟩] := by
  refine .of_shape fun place _ stop first tokens h => ?_
  simp only [Node.shapeKept, Node.shapeWords, Node.kept_open, Node.words_open,
    List.singleton_append, List.map_eq_cons_iff, List.map_eq_nil_iff] at h
  obtain ⟨l, _, rfl, hl, t', _, rfl, ht', r, _, rfl, hr, rfl⟩ := h
  exact ⟨_, _, .labelStatement (Token.kind_eq hl) (Token.kind_eq ht') (Token.kind_eq hr), rfl,
    congrArg Shape.labelStatement (sameForm_name _ _ ht')⟩

/-- A `return` is read back if its values are. Counterpart of `Derives.returnStatement`. -/
theorem keeps_returnStatement (hvalues : Keeps .arguments values) :
    Keeps .block [⟨number, .returnStatement values, span, false⟩] := by
  refine .of_shape fun place _ stop first tokens h => ?_
  simp only [Node.shapeKept, Node.shapeWords, List.map_eq_cons_iff] at h
  obtain ⟨k, us, rfl, hk, hus⟩ := h
  obtain ⟨_, values', hvalues', hsame⟩ := hvalues.list _ rfl 0 first hus
  rw [← List.append_nil us]
  exact ⟨_, _, .returnStatement (Token.kind_eq hk) (.inl rfl) hvalues', rfl,
    congrArg Shape.returnStatement hsame⟩

/-- After a statement with another one behind it comes a semicolon, and so no parenthesis that could
call what the statement ends with. Counterpart of `Derives.moreStatements`. -/
theorem keeps_moreStatements {statement : Node} (hstatement : Keeps .statement [statement])
    (hbody : Keeps .block body) : Keeps .block (statement :: body) := by
  intro place _ stop first tokens h
  cases body with
  | nil =>
    obtain ⟨next, statement', hstatement', hsame⟩ :=
      hstatement.one (place 0) (.inl rfl) 0 first (by simpa using h)
    have hblock := @Derives.moreStatements true first next next tokens [] statement' []
      (fun _ hparen => by cases hparen) hstatement' .emptyBlock
    rw [List.append_nil] at hblock
    exact ⟨next, _, hblock, hsame.single⟩
  | cons next rest =>
    rw [Node.listKept,
      Node.listWords_cons _ _ (Node.listKept_ne_nil (List.cons_ne_nil next rest))] at h
    simp only [Rule.separator, List.singleton_append, List.map_eq_cons_iff,
      List.map_eq_append_iff] at h
    obtain ⟨us, _, rfl, hus, s, vs, rfl, hs, hvs⟩ := h
    obtain ⟨_, statement', hstatement', hsame⟩ := hstatement.one (place 0) (.inl rfl) 0 first hus
    obtain ⟨_, body', hbody', hsame'⟩ := hbody.list _ rfl 0 _ hvs
    have hkind : s.kind = .symbol .semicolon := Token.kind_eq hs
    exact ⟨_, _, .moreStatements (fun _ hparen => by simp [hkind] at hparen) hstatement'
      (.semicolon hkind hbody'), hsame.cons hsame'⟩

end

/-! ## Branches -/

/-- The keyword of the first branch. -/
def clauseKeyword? (clauses : List Node) : Option Keyword :=
  clauses.head?.bind fun clause =>
    match clause.shape with
    | .clause kind _ _ => some kind.keyword
    | _ => none

/-- The keyword of the first branch does not depend on parentheses. Counterpart of
`clauseKeyword?`. -/
theorem clauseKeyword?_kept (place : Nat → Place) (clauses : List Node) :
    clauseKeyword? (Node.listKept place clauses) = clauseKeyword? clauses := by
  cases clauses with
  | nil => rfl
  | cons clause rest =>
    simp only [clauseKeyword?, Node.listKept, List.head?_cons, Option.bind_some, Node.shape_kept]
    cases clause.shape <;> rfl

/-- Branches of the same forms start with the same keyword. Counterpart of `clauseKeyword?`. -/
theorem SameForms.clauseKeyword?_eq {clauses others : List Node} (h : SameForms others clauses) :
    clauseKeyword? others = clauseKeyword? clauses := by
  have hskeleton : ∀ nodes : List Node,
      clauseKeyword? (Node.listSkeleton (fun _ => false) nodes) = clauseKeyword? nodes := by
    intro nodes
    cases nodes with
    | nil => rfl
    | cons node rest =>
      simp only [clauseKeyword?, Node.listSkeleton, List.head?_cons, Option.bind_some,
        Node.shape_skeleton]
      cases node.shape <;> rfl
  rw [← hskeleton, h, hskeleton]

/-- The rule reads branches. -/
def Rule.isBranch : Rule → Bool
  | clause _ | clauses _ => true
  | _ => false

/-- Branches start with the keyword of the first. Counterpart of `clauseKeyword?`. -/
theorem Derives.exists_keyword {isApart : Bool} {rule : Rule} {a b : Nat} {ts : List Token}
    {nodes : List Node} (h : Derives isApart rule a b ts nodes) (hrule : rule.isBranch = true) :
    ∃ (word : Keyword) (k : Token) (us : List Token),
      clauseKeyword? nodes = some word ∧ ts = k :: us ∧ k.kind = .keyword word := by
  induction h with
  | clause hk => rcases hk with hk | hk <;> rw [hk] <;> exact ⟨_, _, _, rfl, rfl, hk⟩
  | elseClause hk => exact ⟨_, _, _, rfl, rfl, hk⟩
  | lastClause _ ih => exact ih rfl
  | moreClauses _ _ _ _ ih =>
    obtain ⟨word, k, us, hword, rfl, hk⟩ := ih rfl
    exact ⟨word, k, _, hword, rfl, hk⟩
  | _ => cases hrule

/-- Branches that are read back start with the same keyword. Counterpart of `clauseKeyword?`. -/
theorem Derives.exists_sameKeyword {isApart : Bool} {rule rule' : Rule} {a b c d : Nat}
    {ts us : List Token} {nodes others : List Node} (h : Derives isApart rule a b ts nodes)
    (hrule : rule.isBranch = true) (h' : Derives true rule' c d us others)
    (hrule' : rule'.isBranch = true) (place : Nat → Place)
    (hsame : SameForms others (Node.listKept place nodes)) :
    ∃ k ts' k' us', ts = k :: ts' ∧ us = k' :: us' ∧ k'.kind = k.kind := by
  obtain ⟨word, k, ts', hword, rfl, hk⟩ := h.exists_keyword hrule
  obtain ⟨word', k', us', hword', rfl, hk'⟩ := h'.exists_keyword hrule'
  rw [hsame.clauseKeyword?_eq, clauseKeyword?_kept, hword] at hword'
  cases hword'
  exact ⟨k, ts', k', us', rfl, rfl, hk'.trans hk.symm⟩

section
variable {isApart : Bool} {number offset a b : Nat} {span : Span} {ts : List Token}
  {condition clause : Node} {body clauses : List Node}

/-- A branch with a condition is read back if its condition and its body are. Counterpart of
`Derives.clause`. -/
theorem keeps_clause {k : Token} (hk : k.kind = .keyword .ifK ∨ k.kind = .keyword .elseifK)
    (hcondition : Keeps .expression [condition]) (hbody : Keeps .block body) :
    Keeps (.clause offset)
      [⟨number, .clause (Parser.clauseKind k.kind) (some condition) body, span, false⟩] := by
  refine .of_shape fun place _ stop first tokens h => ?_
  simp only [Node.shapeKept, Node.shapeWords, Node.optionKept, Node.optionWords, List.nil_append,
    List.append_assoc, List.singleton_append, List.map_eq_cons_iff, List.map_eq_append_iff] at h
  obtain ⟨k', _, rfl, hk', us, _, rfl, hus, t, bs, rfl, ht, hbs⟩ := h
  obtain ⟨_, condition', hcondition', hsame⟩ := hcondition.one {} (.inl rfl) 0 first hus
  obtain ⟨_, body', hbody', hsame'⟩ := hbody.list _ rfl 0 _ hbs
  have hkind : k'.kind = k.kind := by
    rw [Token.kind_eq hk']
    rcases hk with hk | hk <;> rw [hk] <;> rfl
  exact ⟨_, _, .clause (by rwa [hkind]) (Token.kind_eq ht) hcondition' hbody', rfl,
    sameShape_clause (by rw [hkind]) hsame.some hsame'⟩

/-- The last branch is read back if its body is. Counterpart of `Derives.elseClause`. -/
theorem keeps_elseClause (hbody : Keeps .block body) :
    Keeps (.clause offset) [⟨number, .clause .elseClause none body, span, false⟩] := by
  refine .of_shape fun place _ stop first tokens h => ?_
  simp only [Node.shapeKept, Node.shapeWords, Node.optionKept, Node.optionWords, List.nil_append,
    List.map_eq_cons_iff] at h
  obtain ⟨k, us, rfl, hk, hus⟩ := h
  obtain ⟨_, body', hbody', hsame⟩ := hbody.list _ rfl 0 first hus
  exact ⟨_, _, .elseClause (Token.kind_eq hk) hbody', rfl, sameShape_clause rfl rfl hsame⟩

/-- Branches are read back if the first one and the others are, since the keyword between them is
the one read. Counterpart of `Derives.moreClauses`. -/
theorem keeps_moreClauses {c : Nat} {k : Token} {us : List Token}
    (hk : k.kind = .keyword .elseifK ∨ k.kind = .keyword .elseK)
    (hhead : ts.head?.any (·.kind = .keyword .elseK) = false)
    (hclause : Derives isApart (.clause k.start) a b ts [clause])
    (hclauses : Derives isApart (.clauses offset) b c (k :: us) clauses)
    (h : Keeps (.clause k.start) [clause]) (hs : Keeps (.clauses offset) clauses) :
    Keeps (.clauses offset) (clause :: clauses) := by
  intro place _ stop first tokens htokens
  rw [Node.listKept, Node.listWords_cons _ _ (Node.listKept_ne_nil (hclauses.nodes_ne_nil rfl))]
    at htokens
  simp only [Rule.separator, List.nil_append, List.map_eq_append_iff] at htokens
  obtain ⟨us, vs, rfl, hus, hvs⟩ := htokens
  -- The first branch reaches up to the keyword of the second, whatever the nodes are numbered from.
  obtain ⟨_, _, hprobe, hprobed⟩ := hs.list _ rfl stop 0 hvs
  obtain ⟨_, _, k', vs', heq, rfl, hk'⟩ := hclauses.exists_sameKeyword rfl hprobe rfl _ hprobed
  cases heq
  obtain ⟨_, clause', hclause', hsame⟩ := h.one (place 0) (.inl rfl) k'.start first hus
  obtain ⟨_, clauses', hclauses', hsame'⟩ := hs.list _ rfl stop _ hvs
  have hhead' : us.head?.any (·.kind = .keyword .elseK) = false := by
    obtain ⟨l, _, l', _, hts, hus', hl'⟩ :=
      hclause.exists_sameKeyword rfl hclause' rfl (fun _ => place 0) hsame.single
    rw [hts] at hhead
    rw [hus']
    simpa [hl'] using hhead
  exact ⟨_, _, .moreClauses (by rwa [hk']) hhead' hclause' hclauses', hsame.cons hsame'⟩

/-- A conditional is read back if its branches are. Counterpart of `Derives.conditional`. -/
theorem keeps_conditional {k : Token} (hk : k.kind = .keyword .ifK)
    (hclauses : Derives isApart (.clauses offset) a b (k :: ts) clauses)
    (h : Keeps (.clauses offset) clauses) :
    Keeps .statement [⟨number, .conditional clauses, span, false⟩] := by
  refine .of_shape fun place _ stop first tokens htokens => ?_
  simp only [Node.shapeKept, Node.shapeWords, List.map_eq_cons_iff, List.map_eq_append_iff,
    List.map_eq_nil_iff] at htokens
  obtain ⟨us, _, rfl, hus, e, _, rfl, he, rfl⟩ := htokens
  obtain ⟨_, clauses', hclauses', hsame⟩ := h.list _ rfl e.start first hus
  obtain ⟨_, _, k', us, heq, rfl, hk'⟩ := hclauses.exists_sameKeyword rfl hclauses' rfl _ hsame
  cases heq
  exact ⟨_, _, .conditional (hk'.trans hk) (Token.kind_eq he) hclauses', rfl,
    congrArg Shape.conditional hsame⟩

end

/-! ## Derivations -/

/-- Whatever was read is read back as it is kept. Counterpart of `Derives`. -/
theorem Derives.keeps {isApart : Bool} {rule : Rule} {a b : Nat} {ts : List Token}
    {nodes : List Node} (h : Derives isApart rule a b ts nodes) : Keeps rule nodes := by
  induction h with
  | identifier => exact keeps_name fun _ _ _ => .identifier
  | literal => exact keeps_literal
  | parens _ _ _ ih => exact keeps_parens ih
  | table _ _ _ ih => exact keeps_table ih
  | function _ _ _ _ _ _ ihparameters ihbody => exact keeps_function ihparameters ihbody
  | member _ _ hbase hderives ih => exact keeps_member hderives hbase ih
  | index _ _ hbase hderives _ ih ihkey => exact keeps_index hderives hbase ih ihkey
  | call _ _ _ _ ih iharguments => exact keeps_call ih iharguments
  | tableCall _ _ _ _ ih ihfields => exact keeps_tableCall ih ihfields
  | stringCall hkind hstarts _ ih => exact keeps_stringCall hkind hstarts ih
  | plain hbase hderives ih => exact keeps_plain hderives hbase ih
  | method _ _ hbase hderives ih => exact keeps_method hderives hbase ih
  | unary hop habove hoperand ih =>
    exact keeps_unary ((unary hop habove hoperand).wellParenthesised _ (List.mem_singleton_self _))
      ih
  | binary hop hbelow habove hleft hright ihleft ihright =>
    exact keeps_binary ((binary hop hbelow habove hleft hright).wellParenthesised _
      (List.mem_singleton_self _)) ihleft ihright
  | lastExpression _ ih => exact ih.imp rfl .lastExpression
  | moreExpressions _ _ hrest ih ihs =>
    exact .cons rfl rfl rfl (hrest.nodes_ne_nil rfl) .moreExpressions ih ihs
  | noArguments => exact .nil fun _ _ => .noArguments
  | someArguments _ ih => exact keeps_someArguments ih
  | lastName => exact keeps_name fun _ _ _ => .lastName
  | moreNames _ _ hrest ih =>
    exact .cons_name rfl rfl (hrest.nodes_ne_nil rfl) (fun ht hcomma _ => .moreNames ht hcomma) ih
  | noParameters => exact .nil fun _ _ => .noParameters
  | lastParameter => exact keeps_name fun _ _ _ => .lastParameter
  | varargs => exact keeps_varargs
  | moreParameters _ _ hne _ ih => exact .cons_name rfl rfl hne .moreParameters ih
  | keyField _ _ _ _ _ ihkey ihvalue => exact keeps_keyField ihkey ihvalue
  | nameField _ _ _ ih => exact keeps_nameField ih
  | valueField _ ih => exact keeps_valueField ih
  | noFields => exact .nil fun _ _ => .noFields
  | lastField _ ih => exact ih.imp rfl .lastField
  | moreFields _ _ _ ih ihs => exact keeps_moreFields ih ihs
  | nameStart => exact keeps_name fun _ _ _ => .nameStart
  | nameMember _ _ _ ih => exact keeps_nameMember ih
  | nameDotted _ ih => exact ih.imp rfl .nameDotted
  | nameMethod _ _ _ ih => exact keeps_nameMethod ih
  | declaration _ _ ih => exact keeps_declaration ih
  | definition _ _ _ hvalues ihnames ihvalues =>
    exact keeps_definition (hvalues.nodes_ne_nil rfl) ihnames ihvalues
  | localFunction _ _ _ _ _ _ _ _ ihparameters ihbody =>
    exact keeps_localFunction ihparameters ihbody
  | globalFunction _ _ _ _ _ _ _ ihname ihparameters ihbody =>
    exact keeps_globalFunction ihname ihparameters ihbody
  | assignment _ hall htargets _ ihtargets ihvalues =>
    exact keeps_assignment (fun target hmem => (htargets.isRead target hmem).1) hall
      ihtargets ihvalues
  | callStatement hcall _ ih => exact keeps_callStatement hcall ih
  | conditional hk _ hclauses ih => exact keeps_conditional hk hclauses ih
  | whileLoop _ _ _ _ _ ih ihbody => exact keeps_whileLoop ih ihbody
  | doBlock _ _ _ ih => exact keeps_doBlock ih
  | repeatLoop _ _ _ _ ihbody ih => exact keeps_repeatLoop ihbody ih
  | numericFor _ _ _ _ _ _ _ _ _ ihfirst ihlast ihbody =>
    exact keeps_numericFor ihfirst ihlast ihbody
  | steppedFor _ _ _ _ _ _ _ _ _ _ _ ihfirst ihlast ihstep ihbody =>
    exact keeps_steppedFor ihfirst ihlast ihstep ihbody
  | genericFor _ _ _ _ _ _ _ ihnames ihvalues ihbody =>
    exact keeps_genericFor ihnames ihvalues ihbody
  | breakStatement => exact keeps_breakStatement
  | gotoStatement => exact keeps_gotoStatement
  | labelStatement => exact keeps_labelStatement
  | emptyBlock => exact .nil fun _ _ => .emptyBlock
  | semicolon _ _ ih => exact ih
  | moreStatements _ _ _ ih ihbody => exact keeps_moreStatements ih ihbody
  | returnStatement _ _ _ ih => exact keeps_returnStatement ih
  | clause hk _ _ _ ih ihbody => exact keeps_clause hk ih ihbody
  | elseClause _ _ ih => exact keeps_elseClause ih
  | lastClause _ ih => exact ih.imp rfl .lastClause
  | moreClauses hk hhead hclause hclauses ih ihs =>
    exact keeps_moreClauses hk hhead hclause hclauses ih ihs

end LuaFormatter
