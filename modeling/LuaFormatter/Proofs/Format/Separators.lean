import LuaFormatter.Proofs.Comment.Once
import LuaFormatter.Proofs.Grammar.Parts
import LuaFormatter.Proofs.Spelling.Start
import LuaFormatter.Proofs.Spelling.Within

/-!
# Statements that could be read as one

A parenthesis at the start of a statement would call what the statement before it ends with, so
there is a semicolon between the two. `needsSeparator` asks the tree whether a statement is written
with a parenthesis at its start. It is right (`separator_format`) unless an access at the start of
the statement loses its parentheses: it does not look inside them, where another parenthesis may
come first (`Node.losesParen`).
-/

namespace LuaFormatter

/-! ## The code of slots -/

/-- The kind of token that a slot is, if it is code. -/
def Slot.code? : Slot → Option Kind
  | token kind _ => if kind.isComment then none else some kind
  | _ => none

/-- The kinds of the tokens among slots, without comments. -/
def codes (slots : List Slot) : List Kind :=
  slots.filterMap Slot.code?

section
variable {context : Context} {place : Place} {node : Node} {nodes : List Node} {kind : Kind}
  {front back slots : List Slot}

/-- The code of slots one after the other. Counterpart of `codes`. -/
theorem codes_append : codes (front ++ back) = codes front ++ codes back :=
  List.filterMap_append

/-- The code of a first slot, and of the others. Counterpart of `codes`. -/
theorem codes_cons (slot : Slot) (slots : List Slot) :
    codes (slot :: slots) = slot.code?.toList ++ codes slots := by
  cases hcode : slot.code? <;> simp [codes, hcode]

/-- A comment is written as a token that is one. Counterpart of `Comment.kind`. -/
theorem Comment.isComment_kind (comment : Comment) : comment.kind.isComment = true := by
  unfold Comment.kind
  split <;> rfl

/-- Comments before a node are no code. Counterpart of `Context.leadingSlots`. -/
theorem codes_leadingSlots (comments : List Comment) :
    codes (comments.flatMap context.leadingSlots) = [] := by
  refine List.filterMap_eq_nil_iff.2 fun slot hslot => ?_
  obtain ⟨comment, -, hslot⟩ := List.mem_flatMap.1 hslot
  unfold Context.leadingSlots at hslot
  simp only [List.mem_append, List.mem_cons, List.not_mem_nil, or_false] at hslot
  rcases hslot with (rfl | rfl) | hslot
  · exact if_pos comment.isComment_kind
  · split <;> rfl
  · split at hslot
    · rw [List.mem_singleton.1 hslot]
      rfl
    · cases hslot

/-- Comments after a node are no code. Counterpart of `Context.trailingSlots`. -/
theorem codes_trailingSlots (comments : List Comment) :
    codes (comments.flatMap context.trailingSlots) = [] := by
  refine List.filterMap_eq_nil_iff.2 fun slot hslot => ?_
  obtain ⟨comment, -, hslot⟩ := List.mem_flatMap.1 hslot
  unfold Context.trailingSlots at hslot
  split at hslot
  · rw [List.mem_singleton.1 hslot]
    rfl
  · split at hslot
    · simp only [List.mem_cons, List.not_mem_nil, or_false] at hslot
      rcases hslot with rfl | rfl
      · rfl
      · exact if_pos comment.isComment_kind
    · rw [List.mem_singleton.1 hslot]
      rfl

/-- The code of a node is that between the comments. Counterpart of `Context.commented`. -/
theorem codes_commented : codes (context.commented node slots) = codes slots := by
  rw [Context.commented, codes_append, codes_append, codes_leadingSlots, codes_trailingSlots,
    List.nil_append, List.append_nil]

/-- The first code of a node is the kind of token that it starts with. Counterpart of
`Context.Starts`. -/
theorem Context.Starts.codes_head (h : context.Starts nodes kind slots)
    (hkind : kind.isComment = false) :
    (codes slots).head? = some kind := by
  obtain ⟨text, rest, rfl⟩ := h
  rw [codes_append, codes_leadingSlots, codes_cons, Slot.code?, hkind]
  rfl

/-- No comment starts an expression. Counterpart of `Kind.startsExpression`. -/
theorem Kind.isComment_of_startsExpression (h : kind.startsExpression = true) :
    kind.isComment = false := by
  cases kind <;> first | rfl | cases h

/-- The first token of an expression, comments aside. Counterpart of `startKind`. -/
theorem Derives.codes_head {isApart : Bool} {a b : Nat} {ts : List Token}
    (h : Derives isApart .expression a b ts [node]) (context : Context) (place : Place) :
    (codes (spell context place node)).head? = some (node.startKind place) :=
  (h.starts (.inl rfl) rfl context place).spell.codes_head
    (Kind.isComment_of_startsExpression (h.startKind place).1)

end

/-! ## The end of a statement -/

namespace Node

/-- A parenthesis after the expression would call what it ends with, as it is written at a place. -/
def endsCallableAt (place : Place) : Node → Bool
  | mk number shape span inParens =>
    needsParens place (mk number shape span inParens) ||
      match shape with
      | .identifier _ | .member _ _ _ | .index _ _ | .call _ _ | .tableCall _ _ | .stringCall _ _ =>
        true
      | .binary op _ right => right.endsCallableAt (Place.right op)
      | .unary _ operand => operand.endsCallableAt {}
      | _ => false

/-- The expression that a statement is written with at its end, and its place. -/
def lastOperand? (statement : Node) : Option (Place × Node) :=
  match statement.shape with
  | .localVariables _ values | .assignment _ values | .returnStatement values =>
    values.getLast?.map fun value => (Place.value values.length (values.length - 1), value)
  | .callStatement expression => some ({}, expression)
  | .repeatLoop _ condition => some ({}, condition)
  | _ => none

/-- A parenthesis after the statement would call what it ends with. -/
def endsCallable (statement : Node) : Bool :=
  statement.lastOperand?.any fun operand => operand.2.endsCallableAt operand.1

/-- What a parenthesis would call at the end of an expression can be called. Counterpart of
`endsCallableAt`, by recursion down the right side. -/
theorem isCallable_rightmost : ∀ {node : Node} {place : Place}, node.endsCallableAt place = true →
    node.rightmost.isCallable = true
  | mk number shape span true, place, _ => by
    rw [rightmost]
    rfl
  | mk number shape span false, place, h => by
    rw [rightmost,
      if_neg (show ¬(mk number shape span false).inParens = true from Bool.false_ne_true)]
    cases shape with
    | binary op left right =>
      exact isCallable_rightmost (show right.endsCallableAt (Place.right op) = true from h)
    | unary op operand => exact isCallable_rightmost (show operand.endsCallableAt {} = true from h)
    | identifier _ | member _ _ _ | index _ _ | call _ _ | tableCall _ _ | stringCall _ _ => rfl
    | _ => cases h

/-- The tree shows that a statement ends in something that could be called, unless nothing can
follow. Counterpart of `Node.lastExpression?`. -/
theorem isCallable_lastExpression? {statement : Node} (h : statement.endsCallable = true)
    (hreturn : ∀ values, statement.shape ≠ .returnStatement values) :
    statement.lastExpression?.any isCallable = true := by
  obtain ⟨⟨place, operand⟩, hoperand, hends⟩ := (Option.any_eq_true _ _).1 h
  have hcallable : operand.rightmost.isCallable = true := isCallable_rightmost hends
  suffices hlast : statement.lastExpression? = some operand.rightmost by
    rw [hlast]
    exact hcallable
  obtain ⟨number, shape, span, inParens⟩ := statement
  cases shape with
  | localVariables _ values | assignment _ values =>
    obtain ⟨value, hlast, hvalue⟩ := Option.map_eq_some_iff.1 hoperand
    cases hvalue
    exact congrArg (Option.map rightmost) hlast
  | callStatement expression | repeatLoop body condition =>
    cases hoperand
    rfl
  | returnStatement values => exact absurd rfl (hreturn values)
  | _ => cases hoperand

end Node

/-! ## The start of a statement -/

/-- What an access or a call starts with. -/
def Shape.base? {α : Type} : Shape α → Option α
  | member _ base _ | index base _ | call base _ | tableCall base _ | stringCall base _ => some base
  | _ => none

/-- A call can be accessed or called. Counterpart of `Shape.isBase`. -/
theorem Shape.isBase_of_isCall {α : Type} {shape : Shape α} (h : shape.isCall = true) :
    shape.isBase = true := by
  cases shape with
  | call | tableCall | stringCall => rfl
  | _ => cases h

namespace Node

/-- An access at the start of the expression loses its parentheses, and no call in parentheses comes
before it. -/
def losesParen : Node → Bool
  | mk _ shape _ inParens =>
    match shape with
    | .member _ base _ | .index base _ => inParens || base.losesParen
    | .call base _ | .tableCall base _ | .stringCall base _ => !inParens && base.losesParen
    | _ => false

/-- An access at the start of the statement loses its parentheses. -/
def startLosesParen (statement : Node) : Bool :=
  match statement.shape with
  | .callStatement expression => expression.losesParen
  | .assignment targets _ => targets.head?.any losesParen
  | _ => false

/-- If an expression is written with a parenthesis at its start, the tree shows it unless an access
loses its parentheses. Counterpart of `Shape.opensWithParen`. -/
theorem opensWithParen_eq {node : Node} {place : Place}
    (hbase : node.inParens = true ∨ node.shape.isBase = true)
    (hinner : ∀ base, node.shape.base? = some base →
        base.startKind Place.base = .symbol .leftParen →
      base.opensWithParen = !base.losesParen)
    (hstart : node.startKind place = .symbol .leftParen) :
    node.opensWithParen = !node.losesParen := by
  obtain ⟨number, shape, span, inParens⟩ := node
  rw [opensWithParen]
  cases shape with
  | member indexer base name | index base key =>
    cases inParens with
    | true => rfl
    | false => exact hinner base rfl hstart
  | call base arguments | tableCall base argument | stringCall base argument =>
    cases inParens with
    | true => rfl
    | false => exact hinner base rfl hstart
  | identifier name => cases inParens <;> cases hstart
  | _ =>
    rcases hbase with hparens | hbase
    · exact hparens
    · cases hbase

end Node

section
variable {isApart : Bool} {rule : Rule} {a b : Nat} {ts : List Token} {nodes : List Node}
  {node : Node}

/-- What an access or a call starts with opens with a parenthesis unless it loses it, if a
parenthesis is written there. Counterpart of `Node.opensWithParen`. -/
theorem Derives.opensWithParen_base (h : Derives isApart rule a b ts nodes)
    (hrule : rule = .expression ∨ rule = .callee) (hnode : nodes = [node]) :
    ∀ base, node.shape.base? = some base → base.startKind Place.base = .symbol .leftParen →
      base.opensWithParen = !base.losesParen := by
  induction h generalizing node with
  | member _ _ hb _ ih | method _ _ hb _ ih | index _ _ hb _ _ ih _ =>
    intro base hfound hstart
    cases hnode
    cases hfound
    exact Node.opensWithParen_eq (Node.isBase_of_canBeBase hb) (ih (.inl rfl) rfl) hstart
  | call _ _ hb _ ih _ | tableCall _ _ hb _ ih _ | stringCall _ _ hb ih =>
    intro base hfound hstart
    cases hnode
    cases hfound
    exact Node.opensWithParen_eq hb.isBase_callee (ih (.inr rfl) rfl) hstart
  | parens _ _ _ ih =>
    cases hnode
    rw [Node.shape_parenthesise]
    exact ih (.inl rfl) rfl
  | plain _ _ ih => exact ih (.inl rfl) hnode
  | identifier | literal | table | function | unary | binary =>
    cases hnode
    nofun
  | _ => rcases hrule with hrule | hrule <;> cases hrule

/-- Slots that are put together of lists start with the first of them. Counterpart of
`List.intercalate`. -/
theorem codes_intercalate {separator first back : List Slot} {lists : List (List Slot)}
    {kind : Kind} (h : (codes first).head? = some kind) :
    (codes (separator.intercalate (first :: lists) ++ back)).head? = (codes first).head? := by
  have hfront : ∀ more, (codes (first ++ more)).head? = (codes first).head? := by
    intro more
    rw [codes_append, List.head?_append, h]
    rfl
  cases lists with
  | nil => rw [List.intercalate_singleton, hfront]
  | cons second rest =>
    rw [List.intercalate_cons_cons, List.append_assoc, List.append_assoc, hfront]

/-- The code at the start of a branch is its keyword. Counterpart of `Derives.clause`. -/
theorem Derives.codes_clause {stop : Nat} (h : Derives isApart (.clause stop) a b ts [node])
    (context : Context) : ∃ word, (codes (spell context {} node)).head? = some (.keyword word) := by
  have hcore : ∀ {number span kind condition body},
      node = ⟨number, .clause kind condition body, span, false⟩ →
      ∃ word, (codes (spell context {} node)).head? = some (.keyword word) := by
    rintro number span kind condition body rfl
    rw [spell_eq, codes_commented]
    cases kind <;> exact ⟨_, rfl⟩
  cases h with
  | clause | elseClause => exact hcore rfl

/-- A list of expressions has a first one, with a derivation of its own. Counterpart of
`Derives.moreExpressions`. -/
theorem Derives.exists_first_expression (h : Derives isApart .expressions a b ts nodes) :
    ∃ first rest, nodes = first :: rest ∧ ∃ a b ts, Derives isApart .expression a b ts [first] := by
  cases h with
  | lastExpression h | moreExpressions _ h _ => exact ⟨_, _, rfl, _, _, _, h⟩

/-- The branches of a conditional have a first one, with a derivation of its own. Counterpart of
`Derives.moreClauses`. -/
theorem Derives.exists_first_clause {stop : Nat}
    (h : Derives isApart (.clauses stop) a b ts nodes) :
    ∃ first rest, nodes = first :: rest ∧ ∃ stop a b ts,
      Derives isApart (.clause stop) a b ts [first] := by
  cases h with
  | lastClause h | moreClauses _ _ h _ => exact ⟨_, _, rfl, _, _, _, _, h⟩

/-- The tree shows that an expression at the start of a statement is written with a parenthesis at
its start, unless an access loses its parentheses. Counterpart of `Shape.opensWithParen`. -/
theorem Derives.opensWithParen_eq (h : Derives isApart .expression a b ts [node])
    (hbase : node.inParens = true ∨ node.shape.isBase = true) {context : Context} {place : Place}
    (hparen : (codes (spell context place node)).head? = some (.symbol .leftParen)) :
    node.opensWithParen = !node.losesParen := by
  rw [h.codes_head] at hparen
  exact Node.opensWithParen_eq hbase (h.opensWithParen_base (.inl rfl) rfl) (Option.some.inj hparen)

/-- A statement that is written with a parenthesis at its start is an assignment or a call.
Counterpart of `startsWithParen`. -/
theorem Derives.startsWithParen_eq (h : Derives isApart .statement a b ts [node])
    (context : Context)
    (hparen : (codes (spell context {} node)).head? = some (.symbol .leftParen)) :
    node.startsWithParen = !node.startLosesParen := by
  rw [spell_eq, codes_commented] at hparen
  cases h with
  | assignment _ htargets hderives _ =>
    obtain ⟨first, rest, rfl, _, _, _, hfirst⟩ := hderives.exists_first_expression
    have hbase := Node.isBase_of_canBeBase (htargets first List.mem_cons_self).1
    have hhead : (codes (spell context {} first)).head? = some (.symbol .leftParen) :=
      (codes_intercalate (hfirst.codes_head context {})).symm.trans hparen
    exact hfirst.opensWithParen_eq hbase hhead
  | callStatement hcall hderives =>
    exact hderives.opensWithParen_eq (.inr (Shape.isBase_of_isCall hcall)) hparen
  | conditional _ _ hclauses =>
    obtain ⟨first, rest, rfl, _, _, _, _, hfirst⟩ := hclauses.exists_first_clause
    obtain ⟨word, hword⟩ := hfirst.codes_clause context
    cases hword.symm.trans ((codes_intercalate hword).symm.trans hparen)
  | _ => cases hparen

/-! ## Blocks -/

/-- A statement of a block is read as a statement, unless it is a return at the end. Counterpart of
`Derives.moreStatements`. -/
theorem Derives.of_mem_block {body front back : List Node} (h : Derives isApart .block a b ts body)
    (hbody : body = front ++ node :: back) :
    (∃ a b ts, Derives isApart .statement a b ts [node]) ∨
      back = [] ∧ ∃ n values us, node = nodeOf n (.returnStatement values) us := by
  generalize hrule : Rule.block = rule at h
  induction h generalizing front with
  | emptyBlock => cases front <;> cases hbody
  | semicolon _ _ ih => exact ih hbody hrule
  | moreStatements _ hstatement _ _ ih =>
    cases front with
    | nil =>
      cases hbody
      exact .inl ⟨_, _, _, hstatement⟩
    | cons first front => exact ih (List.cons.inj hbody).2 rfl
  | returnStatement =>
    cases front with
    | nil =>
      cases hbody
      exact .inr ⟨rfl, _, _, _, rfl⟩
    | cons first front => cases front <;> cases (List.cons.inj hbody).2
  | _ => cases hrule

end

/-- What is written between two statements, before the line break. -/
def Context.separatorSlots (context : Context) (statement next : Node) : List Slot :=
  (if needsSeparator statement next then [.symbol .semicolon] else []) ++
    if Gap.isNextLineBlank context.source statement.span.stop then [.hard] else []

section
variable {context : Context} {node : Node} {body : List Node}

/-- The slots of statements start with those of the first one. Counterpart of
`Context.separatedSlots`. -/
theorem Context.exists_separatedSlots (context : Context) (first : Spelled) (rest : List Spelled) :
    ∃ more lists, context.separatedSlots (first :: rest) = (first.slots ++ more) :: lists := by
  cases rest with
  | nil => exact ⟨[], [], by rw [List.append_nil]; rfl⟩
  | cons second rest => exact ⟨_, _, rfl⟩

/-- A statement, what divides it from the next one, and the next one stand together. Counterpart of
`Context.separatedSlots`. -/
theorem Context.infix_separated (context : Context) (front : List Spelled) (first second : Spelled)
    (back : List Spelled) :
    first.slots ++ (context.separatorSlots first.node second.node ++ .hard :: second.slots) <:+:
      [Slot.hard].intercalate (context.separatedSlots (front ++ first :: second :: back)) := by
  induction front with
  | nil =>
    obtain ⟨more, lists, hlists⟩ := context.exists_separatedSlots second back
    have hsecond : second.slots <+:
        [Slot.hard].intercalate (context.separatedSlots (second :: back)) := by
      rw [hlists]
      cases lists with
      | nil =>
        rw [List.intercalate_singleton]
        exact List.prefix_append ..
      | cons next lists =>
        rw [List.intercalate_cons_cons, List.append_assoc, List.append_assoc]
        exact List.prefix_append ..
    obtain ⟨rest, hrest⟩ := hsecond
    have hwhole : [Slot.hard].intercalate (context.separatedSlots (first :: second :: back)) =
        first.slots ++ (context.separatorSlots first.node second.node ++ .hard :: second.slots) ++
        rest := by
      rw [separatedSlots, hlists, List.intercalate_cons_cons, ← hlists, ← hrest]
      simp [separatorSlots]
    rw [List.nil_append, hwhole]
    exact (List.prefix_append ..).isInfix
  | cons other front ih =>
    cases hrest : front ++ first :: second :: back with
    | nil => simp at hrest
    | cons next rest =>
      obtain ⟨more, lists, hlists⟩ := context.exists_separatedSlots next rest
      rw [hrest, hlists] at ih
      rw [List.cons_append, hrest, separatedSlots, hlists, List.intercalate_cons_cons]
      exact infix_right ih

end

/-- The statements of a body are children. Counterpart of `Shape.body?`. -/
theorem Shape.subset_children_of_body? {shape : Shape Node} {body : List Node}
    (h : shape.body? = some body) :
    body ⊆ shape.children := by
  cases shape with
  | chunk | doBlock =>
    cases h
    exact List.Subset.refl _
  | repeatLoop =>
    cases h
    exact List.subset_append_left ..
  | whileLoop =>
    cases h
    exact List.subset_cons_self ..
  | function | clause | numericFor | genericFor =>
    cases h
    exact List.subset_append_right ..
  | _ => cases h

section
variable {source : List Char} {block : Node} {front back : List Node} {first second : Node}

/-- In a valid program a statement and the next one stand together, with what divides them in
between. Counterpart of `Context.statementSlots`. -/
theorem infix_statements (h : (parse source).isValid = true) (style : Style)
    (hblock : block.Part (parse source).root)
    (hbody : block.shape.body? = some (front ++ first :: second :: back)) :
    let context := Context.ofProgram (parse source) style
    spell context {} first ++ (context.separatorSlots first second ++ .hard ::
      spell context {} second) <:+: spell context {} (parse source).root := by
  intro context
  have hchildren := Shape.subset_children_of_body? hbody
  have hname : keyName? block = none :=
    keyName?_of_mem_children (show first ∈ block.children from hchildren (by simp))
  obtain ⟨place, hwhole⟩ := exists_infix_root h style hblock hname
  refine List.IsInfix.trans ?_ ((infix_block hbody (by simp)).trans hwhole)
  have hread : ∀ statement ∈ (front ++ first :: second :: back).map
      (fun child => (⟨child, spell context {} child⟩ : Spelled)),
      (!statement.node.isUnreadStatement) = true := by
    intro statement hmem
    obtain ⟨node, hnode, rfl⟩ := List.mem_map.1 hmem
    rw [isUnreadStatement_children h hblock node (hchildren hnode)]
    rfl
  rw [Context.statementSlots, List.filter_eq_self.2 hread, List.map_append]
  exact context.infix_separated _ ⟨first, spell context {} first⟩
    ⟨second, spell context {} second⟩ _

/-- Where a statement ends in something that can be called and the next one is written with a
parenthesis at its start, a semicolon is asked for unless an access loses its parentheses.
Counterpart of `needsSeparator`. -/
theorem Derives.needsSeparator_iff {isApart : Bool} {a b : Nat} {ts : List Token}
    (hfirst : Derives isApart .statement a b ts [first])
    (hsecond : (∃ a b ts, Derives isApart .statement a b ts [second]) ∨
      ∃ n values us, second = nodeOf n (.returnStatement values) us) (context : Context)
    (hends : first.endsCallable = true)
    (hparen : (codes (spell context {} second)).head? = some (.symbol .leftParen)) :
    needsSeparator first second = true ↔ second.startLosesParen = false := by
  have hreturn : ∀ values, first.shape ≠ .returnStatement values := by
    intro values hshape
    cases hfirst <;> cases hshape
  have hstarts : second.startsWithParen = !second.startLosesParen := by
    obtain ⟨_, _, _, hstatement⟩ | ⟨n, values, us, rfl⟩ := hsecond
    · exact hstatement.startsWithParen_eq context hparen
    · rw [spell_eq, codes_commented] at hparen
      cases hparen
  rw [needsSeparator, Node.isCallable_lastExpression? hends hreturn, hstarts, Bool.true_and,
    Bool.not_eq_true']

/-- A semicolon is asked for between two statements of a block where it is needed, unless an access
loses its parentheses. Counterpart of `needsSeparator`. -/
theorem needsSeparator_iff (h : (parse source).isValid = true)
    (hblock : block.Part (parse source).root)
    (hbody : block.shape.body? = some (front ++ first :: second :: back)) (context : Context)
    (hends : first.endsCallable = true)
    (hparen : (codes (spell context {} second)).head? = some (.symbol .leftParen)) :
    needsSeparator first second = true ↔ second.startLosesParen = false := by
  obtain ⟨_, _, _, hderives⟩ := (readsParts_of_part h hblock).body _ hbody
  obtain ⟨_, _, _, hfirst⟩ | ⟨hback, -⟩ := hderives.of_mem_block rfl
  · have hsecond := hderives.of_mem_block (List.append_cons front first (second :: back))
    exact hfirst.needsSeparator_iff (hsecond.imp id And.right) context hends hparen
  · cases hback

end

/-- Between two statements of a block there is a semicolon if one is asked for. If the first ends in
something that can be called and the second is written with a parenthesis at its start, one is asked
for unless an access at the start of the second loses its parentheses. Counterpart of
`needsSeparator`. -/
theorem separator_format {source : List Char} (h : (parse source).isValid = true) (style : Style)
    {block : Node} (hblock : block.Part (parse source).root) {front back : List Node}
    {first second : Node} (hbody : block.shape.body? = some (front ++ first :: second :: back)) :
    let context := Context.ofProgram (parse source) style
    spell context {} first ++ (context.separatorSlots first second ++ .hard ::
      spell context {} second) <:+: spell context {} (parse source).root ∧
      (first.endsCallable = true → (codes (spell context {} second)).head? =
        some (.symbol .leftParen) →
        (needsSeparator first second = true ↔ second.startLosesParen = false)) :=
  ⟨infix_statements h style hblock hbody, needsSeparator_iff h hblock hbody _⟩

/-- A call of what is accessed in parentheses that are dropped: no semicolon is asked for, although
the call is written with a parenthesis at its start. -/
theorem separator_format_lost :
    let source := "a = b; ((f or g).x)()".toList
    let context := Context.ofProgram (parse source) {}
    ∃ first second, (parse source).root.shape.body? = some [first, second] ∧
    first.endsCallable = true ∧
      (codes (spell context {} second)).head? = some (.symbol .leftParen) ∧
      needsSeparator first second = false := by
  intro source context
  have hfacts : (parse source).isValid = true ∧ (parse source).root.children.length = 2 ∧
      (parse source).root.children.head?.any Node.endsCallable = true ∧
      (parse source).root.children.getLast?.any (fun second => second.startLosesParen &&
        (codes (spell context {} second)).head? = some (.symbol .leftParen)) = true := by
    decide +kernel
  obtain ⟨hvalid, hlength, hends, hstarts⟩ := hfacts
  obtain ⟨first, second, hbody⟩ := List.length_eq_two.1 hlength
  rw [hbody] at hends hstarts
  obtain ⟨hloses, hparen⟩ := Bool.and_eq_true_iff.1 hstarts
  have hblock : (parse source).root.shape.body? = some ([] ++ first :: second :: []) :=
    congrArg some hbody
  have hiff := (separator_format hvalid {} (.self _) hblock).2 hends (of_decide_eq_true hparen)
  refine ⟨first, second, hblock, hends, of_decide_eq_true hparen,
    Bool.eq_false_iff.2 fun hneeds => ?_⟩
  exact Bool.false_ne_true ((hiff.1 hneeds).symm.trans hloses)

/-- So two statements become one. -/
theorem length_children_format :
    let source := "a = b; ((f or g).x)()".toList
    (parse source).root.children.length = 2 ∧
    (parse (format source {})).root.children.length = 1 := by
  decide +kernel

end LuaFormatter
