import LuaFormatter.Comment.Attachment
import LuaFormatter.Proofs.Grammar.First
import LuaFormatter.Proofs.Grammar.Placement

/-!
# Empty pairs of parentheses

A call without arguments and a function without parameters have an empty pair of parentheses, and no
other form of the grammar has one: parentheses around an expression are never empty. So two tokens
`(` and `)` one after the other are the pair of some node (`Derives.finds`), which has its other
parts before or after the pair (`Node.Encloses`). A pair cannot come about where the tokens of two
parts meet, since no part ends with `(` or starts with `)`.
-/

namespace LuaFormatter

/-! ## Neighbouring tokens -/

/-- The tokens do not start with a closing parenthesis. -/
def NoClose (ts : List Token) : Prop :=
  ∀ t, ts.head? = some t → t.kind ≠ .symbol .rightParen

/-- The tokens do not end with an opening parenthesis. -/
def NoOpen (ts : List Token) : Prop :=
  ∀ t, ts.getLast? = some t → t.kind ≠ .symbol .leftParen

section
variable {t u : Token} {ts us : List Token}

@[simp] theorem noClose_nil : NoClose [] := nofun

@[simp] theorem noClose_cons : NoClose (t :: ts) ↔ t.kind ≠ .symbol .rightParen := by
  simp [NoClose]

/-- Tokens one after the other do not start with a closing parenthesis if neither part does.
Counterpart of `NoClose`. -/
theorem NoClose.append (h : NoClose ts) (h' : NoClose us) : NoClose (ts ++ us) := by
  cases ts with
  | nil => exact h'
  | cons t ts => exact h

/-- Only the first of two parts matters if it has tokens. Counterpart of `NoClose`. -/
theorem NoClose.append_of_ne_nil (h : NoClose ts) (hne : ts ≠ []) : NoClose (ts ++ us) := by
  cases ts with
  | nil => exact absurd rfl hne
  | cons t ts => exact h

@[simp] theorem noOpen_nil : NoOpen [] := nofun

@[simp] theorem noOpen_singleton : NoOpen [t] ↔ t.kind ≠ .symbol .leftParen := by
  simp [NoOpen]

@[simp] theorem noOpen_append_cons : NoOpen (ts ++ t :: us) ↔ NoOpen (t :: us) := by
  simp [NoOpen, List.getLast?_cons]

@[simp] theorem noOpen_cons_append_cons : NoOpen (u :: (ts ++ t :: us)) ↔ NoOpen (t :: us) :=
  @noOpen_append_cons t (u :: ts) us

@[simp] theorem noOpen_cons_cons : NoOpen (t :: u :: us) ↔ NoOpen (u :: us) :=
  @noOpen_append_cons u [t] us

/-- A token in front is the last one only if no others follow. Counterpart of `NoOpen`. -/
theorem NoOpen.cons (h : NoOpen ts) (ht : t.kind ≠ .symbol .leftParen) : NoOpen (t :: ts) := by
  cases ts with
  | nil => simpa using ht
  | cons u ts => simpa using h

/-- Tokens one after the other do not end with an opening parenthesis if neither part does.
Counterpart of `NoOpen`. -/
theorem NoOpen.append (h : NoOpen ts) (h' : NoOpen us) : NoOpen (ts ++ us) := by
  cases us with
  | nil => simpa using h
  | cons t us => simpa using h'

end

/-- The token is a parenthesis. -/
def Kind.isParen (kind : Kind) : Bool :=
  kind = .symbol .leftParen || kind = .symbol .rightParen

/-- A literal is no parenthesis. Counterpart of `Kind.isParen`. -/
theorem isParen_of_literalKind? {kind : Kind} {literal : LiteralKind}
    (h : Parser.literalKind? kind = some literal) : kind.isParen = false := by
  cases kind with
  | symbol mark => cases mark <;> first | rfl | cases h
  | _ => rfl

/-- An operator between operands is no parenthesis. Counterpart of `Kind.isParen`. -/
theorem isParen_of_binary? {kind : Kind} {op : BinaryOp} (h : BinaryOp.ofKind? kind = some op) :
    kind.isParen = false := by
  rw [BinaryOp.eq_kind_of_ofKind? h]
  cases op <;> rfl

/-- An operator before an operand is no parenthesis. Counterpart of `Kind.isParen`. -/
theorem isParen_of_unary? {kind : Kind} {op : UnaryOp} (h : UnaryOp.ofKind? kind = some op) :
    kind.isParen = false := by
  rw [UnaryOp.eq_kind_of_ofKind? h]
  cases op <;> rfl

/-! ## Empty pairs of parentheses -/

section
variable {l r t : Token} {ts us : List Token}

/-- Two tokens stand together at the start of a list or later. Counterpart of `List.IsInfix` for
pairs. -/
theorem pair_infix_cons :
    [l, r] <:+: t :: ts ↔ (l = t ∧ ts.head? = some r) ∨ [l, r] <:+: ts := by
  rw [List.infix_cons_iff, List.cons_prefix_cons]
  cases ts with
  | nil => simp
  | cons next rest => simp [eq_comm]

/-- Two tokens stand together in one of two lists or where the lists meet. Counterpart of
`List.IsInfix` for pairs. -/
theorem pair_infix_append :
    [l, r] <:+: ts ++ us ↔
      [l, r] <:+: ts ∨ (ts.getLast? = some l ∧ us.head? = some r) ∨ [l, r] <:+: us := by
  induction ts with
  | nil => simp
  | cons t ts ih =>
    rw [List.cons_append, pair_infix_cons, pair_infix_cons, ih]
    cases ts with
    | nil =>
      simp only [List.nil_append, List.head?_nil, List.getLast?_singleton, Option.some.injEq]
      grind
    | cons next rest => simp [or_assoc]

/-- An empty pair of parentheses does not stand where two lists meet, if the first does not end with
an opening one. Counterpart of `pair_infix_append`. -/
theorem pair_append (hl : l.kind = .symbol .leftParen) (h : NoOpen ts) :
    [l, r] <:+: ts ++ us ↔ [l, r] <:+: ts ∨ [l, r] <:+: us := by
  rw [pair_infix_append]
  refine or_congr_right (or_iff_right ?_)
  rintro ⟨hlast, -⟩
  exact h l hlast hl

/-- An empty pair of parentheses does not start with another token. Counterpart of
`pair_infix_cons`. -/
theorem pair_cons (hl : l.kind = .symbol .leftParen) (h : t.kind ≠ .symbol .leftParen) :
    [l, r] <:+: t :: ts ↔ [l, r] <:+: ts := by
  rw [pair_infix_cons]
  refine or_iff_right ?_
  rintro ⟨rfl, -⟩
  exact h hl

end

/-- A node has an empty pair of parentheses, and its parts are before or after it. -/
structure Node.Encloses (l r : Token) (node : Node) : Prop where
  hasEmptyParens : node.shape.hasEmptyParens = true
  start_le : node.span.start ≤ l.start
  le_stop : r.stop ≤ node.span.stop
  apart : ∀ child ∈ node.children, child.span.stop ≤ l.start ∨ r.stop ≤ child.span.start

/-- An empty pair of parentheses belongs to a part of the node. -/
def Node.HasPair (l r : Token) (node : Node) : Prop :=
  ∃ part : Node, part.Part node ∧ part.Encloses l r

section
variable {l r : Token} {node : Node}

/-- A pair that belongs to a part of a child belongs to a part of the node. Counterpart of
`Node.HasPair`. -/
theorem Node.HasPair.parent (h : ∃ child ∈ node.children, child.HasPair l r) :
    node.HasPair l r := by
  obtain ⟨child, hmem, part, hpart, hencloses⟩ := h
  exact ⟨part, .child hmem hpart, hencloses⟩

/-- Parentheses around a node leave it its pairs. Counterpart of `Node.parenthesise`. -/
theorem Node.HasPair.parenthesise (h : node.HasPair l r) : node.parenthesise.HasPair l r := by
  obtain ⟨part, hpart, hencloses⟩ := h
  obtain ⟨number, shape, span, inParens⟩ := node
  cases hpart with
  | self =>
    exact ⟨_, .self _, hencloses.hasEmptyParens, hencloses.start_le, hencloses.le_stop,
      hencloses.apart⟩
  | child hchild hpart => exact ⟨part, .child hchild hpart, hencloses⟩

/-- A node with an empty pair of parentheses, from what is before and after the pair. Counterpart of
`Node.HasPair`. -/
theorem Node.HasPair.own {isApart : Bool} {number a b c : Nat} {shape : Shape Node}
    {front back : List Token} {before after : List Node}
    (hordered : Ordered (front ++ l :: r :: back))
    (hshape : shape.hasEmptyParens = true) (hchildren : shape.children = before ++ after)
    (hfront : ∀ stop, Yields isApart stop a b front before)
    (hback : ∀ stop, Yields isApart stop b c back after) :
    (nodeOf number shape (front ++ l :: r :: back)).HasPair l r := by
  have hl : l ∈ front ++ l :: r :: back := by simp
  have hr := hordered.stop_le (by simp : r ∈ front ++ l :: r :: back)
  have hsplit : Ordered ((front ++ [l, r]) ++ back) := by simpa using hordered
  have hbefore := (hfront l.start).placed hordered.left (fun _ _ => Nat.zero_le _)
    (fun token hmem => hordered.stop_le_start hmem (by simp)) (Nat.zero_le _)
  have hafter := (hback (tokensSpan (front ++ l :: r :: back)).stop).placed hsplit.right
    (fun token hmem => hsplit.stop_le_start (by simp) hmem)
    (fun token hmem => hordered.stop_le (by simp [hmem])) hr
  refine ⟨_, .self _, hshape, hordered.start_le hl, hr, fun child hmem => ?_⟩
  rw [Node.children, Node.shape_mk, hchildren] at hmem
  rcases List.mem_append.1 hmem with hmem | hmem
  · exact .inl (hbefore.bounds hmem).2.2
  · exact .inr (hafter.bounds hmem).1

end

/-! ## The pairs of a derivation -/

/-- The tokens are those of the nodes. They do not start with a closing parenthesis or end with an
opening one, and every empty pair among them belongs to a part of the nodes. -/
structure Finds (ts : List Token) (nodes : List Node) : Prop where
  noClose : NoClose ts
  noOpen : NoOpen ts
  found : ∀ l r, l.kind = .symbol .leftParen → r.kind = .symbol .rightParen → Ordered ts →
    [l, r] <:+: ts → ∃ node ∈ nodes, node.HasPair l r

namespace Finds

variable {t : Token} {ts us : List Token} {nodes others : List Node} {kind : Kind}

/-- Without tokens there is no pair. Counterpart of `Finds` for a rule that reads nothing. -/
theorem nil (nodes : List Node) : Finds [] nodes :=
  ⟨noClose_nil, noOpen_nil, fun _ _ _ _ _ h => by simp at h⟩

/-- A token that is no parenthesis opens no pair. Counterpart of `Finds` for the marks and keywords
of a rule. -/
theorem token (ht : t.kind = kind) (hkind : kind.isParen = false) (h : Finds ts nodes) :
    Finds (t :: ts) nodes := by
  have hparen : t.kind ≠ .symbol .leftParen ∧ t.kind ≠ .symbol .rightParen := by
    simpa [Kind.isParen, ← ht] using hkind
  refine ⟨noClose_cons.2 hparen.2, h.noOpen.cons hparen.1, fun l r hl hr hordered hpair => ?_⟩
  exact h.found l r hl hr (hordered.sublist (List.sublist_cons_self t ts))
    ((pair_cons hl hparen.1).1 hpair)

/-- The tokens of nodes one after the other hold the pairs of both, as none stands where they meet.
Counterpart of `List.append` for `Finds`. -/
theorem append (h : Finds ts nodes) (h' : Finds us others) :
    Finds (ts ++ us) (nodes ++ others) := by
  refine ⟨h.noClose.append h'.noClose, h.noOpen.append h'.noOpen,
    fun l r hl hr hordered hpair => ?_⟩
  rcases (pair_append hl h.noOpen).1 hpair with hpair | hpair
  · obtain ⟨node, hmem, hfound⟩ := h.found l r hl hr hordered.left hpair
    exact ⟨node, List.mem_append_left others hmem, hfound⟩
  · obtain ⟨node, hmem, hfound⟩ := h'.found l r hl hr hordered.right hpair
    exact ⟨node, List.mem_append_right nodes hmem, hfound⟩

/-- A token that is no parenthesis closes no pair. Counterpart of `Finds` for the last mark of a
rule. -/
theorem close (h : Finds ts nodes) (ht : t.kind = kind) (hkind : kind.isParen = false) :
    Finds (ts ++ [t]) nodes := by
  rw [← List.append_nil nodes]
  exact h.append (.token ht hkind (.nil []))

/-- The pairs of the parts of a node belong to the node. Counterpart of `Finds` for a rule that
makes a node. -/
theorem one {number : Nat} {shape : Shape Node} {span : Span} (h : Finds ts shape.children) :
    Finds ts [⟨number, shape, span, false⟩] :=
  ⟨h.noClose, h.noOpen, fun l r hl hr hordered hpair =>
    ⟨_, List.mem_singleton_self _, .parent (h.found l r hl hr hordered hpair)⟩⟩

/-- A name holds no pair. Counterpart of `Finds` for `Derives.identifier`. -/
theorem name {number : Nat} (ht : t.kind = .identifier) : Finds [t] [nameOf number t] :=
  one (.token ht rfl (.nil []))

/-- Parentheses around a node leave it its pairs. Counterpart of `Finds` for `Derives.parens`. -/
theorem parenthesise {node : Node} (h : Finds ts [node]) : Finds ts [node.parenthesise] := by
  refine ⟨h.noClose, h.noOpen, fun l r hl hr hordered hpair => ?_⟩
  obtain ⟨other, hmem, hfound⟩ := h.found l r hl hr hordered hpair
  obtain rfl := List.mem_singleton.1 hmem
  exact ⟨_, List.mem_singleton_self _, hfound.parenthesise⟩

/-- Parentheses around something are no empty pair. Counterpart of `Finds` for rules with
parentheses. -/
theorem enclose {first last : Token} (hfirst : first.kind = .symbol .leftParen)
    (hlast : last.kind = .symbol .rightParen) (hne : ts ≠ []) (h : Finds ts nodes) :
    Finds (first :: (ts ++ [last])) nodes := by
  refine ⟨by simp [hfirst], by simp [hlast], fun l r hl hr hordered hpair => ?_⟩
  have hsub : ts.Sublist (first :: (ts ++ [last])) :=
    (List.sublist_append_left ts [last]).trans (List.sublist_cons_self first _)
  refine h.found l r hl hr (hordered.sublist hsub) ?_
  rcases pair_infix_cons.1 hpair with ⟨-, hhead⟩ | hpair
  · exact absurd hr (h.noClose.append_of_ne_nil hne r hhead)
  · rcases (pair_append hl h.noOpen).1 hpair with hpair | hpair
    · exact hpair
    · exact absurd ((pair_cons hl (by simp [hlast])).1 hpair) (by simp)

/-- A node with an empty pair of parentheses of its own. Counterpart of `Finds` for
`Derives.call`. -/
theorem own {isApart : Bool} {number a b c : Nat} {shape : Shape Node} {first last : Token}
    {front back : List Token} {before after : List Node}
    (hfirst : first.kind = .symbol .leftParen) (hlast : last.kind = .symbol .rightParen)
    (hne : front ≠ []) (hshape : shape.hasEmptyParens = true)
    (hchildren : shape.children = before ++ after)
    (hbefore : ∀ stop, Yields isApart stop a b front before)
    (hafter : ∀ stop, Yields isApart stop b c back after)
    (h : Finds front before) (h' : Finds back after) :
    Finds (front ++ first :: last :: back)
      [nodeOf number shape (front ++ first :: last :: back)] := by
  have hend : NoOpen (last :: back) := h'.noOpen.cons (by simp [hlast])
  refine ⟨h.noClose.append_of_ne_nil hne, by simpa using hend, fun l r hl hr hordered hpair => ?_⟩
  refine ⟨_, List.mem_singleton_self _, ?_⟩
  have hparts : (∃ child ∈ before ++ after, child.HasPair l r) →
      (nodeOf number shape (front ++ first :: last :: back)).HasPair l r := by
    rw [← hchildren]
    exact fun h => .parent h
  rcases (pair_append hl h.noOpen).1 hpair with hpair | hpair
  · obtain ⟨child, hmem, hfound⟩ := h.found l r hl hr hordered.left hpair
    exact hparts ⟨child, List.mem_append_left after hmem, hfound⟩
  · rcases pair_infix_cons.1 hpair with ⟨rfl, hhead⟩ | hpair
    · cases hhead
      exact .own hordered hshape hchildren hbefore hafter
    · obtain ⟨child, hmem, hfound⟩ := h'.found l r hl hr (hordered.right.sublist (by simp))
        ((pair_cons hl (by simp [hlast])).1 hpair)
      exact hparts ⟨child, List.mem_append_right before hmem, hfound⟩

/-- A function, whose name and the keywords before it are read from the tokens in front. Counterpart
of `Finds` for the three rules for functions. -/
theorem routine {isApart : Bool} {number n a b c : Nat} {isLocal : Bool} {name : Option Node}
    {first last e : Token} {front ps bs : List Token} {parameters body : List Node}
    (hfirst : first.kind = .symbol .leftParen) (hlast : last.kind = .symbol .rightParen)
    (he : e.kind = .keyword .endK) (hne : front ≠ [])
    (hname : ∀ stop, Yields isApart stop n a front name.toList)
    (hparameters : Derives isApart .parameters a b ps parameters)
    (hbody : Derives isApart .block b c bs body) (h : Finds front name.toList)
    (hps : Finds ps parameters) (hbs : Finds bs body) :
    Finds (front ++ LuaFormatter.routine first ps last bs e)
      [nodeOf number (.function isLocal name parameters body)
        (front ++ LuaFormatter.routine first ps last bs e)] := by
  have hend := hbs.close he rfl
  by_cases hnil : ps = []
  · subst hnil
    obtain ⟨rfl, rfl⟩ : parameters = [] ∧ a = b := by
      cases hparameters with
      | noParameters => exact ⟨rfl, rfl⟩
    exact own hfirst hlast hne rfl (by simp [Shape.children]) hname
      (fun stop => hbody.yields.close e) h hend
  · have hlist := (h.append (hps.enclose hfirst hlast hnil)).append hend
    have htokens : front ++ first :: (ps ++ [last]) ++ (bs ++ [e]) =
        front ++ LuaFormatter.routine first ps last bs e := by simp
    rw [htokens] at hlist
    exact one hlist

end Finds

/-- The tokens of a derivation are those of its nodes, and so are their empty pairs. Counterpart of
`Shape.hasEmptyParens`. -/
theorem Derives.finds {isApart : Bool} {rule : Rule} {a b : Nat} {ts : List Token}
    {nodes : List Node} (h : Derives isApart rule a b ts nodes) : Finds ts nodes := by
  induction h with
  | identifier ht => exact .name ht
  | literal ht => exact .one (.token rfl (isParen_of_literalKind? ht) (.nil _))
  | parens hl hr h ih => exact .enclose hl hr (h.ne_nil rfl) ih.parenthesise
  | table hl hr h ih => exact .one (.token hl rfl (ih.close hr rfl))
  | function hf hl hr he hp hb ihp ihb =>
    exact .routine hl hr he (List.cons_ne_nil _ _)
      (fun _ => .token _ .nil) hp hb (.token hf rfl (.nil _)) ihp ihb
  | member hd ht hcan h ih => exact .one (ih.append (.token hd rfl (.name ht)))
  | index hl hr hcan h hk ih ihk => exact .one (ih.append (.token hl rfl (ihk.close hr rfl)))
  | @call a b c l r ts us base arguments hl hr h hus ih ihus =>
    by_cases hnil : us = []
    · subst hnil
      obtain ⟨rfl, rfl⟩ : arguments = [] ∧ b = c := by
        cases hus with
        | noArguments => exact ⟨rfl, rfl⟩
        | someArguments h => exact absurd rfl (h.ne_nil rfl)
      exact .own hl hr (h.ne_nil rfl) rfl rfl (fun _ => h.yields) (fun _ => .nil) ih (.nil _)
    · exact .one (ih.append (ihus.enclose hl hr hnil))
  | tableCall hl hr h hus ih ihus =>
    exact .one (ih.append (.one (.token hl rfl (ihus.close hr rfl))))
  | stringCall ht hs h ih =>
    exact .one (ih.append (.one (.token rfl (isParen_of_literalKind? ht) (.nil _))))
  | plain _ _ ih | lastExpression _ ih | someArguments _ ih | lastField _ ih | nameDotted _ ih
  | lastClause _ ih => exact ih
  | method hd ht hcan h ih => exact .one (ih.append (.token hd rfl (.name ht)))
  | unary hop ha h ih => exact .one (.token rfl (isParen_of_unary? hop) ih)
  | binary hop hb ha hl hr ihl ihr =>
    exact .one (ihl.append (.token rfl (isParen_of_binary? hop) ihr))
  | moreExpressions hc _ _ ih ihs => exact ih.append (.token hc rfl ihs)
  | noArguments | noParameters | noFields | emptyBlock => exact .nil _
  | lastName ht | lastParameter ht | nameStart ht => exact .name ht
  | moreNames ht hc _ ih | moreParameters ht hc _ _ ih =>
    exact (Finds.name ht).append (.token hc rfl ih)
  | varargs ht => exact .one (.token ht rfl (.nil _))
  | keyField hl hr he hk hv ihk ihv =>
    exact .one (.token hl rfl (ihk.append (.token hr rfl (.token he rfl ihv))))
  | nameField ht he h ih => exact .one ((Finds.name ht).append (.token he rfl ih))
  | valueField h ih => exact .one ih
  | moreFields ht _ _ ih ihs =>
    rcases ht with ht | ht
    · exact ih.append (.token ht rfl ihs)
    · exact ih.append (.token ht rfl ihs)
  | nameMember hd ht h ih | nameMethod hd ht h ih =>
    exact .one (ih.append (.token hd rfl (.name ht)))
  | declaration hk h ih =>
    refine .one (.token hk rfl ?_)
    rw [Shape.children, List.append_nil]
    exact ih
  | definition hk he h hv ih ihv => exact .one (.token hk rfl (ih.append (.token he rfl ihv)))
  | localFunction hk hf ht hl hr he hp hb ihp ihb =>
    exact @Finds.routine _ _ _ _ _ _ _ (some _) _ _ _ [_, _, _] _ _ _ _ hl hr he
      (List.cons_ne_nil _ _)
      (fun _ => .token _ (.token _ (.name ht))) hp hb (.token hk rfl (.token hf rfl (.name ht)))
      ihp ihb
  | globalFunction hf hl hr he hn hp hb ihn ihp ihb =>
    exact @Finds.routine _ _ _ _ _ _ _ (some _) _ _ _ (_ :: _) _ _ _ _ hl hr he
      (List.cons_ne_nil _ _) (fun _ => .token _ hn.yields) hp hb (.token hf rfl ihn) ihp ihb
  | assignment he ht h hv ih ihv => exact .one (ih.append (.token he rfl ihv))
  | callStatement hc h ih => exact .one ih
  | conditional hk he h ih => exact .one (ih.close he rfl)
  | whileLoop hk hd he h hb ih ihb =>
    exact .one (.token hk rfl (ih.append (.token hd rfl (ihb.close he rfl))))
  | doBlock hk he h ih => exact .one (.token hk rfl (ih.close he rfl))
  | repeatLoop hk hu hb h ihb ih => exact .one (.token hk rfl (ihb.append (.token hu rfl ih)))
  | numericFor hk ht he hm ho hf h hl hb ih ihl ihb =>
    exact .one (.token hk rfl ((Finds.name ht).append (.token he rfl (ih.append
      (.token hm rfl (ihl.append (.token ho rfl (ihb.close hf rfl))))))))
  | steppedFor hk ht he hm hp ho hf h hl hs hb ih ihl ihs ihb =>
    exact .one (.token hk rfl ((Finds.name ht).append (.token he rfl (ih.append
      (.token hm rfl (ihl.append (.token hp rfl (ihs.append
        (.token ho rfl (ihb.close hf rfl))))))))))
  | genericFor hk hi ho hf hn hv hb ihn ihv ihb =>
    refine .one (.token hk rfl ?_)
    rw [Shape.children, List.append_assoc]
    exact ihn.append (.token hi rfl (ihv.append (.token ho rfl (ihb.close hf rfl))))
  | breakStatement hk => exact .one (.token hk rfl (.nil _))
  | gotoStatement hk ht => exact .one (.token hk rfl (.name ht))
  | labelStatement hl ht hr => exact .one (.token hl rfl ((Finds.name ht).close hr rfl))
  | semicolon ht _ ih => exact .token ht rfl ih
  | moreStatements _ _ _ ih ihs => exact ih.append ihs
  | returnStatement hk hends h ih =>
    refine .one (.token hk rfl ?_)
    rcases hends with rfl | ⟨s, hs, rfl⟩
    · rw [List.append_nil]
      exact ih
    · exact ih.close hs rfl
  | clause hk ht h hb ih ihb =>
    rcases hk with hk | hk
    · exact .one (.token hk rfl (ih.append (.token ht rfl ihb)))
    · exact .one (.token hk rfl (ih.append (.token ht rfl ihb)))
  | elseClause hk h ih => exact .one (.token hk rfl ih)
  | moreClauses _ _ _ _ ih ihs => exact ih.append ihs

end LuaFormatter
