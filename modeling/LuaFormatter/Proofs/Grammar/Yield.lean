import LuaFormatter.Proofs.Grammar.Derivation

/-!
# The tokens of a tree

A coarser view of derivations. `Yields` says that tokens are those of some nodes, one after the
other, with tokens of the surrounding construct between them; every node comes with its own
derivation and its span, which for a branch reaches up to the token that follows. All derivations
are of this kind (`Derives.yields`), so what holds for all nodes of a tree is shown by induction
over three cases instead of one for each form of the grammar: here, that every part of a tree has
its own tokens (`Yields.part`).
-/

namespace LuaFormatter

/-- The node without the parentheses around it. -/
def Node.bare : Node → Node
  | mk number shape span _ => mk number shape span false

@[simp] theorem Node.shape_mk (number : Nat) (shape : Shape Node) (span : Span) (inParens : Bool) :
    (Node.mk number shape span inParens).shape = shape := rfl

@[simp] theorem Node.shape_parenthesise (node : Node) : node.parenthesise.shape = node.shape := by
  cases node
  rfl

@[simp] theorem Node.span_parenthesise (node : Node) : node.parenthesise.span = node.span := by
  cases node
  rfl

@[simp] theorem Node.shape_bare (node : Node) : node.bare.shape = node.shape := by
  cases node
  rfl

/-- The shape is a branch of a conditional. -/
def Shape.isClause {α : Type} : Shape α → Bool
  | clause _ _ _ => true
  | _ => false

/-- Where the first of the tokens starts, or another offset if there are none. -/
def startOr (stop : Nat) (tokens : List Token) : Nat :=
  (tokens.head?.map Token.start).getD stop

/-- Where two lists of tokens start. Counterpart of `startOr`. -/
theorem startOr_append (stop : Nat) (front back : List Token) :
    startOr stop (front ++ back) = startOr (startOr stop back) front := by
  cases front <;> rfl

/-- The span of a node with tokens that are followed by what starts at an offset. -/
def Shape.spanOf (shape : Shape Node) (tokens : List Token) (stop : Nat) : Span :=
  if shape.isClause then ⟨(tokensSpan tokens).start, max stop (tokensSpan tokens).start⟩
  else tokensSpan tokens

/-- The tokens are those of the nodes, with tokens of another construct between them, and what comes
after them starts at an offset. The nodes and their parts have the numbers from a first one up to a
next one. -/
inductive Yields (isApart : Bool) : Nat → Nat → Nat → List Token → List Node → Prop
  | nil {stop n : Nat} : Yields isApart stop n n [] []
  | token {stop a b : Nat} {ts : List Token} {nodes : List Node} (t : Token) :
    Yields isApart stop a b ts nodes → Yields isApart stop a b (t :: ts) nodes
  | node {stop a b c : Nat} {us ts : List Token} {nodes : List Node} {shape : Shape Node}
    {span : Span} {rule : Rule} (inParens : Bool) :
    Derives isApart rule a (b + 1) us [⟨b, shape, span, false⟩] → us ≠ [] →
    span = shape.spanOf us (startOr stop ts) → Yields isApart span.stop a b us shape.children →
    Yields isApart stop (b + 1) c ts nodes →
    Yields isApart stop a c (us ++ ts) (⟨b, shape, span, inParens⟩ :: nodes)

namespace Yields

variable {isApart : Bool} {stop a b c : Nat} {ts us : List Token} {nodes others : List Node}

/-- Rules one after the other read their tokens and make their nodes one after the other.
Counterpart of `Yields`. -/
theorem append (h : Yields isApart (startOr stop us) a b ts nodes)
    (h' : Yields isApart stop b c us others) :
    Yields isApart stop a c (ts ++ us) (nodes ++ others) := by
  generalize hstop : startOr stop us = next at h
  induction h with
  | nil => exact h'
  | token t _ ih => exact .token t (ih h' hstop)
  | node inParens hderives hne hspan hparts _ _ ih =>
    subst hstop
    rw [List.append_assoc]
    exact .node inParens hderives hne (by rw [hspan, startOr_append]) hparts (ih h' rfl)

/-- A single node. Counterpart of `Yields` for a rule that makes a node. -/
theorem one {shape : Shape Node} {span : Span} {rule : Rule}
    (h : Derives isApart rule a (b + 1) ts [⟨b, shape, span, false⟩]) (hne : ts ≠ [])
    (hspan : span = shape.spanOf ts stop)
    (hparts : Yields isApart span.stop a b ts shape.children) :
    Yields isApart stop a (b + 1) ts [⟨b, shape, span, false⟩] := by
  rw [← List.append_nil ts]
  exact .node false h hne hspan hparts .nil

/-- A token at the end. Counterpart of `Yields` for the last mark of a rule. -/
theorem close (t : Token) (h : Yields isApart t.start a b ts nodes) :
    Yields isApart stop a b (ts ++ [t]) nodes := by
  rw [← List.append_nil nodes]
  exact append h (.token t .nil)

/-- Parentheses around a node leave what was read for it. Counterpart of `Node.parenthesise`. -/
theorem parenthesise {node : Node} (h : Yields isApart stop a b ts [node]) :
    Yields isApart stop a b ts [node.parenthesise] := by
  generalize hnodes : [node] = nodes at h
  induction h with
  | nil => cases hnodes
  | token t _ ih => exact .token t (ih hnodes)
  | node inParens hderives hne hspan hparts hrest _ _ =>
    cases hnodes
    exact .node true hderives hne hspan hparts hrest

/-- A name is read from its token. Counterpart of `Derives.identifier`. -/
theorem name {n : Nat} {t : Token} (h : t.kind = .identifier) :
    Yields isApart stop n (n + 1) [t] [nameOf n t] :=
  one (.identifier h) (by simp) rfl (.token t .nil)

end Yields

/-- Where the branches of a rule end, or another offset for rules without branches. -/
def Rule.stopOr (stop : Nat) : Rule → Nat
  | clause offset | clauses offset => offset
  | _ => stop

/-- The tokens of a derivation are those of its nodes. Counterpart of `Derives`. -/
theorem Derives.yields {isApart : Bool} {rule : Rule} {stop a b : Nat} {ts : List Token}
    {nodes : List Node} (h : Derives isApart rule a b ts nodes) :
    Yields isApart (rule.stopOr stop) a b ts nodes := by
  induction h generalizing stop with
  | identifier ht => exact .name ht
  | literal ht => exact .one (.literal ht) (by simp) rfl (.token _ .nil)
  | parens _ _ _ ih => exact .token _ (ih.parenthesise.close _)
  | table hl hr h ih => exact .one (.table hl hr h) (by simp) rfl (.token _ (ih.close _))
  | function hf hl hr he hps hbs ihp ihb =>
    exact .one (.function hf hl hr he hps hbs) (by simp) rfl
      (.token _ (.token _ (ihp.append (.token _ (ihb.close _)))))
  | member hd ht hcan h ih =>
    exact .one (.member hd ht hcan h) (by simp) rfl (ih.append (.token _ (.name ht)))
  | index hl hr hcan h hk ih ihk =>
    exact .one (.index hl hr hcan h hk) (by simp) rfl (ih.append (.token _ (ihk.close _)))
  | call hl hr h hus ih ihus =>
    exact .one (.call hl hr h hus) (by simp) rfl (ih.append (.token _ (ihus.close _)))
  | tableCall hl hr h hus ih ihus =>
    exact .one (.tableCall hl hr h hus) (by simp) rfl
      (ih.append (.one (.table hl hr hus) (by simp) rfl (.token _ (ihus.close _))))
  | stringCall ht hs h ih =>
    exact .one (.stringCall ht hs h)
      (by simp) rfl (ih.append (.one (.literal ht) (by simp) rfl (.token _ .nil)))
  | plain _ _ ih => exact ih
  | method hd ht hcan h ih =>
    exact .one (.method hd ht hcan h) (by simp) rfl (ih.append (.token _ (.name ht)))
  | unary ht ha h ih => exact .one (.unary ht ha h) (by simp) rfl (.token _ ih)
  | binary ht hb ha hl hr ihl ihr =>
    exact .one (.binary ht hb ha hl hr) (by simp) rfl (ihl.append (.token _ ihr))
  | lastExpression _ ih => exact ih
  | moreExpressions _ _ _ ih ihs => exact ih.append (.token _ ihs)
  | noArguments => exact .nil
  | someArguments _ ih => exact ih
  | lastName ht => exact .name ht
  | moreNames ht _ _ ih => exact (Yields.name ht).append (.token _ ih)
  | noParameters => exact .nil
  | lastParameter ht => exact .name ht
  | varargs ht => exact .one (.literal (by rw [ht]; rfl)) (by simp) rfl (.token _ .nil)
  | moreParameters ht _ _ _ ih => exact (Yields.name ht).append (.token _ ih)
  | keyField hl hr he hk hv ihk ihv =>
    exact .one (.keyField hl hr he hk hv)
      (by simp) rfl (.token _ (ihk.append (.token _ (.token _ ihv))))
  | nameField ht he h ih =>
    exact .one (.nameField ht he h) (by simp) rfl ((Yields.name ht).append (.token _ ih))
  | valueField h ih => exact .one (.valueField h) (h.ne_nil rfl) rfl ih
  | noFields => exact .nil
  | lastField _ ih => exact ih
  | moreFields _ _ _ ih ihs => exact ih.append (.token _ ihs)
  | nameStart ht => exact .name ht
  | nameMember hd ht h ih =>
    exact .one (.nameMember hd ht h) (by simp) rfl (ih.append (.token _ (.name ht)))
  | nameDotted _ ih => exact ih
  | nameMethod hd ht h ih =>
    exact .one (.nameMethod hd ht h) (by simp) rfl (ih.append (.token _ (.name ht)))
  | declaration hk h ih =>
    refine .one (.declaration hk h) (by simp) rfl (.token _ ?_)
    rw [Shape.children, List.append_nil]
    exact ih
  | definition hk he h hv ih ihv =>
    exact .one (.definition hk he h hv) (by simp) rfl (.token _ (ih.append (.token _ ihv)))
  | localFunction hk hf ht hl hr he hps hbs ihp ihb =>
    exact .one (.localFunction hk hf ht hl hr he hps hbs) (by simp) rfl
      (.token _ (.token _ ((Yields.name ht).append
        (.token _ (ihp.append (.token _ (ihb.close _)))))))
  | globalFunction hf hl hr he hn hps hbs ihn ihp ihb =>
    refine .one (.globalFunction hf hl hr he hn hps hbs) (by simp) rfl (.token _ ?_)
    exact (ihn.append (.token _ (ihp.append (.token _ (ihb.close _)))))
  | assignment he ht h hv ih ihv =>
    exact .one (.assignment he ht h hv) (by simp) rfl (ih.append (.token _ ihv))
  | callStatement hc h ih => exact .one (.callStatement hc h) (h.ne_nil rfl) rfl ih
  | conditional hk he h ih => exact .one (.conditional hk he h) (by simp) rfl ((@ih 0).close _)
  | whileLoop hk hd he h hb ih ihb =>
    exact .one (.whileLoop hk hd he h hb)
      (by simp) rfl (.token _ (ih.append (.token _ (ihb.close _))))
  | doBlock hk he h ih => exact .one (.doBlock hk he h) (by simp) rfl (.token _ (ih.close _))
  | repeatLoop hk hu hb h ihb ih =>
    exact .one (.repeatLoop hk hu hb h) (by simp) rfl (.token _ (ihb.append (.token _ ih)))
  | numericFor hk ht he hm ho hf h hl hb ih ihl ihb =>
    refine .one (.numericFor hk ht he hm ho hf h hl hb) (by simp) rfl (.token _ ?_)
    exact (Yields.name ht).append (.token _ (ih.append (.token _ (ihl.append
      (.token _ (ihb.close _))))))
  | steppedFor hk ht he hm hp ho hf h hl hs hb ih ihl ihs ihb =>
    refine .one (.steppedFor hk ht he hm hp ho hf h hl hs hb) (by simp) rfl (.token _ ?_)
    exact (Yields.name ht).append (.token _ (ih.append (.token _ (ihl.append
      (.token _ (ihs.append (.token _ (ihb.close _))))))))
  | genericFor hk hi ho hf hn hv hb ihn ihv ihb =>
    refine .one (.genericFor hk hi ho hf hn hv hb) (by simp) rfl (.token _ ?_)
    rw [Shape.children, List.append_assoc]
    exact ihn.append (.token _ (ihv.append (.token _ (ihb.close _))))
  | breakStatement hk => exact .one (.breakStatement hk) (by simp) rfl (.token _ .nil)
  | gotoStatement hk ht => exact .one (.gotoStatement hk ht) (by simp) rfl (.token _ (.name ht))
  | labelStatement hl ht hr =>
    exact .one (.labelStatement hl ht hr) (by simp) rfl (.token _ ((Yields.name ht).close _))
  | emptyBlock => exact .nil
  | semicolon _ _ ih => exact .token _ ih
  | moreStatements _ _ _ ih ihs => exact ih.append ihs
  | returnStatement hk hends h ih =>
    refine .one (.returnStatement hk hends h) (by simp) rfl (.token _ ?_)
    rcases hends with rfl | ⟨s, hs, rfl⟩
    · rw [List.append_nil]
      exact ih
    · exact ih.close s
  | clause hk ht h hb ih ihb =>
    exact .one (.clause hk ht h hb) (by simp) rfl (.token _ (ih.append (.token _ ihb)))
  | elseClause hk h ih => exact .one (.elseClause hk h) (by simp) rfl (.token _ ih)
  | lastClause _ ih => exact @ih 0
  | moreClauses _ _ _ _ ih ihs => exact (@ih 0).append (@ihs 0)

/-- A node is a part of itself, of its parent, of the parent of that, and so on. -/
inductive Node.Part : Node → Node → Prop
  | self (node : Node) : Part node node
  | child {part child node : Node} : child ∈ node.children → Part part child → Part part node

/-- A part of a part is a part. Counterpart of `Node.Part`. -/
theorem Node.Part.trans {inner part node : Node} (h : inner.Part part) (h' : part.Part node) :
    inner.Part node := by
  induction h' with
  | self => exact h
  | child hmem _ ih => exact .child hmem ih

/-- A part is no larger than the whole. Counterpart of `Node.size`. -/
theorem Node.Part.size_le {part node : Node} (h : part.Part node) : part.size ≤ node.size := by
  induction h with
  | self => exact Nat.le_refl _
  | child hchild _ ih => exact Nat.le_trans ih (Nat.le_of_lt (Node.size_lt_of_mem_children hchild))

/-- Two nodes that are parts of each other are the same. Counterpart of `Node.Part`. -/
theorem Node.Part.antisymm {part node : Node} (h : part.Part node) (h' : node.Part part) :
    part = node := by
  cases h with
  | self => rfl
  | child hchild hpart =>
    have := Node.size_lt_of_mem_children hchild
    have := hpart.size_le
    have := h'.size_le
    omega

/-- A child is a part. Counterpart of `Node.children`. -/
theorem Node.Part.of_mem_children {child node : Node} (h : child ∈ node.children) :
    child.Part node :=
  .child h (.self child)

namespace Yields

variable {isApart : Bool} {stop a b : Nat} {ts : List Token} {nodes : List Node}

/-- Numbers only grow. Counterpart of `Yields`. -/
theorem le (h : Yields isApart stop a b ts nodes) : a ≤ b := by
  induction h with
  | nil => omega
  | token _ _ ih => exact ih
  | node _ _ _ _ _ _ ih ihs => omega

/-- Every part of the nodes has its own derivation, from tokens that stand together. Counterpart of
`Node.Part`. -/
theorem part (h : Yields isApart stop a b ts nodes) {node part : Node} (hmem : node ∈ nodes)
    (hpart : part.Part node) :
    ∃ (rule : Rule) (first : Nat) (front us back : List Token), ts = front ++ (us ++ back) ∧
      a ≤ first ∧ part.number < b ∧ us ≠ [] ∧
      (part.shape.isClause = false → part.span = tokensSpan us) ∧
      Derives isApart rule first (part.number + 1) us [part.bare] ∧
      Yields isApart part.span.stop first part.number us part.children := by
  induction h generalizing node with
  | nil => simp at hmem
  | token t _ ih =>
    obtain ⟨rule, first, front, us, back, rfl, hfacts⟩ := ih hmem hpart
    exact ⟨rule, first, t :: front, us, back, rfl, hfacts⟩
  | @node stop a b c us ts nodes shape span rule inParens hderives hne hspan hparts hrest ihparts
      ihrest =>
    have hle := hparts.le
    have hle' := hrest.le
    rcases List.mem_cons.1 hmem with rfl | hmem
    · cases hpart with
      | self =>
        refine ⟨rule, a, [], us, ts, rfl, Nat.le_refl a, ?_, hne, ?_, hderives, hparts⟩
        · show b < c
          omega
        · intro hclause
          have hclause : shape.isClause = false := hclause
          simpa [Shape.spanOf, hclause, Node.span] using hspan
      | child hchild hpart =>
        obtain ⟨rule, first, front, vs, back, rfl, ha, hb, hfacts⟩ := ihparts hchild hpart
        exact ⟨rule, first, front, vs, back ++ ts, by simp, ha, by omega, hfacts⟩
    · obtain ⟨rule, first, front, vs, back, rfl, ha, hb, hfacts⟩ := ihrest hmem hpart
      exact ⟨rule, first, us ++ front, vs, back, by simp, by omega, hb, hfacts⟩

end Yields

end LuaFormatter
