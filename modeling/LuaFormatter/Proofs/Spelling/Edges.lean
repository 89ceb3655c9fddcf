import LuaFormatter.Proofs.Format.Neat
import LuaFormatter.Proofs.Grammar.Priority
import LuaFormatter.Proofs.Grammar.Yield
import LuaFormatter.Proofs.Spelling.Paper

/-!
# The ends of an expression

What an expression is written with at its start and at its end decides which tokens may be put next
to it. `Edges` says it for the core of an expression, the tokens within its own parentheses: the
first token starts an expression; if it is an operator, a long string or a parenthesis, the tree
shows it; and a value that can be accessed or called ends in a token that a bracket or a dot may
follow.
-/

namespace LuaFormatter

/-- The shapes of what can be accessed or called without parentheses. -/
def Shape.isBase {α : Type} : Shape α → Bool
  | identifier _ | member _ _ _ | index _ _ | call _ _ | tableCall _ _ | stringCall _ _ => true
  | _ => false

namespace Node

/-- The first token of the expression is a long string. -/
def startsWithLongString : Node → Bool
  | mk _ (.literal .longString _) _ _ => true
  | mk _ (.binary _ left _) _ false => left.startsWithLongString
  | _ => false

/-- The key between brackets is written with a long string at its start, but is no long string, so
that nothing stands between the two brackets. -/
def hidesBracket (node : Node) : Bool :=
  match node.shape with
  | .index _ key | .keyField key _ => key.shape.isBinary && key.startsWithLongString
  | _ => false

/-- The access loses its parentheses, and starts with another parenthesis. -/
def hidesParen (node : Node) : Bool :=
  node.inParens &&
    match node.shape with
    | .member _ base _ | .index base _ => base.opensWithParen
    | _ => false

end Node

/-- An operation without parentheses starts with a parenthesis, or what a value belongs to does. -/
def Shape.opensWithParen : Shape Node → Bool
  | .binary _ _ _ => true
  | .member _ base _ | .index base _ | .call base _ | .tableCall base _ | .stringCall base _ =>
    base.opensWithParen
  | _ => false

/-- The first and the last token of the core of an expression. -/
structure Edges (node : Node) (core : List Slot) : Prop where
  first : ∃ kind text rest, core = .token kind text :: rest ∧ kind.startsExpression = true ∧
    (node.shape.isBase = true → kind.startsBase = true) ∧
    (kind = .longString → node.bare.startsWithLongString = true) ∧
    (∀ op, UnaryOp.ofKind? kind = some op → (∃ operand, node.shape = .unary op operand) ∨
      ∃ outer left right, node.shape = .binary outer left right ∧ outer ≠ .power) ∧
    (kind = .symbol .leftParen → (∀ part : Node, part.Part node → part.hidesParen = false) →
      node.shape.opensWithParen = true)
  last : node.shape.isBase = true → ∃ kind, pendingAfter none core = some kind ∧
    kind.closesBase = true

/-- The core of a node: its tokens without the parentheses around it. -/
abbrev core (context : Context) (place : Place) (node : Node) : List Slot :=
  coreSlots context place node (spell context)

section
variable {context : Context} {place : Place} {node : Node}

/-- Without comments a node is spelled as its core, in parentheses if it needs them. Counterpart of
`spell`. -/
theorem spell_eq_core (hcontext : context.attachments = []) :
    spell context place node =
      if needsParens place node then parenSlots (core context place node)
      else core context place node := by
  rw [spell_eq, commented_eq hcontext]

/-- Parentheses around a node leave its core. Counterpart of `Node.parenthesise`. -/
theorem core_parenthesise : core context place node.parenthesise = core context place node := by
  cases node
  rfl

/-- What hides no parenthesis in parentheses hides none without them. Counterpart of
`Node.hidesParen`. -/
theorem hidesParen_parenthesise_false (h : node.parenthesise.hidesParen = false) :
    node.hidesParen = false := by
  cases node with
  | mk number shape span inParens =>
    cases inParens with
    | false => rfl
    | true => exact h

/-- Slots in parentheses start and end with a parenthesis. Counterpart of `parenSlots`. -/
theorem pendingAfter_parenSlots (slots : List Slot) :
    pendingAfter none (parenSlots slots) = some (.symbol .rightParen) := by
  show pendingAfter (some (.symbol .leftParen)) (slots ++ [.soft, .symbol .rightParen]) = _
  rw [pendingAfter_append]
  rfl

/-- The parentheses of a base are dropped only where it needs none. Counterpart of `needsParens`. -/
theorem isBase_of_not_needsParens (hbase : node.inParens = true ∨ node.shape.isBase = true)
    (hparens : needsParens Place.base node ≠ true) : node.shape.isBase = true := by
  obtain ⟨number, shape, span, inParens⟩ := node
  cases shape with
  | literal kind _ => cases kind <;> simp_all [needsParens, Place.base, Shape.isBase, Node.inParens]
  | _ => simp_all [needsParens, Place.base, Shape.isBase, Node.inParens]

/-- An expression that keeps its parentheses starts with one. Counterpart of
`Node.opensWithParen`. -/
theorem Node.opensWithParen_of_needsParens (h : needsParens place node = true) :
    node.opensWithParen = true := by
  obtain ⟨hparens, hkept⟩ := Bool.and_eq_true_iff.1 h
  unfold Node.opensWithParen
  split <;> simp_all

/-- What can be accessed or called starts with a parenthesis if the tree shows one and none is
dropped. Counterpart of `Node.opensWithParen`. -/
theorem Node.opensWithParen_of_isBase (hbase : node.shape.isBase = true)
    (hopens : node.shape.opensWithParen = true) (hhides : node.hidesParen = false) :
    node.opensWithParen = true := by
  unfold Node.opensWithParen
  unfold Node.hidesParen at hhides
  unfold Shape.opensWithParen at hopens
  split <;> simp_all [Shape.isBase]

/-- What an access or a call starts with is written with a name or a parenthesis at its start.
Counterpart of `Edges`. -/
theorem Edges.base_first (hcontext : context.attachments = [])
    (h : Edges node (core context Place.base node))
    (hbase : node.inParens = true ∨ node.shape.isBase = true) :
    ∃ kind text rest, spell context Place.base node = .token kind text :: rest ∧
      kind.startsBase = true ∧
      (kind = .symbol .leftParen → (∀ part : Node, part.Part node → part.hidesParen = false) →
        node.opensWithParen = true) := by
  rw [spell_eq_core hcontext]
  by_cases hparens : needsParens Place.base node = true
  · rw [if_pos hparens]
    exact ⟨_, _, _, rfl, rfl, fun _ _ => node.opensWithParen_of_needsParens hparens⟩
  · rw [if_neg hparens]
    obtain ⟨kind, text, rest, hcore, -, hstarts, -, -, hopens⟩ := h.first
    have hshape := isBase_of_not_needsParens hbase hparens
    refine ⟨kind, text, rest, hcore, hstarts hshape, fun hkind hparts => ?_⟩
    exact node.opensWithParen_of_isBase hshape (hopens hkind hparts) (hparts node (.self node))

/-- A base ends with a token that ends before whatever goes on with it. Counterpart of
`Kind.closesBase`. -/
theorem Edges.base_last (hcontext : context.attachments = [])
    (h : Edges node (core context Place.base node))
    (hbase : node.inParens = true ∨ node.shape.isBase = true) :
    ∃ kind, pendingAfter none (spell context Place.base node) = some kind ∧
      kind.closesBase = true := by
  rw [spell_eq_core hcontext]
  by_cases hparens : needsParens Place.base node = true
  · rw [if_pos hparens]
    exact ⟨_, pendingAfter_parenSlots _, rfl⟩
  · rw [if_neg hparens]
    exact h.last (isBase_of_not_needsParens hbase hparens)

/-- The first token of an expression, with the parentheses that are kept. Counterpart of `Edges`. -/
theorem Edges.spell_first (hcontext : context.attachments = [])
    (h : Edges node (core context place node)) :
    ∃ kind text rest, spell context place node = .token kind text :: rest ∧
      kind.startsExpression = true ∧ (kind = .longString → node.startsWithLongString = true) ∧
      ∀ op, UnaryOp.ofKind? kind = some op → needsParens place node = false ∧
        ((∃ operand, node.shape = .unary op operand) ∨
          ∃ outer left right, node.shape = .binary outer left right ∧ outer ≠ .power) := by
  rw [spell_eq_core hcontext]
  by_cases hparens : needsParens place node = true
  · rw [if_pos hparens]
    refine ⟨_, _, _, rfl, rfl, by simp, fun op hop => ?_⟩
    cases hop
  · rw [if_neg hparens]
    obtain ⟨kind, text, rest, hcore, hstarts, -, hlong, hunary, -⟩ := h.first
    refine ⟨kind, text, rest, hcore, hstarts, fun hkind => ?_, fun op hop => ?_⟩
    · have hlong := hlong hkind
      obtain ⟨number, shape, span, inParens⟩ := node
      cases inParens with
      | false => exact hlong
      | true =>
        cases shape with
        | literal kind text => cases kind <;> first | rfl | cases hlong
        | binary op left right => exact absurd rfl hparens
        | _ => cases hlong
    · exact ⟨Bool.eq_false_iff.2 hparens, hunary op hop⟩

/-- What can be a base has the shape of one, or parentheses. Counterpart of `Shape.isBase`. -/
theorem Node.isBase_of_canBeBase (h : node.canBeBase = true) :
    node.inParens = true ∨ node.shape.isBase = true := by
  obtain ⟨number, shape, span, inParens⟩ := node
  cases shape <;> simp_all [canBeBase, Shape.isBase, Node.inParens]

/-- A value starts where what it belongs to does. Counterpart of `Edges` for accesses and calls. -/
theorem Edges.suffix {base : Node} {slots : List Slot} (hcontext : context.attachments = [])
    (hbase : Edges base (core context Place.base base))
    (hisBase : base.inParens = true ∨ base.shape.isBase = true)
    (hcore : core context place node = spell context Place.base base ++ slots)
    (hshape : node.shape.opensWithParen = base.opensWithParen) (hchild : base ∈ node.children)
    (hlast : ∃ kind, pendingAfter none (core context place node) = some kind ∧
        kind.closesBase = true) :
    Edges node (core context place node) where
  first := by
    obtain ⟨kind, text, rest, hspell, hstarts, hopens⟩ := hbase.base_first hcontext hisBase
    have hcases := Kind.startsBase_iff.1 hstarts
    refine ⟨kind, text, rest ++ slots, ?_, ?_, fun _ => hstarts, ?_, ?_, ?_⟩
    · rw [hcore, hspell]
      rfl
    · rw [Kind.startsExpression, hstarts]
      rfl
    · rintro rfl
      cases hstarts
    · intro op hop
      rcases hcases with rfl | rfl <;> cases hop
    · intro hkind hparts
      rw [hshape]
      exact hopens hkind fun part hpart => hparts part (.child hchild hpart)
  last _ := hlast

/-- What is called has the shape of a base, or parentheses. Counterpart of `Derives.plain` and
`Derives.method`. -/
theorem Derives.isBase_callee {isApart : Bool} {a b : Nat} {ts : List Token} {base : Node}
    (h : Derives isApart .callee a b ts [base]) :
    base.inParens = true ∨ base.shape.isBase = true := by
  cases h with
  | plain hbase _ => exact Node.isBase_of_canBeBase hbase
  | method => exact .inr rfl

/-- A node that was read without parentheses is spelled as its core, since it needs none.
Counterpart of `needsParens`. -/
theorem spell_nodeOf (hcontext : context.attachments = []) (n : Nat) (shape : Shape Node)
    (ts : List Token) :
    spell context place (nodeOf n shape ts) = core context place (nodeOf n shape ts) := by
  rw [spell_eq_core hcontext]
  rfl

/-- A token at the end of the slots is pending after them. Counterpart of `pendingAfter`. -/
theorem pendingAfter_last (pending : Option Kind) (front : List Slot) (kind : Kind)
    (text : List Char) :
    pendingAfter pending (front ++ [.token kind text]) = some kind := by
  rw [pendingAfter_append]
  rfl

/-- After a key between brackets the closing one is pending. Counterpart of `bracketSlots`. -/
theorem pendingAfter_bracketSlots (pending : Option Kind) (key : Node) (slots : List Slot) :
    pendingAfter pending (bracketSlots key slots) = some (.symbol .rightSquare) := by
  unfold bracketSlots
  split
  · show pendingAfter none (slots ++ ([.space] ++ [.symbol .rightSquare])) = _
    rw [← List.append_assoc]
    exact pendingAfter_last _ _ _ _
  · exact pendingAfter_last _ slots _ _

/-- After a table its closing brace is pending. Counterpart of `pendingAfter` for
`Derives.table`. -/
theorem pendingAfter_table (hcontext : context.attachments = []) (n : Nat) (fields : List Node)
    (ts : List Token) (pending : Option Kind) :
    pendingAfter pending (core context place (nodeOf n (.table fields) ts)) =
      some (.symbol .rightCurly) := by
  simp only [core, coreSlots, Node.shape_mk, danglingSlots_eq hcontext,
    danglingComments_eq hcontext]
  split
  · rfl
  · simp [pendingAfter, pendingAfter_append, Slot.symbol, Slot.fixed]

/-- The literals that something can be called with are strings. Counterpart of
`Parser.startsArguments`. -/
theorem isString_of_startsArguments {kind : Kind} {literal : LiteralKind}
    (hliteral : Parser.literalKind? kind = some literal)
    (hstarts : Parser.startsArguments kind = true) :
    literal = .string ∨ literal = .longString := by
  unfold Parser.startsArguments at hstarts
  split at hstarts
  · cases hliteral
  · cases hliteral
  · cases hliteral
    exact .inl rfl
  · cases hliteral
    exact .inr rfl
  · cases hstarts

/-- The ends of an expression that no other one is part of at its start. Counterpart of `Edges` for
names, literals, tables and functions. -/
theorem Edges.atom {slots rest : List Slot} {kind : Kind} {text : List Char}
    (hslots : slots = .token kind text :: rest) (hstarts : kind.startsExpression = true)
    (hunary : UnaryOp.ofKind? kind = none) (hparen : kind ≠ .symbol .leftParen)
    (hlong : kind = .longString → node.bare.startsWithLongString = true)
    (hshape : node.shape.isBase = false) : Edges node slots where
  first := by
    refine ⟨kind, text, rest, hslots, hstarts, ?_, hlong, ?_, fun hkind => absurd hkind hparen⟩
    · simp [hshape]
    · simp [hunary]
  last := by simp [hshape]

/-- The ends of every expression, and of everything that is called. Counterpart of `Edges`. -/
theorem Derives.edges {isApart : Bool} {rule : Rule} {a b : Nat} {ts : List Token}
    {nodes : List Node} (hcontext : context.attachments = [])
    (h : Derives isApart rule a b ts nodes) (hrule : rule = .expression ∨ rule = .callee)
    {node : Node} (hnode : nodes = [node]) (place : Place) :
    Edges node (core context place node) := by
  induction h generalizing node place with
  | identifier =>
    cases hnode
    refine ⟨⟨_, _, _, rfl, rfl, fun _ => rfl, by simp, fun op hop => ?_, by simp⟩, fun _ =>
        ⟨_, rfl, rfl⟩⟩
    cases hop
  | @literal n t kind =>
    cases hnode
    cases kind with
    | string | longString | number | nil | vararg =>
      exact .atom rfl rfl rfl (by simp) (fun h => by first | rfl | cases h) rfl
    | boolean =>
      have hatom : ∀ word : Keyword, (word = .trueK ∨ word = .falseK) →
          (Kind.keyword word).startsExpression = true ∧ UnaryOp.ofKind? (.keyword word) = none := by
        rintro word (rfl | rfl) <;> exact ⟨rfl, rfl⟩
      have hword : (if Parser.textOf t = "true" then Keyword.trueK else .falseK) = .trueK ∨
          (if Parser.textOf t = "true" then Keyword.trueK else .falseK) = .falseK := by
        split <;> simp
      exact .atom rfl (hatom _ hword).1 (hatom _ hword).2 (by simp) (by simp) rfl
  | @parens a b l r ts inner hl hr hinner ih =>
    cases hnode
    rw [core_parenthesise]
    have hedges := ih (.inl rfl) rfl place
    obtain ⟨kind, text, rest, hcore, hstarts, hbase, hlong, hunary, hopens⟩ := hedges.first
    refine ⟨⟨kind, text, rest, hcore, hstarts, ?_, ?_, ?_, fun hkind hparts => ?_⟩, ?_⟩
    · simpa using hbase
    · cases inner
      exact hlong
    · simpa using hunary
    · rw [Node.shape_parenthesise]
      refine hopens hkind fun part hpart => ?_
      cases hpart with
      | self => exact hidesParen_parenthesise_false (hparts _ (.self _))
      | child hchild hpart =>
        refine hparts part (.child ?_ hpart)
        rwa [Node.children, Node.shape_parenthesise]
    · simpa using hedges.last
  | @table a b l r ts fields =>
    cases hnode
    have hslots : ∃ rest, core context place (nodeOf b (.table fields) (l :: (ts ++ [r]))) =
        .symbol .leftCurly :: rest := by
      simp only [core, coreSlots, Node.shape_mk]
      split <;> exact ⟨_, rfl⟩
    obtain ⟨rest, hslots⟩ := hslots
    exact .atom hslots rfl rfl (by simp) (by simp) rfl
  | function =>
    cases hnode
    exact .atom rfl rfl rfl (by simp) (by simp) rfl
  | member _ ht hb _ ih =>
    cases hnode
    refine Edges.suffix hcontext (ih (.inl rfl) rfl _) (Node.isBase_of_canBeBase hb) rfl rfl
      (by simp [Node.children, Shape.children]) ⟨.identifier, ?_, rfl⟩
    show pendingAfter none (spell _ _ _ ++ .symbol .dot :: spell _ _ _) = _
    rw [spell_nodeOf hcontext, pendingAfter_append]
    rfl
  | method _ ht hb _ ih =>
    cases hnode
    refine Edges.suffix hcontext (ih (.inl rfl) rfl _) (Node.isBase_of_canBeBase hb) rfl rfl
      (by simp [Node.children, Shape.children]) ⟨.identifier, ?_, rfl⟩
    show pendingAfter none (spell _ _ _ ++ .symbol .colon :: spell _ _ _) = _
    rw [spell_nodeOf hcontext, pendingAfter_append]
    rfl
  | index _ _ hb _ _ ih _ =>
    cases hnode
    refine Edges.suffix hcontext (ih (.inl rfl) rfl _) (Node.isBase_of_canBeBase hb) rfl rfl
      (by simp [Node.children, Shape.children]) ⟨.symbol .rightSquare, ?_, rfl⟩
    show pendingAfter none (spell _ _ _ ++ bracketSlots _ _) = _
    rw [pendingAfter_append, pendingAfter_bracketSlots]
  | call _ _ hb _ ih _ =>
    cases hnode
    refine Edges.suffix hcontext (ih (.inr rfl) rfl _) hb.isBase_callee rfl rfl
      (by simp [Node.children, Shape.children]) ⟨.symbol .rightParen, ?_, rfl⟩
    simp only [core, coreSlots, Node.shape_mk, Context.emptyParensSlots,
      danglingComments_eq hcontext]
    split <;> simp [pendingAfter, pendingAfter_append, Slot.symbol, Slot.fixed]
  | tableCall _ _ hb _ ih _ =>
    cases hnode
    refine Edges.suffix hcontext (ih (.inr rfl) rfl _) hb.isBase_callee rfl rfl
      (by simp [Node.children, Shape.children]) ⟨.symbol .rightCurly, ?_, rfl⟩
    show pendingAfter none (spell _ _ _ ++ spell _ _ _) = _
    rw [spell_nodeOf hcontext, pendingAfter_append, pendingAfter_table hcontext]
  | @stringCall a b t ts base kind hkind harguments hb ih =>
    cases hnode
    refine Edges.suffix hcontext (ih (.inr rfl) rfl _) hb.isBase_callee rfl rfl
      (by simp [Node.children, Shape.children]) ?_
    show ∃ kind, pendingAfter none (spell _ _ _ ++ spell _ _ _) = some kind ∧ _
    rw [spell_nodeOf hcontext, pendingAfter_append]
    rcases isString_of_startsArguments hkind harguments with rfl | rfl <;> exact ⟨_, rfl, rfl⟩
  | plain hb _ ih => exact ih (.inl rfl) hnode place
  | @unary a b t op ts operand hop =>
    cases hnode
    refine ⟨⟨op.kind, _, _, rfl, ?_, by simp [Shape.isBase], ?_, ?_, ?_⟩, by simp [Shape.isBase]⟩
    · simp [Kind.startsExpression, UnaryOp.ofKind?_kind]
    · cases op <;> simp [UnaryOp.kind]
    · intro other hother
      rw [UnaryOp.ofKind?_kind] at hother
      cases hother
      exact .inl ⟨operand, rfl⟩
    · cases op <;> simp [UnaryOp.kind]
  | @binary a b c t op ls rs left right hop hbelow _ _ _ ih _ =>
    cases hnode
    obtain ⟨kind, text, rest, hspell, hstarts, hlong, hunary⟩ :=
      (ih (.inl rfl) rfl (Place.left op)).spell_first hcontext
    have hcore : core context place (nodeOf c (.binary op left right) (ls ++ t :: rs)) =
        .token kind text ::
          (rest ++ .space :: .fixed op.kind :: .gap :: spell context (Place.right op) right) := by
      show spell context (Place.left op) left ++ _ = _
      rw [hspell]
      rfl
    refine ⟨⟨kind, text, _, hcore, hstarts, by simp [Shape.isBase], hlong, fun other hother => ?_,
      fun _ _ => rfl⟩, by simp [Shape.isBase]⟩
    refine .inr ⟨op, left, right, rfl, ?_⟩
    rintro rfl
    -- Only operands in parentheses that are kept could start with an operator.
    obtain ⟨hparens, hshape⟩ := hunary other hother
    obtain ⟨number, shape, span, inParens⟩ := left
    rcases hshape with ⟨operand, hshape⟩ | ⟨outer, inner, last, hshape, -⟩
    · cases hshape
      cases inParens with
      | true => cases hparens
      | false => exact absurd hbelow.1 (by decide)
    · cases hshape
      cases inParens with
      | true => cases hparens
      | false => exact absurd hbelow.1 (Nat.not_le.2 outer.rightPriority_lt_power)
  | _ => rcases hrule with hrule | hrule <;> cases hrule

end

end LuaFormatter
