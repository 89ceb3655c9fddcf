import LuaFormatter.Proofs.Comment.Owners
import LuaFormatter.Proofs.Grammar.ReplayStatement

/-!
# How operators group

An operand without parentheses has to fit the operator next to it. `Node.WellParenthesised` asks
this of every operand of a tree, looking at one operator and the next only, while the parser has to
keep apart all operators down the side of an operand: `Node.Above` and `Node.Below` say what it
relies on. The priorities are such that the condition on neighbours reaches down the sides
(`Node.WellParenthesised.above`, `Node.WellParenthesised.below`).

So the parser reads the tokens of a tree that is well parenthesised as that tree, and all trees that
it makes are so (`expression_climbs`).
-/

namespace LuaFormatter

namespace BinaryOp

/-- To its right an operator binds no stronger than to its left. Counterpart of
`BinaryOp.rightPriority`. -/
theorem rightPriority_le (op : BinaryOp) : op.rightPriority ≤ op.leftPriority := by
  cases op <;> decide

/-- The two priorities of an operator differ by one at most. Counterpart of
`BinaryOp.leftPriority`. -/
theorem leftPriority_le (op : BinaryOp) : op.leftPriority ≤ op.rightPriority + 1 := by
  cases op <;> decide

/-- The power binds stronger to its left than any operator to its right. Counterpart of
`BinaryOp.rightPriority`. -/
theorem rightPriority_lt_power (op : BinaryOp) : op.rightPriority < power.leftPriority := by
  cases op <;> decide

/-- Only the power binds stronger than an operator before an operand. Counterpart of
`UnaryOp.priority`. -/
theorem eq_power_of_lt {op : BinaryOp} (h : UnaryOp.priority < op.leftPriority) : op = power := by
  revert h
  cases op <;> decide

/-- All operators but the power bind no stronger than one before an operand. Counterpart of
`UnaryOp.priority`. -/
theorem ne_power_iff {op : BinaryOp} : op ≠ power ↔ op.leftPriority ≤ UnaryOp.priority := by
  cases op <;> decide

/-- Only a power holds on to its left operand more than an operator with one operand does, and
nothing holds on to its right operand as much. Counterpart of `UnaryOp.priority`. -/
theorem leftPriority_le_unary {op inner : BinaryOp} (h : op.leftPriority ≤ inner.rightPriority) :
    op.leftPriority ≤ UnaryOp.priority := by
  refine ne_power_iff.1 ?_
  rintro rfl
  exact absurd inner.rightPriority_lt_power (Nat.not_lt.2 h)

end BinaryOp

namespace Node

/-- The operator of an operation with two operands, if there are no parentheses around it. -/
def openBinary? : Node → Option BinaryOp
  | mk _ (.binary op _ _) _ false => some op
  | _ => none

/-- The node is an operation with one operand, and there are no parentheses around it. -/
def isOpenUnary : Node → Bool
  | mk _ (.unary _ _) _ false => true
  | _ => false

/-- The node is no operation, and there are no parentheses around it. -/
def isAtom : Node → Bool
  | mk _ (.binary _ _ _) _ _ | mk _ (.unary _ _) _ _ => false
  | mk _ _ _ inParens => !inParens

/-- Every operand without parentheses fits the operator next to it. -/
def WellParenthesised : Node → Prop
  | mk _ (.binary op left right) _ _ =>
    (∀ inner ∈ left.openBinary?, op.leftPriority ≤ inner.rightPriority) ∧
      (∀ inner ∈ right.openBinary?, op.rightPriority < inner.leftPriority) ∧
      (left.isOpenUnary = true → op ≠ .power) ∧ WellParenthesised left ∧ WellParenthesised right
  | mk _ (.unary _ operand) _ _ =>
    (∀ inner ∈ operand.openBinary?, inner = .power) ∧ WellParenthesised operand
  | _ => True

/-- If the first operator down the left side binds tighter than a limit, then so do the others.
Counterpart of `Node.Above`. -/
theorem WellParenthesised.above {limit : Nat} : ∀ {node : Node}, node.WellParenthesised →
    (∀ op ∈ node.openBinary?, limit < op.leftPriority) → node.Above limit
  | mk _ shape _ inParens, h, hop => by
    cases shape with
    | binary op left right =>
      cases inParens with
      | true => trivial
      | false =>
        obtain ⟨hleft, -, -, hinner, -⟩ := h
        have hlimit := hop op rfl
        refine ⟨hlimit, hinner.above fun inner hmem => ?_⟩
        have := hleft inner hmem
        have := inner.rightPriority_le
        omega
    | _ => trivial

/-- If the first operation down the right side leaves an operator to what is around it, then so do
the others. Counterpart of `Node.Below`. -/
theorem WellParenthesised.below {outer : BinaryOp} : ∀ {node : Node}, node.WellParenthesised →
    (∀ op ∈ node.openBinary?, outer.leftPriority ≤ op.rightPriority) →
    (node.isOpenUnary = true → outer.leftPriority ≤ UnaryOp.priority) →
    node.Below outer.leftPriority
  | mk _ shape _ inParens, h, hop, hunary => by
    cases shape with
    | binary op left right =>
      cases inParens with
      | true => trivial
      | false =>
        obtain ⟨-, hright, -, -, hinner⟩ := h
        have houter := hop op rfl
        refine ⟨houter, hinner.below (fun inner hmem => ?_) fun _ => ?_⟩
        · have := hright inner hmem
          have := inner.leftPriority_le
          omega
        · exact BinaryOp.leftPriority_le_unary houter
    | unary op operand =>
      cases inParens with
      | true => trivial
      | false =>
        obtain ⟨hpower, hinner⟩ := h
        have houter := hunary rfl
        refine ⟨houter, hinner.below (fun inner hmem => ?_) fun _ => houter⟩
        rw [hpower inner hmem]
        exact Nat.le_succ_of_le houter
    | _ => trivial

/-- The operator of an operation that climbs above a limit is above it. Counterpart of
`Node.Above`. -/
theorem Above.lt_of_openBinary {limit : Nat} {node : Node} (h : node.Above limit) {op : BinaryOp}
    (hop : op ∈ node.openBinary?) : limit < op.leftPriority := by
  unfold openBinary? at hop
  split at hop
  · cases hop
    exact h.1
  · cases hop

/-- The operator of an operation that ends below a priority has at least that one to its right.
Counterpart of `Node.Below`. -/
theorem Below.le_of_openBinary {priority : Nat} {node : Node} (h : node.Below priority)
    {op : BinaryOp} (hop : op ∈ node.openBinary?) : priority ≤ op.rightPriority := by
  unfold openBinary? at hop
  split at hop
  · cases hop
    exact h.1
  · cases hop

/-- An operator before an operand ends below its own priority only. Counterpart of `Node.Below`. -/
theorem Below.le_of_isOpenUnary {priority : Nat} {node : Node} (h : node.Below priority)
    (hunary : node.isOpenUnary = true) : priority ≤ UnaryOp.priority := by
  unfold isOpenUnary at hunary
  split at hunary
  · exact h.1
  · cases hunary

end Node

/-! ## Reading a tree back -/

/-- The tokens of a tree in their order: those of its atoms, with operators before and between them
and one pair of parentheses around each node that has them. The nodes get the numbers from a first
one up to a next one. -/
inductive InOrder : Nat → Nat → List Token → Node → Prop
  | atom {a b : Nat} {ts : List Token} {node : Node} : node.isAtom = true →
    Derives true .expression a b ts [node] → InOrder a b ts node
  | unary {a b : Nat} {t : Token} {op : UnaryOp} {ts : List Token} {operand : Node} :
    t.kind = op.kind → InOrder a b ts operand →
    InOrder a (b + 1) (t :: ts) (nodeOf b (.unary op operand) (t :: ts))
  | binary {a b c : Nat} {t : Token} {op : BinaryOp} {ls rs : List Token} {left right : Node} :
    t.kind = op.kind → InOrder a b ls left → InOrder b c rs right →
    InOrder a (c + 1) (ls ++ t :: rs) (nodeOf c (.binary op left right) (ls ++ t :: rs))
  | parens {a b : Nat} {l r : Token} {ts : List Token} {node : Node} :
    l.kind = .symbol .leftParen → r.kind = .symbol .rightParen → node.inParens = false →
    InOrder a b ts node → InOrder a b (l :: (ts ++ [r])) node.parenthesise

/-- Parentheses around a node change nothing inside of it. Counterpart of
`Node.WellParenthesised`. -/
theorem Node.wellParenthesised_parenthesise (node : Node) :
    node.parenthesise.WellParenthesised ↔ node.WellParenthesised := by
  obtain ⟨number, shape, span, inParens⟩ := node
  cases shape <;> exact Iff.rfl

/-- The tokens of a tree that is well parenthesised derive it. Counterpart of `Derives.unary` and
`Derives.binary`. -/
theorem InOrder.derives {a b : Nat} {ts : List Token} {node : Node} (h : InOrder a b ts node)
    (hwell : node.WellParenthesised) : Derives true .expression a b ts [node] := by
  induction h with
  | atom _ hderives => exact hderives
  | @unary a b t op ts operand ht _ ih =>
    obtain ⟨hpower, hoperand⟩ := hwell
    refine .unary (ht ▸ op.ofKind?_kind) (hoperand.above fun inner hmem => ?_) (ih hoperand)
    rw [hpower inner hmem]
    decide
  | @binary a b c t op ls rs left right ht _ _ ihleft ihright =>
    obtain ⟨hbelow, habove, hunary, hleft, hright⟩ := hwell
    refine .binary (ht ▸ op.ofKind?_kind) (hleft.below hbelow fun hopen => ?_)
      (hright.above habove) (ihleft hleft) (ihright hright)
    exact BinaryOp.ne_power_iff.1 (hunary hopen)
  | parens hl hr _ _ ih =>
    exact .parens hl hr (ih ((Node.wellParenthesised_parenthesise _).1 hwell))

/-! ## Trees that are read -/

/-- The operands of an operation leave to it what they have to. -/
def Node.Climbs (node : Node) : Prop :=
  match node.shape with
  | .binary op left right => left.Below op.leftPriority ∧ right.Above op.rightPriority
  | .unary _ operand => operand.Above UnaryOp.priority
  | _ => True

/-- Every operation that is derived has operands that fit. Counterpart of `Node.Climbs`. -/
theorem Derives.climbs {isApart : Bool} {rule : Rule} {a b : Nat} {ts : List Token}
    {nodes : List Node} (h : Derives isApart rule a b ts nodes) : ∀ node ∈ nodes, node.Climbs := by
  induction h with
  | parens _ _ _ ih => simpa [Node.Climbs] using ih
  | _ => grind [Node.Climbs, Node.shape]

/-- A tree whose operations have operands that fit is well parenthesised. Counterpart of
`Node.WellParenthesised`. -/
theorem Node.wellParenthesised_of_climbs : ∀ {node : Node},
    (∀ part : Node, part.Part node → part.Climbs) → node.WellParenthesised
  | mk number shape span inParens, h => by
    have hself := h _ (.self _)
    have hchild : ∀ {child : Node}, child ∈ shape.children →
        ∀ part : Node, part.Part child → part.Climbs :=
        fun hmem part hpart => h part (.child hmem hpart)
    cases shape with
    | binary op left right =>
      obtain ⟨hbelow, habove⟩ := hself
      refine ⟨fun _ => hbelow.le_of_openBinary, fun _ => habove.lt_of_openBinary, fun hopen => ?_,
        wellParenthesised_of_climbs (hchild (by simp [Shape.children])),
        wellParenthesised_of_climbs (hchild (by simp [Shape.children]))⟩
      exact BinaryOp.ne_power_iff.2 (hbelow.le_of_isOpenUnary hopen)
    | unary op operand =>
      refine ⟨fun inner hmem => ?_, wellParenthesised_of_climbs (hchild (by simp [Shape.children]))⟩
      exact BinaryOp.eq_power_of_lt (Node.Above.lt_of_openBinary hself hmem)
    | _ => trivial

/-- Every part of a valid program is an operation with operands that fit, or no operation.
Counterpart of `Node.Climbs`. -/
theorem climbs_of_isValid {source : List Char} (h : (parse source).isValid = true) {part : Node}
    (hpart : part.Part (parse source).root) : part.Climbs := by
  rcases derives_part h hpart with rfl | ⟨rule, first, front, us, back, -, -, -, hderives⟩
  · trivial
  · have hclimbs := hderives.climbs part.bare (by simp)
    rwa [Node.Climbs, Node.shape_bare] at hclimbs

/-- Climbing priorities is exact. The tokens of a tree that is well parenthesised are read as that
tree, with its parentheses, up to the last of them and without a fault, if nothing comes next that
goes on with an expression; and every tree in a valid program is well parenthesised. Counterpart of
`Parser.expression`. -/
theorem expression_climbs :
    (∀ (first next : Nat) (tokens : List Token) (node : Node), InOrder first next tokens node →
      node.WellParenthesised → ∀ (depth : Nat) (back : List Token) (state : ParseState),
        tokens.length ≤ depth → (kindOf back).stopsExpression = true →
          state.rest = tokens ++ back → state.made = first →
            ∃ after, Parser.expression (.level depth) 0 state = (node, after) ∧
              after.rest = back ∧ after.faults = state.faults) ∧
      ∀ source : List Char, (parse source).isValid = true →
        ∀ part : Node, part.Part (parse source).root → part.WellParenthesised := by
  refine ⟨?_, ?_⟩
  · intro first next tokens node hinOrder hwell depth back state hdepth hstops hrest hmade
    have hreplays : ReplaysExpression first next tokens node :=
      (hinOrder.derives hwell).replays node rfl
    have hreads : Parser.Reads ((Grammar.level (depth + 1)).expression 0) state.previousStop first
        tokens back node next := hreplays.reads_inner (Nat.lt_succ_of_le hdepth) hstops
    exact ⟨_, hreads state hrest rfl hmade, rfl, rfl⟩
  · intro source hvalid part hpart
    exact Node.wellParenthesised_of_climbs fun inner hinner =>
      climbs_of_isValid hvalid (hinner.trans hpart)

/-- A power under a minus sign, with an operand that needs its parentheses: `-a^(b..c)`. -/
theorem expression_climbs_power :
    let minus : Token := ⟨.symbol .minus, 0, ['-']⟩
    let a : Token := ⟨.identifier, 1, ['a']⟩
    let caret : Token := ⟨.symbol .caret, 2, ['^']⟩
    let left : Token := ⟨.symbol .leftParen, 3, ['(']⟩
    let b : Token := ⟨.identifier, 4, ['b']⟩
    let dots : Token := ⟨.symbol .dotDot, 5, ['.', '.']⟩
    let c : Token := ⟨.identifier, 7, ['c']⟩
    let right : Token := ⟨.symbol .rightParen, 8, [')']⟩
    let tokens := [minus, a, caret, left, b, dots, c, right]
    let joined := nodeOf 4 (.binary .concat (nameOf 2 b) (nameOf 3 c)) [b, dots, c]
    let power := nodeOf 5 (.binary .power (nameOf 1 a) joined.parenthesise) tokens.tail
    let node := nodeOf 6 (.unary .negate power) tokens
    let state : ParseState := ⟨tokens, 0, 9, 1, []⟩
    (InOrder 1 7 tokens node ∧ node.WellParenthesised ∧
      ∃ after, Parser.expression (.level 8) 0 state = (node, after) ∧ after.rest = [] ∧
        after.faults = []) ∧
    (parse "x = -a^(b..c)".toList).isValid = true ∧
      (parse "x = -a^(b..c)".toList).root.WellParenthesised := by
  intro minus a caret left b dots c right tokens joined power node state
  have hname : ∀ (n : Nat) (t : Token), t.kind = .identifier → InOrder n (n + 1) [t] (nameOf n t) :=
    fun n t ht => .atom rfl (.identifier ht)
  have hjoined : InOrder 2 5 [b, dots, c] joined :=
    @InOrder.binary 2 3 4 dots .concat [b] [c] _ _ rfl (hname 2 b rfl) (hname 3 c rfl)
  have hpower : InOrder 1 6 tokens.tail power :=
    @InOrder.binary 1 2 5 caret .power [a] _ _ _ rfl (hname 1 a rfl) (.parens rfl rfl rfl hjoined)
  have hinOrder : InOrder 1 7 tokens node := .unary rfl hpower
  have hwell : node.WellParenthesised := by
    simp [node, power, joined, Node.WellParenthesised, Node.openBinary?, Node.isOpenUnary,
      Node.parenthesise]
  have hvalid : (parse "x = -a^(b..c)".toList).isValid = true := by decide +kernel
  exact ⟨⟨hinOrder, hwell, expression_climbs.1 1 7 tokens node hinOrder hwell 8 [] state
    (by decide) rfl rfl rfl⟩, hvalid, expression_climbs.2 _ hvalid _ (.self _)⟩

end LuaFormatter
