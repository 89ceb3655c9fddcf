import LuaFormatter.Proofs.Spelling.Edges
import LuaFormatter.Proofs.Tree.Words

/-!
# The start of an expression

An expression is written with the comments at its start, those of the outermost node first, and then
its first token (`Derives.starts`). `Node.startKind` follows the left side of the tree to that
token, past parentheses that are dropped and up to one that is kept, and `Node.starters` lists the
nodes on the way.
-/

namespace LuaFormatter

namespace Node

/-- The first token of an expression without the parentheses around it. -/
def coreKind : Node → Kind
  | mk _ shape _ _ =>
    match shape with
    | .identifier _ => .identifier
    | .literal kind text => kind.tokenKind text
    | .table _ => .symbol .leftCurly
    | .function _ _ _ _ => .keyword .functionK
    | .unary op _ => op.kind
    | .binary op left _ =>
      if needsParens (Place.left op) left then .symbol .leftParen else left.coreKind
    | .member _ base _ | .index base _ | .call base _ | .tableCall base _ | .stringCall base _ =>
      if needsParens Place.base base then .symbol .leftParen else base.coreKind
    | _ => .endOfFile

/-- The nodes inside an expression that start where it does, up to a parenthesis that is kept. -/
def coreStarters : Node → List Node
  | mk _ shape _ _ =>
    match shape with
    | .binary op left _ =>
      left :: if needsParens (Place.left op) left then [] else left.coreStarters
    | .member _ base _ | .index base _ | .call base _ | .tableCall base _ | .stringCall base _ =>
      base :: if needsParens Place.base base then [] else base.coreStarters
    | _ => []

/-- The first token of an expression at a place. -/
def startKind (place : Place) (node : Node) : Kind :=
  if needsParens place node then .symbol .leftParen else node.coreKind

/-- The nodes that start where an expression does, up to a parenthesis that is kept. -/
def starters (place : Place) (node : Node) : List Node :=
  node :: if needsParens place node then [] else node.coreStarters

end Node

/-- The comments before nodes. -/
def Context.commentsBefore (context : Context) (nodes : List Node) : List Comment :=
  nodes.flatMap fun node => context.placed node .leading

/-- Slots start with the comments before nodes and then a token. -/
def Context.Starts (context : Context) (nodes : List Node) (kind : Kind) (slots : List Slot) :
    Prop :=
  ∃ text rest, slots =
    (context.commentsBefore nodes).flatMap context.leadingSlots ++ .token kind text :: rest

section
variable {context : Context} {place : Place} {node : Node} {nodes : List Node} {kind : Kind}
  {slots back : List Slot}

/-- Slots behind the first token leave the start. Counterpart of `Context.Starts`. -/
theorem Context.Starts.append (h : context.Starts nodes kind slots) (back : List Slot) :
    context.Starts nodes kind (slots ++ back) := by
  obtain ⟨text, rest, rfl⟩ := h
  exact ⟨text, rest ++ back, by simp⟩

/-- A node without comments and parentheses around it starts with its first token. Counterpart of
`Context.Starts`. -/
theorem Context.Starts.token {text : List Char} (h : slots = .token kind text :: back) :
    context.Starts [] kind slots :=
  ⟨text, back, h⟩

/-- The parentheses and the comments around an expression come first. Counterpart of `startKind`. -/
theorem Context.Starts.spell
    (h : context.Starts node.coreStarters node.coreKind (core context place node)) :
    context.Starts (node.starters place) (node.startKind place) (spell context place node) := by
  rw [spell_eq, Context.commented, List.append_assoc]
  unfold Node.starters Node.startKind
  split
  · refine ⟨(Kind.symbol .leftParen).describe.toList, ?_⟩
    simp [commentsBefore, parenSlots, Slot.symbol, Slot.fixed]
  · obtain ⟨text, rest, hcore⟩ := h
    refine ⟨text, rest ++ (context.placed node .trailing).flatMap context.trailingSlots, ?_⟩
    rw [show coreSlots context place node (LuaFormatter.spell context) = _ from hcore]
    simp [commentsBefore]

@[simp] theorem Node.coreKind_parenthesise (node : Node) :
    node.parenthesise.coreKind = node.coreKind := by
  obtain ⟨number, shape, span, inParens⟩ := node
  cases shape <;> rfl

@[simp] theorem Node.coreStarters_parenthesise (node : Node) :
    node.parenthesise.coreStarters = node.coreStarters := by
  obtain ⟨number, shape, span, inParens⟩ := node
  cases shape <;> rfl

/-- An expression starts with the comments of the nodes at its start and its first token, and so
does everything that is called. Counterpart of `startKind`. -/
theorem Derives.starts {isApart : Bool} {rule : Rule} {a b : Nat} {ts : List Token}
    {nodes : List Node} (h : Derives isApart rule a b ts nodes)
    (hrule : rule = .expression ∨ rule = .callee) {node : Node} (hnode : nodes = [node])
    (context : Context) (place : Place) :
    context.Starts node.coreStarters node.coreKind (core context place node) := by
  induction h generalizing node place with
  | identifier =>
    cases hnode
    exact .token rfl
  | @literal n t kind =>
    cases hnode
    cases kind <;> exact .token rfl
  | @parens a b l r ts inner hl hr hinner ih =>
    cases hnode
    rw [core_parenthesise, Node.coreKind_parenthesise, Node.coreStarters_parenthesise]
    exact ih (.inl rfl) rfl place
  | @table a b l r ts fields =>
    cases hnode
    have hslots : ∃ rest, core context place (nodeOf b (.table fields) (l :: (ts ++ [r]))) =
        .symbol .leftCurly :: rest := by
      simp only [core, coreSlots, Node.shape_mk]
      split <;> exact ⟨_, rfl⟩
    obtain ⟨rest, hslots⟩ := hslots
    exact .token hslots
  | function =>
    cases hnode
    exact .token rfl
  | member _ _ _ _ ih | method _ _ _ _ ih | index _ _ _ _ _ ih _ =>
    cases hnode
    exact (ih (.inl rfl) rfl _).spell.append _
  | call _ _ _ _ ih _ | tableCall _ _ _ _ ih _ | stringCall _ _ _ ih =>
    cases hnode
    exact (ih (.inr rfl) rfl _).spell.append _
  | plain _ _ ih => exact ih (.inl rfl) hnode place
  | unary =>
    cases hnode
    exact .token rfl
  | binary _ _ _ _ _ ih _ =>
    cases hnode
    exact (ih (.inl rfl) rfl _).spell.append _
  | _ => rcases hrule with hrule | hrule <;> cases hrule

/-- The slots start with a token: the first of the comments, or the token after them. Counterpart of
`Context.Starts`. -/
theorem Context.Starts.exists_token (h : context.Starts nodes kind slots) :
    ∃ first text rest, slots = .token first text :: rest ∧
      ((context.commentsBefore nodes = [] ∧ first = kind) ∨
        (context.commentsBefore nodes ≠ [] ∧ first.isComment = true)) := by
  obtain ⟨text, rest, rfl⟩ := h
  cases context.commentsBefore nodes with
  | nil => exact ⟨kind, text, rest, rfl, .inl ⟨rfl, rfl⟩⟩
  | cons comment others =>
    refine ⟨comment.kind, comment.written, _, rfl, .inr ⟨by simp, ?_⟩⟩
    unfold Comment.kind
    split <;> rfl

/-- Without comments, the first token comes first. Counterpart of `Context.Starts`. -/
theorem Context.Starts.head (h : context.Starts nodes kind slots)
    (hcontext : context.attachments = []) :
    ∃ text rest, slots = .token kind text :: rest := by
  obtain ⟨text, rest, rfl⟩ := h
  refine ⟨text, rest, ?_⟩
  simp [commentsBefore, placed, owned_eq_nil hcontext]

/-- The first token of an expression starts one, and if it is a long string, the tree shows it.
Counterpart of `startKind`. -/
theorem Derives.startKind {isApart : Bool} {a b : Nat} {ts : List Token}
    (h : Derives isApart .expression a b ts [node]) (place : Place) :
    (node.startKind place).startsExpression = true ∧
      (node.startKind place = .longString → node.startsWithLongString = true) := by
  have hcontext : (Context.bare {}).attachments = [] := rfl
  obtain ⟨kind, _, _, hspell, hstarts, hlong, -⟩ :=
    (h.edges hcontext (.inl rfl) rfl place).spell_first hcontext
  obtain ⟨_, _, hhead⟩ := (h.starts (.inl rfl) rfl _ place).spell.head hcontext
  obtain ⟨rfl, -⟩ := Slot.token.inj (List.cons.inj (hspell.symm.trans hhead)).1
  exact ⟨hstarts, hlong⟩

/-- A long string at the start stays there, except before an access or a call. Counterpart of
`Node.startsWithLongString`. -/
theorem Node.startKind_of_startsWithLongString (h : node.startsWithLongString = true)
    (hplace : place.isBase = false) : node.startKind place = .longString := by
  fun_induction startsWithLongString node generalizing place with
  | case1 =>
    rw [Node.startKind, if_neg (by simp [needsParens, hplace])]
    rfl
  | case2 number op left right span ih =>
    have hparens : needsParens place (mk number (.binary op left right) span false) = false := rfl
    rw [Node.startKind, if_neg (by simp [hparens])]
    exact ih h rfl
  | case3 => cases h

end

end LuaFormatter
