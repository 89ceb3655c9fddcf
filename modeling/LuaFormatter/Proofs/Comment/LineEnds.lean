import LuaFormatter.Proofs.Comment.Owners
import LuaFormatter.Proofs.Layout.Calm
import LuaFormatter.Proofs.Spelling.Implement
import LuaFormatter.Proofs.Tree.Nodes

/-!
# Code is never commented out

A line comment ends with its line, so what the formatter writes after it on the same line is lost.
`Settled` says of slots that a line break follows every line comment that is not put off, and that
those put off start with one, unless they are line comments themselves. The spelling of every part
of a valid program is settled (`settled_spell`). The body of a branch may end in a line comment; it
is followed by the next branch or the end of the conditional, which stand on lines of their own.
-/

namespace LuaFormatter

open Layout

/-- A slot may stand before others: a line break follows a line comment, and what is put off starts
with a line break or is a line comment. -/
def Slot.SettledBefore (rest : List Slot) : Slot → Prop
  | token kind _ => kind.isNote = true → rest.head? = some .hard
  | later breaks kind _ => breaks = 0 → kind.isNote = true
  | _ => True

/-- Every slot may stand before those that follow it. -/
def Settled : List Slot → Prop
  | [] => True
  | slot :: rest => slot.SettledBefore rest ∧ Settled rest

section
variable {front back slots : List Slot} {kind : Kind} {text : List Char}

@[simp] theorem settled_nil : Settled [] :=
  trivial

@[simp] theorem settled_symbol (mark : Symbol) : Settled (.symbol mark :: slots) ↔ Settled slots :=
  ⟨And.right, fun h => ⟨nofun, h⟩⟩

@[simp] theorem settled_keyword (word : Keyword) :
    Settled (.keyword word :: slots) ↔ Settled slots :=
  ⟨And.right, fun h => ⟨nofun, h⟩⟩

@[simp] theorem settled_name (name : String) : Settled (nameSlot name :: slots) ↔ Settled slots :=
  ⟨And.right, fun h => ⟨nofun, h⟩⟩

@[simp] theorem settled_space : Settled (.space :: slots) ↔ Settled slots :=
  ⟨And.right, fun h => ⟨trivial, h⟩⟩

@[simp] theorem settled_gap : Settled (.gap :: slots) ↔ Settled slots :=
  ⟨And.right, fun h => ⟨trivial, h⟩⟩

@[simp] theorem settled_soft : Settled (.soft :: slots) ↔ Settled slots :=
  ⟨And.right, fun h => ⟨trivial, h⟩⟩

@[simp] theorem settled_pad : Settled (.pad :: slots) ↔ Settled slots :=
  ⟨And.right, fun h => ⟨trivial, h⟩⟩

@[simp] theorem settled_hard : Settled (.hard :: slots) ↔ Settled slots :=
  ⟨And.right, fun h => ⟨trivial, h⟩⟩

@[simp] theorem settled_comma : Settled (.comma :: slots) ↔ Settled slots :=
  ⟨And.right, fun h => ⟨trivial, h⟩⟩

/-- Settled slots one after the other are settled. Counterpart of `List.append` for `Settled`. -/
theorem Settled.append (hfront : Settled front) (hback : Settled back) :
    Settled (front ++ back) := by
  induction front with
  | nil => exact hback
  | cons slot rest ih =>
    obtain ⟨hslot, hrest⟩ := hfront
    refine ⟨?_, ih hrest⟩
    cases slot with
    | token kind text =>
      intro hnote
      have hhead := hslot hnote
      cases rest with
      | nil => cases hhead
      | cons next rest => exact hhead
    | _ => exact hslot

/-- The end of settled slots is settled. Counterpart of `Settled`. -/
theorem Settled.right (h : Settled (front ++ back)) : Settled back := by
  induction front with
  | nil => exact h
  | cons slot rest ih => exact ih h.2

/-- After settled slots, only what follows matters. Counterpart of `Settled.append`, as an
equivalence. -/
theorem settled_append (h : Settled front) : Settled (front ++ back) ↔ Settled back :=
  ⟨Settled.right, h.append⟩

/-- Slots that are settled for each item are so for all items together. Counterpart of
`List.flatMap` for `Settled`. -/
theorem Settled.flatMap {α : Type} {items : List α} {slotsOf : α → List Slot}
    (h : ∀ item ∈ items, Settled (slotsOf item)) : Settled (items.flatMap slotsOf) := by
  induction items with
  | nil => exact settled_nil
  | cons item rest ih =>
    rw [List.flatMap_cons]
    exact (h item (by simp)).append (ih fun other hother => h other (List.mem_cons_of_mem _ hother))

/-- Lists may be joined if each may stand before the separator. Counterpart of
`List.intercalate`. -/
theorem settled_intercalate {separator : List Slot} {lists : List (List Slot)}
    (h : ∀ list ∈ lists, Settled list) (hseparator : Settled separator) :
    Settled (separator.intercalate lists) := by
  match lists with
  | [] => exact settled_nil
  | [last] => simpa using h last (by simp)
  | first :: second :: rest =>
    rw [List.intercalate_cons_cons, List.append_assoc]
    refine (h first (by simp)).append (hseparator.append (settled_intercalate ?_ hseparator))
    exact fun list hlist => h list (List.mem_cons_of_mem _ hlist)

/-- Lists that may stand before a line break may be joined by line breaks. Counterpart of
`List.intercalate` with `Slot.hard`. -/
theorem settled_intercalate_hard {lists : List (List Slot)}
    (h : ∀ list ∈ lists, Settled (list ++ [.hard])) (hback : Settled back) :
    Settled ([Slot.hard].intercalate lists ++ .hard :: back) := by
  match lists with
  | [] => simpa using hback
  | [last] => simpa using (h last (by simp)).append hback
  | first :: second :: rest =>
    rw [List.intercalate_cons_cons, List.append_assoc]
    refine (h first (by simp)).append (settled_intercalate_hard ?_ hback)
    exact fun list hlist => h list (List.mem_cons_of_mem _ hlist)

end

/-! ## The parts of a spelling -/

/-- A comment that ends with its line is a note. Counterpart of `Comment.kind`. -/
theorem Comment.isNote_kind (comment : Comment) : comment.kind.isNote = !comment.isBlock := by
  unfold kind
  split <;> simp_all [Kind.isNote]

namespace Context

variable {context : Context} {node : Node} {slots : List Slot} {body : List Spelled}

/-- A comment before a line break. Counterpart of `Comment.slot`. -/
theorem settled_comment (comment : Comment) : Settled [comment.slot, .hard] :=
  ⟨fun _ => rfl, by simp⟩

/-- A block comment may stand before anything. Counterpart of `Comment.slot` for a block comment. -/
theorem settled_block {comment : Comment} (h : comment.isBlock = true) (hslots : Settled slots) :
    Settled (comment.slot :: slots) := by
  refine ⟨fun hnote => ?_, hslots⟩
  rw [comment.isNote_kind, h] at hnote
  cases hnote

/-- The slots of a comment before a node end its line if the comment does. Counterpart of
`Context.leadingSlots`. -/
theorem settled_leading (comment : Comment) : Settled (context.leadingSlots comment) := by
  have hblank : ∀ blank : Prop, [Decidable blank] →
      Settled (if blank then [Slot.hard] else []) := by
    intro blank _
    split <;> simp
  unfold leadingSlots
  dsimp only
  split
  · rename_i h
    refine Settled.append ?_ (hblank _)
    exact settled_block (Bool.and_eq_true_iff.1 h).1 (by simp)
  · exact (settled_comment comment).append (hblank _)

/-- The slots of a comment after a node are settled, since the layout defers a line comment to the
end of the line. Counterpart of `Context.trailingSlots`. -/
theorem settled_trailing (comment : Comment) : Settled (context.trailingSlots comment) := by
  unfold trailingSlots
  split
  · refine ⟨fun hbreaks => ?_, trivial⟩
    split at hbreaks <;> cases hbreaks
  · split
    · rename_i hblock
      simpa using settled_block hblock settled_nil
    · rename_i hline
      refine ⟨fun _ => ?_, trivial⟩
      rw [comment.isNote_kind]
      simpa using hline

/-- Comments around slots. Counterpart of `Context.commented`. -/
theorem settled_commented (h : Settled slots) : Settled (context.commented node slots) :=
  ((Settled.flatMap fun comment _ => settled_leading comment).append h).append
    (Settled.flatMap fun comment _ => settled_trailing comment)

/-- Comments on lines of their own may stand before a line break. Counterpart of
`Context.lineSlots`. -/
theorem settled_lineSlots (comments : List Comment) (h : Settled slots) :
    Settled (lineSlots comments ++ .hard :: slots) := by
  refine settled_intercalate_hard (fun list hlist => ?_) h
  obtain ⟨comment, -, rfl⟩ := List.mem_map.1 hlist
  exact settled_comment comment

/-- Comments inside a node end with a line break before what follows them. Counterpart of
`Context.danglingSlots`. -/
theorem settled_dangling (h : Settled slots) :
    Settled (context.danglingSlots node ++ .hard :: slots) := by
  unfold danglingSlots
  split
  · simpa using h
  · simpa using settled_lineSlots _ h

/-- Empty parentheses are settled with the comments between them. Counterpart of
`Context.emptyParensSlots`. -/
theorem settled_emptyParens : Settled (context.emptyParensSlots node) := by
  have hclose : Settled [Slot.symbol .rightParen] := by simp
  unfold emptyParensSlots
  generalize context.danglingComments node true = comments
  split
  · simp
  · dsimp only
    cases hbreaks : comments.any fun comment => !comment.isBlock with
    | true => simpa [lineSlots] using settled_lineSlots comments hclose
    | false =>
      have hblock : ∀ comment ∈ comments, comment.isBlock = true := by simpa using hbreaks
      have hcomments :
          Settled ([Slot.gap].intercalate (comments.map fun comment => [comment.slot])) := by
        refine settled_intercalate (fun list hlist => ?_) (by simp)
        obtain ⟨comment, hcomment, rfl⟩ := List.mem_map.1 hlist
        exact settled_block (hblock comment hcomment) settled_nil
      simpa using hcomments.append (settled_soft.2 hclose)

/-- Statements stay settled with the semicolons between them. Counterpart of
`Context.separatedSlots`. -/
theorem settled_separated (h : ∀ statement ∈ body, Settled statement.slots) :
    ∀ slots ∈ context.separatedSlots body, Settled slots := by
  fun_induction separatedSlots context body with
  | case1 => nofun
  | case2 last => simpa using h last (by simp)
  | case3 statement next rest ih =>
    intro slots hslots
    rcases List.mem_cons.1 hslots with rfl | hslots
    · refine (h statement (by simp)).append (Settled.append ?_ ?_) <;> split <;> simp
    · exact ih (fun other hother => h other (List.mem_cons_of_mem _ hother)) slots hslots

/-- Statements one below the other are settled. Counterpart of `Context.statementSlots`. -/
theorem settled_statements (h : ∀ statement ∈ body, Settled statement.slots) :
    Settled (context.statementSlots body) :=
  settled_intercalate
    (settled_separated fun statement hstatement => h statement (List.mem_of_mem_filter hstatement))
    (by simp)

/-- A body may stand before a line break. Counterpart of `Context.bodySlots`. -/
theorem settled_body (h : ∀ statement ∈ body, Settled statement.slots) (hslots : Settled slots) :
    Settled (context.bodySlots node body ++ .hard :: slots) := by
  unfold bodySlots
  split
  · simpa using settled_dangling hslots
  · simpa using settled_dangling ((settled_statements h).append (settled_hard.2 hslots))

/-- A node without comments inside has none between its parentheses or elsewhere. Counterpart of
`Context.hasDangling`. -/
theorem danglingComments_eq_nil (h : context.hasDangling node = false) (betweenParens : Bool) :
    context.danglingComments node betweenParens = [] := by
  have hnone : (context.owned node).filter (·.placement = .dangling) = [] := by
    rw [List.filter_eq_nil_iff]
    simpa [hasDangling] using h
  simp [danglingComments, hnone]

/-- Comments inside a node and what follows them, on a line of its own if there are any. Counterpart
of `Context.danglingSlots`. -/
theorem settled_danglingThen (h : Settled slots) :
    Settled (context.danglingSlots node ++
      (if (context.danglingComments node false).isEmpty then .pad else .hard) :: slots) := by
  cases hempty : (context.danglingComments node false).isEmpty with
  | true => simpa [danglingSlots, List.isEmpty_iff.1 hempty] using h
  | false => exact settled_dangling h

/-- There is no comment in a body that is not followed by a line break. Counterpart of
`Context.hasBody`. -/
theorem bodySlots_eq_nil (h : context.hasBody node body = false) :
    context.bodySlots node body = [] := by
  obtain ⟨hbody, hdangling⟩ := Bool.or_eq_false_iff.1 h
  have hbody : body = [] := by simpa using hbody
  have hdangling : context.danglingComments node false = [] := by simpa using hdangling
  simp [bodySlots, danglingSlots, hbody, hdangling]

/-- A body and what follows it, on a line of its own unless the body is empty. Counterpart of
`Context.bodySlots`. -/
theorem settled_bodyThen (h : ∀ statement ∈ body, Settled statement.slots)
    (hslots : Settled slots) :
    Settled (context.bodySlots node body ++
      (if context.hasBody node body then .hard else .space) :: slots) := by
  cases hhas : context.hasBody node body with
  | true => exact settled_body h hslots
  | false => simpa [bodySlots_eq_nil hhas] using hslots

/-- A body with its closing keyword is settled. Counterpart of `Context.bodyEndSlots`. -/
theorem settled_bodyEnd (h : ∀ statement ∈ body, Settled statement.slots) :
    Settled (context.bodyEndSlots node body) :=
  settled_bodyThen h (by simp)

/-- Arguments with commas are settled. Counterpart of `Context.argumentSlots`. -/
theorem settled_arguments (h : ∀ argument ∈ body, Settled argument.slots) :
    Settled (context.argumentSlots body) := by
  fun_induction argumentSlots context body with
  | case1 => exact settled_nil
  | case2 last => exact h last (by simp)
  | case3 argument next rest ih =>
    have hrest := ih fun other hother => h other (List.mem_cons_of_mem _ hother)
    refine (h argument (by simp)).append (settled_symbol _ |>.2 (Settled.append ?_ hrest))
    split <;> simp

/-- A whole file is settled: its shebang and its comments end their lines. Counterpart of
`Context.chunkSlots`. -/
theorem settled_chunk (h : ∀ statement ∈ body, Settled statement.slots) :
    Settled (context.chunkSlots node body) := by
  have hend : Settled [Slot.hard] := by simp
  refine Settled.append ?_ (Settled.append ?_ ?_)
  · unfold shebangSlots
    split
    · refine Settled.append ⟨fun _ => rfl, hend⟩ ?_
      split <;> simp
    · exact settled_nil
  · split
    · exact settled_nil
    · exact (settled_statements h).append hend
  · split
    · exact settled_nil
    · exact settled_lineSlots _ settled_nil

end Context

/-- Lists with commas between them are settled if each of them is. Counterpart of `commaSlots`. -/
theorem settled_commas {lists : List (List Slot)} (h : ∀ list ∈ lists, Settled list) :
    Settled (commaSlots lists) :=
  settled_intercalate h (by simp)

/-- A key between brackets is settled. Counterpart of `bracketSlots`. -/
theorem settled_brackets {slots : List Slot} (key : Node) (h : Settled slots) :
    Settled (bracketSlots key slots) := by
  have hclose : Settled [Slot.symbol .rightSquare] := by simp
  unfold bracketSlots
  split
  · simpa using h.append (settled_space.2 hclose)
  · simpa using h.append hclose

/-- An expression between parentheses is settled. Counterpart of `parenSlots`. -/
theorem settled_parens {slots : List Slot} (h : Settled slots) : Settled (parenSlots slots) := by
  have hclose : Settled [Slot.soft, .symbol .rightParen] := by simp
  simpa [parenSlots] using h.append hclose

/-- An expression with the parentheses that it needs is settled. Counterpart of `needsParens`. -/
theorem settled_parens_if {slots : List Slot} {place : Place} {node : Node} (h : Settled slots) :
    Settled (if needsParens place node then parenSlots slots else slots) := by
  split
  · exact settled_parens h
  · exact h

/-- A literal is settled. Counterpart of `literalSlot`. -/
theorem settled_literal (style : Style) (kind : LiteralKind) (text : String) :
    Settled [literalSlot style kind text] := by
  refine ⟨?_, trivial⟩
  cases kind <;> exact nofun

@[simp] theorem settled_binaryOp (op : BinaryOp) {slots : List Slot} :
    Settled (.fixed op.kind :: slots) ↔ Settled slots := by
  refine ⟨And.right, fun h => ⟨?_, h⟩⟩
  cases op <;> exact nofun

@[simp] theorem settled_unaryOp (op : UnaryOp) {slots : List Slot} :
    Settled (.fixed op.kind :: slots) ↔ Settled slots := by
  refine ⟨And.right, fun h => ⟨?_, h⟩⟩
  cases op <;> exact nofun

/-! ## Every spelling is settled -/

/-- The spelling of a node may stand where it does: a branch before a line break, and any other node
before anything. -/
def SettledNode (node : Node) (slots : List Slot) : Prop :=
  Settled (if node.shape.isClause then slots ++ [.hard] else slots)

/-- The slots of a node that is no branch are settled. Counterpart of `SettledNode`. -/
theorem SettledNode.settled {node : Node} {slots : List Slot} (h : SettledNode node slots)
    (hnode : node.shape.isClause = false) : Settled slots := by
  simpa [SettledNode, hnode] using h

/-- The slots of any node are settled with a line break after them, those of a branch with its
comments too. Counterpart of `SettledNode`. -/
theorem SettledNode.before_hard {node : Node} {slots : List Slot} (h : SettledNode node slots) :
    Settled (slots ++ [.hard]) := by
  cases hnode : node.shape.isClause with
  | true => simpa [SettledNode, hnode] using h
  | false => exact (h.settled hnode).append (by simp)

/-- What a branch starts with. Counterpart of `clauseKeyword`. -/
theorem settled_clauseHead {spell : Place → Node → List Slot} (kind : ClauseKind)
    (condition : Option Node) : (∀ node ∈ condition, Settled (spell {} node)) →
    Settled (clauseKeyword kind ++ match condition with
      | some condition => spell {} condition ++ [.space, .keyword .thenK]
      | none => []) := by
  intro h
  refine Settled.append (by cases kind <;> simp [clauseKeyword]) ?_
  cases condition with
  | none => exact settled_nil
  | some condition => simp [settled_append (h condition rfl)]

/-- A branch without a body may stand before anything. Counterpart of `Context.closesOnLine`. -/
theorem settled_of_closesOnLine {context : Context} {place : Place} {clause : Node}
    {spell : Place → Node → List Slot} (h : context.closesOnLine [clause] = true)
    (hchildren : ∀ place, ∀ child ∈ clause.children, Settled (spell place child)) :
    Settled (coreSlots context place clause spell) := by
  obtain ⟨number, shape, span, inParens⟩ := clause
  cases shape with
  | clause kind condition body =>
    obtain ⟨hbody, hdangling⟩ := Bool.and_eq_true_iff.1 h
    obtain rfl : body = [] := by simpa using hbody
    have hnone : context.danglingComments ⟨number, .clause kind condition [], span, inParens⟩ false
        = [] := Context.danglingComments_eq_nil (by simpa using hdangling) false
    have hhead := settled_clauseHead kind condition fun node hnode =>
      hchildren {} node (by simp [Node.children, Shape.children, Option.mem_def.1 hnode])
    have hslots : context.bodySlots ⟨number, .clause kind condition [], span, inParens⟩ [] = [] :=
      Context.bodySlots_eq_nil (by simp [Context.hasBody, hnone])
    simp only [coreSlots, Node.shape, List.map_nil, hslots, List.append_nil]
    exact hhead
  | _ => cases h

/-- The core of a node is settled if its parts are. Counterpart of `coreSlots`. -/
theorem settled_coreSlots {context : Context} {place : Place} {node : Node}
    {spell : Place → Node → List Slot} (hconditional : ∀ clauses, node.shape ≠ .conditional clauses)
    (h : ∀ place, ∀ child ∈ node.children, Settled (spell place child)) :
    SettledNode node (coreSlots context place node spell) := by
  obtain ⟨number, shape, span, inParens⟩ := node
  have hone : ∀ place, ∀ child ∈ shape.children, Settled (spell place child) := h
  have heach : ∀ (nodes : List Node) (place : Place), nodes ⊆ shape.children →
      ∀ list ∈ nodes.map (spell place), Settled list := by
    intro nodes place hsub list hlist
    obtain ⟨child, hchild, rfl⟩ := List.mem_map.1 hlist
    exact h place child (hsub hchild)
  have hindexed : ∀ (nodes : List Node) (place : Nat → Place), nodes ⊆ shape.children →
      ∀ list ∈ nodes.mapIdx fun index child => spell (place index) child, Settled list := by
    intro nodes place hsub list hlist
    obtain ⟨index, hindex, rfl⟩ := List.mem_mapIdx.1 hlist
    exact h _ _ (hsub (List.getElem_mem hindex))
  have hblock : ∀ nodes : List Node, nodes ⊆ shape.children →
      ∀ statement ∈ nodes.map fun child => (⟨child, spell {} child⟩ : Spelled),
        Settled statement.slots := by
    intro nodes hsub statement hstatement
    obtain ⟨child, hchild, rfl⟩ := List.mem_map.1 hstatement
    exact h {} child (hsub hchild)
  have harguments : ∀ (nodes : List Node) (place : Nat → Place), nodes ⊆ shape.children →
      ∀ argument ∈ nodes.mapIdx fun index child => (⟨child, spell (place index) child⟩ : Spelled),
        Settled argument.slots := by
    intro nodes place hsub argument hargument
    obtain ⟨index, hindex, rfl⟩ := List.mem_mapIdx.1 hargument
    exact h _ _ (hsub (List.getElem_mem hindex))
  cases shape with
  | chunk body => exact Context.settled_chunk (hblock body fun _ h => h)
  | localVariables names initial =>
    have hnames := settled_commas (heach names {} (by simp [Shape.children]))
    have hinitial := settled_commas (hindexed initial (Place.value initial.length)
      (by simp [Shape.children]))
    simp only [SettledNode, coreSlots, Node.shape, Shape.isClause]
    cases initial with
    | nil => simpa using hnames
    | cons => simpa [settled_append hnames] using hinitial
  | assignment targets assigned =>
    have htargets := settled_commas (heach targets {} (by simp [Shape.children]))
    have hassigned := settled_commas (hindexed assigned (Place.value assigned.length)
      (by simp [Shape.children]))
    simpa [SettledNode, coreSlots, Node.shape, Shape.isClause,
      settled_append htargets] using hassigned
  | callStatement expression => exact hone {} expression (by simp [Shape.children])
  | function isLocal name parameters body =>
    have hparameters := settled_commas (heach parameters {} fun _ h => by simp [Shape.children, h])
    have hbody := hblock body fun _ h => by simp [Shape.children, h]
    have hlist : Settled (if parameters.isEmpty then
        context.emptyParensSlots ⟨number, .function isLocal name parameters body, span, inParens⟩
        else
          .symbol .leftParen :: .soft :: (commaSlots (parameters.map (spell {})) ++
            [.soft, .symbol .rightParen])) := by
      split
      · exact Context.settled_emptyParens
      · simp [settled_append hparameters]
    simp only [SettledNode, coreSlots, Node.shape, Shape.isClause]
    refine Settled.append (by split <;> simp) ((settled_keyword _).2
      (Settled.append ?_ (hlist.append (Context.settled_bodyEnd hbody))))
    cases name with
    | none => exact settled_nil
    | some name => simpa using hone {} name (by simp [Shape.children])
  | conditional clauses => exact absurd rfl (hconditional clauses)
  | clause kind condition body =>
    have hbody := hblock body fun _ h => by simp [Shape.children, h]
    have hhead := settled_clauseHead kind condition fun node hnode =>
      hone {} node (by simp [Shape.children, Option.mem_def.1 hnode])
    simp only [SettledNode, coreSlots, Node.shape, Shape.isClause, if_true]
    rw [← List.append_assoc, List.append_assoc]
    exact hhead.append (Context.settled_body hbody settled_nil)
  | whileLoop condition body =>
    have hcondition := hone {} condition (by simp [Shape.children])
    have hbody := hblock body fun _ h => by simp [Shape.children, h]
    simpa [SettledNode, coreSlots, Node.shape, Shape.isClause, settled_append hcondition] using
      Context.settled_bodyEnd hbody
  | doBlock body =>
    have hbody := hblock body fun _ h => by simp [Shape.children, h]
    simpa [SettledNode, coreSlots, Node.shape, Shape.isClause] using Context.settled_bodyEnd hbody
  | repeatLoop body condition =>
    have hcondition := hone {} condition (by simp [Shape.children])
    have hbody := hblock body fun _ h => by simp [Shape.children, h]
    simp only [SettledNode, coreSlots, Node.shape, Shape.isClause]
    exact (settled_keyword _).2 (Context.settled_bodyThen hbody (by simpa using hcondition))
  | numericFor counter first last step body =>
    have hcounter := hone {} counter (by simp [Shape.children])
    have hfirst := hone {} first (by simp [Shape.children])
    have hlast := hone {} last (by simp [Shape.children])
    have hbody := hblock body fun _ h => by simp [Shape.children, h]
    cases step with
    | none =>
      simpa [SettledNode, coreSlots, Node.shape, Shape.isClause, settled_append hcounter,
        settled_append hfirst, settled_append hlast] using Context.settled_bodyEnd hbody
    | some step =>
      have hstep := hone {} step (by simp [Shape.children])
      simpa [SettledNode, coreSlots, Node.shape, Shape.isClause, settled_append hcounter,
        settled_append hfirst, settled_append hlast, settled_append hstep] using
        Context.settled_bodyEnd hbody
  | genericFor names iterators body =>
    have hnames := settled_commas (heach names {} fun _ h => by simp [Shape.children, h])
    have hiterators := settled_commas (hindexed iterators (Place.argument iterators.length)
      fun _ h => by simp [Shape.children, h])
    have hbody := hblock body fun _ h => by simp [Shape.children, h]
    simpa [SettledNode, coreSlots, Node.shape, Shape.isClause, settled_append hnames,
      settled_append hiterators] using Context.settled_bodyEnd hbody
  | returnStatement returned =>
    have hreturned := settled_commas (hindexed returned (Place.value returned.length)
      (by simp [Shape.children]))
    cases returned with
    | nil => simp [SettledNode, coreSlots, Node.shape, Shape.isClause]
    | cons => simpa [SettledNode, coreSlots, Node.shape, Shape.isClause] using hreturned
  | gotoStatement label =>
    have hlabel := hone {} label (by simp [Shape.children])
    simpa [SettledNode, coreSlots, Node.shape, Shape.isClause] using hlabel
  | labelStatement label =>
    have hlabel := hone {} label (by simp [Shape.children])
    simp [SettledNode, coreSlots, Node.shape, Shape.isClause, settled_append hlabel]
  | breakStatement | identifier _ | invalid =>
    simp [SettledNode, coreSlots, Node.shape, Shape.isClause]
  | literal kind text => exact settled_literal context.style kind text
  | table fields =>
    have hfields := settled_commas (hindexed fields (Place.argument fields.length)
      (by simp [Shape.children]))
    simp only [SettledNode, coreSlots, Node.shape, Shape.isClause]
    cases hempty : fields.isEmpty with
    | false => simp [settled_append hfields]
    | true =>
      simp only [if_true, Bool.false_eq_true, if_false, settled_symbol]
      exact Context.settled_danglingThen (by simp)
  | keyField key value =>
    have hvalue := hone Place.field value (by simp [Shape.children])
    simp only [SettledNode, coreSlots, Node.shape, Shape.isClause]
    refine Settled.append ?_ (by simpa using hvalue)
    cases keyName? key with
    | none => exact settled_brackets key (hone Place.field key (by simp [Shape.children]))
    | some name => exact Context.settled_commented (by simp)
  | nameField name value =>
    have hname := hone {} name (by simp [Shape.children])
    have hvalue := hone Place.field value (by simp [Shape.children])
    simpa [SettledNode, coreSlots, Node.shape, Shape.isClause, settled_append hname] using hvalue
  | valueField value => exact hone _ value (by simp [Shape.children])
  | binary op left right =>
    have hleft := hone (Place.left op) left (by simp [Shape.children])
    have hright := hone (Place.right op) right (by simp [Shape.children])
    simpa [SettledNode, coreSlots, Node.shape, Shape.isClause, settled_append hleft] using hright
  | unary op operand =>
    have hoperand := hone {} operand (by simp [Shape.children])
    simp only [SettledNode, coreSlots, Node.shape, Shape.isClause]
    exact (settled_unaryOp op).2 (Settled.append (by split <;> simp) hoperand)
  | member indexer base name =>
    have hbase := hone Place.base base (by simp [Shape.children])
    have hname := hone {} name (by simp [Shape.children])
    cases indexer <;>
      simpa [SettledNode, coreSlots, Node.shape, Shape.isClause, settled_append hbase] using hname
  | index base key =>
    exact (hone Place.base base (by simp [Shape.children])).append
      (settled_brackets key (hone {} key (by simp [Shape.children])))
  | call base arguments =>
    have harguments : Settled (context.argumentSlots _) :=
      Context.settled_arguments (harguments arguments (Place.argument arguments.length) 
        (by simp [Shape.children]))
    refine (hone Place.base base (by simp [Shape.children])).append ?_
    split
    · exact Context.settled_emptyParens
    · simp [settled_append harguments]
  | tableCall base argument | stringCall base argument =>
    exact (hone Place.base base (by simp [Shape.children])).append
      (hone {} argument (by simp [Shape.children]))

/-- The branches of a conditional and the keyword that closes it. Counterpart of `coreSlots` for
`Shape.conditional`. -/
theorem settled_conditional {context : Context} {place : Place} {node : Node} {clauses : List Node}
    {spell : Place → Node → List Slot} (hshape : node.shape = .conditional clauses)
    (h : ∀ clause ∈ clauses, Settled (spell {} clause ++ [.hard]))
    (hline : ∀ clause, context.closesOnLine [clause] = true → clause ∈ clauses →
      Settled (spell {} clause)) :
    Settled (coreSlots context place node spell) := by
  simp only [coreSlots, hshape]
  cases hcloses : context.closesOnLine clauses with
  | true =>
    cases clauses with
    | nil => cases hcloses
    | cons clause rest =>
      cases rest with
      | nil => simp [settled_append (hline clause hcloses (by simp))]
      | cons second rest => cases hcloses
  | false =>
    refine settled_intercalate_hard (fun list hlist => ?_) (by simp)
    obtain ⟨clause, hclause, rfl⟩ := List.mem_map.1 hlist
    exact h clause hclause

/-- No comment is printed after a branch. Counterpart of `Context.placed`. -/
theorem placed_clause {source : List Char} (h : (parse source).isValid = true) (style : Style)
    {clause : Node} (hpart : clause.Part (parse source).root)
    (hclause : clause.shape.isClause = true) :
    (Context.ofProgram (parse source) style).placed clause .trailing = [] := by
  rw [Context.placed, List.map_eq_nil_iff, List.filter_eq_nil_iff]
  intro attachment hattachment htrailing
  obtain ⟨hmem, hnumber⟩ := List.mem_filter.1 hattachment
  obtain ⟨howner, hnone⟩ := owner_spec h hmem
  have heq : attachment.owner = clause :=
    eq_of_number_eq howner hpart (of_decide_eq_true hnumber)
  rw [← heq, hnone (of_decide_eq_true htrailing)] at hclause
  cases hclause

/-- Only a conditional has branches for parts. Counterpart of `Shape.isClause`. -/
theorem isClause_children_part {source : List Char} (h : (parse source).isValid = true)
    {part : Node} (hpart : part.Part (parse source).root) :
    (∃ clauses, part.shape = .conditional clauses) ∨
      ∀ child ∈ part.children, child.shape.isClause = false := by
  rcases derives_part h hpart with rfl | ⟨rule, first, front, us, back, -, -, -, hderives⟩
  · have hderives := derives_of_isValid h
    exact .inr fun child hchild => hderives.isClause_eq_false rfl hchild
  · simpa [Node.children] using hderives.isClause_children part.bare (by simp)

/-- A branch is spelled before a line break, since no comment follows it. Counterpart of
`Context.commented` for a branch. -/
theorem settled_commented_clause {source : List Char} (h : (parse source).isValid = true)
    (style : Style) {clause : Node} (hpart : clause.Part (parse source).root)
    (hclause : clause.shape.isClause = true) {slots : List Slot}
    (hslots : Settled (slots ++ [.hard])) :
    Settled ((Context.ofProgram (parse source) style).commented clause slots ++ [.hard]) := by
  rw [Context.commented, placed_clause h style hpart hclause, List.flatMap_nil, List.append_nil,
    List.append_assoc]
  exact (Settled.flatMap fun comment _ => Context.settled_leading comment).append hslots

/-- A branch gets no parentheses. Counterpart of `needsParens`. -/
theorem needsParens_clause {clause : Node} (h : clause.shape.isClause = true) {place : Place}
    (hplace : place.isBase = false) : needsParens place clause = false := by
  obtain ⟨number, shape, span, inParens⟩ := clause
  cases shape <;> simp_all [Shape.isClause, needsParens]

/-- The spelling of every part of a valid program is settled. Counterpart of `spell`. -/
theorem settled_spell {source : List Char} (h : (parse source).isValid = true) (style : Style)
    (place : Place) (part : Node) (hpart : part.Part (parse source).root)
    (hplace : part.shape.isClause = true → place.isBase = false) :
    SettledNode part (spell (Context.ofProgram (parse source) style) place part) := by
  have hparts : ∀ place, ∀ inner, inner.size < part.size → inner.Part part →
      (inner.shape.isClause = true → place.isBase = false) →
        SettledNode inner (spell (Context.ofProgram (parse source) style) place inner) :=
    fun place inner hsize hinner => settled_spell h style place inner (hinner.trans hpart)
  -- A part that is no conditional has no branches for parts, so the spellings of its parts are
  -- settled.
  have hplain : ∀ inner : Node, inner.Part part → (∀ clauses, inner.shape ≠ .conditional clauses) →
      ∀ place, ∀ child ∈ inner.children,
        Settled (spell (Context.ofProgram (parse source) style) place child) := by
    intro inner hinner hshape place child hchild
    have hclause := (isClause_children_part h (hinner.trans hpart)).resolve_left
      (fun ⟨clauses, hclauses⟩ => hshape clauses hclauses) child hchild
    have hsize : child.size < part.size :=
      Nat.lt_of_lt_of_le (Node.size_lt_of_mem_children hchild) hinner.size_le
    exact (hparts place child hsize ((Node.Part.of_mem_children hchild).trans hinner)
      (by simp [hclause])).settled hclause
  rw [spell_eq]
  by_cases hconditional : ∃ clauses, part.shape = .conditional clauses
  · obtain ⟨clauses, hshape⟩ := hconditional
    have hmem : ∀ clause ∈ clauses, clause ∈ part.children := by
      simp [Node.children, hshape, Shape.children]
    rw [SettledNode, hshape]
    refine Context.settled_commented (settled_parens_if (settled_conditional hshape ?_ ?_))
    · intro clause hclause
      exact (hparts {} clause (Node.size_lt_of_mem_children (hmem clause hclause))
        (.of_mem_children (hmem clause hclause)) fun _ => rfl).before_hard
    · intro clause hcloses hclause
      rw [spell_eq]
      refine Context.settled_commented (settled_parens_if (settled_of_closesOnLine hcloses ?_))
      refine hplain clause (.of_mem_children (hmem clause hclause)) fun inner hinner => ?_
      simp [Context.closesOnLine, hinner] at hcloses
  · have hcore : SettledNode part (coreSlots (Context.ofProgram (parse source) style) place part
        (spell (Context.ofProgram (parse source) style))) :=
      settled_coreSlots (not_exists.1 hconditional)
      (hplain part (.self part) (not_exists.1 hconditional))
    cases hclause : part.shape.isClause with
    | false =>
      rw [SettledNode, hclause]
      exact Context.settled_commented (settled_parens_if (hcore.settled hclause))
    | true =>
      rw [SettledNode, hclause, needsParens_clause hclause (hplace hclause)]
      exact settled_commented_clause h style hpart hclause hcore.before_hard
termination_by part.size
decreasing_by exact hsize

/-! ## Words of settled slots -/

/-- The text of a token that is no line comment does not change what may follow. Counterpart of
`Kind.marks`. -/
theorem calm_marks {kind : Kind} (h : kind.isNote = false) (text : List Char) {word : List Mark}
    (hword : Calm false word) : Calm false (kind.marks text ++ word) := by
  induction text with
  | nil => exact hword
  | cons c rest ih =>
    show Calm false ((if kind.isVerbatim ∧ c = '\n' then .ink .literal
      else .ink (.char kind.isNote c)) :: (kind.marks rest ++ word))
    rw [h]
    split
    · exact .break_ rfl ih
    · exact .char nofun ih

/-- The text of a line comment is calm before a line break. Counterpart of `Kind.marks` for
`Kind.isNote`. -/
theorem calm_marks_note {kind : Kind} (h : kind.isNote = true) (text : List Char) {word : List Mark}
    (hword : ∀ after, Calm after word) {after : Bool} : Calm after (kind.marks text ++ word) := by
  have hverbatim : kind.isVerbatim = false := by cases kind <;> first | rfl | cases h
  rw [marks_of_not_verbatim hverbatim, h]
  exact Calm.note text hword

/-- A comment that is put off is calm wherever it comes to stand. Counterpart of `Piece.later`. -/
theorem calm_later {breaks : Nat} {kind : Kind} {text : List Char} {levels : List Nat}
    (h : breaks = 0 → kind.isNote = true) (hlevels : levels.length = breaks) (after : Bool) :
    Calm after ((if levels.isEmpty then [.ink (.char false ' ')]
      else levels.map fun level => .ink (.newline level)) ++ kind.marks text) := by
  have htext : Calm false (kind.marks text) := by
    cases hnote : kind.isNote with
    | true => simpa using @calm_marks_note kind hnote text [] (fun _ => .nil) false
    | false => simpa using calm_marks hnote text .nil
  cases levels with
  | nil =>
    have hnote := h hlevels.symm
    refine .char (fun _ => .inr rfl) ?_
    simpa using @calm_marks_note kind hnote text [] (fun _ => .nil) (after || false)
  | cons level levels =>
    clear h hlevels
    refine .break_ rfl ?_
    induction levels with
    | nil => exact htext
    | cons next levels ih => exact .break_ rfl ih

/-- Settled slots give calm words, and those that start with a line break may follow a line comment.
Counterpart of `Settled`. -/
theorem calm_of_settled {slots : List Slot} {pieces : List Piece} (h : Settled slots)
    (hpieces : Resolves slots pieces) :
    Calm false (pieces.flatMap Piece.marks) ∧
      (slots.head? = some .hard → ∀ after, Calm after (pieces.flatMap Piece.marks)) := by
  induction slots generalizing pieces with
  | nil =>
    cases hpieces
    exact ⟨.nil, nofun⟩
  | cons slot rest ih =>
    obtain ⟨front, back, rfl, hfront, hback⟩ := hpieces
    obtain ⟨hslot, hrest⟩ := h
    obtain ⟨hcalm, hbreak⟩ := ih hrest hback
    have hnewline : ∀ level after, Calm after
        ([Piece.newline level].flatMap Piece.marks ++ back.flatMap Piece.marks) :=
      fun level after => .break_ rfl hcalm
    have hspace : Calm false ([Piece.space].flatMap Piece.marks ++ back.flatMap Piece.marks) :=
      .char nofun hcalm
    rw [List.flatMap_append]
    cases slot with
    | token kind text =>
      cases hfront
      refine ⟨?_, nofun⟩
      rw [List.flatMap_singleton]
      cases hnote : kind.isNote with
      | true => exact calm_marks_note hnote text (hbreak (hslot hnote))
      | false => exact calm_marks hnote text hcalm
    | space =>
      cases hfront
      exact ⟨hspace, nofun⟩
    | gap =>
      refine ⟨?_, nofun⟩
      rcases hfront with rfl | ⟨level, rfl⟩
      · exact hspace
      · exact hnewline level false
    | soft =>
      refine ⟨?_, nofun⟩
      rcases hfront with rfl | ⟨level, rfl⟩
      · exact hcalm
      · exact hnewline level false
    | pad =>
      refine ⟨?_, nofun⟩
      rcases hfront with rfl | rfl | ⟨level, rfl⟩
      · exact hcalm
      · exact hspace
      · exact hnewline level false
    | hard =>
      obtain ⟨level, rfl⟩ := hfront
      exact ⟨hnewline level false, fun _ => hnewline level⟩
    | comma =>
      refine ⟨?_, nofun⟩
      rcases hfront with rfl | rfl
      · exact hcalm
      · exact calm_marks rfl [','] hcalm
    | later breaks kind text =>
      obtain ⟨levels, hlevels, rfl⟩ := hfront
      exact ⟨.later (calm_later hslot hlevels) hcalm, nofun⟩

/-- After a character of a note, there are only characters of notes and blanks between them before
the next line break. -/
def NotesEndLines (inks : List Ink) : Prop :=
  ∀ (front middle back : List Ink) (c : Char) (ink : Ink),
    inks = front ++ .char true c :: (middle ++ ink :: back) →
      (∀ other ∈ middle, other.isBreak = false) → ink.MayFollowNote

/-- Code is never commented out. The output is what inks leave on paper, and these are the tokens
and comments of the program, put off to the ends of lines where they are; on a line with a line
comment or the shebang, nothing follows but line comments. Counterpart of `format`. -/
theorem notesEndLines_format {source : List Char} (h : (parse source).isValid = true)
    (style : Style) :
    ∃ pieces inks,
      Resolves (spell (.ofProgram (parse source) style) {} (parse source).root) pieces ∧
      Flushed [] (pieces.flatMap Piece.marks) inks ∧
      format source style = render style inks ∧
      NotesEndLines inks := by
  obtain ⟨word, hword, hflushed⟩ := flushed_traceOf style ((parse source).toDoc style)
  obtain ⟨pieces, hpieces, rfl⟩ := implements_compile _ {} (parse source).root .broken 0 word hword
  have hsettled := settled_spell h style {} (parse source).root (.self _) fun _ => rfl
  have hcalm := (calm_of_settled (hsettled.settled rfl) hpieces).1
  refine ⟨pieces, _, hpieces, hflushed, Doc.layout_eq_render style _, ?_⟩
  intro front middle back c ink hinks hmiddle
  have htrace := hflushed.calm (fun _ => .nil) hcalm
  rw [hinks] at htrace
  exact htrace.mayFollowNote hmiddle

/-- A source with a shebang, a comment between parentheses, one after a branch that is empty and two
at the end of a line. -/
theorem notesEndLines_format_shebang :
    let source := "#!lua\nf(--a\n)\nif x then --b\nend --c\n--d".toList
    (parse source).isValid = true ∧ ∃ pieces inks,
      Resolves (spell (.ofProgram (parse source) {}) {} (parse source).root) pieces ∧
      Flushed [] (pieces.flatMap Piece.marks) inks ∧
      format source {} = render {} inks ∧
      NotesEndLines inks :=
  ⟨by decide +kernel, notesEndLines_format (by decide +kernel) {}⟩

end LuaFormatter
