import LuaFormatter.Proofs.Grammar.Yield
import LuaFormatter.Proofs.Spelling.Spell

/-!
# The texts of a spelling

Every text in a spelling is that of a symbol or a keyword, of a name or a literal of the tree, of a
comment, or of the shebang. So a property that holds of all these holds of all that is written
(`hasTexts_spell`).
-/

namespace LuaFormatter

/-- The text that a slot stands for, if there is one, has a property. -/
def Slot.HasText (P : Kind → List Char → Prop) : Slot → Prop
  | token kind text | later _ kind text => P kind text
  | comma => P (.symbol .comma) [',']
  | _ => True

/-- The texts of all slots have a property. -/
def HasTexts (P : Kind → List Char → Prop) (slots : List Slot) : Prop :=
  ∀ slot ∈ slots, slot.HasText P

section
variable {P : Kind → List Char → Prop} {front back slots : List Slot} {slot : Slot}

@[simp] theorem hasTexts_nil : HasTexts P [] :=
  nofun

@[simp] theorem hasTexts_cons : HasTexts P (slot :: slots) ↔ slot.HasText P ∧ HasTexts P slots :=
  List.forall_mem_cons

@[simp] theorem hasTexts_append :
    HasTexts P (front ++ back) ↔ HasTexts P front ∧ HasTexts P back :=
  List.forall_mem_append

@[simp] theorem hasText_space : Slot.space.HasText P :=
  trivial

@[simp] theorem hasText_gap : Slot.gap.HasText P :=
  trivial

@[simp] theorem hasText_soft : Slot.soft.HasText P :=
  trivial

@[simp] theorem hasText_pad : Slot.pad.HasText P :=
  trivial

@[simp] theorem hasText_hard : Slot.hard.HasText P :=
  trivial

/-- The slots of all items have the property if those of each do. Counterpart of `HasTexts`. -/
theorem HasTexts.flatMap {α : Type} {items : List α} {slotsOf : α → List Slot}
    (h : ∀ item ∈ items, HasTexts P (slotsOf item)) : HasTexts P (items.flatMap slotsOf) := by
  intro slot hslot
  obtain ⟨item, hitem, hslot⟩ := List.mem_flatMap.1 hslot
  exact h item hitem slot hslot

/-- Lists of slots with a separator between them have the property. Counterpart of `HasTexts`. -/
theorem HasTexts.intercalate {separator : List Slot} (hseparator : HasTexts P separator) :
    ∀ {lists : List (List Slot)}, (∀ list ∈ lists, HasTexts P list) →
      HasTexts P (separator.intercalate lists)
  | [], _ => hasTexts_nil
  | [last], h => by simpa using h last (by simp)
  | first :: second :: rest, h => by
    rw [List.intercalate_cons_cons, List.append_assoc, hasTexts_append, hasTexts_append]
    exact ⟨h first (by simp), hseparator,
      intercalate hseparator fun list hlist => h list (List.mem_cons_of_mem _ hlist)⟩

end

/-- The texts that are written besides those of the tree have a property: those of symbols and
keywords, of comments, of the shebang, and of names that were keys. -/
structure Context.Writes (context : Context) (P : Kind → List Char → Prop) : Prop where
  fixed : ∀ kind : Kind, kind.isFixed = true → P kind kind.describe.toList
  name : ∀ name : String, isName name = true → P .identifier name.toList
  comment : ∀ attachment ∈ context.attachments,
    P attachment.comment.kind attachment.comment.written
  shebang : ∀ token ∈ context.shebang, P .shebang (trimEnd token.lexeme)

/-- The text of a leaf, as it is written in a style, has a property. -/
def Shape.HasText {α : Type} (style : Style) (P : Kind → List Char → Prop) : Shape α → Prop
  | identifier name => P .identifier name.toList
  | literal kind text => (literalSlot style kind text).HasText P
  | _ => True

namespace Context.Writes

variable {context : Context} {P : Kind → List Char → Prop} (h : context.Writes P)
  {node : Node} {slots : List Slot} {statements : List Spelled}
include h

/-! ## The parts of a spelling -/

/-- The text of a symbol has the property. Counterpart of `Context.Writes`. -/
theorem symbol (mark : Symbol) : (Slot.symbol mark).HasText P :=
  h.fixed (.symbol mark) rfl

/-- The text of a keyword has the property. Counterpart of `Context.Writes`. -/
theorem keyword (word : Keyword) : (Slot.keyword word).HasText P :=
  h.fixed (.keyword word) rfl

/-- An operator between operands is a symbol or a keyword. Counterpart of `BinaryOp.kind`. -/
theorem binaryOp (op : BinaryOp) : (Slot.fixed op.kind).HasText P :=
  h.fixed op.kind (by cases op <;> rfl)

/-- An operator before an operand is a symbol or a keyword. Counterpart of `UnaryOp.kind`. -/
theorem unaryOp (op : UnaryOp) : (Slot.fixed op.kind).HasText P :=
  h.fixed op.kind (by cases op <;> rfl)

omit h in
/-- A comment before a node has the property. Counterpart of `Context.leadingSlots`. -/
theorem leading {comment : Comment} (hcomment : P comment.kind comment.written) :
    HasTexts P (context.leadingSlots comment) := by
  have hslot : comment.slot.HasText P := hcomment
  unfold leadingSlots
  dsimp only
  split <;> split <;> simp [hslot]

omit h in
/-- A comment after a node has the property. Counterpart of `Context.trailingSlots`. -/
theorem trailing {comment : Comment} (hcomment : P comment.kind comment.written) :
    HasTexts P (context.trailingSlots comment) := by
  have hslot : comment.slot.HasText P := hcomment
  have hlater : ∀ breaks, (Slot.later breaks comment.kind comment.written).HasText P :=
    fun _ => hcomment
  unfold trailingSlots
  dsimp only
  split
  · simp [hlater]
  · split <;> simp [hslot, hlater]

/-- The comments of a node have the property. Counterpart of `Context.owned`. -/
theorem owned {comment : Comment} (hmem : comment ∈ (context.owned node).map Attachment.comment) :
    P comment.kind comment.written := by
  obtain ⟨attachment, hattachment, rfl⟩ := List.mem_map.1 hmem
  exact h.comment attachment (List.mem_filter.1 hattachment).1

/-- The comments of a node at one placement have the property. Counterpart of `Context.placed`. -/
theorem placed {placement : Placement} :
    ∀ comment ∈ context.placed node placement, P comment.kind comment.written := by
  intro comment hmem
  obtain ⟨attachment, hattachment, rfl⟩ := List.mem_map.1 hmem
  exact h.owned (List.mem_map_of_mem (List.mem_filter.1 hattachment).1)

/-- The comments inside a node have the property. Counterpart of `Context.danglingComments`. -/
theorem dangling (node : Node) (betweenParens : Bool) :
    ∀ comment ∈ context.danglingComments node betweenParens, P comment.kind comment.written := by
  intro comment hmem
  obtain ⟨attachment, hattachment, rfl⟩ := List.mem_map.1 (List.mem_filter.1 hmem).1
  exact h.owned (List.mem_map_of_mem (List.mem_filter.1 hattachment).1)

/-- Comments around slots. Counterpart of `Context.commented`. -/
theorem commented (hslots : HasTexts P slots) : HasTexts P (context.commented node slots) := by
  simp only [Context.commented, hasTexts_append]
  exact ⟨⟨.flatMap fun comment hmem => leading (h.placed comment hmem), hslots⟩,
    .flatMap fun comment hmem => trailing (h.placed comment hmem)⟩

omit h in
/-- Comments with a separator between them have the property. Counterpart of `List.intercalate`. -/
theorem joined {separator : Slot} (hseparator : separator.HasText P) {comments : List Comment}
    (hcomments : ∀ comment ∈ comments, P comment.kind comment.written) :
    HasTexts P ([separator].intercalate (comments.map fun comment => [comment.slot])) := by
  refine .intercalate (by simpa using hseparator) fun list hlist => ?_
  obtain ⟨comment, hcomment, rfl⟩ := List.mem_map.1 hlist
  have hslot : comment.slot.HasText P := hcomments comment hcomment
  simpa using hslot

/-- The slots of the comments inside a node have the property. Counterpart of
`Context.danglingSlots`. -/
theorem danglingSlots : HasTexts P (context.danglingSlots node) := by
  have hcomments := joined hasText_hard (h.dangling node false)
  unfold Context.danglingSlots
  split
  · exact hasTexts_nil
  · rw [hasTexts_cons]
    exact ⟨hasText_hard, hcomments⟩

/-- Empty parentheses with comments between them have the property. Counterpart of
`Context.emptyParensSlots`. -/
theorem emptyParens : HasTexts P (context.emptyParensSlots node) := by
  have hcomments := h.dangling node true
  unfold emptyParensSlots
  generalize context.danglingComments node true = comments at hcomments
  split
  · simp [h.symbol]
  · have hbreaks : ∀ (breaks : Prop) [Decidable breaks] (other : Slot), other.HasText P →
        (if breaks then Slot.hard else other).HasText P := by
      intro breaks _ other hother
      split
      · exact hasText_hard
      · exact hother
    simp only [hasTexts_cons, hasTexts_append, h.symbol, hbreaks, hasText_soft, hasTexts_nil,
      true_and, and_true]
    exact joined (hbreaks _ _ hasText_gap) hcomments

/-- Statements with their semicolons have the property. Counterpart of `Context.separatedSlots`. -/
theorem separated (hbody : ∀ statement ∈ statements, HasTexts P statement.slots) :
    ∀ slots ∈ context.separatedSlots statements, HasTexts P slots := by
  fun_induction separatedSlots context statements with
  | case1 => nofun
  | case2 last => simpa using hbody last (by simp)
  | case3 statement next rest ih =>
    intro slots hslots
    rcases List.mem_cons.1 hslots with rfl | hslots
    · simp only [hasTexts_append]
      refine ⟨hbody statement (by simp), ?_, ?_⟩ <;> split <;> simp [h.symbol]
    · exact ih (fun other hother => hbody other (List.mem_cons_of_mem _ hother)) slots hslots

/-- Statements on lines of their own have the property. Counterpart of `Context.statementSlots`. -/
theorem statementSlots (hbody : ∀ statement ∈ statements, HasTexts P statement.slots) :
    HasTexts P (context.statementSlots statements) :=
  .intercalate (by simp) (h.separated fun statement hstatement =>
    hbody statement ((List.mem_filter.1 hstatement).1))

/-- A body has the property, also one of comments only. Counterpart of `Context.bodySlots`. -/
theorem body (node : Node) (hbody : ∀ statement ∈ statements, HasTexts P statement.slots) :
    HasTexts P (context.bodySlots node statements) := by
  unfold bodySlots
  rw [hasTexts_append]
  refine ⟨h.danglingSlots, ?_⟩
  split
  · exact hasTexts_nil
  · simpa using h.statementSlots hbody

/-- A body with its closing keyword has the property. Counterpart of `Context.bodyEndSlots`. -/
theorem bodyEnd (node : Node) (hbody : ∀ statement ∈ statements, HasTexts P statement.slots) :
    HasTexts P (context.bodyEndSlots node statements) := by
  unfold bodyEndSlots
  rw [hasTexts_append]
  refine ⟨h.body node hbody, ?_⟩
  split <;> simp [h.keyword]

/-- Arguments have the property. Counterpart of `Context.argumentSlots`. -/
theorem arguments (hbody : ∀ argument ∈ statements, HasTexts P argument.slots) :
    HasTexts P (context.argumentSlots statements) := by
  fun_induction argumentSlots context statements with
  | case1 => exact hasTexts_nil
  | case2 last => exact hbody last (by simp)
  | case3 argument next rest ih =>
    have hrest := ih fun other hother => hbody other (List.mem_cons_of_mem _ hother)
    simp only [hasTexts_append, hasTexts_cons, h.symbol, true_and]
    refine ⟨hbody argument (by simp), ?_, hrest⟩
    split <;> simp

/-- A file has the property, also one of comments only. Counterpart of `Context.chunkSlots`. -/
theorem chunk (hbody : ∀ statement ∈ statements, HasTexts P statement.slots) :
    HasTexts P (context.chunkSlots node statements) := by
  unfold chunkSlots
  simp only [hasTexts_append]
  refine ⟨?_, ?_, ?_⟩
  · unfold shebangSlots
    split
    · rename_i token hshebang
      have hslot : (Slot.token .shebang (trimEnd token.lexeme)).HasText P :=
        h.shebang token hshebang
      simp only [hasTexts_append, hasTexts_cons, hslot, hasText_hard, hasTexts_nil, true_and]
      split <;> simp
    · exact hasTexts_nil
  · split
    · exact hasTexts_nil
    · simpa using h.statementSlots hbody
  · have hcomments := joined hasText_hard (h.dangling node false)
    split
    · exact hasTexts_nil
    · rw [hasTexts_append]
      exact ⟨hcomments, by simp⟩

/-- Lists with commas between them have the property. Counterpart of `commaSlots`. -/
theorem commas {lists : List (List Slot)} (hlists : ∀ list ∈ lists, HasTexts P list) :
    HasTexts P (commaSlots lists) :=
  .intercalate (by simp [h.symbol]) hlists

/-- A key between brackets has the property. Counterpart of `bracketSlots`. -/
theorem brackets (key : Node) (hslots : HasTexts P slots) :
    HasTexts P (bracketSlots key slots) := by
  unfold bracketSlots
  split <;> simp [h.symbol, hslots]

/-- Slots in parentheses have the property. Counterpart of `parenSlots`. -/
theorem parens (hslots : HasTexts P slots) : HasTexts P (parenSlots slots) := by
  simp [parenSlots, h.symbol, hslots]

/-- The keyword of a branch has the property. Counterpart of `clauseKeyword`. -/
theorem clauseKeyword (kind : ClauseKind) : HasTexts P (clauseKeyword kind) := by
  cases kind <;> simp [LuaFormatter.clauseKeyword, h.keyword]

/-- The name that was a key has the property. Counterpart of `keyName?`. -/
theorem keyName {key : Node} {name : String} (hname : keyName? key = some name) :
    (nameSlot name).HasText P := by
  refine h.name name ?_
  unfold keyName? at hname
  split at hname
  · dsimp only at hname
    split at hname
    · rename_i htest
      cases hname
      exact (Bool.and_eq_true_iff.1 htest).2
    · cases hname
  · cases hname

end Context.Writes

/-! ## Every spelling -/

/-- The texts of a node's core have a property if those of its parts do. Counterpart of
`coreSlots`. -/
theorem hasTexts_coreSlots {context : Context} {P : Kind → List Char → Prop} (h : context.Writes P)
    {place : Place} {node : Node} {spell : Place → Node → List Slot}
    (hnode : node.shape.HasText context.style P)
    (hparts : ∀ place, ∀ child ∈ node.children, HasTexts P (spell place child)) :
    HasTexts P (coreSlots context place node spell) := by
  obtain ⟨number, shape, span, inParens⟩ := node
  have hone : ∀ place, ∀ child ∈ shape.children, HasTexts P (spell place child) := hparts
  have heach : ∀ nodes : List Node, nodes ⊆ shape.children →
      HasTexts P (commaSlots (nodes.map (spell {}))) := by
    refine fun nodes hsub => h.commas fun list hlist => ?_
    obtain ⟨child, hchild, rfl⟩ := List.mem_map.1 hlist
    exact hone {} child (hsub hchild)
  have hindexed : ∀ (nodes : List Node) (place : Nat → Place), nodes ⊆ shape.children →
      HasTexts P (commaSlots (nodes.mapIdx fun index child => spell (place index) child)) := by
    refine fun nodes place hsub => h.commas fun list hlist => ?_
    obtain ⟨index, hindex, rfl⟩ := List.mem_mapIdx.1 hlist
    exact hone _ _ (hsub (List.getElem_mem hindex))
  have hblock : ∀ nodes : List Node, nodes ⊆ shape.children →
      ∀ statement ∈ nodes.map fun child => (⟨child, spell {} child⟩ : Spelled),
        HasTexts P statement.slots := by
    intro nodes hsub statement hstatement
    obtain ⟨child, hchild, rfl⟩ := List.mem_map.1 hstatement
    exact hone {} child (hsub hchild)
  have hsymbol := h.symbol
  have hkeyword := h.keyword
  cases shape with
  | chunk body => exact h.chunk (hblock body fun _ h => h)
  | localVariables names initial =>
    have hnames := heach names (by simp [Shape.children])
    have hinitial := hindexed initial (Place.value initial.length) (by simp [Shape.children])
    simp only [coreSlots, Node.shape]
    cases initial with
    | nil => simpa [hkeyword] using hnames
    | cons => simpa [hkeyword, hsymbol, hnames] using hinitial
  | assignment targets assigned =>
    have htargets := heach targets (by simp [Shape.children])
    have hassigned := hindexed assigned (Place.value assigned.length) (by simp [Shape.children])
    simpa [coreSlots, Node.shape, hsymbol, htargets] using hassigned
  | callStatement expression => exact hone {} expression (by simp [Shape.children])
  | function isLocal name parameters body =>
    have hparameters := heach parameters fun _ h => by simp [Shape.children, h]
    have hbody := h.bodyEnd ⟨number, .function isLocal name parameters body, span, inParens⟩
      (hblock body fun _ h => by simp [Shape.children, h])
    simp only [coreSlots, Node.shape, hasTexts_append, hasTexts_cons, hkeyword, true_and]
    refine ⟨by split <;> simp [hkeyword], ?_, ?_, hbody⟩
    · cases name with
      | none => exact hasTexts_nil
      | some name => simpa using hone {} name (by simp [Shape.children])
    · split
      · exact h.emptyParens
      · simpa [hsymbol] using hparameters
  | conditional clauses =>
    have hclauses : HasTexts P ([Slot.hard].intercalate (clauses.map (spell {}))) := by
      refine .intercalate (by simp) fun list hlist => ?_
      obtain ⟨clause, hclause, rfl⟩ := List.mem_map.1 hlist
      exact hone {} clause (by simpa [Shape.children] using hclause)
    simp only [coreSlots, Node.shape, hasTexts_append]
    refine ⟨hclauses, ?_⟩
    split <;> simp [hkeyword]
  | clause kind condition body =>
    have hbody := h.body ⟨number, .clause kind condition body, span, inParens⟩
      (hblock body fun _ h => by simp [Shape.children, h])
    simp only [coreSlots, Node.shape, hasTexts_append]
    refine ⟨h.clauseKeyword kind, ?_, hbody⟩
    cases condition with
    | none => exact hasTexts_nil
    | some condition => simpa [hkeyword] using hone {} condition (by simp [Shape.children])
  | whileLoop condition body =>
    have hcondition := hone {} condition (by simp [Shape.children])
    have hbody := h.bodyEnd ⟨number, .whileLoop condition body, span, inParens⟩
      (hblock body fun _ h => by simp [Shape.children, h])
    simpa [coreSlots, Node.shape, hkeyword, hcondition] using hbody
  | doBlock body =>
    have hbody := h.bodyEnd ⟨number, .doBlock body, span, inParens⟩
      (hblock body fun _ h => by simp [Shape.children, h])
    simpa [coreSlots, Node.shape, hkeyword] using hbody
  | repeatLoop body condition =>
    have hcondition := hone {} condition (by simp [Shape.children])
    have hbody := h.body ⟨number, .repeatLoop body condition, span, inParens⟩
      (hblock body fun _ h => by simp [Shape.children, h])
    simp only [coreSlots, Node.shape, hasTexts_cons, hasTexts_append, hkeyword, hbody, hcondition,
      hasText_space, true_and, and_true]
    split <;> simp
  | numericFor counter first last step body =>
    have hcounter := hone {} counter (by simp [Shape.children])
    have hfirst := hone {} first (by simp [Shape.children])
    have hlast := hone {} last (by simp [Shape.children])
    have hbody := h.bodyEnd ⟨number, .numericFor counter first last step body, span, inParens⟩
      (hblock body fun _ h => by simp [Shape.children, h])
    cases step with
    | none => simpa [coreSlots, Node.shape, hkeyword, hsymbol, hcounter, hfirst, hlast] using hbody
    | some step =>
      have hstep := hone {} step (by simp [Shape.children])
      simpa [coreSlots, Node.shape, hkeyword, hsymbol, hcounter, hfirst, hlast, hstep] using hbody
  | genericFor names iterators body =>
    have hnames := heach names fun _ h => by simp [Shape.children, h]
    have hiterators := hindexed iterators (Place.argument iterators.length)
      fun _ h => by simp [Shape.children, h]
    have hbody := h.bodyEnd ⟨number, .genericFor names iterators body, span, inParens⟩
      (hblock body fun _ h => by simp [Shape.children, h])
    simpa [coreSlots, Node.shape, hkeyword, hnames, hiterators] using hbody
  | returnStatement returned =>
    have hreturned := hindexed returned (Place.value returned.length) (by simp [Shape.children])
    cases returned with
    | nil => simp [coreSlots, Node.shape, hkeyword]
    | cons => simpa [coreSlots, Node.shape, hkeyword] using hreturned
  | gotoStatement label =>
    simpa [coreSlots, Node.shape, hkeyword] using hone {} label (by simp [Shape.children])
  | labelStatement label =>
    simpa [coreSlots, Node.shape, hsymbol] using hone {} label (by simp [Shape.children])
  | breakStatement => simp [coreSlots, Node.shape, hkeyword]
  | identifier name =>
    have hslot : (nameSlot name).HasText P := hnode
    simpa [coreSlots, Node.shape] using hslot
  | literal kind text =>
    have hslot : (literalSlot context.style kind text).HasText P := hnode
    simpa [coreSlots, Node.shape] using hslot
  | table fields =>
    have hfields := hindexed fields (Place.argument fields.length) (by simp [Shape.children])
    have hcomma : Slot.comma.HasText P := h.symbol .comma
    simp only [coreSlots, Node.shape]
    split
    · simp only [hasTexts_cons, hasTexts_append, hsymbol, hasTexts_nil, true_and, and_true]
      refine ⟨h.danglingSlots, ?_⟩
      split <;> simp
    · simpa [hsymbol, hcomma] using hfields
  | keyField key value =>
    have hvalue := hone Place.field value (by simp [Shape.children])
    have hkey := hone Place.field key (by simp [Shape.children])
    simp only [coreSlots, Node.shape, hasTexts_append, hasTexts_cons, hasText_space, hsymbol,
      hvalue, and_true]
    cases hname : keyName? key with
    | none => exact h.brackets key hkey
    | some name => exact h.commented (by simpa using h.keyName hname)
  | nameField name value =>
    have hname := hone {} name (by simp [Shape.children])
    have hvalue := hone Place.field value (by simp [Shape.children])
    simpa [coreSlots, Node.shape, hsymbol, hname] using hvalue
  | valueField value => exact hone _ value (by simp [Shape.children])
  | binary op left right =>
    have hleft := hone (Place.left op) left (by simp [Shape.children])
    have hright := hone (Place.right op) right (by simp [Shape.children])
    simpa [coreSlots, Node.shape, h.binaryOp, hleft] using hright
  | unary op operand =>
    have hoperand := hone {} operand (by simp [Shape.children])
    simp only [coreSlots, Node.shape, hasTexts_cons, hasTexts_append, h.unaryOp, hoperand, true_and,
      and_true]
    split <;> simp
  | member indexer base name =>
    have hbase := hone Place.base base (by simp [Shape.children])
    have hname := hone {} name (by simp [Shape.children])
    cases indexer <;> simpa [coreSlots, Node.shape, hsymbol, hbase] using hname
  | index base key =>
    have hbase := hone Place.base base (by simp [Shape.children])
    simpa [coreSlots, Node.shape, hbase] using h.brackets key
      (hone {} key (by simp [Shape.children]))
  | call base arguments =>
    have hbase := hone Place.base base (by simp [Shape.children])
    simp only [coreSlots, Node.shape, hasTexts_append]
    refine ⟨hbase, ?_⟩
    split
    · exact h.emptyParens
    · have harguments : HasTexts P (context.argumentSlots (arguments.mapIdx fun index argument =>
          ⟨argument, spell (Place.argument arguments.length index) argument⟩)) := by
        refine h.arguments fun argument hargument => ?_
        obtain ⟨index, hindex, rfl⟩ := List.mem_mapIdx.1 hargument
        exact hone _ _ (List.mem_cons_of_mem _ (List.getElem_mem hindex))
      simpa [hsymbol] using harguments
  | tableCall base argument | stringCall base argument =>
    have hbase := hone Place.base base (by simp [Shape.children])
    have hargument := hone {} argument (by simp [Shape.children])
    simpa [coreSlots, Node.shape, hbase] using hargument
  | invalid => simp [coreSlots, Node.shape]

/-- The texts of a spelling have a property if those of the leaves, the comments and so on do.
Counterpart of `spell`. -/
theorem hasTexts_spell {context : Context} {P : Kind → List Char → Prop} (h : context.Writes P)
    (place : Place) (node : Node)
    (hnode : ∀ part : Node, part.Part node → part.shape.HasText context.style P) :
    HasTexts P (spell context place node) := by
  have hcore : HasTexts P (coreSlots context place node (spell context)) :=
    hasTexts_coreSlots h (hnode node (.self node)) fun place child hchild =>
      hasTexts_spell h place child fun part hpart => hnode part (.child hchild hpart)
  rw [spell_eq]
  refine h.commented ?_
  split
  · exact h.parens hcore
  · exact hcore
termination_by node.size
decreasing_by exact Node.size_lt_of_mem_children hchild

end LuaFormatter
