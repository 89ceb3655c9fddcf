import LuaFormatter.Proofs.Spelling.Wording

/-!
# What is written next to each other

Where two tokens have no blank between them, the first must end before the second. Brackets that
close, commas and semicolons may follow everything (`Follows`), a few symbols may stand before
everything, and what goes on with a value may follow the end of one. That leaves the tokens before
an operand: a bracket before a key and a minus before an operand depend on how those start, and a
tree is legible (`Node.Legible`) if no bracket is followed by another. What is written for a legible
tree then touches nowhere: `TouchesLegible` is what is shown of each production.
-/

namespace LuaFormatter

section
variable {style : Style} {pending : Option Kind} {kind before : Kind} {mark : Symbol}
  {text : List Char}
  {slots front back : List Slot}

/-- A symbol touches nothing if what is pending ends before it. Counterpart of `Slot.symbol`. -/
theorem touches_symbol : Touches style pending (.symbol mark :: slots) ↔
    (∀ before ∈ pending, before.EndsBefore mark.text.toList) ∧
      Touches style (some (.symbol mark)) slots :=
  ⟨fun h => ⟨h.2.2.1, h.2.2.2⟩, fun h => ⟨rfl, Scan.reads_symbol mark, h.1, h.2⟩⟩

/-- A keyword touches nothing if what is pending ends before it. Counterpart of `Slot.keyword`. -/
theorem touches_keyword {word : Keyword} : Touches style pending (.keyword word :: slots) ↔
    (∀ before ∈ pending, before.EndsBefore word.text.toList) ∧
      Touches style (some (.keyword word)) slots :=
  ⟨fun h => ⟨h.2.2.1, h.2.2.2⟩, fun h => ⟨rfl, Scan.reads_keyword word, h.1, h.2⟩⟩

/-- An operator after a blank. Counterpart of `Slot.fixed`. -/
theorem touches_fixed (hkind : kind.isFixed = true) (h : Touches style (some kind) slots) :
    Touches style none (.fixed kind :: slots) := by
  cases kind with
  | symbol mark => exact touches_symbol.2 ⟨nofun, h⟩
  | keyword word => exact touches_keyword.2 ⟨nofun, h⟩
  | _ => cases hkind

/-- After a blank comes a symbol. Counterpart of `Slot.symbol`. -/
theorem Touches.symbol (h : Touches style (some (.symbol mark)) slots) :
    Touches style none (.symbol mark :: slots) :=
  touches_symbol.2 ⟨nofun, h⟩

/-- After a blank comes a keyword. Counterpart of `Slot.keyword`. -/
theorem Touches.keyword {word : Keyword} (h : Touches style (some (.keyword word)) slots) :
    Touches style none (.keyword word :: slots) :=
  touches_keyword.2 ⟨nofun, h⟩

/-- Slots that start with a token may follow another one that ends before it. Counterpart of
`Touches`. -/
theorem Touches.pend (h : Touches style none (.token kind text :: slots))
    (hbefore : before.EndsBefore (kind.lexeme style text)) :
    Touches style (some before) (.token kind text :: slots) :=
  ⟨h.1, h.2.1, by simpa using hbefore, h.2.2.2⟩

/-- Slots may follow a symbol that stands before everything. Counterpart of `Symbol.isAlone`. -/
theorem Touches.alone (h : Touches style none slots) (hmark : mark.isAlone = true) :
    Touches style (some (.symbol mark)) slots :=
  h.after (by simpa using Symbol.endsBefore_of_isAlone hmark)

/-- What is pending after slots is a token of a program. Counterpart of `pendingAfter`. -/
theorem Touches.isWord_pendingAfter (h : Touches style pending slots)
    (hpending : ∀ kind ∈ pending, kind.isWord = true) :
    ∀ kind ∈ pendingAfter pending slots, kind.isWord = true := by
  induction slots generalizing pending with
  | nil => exact hpending
  | cons slot slots ih =>
    cases slot with
    | token kind text => exact ih h.2.2.2 (by simpa using h.1)
    | space | gap | hard => exact ih h (by simp)
    | soft | pad | comma => exact ih h hpending
    | later _ _ _ => exact h.elim

/-- The slots may follow any token. -/
def Follows (style : Style) (slots : List Slot) : Prop :=
  ∀ pending : Option Kind, (∀ kind ∈ pending, kind.isWord = true) → Touches style pending slots

/-- The empty list of slots may follow any token. Counterpart of `Follows`. -/
theorem Follows.nil : Follows style [] :=
  fun _ _ => trivial

/-- A space follows any token. Counterpart of `Follows` for `Slot.space`. -/
theorem Follows.blank (h : Touches style none slots) : Follows style (.space :: slots) :=
  fun _ _ => h

/-- A gap follows any token. Counterpart of `Follows` for `Slot.gap`. -/
theorem Follows.gap (h : Touches style none slots) : Follows style (.gap :: slots) :=
  fun _ _ => h

/-- A line break follows any token. Counterpart of `Follows` for `Slot.hard`. -/
theorem Follows.hard (h : Touches style none slots) : Follows style (.hard :: slots) :=
  fun _ _ => h

/-- A soft gap may be nothing, so what comes after it has to follow any token. Counterpart of
`Follows` for `Slot.soft`. -/
theorem Follows.soft (h : Follows style slots) : Follows style (.soft :: slots) :=
  h

/-- A pad may be nothing, so what comes after it has to follow any token. Counterpart of `Follows`
for `Slot.pad`. -/
theorem Follows.pad (h : Follows style slots) : Follows style (.pad :: slots) :=
  h

/-- A comma that may be left out follows any token if what comes after it does. Counterpart of
`Follows` for `Slot.comma`. -/
theorem Follows.comma (h : Follows style slots) : Follows style (.comma :: slots) :=
  h

/-- A bracket that closes, a comma or a semicolon follows any token. Counterpart of
`Symbol.isCloser`. -/
theorem Follows.closer (h : Follows style slots) (hmark : mark.isCloser = true) :
    Follows style (.symbol mark :: slots) := fun _ hpending =>
  touches_symbol.2 ⟨fun before hbefore => Kind.endsBefore_closer (hpending before hbefore) hmark,
    h _ (by simp [Kind.isWord])⟩

/-- A keyword before slots that may follow any token. Counterpart of `Slot.keyword`. -/
theorem Follows.opened {word : Keyword} (h : Follows style slots) :
    Touches style none (.keyword word :: slots) :=
  .keyword (h _ (by simp [Kind.isWord]))

/-- Slots and others that may follow them. Counterpart of `Follows`. -/
theorem Touches.append (h : Touches style none front) (hback : Follows style back) :
    Touches style none (front ++ back) :=
  touches_append.2 ⟨h, hback _ (h.isWord_pendingAfter (by simp))⟩

/-- What goes on with a value comes after it. Counterpart of `Kind.closesBase`. -/
theorem Touches.suffix (h : Touches style none front)
    (hlast : ∃ kind, pendingAfter none front = some kind ∧ kind.closesBase = true)
    (hback : ∀ kind : Kind, kind.closesBase = true → Touches style (some kind) back) :
    Touches style none (front ++ back) := by
  obtain ⟨kind, hkind, hcloses⟩ := hlast
  exact touches_append.2 ⟨h, hkind ▸ hback kind hcloses⟩

/-- A symbol that goes on with a value. Counterpart of `Kind.closesBase`. -/
theorem Kind.endsBefore_suffix (h : before.closesBase = true)
    (hmark : mark = .dot ∨ mark = .colon ∨ mark = .leftSquare ∨ mark = .leftParen ∨
        mark = .leftCurly) :
    before.EndsBefore mark.text.toList := by
  intro c hc
  refine endsBefore_of_closesBase h ?_
  rcases hmark with rfl | rfl | rfl | rfl | rfl <;> cases hc <;> decide

/-! ## Lists -/

/-- Lists with commas between them touch nowhere if the first does not and the others do not.
Counterpart of `commaSlots`. -/
theorem Touches.commas {lists : List (List Slot)} (h : Touches style none front)
    (hrest : Touches style none (commaSlots lists)) :
    Touches style none (commaSlots (front :: lists)) := by
  by_cases hne : lists = []
  · subst hne
    rwa [commaSlots, List.intercalate_singleton]
  · rw [commaSlots_cons hne]
    exact h.append fun pending hpending =>
      touches_symbol.2 ⟨fun before hbefore =>
        Kind.endsBefore_closer (hpending before hbefore) rfl, hrest⟩

/-- Arguments touch nowhere if they do not with plain commas between them, since a blank line
separates as well. Counterpart of `Context.argumentSlots`. -/
theorem touches_argumentSlots {context : Context} (arguments : List Spelled)
    (h : Touches style none (commaSlots (arguments.map Spelled.slots))) :
    Touches style none (context.argumentSlots arguments) := by
  fun_induction Context.argumentSlots context arguments with
  | case1 => trivial
  | case2 last => rwa [List.map_singleton, commaSlots, List.intercalate_singleton] at h
  | case3 argument next rest ih =>
    rw [List.map_cons, commaSlots_cons (by simp)] at h
    obtain ⟨hfirst, hrest⟩ := touches_append.1 h
    obtain ⟨hbefore, hrest⟩ := touches_symbol.1 hrest
    refine touches_append.2 ⟨hfirst, touches_symbol.2 ⟨hbefore, ?_⟩⟩
    have hothers := ih hrest
    split <;> exact hothers

/-- Statements on lines of their own touch nowhere if the first does not and the others do not.
Counterpart of `Context.separatedSlots`. -/
theorem Touches.separated {context : Context} {statement : Spelled} {rest : List Spelled}
    (h : Touches style none statement.slots)
    (hrest : Touches style none ([Slot.hard].intercalate (context.separatedSlots rest))) :
    Touches style none ([Slot.hard].intercalate (context.separatedSlots (statement :: rest))) := by
  cases rest with
  | nil => rwa [Context.separatedSlots, List.intercalate_singleton]
  | cons next rest =>
    rw [intercalate_separatedSlots]
    refine h.append ?_
    unfold Context.separatorSlots
    split <;> split
    · exact .closer (.hard hrest) rfl
    · exact .closer (.hard hrest) rfl
    · exact .hard hrest
    · exact .hard hrest

/-- Lists on lines of their own touch nowhere if the first does not and the others do not.
Counterpart of `Context.separatedSlots`. -/
theorem Touches.lines {lists : List (List Slot)} (h : Touches style none front)
    (hrest : Touches style none ([Slot.hard].intercalate lists)) :
    Touches style none ([Slot.hard].intercalate (front :: lists)) := by
  cases lists with
  | nil => rwa [List.intercalate_singleton]
  | cons second lists =>
    rw [List.intercalate_cons_cons, List.append_assoc]
    exact h.append (.hard hrest)

end

/-! ## Legible trees -/

/-- No statement is written as a call of what the one before it ends with. -/
def Context.Divides (context : Context) (first second : Node) : Prop :=
  first.endsCallable = true → (codes (spell context {} second)).head? = some (.symbol .leftParen) →
    second.startLosesParen = false

/-- What is written for the node can be read. -/
structure Node.Legible (context : Context) (node : Node) : Prop where
  name : ∀ name, node.shape = .identifier name → Scan.Reads .identifier name.toList
  literal : ∀ kind text, node.shape = .literal kind text → LiteralWritten context.style kind text
  bracket : node.hidesBracket = false
  minus : ∀ operand rest, node.shape = .unary .negate operand →
    spell context {} operand = .symbol .minus :: rest →
    spacesOperand .negate (compile context {} operand) = true
  body : ∀ body, node.shape.body? = some body → body.IsChain context.Divides

/-- All parts of the nodes are legible. -/
def LegibleTrees (context : Context) (nodes : List Node) : Prop :=
  ∀ node ∈ nodes, ∀ part : Node, part.Part node → part.Legible context

section
variable {context : Context} {node : Node} {nodes others : List Node}

/-- What is legible in parentheses is legible without them. Counterpart of `Node.Legible`. -/
theorem Node.Legible.of_parenthesise (h : node.parenthesise.Legible context) :
    node.Legible context := by
  obtain ⟨number, shape, span, inParens⟩ := node
  exact ⟨h.name, h.literal, h.bracket, h.minus, h.body⟩

/-- The root of a legible tree is legible. Counterpart of `LegibleTrees`. -/
theorem LegibleTrees.self (h : LegibleTrees context [node]) : node.Legible context :=
  h node (List.mem_singleton_self node) node (.self node)

/-- Fewer trees are legible. Counterpart of `LegibleTrees`. -/
theorem LegibleTrees.subset (h : LegibleTrees context nodes) (hsub : others ⊆ nodes) :
    LegibleTrees context others :=
  fun node hmem => h node (hsub hmem)

/-- The parts of a legible tree are legible. Counterpart of `LegibleTrees`. -/
theorem LegibleTrees.children (h : LegibleTrees context [node])
    (hsub : others ⊆ node.shape.children) :
    LegibleTrees context others :=
  fun _ hmem part hpart => h node (List.mem_singleton_self node) part (.child (hsub hmem) hpart)

/-- The children of a legible tree are legible trees. Counterpart of `LegibleTrees`. -/
theorem LegibleTrees.child {child : Node} (h : LegibleTrees context [node])
    (hchild : child ∈ node.shape.children) :
    LegibleTrees context [child] :=
  h.children fun _ hmem => List.mem_singleton.1 hmem ▸ hchild

/-- A legible tree in parentheses is one without them. Counterpart of `LegibleTrees`. -/
theorem LegibleTrees.of_parenthesise (h : LegibleTrees context [node.parenthesise]) :
    LegibleTrees context [node] := by
  refine List.forall_mem_singleton.2 fun part hpart => ?_
  cases hpart with
  | self => exact h.self.of_parenthesise
  | @child child _ hchild hpart =>
    have hmem : child ∈ node.parenthesise.shape.children := by
      rwa [Node.shape_parenthesise]
    exact h.child hmem child (List.mem_singleton_self child) part hpart

end

/-! ## Parts of a node -/

/-- The slots of a rule touch nowhere, wherever the nodes stand. -/
def RuleTouches (context : Context) (rule : Rule) (nodes : List Node) : Prop :=
  ∀ place : Nat → Place, Touches context.style none (rule.slots context place nodes)

/-- The slots of a rule touch nowhere if all parts of its nodes are legible. This is what is shown
of each production, and `Derives.touches` of all of them. -/
def TouchesLegible (context : Context) (rule : Rule) (nodes : List Node) : Prop :=
  LegibleTrees context nodes → RuleTouches context rule nodes

/-- The slots of one node are its spelling. Counterpart of `Rule.slots`. -/
theorem slots_single {context : Context} {rule : Rule} {place : Nat → Place} {node : Node}
    (hrule : rule ≠ .fields) : rule.slots context place [node] = spell context (place 0) node := by
  have hone : nodeSlots context place [node] = [spell context (place 0) node] := rfl
  cases rule with
  | fields => exact absurd rfl hrule
  | block | clauses => exact List.intercalate_singleton
  | _ =>
    show commaSlots (nodeSlots context place [node]) = _
    rw [hone, commaSlots, List.intercalate_singleton]

section
variable {context : Context} {rule : Rule} {place : Place} {node : Node} {nodes : List Node}

/-- The spelling of one node touches nowhere. Counterpart of `RuleTouches`. -/
theorem RuleTouches.one (h : RuleTouches context rule [node]) (hrule : rule ≠ .fields)
    (place : Place) :
    Touches context.style none (spell context place node) := by
  rw [← @slots_single context rule (fun _ => place) node hrule]
  exact h fun _ => place

/-- Nodes with commas between them. Counterpart of `Derives.moreExpressions`. -/
theorem RuleTouches.commas (h : RuleTouches context rule [node]) (hrule : rule ≠ .fields)
    (hrest : RuleTouches context .expressions nodes) :
    RuleTouches context .expressions (node :: nodes) := by
  intro place
  show Touches context.style none (commaSlots (nodeSlots context place (node :: nodes)))
  rw [nodeSlots_cons]
  exact (h.one hrule _).commas (hrest _)

/-- A child of a legible node, wherever it is written. Counterpart of `TouchesLegible`. -/
theorem TouchesLegible.child {child : Node} (h : TouchesLegible context rule [child])
    (hrule : rule ≠ .fields) (hlegible : LegibleTrees context [node])
    (hchild : child ∈ node.shape.children) (place : Place) :
    Touches context.style none (spell context place child) :=
  (h (hlegible.child hchild)).one hrule place

/-- Children of a legible node that one rule reads. Counterpart of `TouchesLegible`. -/
theorem TouchesLegible.children (h : TouchesLegible context rule nodes)
    (hlegible : LegibleTrees context [node]) (hsub : nodes ⊆ node.shape.children) :
    RuleTouches context rule nodes :=
  h (hlegible.children hsub)

/-- The fields of a table touch nowhere with commas between them. Counterpart of `Derives.table`. -/
theorem RuleTouches.items (h : RuleTouches context .fields nodes) (place : Nat → Place) :
    Touches context.style none (commaSlots (nodeSlots context place nodes)) :=
  (touches_append.1 (h place)).1

/-- One more field in front touches nowhere. Counterpart of `Derives.moreFields`. -/
theorem RuleTouches.moreFields (h : RuleTouches context .field [node])
    (hrest : RuleTouches context .fields nodes) :
    RuleTouches context .fields (node :: nodes) := by
  intro place
  show Touches context.style none (commaSlots (nodeSlots context place (node :: nodes)) ++ [.comma])
  rw [nodeSlots_cons]
  exact ((h.one (by simp) _).commas (hrest.items _)).append (.comma .nil)

/-- One more statement in front touches nowhere. Counterpart of `Derives.moreStatements`. -/
theorem RuleTouches.moreStatements (h : RuleTouches context .statement [node])
    (hrest : RuleTouches context .block nodes) : RuleTouches context .block (node :: nodes) := by
  intro place
  show Touches context.style none
    ([Slot.hard].intercalate (context.separatedSlots (spelledAt context place (node :: nodes))))
  rw [spelledAt_cons]
  exact Touches.separated (h.one (by simp) _) (hrest _)

/-- One more branch in front touches nowhere. Counterpart of `Derives.moreClauses`. -/
theorem RuleTouches.moreClauses {stop stop' : Nat} (h : RuleTouches context (.clause stop) [node])
    (hrest : RuleTouches context (.clauses stop') nodes) :
    RuleTouches context (.clauses stop') (node :: nodes) := by
  intro place
  show Touches context.style none
    ([Slot.hard].intercalate (nodeSlots context place (node :: nodes)))
  rw [nodeSlots_cons]
  exact Touches.lines (h.one (by simp) _) (hrest _)

/-- A legible name touches nothing. Counterpart of `Derives.identifier`. -/
theorem Node.Legible.touches_name {n : Nat} {t : Token} (h : (nameOf n t).Legible context) :
    Touches context.style none [nameSlot (Parser.textOf t)] :=
  ⟨rfl, h.name _ rfl, nofun, trivial⟩

/-- A key that is written as a name is one. Counterpart of `keyName?`. -/
theorem isName_of_keyName? {key : Node} {name : String} (h : keyName? key = some name) :
    isName name = true := by
  unfold keyName? at h
  split at h
  · dsimp only at h
    split at h
    · rename_i hname
      cases h
      exact (Bool.and_eq_true_iff.1 hname).2
    · cases h
  · cases h

variable (hcontext : context.attachments = [])
include hcontext

/-- A node touches nowhere if its core does not, as parentheses touch nothing. Counterpart of
`spell`. -/
theorem touches_spell (h : Touches context.style none (core context place node)) :
    Touches context.style none (spell context place node) := by
  rw [spell_eq_core hcontext]
  split
  · refine .symbol (Touches.alone ?_ rfl)
    exact h.append (.soft (.closer .nil rfl))
  · exact h

/-- The core of a node touches nowhere if its spelling does not. Counterpart of `spell`. -/
theorem touches_core (h : Touches context.style none (spell context place node)) :
    Touches context.style none (core context place node) := by
  rw [spell_eq_core hcontext] at h
  split at h
  · exact (touches_append.1 (touches_symbol.1 h).2).1.after (by simp)
  · exact h

/-- One node touches nowhere if its core does not at any place. Counterpart of `RuleTouches`. -/
theorem RuleTouches.of_core (hrule : rule ≠ .fields)
    (h : ∀ place, Touches context.style none (core context place node)) :
    RuleTouches context rule [node] := by
  intro place
  rw [slots_single hrule]
  exact touches_spell hcontext (h _)

/-- `RuleTouches.of_core` for a node whose parts are known to be legible. Counterpart of
`TouchesLegible`. -/
theorem TouchesLegible.of_core (hrule : rule ≠ .fields)
    (h : LegibleTrees context [node] →
        ∀ place, Touches context.style none (core context place node)) :
    TouchesLegible context rule [node] :=
  fun hlegible => .of_core hcontext hrule (h hlegible)

/-- A name is a single slot. Counterpart of `nameSlot`. -/
theorem spell_name (n : Nat) (t : Token) :
    spell context place (nameOf n t) = [nameSlot (Parser.textOf t)] :=
  spell_nodeOf hcontext n _ _

variable {isApart : Bool} {a b : Nat} {ts : List Token} {body : List Node}

/-- A body follows any token, as a line break stands before it. Counterpart of
`Context.bodySlots`. -/
theorem follows_bodySlots (node : Node) (h : Derives isApart .block a b ts body)
    (htouches : RuleTouches context .block body) {slots : List Slot}
    (hslots : Follows context.style slots) :
    Follows context.style
      (context.bodySlots node (body.map fun child => ⟨child, spell context {} child⟩) ++
        slots) := by
  rw [bodySlots_eq hcontext h]
  split
  · exact hslots
  · exact .hard ((htouches _).append hslots)

/-- A body with its closing keyword follows any token. Counterpart of `Context.bodyEndSlots`. -/
theorem follows_bodyEndSlots (node : Node) (h : Derives isApart .block a b ts body)
    (htouches : RuleTouches context .block body) :
    Follows context.style
      (context.bodyEndSlots node (body.map fun child => ⟨child, spell context {} child⟩)) := by
  rw [bodyEndSlots_eq hcontext h]
  have hend : Touches context.style none [.keyword .endK] := .keyword trivial
  split
  · exact .blank hend
  · exact .hard ((htouches _).append (.hard hend))

/-- Parameters in parentheses and a body come after the name or the keyword of a function.
Counterpart of `Derives.function`, `Derives.localFunction` and `Derives.globalFunction`. -/
theorem touches_routine {before : Kind} {parameters : List Node}
    (hbefore : before = .identifier ∨ before = .keyword .functionK)
    (hparameters : RuleTouches context .parameters parameters)
    (h : Derives isApart .block a b ts body) (hbody : RuleTouches context .block body) :
    Touches context.style (some before)
      ((if parameters.isEmpty then context.emptyParensSlots node
        else .symbol .leftParen :: .soft :: (commaSlots (parameters.map (spell context {})) ++
          [.soft, .symbol .rightParen])) ++
        context.bodyEndSlots node (body.map fun child => ⟨child, spell context {} child⟩)) := by
  have hparen : ∀ kind ∈ some before, kind.EndsBefore (Symbol.leftParen).text.toList := by
    rintro _ ⟨⟩ c hc
    cases hc
    rcases hbefore with rfl | rfl <;> decide
  have hend := follows_bodyEndSlots hcontext node h hbody
  split
  · rw [emptyParensSlots_eq hcontext]
    exact touches_symbol.2 ⟨hparen, Follows.closer hend rfl _ (by simp [Kind.isWord])⟩
  · refine touches_symbol.2 ⟨hparen, Touches.alone ?_ rfl⟩
    show Touches context.style none (commaSlots (parameters.map (spell context {})) ++
      [.soft, .symbol .rightParen] ++ context.bodyEndSlots node _)
    rw [map_spell, List.append_assoc]
    exact (hparameters _).append (.soft (.closer hend rfl))

omit hcontext in
/-- A literal is a single slot. Counterpart of `literalSlot`. -/
theorem Node.Legible.touches_literal {n : Nat} {kind : LiteralKind} {text : String}
    (h : (nodeOf n (.literal kind text) ts).Legible context) (rest : List Slot)
    {pending : Option Kind} (hrest : Follows context.style rest)
    (hpending : ∀ before ∈ pending, before.EndsBefore (literalWord context.style kind text).2) :
    Touches context.style pending (literalSlot context.style kind text :: rest) := by
  obtain ⟨raw, hslot, hword⟩ := literalSlot_eq context.style kind text
  have hreads := (h.literal kind text rfl).reads
  rw [hword] at hreads hpending
  have hkind : (kind.tokenKind text).isWord = true := by cases kind <;> rfl
  rw [hslot]
  exact ⟨hkind, hreads, hpending, hrest _ (by simpa using hkind)⟩

/-- A table touches nothing before it if its brace does not. Counterpart of `Derives.table` and
`Derives.tableCall`. -/
theorem touches_braces {n : Nat} {fields : List Node} {before : Option Kind}
    (h : RuleTouches context .fields fields)
    (hbefore : ∀ kind ∈ before, kind.EndsBefore (Symbol.leftCurly).text.toList) :
    Touches context.style before (core context place (nodeOf n (.table fields) ts)) := by
  simp only [core, coreSlots, Node.shape_mk, danglingSlots_eq hcontext,
    danglingComments_eq hcontext]
  split
  · exact touches_symbol.2 ⟨hbefore, Touches.alone (.symbol trivial) rfl⟩
  · refine touches_symbol.2 ⟨hbefore, Touches.alone ?_ rfl⟩
    exact (h.items _).append (Follows.comma (Follows.pad (.closer .nil rfl)))

/-- A key that does not start with a long string comes after a bracket, and one that is a long
string after a blank. Counterpart of `bracketSlots`. -/
theorem touches_bracketSlots {key : Node} {before : Option Kind} {slots : List Slot}
    (h : Derives isApart .expression a b ts [key])
    (hplace : Touches context.style none (spell context place key))
    (hbracket : (key.shape.isBinary && key.startsWithLongString) = false)
    (hbefore : ∀ kind ∈ before, kind.EndsBefore (Symbol.leftSquare).text.toList)
    (hslots : Follows context.style slots) :
    Touches context.style before (bracketSlots key (spell context place key) ++ slots) := by
  unfold bracketSlots
  split
  · refine touches_symbol.2 ⟨hbefore, ?_⟩
    show Touches context.style none
      (spell context place key ++ [.space, .symbol .rightSquare] ++ slots)
    rw [List.append_assoc]
    exact hplace.append (.blank (Follows.closer hslots rfl none (by simp)))
  · rename_i hshape
    refine touches_symbol.2 ⟨hbefore, ?_⟩
    show Touches context.style _ (spell context place key ++ [.symbol .rightSquare] ++ slots)
    rw [List.append_assoc]
    have hwhole :=
      hplace.append (Follows.closer hslots rfl :
          Follows context.style (.symbol .rightSquare :: slots))
    obtain ⟨kind, text, rest, hspell, hstarts, hlong, -⟩ :=
      (h.edges hcontext (.inl rfl) rfl place).spell_first hcontext
    rw [hspell] at hwhole ⊢
    refine hwhole.pend fun c hc => ?_
    obtain ⟨d, tail, hlexeme⟩ : ∃ d tail, kind.lexeme context.style text = d :: tail := by
      obtain ⟨d, tail, hlexeme, -⟩ := hwhole.2.1
      exact ⟨d, tail, hlexeme⟩
    have hreads := hwhole.2.1
    rw [hlexeme] at hc hreads
    cases hc
    obtain ⟨hequal, hbang, -, hsquare, -⟩ := hreads.head_expression hstarts
    refine Symbol.endsBefore_expression ⟨hequal, hbang⟩ (.inl ⟨rfl, fun hc => ?_⟩)
    -- Only long strings start with a bracket, and the key starts with none.
    have hstarts := hlong (hsquare hc)
    rw [hstarts, Bool.and_true] at hbracket
    unfold Node.startsWithLongString at hstarts
    split at hstarts
    · exact hshape _ rfl
    · cases hbracket
    · cases hstarts

/-- An operand comes after a word and a blank, or right after a symbol that does not go on with it.
Counterpart of `Derives.unary`. -/
theorem touches_operation {n : Nat} {op : UnaryOp} {operand : Node}
    (hlegible : (nodeOf n (.unary op operand) ts).Legible context)
    {us : List Token} (h : Derives isApart .expression a b us [operand])
    (htouches : Touches context.style none (spell context {} operand)) :
    Touches context.style none (core context place (nodeOf n (.unary op operand) ts)) := by
  show Touches context.style none (.fixed op.kind ::
    ((if spacesOperand op (compile context {} operand) then [.space] else []) ++
      spell context {} operand))
  have hop : op.kind.isWord = true ∧
      Scan.Reads op.kind (op.kind.lexeme context.style op.kind.describe.toList) := by
    cases op with
    | not => exact ⟨rfl, Scan.reads_keyword .notK⟩
    | negate => exact ⟨rfl, Scan.reads_symbol .minus⟩
    | length => exact ⟨rfl, Scan.reads_symbol .hash⟩
    | bitNot => exact ⟨rfl, Scan.reads_symbol .tilde⟩
  refine ⟨hop.1, hop.2, nofun, ?_⟩
  cases hspace : spacesOperand op (compile context {} operand) with
  | true => exact htouches
  | false =>
    obtain ⟨kind, text, rest, hspell, hstarts, -⟩ :=
      (h.edges hcontext (.inl rfl) rfl {}).spell_first hcontext
    show Touches context.style _ (spell context {} operand)
    rw [hspell] at htouches ⊢
    refine htouches.pend fun c hc => ?_
    obtain ⟨d, tail, hlexeme, -⟩ := id htouches.2.1
    have hreads := htouches.2.1
    rw [hlexeme] at hc hreads
    cases hc
    obtain ⟨hequal, hbang, -, -, hminus⟩ := hreads.head_expression hstarts
    cases op with
    | not => cases hspace
    | negate =>
      refine Symbol.endsBefore_expression ⟨hequal, hbang⟩ (.inr (.inl ⟨rfl, fun hc => ?_⟩))
      obtain rfl := hminus hc
      have htext : text = Symbol.minus.text.toList := htouches.2.1.lexeme_symbol
      rw [htext] at hspell
      rw [hlegible.minus operand rest rfl hspell] at hspace
      cases hspace
    | length => exact Symbol.endsBefore_expression ⟨hequal, hbang⟩ (.inr (.inr (.inl rfl)))
    | bitNot => exact Symbol.endsBefore_expression ⟨hequal, hbang⟩ (.inr (.inr (.inr rfl)))

end

/-- What can be accessed or called ends in a token that may be followed by what goes on with it.
Counterpart of `Kind.closesBase`. -/
theorem Derives.closesBase {context : Context} (hcontext : context.attachments = [])
    {isApart : Bool} {rule : Rule} {a b : Nat} {ts : List Token} {base : Node}
    (h : Derives isApart rule a b ts [base])
    (hrule : rule = .expression ∧ base.canBeBase = true ∨ rule = .callee) :
    ∃ kind, pendingAfter none (spell context Place.base base) = some kind ∧
      kind.closesBase = true := by
  rcases hrule with ⟨rfl, hbase⟩ | rfl
  · exact (h.edges hcontext (.inl rfl) rfl Place.base).base_last hcontext
      (Node.isBase_of_canBeBase hbase)
  · exact (h.edges hcontext (.inr rfl) rfl Place.base).base_last hcontext h.isBase_callee

/-- A dotted name ends in a name. Counterpart of `Derives.nameDotted`. -/
theorem Derives.last_name {context : Context} (hcontext : context.attachments = []) {isApart : Bool}
    {rule : Rule} {a b : Nat} {ts : List Token} {nodes : List Node}
    (h : Derives isApart rule a b ts nodes) (hrule : rule = .dotted ∨ rule = .name) {node : Node}
    (hnode : nodes = [node]) (place : Place) :
    pendingAfter none (spell context place node) = some .identifier := by
  induction h with
  | nameStart =>
    cases hnode
    rw [spell_name hcontext]
    rfl
  | nameMember | nameMethod =>
    cases hnode
    rw [spell_nodeOf hcontext]
    show pendingAfter none (spell context Place.base _ ++ .symbol _ :: spell context {}
        (nameOf _ _)) = _
    rw [spell_name hcontext, pendingAfter_append]
    rfl
  | nameDotted _ ih => exact ih (.inl rfl) hnode
  | _ => rcases hrule with hrule | hrule <;> cases hrule

section
variable {context : Context} {place : Place} {isApart : Bool} {a b n m : Nat} {ts us : List Token}
  {t : Token}
  {base : Node} {slots : List Slot}

/-- A name after a dot or a colon. Counterpart of `Derives.member`. -/
theorem touches_access (hcontext : context.attachments = []) {indexer : Indexer}
    (h : Touches context.style none (spell context Place.base base))
    (hlast : ∃ kind, pendingAfter none (spell context Place.base base) = some kind ∧
        kind.closesBase = true)
    (hname : (nameOf n t).Legible context) :
    Touches context.style none (core context place
        (nodeOf m (.member indexer base (nameOf n t)) ts)) := by
  have hstart : ∀ mark : Symbol, mark = .dot ∨ mark = .colon →
      Touches context.style (some (.symbol mark)) [nameSlot (Parser.textOf t)] := by
    intro mark hmark
    refine hname.touches_name.pend fun c hc => ?_
    obtain ⟨d, tail, hlexeme, -⟩ := id (hname.name _ rfl)
    have hreads := hname.name _ rfl
    rw [hlexeme] at hreads
    have hc : c ∈ (Parser.textOf t).toList.head? := hc
    rw [hlexeme] at hc
    cases hc
    exact Symbol.endsBefore_name hmark (hreads.head_word (.inl rfl))
  cases indexer with
  | dot =>
    show Touches context.style none
      (spell context Place.base base ++ .symbol .dot :: spell context {} (nameOf n t))
    rw [spell_name hcontext]
    refine h.suffix hlast fun kind hkind => touches_symbol.2 ⟨?_, hstart .dot (.inl rfl)⟩
    rintro _ ⟨⟩
    exact Kind.endsBefore_suffix hkind (.inl rfl)
  | colon =>
    show Touches context.style none
      (spell context Place.base base ++ .symbol .colon :: spell context {} (nameOf n t))
    rw [spell_name hcontext]
    refine h.suffix hlast fun kind hkind => touches_symbol.2 ⟨?_, hstart .colon (.inr rfl)⟩
    rintro _ ⟨⟩
    exact Kind.endsBefore_suffix hkind (.inr (.inl rfl))

end

/-- A string starts with a quote, and a long string with a bracket. Counterpart of
`Derives.stringCall`. -/
theorem head_string {kind : Kind} {text : List Char} (h : Scan.Reads kind text)
    (hkind : kind = .string ∨ kind = .longString) :
    ∀ c ∈ text.head?, c ∈ ['.', ':', '[', '(', '\x7b', '"', '\x27'] := by
  intro c hc
  rcases hkind with rfl | rfl
  · obtain ⟨quote, content, hquote, rfl, -⟩ := h.exists_isContent
    cases hc
    rcases hquote with rfl | rfl <;> decide
  · obtain ⟨level, rest, rfl, -⟩ := h.exists_longString
    cases hc
    decide

end LuaFormatter
