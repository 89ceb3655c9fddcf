import LuaFormatter.Proofs.Grammar.Yield
import LuaFormatter.Proofs.Source.Cuts

/-!
# Where faults are

A fault is at a token or at a node, whose ends are the ends of tokens. So its span is a stretch of
whole characters of the source (`marked_of_mem_faults`), whatever is wrong with the source.

`Marks` is what every rule of the grammar keeps: the offsets that a parser reads off tokens, and
those of the nodes and faults it makes of them, are among some marked ones. For a source these are
the offsets that fall between two characters.
-/

open LuaFormatter.Parser

namespace LuaFormatter

/-- The ends of the span are marked offsets, in order. -/
structure Span.Marked (isMark : Nat → Prop) (span : Span) : Prop where
  start : isMark span.start
  stop : isMark span.stop
  le : span.start ≤ span.stop

/-- All offsets of a state are marked: those of its tokens and faults, and where the reading is. -/
structure ParseState.Marked (isMark : Nat → Prop) (state : ParseState) : Prop where
  tokens : ∀ token ∈ state.rest, token.span.Marked isMark
  stop : isMark state.previousStop
  length : isMark state.sourceLength
  faults : ∀ fault ∈ state.faults, fault.span.Marked isMark

variable {isMark : Nat → Prop}

/-- The current token stands between marked offsets, also where it is the end of the file.
Counterpart of `ParseState.token`. -/
theorem ParseState.Marked.token {state : ParseState} (h : state.Marked isMark) :
    state.token.span.Marked isMark := by
  unfold ParseState.token
  cases hrest : state.rest with
  | nil => exact ⟨h.length, h.length, Nat.le_refl _⟩
  | cons first rest => exact h.tokens first (by simp [hrest])

namespace Parser

open ParseState

/-- The parser keeps all offsets of the state marked, and its result is as it should be. -/
def Marks {α : Type} (isMark : Nat → Prop) (p : Parser α) (P : α → Prop) : Prop :=
  ∀ s : ParseState, s.Marked isMark → P (p s).1 ∧ (p s).2.Marked isMark

section
variable {α β : Type} {p q : Parser α} {f : α → Parser β} {P : α → Prop} {Q : β → Prop}

/-- A result without reading keeps the offsets. Counterpart of `pure`. -/
theorem Marks.pure {a : α} (h : P a) : Marks isMark (pure a) P :=
  fun _ hmarked => ⟨h, hmarked⟩

/-- A step and what comes after it. Counterpart of the bind of `Parser`. -/
theorem Marks.andThen (h : Marks isMark p P) (hf : ∀ a, P a → Marks isMark (f a) Q) :
    Marks isMark (p >>= f) Q := by
  intro s hmarked
  obtain ⟨hresult, hmiddle⟩ := h s hmarked
  exact hf _ hresult _ hmiddle

/-- A choice keeps the offsets if both branches do. Counterpart of `ite` for `Marks`. -/
theorem Marks.ite {c : Prop} [Decidable c] (hp : Marks isMark p P) (hq : Marks isMark q P) :
    Marks isMark (if c then p else q) P := by
  split
  · exact hp
  · exact hq

/-- The parser may give any result. -/
abbrev MarksAny (isMark : Nat → Prop) (p : Parser α) : Prop :=
  Marks isMark p fun _ => True

/-- After any result that keeps the offsets, the rest has to do so for all results. Counterpart of
the bind of `Parser`. -/
theorem Marks.then (h : MarksAny isMark p) (hf : ∀ a, Marks isMark (f a) Q) :
    Marks isMark (p >>= f) Q :=
  h.andThen fun a _ => hf a

/-- What is known of the result may be forgotten. Counterpart of `MarksAny`. -/
theorem Marks.any (h : Marks isMark p P) : MarksAny isMark p :=
  fun s hmarked => ⟨trivial, (h s hmarked).2⟩

/-- The current token stands between marked offsets. Counterpart of `Parser.current`. -/
theorem marks_current : Marks isMark current fun token => token.span.Marked isMark :=
  fun _ hmarked => ⟨hmarked.token, hmarked⟩

/-- The current token starts at a marked offset. Counterpart of `Parser.start`. -/
theorem marks_start : Marks isMark start isMark :=
  fun _ hmarked => ⟨hmarked.token.start, hmarked⟩

/-- Looking at the kind of the current token keeps the offsets. Counterpart of
`Parser.currentKind`. -/
theorem marks_currentKind : MarksAny isMark currentKind :=
  fun _ hmarked => ⟨trivial, hmarked⟩

/-- Looking at the kind of the token after it keeps the offsets. Counterpart of
`Parser.followingKind`. -/
theorem marks_followingKind : MarksAny isMark followingKind :=
  fun _ hmarked => ⟨trivial, hmarked⟩

/-- A fault between marked offsets may be reported. Counterpart of `Parser.fault`. -/
theorem marks_fault {fault : Fault} (h : fault.span.Marked isMark) :
    MarksAny isMark (Parser.fault fault) :=
  fun _ hmarked => ⟨trivial, hmarked.tokens, hmarked.stop, hmarked.length,
    List.forall_mem_cons.2 ⟨h, hmarked.faults⟩⟩

/-- Going on gives the token that was read, which stands between marked offsets. Counterpart of
`Parser.advance`. -/
theorem marks_advance : Marks isMark advance fun token => token.span.Marked isMark := by
  intro s hmarked
  cases hrest : s.rest with
  | nil =>
    rw [advance_of_nil hrest]
    exact ⟨hmarked.token, hmarked⟩
  | cons first rest =>
    rw [advance_of_rest (by simp [hrest])]
    exact ⟨hmarked.token, fun token hmem => hmarked.tokens token (List.mem_of_mem_tail hmem),
      hmarked.token.stop, hmarked.length, hmarked.faults⟩

/-- Reading a token if it is there keeps the offsets. Counterpart of `Parser.accept`. -/
theorem marks_accept (kind : Kind) : MarksAny isMark (accept kind) := by
  unfold accept
  exact marks_currentKind.then fun _ =>
    .ite (marks_advance.any.then fun _ => .pure trivial) (.pure trivial)

/-- Reading a token, or reporting that it is missing, keeps the offsets. Counterpart of
`Parser.expect`. -/
theorem marks_expect (kind : Kind) : MarksAny isMark (expect kind) := by
  unfold expect
  refine (marks_accept kind).then fun accepted => ?_
  cases accepted with
  | true => exact .pure trivial
  | false => exact marks_current.andThen fun _ htoken => marks_fault htoken

/-- A loop keeps what every round keeps. Counterpart of `Parser.extend`. -/
theorem marks_extend {round : α → Parser (α × Bool)}
    (h : ∀ value, P value → Marks isMark (round value) fun result => P result.1) {value : α}
    (hvalue : P value) : Marks isMark (extend round value) P := by
  intro s hmarked
  induction hlength : s.rest.length using Nat.strongRecOn generalizing value s with
  | ind length ih =>
    obtain ⟨hnext, hafter⟩ := h value hvalue s hmarked
    rw [extend_eq]
    split
    · rename_i hgo
      exact ih _ (hlength ▸ hgo.2) hnext _ hafter rfl
    · exact ⟨hnext, hafter⟩

end

/-! ## Nodes -/

/-- The result is a node with a span between marked offsets. -/
abbrev MarksNode (isMark : Nat → Prop) (p : Parser Node) : Prop :=
  Marks isMark p fun node => node.span.Marked isMark

/-- The results are nodes with spans between marked offsets. -/
abbrev MarksNodes (isMark : Nat → Prop) (p : Parser (List Node)) : Prop :=
  Marks isMark p fun nodes => ∀ node ∈ nodes, node.span.Marked isMark

/-- The results of a round are nodes with spans between marked offsets. -/
abbrev MarksRound (isMark : Nat → Prop) (p : Parser (List Node × Bool)) : Prop :=
  Marks isMark p fun result => ∀ node ∈ result.1, node.span.Marked isMark

/-- A node that is made at a marked span has this span. Counterpart of `Parser.makeAt`. -/
theorem marks_makeAt {shape : Shape Node} {span : Span} (h : span.Marked isMark) :
    MarksNode isMark (makeAt shape span) :=
  fun _ hmarked => ⟨h, hmarked.tokens, hmarked.stop, hmarked.length, hmarked.faults⟩

/-- A span up to a marked offset, or empty at its start, is marked. Counterpart of `Parser.make`,
which never makes a span that ends before it starts. -/
theorem marked_max {a b : Nat} (ha : isMark a) (hb : isMark b) : Span.Marked isMark ⟨b, max a b⟩ :=
  ⟨hb, by rcases Nat.le_total a b with h | h <;> simpa [h], Nat.le_max_right a b⟩

/-- A node that is made from a marked offset on has a marked span, as the reading stands at a marked
offset. Counterpart of `Parser.make`. -/
theorem marks_make {shape : Shape Node} {start : Nat} (h : isMark start) :
    MarksNode isMark (make shape start) :=
  fun s hmarked => marks_makeAt (marked_max hmarked.stop h) s hmarked

/-- A node in place of a token has the span of the token. Counterpart of `Parser.makeInvalid`. -/
theorem marks_makeInvalid {token : Token} (h : token.span.Marked isMark) :
    MarksNode isMark (makeInvalid token) :=
  marks_makeAt h

/-- A loop keeps the offsets if each round does. Counterpart of `Parser.many`. -/
theorem marks_many {round : Parser (List Node × Bool)} (h : MarksRound isMark round) :
    MarksNodes isMark (many round) :=
  marks_extend (fun _ hitems => h.andThen fun _ hresult =>
    .pure (List.forall_mem_append.2 ⟨hitems, hresult⟩)) (by simp)

/-- A list with commas keeps the offsets if each item does. Counterpart of
`Parser.commaSeparated`. -/
theorem marks_commaSeparated {item : Parser Node} (h : MarksNode isMark item) :
    MarksNodes isMark (commaSeparated item) :=
  marks_many (h.andThen fun _ hnode => (marks_accept _).then fun _ => .pure (by simpa using hnode))

end Parser

/-- The rules of a grammar keep all offsets marked. -/
structure Grammar.IsMarking (isMark : Nat → Prop) (grammar : Grammar) : Prop where
  expression (limit : Nat) : Parser.MarksNode isMark (grammar.expression limit)
  block : Parser.MarksNodes isMark grammar.block

namespace Parser

/-! ## Expressions -/

/-- A name stands between marked offsets. Counterpart of `Parser.identifier`. -/
theorem marks_identifier : MarksNode isMark identifier := by
  unfold identifier
  refine marks_current.andThen fun token htoken => .ite ?_ ?_
  · exact marks_advance.any.then fun _ => marks_makeAt htoken
  · exact (marks_fault htoken).then fun _ => marks_makeInvalid htoken

/-- A parameter stands between marked offsets. Counterpart of `Parser.parameter`. -/
theorem marks_parameter : MarksRound isMark parameter := by
  unfold parameter
  refine marks_current.andThen fun token htoken => ?_
  split
  · exact marks_identifier.andThen fun _ hname =>
      (marks_accept _).then fun _ => .pure (by simpa using hname)
  · exact marks_advance.any.then fun _ =>
      (marks_make htoken.start).andThen fun _ hnode => .pure (by simpa using hnode)
  · exact (marks_fault htoken).then fun _ => .pure (by simp)

/-- A literal stands between marked offsets. Counterpart of `Parser.literal`. -/
theorem marks_literal (kind : LiteralKind) : MarksNode isMark (literal kind) := by
  unfold literal
  exact marks_advance.andThen fun _ htoken => marks_make htoken.start

section
variable {grammar : Grammar} (h : grammar.IsMarking isMark)
include h

/-- Expressions with commas stand between marked offsets. Counterpart of `Parser.expressionList`. -/
theorem marks_expressionList : MarksNodes isMark (expressionList grammar) :=
  marks_commaSeparated (h.expression 0)

/-- A function stands between marked offsets. Counterpart of `Parser.functionBody`. -/
theorem marks_functionBody {start : Nat} (hstart : isMark start) (name : Option Node)
    (isLocal : Bool) :
    MarksNode isMark (functionBody grammar start name isLocal) := by
  unfold functionBody
  have hrest : ∀ parameters : List Node, MarksNode isMark (do
      expect (.symbol .rightParen)
      let body ← grammar.block
      expect (.keyword .endK)
      make (.function isLocal name parameters body) start) := fun parameters =>
    (marks_expect _).then fun _ => h.block.any.then fun _ => (marks_expect _).then fun _ =>
    marks_make hstart
  exact (marks_expect _).then fun _ => marks_currentKind.then fun _ =>
    .ite (hrest []) ((marks_many marks_parameter).any.then hrest)

/-- A field stands between marked offsets, in each of its three forms. Counterpart of
`Parser.field`. -/
theorem marks_field : MarksRound isMark (field grammar) := by
  have hseparator : ∀ node : Node, node.span.Marked isMark → MarksRound isMark (do
      let comma ← accept (.symbol .comma)
      let separated ← if comma then pure true else accept (.symbol .semicolon)
      return ([node], separated)) := by
    intro node hnode
    refine (marks_accept _).then fun comma => ?_
    cases comma with
    | true => exact .pure (by simpa using hnode)
    | false => exact (marks_accept _).then fun _ => .pure (by simpa using hnode)
  unfold field
  refine marks_current.andThen fun token htoken => ?_
  have hexpression := (h.expression 0).any
  split
  · exact .pure (by simp)
  · exact .pure (by simp)
  · refine marks_followingKind.then fun _ => .ite ?_ (.ite ?_ ?_)
    · exact marks_advance.any.then fun _ => hexpression.then fun _ => (marks_expect _).then fun _ =>
        (marks_expect _).then fun _ => hexpression.then fun _ =>
          (marks_make htoken.start).andThen hseparator
    · exact marks_identifier.any.then fun _ => marks_advance.any.then fun _ =>
        hexpression.then fun _ =>
        (marks_make htoken.start).andThen hseparator
    · exact hexpression.then fun _ => (marks_make htoken.start).andThen hseparator

/-- A table stands between marked offsets. Counterpart of `Parser.table`. -/
theorem marks_table : MarksNode isMark (table grammar) := by
  unfold table
  exact marks_start.andThen fun _ hstart => (marks_expect _).then fun _ =>
    (marks_many (marks_field h)).any.then fun _ => (marks_expect _).then fun _ => marks_make hstart

/-- A name or an expression in parentheses stands between marked offsets. Counterpart of
`Parser.primary`. -/
theorem marks_primary : MarksNode isMark (primary grammar) := by
  unfold primary
  refine marks_current.andThen fun token htoken => ?_
  split
  · exact marks_identifier
  · exact marks_advance.any.then fun _ => (h.expression 0).andThen fun node hnode =>
      (marks_expect _).then fun _ => .pure (node.span_parenthesise.symm ▸ hnode)
  · refine (marks_fault ?_).then fun _ => .ite (marks_makeInvalid htoken) ?_
    · split <;> exact htoken
    · exact marks_advance.any.then fun _ => marks_makeInvalid htoken

/-- A call stands between marked offsets, with any of the three forms of arguments. Counterpart of
`Parser.call`. -/
theorem marks_call (base : Node) {start : Nat} (hstart : isMark start) :
    MarksNode isMark (call grammar base start) := by
  unfold call
  refine marks_currentKind.then fun kind => ?_
  split
  · exact (marks_table h).any.then fun _ => marks_make hstart
  · exact (marks_literal _).any.then fun _ => marks_make hstart
  · exact (marks_literal _).any.then fun _ => marks_make hstart
  · have hrest : ∀ arguments : List Node, MarksNode isMark (do
        expect (.symbol .rightParen)
        make (.call base arguments) start) :=
      fun _ => (marks_expect _).then fun _ => marks_make hstart
    exact (marks_expect _).then fun _ => marks_currentKind.then fun _ =>
      .ite (hrest []) ((marks_expressionList h).any.then hrest)

/-- One access or call after a value stands between marked offsets. Counterpart of
`Parser.suffix`. -/
theorem marks_suffix {base : Node} (hbase : base.span.Marked isMark) {start : Nat}
    (hstart : isMark start) :
    Marks isMark (suffix grammar start base) fun result => result.1.span.Marked isMark := by
  unfold suffix
  refine marks_currentKind.then fun kind => ?_
  split
  · exact marks_advance.any.then fun _ => marks_identifier.any.then fun _ =>
      (marks_make hstart).andThen fun _ hnode => .pure hnode
  · exact marks_advance.any.then fun _ => (h.expression 0).any.then fun _ =>
      (marks_expect _).then fun _ =>
      (marks_make hstart).andThen fun _ hnode => .pure hnode
  · refine marks_advance.any.then fun _ => marks_identifier.any.then fun _ =>
      (marks_make hstart).andThen fun method hmethod => marks_currentKind.then fun _ => .ite ?_ ?_
    · exact (marks_call h method hstart).andThen fun _ hnode => .pure hnode
    · exact marks_current.andThen fun _ htoken => (marks_fault htoken).then fun _ => .pure hmethod
  · exact .ite ((marks_call h base hstart).andThen fun _ hnode => .pure hnode) (.pure hbase)

/-- A value with all accesses and calls after it stands between marked offsets. Counterpart of
`Parser.suffixed`. -/
theorem marks_suffixed : MarksNode isMark (suffixed grammar) := by
  unfold suffixed
  exact marks_start.andThen fun _ hstart => (marks_primary h).andThen fun _ hbase =>
    marks_extend (fun _ hvalue => marks_suffix h hvalue hstart) hbase

/-- An expression without operators stands between marked offsets. Counterpart of
`Parser.simple`. -/
theorem marks_simple : MarksNode isMark (simple grammar) := by
  unfold simple
  refine marks_current.andThen fun token htoken => ?_
  split
  · exact marks_literal _
  · split
    · exact marks_table h
    · exact marks_advance.any.then fun _ => marks_functionBody h htoken.start none false
    · exact marks_suffixed h

/-- An operand with the operators before it stands between marked offsets. Counterpart of
`Parser.operand`. -/
theorem marks_operand : MarksNode isMark (operand grammar) := by
  unfold operand
  refine marks_current.andThen fun token htoken => ?_
  split
  · exact marks_advance.any.then fun _ => (h.expression _).any.then fun _ => marks_make htoken.start
  · exact marks_simple h

/-- One operation after a left operand stands between marked offsets. Counterpart of
`Parser.operation`. -/
theorem marks_operation {limit start : Nat} (hstart : isMark start) {left : Node}
    (hleft : left.span.Marked isMark) :
    Marks isMark (operation grammar limit start left) fun result =>
      result.1.span.Marked isMark := by
  unfold operation
  refine marks_currentKind.then fun kind => ?_
  split
  · exact .ite (.pure hleft) (marks_advance.any.then fun _ => (h.expression _).any.then fun _ =>
      (marks_make hstart).andThen fun _ hnode => .pure hnode)
  · exact .pure hleft

/-- An expression stands between marked offsets. Counterpart of `Parser.expression`. -/
theorem marks_expression (limit : Nat) : MarksNode isMark (Parser.expression grammar limit) := by
  unfold Parser.expression
  exact marks_start.andThen fun _ hstart => (marks_operand h).andThen fun _ hleft =>
    marks_extend (fun _ hvalue => marks_operation h hstart hvalue) hleft

/-! ## Statements -/

/-- A return stands between marked offsets. Counterpart of `Parser.returnStatement`. -/
theorem marks_returnStatement : MarksNode isMark (returnStatement grammar) := by
  unfold returnStatement
  refine marks_start.andThen fun start hstart => marks_advance.any.then fun _ => ?_
  refine marks_currentKind.then fun _ => ?_
  have hrest : ∀ values : List Node, MarksNode isMark (do
      let _ ← accept (.symbol .semicolon)
      make (.returnStatement values) start) :=
    fun _ => (marks_accept _).then fun _ => marks_make hstart
  exact .ite (hrest []) ((marks_expressionList h).any.then hrest)

/-- A branch stands between marked offsets. Counterpart of `Parser.clause`. -/
theorem marks_clause : MarksRound isMark (clause grammar) := by
  unfold clause
  refine marks_advance.andThen fun token htoken => ?_
  have hrest : ∀ condition : Option Node, MarksRound isMark (do
      let body ← grammar.block
      let clause ← makeAt (.clause (clauseKind token.kind) condition body)
        ⟨token.start, max (← start) token.start⟩
      let next ← currentKind
      return ([clause], clauseKind token.kind ≠ .elseClause ∧
        (next = .keyword .elseifK ∨ next = .keyword .elseK))) := fun _ =>
    h.block.any.then fun _ => marks_start.andThen fun _ hstop =>
      (marks_makeAt (marked_max hstop htoken.start)).andThen fun _ hclause =>
        marks_currentKind.then fun _ => .pure (by simpa using hclause)
  exact .ite (hrest none) ((h.expression 0).any.then fun condition =>
    (marks_expect _).then fun _ => hrest (some condition))

/-- A conditional stands between marked offsets. Counterpart of `Parser.conditional`. -/
theorem marks_conditional : MarksNode isMark (conditional grammar) := by
  unfold conditional
  exact marks_start.andThen fun _ hstart => (marks_many (marks_clause h)).any.then fun _ =>
    (marks_expect _).then fun _ => marks_make hstart

/-- A `while` loop stands between marked offsets. Counterpart of `Parser.whileLoop`. -/
theorem marks_whileLoop : MarksNode isMark (whileLoop grammar) := by
  unfold whileLoop
  exact marks_start.andThen fun _ hstart => marks_advance.any.then fun _ =>
    (h.expression 0).any.then fun _ =>
    (marks_expect _).then fun _ => h.block.any.then fun _ => (marks_expect _).then fun _ =>
    marks_make hstart

/-- A block stands between marked offsets. Counterpart of `Parser.doBlock`. -/
theorem marks_doBlock : MarksNode isMark (doBlock grammar) := by
  unfold doBlock
  exact marks_start.andThen fun _ hstart => marks_advance.any.then fun _ =>
    h.block.any.then fun _ =>
    (marks_expect _).then fun _ => marks_make hstart

/-- A `repeat` loop stands between marked offsets. Counterpart of `Parser.repeatLoop`. -/
theorem marks_repeatLoop : MarksNode isMark (repeatLoop grammar) := by
  unfold repeatLoop
  exact marks_start.andThen fun _ hstart => marks_advance.any.then fun _ =>
    h.block.any.then fun _ =>
    (marks_expect _).then fun _ => (h.expression 0).any.then fun _ => marks_make hstart

/-- The statements of a loop stand between marked offsets. Counterpart of `Parser.loopBody`. -/
theorem marks_loopBody : MarksNodes isMark (loopBody grammar) := by
  unfold loopBody
  exact (marks_expect _).then fun _ => h.block.andThen fun _ hbody => (marks_expect _).then fun _ =>
    .pure hbody

/-- A `for` loop of either form stands between marked offsets. Counterpart of `Parser.forLoop`. -/
theorem marks_forLoop : MarksNode isMark (forLoop grammar) := by
  unfold forLoop
  refine marks_start.andThen fun start hstart => marks_advance.any.then fun _ => ?_
  refine marks_identifier.any.then fun counter => (marks_accept _).then fun _ => .ite ?_ ?_
  · refine (h.expression 0).any.then fun first => (marks_expect _).then fun _ => ?_
    refine (h.expression 0).any.then fun last => (marks_accept _).then fun _ => ?_
    have hrest : ∀ step : Option Node, MarksNode isMark (do
        let body ← loopBody grammar
        make (.numericFor counter first last step body) start) :=
      fun _ => (marks_loopBody h).any.then fun _ => marks_make hstart
    refine .ite ?_ (hrest none)
    have hstep : MarksAny isMark (some <$> grammar.expression 0) :=
      fun s hmarked => ⟨trivial, (h.expression 0 s hmarked).2⟩
    exact hstep.then hrest
  · have hrest : ∀ others : List Node, MarksNode isMark (do
        expect (.keyword .inK)
        let iterators ← expressionList grammar
        let body ← loopBody grammar
        make (.genericFor (counter :: others) iterators body) start) := fun _ =>
      (marks_expect _).then fun _ => (marks_expressionList h).any.then fun _ =>
        (marks_loopBody h).any.then fun _ => marks_make hstart
    exact (marks_accept _).then fun _ =>
      .ite ((marks_commaSeparated marks_identifier).any.then hrest) (hrest [])

omit h in
/-- One part of the name of a function keeps the offsets. Counterpart of `Parser.namePart`. -/
theorem marks_namePart {start : Nat} (hstart : isMark start) (base : Node) :
    MarksAny isMark (namePart start base) := by
  unfold namePart
  refine marks_currentKind.then fun kind => ?_
  split
  · exact marks_advance.any.then fun _ => marks_identifier.any.then fun _ =>
      (marks_make hstart).any.then fun _ => .pure trivial
  · exact marks_advance.any.then fun _ => marks_identifier.any.then fun _ =>
      (marks_make hstart).any.then fun _ => .pure trivial
  · exact .pure trivial

/-- A function with a name stands between marked offsets. Counterpart of
`Parser.functionStatement`. -/
theorem marks_functionStatement : MarksNode isMark (functionStatement grammar) := by
  unfold functionStatement
  refine marks_advance.andThen fun token htoken => marks_start.andThen fun _ hstart => ?_
  refine marks_identifier.any.then fun _ => ?_
  have hname : ∀ base : Node, MarksAny isMark (extend (namePart _) base) := fun _ =>
    marks_extend (fun base _ => marks_namePart hstart base) trivial
  exact (hname _).then fun name => marks_functionBody h htoken.start (some name) false

/-- A local function or local variables stand between marked offsets. Counterpart of
`Parser.localStatement`. -/
theorem marks_localStatement : MarksNode isMark (localStatement grammar) := by
  unfold localStatement
  refine marks_advance.andThen fun token htoken => (marks_accept _).then fun _ => .ite ?_ ?_
  · exact marks_identifier.any.then fun name => marks_functionBody h htoken.start (some name) true
  · refine (marks_commaSeparated marks_identifier).any.then fun names =>
      (marks_accept _).then fun _ => ?_
    have hrest : ∀ values : List Node,
        MarksNode isMark (make (.localVariables names values) token.start) :=
      fun _ => marks_make htoken.start
    exact .ite ((marks_expressionList h).any.then hrest) (hrest [])

omit h in
/-- A label stands between marked offsets. Counterpart of `Parser.labelStatement`. -/
theorem marks_labelStatement : MarksNode isMark labelStatement := by
  unfold labelStatement
  exact marks_advance.andThen fun _ htoken => marks_identifier.any.then fun _ =>
    (marks_expect _).then fun _ => marks_make htoken.start

omit h in
/-- A jump stands between marked offsets. Counterpart of `Parser.gotoStatement`. -/
theorem marks_gotoStatement : MarksNode isMark gotoStatement := by
  unfold gotoStatement
  exact marks_advance.andThen fun _ htoken => marks_identifier.any.then fun _ =>
    marks_make htoken.start

omit h in
/-- A `break` stands between marked offsets. Counterpart of `Parser.breakStatement`. -/
theorem marks_breakStatement : MarksNode isMark breakStatement := by
  unfold breakStatement
  exact marks_advance.andThen fun _ htoken => marks_make htoken.start

omit h in
/-- The check of the targets of an assignment notes faults at them. Counterpart of the loop of
`Parser.expressionStatement`. -/
theorem marks_checkTargets {targets : List Node}
    (htargets : ∀ target ∈ targets, target.span.Marked isMark) :
    MarksAny isMark (forIn targets PUnit.unit fun target _ =>
      if isTarget target then pure (.yield PUnit.unit)
      else do
        fault (.invalidTarget target.span)
        pure (.yield PUnit.unit)) := by
  induction targets with
  | nil => exact .pure trivial
  | cons target rest ih =>
    obtain ⟨htarget, hrest⟩ := List.forall_mem_cons.1 htargets
    rw [List.forIn_cons]
    refine Marks.then (.ite (.pure trivial) ?_) fun step => ?_
    · exact (marks_fault htarget).then fun _ => .pure trivial
    · cases step with
      | done => exact .pure trivial
      | yield => exact ih hrest

/-- An assignment, a call or a fault in their place stands between marked offsets. Counterpart of
`Parser.expressionStatement`. -/
theorem marks_expressionStatement : MarksNode isMark (expressionStatement grammar) := by
  unfold expressionStatement
  refine marks_start.andThen fun start hstart => (marks_suffixed h).andThen fun first hfirst => ?_
  refine marks_currentKind.then fun _ => .ite ?_ (.ite (marks_make hstart) ?_)
  · have hrest : ∀ others : List Node, (∀ other ∈ others, other.span.Marked isMark) →
        MarksNode isMark (do
          for target in first :: others do
            unless isTarget target do
              fault (.invalidTarget target.span)
          expect (.symbol .equal)
          let values ← expressionList grammar
          make (.assignment (first :: others) values) start) := fun others hothers =>
      (marks_checkTargets (List.forall_mem_cons.2 ⟨hfirst, hothers⟩)).then fun _ =>
        (marks_expect _).then fun _ => (marks_expressionList h).any.then fun _ => marks_make hstart
    exact (marks_accept _).then fun _ =>
      .ite ((marks_commaSeparated (marks_suffixed h)).andThen hrest) (hrest [] (by simp))
  · exact (marks_fault hfirst).then fun _ => marks_make hstart

/-- A statement stands between marked offsets. Counterpart of `Parser.statement`. -/
theorem marks_statement : MarksNode isMark (statement grammar) := by
  unfold statement
  refine marks_currentKind.then fun kind => ?_
  split
  · exact marks_conditional h
  · exact marks_whileLoop h
  · exact marks_doBlock h
  · exact marks_forLoop h
  · exact marks_repeatLoop h
  · exact marks_functionStatement h
  · exact marks_localStatement h
  · exact marks_labelStatement
  · exact marks_breakStatement
  · exact marks_gotoStatement
  · exact marks_expressionStatement h

/-- One round of a block keeps the offsets. Counterpart of `Parser.blockItem`. -/
theorem marks_blockItem : MarksRound isMark (blockItem grammar) := by
  unfold blockItem
  refine marks_currentKind.then fun _ => .ite (.pure (by simp)) (.ite ?_ (.ite ?_ ?_))
  · exact marks_advance.any.then fun _ => .pure (by simp)
  · exact (marks_returnStatement h).andThen fun _ hnode => marks_current.andThen fun _ htoken =>
      .ite (.pure (by simpa using hnode))
      ((marks_fault htoken).then fun _ => .pure (by simpa using hnode))
  · exact (marks_statement h).andThen fun _ hnode => .pure (by simpa using hnode)

/-- The statements of a block stand between marked offsets. Counterpart of `Parser.block`. -/
theorem marks_block : MarksNodes isMark (block grammar) :=
  marks_many (marks_blockItem h)

/-- The statements of a whole file stand between marked offsets. Counterpart of `Parser.chunk`. -/
theorem marks_chunk : MarksNodes isMark (chunk grammar) :=
  marks_many <| h.block.andThen fun _ hbody => marks_currentKind.then fun _ =>
    .ite (.pure hbody) (marks_advance.andThen fun _ htoken => (marks_fault htoken).then fun _ =>
      .pure hbody)

end

end Parser

/-! ## Sources -/

/-- The rules of each level keep the offsets, by induction on the level. Counterpart of
`Grammar.level`. -/
theorem isMarking_level (isMark : Nat → Prop) (depth : Nat) :
    (Grammar.level depth).IsMarking isMark := by
  induction depth with
  | zero =>
    refine ⟨fun limit => ?_, .pure (by simp)⟩
    exact marks_current.andThen fun _ htoken => (marks_fault htoken).then fun _ =>
      marks_makeInvalid htoken
  | succ depth ih => exact ⟨marks_expression ih, marks_block ih⟩

/-- The tokens of a source stand between offsets that cut it between characters. Counterpart of
`IsCut`. -/
theorem marked_of_mem_tokenise {source : List Char} {token : Token} (h : token ∈ tokenise source) :
    token.span.Marked (IsCut source) := by
  obtain ⟨hstart, hstop, -⟩ := text?_span_of_mem h
  exact ⟨hstart, hstop, Nat.le_add_right _ _⟩

/-- Every fault of a source is at a stretch of whole characters of it. Counterpart of
`Fault.span`. -/
theorem marked_of_mem_faults {source : List Char} {fault : Fault}
    (h : fault ∈ (parse source).faults) :
    fault.span.Marked (IsCut source) := by
  have hrun := (marks_chunk (isMarking_level (IsCut source) ((parse source).tokens.length + 1))
    (Program.initialState source (parse source).tokens)
    ⟨fun _ hmem => marked_of_mem_tokenise (List.mem_filter.1 hmem).1, isCut_zero source,
      isCut_byteLength source, fun _ hmem => absurd hmem List.not_mem_nil⟩).2
  rcases List.mem_append.1 h with hunclosed | hnoted
  · obtain ⟨token, htoken, rfl⟩ := List.mem_map.1 hunclosed
    exact marked_of_mem_tokenise (List.mem_filter.1 htoken).1
  · exact hrun.faults fault (List.mem_reverse.1 hnoted)

end LuaFormatter
