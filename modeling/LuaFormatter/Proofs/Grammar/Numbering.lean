import LuaFormatter.Proofs.Grammar.ReadStatement
import LuaFormatter.Proofs.Grammar.Yield
import LuaFormatter.Proofs.Token.Cover

/-!
# The numbers of nodes

A parser that makes a node claims nodes that were made before for its parts. `Numbered first next
nodes` says that nothing is lost and nothing is claimed twice: the nodes and all their parts have
the numbers from `first` up to but not including `next`, each of them once, and every node has a
larger number than its parts. In addition every node starts where a token does, and a leaf has the
text of a token of its kind. Which tokens these are is a parameter; for a source they are its own.

`Builds` is what every rule of the grammar keeps, whether it notes faults or not: the nodes that it
gives back are numbered from the count of nodes before it to the count after it. So all nodes of a
source are parts of its root (`numbered_chunkRun`).
-/

open LuaFormatter.Parser

namespace LuaFormatter

/-- A token starts at the offset. -/
def IsStart (isToken : Token → Prop) (offset : Nat) : Prop :=
  ∃ token, isToken token ∧ token.start = offset

/-- A token starts where a token starts. Counterpart of `IsStart`. -/
theorem IsStart.of_token {isToken : Token → Prop} {token : Token} (h : isToken token) :
    IsStart isToken token.start :=
  ⟨token, h, rfl⟩

/-- A name or a literal has the text of a token of its kind. -/
def Shape.IsReadFrom {α : Type} (isToken : Token → Prop) : Shape α → Prop
  | identifier name =>
    ∃ token, isToken token ∧ token.kind = .identifier ∧ name = Parser.textOf token
  | literal kind text =>
    ∃ token, isToken token ∧ Parser.literalKind? token.kind = some kind ∧ text = Parser.textOf token
  | _ => True

/-- The nodes and their parts have the numbers from a first one up to a next one: the parts of a
node come before it, and the nodes after it later. Every node starts at a token, and leaves are read
from tokens. -/
inductive Numbered (isToken : Token → Prop) : Nat → Nat → List Node → Prop
  | nil {n : Nat} : Numbered isToken n n []
  | node {a b c : Nat} {shape : Shape Node} {span : Span} {rest : List Node} (inParens : Bool) :
    Numbered isToken a b shape.children → IsStart isToken span.start → shape.IsReadFrom isToken →
    Numbered isToken (b + 1) c rest → Numbered isToken a c (⟨b, shape, span, inParens⟩ :: rest)

namespace Numbered

variable {isToken : Token → Prop} {a b c : Nat} {nodes others : List Node} {node : Node}

/-- Nodes one after the other have the numbers from the first to the last. Counterpart of `Numbered`
for two lists. -/
theorem append (h : Numbered isToken a b nodes) (h' : Numbered isToken b c others) :
    Numbered isToken a c (nodes ++ others) := by
  induction h with
  | nil => exact h'
  | node inParens hparts hstart hread _ _ ih => exact .node inParens hparts hstart hread (ih h')

/-- A node takes the number after those of its children, if it starts at a token and its own texts
are read from tokens. Counterpart of `Parser.makeAt`. -/
theorem one {shape : Shape Node} {span : Span} (h : Numbered isToken a b shape.children)
    (hstart : IsStart isToken span.start) (hread : shape.IsReadFrom isToken) :
    Numbered isToken a (b + 1) [⟨b, shape, span, false⟩] :=
  .node false h hstart hread .nil

/-- Parentheses around a node change no number. Counterpart of `Node.parenthesise`. -/
theorem parenthesise (h : Numbered isToken a b [node]) :
    Numbered isToken a b [node.parenthesise] := by
  cases h with
  | node _ hparts hstart hread hrest => exact .node true hparts hstart hread hrest

/-- Numbers only grow. Counterpart of `Numbered`. -/
theorem le (h : Numbered isToken a b nodes) : a ≤ b := by
  induction h with
  | nil => exact Nat.le_refl _
  | node _ _ _ _ _ ihparts ihrest => omega

/-- The parts of every part are numbered below it. Counterpart of `Node.Part`. -/
theorem part (h : Numbered isToken a b nodes) {part : Node} (hmem : node ∈ nodes)
    (hpart : part.Part node) :
    ∃ first, a ≤ first ∧ part.number < b ∧ IsStart isToken part.span.start ∧
      part.shape.IsReadFrom isToken ∧ Numbered isToken first part.number part.children := by
  induction h generalizing node with
  | nil => simp at hmem
  | @node a b c shape span rest inParens hparts hstart hread hrest ihparts ihrest =>
    have hle := hparts.le
    have hle' := hrest.le
    rcases List.mem_cons.1 hmem with rfl | hmem
    · cases hpart with
      | self => exact ⟨a, Nat.le_refl a, hle', hstart, hread, hparts⟩
      | child hchild hpart =>
        obtain ⟨first, hfirst, hlast, hfacts⟩ := ihparts hchild hpart
        exact ⟨first, hfirst, by omega, hfacts⟩
    · obtain ⟨first, hfirst, hlast, hfacts⟩ := ihrest hmem hpart
      exact ⟨first, by omega, hlast, hfacts⟩

end Numbered

/-! ## The steps of a parser -/

/-- The tokens still to be read, and the one at the end of the source. -/
structure ParseState.Holds (isToken : Token → Prop) (state : ParseState) : Prop where
  tokens : ∀ token ∈ state.rest, isToken token
  stop : isToken ⟨.endOfFile, state.sourceLength, []⟩

/-- The current token is one of the tokens. Counterpart of `ParseState.token`. -/
theorem ParseState.Holds.token {isToken : Token → Prop} {state : ParseState}
    (h : state.Holds isToken) : isToken state.token := by
  unfold ParseState.token
  cases hrest : state.rest with
  | nil => exact h.stop
  | cons first rest => exact h.tokens first (by simp [hrest])

namespace Parser

open ParseState

/-- Started after a number of nodes, the parser gives a result that fits the number of nodes made
when it ends. -/
def Builds {α : Type} (isToken : Token → Prop) (p : Parser α) (n : Nat) (Q : α → Nat → Prop) :
    Prop :=
  ∀ s : ParseState, s.made = n → s.Holds isToken →
    Q (p s).1 (p s).2.made ∧ (p s).2.Holds isToken

section
variable {α β : Type} {isToken : Token → Prop} {p q : Parser α} {f : α → Parser β} {n : Nat}
  {P : α → Nat → Prop} {Q : β → Nat → Prop}

/-- A result without reading takes no number. Counterpart of `pure`. -/
theorem Builds.pure {a : α} (h : P a n) : Builds isToken (pure a) n P :=
  fun _ hmade hholds => ⟨hmade ▸ h, hholds⟩

/-- What is known of a result may be weakened. Counterpart of `Builds`. -/
theorem Builds.imp {R : α → Nat → Prop} (h : Builds isToken p n P) (himp : ∀ a m, P a m → R a m) :
    Builds isToken p n R :=
  fun s hmade hholds => ⟨himp _ _ (h s hmade hholds).1, (h s hmade hholds).2⟩

/-- A step and what comes after it. Counterpart of the bind of `Parser`. -/
theorem Builds.andThen (h : Builds isToken p n P) (hf : ∀ a m, P a m → Builds isToken (f a) m Q) :
    Builds isToken (p >>= f) n Q := by
  intro s hmade hholds
  obtain ⟨hresult, hmiddle⟩ := h s hmade hholds
  exact hf _ _ hresult _ rfl hmiddle

/-- A result that is changed afterwards takes no further number. Counterpart of `Functor.map` for
`Builds`. -/
theorem Builds.map {g : α → β} (h : Builds isToken p n P) (hg : ∀ a m, P a m → Q (g a) m) :
    Builds isToken (g <$> p) n Q :=
  fun s hmade hholds => ⟨hg _ _ (h s hmade hholds).1, (h s hmade hholds).2⟩

/-- A choice takes numbers in order if both branches do. Counterpart of `ite` for `Builds`. -/
theorem Builds.ite {c : Prop} [Decidable c] (hp : c → Builds isToken p n P)
    (hq : ¬c → Builds isToken q n P) : Builds isToken (if c then p else q) n P := by
  split
  · exact hp ‹_›
  · exact hq ‹_›

/-- The parser makes no nodes. -/
abbrev Idle (isToken : Token → Prop) (p : Parser α) : Prop :=
  ∀ n, Builds isToken p n fun _ m => m = n

/-- After what makes no nodes the numbers go on where they were. Counterpart of the bind of
`Parser`. -/
theorem Idle.andThen (h : Idle isToken p) (hf : ∀ a, Builds isToken (f a) n Q) :
    Builds isToken (p >>= f) n Q :=
  (h n).andThen fun a _ hm => hm ▸ hf a

/-- Looking at the kind of the current token makes no node. Counterpart of `Parser.currentKind`. -/
theorem idle_currentKind : Idle isToken currentKind :=
  fun _ _ hmade hholds => ⟨hmade, hholds⟩

/-- Looking at the kind of the token after it makes no node. Counterpart of
`Parser.followingKind`. -/
theorem idle_followingKind : Idle isToken followingKind :=
  fun _ _ hmade hholds => ⟨hmade, hholds⟩

/-- A fault makes no node. Counterpart of `Parser.fault`. -/
theorem idle_fault (fault : Fault) : Idle isToken (Parser.fault fault) :=
  fun _ _ hmade hholds => ⟨hmade, hholds.tokens, hholds.stop⟩

/-- The current token is one of the tokens, and no node is made. Counterpart of `Parser.current`. -/
theorem builds_current : Builds isToken current n fun token m => isToken token ∧ m = n :=
  fun _ hmade hholds => ⟨⟨hholds.token, hmade⟩, hholds⟩

/-- The current token starts where a token starts, and no node is made. Counterpart of
`Parser.start`. -/
theorem builds_start : Builds isToken start n fun offset m => IsStart isToken offset ∧ m = n :=
  fun _ hmade hholds => ⟨⟨⟨_, hholds.token, rfl⟩, hmade⟩, hholds⟩

/-- The token that is passed is one of the tokens, and no node is made. Counterpart of
`Parser.advance`. -/
theorem builds_advance : Builds isToken advance n fun token m => isToken token ∧ m = n := by
  intro s hmade hholds
  cases hrest : s.rest with
  | nil =>
    rw [advance_of_nil hrest]
    exact ⟨⟨hholds.token, hmade⟩, hholds⟩
  | cons first rest =>
    rw [advance_of_rest (by simp [hrest])]
    exact ⟨⟨hholds.token, hmade⟩, fun token hmem => hholds.tokens token (List.mem_of_mem_tail hmem),
      hholds.stop⟩

/-- Passing a token makes no node. Counterpart of `Parser.advance`. -/
theorem idle_advance : Idle isToken advance :=
  fun _ => builds_advance.imp fun _ _ h => h.2

/-- A look at the next token. Counterpart of `Parser.current` before the rest of a rule. -/
theorem Builds.look {f : Token → Parser β}
    (h : ∀ token, isToken token → Builds isToken (f token) n Q) :
    Builds isToken (current >>= f) n Q :=
  builds_current.andThen fun token _ ⟨htoken, hm⟩ => hm ▸ h token htoken

/-- To go on after a token it suffices to do so for each of the tokens. Counterpart of
`Parser.advance` before the rest of a rule. -/
theorem Builds.read {f : Token → Parser β}
    (h : ∀ token, isToken token → Builds isToken (f token) n Q) :
    Builds isToken (advance >>= f) n Q :=
  builds_advance.andThen fun token _ ⟨htoken, hm⟩ => hm ▸ h token htoken

/-- To go on after looking where a rule starts it suffices to do so for each start of a token.
Counterpart of `Parser.start` before the rest of a rule. -/
theorem Builds.started {f : Nat → Parser β}
    (h : ∀ offset, IsStart isToken offset → Builds isToken (f offset) n Q) :
    Builds isToken (start >>= f) n Q :=
  builds_start.andThen fun offset _ ⟨hstart, hm⟩ => hm ▸ h offset hstart

/-- As long as a token comes next, the parser gives a result that fits the number of nodes. -/
def BuildsAt (isToken : Token → Prop) (token : Token) (p : Parser α) (n : Nat)
    (P : α → Nat → Prop) : Prop :=
  ∀ s : ParseState, s.made = n → s.Holds isToken → s.token = token →
    P (p s).1 (p s).2.made ∧ (p s).2.Holds isToken

/-- What takes numbers in order does so at any current token. Counterpart of `BuildsAt`. -/
theorem Builds.at {token : Token} (h : Builds isToken p n P) : BuildsAt isToken token p n P :=
  fun s hmade hholds _ => h s hmade hholds

/-- Rules one after the other, the first at a known current token. Counterpart of the bind of
`Parser`. -/
theorem BuildsAt.andThen {token : Token} (h : BuildsAt isToken token p n P)
    (hf : ∀ a m, P a m → Builds isToken (f a) m Q) : BuildsAt isToken token (p >>= f) n Q := by
  intro s hmade hholds htoken
  obtain ⟨hresult, hmiddle⟩ := h s hmade hholds htoken
  exact hf _ _ hresult _ rfl hmiddle

/-- A look at the next token, which is still there. Counterpart of `Parser.current` before the rest
of a rule. -/
theorem Builds.lookAt {f : Token → Parser β}
    (h : ∀ token, isToken token → BuildsAt isToken token (f token) n Q) :
    Builds isToken (current >>= f) n Q :=
  fun s hmade hholds => h s.token hholds.token s hmade hholds rfl

/-- A look at the kind of the next token, which is still there. Counterpart of `Parser.currentKind`
before the rest of a rule. -/
theorem Builds.kindAt {f : Kind → Parser β}
    (h : ∀ token, isToken token → BuildsAt isToken token (f token.kind) n Q) :
    Builds isToken (currentKind >>= f) n Q :=
  fun s hmade hholds => h s.token hholds.token s hmade hholds rfl

/-- A token that comes next is read. Counterpart of `Parser.advance` before the rest of a rule. -/
theorem BuildsAt.read {token : Token} {f : Token → Parser β} (h : Builds isToken (f token) n Q) :
    BuildsAt isToken token (advance >>= f) n Q := by
  intro s hmade hholds htoken
  have hread : (advance s).1 = token := by
    cases hrest : s.rest with
    | nil => rw [advance_of_nil hrest, ← htoken]
    | cons => rw [advance_of_rest (by simp [hrest]), ← htoken]
  obtain ⟨⟨-, hcount⟩, hafter⟩ := builds_advance (n := n) s hmade hholds
  have hresult := h (advance s).2 hcount hafter
  rw [← hread] at hresult
  exact hresult

/-- Passing a token if it is of a kind makes no node. Counterpart of `Parser.accept`. -/
theorem idle_accept (kind : Kind) : Idle isToken (accept kind) := by
  intro n
  unfold accept
  refine idle_currentKind.andThen fun _ => .ite (fun _ => ?_) fun _ => .pure rfl
  exact idle_advance.andThen fun _ => .pure rfl

/-- Passing a token that has to be of a kind makes no node. Counterpart of `Parser.expect`. -/
theorem idle_expect (kind : Kind) : Idle isToken (expect kind) := by
  intro n
  unfold expect
  refine (idle_accept kind).andThen fun accepted => ?_
  cases accepted with
  | true => exact .pure rfl
  | false => exact .look fun token _ => idle_fault _ n

/-- A loop keeps what every round keeps. Counterpart of `Parser.extend`. -/
theorem builds_extend {round : α → Parser (α × Bool)}
    (h : ∀ value n, P value n → Builds isToken (round value) n fun result m => P result.1 m)
    {value : α} (hvalue : P value n) : Builds isToken (extend round value) n P := by
  intro s hmade hholds
  induction hlength : s.rest.length using Nat.strongRecOn generalizing value s n with
  | ind length ih =>
    obtain ⟨hnext, hafter⟩ := h value n hvalue s hmade hholds
    rw [extend_eq]
    split
    · rename_i hgo
      exact ih _ (hlength ▸ hgo.2) hnext _ rfl hafter rfl
    · exact ⟨hnext, hafter⟩

end

/-! ## Nodes -/

section
variable {isToken : Token → Prop} {a n : Nat}

/-- The result is a node, with which the nodes after a number are numbered. -/
abbrev BuildsNode (isToken : Token → Prop) (p : Parser Node) (a n : Nat) : Prop :=
  Builds isToken p n fun node m => Numbered isToken a m [node]

/-- The result is a list of nodes, with which the nodes after a number are numbered. -/
abbrev BuildsNodes (isToken : Token → Prop) (p : Parser (List Node)) (a n : Nat) : Prop :=
  Builds isToken p n fun nodes m => Numbered isToken a m nodes

/-- The result of a round is a list of nodes, with which the nodes after a number are numbered. -/
abbrev BuildsRound (isToken : Token → Prop) (p : Parser (List Node × Bool)) (a n : Nat) : Prop :=
  Builds isToken p n fun result m => Numbered isToken a m result.1

/-- A node that is made takes the next number. Counterpart of `Parser.makeAt`. -/
theorem builds_makeAt {shape : Shape Node} {span : Span} (h : Numbered isToken a n shape.children)
    (hstart : IsStart isToken span.start) (hread : shape.IsReadFrom isToken) :
    BuildsNode isToken (makeAt shape span) a n := by
  intro s hmade hholds
  subst hmade
  exact ⟨h.one hstart hread, hholds.tokens, hholds.stop⟩

/-- A node that ends at the last token read takes the next number. Counterpart of `Parser.make`. -/
theorem builds_make {shape : Shape Node} {start : Nat} (h : Numbered isToken a n shape.children)
    (hstart : IsStart isToken start) (hread : shape.IsReadFrom isToken) :
    BuildsNode isToken (make shape start) a n := by
  intro s hmade hholds
  have hspan : IsStart isToken (Span.mk start (max s.previousStop start)).start := hstart
  exact builds_makeAt h hspan hread s hmade hholds

/-- The node for a token that is not understood takes the next number. Counterpart of
`Parser.makeInvalid`. -/
theorem builds_makeInvalid {token : Token} (htoken : isToken token) :
    BuildsNode isToken (makeInvalid token) n n :=
  builds_makeAt .nil (.of_token htoken) trivial

/-- Rounds one after the other take the numbers in order. Counterpart of `Parser.many`. -/
theorem builds_many {round : Parser (List Node × Bool)}
    (h : ∀ n, BuildsRound isToken round n n) : BuildsNodes isToken (many round) n n := by
  refine builds_extend (fun items m hitems => ?_) .nil
  exact (h m).andThen fun result _ hresult => .pure (hitems.append hresult)

/-- Items between commas take the numbers in order. Counterpart of `Parser.commaSeparated`. -/
theorem builds_commaSeparated {item : Parser Node} (h : ∀ n, BuildsNode isToken item n n) :
    BuildsNodes isToken (commaSeparated item) n n :=
  builds_many fun n => (h n).andThen fun _ _ hnode => (idle_accept _).andThen fun _ => .pure hnode

end

end Parser

/-- The rules of a grammar number the nodes that they make. -/
structure Grammar.IsNumbered (isToken : Token → Prop) (grammar : Grammar) : Prop where
  expression (limit n : Nat) : Parser.BuildsNode isToken (grammar.expression limit) n n
  block (n : Nat) : Parser.BuildsNodes isToken grammar.block n n

namespace Parser

/-! ## Expressions -/

section
variable {isToken : Token → Prop} {n : Nat}

/-- A name takes the next number. Counterpart of `Parser.identifier`. -/
theorem builds_identifier : BuildsNode isToken identifier n n := by
  unfold identifier
  refine .look fun token htoken => .ite (fun hkind => ?_) fun _ => ?_
  · exact idle_advance.andThen fun _ =>
      builds_makeAt .nil (.of_token htoken) ⟨token, htoken, hkind, rfl⟩
  · exact (idle_fault _).andThen fun _ => builds_makeInvalid htoken

/-- A parameter takes the next number. Counterpart of `Parser.parameter`. -/
theorem builds_parameter : BuildsRound isToken parameter n n := by
  unfold parameter
  refine .look fun token htoken => ?_
  split
  · exact builds_identifier.andThen fun _ _ hname => (idle_accept _).andThen fun _ => .pure hname
  · rename_i hkind
    have hread : (Shape.literal (α := Node) .vararg (textOf token)).IsReadFrom isToken :=
      ⟨token, htoken, by rw [hkind]; rfl, rfl⟩
    exact idle_advance.andThen fun _ =>
      (builds_make .nil (.of_token htoken) hread).andThen fun _ _ hnode => .pure hnode
  · exact (idle_fault _).andThen fun _ => .pure .nil

/-- A literal takes the next number, and its text is that of its token. Counterpart of
`Parser.literal`. -/
theorem builds_literal {token : Token} {kind : LiteralKind} (htoken : isToken token)
    (hkind : literalKind? token.kind = some kind) :
    BuildsAt isToken token (literal kind) n fun node m => Numbered isToken n m [node] :=
  .read (builds_make .nil (.of_token htoken) ⟨token, htoken, hkind, rfl⟩)

end

section
variable {isToken : Token → Prop} {grammar : Grammar} {a n : Nat} (h : grammar.IsNumbered isToken)
include h

/-- Expressions between commas take the numbers in order. Counterpart of `Parser.expressionList`. -/
theorem builds_expressionList : BuildsNodes isToken (expressionList grammar) n n :=
  builds_commaSeparated (h.expression 0)

/-- A function takes the number after its name, its parameters and its body. Counterpart of
`Parser.functionBody`. -/
theorem builds_functionBody {start : Nat} (hstart : IsStart isToken start) {name : Option Node}
    (hname : Numbered isToken a n name.toList) (isLocal : Bool) :
    BuildsNode isToken (functionBody grammar start name isLocal) a n := by
  unfold functionBody
  refine (idle_expect _).andThen fun _ => idle_currentKind.andThen fun kind => ?_
  have hrest : ∀ (parameters : List Node) (m : Nat),
      Numbered isToken a m (name.toList ++ parameters) → BuildsNode isToken (do
        expect (.symbol .rightParen)
        let body ← grammar.block
        expect (.keyword .endK)
        make (.function isLocal name parameters body) start) a m := by
    intro parameters m hparameters
    refine (idle_expect _).andThen fun _ => (h.block m).andThen fun body b hbody => ?_
    exact (idle_expect _).andThen fun _ => builds_make (hparameters.append hbody) hstart trivial
  refine .ite (fun _ => hrest [] n (by simpa using hname)) fun _ => ?_
  exact (builds_many fun _ => builds_parameter).andThen fun parameters m hparameters =>
    hrest parameters m (hname.append hparameters)

/-- A field takes the number after its key and its value. Counterpart of `Parser.field`. -/
theorem builds_field : BuildsRound isToken (field grammar) n n := by
  have hseparator : ∀ (node : Node) (m : Nat), Numbered isToken n m [node] →
      BuildsRound isToken (do
        let comma ← accept (.symbol .comma)
        let separated ← if comma then pure true else accept (.symbol .semicolon)
        return ([node], separated)) n m := by
    intro node m hnode
    refine (idle_accept _).andThen fun comma => ?_
    cases comma with
    | true => exact .pure hnode
    | false => exact (idle_accept _).andThen fun _ => .pure hnode
  unfold field
  refine .look fun token htoken => ?_
  split
  · exact .pure .nil
  · exact .pure .nil
  · refine idle_followingKind.andThen fun following => .ite (fun _ => ?_) fun _ =>
      .ite (fun _ => ?_) fun _ => ?_
    · refine idle_advance.andThen fun _ => (h.expression 0 n).andThen fun key b hkey => ?_
      refine (idle_expect _).andThen fun _ => (idle_expect _).andThen fun _ => ?_
      refine (h.expression 0 b).andThen fun value c hvalue => ?_
      exact (builds_make (hkey.append hvalue) (.of_token htoken) (by trivial)).andThen hseparator
    · refine builds_identifier.andThen fun name b hname => idle_advance.andThen fun _ => ?_
      refine (h.expression 0 b).andThen fun value c hvalue => ?_
      exact (builds_make (hname.append hvalue) (.of_token htoken) (by trivial)).andThen hseparator
    · refine (h.expression 0 n).andThen fun value b hvalue => ?_
      exact (builds_make hvalue (.of_token htoken) (by trivial)).andThen hseparator

/-- A table takes the number after its fields. Counterpart of `Parser.table`. -/
theorem builds_table : BuildsNode isToken (table grammar) n n := by
  unfold table
  refine .started fun start hstart => (idle_expect _).andThen fun _ => ?_
  refine (builds_many fun _ => builds_field h).andThen fun fields b hfields => ?_
  exact (idle_expect _).andThen fun _ => builds_make hfields hstart trivial

/-- What a chain of accesses starts with takes the numbers in order. Counterpart of
`Parser.primary`. -/
theorem builds_primary : BuildsNode isToken (primary grammar) n n := by
  unfold primary
  refine .look fun token htoken => ?_
  split
  · exact builds_identifier
  · refine idle_advance.andThen fun _ => (h.expression 0 n).andThen fun node b hnode => ?_
    exact (idle_expect _).andThen fun _ => .pure hnode.parenthesise
  · refine (idle_fault _).andThen fun _ => .ite (fun _ => builds_makeInvalid htoken) fun _ => ?_
    exact idle_advance.andThen fun _ => builds_makeInvalid htoken

/-- A call takes the number after what is called and its arguments. Counterpart of `Parser.call`. -/
theorem builds_call {base : Node} (hbase : Numbered isToken a n [base]) {start : Nat}
    (hstart : IsStart isToken start) : BuildsNode isToken (call grammar base start) a n := by
  unfold call
  refine .kindAt fun token htoken => ?_
  have hliteral : ∀ kind, literalKind? token.kind = some kind → BuildsAt isToken token (do
      let argument ← literal kind
      make (.stringCall base argument) start) n fun node m => Numbered isToken a m [node] :=
    fun kind hkind => (builds_literal htoken hkind).andThen fun _ _ hargument =>
      builds_make (hbase.append hargument) hstart trivial
  split
  · refine Builds.at ?_
    exact (builds_table h).andThen fun _ _ hargument =>
      builds_make (hbase.append hargument) hstart trivial
  · rename_i hkind
    exact hliteral .string (by rw [hkind]; rfl)
  · rename_i hkind
    exact hliteral .longString (by rw [hkind]; rfl)
  · have hrest : ∀ (arguments : List Node) (m : Nat), Numbered isToken n m arguments →
        BuildsNode isToken (do
          expect (.symbol .rightParen)
          make (.call base arguments) start) a m := by
      intro arguments m harguments
      exact (idle_expect _).andThen fun _ => builds_make (hbase.append harguments) hstart trivial
    refine Builds.at ((idle_expect _).andThen fun _ => idle_currentKind.andThen fun next => ?_)
    refine .ite (fun _ => hrest [] n .nil) fun _ => ?_
    exact (builds_expressionList h).andThen hrest

/-- One access or call after a base takes the numbers after those of the base. Counterpart of
`Parser.suffix`. -/
theorem builds_suffix {base : Node} (hbase : Numbered isToken a n [base]) {start : Nat}
    (hstart : IsStart isToken start) :
    Builds isToken (suffix grammar start base) n fun result m =>
      Numbered isToken a m [result.1] := by
  unfold suffix
  refine idle_currentKind.andThen fun kind => ?_
  split
  · refine idle_advance.andThen fun _ => builds_identifier.andThen fun name b hname => ?_
    exact (builds_make (hbase.append hname) hstart (by trivial)).andThen fun _ _ hnode =>
      .pure hnode
  · refine idle_advance.andThen fun _ => (h.expression 0 n).andThen fun key b hkey => ?_
    refine (idle_expect _).andThen fun _ => ?_
    exact (builds_make (hbase.append hkey) hstart (by trivial)).andThen fun _ _ hnode => .pure hnode
  · refine idle_advance.andThen fun _ => builds_identifier.andThen fun name b hname => ?_
    refine (builds_make (hbase.append hname) hstart (by trivial)).andThen fun method c hmethod => ?_
    refine idle_currentKind.andThen fun next => .ite (fun _ => ?_) fun _ => ?_
    · exact (builds_call h hmethod hstart).andThen fun _ _ hnode => .pure hnode
    · exact .look fun _ _ => (idle_fault _).andThen fun _ => .pure hmethod
  · refine .ite (fun _ => ?_) fun _ => .pure hbase
    exact (builds_call h hbase hstart).andThen fun _ _ hnode => .pure hnode

/-- A chain of accesses and calls takes the numbers from its base on. Counterpart of
`Parser.suffixed`. -/
theorem builds_suffixed : BuildsNode isToken (suffixed grammar) n n := by
  unfold suffixed
  refine .started fun start hstart => (builds_primary h).andThen fun base b hbase => ?_
  exact builds_extend (fun _ _ hvalue => builds_suffix h hvalue hstart) hbase

/-- An operand without an operator takes the numbers in order. Counterpart of `Parser.simple`. -/
theorem builds_simple : BuildsNode isToken (simple grammar) n n := by
  unfold simple
  refine .lookAt fun token htoken => ?_
  split
  · rename_i kind hkind
    exact builds_literal htoken hkind
  · refine Builds.at ?_
    split
    · exact builds_table h
    · exact idle_advance.andThen fun _ => builds_functionBody h (.of_token htoken) .nil false
    · exact builds_suffixed h

/-- An operand takes the number after what its operators stand before. Counterpart of
`Parser.operand`. -/
theorem builds_operand : BuildsNode isToken (operand grammar) n n := by
  unfold operand
  refine .look fun token htoken => ?_
  split
  · refine idle_advance.andThen fun _ => (h.expression _ n).andThen fun operand b hoperand => ?_
    exact builds_make hoperand (.of_token htoken) trivial
  · exact builds_simple h

/-- An operation takes the number after its two operands. Counterpart of `Parser.operation`. -/
theorem builds_operation {limit start : Nat} (hstart : IsStart isToken start) {left : Node}
    (hleft : Numbered isToken a n [left]) :
    Builds isToken (operation grammar limit start left) n fun result m =>
      Numbered isToken a m [result.1] := by
  unfold operation
  refine idle_currentKind.andThen fun kind => ?_
  split
  · refine .ite (fun _ => .pure hleft) fun _ => idle_advance.andThen fun _ => ?_
    refine (h.expression _ n).andThen fun right b hright => ?_
    exact (builds_make (hleft.append hright) hstart (by trivial)).andThen fun _ _ hnode =>
      .pure hnode
  · exact .pure hleft

/-- An expression takes the numbers of its operations from left to right. Counterpart of
`Parser.expression`. -/
theorem builds_expression (limit : Nat) :
    BuildsNode isToken (Parser.expression grammar limit) n n := by
  unfold Parser.expression
  refine .started fun start hstart => (builds_operand h).andThen fun left b hleft => ?_
  exact builds_extend (fun _ _ hvalue => builds_operation h hstart hvalue) hleft

/-! ## Statements -/

/-- A `return` takes the number after its values. Counterpart of `Parser.returnStatement`. -/
theorem builds_returnStatement : BuildsNode isToken (returnStatement grammar) n n := by
  unfold returnStatement
  refine .started fun start hstart => idle_advance.andThen fun _ =>
    idle_currentKind.andThen fun kind => ?_
  have hrest : ∀ (values : List Node) (m : Nat), Numbered isToken n m values →
      BuildsNode isToken (do
        let _ ← accept (.symbol .semicolon)
        make (.returnStatement values) start) n m :=
    fun values m hvalues => (idle_accept _).andThen fun _ => builds_make hvalues hstart trivial
  exact .ite (fun _ => hrest [] n .nil) fun _ => (builds_expressionList h).andThen hrest

/-- A branch takes the number after its condition and its body. Counterpart of `Parser.clause`. -/
theorem builds_clause : BuildsRound isToken (clause grammar) n n := by
  unfold clause
  refine .read fun token htoken => ?_
  have hrest : ∀ (condition : Option Node) (m : Nat), Numbered isToken n m condition.toList →
      BuildsRound isToken (do
        let body ← grammar.block
        let clause ← makeAt (.clause (clauseKind token.kind) condition body)
          ⟨token.start, max (← start) token.start⟩
        let next ← currentKind
        return ([clause], clauseKind token.kind ≠ .elseClause ∧
          (next = .keyword .elseifK ∨ next = .keyword .elseK))) n m := by
    intro condition m hcondition
    refine (h.block m).andThen fun body b hbody => .started fun stop _ => ?_
    refine (builds_makeAt (hcondition.append hbody) (.of_token htoken) (by trivial)).andThen
      fun clause c hclause => ?_
    exact idle_currentKind.andThen fun _ => .pure hclause
  refine .ite (fun _ => hrest none n .nil) fun _ => ?_
  refine (h.expression 0 n).andThen fun condition b hcondition => ?_
  exact (idle_expect _).andThen fun _ => hrest (some condition) b hcondition

/-- A conditional takes the number after its branches. Counterpart of `Parser.conditional`. -/
theorem builds_conditional : BuildsNode isToken (conditional grammar) n n := by
  unfold conditional
  refine .started fun start hstart =>
    (builds_many fun _ => builds_clause h).andThen fun clauses b hclauses => ?_
  exact (idle_expect _).andThen fun _ => builds_make hclauses hstart trivial

/-- A `while` loop takes the number after its condition and its body. Counterpart of
`Parser.whileLoop`. -/
theorem builds_whileLoop : BuildsNode isToken (whileLoop grammar) n n := by
  unfold whileLoop
  refine .started fun start hstart => idle_advance.andThen fun _ => ?_
  refine (h.expression 0 n).andThen fun condition b hcondition =>
    (idle_expect _).andThen fun _ => ?_
  refine (h.block b).andThen fun body c hbody => (idle_expect _).andThen fun _ => ?_
  exact builds_make (hcondition.append hbody) hstart trivial

/-- A block takes the number after its body. Counterpart of `Parser.doBlock`. -/
theorem builds_doBlock : BuildsNode isToken (doBlock grammar) n n := by
  unfold doBlock
  refine .started fun start hstart => idle_advance.andThen fun _ => ?_
  refine (h.block n).andThen fun body b hbody => (idle_expect _).andThen fun _ => ?_
  exact builds_make hbody hstart trivial

/-- A `repeat` loop takes the number after its body and its condition. Counterpart of
`Parser.repeatLoop`. -/
theorem builds_repeatLoop : BuildsNode isToken (repeatLoop grammar) n n := by
  unfold repeatLoop
  refine .started fun start hstart => idle_advance.andThen fun _ => ?_
  refine (h.block n).andThen fun body b hbody => (idle_expect _).andThen fun _ => ?_
  refine (h.expression 0 b).andThen fun condition c hcondition => ?_
  exact builds_make (hbody.append hcondition) hstart trivial

/-- The body of a loop takes the numbers in order. Counterpart of `Parser.loopBody`. -/
theorem builds_loopBody : BuildsNodes isToken (loopBody grammar) n n := by
  unfold loopBody
  refine (idle_expect _).andThen fun _ => (h.block n).andThen fun body b hbody => ?_
  exact (idle_expect _).andThen fun _ => .pure hbody

/-- A `for` loop of either kind takes the number after its parts. Counterpart of
`Parser.forLoop`. -/
theorem builds_forLoop : BuildsNode isToken (forLoop grammar) n n := by
  unfold forLoop
  refine .started fun start hstart => idle_advance.andThen fun _ => ?_
  refine builds_identifier.andThen fun counter b hcounter =>
    (idle_accept _).andThen fun isNumeric => ?_
  refine .ite (fun _ => ?_) fun _ => ?_
  · refine (h.expression 0 b).andThen fun first c hfirst => (idle_expect _).andThen fun _ => ?_
    refine (h.expression 0 c).andThen fun last d hlast => (idle_accept _).andThen fun hasStep => ?_
    have hfront := (hcounter.append hfirst).append hlast
    have hrest : ∀ (step : Option Node) (m : Nat), Numbered isToken d m step.toList →
        BuildsNode isToken (do
          let body ← loopBody grammar
          make (.numericFor counter first last step body) start) n m := by
      intro step m hstep
      exact (builds_loopBody h).andThen fun body e hbody =>
        builds_make ((hfront.append hstep).append hbody) hstart trivial
    refine .ite (fun _ => ?_) fun _ => hrest none d .nil
    exact ((h.expression 0 d).map fun step _ hstep => hstep).andThen hrest
  · have hrest : ∀ (others : List Node) (m : Nat), Numbered isToken b m others →
        BuildsNode isToken (do
          expect (.keyword .inK)
          let iterators ← expressionList grammar
          let body ← loopBody grammar
          make (.genericFor (counter :: others) iterators body) start) n m := by
      intro others m hothers
      refine (idle_expect _).andThen fun _ =>
        (builds_expressionList h).andThen fun iterators c hvalues => ?_
      exact (builds_loopBody h).andThen fun body d hbody =>
        builds_make (((hcounter.append hothers).append hvalues).append hbody) hstart trivial
    refine (idle_accept _).andThen fun hasMore => .ite (fun _ => ?_) fun _ => hrest [] b .nil
    exact (builds_commaSeparated fun _ => builds_identifier).andThen hrest

omit h in
/-- One part of the name of a function takes the number after those before it. Counterpart of
`Parser.namePart`. -/
theorem builds_namePart {start : Nat} (hstart : IsStart isToken start) {base : Node}
    (hbase : Numbered isToken a n [base]) :
    Builds isToken (namePart start base) n fun result m => Numbered isToken a m [result.1] := by
  unfold namePart
  refine idle_currentKind.andThen fun kind => ?_
  split
  · refine idle_advance.andThen fun _ => builds_identifier.andThen fun name b hname => ?_
    exact (builds_make (hbase.append hname) hstart (by trivial)).andThen fun _ _ hnode =>
      .pure hnode
  · refine idle_advance.andThen fun _ => builds_identifier.andThen fun name b hname => ?_
    exact (builds_make (hbase.append hname) hstart (by trivial)).andThen fun _ _ hnode =>
      .pure hnode
  · exact .pure hbase

/-- A function statement takes the number after its name and its body. Counterpart of
`Parser.functionStatement`. -/
theorem builds_functionStatement : BuildsNode isToken (functionStatement grammar) n n := by
  unfold functionStatement
  refine .read fun token htoken => .started fun nameStart hnameStart => ?_
  refine builds_identifier.andThen fun base b hbase => ?_
  refine (builds_extend (fun _ _ => builds_namePart hnameStart) hbase).andThen fun name c hname =>
    ?_
  exact builds_functionBody h (.of_token htoken) hname false

/-- A local function or local variables take the number after their parts. Counterpart of
`Parser.localStatement`. -/
theorem builds_localStatement : BuildsNode isToken (localStatement grammar) n n := by
  unfold localStatement
  refine .read fun token htoken => (idle_accept _).andThen fun isFunction =>
    .ite (fun _ => ?_) fun _ => ?_
  · exact builds_identifier.andThen fun name b hname =>
      builds_functionBody h (.of_token htoken) hname true
  · refine (builds_commaSeparated fun _ => builds_identifier).andThen fun names b hnames => ?_
    have hrest : ∀ (values : List Node) (m : Nat), Numbered isToken b m values →
        BuildsNode isToken (make (.localVariables names values) token.start) n m :=
      fun values m hvalues => builds_make (hnames.append hvalues) (.of_token htoken) trivial
    refine (idle_accept _).andThen fun hasValues => .ite (fun _ => ?_) fun _ => hrest [] b .nil
    exact (builds_expressionList h).andThen hrest

omit h in
/-- A label takes the number after its name. Counterpart of `Parser.labelStatement`. -/
theorem builds_labelStatement : BuildsNode isToken labelStatement n n := by
  unfold labelStatement
  refine .read fun token htoken => builds_identifier.andThen fun label b hlabel => ?_
  exact (idle_expect _).andThen fun _ => builds_make hlabel (.of_token htoken) trivial

omit h in
/-- A `goto` takes the number after its name. Counterpart of `Parser.gotoStatement`. -/
theorem builds_gotoStatement : BuildsNode isToken gotoStatement n n := by
  unfold gotoStatement
  exact .read fun token htoken => builds_identifier.andThen fun label b hlabel =>
    builds_make hlabel (.of_token htoken) trivial

omit h in
/-- A `break` takes the next number. Counterpart of `Parser.breakStatement`. -/
theorem builds_breakStatement : BuildsNode isToken breakStatement n n := by
  unfold breakStatement
  exact .read fun token htoken => builds_make .nil (.of_token htoken) trivial

omit h in
/-- The check of the targets of an assignment makes no nodes. Counterpart of the loop of
`Parser.expressionStatement`. -/
theorem idle_checkTargets (targets : List Node) :
    Idle isToken (forIn targets PUnit.unit fun target _ =>
      if isTarget target then pure (.yield PUnit.unit)
      else do
        fault (.invalidTarget target.span)
        pure (.yield PUnit.unit)) := by
  induction targets with
  | nil => exact fun n => .pure rfl
  | cons target rest ih =>
    intro n
    simp only [List.forIn_cons]
    split
    · rw [pure_bind]
      exact ih n
    · rw [bind_assoc]
      refine (idle_fault _).andThen fun _ => ?_
      rw [pure_bind]
      exact ih n

/-- A call or an assignment takes the number after its parts. Counterpart of
`Parser.expressionStatement`. -/
theorem builds_expressionStatement : BuildsNode isToken (expressionStatement grammar) n n := by
  unfold expressionStatement
  refine .started fun start hstart => (builds_suffixed h).andThen fun first b hfirst => ?_
  refine idle_currentKind.andThen fun kind => .ite (fun _ => ?_) fun _ => ?_
  · have hrest : ∀ (others : List Node) (m : Nat), Numbered isToken b m others →
        BuildsNode isToken (do
          for target in first :: others do
            unless isTarget target do
              fault (.invalidTarget target.span)
          expect (.symbol .equal)
          let values ← expressionList grammar
          make (.assignment (first :: others) values) start) n m := by
      intro others m hothers
      refine (idle_checkTargets _).andThen fun _ => (idle_expect _).andThen fun _ => ?_
      exact (builds_expressionList h).andThen fun values c hvalues =>
        builds_make ((hfirst.append hothers).append hvalues) hstart trivial
    refine (idle_accept _).andThen fun hasMore => .ite (fun _ => ?_) fun _ => hrest [] b .nil
    exact (builds_commaSeparated fun _ => builds_suffixed h).andThen hrest
  · refine .ite (fun _ => builds_make hfirst hstart trivial) fun _ => ?_
    exact (idle_fault _).andThen fun _ => builds_make hfirst hstart trivial

/-- A statement takes the numbers in order, whatever keyword it starts with. Counterpart of
`Parser.statement`. -/
theorem builds_statement : BuildsNode isToken (statement grammar) n n := by
  unfold statement
  refine idle_currentKind.andThen fun kind => ?_
  split
  · exact builds_conditional h
  · exact builds_whileLoop h
  · exact builds_doBlock h
  · exact builds_forLoop h
  · exact builds_repeatLoop h
  · exact builds_functionStatement h
  · exact builds_localStatement h
  · exact builds_labelStatement
  · exact builds_breakStatement
  · exact builds_gotoStatement
  · exact builds_expressionStatement h

/-- An item of a block takes the numbers in order. Counterpart of `Parser.blockItem`. -/
theorem builds_blockItem : BuildsRound isToken (blockItem grammar) n n := by
  unfold blockItem
  refine idle_currentKind.andThen fun kind => .ite (fun _ => .pure .nil) fun _ =>
    .ite (fun _ => ?_) fun _ => .ite (fun _ => ?_) fun _ => ?_
  · exact idle_advance.andThen fun _ => .pure .nil
  · refine (builds_returnStatement h).andThen fun node b hnode => .look fun token _ => ?_
    refine .ite (fun _ => .pure hnode) fun _ => ?_
    exact (idle_fault _).andThen fun _ => .pure hnode
  · exact (builds_statement h).andThen fun node b hnode => .pure hnode

/-- The statements of a block take the numbers in order. Counterpart of `Parser.block`. -/
theorem builds_block : BuildsNodes isToken (block grammar) n n :=
  builds_many fun _ => builds_blockItem h

/-- The statements of a file take the numbers in order. Counterpart of `Parser.chunk`. -/
theorem builds_chunk : BuildsNodes isToken (chunk grammar) n n := by
  refine builds_many fun m => (h.block m).andThen fun body b hbody => ?_
  refine idle_currentKind.andThen fun kind => .ite (fun _ => .pure hbody) fun _ => ?_
  exact idle_advance.andThen fun token => (idle_fault _).andThen fun _ => .pure hbody

end

end Parser

/-! ## Sources -/

/-- Every level of the grammar numbers the nodes that it makes. Counterpart of `Grammar.level`. -/
theorem isNumbered_level (isToken : Token → Prop) (depth : Nat) :
    (Grammar.level depth).IsNumbered isToken := by
  induction depth with
  | zero =>
    refine ⟨fun limit n => ?_, fun n => .pure .nil⟩
    exact .look fun token htoken => (idle_fault _).andThen fun _ => builds_makeInvalid htoken
  | succ depth ih => exact ⟨fun limit n => builds_expression ih limit, fun n => builds_block ih⟩

/-- A token of the code of a source, or the one at its end. -/
def Program.HasToken (program : Program) (token : Token) : Prop :=
  token ∈ program.tokens ∨ token = ⟨.endOfFile, byteLength program.source, []⟩

/-- No token of a source starts inside a character. Counterpart of `Program.HasToken`. -/
theorem cut?_start_of_hasToken {source : List Char} {token : Token}
    (h : (parse source).HasToken token) : (cut? source token.start).isSome = true := by
  rcases h with hmem | rfl
  · exact (text?_span_of_mem (List.mem_filter.1 hmem).1).1
  · show (cut? source (byteLength source)).isSome = true
    rw [← List.append_nil source, byteLength_append, byteLength, Nat.add_zero, cut?_append]
    rfl

/-- The statements of a source and their parts have all numbers after that of the root. Counterpart
of `chunkRun`. -/
theorem numbered_chunkRun (source : List Char) :
    Numbered (parse source).HasToken 1 (parse source).nodeCount (chunkRun source).1 :=
  (builds_chunk (isNumbered_level _ _) (Program.initialState source (parse source).tokens) rfl
    ⟨fun _ hmem => .inl hmem, .inr rfl⟩).1

end LuaFormatter
