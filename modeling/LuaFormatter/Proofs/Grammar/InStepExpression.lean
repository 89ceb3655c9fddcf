import LuaFormatter.Proofs.Grammar.InStep

/-!
# The rules for expressions in step

Two grammars whose nested rules are in step with fewer than `n` tokens left give rules that are in
step with `n` tokens left: each rule reads a token before it turns to what is nested in it. So one
lemma for each rule says how far the two are in step, and which tokens it surely reads.

The rules that come after a token, such as the body of a function, are compared under the same bound
as what they nest. A rule at which a statement or an operand starts is compared under the greater
one, from the state `s` where it starts.
-/

namespace LuaFormatter

/-- The nested rules of two grammars are in step with fewer than `n` tokens left. -/
structure Grammar.InStep (n : Nat) (grammar other : Grammar) : Prop where
  expression (limit : Nat) : Parser.InStep n (grammar.expression limit)
    (other.expression limit) Parser.never
  block : Parser.InStep n grammar.block other.block Parser.never

/-- Grammars in step for some number of tokens are so for fewer. Counterpart of `InStep.mono`. -/
theorem Grammar.InStep.mono {k n : Nat} {grammar other : Grammar} (h : grammar.InStep n other)
    (hk : k ≤ n) : grammar.InStep k other where
  expression limit := (h.expression limit).mono hk
  block := h.block.mono hk

/-- Two grammars that are in step with a third are so with each other. Counterpart of
`Grammar.InStep`. -/
theorem Grammar.InStep.joined {n : Nat} {grammar other other' : Grammar}
    (h : grammar.InStep n other) (h' : grammar.InStep n other') : other.InStep n other' where
  expression limit s hs := (h.expression limit s hs).joined (h'.expression limit s hs)
  block s hs := (h.block s hs).joined (h'.block s hs)

namespace Parser

open ParseState

variable {n : Nat} {s : ParseState}

/-- There is a token if none ends the block, since the end of the source does. Counterpart of
`Parser.endsBlock`. -/
theorem rest_ne_nil_of_endsBlock (h : endsBlock s.kind = false) : s.rest ≠ [] := by
  refine rest_ne_nil_of_kind fun hend => ?_
  rw [hend] at h
  cases h

/-- A name is read if it is there. Counterpart of `Parser.identifier`. -/
theorem inStepAt_identifier : InStepAt s identifier identifier fun _ => s.kind = .identifier := by
  unfold identifier
  refine .current (.ite (fun hname => ?_) (fun hname => ?_))
  · exact .advance (rest_ne_nil_of_eq hname nofun) (Nat.le_refl _) fun _ => inStep_makeAt _ _
  · exact .imp (.fault (inStep_makeInvalid _ _ (Nat.lt_succ_self _))) fun _ h => hname h

/-- A name only makes moves. Counterpart of `Parser.identifier`. -/
theorem inStep_identifier : Paced n identifier never :=
  fun _ _ => inStepAt_identifier.weaken

/-- A literal surely reads its token. Counterpart of `Parser.literal`. -/
theorem inStepAt_literal (kind : LiteralKind) (h : s.rest ≠ []) :
    InStepAt s (literal kind) (literal kind) always :=
  .advance h (Nat.le_refl _) fun _ => inStep_make _ _

/-- A parameter only makes moves, and reads a token if it asks for more. Counterpart of
`Parser.parameter`. -/
theorem inStep_parameter : Paced n parameter ifMore := by
  unfold parameter
  refine inStep_current.then fun token => ?_
  split
  · exact inStep_identifier.then fun _ => (inStep_accepted (by nofun)).bind fun _ =>
      .pure fun hmore => hmore.2 hmore.1
  · exact inStep_advance.then fun _ => (inStep_make _ _).then fun _ => .pure Bool.false_ne_true
  · exact (inStep_fault _).then fun _ => .pure Bool.false_ne_true

section
variable {grammar other : Grammar} (h : grammar.InStep n other)
include h

/-- Expressions with commas are in step. Counterpart of `Parser.expressionList`. -/
theorem inStep_expressionList : InStep n (expressionList grammar) (expressionList other) never :=
  (h.expression 0).commaSeparated

/-- Functions are in step from their parameters on. Counterpart of `Parser.functionBody`. -/
theorem inStep_functionBody (start : Nat) (name : Option Node) (isLocal : Bool) :
    InStep n
      (functionBody grammar start name isLocal) (functionBody other start name isLocal) never := by
  unfold functionBody
  refine (inStep_expect _).then fun _ => inStep_currentKind.then fun _ =>
    .skipIf inStep_parameter.many ?_
  exact fun parameters => (inStep_expect _).then fun _ => h.block.then fun _ =>
    (inStep_expect _).then fun _ => inStep_make _ _

/-- Fields are in step, and read a token if they ask for more. Counterpart of `Parser.field`. -/
theorem inStep_field : InStep n (field grammar) (field other) ifMore := by
  -- Whether another field follows is said by the separator alone, and that is a token.
  have hseparator : ∀ node : Node, Paced n (do
      let comma ← accept (.symbol .comma)
      let separated ← if comma then pure true else accept (.symbol .semicolon)
      return ([node], separated)) ifMore := by
    intro node
    refine (inStep_accepted (by nofun)).bind fun comma => ?_
    cases comma with
    | true => exact .pure fun hmore => hmore.2 rfl
    | false => exact (inStep_accepted (by nofun)).bind fun _ => .pure fun hmore => hmore.2 hmore.1.1
  unfold field
  refine inStep_current.then fun token => ?_
  have hexpression := h.expression 0
  split
  · exact .pure Bool.false_ne_true
  · exact .pure Bool.false_ne_true
  · refine inStep_followingKind.then fun _ => .ite ?_ (.ite ?_ ?_)
    · exact inStep_advance.then fun _ => hexpression.then fun _ => (inStep_expect _).then fun _ =>
        (inStep_expect _).then fun _ => hexpression.then fun _ => (inStep_make _ _).then hseparator
    · exact inStep_identifier.then fun _ => inStep_advance.then fun _ => hexpression.then fun _ =>
        (inStep_make _ _).then hseparator
    · exact hexpression.then fun _ => (inStep_make _ _).then hseparator

/-- Tables are in step, and surely read their brace. Counterpart of `Parser.table`. -/
theorem inStepAt_table (hs : s.rest.length ≤ n) (hkind : s.kind = .symbol .leftCurly) :
    InStepAt s (table grammar) (table other) always := by
  unfold table
  refine .start (.before ((inStepAt_expect (by nofun)).imp fun _ _ => hkind) hs fun _ => ?_)
  exact (inStep_field h).many.then fun _ => (inStep_expect _).then fun _ => inStep_make _ _

/-- Any token is read but one that ends a block. Counterpart of `Parser.primary`. -/
theorem inStepAt_primary (hs : s.rest.length ≤ n) :
    InStepAt s (primary grammar) (primary other) fun _ => endsBlock s.kind = false := by
  unfold primary
  refine .current ?_
  have hkind : s.kind = s.token.kind := rfl
  split
  · exact inStepAt_identifier.imp fun _ _ => ‹_›
  · rename_i hnext
    refine .advance (rest_ne_nil_of_eq hnext nofun) hs fun _ => ?_
    exact (h.expression 0).then fun _ => (inStep_expect _).then fun _ => .pure not_false
  · refine .fault (.ite (fun hends => ?_) (fun hends => ?_))
    · exact .imp (inStep_makeInvalid _ _ (Nat.lt_succ_self _)) fun _ hnot => by
        simp [hkind, hends] at hnot
    · have hrest : s.rest ≠ [] := rest_ne_nil_of_endsBlock (by rwa [Bool.not_eq_true] at hends)
      exact .advance hrest (Nat.le_refl _) fun _ => inStep_makeInvalid _

/-- Calls are in step, and surely read what their arguments start with. Counterpart of
`Parser.call`. -/
theorem inStepAt_call (hs : s.rest.length ≤ n) (hkind : startsArguments s.kind = true) (base : Node)
    (start : Nat) : InStepAt s (call grammar base start) (call other base start) always := by
  unfold call
  refine .currentKind ?_
  split
  · exact (inStepAt_table h hs ‹_›).before hs fun _ => inStep_make _ _
  · rename_i hnext
    exact (inStepAt_literal _ (rest_ne_nil_of_eq hnext nofun)).before hs fun _ => inStep_make _ _
  · rename_i hnext
    exact (inStepAt_literal _ (rest_ne_nil_of_eq hnext nofun)).before hs fun _ => inStep_make _ _
  · have hparen : s.kind = .symbol .leftParen := by
      unfold startsArguments at hkind
      split at hkind <;> simp_all
    refine .before ((inStepAt_expect (by nofun)).imp fun _ _ => hparen) hs fun _ => ?_
    refine inStep_currentKind.then fun _ => .skipIf (inStep_expressionList h) ?_
    exact fun arguments => (inStep_expect _).then fun _ => inStep_make _ _

/-- Accesses and calls are in step for one token more, as they read one before they nest.
Counterpart of `Parser.suffix`. -/
theorem inStep_suffix (start : Nat) (base : Node) :
    InStep (n + 1) (suffix grammar start base) (suffix other start base) ifMore := by
  intro s hs
  have hs : s.rest.length ≤ n := Nat.le_of_lt_succ hs
  unfold suffix
  refine .currentKind ?_
  split
  · rename_i hnext
    exact .advance (rest_ne_nil_of_eq hnext nofun) hs fun _ => inStep_identifier.then fun _ =>
      (inStep_make _ _).then fun _ => .pure not_false
  · rename_i hnext
    exact .advance (rest_ne_nil_of_eq hnext nofun) hs fun _ => (h.expression 0).then fun _ =>
      (inStep_expect _).then fun _ => (inStep_make _ _).then fun _ => .pure not_false
  · rename_i hnext
    refine .advance (rest_ne_nil_of_eq hnext nofun) hs fun _ => inStep_identifier.then fun _ =>
      (inStep_make _ _).then fun method m hm => .currentKind (.ite (fun hkind => ?_) (fun _ => ?_))
    · exact ((inStepAt_call h (Nat.le_of_lt hm) hkind method start).before (Nat.le_of_lt hm)
        fun _ => .pure not_false)
    · exact .current (.fault (.pure not_false))
  · refine .ite (fun hkind => ?_) (fun _ => .pure Bool.false_ne_true)
    exact (inStepAt_call h hs hkind base start).before hs fun _ => .pure not_false

/-- Any token is read but one that ends a block. Counterpart of `Parser.suffixed`. -/
theorem inStepAt_suffixed (hs : s.rest.length ≤ n) :
    InStepAt s (suffixed grammar) (suffixed other) fun _ => endsBlock s.kind = false := by
  unfold suffixed
  exact .start ((inStepAt_primary h hs).thenUnder (Nat.lt_succ_of_le hs) fun base =>
    InStep.extend (inStep_suffix h _) base)

/-- Values with accesses and calls are in step for one token more. Counterpart of
`Parser.suffixed`. -/
theorem inStep_suffixed : InStep (n + 1) (suffixed grammar) (suffixed other) never :=
  fun _ hs => (inStepAt_suffixed h (Nat.le_of_lt_succ hs)).weaken

/-- Expressions without operators are in step for one token more. Counterpart of `Parser.simple`. -/
theorem inStep_simple : InStep (n + 1) (simple grammar) (simple other) never := by
  intro s hs
  have hs : s.rest.length ≤ n := Nat.le_of_lt_succ hs
  have hkind : s.kind = s.token.kind := rfl
  unfold simple
  refine .current ?_
  split
  · rename_i kind hliteral
    refine (inStepAt_literal kind (rest_ne_nil_of_kind fun hend => ?_)).weaken
    rw [← hkind, hend] at hliteral
    cases hliteral
  · split
    · exact (inStepAt_table h hs ‹_›).weaken
    · rename_i hnext
      exact .advance (rest_ne_nil_of_eq hnext nofun) hs fun _ => inStep_functionBody h _ none false
    · exact (inStepAt_suffixed h hs).weaken

/-- Operands are in step for one token more. Counterpart of `Parser.operand`. -/
theorem inStep_operand : InStep (n + 1) (operand grammar) (operand other) never := by
  intro s hs
  have hkind : s.kind = s.token.kind := rfl
  unfold operand
  refine .current ?_
  split
  · rename_i op hop
    refine .advance (rest_ne_nil_of_kind fun hend => ?_) (Nat.le_of_lt_succ hs) fun _ =>
      (h.expression _).then fun _ => inStep_make _ _
    rw [← hkind, hend] at hop
    cases hop
  · exact inStep_simple h s hs

/-- Operations after a left operand are in step for one token more, as they read an operator first.
Counterpart of `Parser.operation`. -/
theorem inStep_operation (limit start : Nat) (left : Node) :
    InStep (n + 1) (operation grammar limit start left)
      (operation other limit start left) ifMore := by
  intro s hs
  unfold operation
  refine .currentKind ?_
  split
  · rename_i op hop
    refine .ite (fun _ => .pure Bool.false_ne_true) (fun _ => ?_)
    refine .advance (rest_ne_nil_of_kind fun hend => ?_) (Nat.le_of_lt_succ hs) fun _ =>
      (h.expression _).then fun _ => (inStep_make _ _).then fun _ => .pure not_false
    rw [hend] at hop
    cases hop
  · exact .pure Bool.false_ne_true

/-- Expressions are in step for one token more. Counterpart of `Parser.expression`. -/
theorem inStep_expression (limit : Nat) :
    InStep (n + 1) (Parser.expression grammar limit) (Parser.expression other limit) never := by
  unfold Parser.expression
  exact inStep_start.then fun start => (inStep_operand h).then fun left =>
    InStep.extend (inStep_operation h limit start) left

end

end Parser

end LuaFormatter
