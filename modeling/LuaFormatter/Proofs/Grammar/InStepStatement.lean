import LuaFormatter.Proofs.Grammar.InStepExpression

/-!
# The rules for statements in step

Every statement reads its first token, unless that ends a block, so a block is in step with as many
tokens left as an expression (`Grammar.InStep.above`). A conditional is the one rule whose loop
reads a token at the start of each round without looking at it first. At the end of the source there
is no token to read, but no other branch follows either (`inStep_clause`).
-/

namespace LuaFormatter

namespace Parser

open ParseState

variable {n : Nat} {s : ParseState}

/-- The check of the targets of an assignment only notes faults. Counterpart of the loop of
`Parser.expressionStatement`. -/
theorem inStep_checkTargets (targets : List Node) :
    Paced n (forIn targets PUnit.unit fun target _ =>
      if isTarget target then pure (.yield PUnit.unit)
      else do
        fault (.invalidTarget target.span)
        pure (.yield PUnit.unit)) never := by
  induction targets with
  | nil => exact .pure not_false
  | cons target rest ih =>
    rw [List.forIn_cons]
    refine InStep.then (R := never) (.ite (.pure not_false) ?_) fun step => ?_
    · exact (inStep_fault _).then fun _ => .pure not_false
    · cases step with
      | done => exact .pure not_false
      | yield => exact ih

/-- One part of the name of a function only makes moves, and reads a token if more parts follow.
Counterpart of `Parser.namePart`. -/
theorem inStep_namePart (start : Nat) (base : Node) :
    Paced n (namePart start base) ifMore := by
  intro s hs
  unfold namePart
  refine .currentKind ?_
  split
  · rename_i hnext
    exact .advance (rest_ne_nil_of_eq hnext nofun) (Nat.le_refl _) fun _ =>
      inStep_identifier.then fun _ => (inStep_make _ _).then fun _ => .pure not_false
  · rename_i hnext
    exact .advance (rest_ne_nil_of_eq hnext nofun) (Nat.le_refl _) fun _ =>
      inStep_identifier.then fun _ => (inStep_make _ _).then fun _ => .pure not_false
  · exact .pure Bool.false_ne_true

/-- The condition of a branch, if it has one. -/
def branchCondition (grammar : Grammar) (kind : ClauseKind) : Parser (Option Node) :=
  if kind = .elseClause then return none
  else do
    let condition ← grammar.expression 0
    expect (.keyword .thenK)
    return some condition

/-- The statements of a branch, and whether another branch follows. -/
def branchBody (grammar : Grammar) (token : Token) (condition : Option Node) :
    Parser (List Node × Bool) := do
  let body ← grammar.block
  let clause ← makeAt (.clause (clauseKind token.kind) condition body)
    ⟨token.start, max (← start) token.start⟩
  let next ← currentKind
  return ([clause],
    clauseKind token.kind ≠ .elseClause ∧ (next = .keyword .elseifK ∨ next = .keyword .elseK))

/-- A branch is its keyword, its condition and its body. Counterpart of `Parser.clause`, in three
parts. -/
theorem clause_eq (grammar : Grammar) :
    clause grammar = advance >>= fun token =>
      branchCondition grammar (clauseKind token.kind) >>= branchBody grammar token := by
  refine congrArg (advance >>= ·) (funext fun token => ?_)
  dsimp only [branchCondition]
  split
  · rfl
  · rfl

/-- A label surely reads a token. Counterpart of `Parser.labelStatement`. -/
theorem inStepAt_labelStatement (hrest : s.rest ≠ []) :
    InStepAt s labelStatement labelStatement always :=
  .advance hrest (Nat.le_refl _) fun _ => inStep_identifier.then fun _ =>
    (inStep_expect _).then fun _ => inStep_make _ _

/-- A jump surely reads its keyword. Counterpart of `Parser.gotoStatement`. -/
theorem inStepAt_gotoStatement (hrest : s.rest ≠ []) :
    InStepAt s gotoStatement gotoStatement always :=
  .advance hrest (Nat.le_refl _) fun _ => inStep_identifier.then fun _ => inStep_make _ _

/-- A `break` surely reads its keyword. Counterpart of `Parser.breakStatement`. -/
theorem inStepAt_breakStatement (hrest : s.rest ≠ []) :
    InStepAt s breakStatement breakStatement always :=
  .advance hrest (Nat.le_refl _) fun _ => inStep_make _ _

section
variable {grammar other : Grammar} (h : grammar.InStep n other)
include h

/-- The statements of loops are in step. Counterpart of `Parser.loopBody`. -/
theorem inStep_loopBody : InStep n (loopBody grammar) (loopBody other) never := by
  unfold loopBody
  exact (inStep_expect _).then fun _ => h.block.then fun _ => (inStep_expect _).then fun _ =>
    .pure not_false

/-- The conditions of branches are in step. Counterpart of `branchCondition`. -/
theorem inStep_branchCondition (kind : ClauseKind) :
    InStep n (branchCondition grammar kind) (branchCondition other kind) never :=
  .ite (.pure not_false) ((h.expression 0).then fun _ => (inStep_expect _).then fun _ =>
    .pure not_false)

/-- If another branch follows, a token is left. Counterpart of `Parser.clause`. -/
theorem inStep_branchBody (token : Token) (condition : Option Node) {R : List Node × Bool → Prop}
    (hR : ∀ m : ParseState, m.rest.length < n → ∀ result : List Node × Bool,
      (result.2 = true → m.rest ≠ []) → ¬R result) :
    InStep n (branchBody grammar token condition) (branchBody other token condition) R := by
  refine h.block.then fun _ => inStep_start.then fun _ =>
    (inStep_makeAt _ _).then fun clause m hm => ?_
  refine .currentKind (.pure (hR m hm _ fun hmore => rest_ne_nil_of_kind fun hend => ?_))
  have hnext := (of_decide_eq_true hmore).2
  simp [hend] at hnext

/-- The first token of a branch is read. Counterpart of `Parser.clause`. -/
theorem inStepAt_clause (hrest : s.rest ≠ []) (hs : s.rest.length ≤ n) :
    InStepAt s (clause grammar) (clause other) always := by
  rw [clause_eq, clause_eq]
  exact .advance hrest hs fun token => (inStep_branchCondition h _).then fun condition =>
    inStep_branchBody h token condition fun _ _ _ _ => not_false

/-- Branches are in step, and read a token if they ask for more. Counterpart of `Parser.clause`. -/
theorem inStep_clause : InStep n (clause grammar) (clause other) ifMore := by
  intro s hs
  by_cases hrest : s.rest = []
  · -- No token is left, so that none is left where the branch ends.
    have hnone : InStep 1 (clause grammar) (clause other) ifMore := by
      rw [clause_eq, clause_eq]
      have h := h.mono (Nat.one_le_of_lt hs)
      refine inStep_advance.then fun token => (inStep_branchCondition h _).then fun condition =>
        inStep_branchBody h token condition fun m hm result hmore hR => ?_
      exact hmore hR (List.length_eq_zero_iff.1 (Nat.lt_one_iff.1 hm))
    exact hnone s (by simp [hrest])
  · exact (inStepAt_clause h hrest (Nat.le_of_lt hs)).imp fun _ _ => trivial

/-- Returns are in step, and surely read their keyword. Counterpart of `Parser.returnStatement`. -/
theorem inStepAt_returnStatement (hrest : s.rest ≠ []) (hs : s.rest.length ≤ n) :
    InStepAt s (returnStatement grammar) (returnStatement other) always := by
  unfold returnStatement
  refine .start (.advance hrest hs fun _ => inStep_currentKind.then fun _ => ?_)
  exact .skipIf (inStep_expressionList h) fun values =>
    (inStep_accept _).then fun _ => inStep_make _ _

/-- Conditionals are in step, and surely read their keyword. Counterpart of `Parser.conditional`. -/
theorem inStepAt_conditional (hrest : s.rest ≠ []) (hs : s.rest.length ≤ n) :
    InStepAt s (conditional grammar) (conditional other) always := by
  unfold conditional
  exact .start (.before ((inStepAt_clause h hrest hs).many hs (inStep_clause h)) hs fun _ =>
    (inStep_expect _).then fun _ => inStep_make _ _)

/-- Loops with `while` are in step, and surely read their keyword. Counterpart of
`Parser.whileLoop`. -/
theorem inStepAt_whileLoop (hrest : s.rest ≠ []) (hs : s.rest.length ≤ n) :
    InStepAt s (whileLoop grammar) (whileLoop other) always := by
  unfold whileLoop
  exact .start (.advance hrest hs fun _ => (h.expression 0).then fun _ =>
      (inStep_expect _).then fun _ =>
    h.block.then fun _ => (inStep_expect _).then fun _ => inStep_make _ _)

/-- Blocks are in step, and surely read their keyword. Counterpart of `Parser.doBlock`. -/
theorem inStepAt_doBlock (hrest : s.rest ≠ []) (hs : s.rest.length ≤ n) :
    InStepAt s (doBlock grammar) (doBlock other) always := by
  unfold doBlock
  exact .start (.advance hrest hs fun _ => h.block.then fun _ => (inStep_expect _).then fun _ =>
    inStep_make _ _)

/-- Loops with `repeat` are in step, and surely read their keyword. Counterpart of
`Parser.repeatLoop`. -/
theorem inStepAt_repeatLoop (hrest : s.rest ≠ []) (hs : s.rest.length ≤ n) :
    InStepAt s (repeatLoop grammar) (repeatLoop other) always := by
  unfold repeatLoop
  exact .start (.advance hrest hs fun _ => h.block.then fun _ => (inStep_expect _).then fun _ =>
    (h.expression 0).then fun _ => inStep_make _ _)

/-- Loops with `for` are in step, and surely read their keyword. Counterpart of `Parser.forLoop`. -/
theorem inStepAt_forLoop (hrest : s.rest ≠ []) (hs : s.rest.length ≤ n) :
    InStepAt s (forLoop grammar) (forLoop other) always := by
  unfold forLoop
  refine .start (.advance hrest hs fun _ => inStep_identifier.then fun counter =>
    (inStep_accept _).then fun _ => .ite ?_ ?_)
  · refine (h.expression 0).then fun first => (inStep_expect _).then fun _ => ?_
    refine (h.expression 0).then fun last => (inStep_accept _).then fun _ => ?_
    refine .onlyIf ?_ fun step => (inStep_loopBody h).then fun _ => inStep_make _ _
    exact (h.expression 0).then fun _ => .pure not_false
  · refine (inStep_accept _).then fun _ => .onlyIf inStep_identifier.commaSeparated ?_
    exact fun others => (inStep_expect _).then fun _ => (inStep_expressionList h).then fun _ =>
      (inStep_loopBody h).then fun _ => inStep_make _ _

/-- Functions with names are in step, and surely read their keyword. Counterpart of
`Parser.functionStatement`. -/
theorem inStepAt_functionStatement (hrest : s.rest ≠ []) (hs : s.rest.length ≤ n) :
    InStepAt s (functionStatement grammar) (functionStatement other) always := by
  unfold functionStatement
  exact .advance hrest hs fun token => inStep_start.then fun nameStart =>
    inStep_identifier.then fun base =>
    (InStep.extend (inStep_namePart nameStart) base).then fun name =>
      inStep_functionBody h token.start (some name) false

/-- Local functions and variables are in step, and surely read their keyword. Counterpart of
`Parser.localStatement`. -/
theorem inStepAt_localStatement (hrest : s.rest ≠ []) (hs : s.rest.length ≤ n) :
    InStepAt s (localStatement grammar) (localStatement other) always := by
  unfold localStatement
  refine .advance hrest hs fun token => (inStep_accept _).then fun _ => .ite ?_ ?_
  · exact inStep_identifier.then fun name => inStep_functionBody h token.start (some name) true
  · refine inStep_identifier.commaSeparated.then fun names => (inStep_accept _).then fun _ => ?_
    exact .onlyIf (inStep_expressionList h) fun _ => inStep_make _ _

/-- The expression at the start of the statement reads a token. Counterpart of
`Parser.expressionStatement`. -/
theorem inStepAt_expressionStatement (hs : s.rest.length ≤ n) (hkind : endsBlock s.kind = false) :
    InStepAt s (expressionStatement grammar) (expressionStatement other) always := by
  unfold expressionStatement
  refine .start (.before ((inStepAt_suffixed h hs).imp fun _ _ => hkind) hs fun first => ?_)
  refine inStep_currentKind.then fun _ => .ite ?_ (.ite (inStep_make _ _) ?_)
  · have hsuffixed : InStep n (suffixed grammar) (suffixed other) never :=
      fun m hm => (inStepAt_suffixed h (Nat.le_of_lt hm)).weaken
    refine (inStep_accept _).then fun _ => .onlyIf hsuffixed.commaSeparated ?_
    exact fun others => (inStep_checkTargets _).then fun _ => (inStep_expect _).then fun _ =>
      (inStep_expressionList h).then fun _ => inStep_make _ _
  · exact (inStep_fault _).then fun _ => inStep_make _ _

/-- A statement reads a token, unless the next one ends the block. Counterpart of
`Parser.statement`. -/
theorem inStepAt_statement (hs : s.rest.length ≤ n) (hkind : endsBlock s.kind = false) :
    InStepAt s (statement grammar) (statement other) always := by
  have hrest := rest_ne_nil_of_endsBlock hkind
  unfold statement
  refine .currentKind ?_
  split
  · exact inStepAt_conditional h hrest hs
  · exact inStepAt_whileLoop h hrest hs
  · exact inStepAt_doBlock h hrest hs
  · exact inStepAt_forLoop h hrest hs
  · exact inStepAt_repeatLoop h hrest hs
  · exact inStepAt_functionStatement h hrest hs
  · exact inStepAt_localStatement h hrest hs
  · exact inStepAt_labelStatement hrest
  · exact inStepAt_breakStatement hrest
  · exact inStepAt_gotoStatement hrest
  · exact inStepAt_expressionStatement h hs hkind

/-- The rounds of a block are in step for one token more, and read a token if they ask for more.
Counterpart of `Parser.blockItem`. -/
theorem inStep_blockItem : InStep (n + 1) (blockItem grammar) (blockItem other) ifMore := by
  intro s hs
  have hs : s.rest.length ≤ n := Nat.le_of_lt_succ hs
  unfold blockItem
  refine .currentKind (.ite (fun _ => .pure Bool.false_ne_true) (fun hends => ?_))
  rw [Bool.not_eq_true] at hends
  have hrest := rest_ne_nil_of_endsBlock hends
  refine .ite (fun _ => ?_) (fun _ => .ite (fun _ => ?_) (fun _ => ?_))
  · exact .advance hrest hs fun _ => .pure not_false
  · refine (inStepAt_returnStatement h hrest hs).before hs fun _ => inStep_current.then fun _ => ?_
    exact .ite (.pure not_false) ((inStep_fault _).then fun _ => .pure not_false)
  · exact (inStepAt_statement h hs hends).before hs fun _ => .pure not_false

/-- Blocks are in step for one token more. Counterpart of `Parser.block`. -/
theorem inStep_block : InStep (n + 1) (block grammar) (block other) never :=
  (inStep_blockItem h).many

end

/-- One block of a whole file, and whether another one follows: none does at the end of the
source. -/
def fileItem (grammar : Grammar) : Parser (List Node × Bool) := do
  let body ← grammar.block
  if (← currentKind) = .endOfFile then
    return (body, false)
  else
    let token ← advance
    fault (.unexpectedToken token)
    return (body, true)

/-- A whole file is a loop over blocks and the tokens between them. Counterpart of
`Parser.chunk`. -/
theorem chunk_eq (grammar : Grammar) : chunk grammar = many (fileItem grammar) :=
  rfl

/-- A block of a whole file is in step, and a token is read if more follow. Counterpart of
`fileItem`. -/
theorem inStep_fileItem {grammar other : Grammar} (h : grammar.InStep n other) :
    InStep n (fileItem grammar) (fileItem other) ifMore := by
  unfold fileItem
  refine h.block.then fun body s hs => .currentKind (.ite (fun _ => ?_) (fun hend => ?_))
  · exact .pure Bool.false_ne_true
  · refine .advance (rest_ne_nil_of_kind hend) (Nat.le_refl _) fun _ => ?_
    exact (inStep_fault _).then fun _ => .pure not_false

/-- Whole files are in step. Counterpart of `Parser.chunk`. -/
theorem inStep_chunk {grammar other : Grammar} (h : grammar.InStep n other) :
    InStep n (chunk grammar) (chunk other) never := by
  rw [chunk_eq, chunk_eq]
  exact (inStep_fileItem h).many

end Parser

/-- Grammars that nest grammars in step are in step with one token more. Counterpart of
`Grammar.above`. -/
theorem Grammar.InStep.above {n : Nat} {grammar other : Grammar} (h : grammar.InStep n other) :
    grammar.above.InStep (n + 1) other.above :=
  ⟨Parser.inStep_expression h, Parser.inStep_block h⟩

end LuaFormatter
