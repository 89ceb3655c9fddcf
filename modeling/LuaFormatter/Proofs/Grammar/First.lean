import LuaFormatter.Proofs.Grammar.Replay
import LuaFormatter.Proofs.Token.Reread

/-!
# First tokens

The kinds of token that expressions and statements start with, and those that go on with a value. A
value that can be accessed or called starts with a name or a parenthesis.
-/

namespace LuaFormatter

namespace Kind

/-- The token goes on with a value that can be accessed or called. -/
def startsSuffix : Kind → Bool
  | symbol .dot | symbol .leftSquare | symbol .colon => true
  | kind => Parser.startsArguments kind

/-- The token starts a value that can be accessed or called. -/
def startsBase : Kind → Bool
  | identifier | symbol .leftParen => true
  | _ => false

/-- The token starts an expression. -/
def startsExpression (kind : Kind) : Bool :=
  kind.startsBase || (Parser.literalKind? kind).isSome || (UnaryOp.ofKind? kind).isSome ||
    kind = symbol .leftCurly || kind = keyword .functionK

/-- The token starts a statement other than a `return`. -/
def startsStatement (kind : Kind) : Bool :=
  kind.startsBase || match kind with
    | keyword .ifK | keyword .whileK | keyword .doK | keyword .forK | keyword .repeatK
    | keyword .functionK | keyword .localK | symbol .colonColon | keyword .breakK
    | keyword .gotoK => true
    | _ => false

/-- The token may follow a statement. -/
def followsStatement (kind : Kind) : Bool :=
  kind.startsStatement || Parser.endsBlock kind || kind = symbol .semicolon ||
    kind = keyword .returnK

end Kind

/-- A token that is read as an operator between operands is its mark. Counterpart of
`BinaryOp.ofKind?`. -/
theorem BinaryOp.eq_kind_of_ofKind? {kind : Kind} {op : BinaryOp} (h : ofKind? kind = some op) :
    kind = op.kind := by
  have hfound := List.find?_some h
  exact (of_decide_eq_true hfound).symm

/-- A token that is read as an operator before an operand is its mark. Counterpart of
`UnaryOp.ofKind?`. -/
theorem UnaryOp.eq_kind_of_ofKind? {kind : Kind} {op : UnaryOp} (h : ofKind? kind = some op) :
    kind = op.kind := by
  have hfound := List.find?_some h
  exact (of_decide_eq_true hfound).symm

/-- Literals can be part of a program. Counterpart of `Parser.literalKind?`. -/
theorem Kind.isWord_of_literalKind? {kind : Kind} {literal : LiteralKind}
    (h : Parser.literalKind? kind = some literal) : kind.isWord = true := by
  unfold Parser.literalKind? at h
  split at h <;> simp_all [Kind.isWord]

/-- No operator starts an access or a call. Counterpart of `Kind.startsSuffix`. -/
theorem BinaryOp.startsSuffix_kind (op : BinaryOp) : op.kind.startsSuffix = false := by
  cases op <;> rfl

/-- A name and a parenthesis are what a value that can be accessed or called starts with.
Counterpart of `Kind.startsBase`. -/
theorem Kind.startsBase_iff {kind : Kind} :
    kind.startsBase = true ↔ kind = identifier ∨ kind = symbol .leftParen := by
  cases kind with
  | symbol mark => cases mark <;> simp [startsBase]
  | _ => simp [startsBase]

/-- What may follow a statement does not go on with it, but for a parenthesis. Counterpart of
`Kind.followsStatement`. -/
theorem Kind.startsSuffix_of_followsStatement {kind : Kind} (h : kind.followsStatement = true)
    (hparen : kind ≠ symbol .leftParen) : kind.startsSuffix = false := by
  cases kind with
  | symbol mark => cases mark <;> simp_all [startsSuffix, Parser.startsArguments] <;> cases h
  | keyword word => rfl
  | _ => first | rfl | cases h

/-- What may follow a statement is no operator between operands. Counterpart of
`Kind.followsStatement`. -/
theorem Kind.ofKind?_of_followsStatement {kind : Kind} (h : kind.followsStatement = true) :
    BinaryOp.ofKind? kind = none := by
  cases kind with
  | symbol mark => cases mark <;> first | rfl | cases h
  | keyword word => cases word <;> first | rfl | cases h
  | _ => rfl

/-- The tokens of a rule for values start as a value does. Counterpart of `Kind.startsBase`. -/
theorem Derives.startsBase {isApart : Bool} {rule : Rule} {a b : Nat} {ts : List Token}
    {nodes : List Node} (h : Derives isApart rule a b ts nodes)
    (hrule : rule = .expression ∨ rule = .callee) {node : Node} (hnode : nodes = [node])
    (hbase : node.canBeBase = true ∨ rule = .callee) : (kindOf ts).startsBase = true := by
  have hfront : ∀ {front : List Token} (back : List Token), (kindOf front).startsBase = true →
      (kindOf (front ++ back)).startsBase = true := by
    intro front back hfront
    rwa [kindOf_append (by rintro rfl; cases hfront)]
  induction h generalizing node with
  | identifier hkind => simp [hkind, Kind.startsBase]
  | parens hl _ _ _ => simp [hl, Kind.startsBase]
  | member _ _ hb _ ih => exact hfront _ (ih (.inl rfl) rfl (.inl hb))
  | index _ _ hb _ _ ih _ => exact hfront _ (ih (.inl rfl) rfl (.inl hb))
  | call _ _ _ _ ih _ => exact hfront _ (ih (.inr rfl) rfl (.inr rfl))
  | tableCall _ _ _ _ ih _ => exact hfront _ (ih (.inr rfl) rfl (.inr rfl))
  | stringCall _ _ _ ih => exact hfront _ (ih (.inr rfl) rfl (.inr rfl))
  | plain hb _ ih => exact ih (.inl rfl) hnode (by cases hnode; exact .inl hb)
  | method _ _ hb _ ih => exact hfront _ (ih (.inl rfl) rfl (.inl hb))
  | literal | table | function | unary | binary =>
    cases hnode
    rcases hbase with hbase | hbase <;> cases hbase
  | _ => rcases hrule with hrule | hrule <;> cases hrule

/-- The first token of an expression is one that starts expressions. Counterpart of
`Kind.startsExpression`. -/
theorem Derives.startsExpression {isApart : Bool} {rule : Rule} {a b : Nat} {ts : List Token}
    {nodes : List Node} (h : Derives isApart rule a b ts nodes)
    (hrule : rule = .expression ∨ rule = .callee ∨ rule = .expressions) :
    (kindOf ts).startsExpression = true := by
  have hfront : ∀ {front : List Token} (back : List Token), (kindOf front).startsExpression = true →
      (kindOf (front ++ back)).startsExpression = true := by
    intro front back hfront
    rwa [kindOf_append (by rintro rfl; cases hfront)]
  induction h with
  | identifier hkind => simp [hkind, Kind.startsExpression, Kind.startsBase]
  | literal hkind => simp [hkind, Kind.startsExpression]
  | parens hl _ _ _ => simp [hl, Kind.startsExpression, Kind.startsBase]
  | table hl => simp [hl, Kind.startsExpression]
  | function hf => simp [hf, Kind.startsExpression]
  | unary hop => simp [hop, Kind.startsExpression]
  | member _ _ _ _ ih | stringCall _ _ _ ih | method _ _ _ _ ih => exact hfront _ (ih (by simp))
  | index _ _ _ _ _ ih _ | call _ _ _ _ ih _ | tableCall _ _ _ _ ih _ | binary _ _ _ _ _ ih _
  | moreExpressions _ _ _ ih _ => exact hfront _ (ih (by simp))
  | plain _ _ ih | lastExpression _ ih => exact ih (by simp)
  | _ => rcases hrule with hrule | hrule | hrule <;> cases hrule

/-- A name at the start of an expression is not followed by an equals sign. Counterpart of the
look-ahead of `Parser.field`. -/
theorem Derives.kindOf_tail_ne {isApart : Bool} {rule : Rule} {a b : Nat} {ts back : List Token}
    {nodes : List Node} (h : Derives isApart rule a b ts nodes)
    (hrule : rule = .expression ∨ rule = .callee) (hkind : kindOf ts = .identifier)
    (hback : kindOf back ≠ .symbol .equal) : kindOf (ts.tail ++ back) ≠ .symbol .equal := by
  have hfront : ∀ {front next back : List Token},
      (kindOf front = .identifier → ∀ {back : List Token}, kindOf back ≠ .symbol .equal →
        kindOf (front.tail ++ back) ≠ .symbol .equal) →
      front ≠ [] → kindOf (front ++ next) = .identifier → kindOf (next ++ back) ≠ .symbol .equal →
        kindOf ((front ++ next).tail ++ back) ≠ .symbol .equal := by
    intro front next back ih hne hkind hnext
    rw [List.tail_append_of_ne_nil hne, List.append_assoc]
    exact ih (by rwa [kindOf_append hne] at hkind) hnext
  induction h generalizing back with
  | identifier => exact hback
  | literal hlit =>
    rw [kindOf_cons] at hkind
    rw [hkind] at hlit
    cases hlit
  | parens hl | table hl | function hl =>
    rw [kindOf_cons, hl] at hkind
    cases hkind
  | unary hop =>
    rw [kindOf_cons] at hkind
    rw [hkind] at hop
    cases hop
  | member hd _ _ hts ih =>
    exact hfront (fun hkind _ hback => ih (.inl rfl) hkind hback)
      (hts.ne_nil rfl) hkind (by simp [hd])
  | method hd _ _ hts ih =>
    exact hfront (fun hkind _ hback => ih (.inl rfl) hkind hback)
      (hts.ne_nil rfl) hkind (by simp [hd])
  | index hl _ _ hts _ ih _ =>
    exact hfront (fun hkind _ hback => ih (.inl rfl) hkind hback)
      (hts.ne_nil rfl) hkind (by simp [hl])
  | call hl _ hts _ ih _ | tableCall hl _ hts _ ih _ =>
    exact hfront (fun hkind _ hback => ih (.inr rfl) hkind hback)
      (hts.ne_nil rfl) hkind (by simp [hl])
  | stringCall _ ht hts ih =>
    refine hfront (fun hkind _ hback => ih (.inr rfl) hkind hback) (hts.ne_nil rfl) hkind ?_
    intro hequal
    rw [List.cons_append, kindOf_cons] at hequal
    rw [hequal] at ht
    cases ht
  | plain _ _ ih => exact ih (.inl rfl) hkind hback
  | binary hop _ _ hls _ ih _ =>
    refine hfront (fun hkind _ hback => ih (.inl rfl) hkind hback) (hls.ne_nil rfl) hkind ?_
    intro hequal
    rw [List.cons_append, kindOf_cons] at hequal
    rw [hequal] at hop
    cases hop
  | _ => rcases hrule with hrule | hrule <;> cases hrule

/-- A call can be accessed or called in turn. Counterpart of `Node.canBeBase`. -/
theorem Shape.canBeBase_of_isCall {node : Node} (h : node.shape.isCall = true) :
    node.canBeBase = true := by
  obtain ⟨number, shape, span, inParens⟩ := node
  cases shape <;> first | exact Bool.or_true inParens | cases h

/-- The first token of a statement is one that starts statements. Counterpart of
`Kind.startsStatement`. -/
theorem Derives.startsStatement {isApart : Bool} {a b : Nat} {ts : List Token} {nodes : List Node}
    (h : Derives isApart .statement a b ts nodes) : (kindOf ts).startsStatement = true := by
  have hbase : ∀ {kind : Kind}, kind.startsBase = true → kind.startsStatement = true :=
    fun h => by simp [Kind.startsStatement, h]
  cases h with
  | declaration hk | definition hk | localFunction hk | globalFunction hk | conditional hk
  | whileLoop hk | doBlock hk | repeatLoop hk | numericFor hk | steppedFor hk | genericFor hk
  | breakStatement hk | gotoStatement hk | labelStatement hk => simp [hk, Kind.startsStatement]
  | callStatement hcall hnode =>
    exact hbase (hnode.startsBase (.inl rfl) rfl (.inl (Shape.canBeBase_of_isCall hcall)))
  | assignment _ htargets hts =>
    rw [kindOf_append (hts.ne_nil rfl)]
    cases hts with
    | lastExpression hnode =>
      exact hbase (hnode.startsBase (.inl rfl) rfl (.inl (htargets _ (by simp)).1))
    | moreExpressions _ hnode _ =>
      rw [kindOf_append (hnode.ne_nil rfl)]
      exact hbase (hnode.startsBase (.inl rfl) rfl (.inl (htargets _ (by simp)).1))

/-- What comes after a statement in a block may follow it. Counterpart of
`Kind.followsStatement`. -/
theorem Derives.followsStatement {isApart : Bool} {a b : Nat} {ts back : List Token}
    {nodes : List Node} (h : Derives isApart .block a b ts nodes)
    (hback : Parser.endsBlock (kindOf back) = true) :
    (kindOf (ts ++ back)).followsStatement = true := by
  cases h with
  | emptyBlock => simp [Kind.followsStatement, hback]
  | semicolon ht => simp [Kind.followsStatement, ht]
  | moreStatements _ hstatement _ =>
    rw [List.append_assoc, kindOf_append (hstatement.ne_nil rfl)]
    simp [Kind.followsStatement, hstatement.startsStatement]
  | returnStatement hk => simp [Kind.followsStatement, hk]

end LuaFormatter
