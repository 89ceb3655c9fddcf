import LuaFormatter.Proofs.Grammar.First

/-!
# Expressions are read as they derive

The parser reads the tokens of a derivation as its nodes, if what comes next does not go on with
them. Accesses, calls and operations are read in loops, while a derivation has them on the left, so
for these it is shown that the loop comes to the node and is followed from there on.
-/

open LuaFormatter.Parser

namespace LuaFormatter

/-- Nothing that comes next goes on with a node. -/
structure Closed (node : Node) (kind : Kind) : Prop where
  suffix : node.rightmost.canBeBase = true → kind.startsSuffix = false
  operator : ∀ op, BinaryOp.ofKind? kind = some op → node.Below op.leftPriority

/-- The token goes on with no expression. -/
def Kind.stopsExpression (kind : Kind) : Bool :=
  !kind.startsSuffix && (BinaryOp.ofKind? kind).isNone

/-- What ends an expression is no operator and starts no access or call. Counterpart of
`Kind.stopsExpression`. -/
theorem Kind.stopsExpression_iff {kind : Kind} :
    kind.stopsExpression = true ↔ kind.startsSuffix = false ∧ BinaryOp.ofKind? kind = none := by
  simp [stopsExpression]

/-- An expression ends before what ends any expression. Counterpart of `Closed`. -/
theorem Closed.of_stops {node : Node} {kind : Kind} (h : kind.stopsExpression = true) :
    Closed node kind := by
  obtain ⟨hsuffix, hoperator⟩ := Kind.stopsExpression_iff.1 h
  exact ⟨fun _ => hsuffix, fun op hop => by cases hoperator.symm.trans hop⟩

/-- What can be a base is its own rightmost part. Counterpart of `Node.rightmost`. -/
theorem Node.rightmost_of_canBeBase {node : Node} (h : node.canBeBase = true) :
    node.rightmost = node := by
  rw [Node.rightmost]
  split
  · rfl
  · rename_i hparens
    split <;> first | rfl | skip
    all_goals
      rename_i hshape
      simp [Node.canBeBase, hparens, hshape] at h

/-- All expressions climb above the lowest limit. Counterpart of `Node.Above`. -/
theorem Node.above_zero : ∀ node : Node, node.Above 0
  | mk _ shape _ inParens => by
    cases shape with
    | binary op left _ =>
      cases inParens with
      | true => trivial
      | false => exact ⟨by cases op <;> decide, left.above_zero⟩
    | _ => trivial

/-- The tokens of an expression are read as its node: by the loop over accesses and calls, if the
node can be accessed or called, and by the loop over operators. -/
structure ReplaysExpression (a b : Nat) (ts : List Token) (node : Node) : Prop where
  ne_nil : ts ≠ []
  suffixed : node.canBeBase = true → (kindOf ts).startsBase = true ∧
    ∀ {depth : Nat} {stop : Nat} {back : List Token}, ts.length ≤ depth →
      Leads (suffixed (.level depth)) stop a ts back
        (extend (suffix (.level depth) (startOf ts)) node) b
  expression : ∀ {depth limit stop : Nat} {back : List Token}, ts.length ≤ depth →
    node.Above limit → Closed node (kindOf back) →
      Leads (Parser.expression (.level depth) limit) stop a ts back
        (extend (operation (.level depth) limit (startOf ts)) node) b

section
variable {a b c depth limit stop : Nat} {ts us back : List Token} {node base : Node}

/-- The loop over operators ends before a token that is no operator for it. Counterpart of
`Parser.operation` in its loop. -/
theorem reads_operations {grammar : Grammar} {offset : Nat}
    (h : ∀ op, BinaryOp.ofKind? (kindOf back) = some op → op.leftPriority ≤ limit) :
    Reads (extend (operation grammar limit offset) node) stop b [] back node b := by
  refine reads_extend (reads_currentKind.look ?_)
  rw [List.nil_append]
  cases hop : BinaryOp.ofKind? (kindOf back) with
  | none => exact reads_pure
  | some op =>
    dsimp only
    rw [if_pos (h op hop)]
    exact reads_pure

/-- The loop over accesses and calls ends before a token that starts none. Counterpart of
`Parser.suffix` in its loop. -/
theorem reads_suffixes {grammar : Grammar} {offset : Nat} (h : (kindOf back).startsSuffix = false) :
    Reads (extend (suffix grammar offset) node) stop b [] back node b := by
  refine reads_extend (reads_currentKind.look ?_)
  rw [List.nil_append]
  split
  · rename_i hkind
    rw [hkind] at h
    cases h
  · rename_i hkind
    rw [hkind] at h
    cases h
  · rename_i hkind
    rw [hkind] at h
    cases h
  · rw [if_neg]
    · exact reads_pure
    · rename_i hdot hleft hcolon
      intro hstarts
      unfold Kind.startsSuffix at h
      split at h
      · exact hdot ‹_›
      · exact hleft ‹_›
      · exact hcolon ‹_›
      · rw [h] at hstarts
        cases hstarts

namespace ReplaysExpression

/-- An expression in a grammar that is deep enough. Counterpart of `Parser.expression`. -/
theorem reads (h : ReplaysExpression a b ts node) (hdepth : ts.length < depth)
    (habove : node.Above limit) (hclosed : Closed node (kindOf back))
    (hlimit : ∀ op, BinaryOp.ofKind? (kindOf back) = some op → op.leftPriority ≤ limit) :
    Reads ((Grammar.level depth).expression limit) stop a ts back node b := by
  obtain ⟨depth, rfl⟩ : ∃ below, depth = below + 1 := ⟨depth - 1, by omega⟩
  exact (h.expression (by omega) habove hclosed).finish (reads_operations hlimit)

/-- An expression before a token that goes on with none. Counterpart of `Parser.expression` at the
lowest limit. -/
theorem reads_inner (h : ReplaysExpression a b ts node) (hdepth : ts.length < depth)
    (hstops : (kindOf back).stopsExpression = true) :
    Reads ((Grammar.level depth).expression 0) stop a ts back node b := by
  refine h.reads hdepth node.above_zero (.of_stops hstops) fun op hop => ?_
  cases (Kind.stopsExpression_iff.1 hstops).2.symm.trans hop

/-- A value with its accesses and calls, before a token that starts none. Counterpart of
`Parser.suffixed`. -/
theorem reads_suffixed (h : ReplaysExpression a b ts node) (hbase : node.canBeBase = true)
    (hdepth : ts.length ≤ depth) (hstops : (kindOf back).startsSuffix = false) :
    Reads (Parser.suffixed (.level depth)) stop a ts back node b :=
  ((h.suffixed hbase).2 hdepth).finish (reads_suffixes hstops)

/-- An operand is an expression, if nothing goes on with it. Counterpart of `Parser.operand`. -/
theorem of_operand (hne : ts ≠ []) (hbase : node.canBeBase = false)
    (h : ∀ {depth stop : Nat} {back : List Token}, ts.length ≤ depth → Closed node (kindOf back) →
      Reads (operand (.level depth)) stop a ts back node b) : ReplaysExpression a b ts node where
  ne_nil := hne
  suffixed := by simp [hbase]
  expression hdepth _ hclosed := (reads_startOf hne).look (h hdepth hclosed).leads

/-- A value with accesses and calls is an expression. Counterpart of `Parser.suffixed`. -/
theorem of_suffixed (hne : ts ≠ []) (hbase : node.canBeBase = true)
    (hstart : (kindOf ts).startsBase = true)
    (h : ∀ {depth stop : Nat} {back : List Token}, ts.length ≤ depth →
      Leads (Parser.suffixed (.level depth)) stop a ts back
        (extend (suffix (.level depth) (startOf ts)) node) b) : ReplaysExpression a b ts node where
  ne_nil := hne
  suffixed _ := ⟨hstart, h⟩
  expression := by
    intro depth limit stop back hdepth _ hclosed
    refine (reads_startOf hne).look (Reads.leads ?_)
    have hsuffixed : Reads (Parser.suffixed (.level depth)) stop a ts back node b :=
      (h hdepth).finish (reads_suffixes
        (hclosed.suffix (by rwa [Node.rightmost_of_canBeBase hbase])))
    -- A value starts with a name or a parenthesis, so it is no literal and no operation.
    cases ts with
    | nil => exact absurd rfl hne
    | cons t rest =>
      refine reads_current.look ?_
      rcases Kind.startsBase_iff.1 hstart with hkind | hkind
      all_goals
        rw [kindOf_cons] at hkind
        rw [hkind]
        refine reads_current.look ?_
        rw [hkind]
        exact hsuffixed

end ReplaysExpression

/-! ## Operands -/

/-- A name is read. Counterpart of `Parser.identifier`. -/
theorem reads_identifier {t : Token} {n : Nat} (h : t.kind = .identifier) :
    Reads identifier stop n [t] back (nameOf n t) (n + 1) := by
  refine reads_current.look ?_
  rw [if_pos h]
  refine reads_advance.leads.finish ?_
  rw [nameOf, nodeOf, ← span_eq_tokensSpan (List.cons_ne_nil t []) 0]
  simpa [Token.span, Token.stop] using reads_makeAt

/-- A name is read as an expression. Counterpart of `Derives.identifier`. -/
theorem replays_identifier {t : Token} {n : Nat} (h : t.kind = .identifier) :
    ReplaysExpression n (n + 1) [t] (nameOf n t) := by
  refine .of_suffixed (by simp) rfl (by simp [h, Kind.startsBase]) fun _ => ?_
  refine reads_start.look (Reads.leads (reads_current.look ?_))
  rw [h]
  exact reads_identifier h

/-- An expression in parentheses is read. Counterpart of `Derives.parens`. -/
theorem replays_parens {l r : Token} (hl : l.kind = .symbol .leftParen)
    (hr : r.kind = .symbol .rightParen) (h : ReplaysExpression a b ts node) :
    ReplaysExpression a b (l :: (ts ++ [r])) node.parenthesise := by
  have hbase : node.parenthesise.canBeBase = true := by
    obtain ⟨number, shape, span, inParens⟩ := node
    rfl
  refine .of_suffixed (by simp) hbase (by simp [hl, Kind.startsBase]) fun {depth} _ _ hdepth => ?_
  have hdepth : ts.length < depth := by
    simp only [List.length_cons, List.length_append, List.length_nil] at hdepth
    omega
  refine reads_start.look (Reads.leads (reads_current.look ?_))
  rw [hl]
  refine reads_advance.token (Reads.andThen (h.reads_inner hdepth ?_) ?_)
  · rw [List.cons_append, kindOf_cons, hr]
    decide
  · exact (reads_expect hr).result rfl

/-- A literal is no operator. Counterpart of `UnaryOp.ofKind?`. -/
theorem ofKind?_of_literalKind? {kind : Kind} {literal : LiteralKind}
    (h : literalKind? kind = some literal) : UnaryOp.ofKind? kind = none := by
  unfold literalKind? at h
  split at h <;> first | rfl | cases h

/-- A literal is read. Counterpart of `Parser.literal`. -/
theorem reads_literal {t : Token} {n : Nat} (kind : LiteralKind) :
    Reads (literal kind) stop n [t] back (nodeOf n (.literal kind (textOf t)) [t]) (n + 1) :=
  reads_advance.leads.finish (reads_node (by simp) (by simp) rfl)

/-- A literal is read as an expression. Counterpart of `Derives.literal`. -/
theorem replays_literal {t : Token} {n : Nat} {kind : LiteralKind}
    (h : literalKind? t.kind = some kind) :
    ReplaysExpression n (n + 1) [t] (nodeOf n (.literal kind (textOf t)) [t]) := by
  refine .of_operand (by simp) rfl fun _ _ => reads_current.look ?_
  rw [ofKind?_of_literalKind? h]
  refine reads_current.look ?_
  rw [h]
  exact reads_literal kind

/-! ## Lists -/

/-- The expressions of a list are read one by one. -/
inductive ReplaysList : Nat → Nat → List Token → List Node → Prop
  | last {a b : Nat} {ts : List Token} {node : Node} : ReplaysExpression a b ts node →
    ReplaysList a b ts [node]
  | more {a b c : Nat} {t : Token} {ts us : List Token} {node : Node} {nodes : List Node} :
    t.kind = .symbol .comma → ReplaysExpression a b ts node → ReplaysList b c us nodes →
    ReplaysList a c (ts ++ t :: us) (node :: nodes)

/-- Nothing that comes next goes on with the last of a list of expressions. -/
structure ClosedList (nodes : List Node) (kind : Kind) : Prop where
  comma : kind ≠ .symbol .comma
  operator : BinaryOp.ofKind? kind = none
  suffix : ∀ node, nodes.getLast? = some node → node.rightmost.canBeBase = true →
    kind.startsSuffix = false

/-- A list of expressions ends before what ends any expression, unless that is a comma. Counterpart
of `ClosedList`. -/
theorem ClosedList.of_stops {nodes : List Node} {kind : Kind} (hcomma : kind ≠ .symbol .comma)
    (h : kind.stopsExpression = true) : ClosedList nodes kind := by
  obtain ⟨hsuffix, hoperator⟩ := Kind.stopsExpression_iff.1 h
  exact ⟨hcomma, hoperator, fun _ _ _ => hsuffix⟩

/-- A list of expressions ends where the rest of it does. Counterpart of `ClosedList`. -/
theorem ClosedList.tail {first second : Node} {rest : List Node} {kind : Kind}
    (h : ClosedList (first :: second :: rest) kind) : ClosedList (second :: rest) kind :=
  ⟨h.comma, h.operator, fun node hnode => h.suffix node (by rwa [List.getLast?_cons_cons])⟩

/-- Expressions with commas between them are read by a grammar that is deep enough. Counterpart of
`Parser.expressionList`. -/
theorem ReplaysList.reads {nodes : List Node} (h : ReplaysList a b ts nodes)
    (hdepth : ts.length < depth) (hclosed : ClosedList nodes (kindOf back)) :
    Reads (expressionList (.level depth)) stop a ts back nodes b := by
  induction h generalizing stop with
  | last hnode =>
    refine reads_commaSeparated_last (hnode.reads hdepth (Node.above_zero _) ⟨?_, ?_⟩ ?_)
      hclosed.comma
    · exact hclosed.suffix _ rfl
    all_goals
      intro op hop
      cases hclosed.operator.symm.trans hop
  | more ht hnode hnodes ih =>
    simp only [List.length_append, List.length_cons] at hdepth
    refine reads_commaSeparated_more ht (hnode.reads_inner (by omega) ?_) (ih (by omega) ?_)
    · rw [kindOf_cons, ht]
      decide
    · cases hnodes <;> exact hclosed.tail

/-- The targets of an assignment are read as values. Counterpart of `Parser.expressionStatement`. -/
theorem ReplaysList.reads_targets {nodes : List Node} (h : ReplaysList a b ts nodes)
    (hbases : ∀ node ∈ nodes, node.canBeBase = true) (hdepth : ts.length ≤ depth)
    (hcomma : kindOf back ≠ .symbol .comma) (hsuffix : (kindOf back).startsSuffix = false) :
    Reads (commaSeparated (Parser.suffixed (.level depth))) stop a ts back nodes b := by
  induction h generalizing stop with
  | last hnode =>
    exact reads_commaSeparated_last (hnode.reads_suffixed (hbases _ (by simp)) hdepth hsuffix)
      hcomma
  | more ht hnode hnodes ih =>
    simp only [List.length_append, List.length_cons] at hdepth
    refine reads_commaSeparated_more ht
      (hnode.reads_suffixed (hbases _ (by simp)) (by omega) ?_)
      (ih (fun node hmem => hbases node (List.mem_cons_of_mem _ hmem)) (by omega))
    rw [kindOf_cons, ht]
    rfl

/-- The arguments of a call, or the values of a return, are read: there are none, or a list of
them. -/
inductive ReplaysArguments : Nat → Nat → List Token → List Node → Prop
  | none {n : Nat} : ReplaysArguments n n [] []
  | some {a b : Nat} {ts : List Token} {nodes : List Node} :
    (kindOf ts).startsExpression = true → ReplaysList a b ts nodes → ReplaysArguments a b ts nodes

/-- Names with commas between them are read. Counterpart of `Parser.commaSeparated` for
`Parser.identifier`. -/
theorem Derives.reads_names {isApart : Bool} {nodes : List Node}
    (h : Derives isApart .names a b ts nodes) (hcomma : kindOf back ≠ .symbol .comma) :
    Reads (commaSeparated Parser.identifier) stop a ts back nodes b := by
  generalize hrule : Rule.names = rule at h
  induction h generalizing stop with
  | lastName ht => exact reads_commaSeparated_last (reads_identifier ht) hcomma
  | moreNames ht hc _ ih => exact reads_commaSeparated_more hc (reads_identifier ht) (ih rfl)
  | _ => cases hrule

/-- Parameters are read. Counterpart of `Parser.many` for `Parser.parameter`. -/
theorem Derives.reads_parameters {isApart : Bool} {nodes : List Node}
    (h : Derives isApart .parameters a b ts nodes) (hne : nodes ≠ [])
    (hcomma : kindOf back ≠ .symbol .comma) : Reads (many parameter) stop a ts back nodes b := by
  generalize hrule : Rule.parameters = rule at h
  induction h generalizing stop with
  | noParameters => exact absurd rfl hne
  | lastParameter ht =>
    refine reads_many_last (reads_current.look ?_)
    rw [ht]
    exact (reads_identifier ht).leads.finish ((reads_reject hcomma).result rfl)
  | varargs ht =>
    refine reads_many_last (reads_current.look ?_)
    rw [ht]
    exact reads_advance.leads.finish ((reads_node (by simp) (by simp) rfl).result rfl)
  | @moreParameters n b t c ts nodes ht hc hnodes _ ih =>
    have hround : Reads parameter stop n [t, c] (ts ++ back) ([nameOf n t], true) (n + 1) := by
      refine reads_current.look ?_
      rw [ht]
      exact (reads_identifier ht).token ((reads_accept hc).result rfl)
    exact reads_many_more hround (by simp) (ih hnodes rfl)
  | _ => cases hrule

/-- There are no parameters, or the first is not read for the parenthesis that closes them.
Counterpart of `Parser.functionBody`. -/
theorem Derives.parameters_cases {isApart : Bool} {nodes : List Node}
    (h : Derives isApart .parameters a b ts nodes) :
    (ts = [] ∧ nodes = [] ∧ a = b) ∨
      (nodes ≠ [] ∧ ts ≠ [] ∧ kindOf ts ≠ .symbol .rightParen) := by
  cases h with
  | noParameters => exact .inl ⟨rfl, rfl, rfl⟩
  | lastParameter ht | varargs ht | moreParameters ht => exact .inr (by simp [ht])

/-! ## Tables and functions -/

/-- The fields of a table are read. -/
def ReplaysFields (a b : Nat) (ts : List Token) (fields : List Node) : Prop :=
  ∀ {depth stop : Nat} {back : List Token}, ts.length < depth → kindOf back = .symbol .rightCurly →
    Reads (many (field (.level depth))) stop a ts back fields b

/-- The end of a field: a separator, if there is one. -/
def fieldEnd (field : Node) : Parser (List Node × Bool) := do
  let comma ← accept (.symbol .comma)
  let separated ← if comma then pure true else accept (.symbol .semicolon)
  return ([field], separated)

/-- The token ends a field. -/
def Kind.endsField : Kind → Bool
  | symbol .comma | symbol .semicolon | symbol .rightCurly => true
  | _ => false

/-- What ends a field ends an expression, and starts no value. Counterpart of `Kind.endsField`. -/
theorem Kind.stopsExpression_of_endsField {kind : Kind} (h : kind.endsField = true) :
    kind.stopsExpression = true ∧ kind ≠ symbol .equal := by
  unfold endsField at h
  split at h
  · decide
  · decide
  · decide
  · cases h

/-- A field is read up to the separator after it. -/
def ReplaysField (a b : Nat) (ts : List Token) (node : Node) : Prop :=
  ts ≠ [] ∧ ∀ {depth stop : Nat} {back : List Token}, ts.length < depth →
    (kindOf back).endsField = true → Leads (field (.level depth)) stop a ts back (fieldEnd node) b

/-- A field with a computed key is read. Counterpart of `Derives.keyField`. -/
theorem replays_keyField {l r e : Token} {ks vs : List Token} {key value : Node}
    (hl : l.kind = .symbol .leftSquare) (hr : r.kind = .symbol .rightSquare)
    (he : e.kind = .symbol .equal) (hkey : ReplaysExpression a b ks key)
    (hvalue : ReplaysExpression b c vs value) :
    ReplaysField a (c + 1) (l :: (ks ++ r :: e :: vs))
      (nodeOf c (.keyField key value) (l :: (ks ++ r :: e :: vs))) := by
  refine ⟨by simp, fun {depth stop back} hdepth hend => reads_current.look ?_⟩
  obtain ⟨hstops, -⟩ := Kind.stopsExpression_of_endsField hend
  simp only [List.length_cons, List.length_append] at hdepth
  rw [hl]
  refine reads_followingKind.look ?_
  rw [if_pos rfl]
  refine reads_advance.token (Reads.andThen (hkey.reads_inner (by omega) ?_) ?_)
  · rw [List.cons_append, kindOf_cons, hr]
    decide
  · refine (reads_expect hr).token ((reads_expect he).token ?_)
    exact (hvalue.reads_inner (by omega) hstops).leads.node _ (by simp) (by simp)
      (by simp : _ = stopAfter stop _)

/-- A field with a name is read. Counterpart of `Derives.nameField`. -/
theorem replays_nameField {t e : Token} {n : Nat} {vs : List Token} {value : Node}
    (ht : t.kind = .identifier) (he : e.kind = .symbol .equal)
    (hvalue : ReplaysExpression (n + 1) b vs value) :
    ReplaysField n (b + 1) (t :: e :: vs)
      (nodeOf b (.nameField (nameOf n t) value) (t :: e :: vs)) := by
  refine ⟨by simp, fun {depth stop back} hdepth hend => reads_current.look ?_⟩
  obtain ⟨hstops, -⟩ := Kind.stopsExpression_of_endsField hend
  simp only [List.length_cons] at hdepth
  rw [ht]
  refine reads_followingKind.look ?_
  rw [if_neg nofun, if_pos ⟨rfl, by simp [he]⟩]
  refine (reads_identifier ht).token (reads_advance.token ?_)
  exact (hvalue.reads_inner (by omega) hstops).leads.node _ (by simp) (by simp)
    (by simp : _ = stopAfter stop _)

/-- A field without a key is read, as no equals sign comes after a name in it. Counterpart of
`Derives.valueField`. -/
theorem replays_valueField {isApart : Bool} {value : Node} (h : ReplaysExpression a b ts value)
    (hderives : Derives isApart .expression a b ts [value]) :
    ReplaysField a (b + 1) ts (nodeOf b (.valueField value) ts) := by
  refine ⟨h.ne_nil, fun {depth stop back} hdepth hend => ?_⟩
  obtain ⟨hstops, hequal⟩ := Kind.stopsExpression_of_endsField hend
  have hstart := hderives.startsExpression (.inl rfl)
  cases ts with
  | nil => exact absurd rfl h.ne_nil
  | cons t rest =>
    refine reads_current.look ?_
    rw [kindOf_cons] at hstart
    split
    · rename_i hkind
      rw [hkind] at hstart
      cases hstart
    · rename_i hkind
      rw [hkind] at hstart
      cases hstart
    · refine reads_followingKind.look ?_
      rw [if_neg, if_neg]
      · exact (h.reads_inner hdepth hstops).leads.node _ (by simp) (by simp) rfl
      · rintro ⟨hkind, hnext⟩
        exact hderives.kindOf_tail_ne (.inl rfl) hkind hequal hnext
      · intro hkind
        rw [hkind] at hstart
        cases hstart

/-- A table without fields is read. Counterpart of `Derives.noFields`. -/
theorem replays_noFields {n : Nat} : ReplaysFields n n [] [] := by
  intro depth stop back _ hback
  cases back with
  | nil => cases hback
  | cons t rest =>
    refine reads_many_last (reads_current.look ?_)
    rw [show t.kind = _ from hback]
    exact reads_pure

/-- A last field without a separator is read. Counterpart of `Derives.lastField`. -/
theorem replays_lastField (h : ReplaysField a b ts node) : ReplaysFields a b ts [node] := by
  intro depth stop back hdepth hback
  refine reads_many_last ((h.2 hdepth (by rw [hback]; rfl)).finish ?_)
  have hcomma : kindOf back ≠ .symbol .comma := by simp [hback]
  have hsemicolon : kindOf back ≠ .symbol .semicolon := by simp [hback]
  refine (reads_reject hcomma).look ?_
  exact (reads_reject hsemicolon).result rfl

/-- A field with a separator and the fields after it are read. Counterpart of
`Derives.moreFields`. -/
theorem replays_moreFields {t : Token} {fields : List Node}
    (ht : t.kind = .symbol .comma ∨ t.kind = .symbol .semicolon) (h : ReplaysField a b ts node)
    (hfields : ReplaysFields b c us fields) :
    ReplaysFields a c (ts ++ t :: us) (node :: fields) := by
  intro depth stop back hdepth hback
  simp only [List.length_append, List.length_cons] at hdepth
  have hend : (kindOf (t :: (us ++ back))).endsField = true := by
    rcases ht with ht | ht <;> rw [kindOf_cons, ht] <;> rfl
  have hseparator : Reads (fieldEnd node) (stopAfter stop ts) b [t] (us ++ back)
      ([node], true) b := by
    rcases ht with ht | ht
    · exact (reads_accept ht).leads
    · have hcomma : kindOf ([t] ++ (us ++ back)) ≠ .symbol .comma := by simp [ht]
      refine (reads_reject hcomma).look ?_
      exact (reads_accept ht).result rfl
  have hround : Reads (field (.level depth)) stop a (ts ++ [t]) (us ++ back) ([node], true) b :=
    (h.2 (by omega) hend).trans hseparator
  have hmore := reads_many_more hround (by simp) (hfields (by omega) hback)
  rwa [List.append_assoc] at hmore

/-- A table is read by a grammar that is deep enough for its fields. Counterpart of
`Parser.table`. -/
theorem reads_table {l r : Token} {fields : List Node} (hl : l.kind = .symbol .leftCurly)
    (hr : r.kind = .symbol .rightCurly) (h : ReplaysFields a b ts fields)
    (hdepth : ts.length < depth) :
    Reads (table (.level depth)) stop a (l :: (ts ++ [r])) back
      (nodeOf b (.table fields) (l :: (ts ++ [r]))) (b + 1) := by
  refine reads_start.look ((reads_expect hl).token (Reads.andThen (h hdepth ?_) ?_))
  · simp [hr]
  · exact (reads_expect hr).leads.finish
      (reads_node (by simp) (by simp) (by simp : _ = stopAfter stop _))

/-- A table is read as an expression. Counterpart of `Derives.table`. -/
theorem replays_table {l r : Token} {fields : List Node} (hl : l.kind = .symbol .leftCurly)
    (hr : r.kind = .symbol .rightCurly) (h : ReplaysFields a b ts fields) :
    ReplaysExpression a (b + 1) (l :: (ts ++ [r]))
      (nodeOf b (.table fields) (l :: (ts ++ [r]))) := by
  refine .of_operand (by simp) rfl fun hdepth _ => reads_current.look ?_
  simp only [List.length_cons, List.length_append, List.length_nil] at hdepth
  rw [hl]
  refine reads_current.look ?_
  rw [hl]
  exact reads_table hl hr h (by omega)

/-- The statements of a block are read. -/
def ReplaysBlock (a b : Nat) (ts : List Token) (body : List Node) : Prop :=
  ∀ {depth stop : Nat} {back : List Token}, ts.length < depth →
    endsBlock (kindOf back) = true → Reads ((Grammar.level depth).block) stop a ts back body b

/-- The parameters and the body of a function are read. Counterpart of `Parser.functionBody`. -/
theorem reads_functionBody {isApart : Bool} {l r e : Token} {ps bs all : List Token}
    {name : Option Node} {isLocal : Bool} {parameters body : List Node} {offset other : Nat}
    (hl : l.kind = .symbol .leftParen) (hr : r.kind = .symbol .rightParen)
    (he : e.kind = .keyword .endK) (hparameters : Derives isApart .parameters a b ps parameters)
    (hbody : ReplaysBlock b c bs body) (hdepth : bs.length < depth) (hne : all ≠ [])
    (hoffset : offset = startOf all) (hstop : stopAfter other all = e.stop) :
    Reads (functionBody (.level depth) offset name isLocal) stop a (routine l ps r bs e) back
      (nodeOf c (.function isLocal name parameters body) all) (c + 1) := by
  have hrest : ∀ {stop : Nat}, Reads (do
      expect (.symbol .rightParen)
      let body ← (Grammar.level depth).block
      expect (.keyword .endK)
      make (.function isLocal name parameters body) offset) stop b (r :: (bs ++ [e])) back
      (nodeOf c (.function isLocal name parameters body) all) (c + 1) := by
    intro stop
    refine (reads_expect hr).token (Reads.andThen (hbody hdepth ?_) ?_)
    · simp [he, endsBlock]
    · exact (reads_expect he).leads.finish (reads_node hne hoffset (by rw [hstop]; rfl))
  refine (reads_expect hl).token (reads_currentKind.look ?_)
  rcases hparameters.parameters_cases with ⟨rfl, rfl, rfl⟩ | ⟨hne, hps, hkind⟩
  · rw [List.nil_append, List.cons_append, kindOf_cons, if_pos hr]
    exact hrest
  · rw [List.append_assoc, kindOf_append hps, if_neg hkind]
    refine Reads.andThen (hparameters.reads_parameters hne ?_) hrest
    simp [hr]

/-- A function is read as an expression. Counterpart of `Derives.function`. -/
theorem replays_function {isApart : Bool} {f l r e : Token} {ps bs : List Token}
    {parameters body : List Node} (hf : f.kind = .keyword .functionK)
    (hl : l.kind = .symbol .leftParen) (hr : r.kind = .symbol .rightParen)
    (he : e.kind = .keyword .endK) (hparameters : Derives isApart .parameters a b ps parameters)
    (hbody : ReplaysBlock b c bs body) :
    ReplaysExpression a (c + 1) (f :: routine l ps r bs e)
      (nodeOf c (.function false none parameters body) (f :: routine l ps r bs e)) := by
  refine .of_operand (by simp) rfl fun hdepth _ => reads_current.look ?_
  simp only [List.length_cons, List.length_append, List.length_nil] at hdepth
  rw [hf]
  refine reads_current.look ?_
  rw [hf]
  refine reads_advance.token ?_
  exact reads_functionBody hl hr he hparameters hbody (by omega) (by simp) (by simp)
    (by simp : stopAfter 0 _ = _)

/-! ## Accesses and calls -/

/-- What is called is read up to the arguments, and the call is made of it. -/
structure ReplaysCallee (a b : Nat) (ts : List Token) (callee : Node) : Prop where
  ne_nil : ts ≠ []
  startsBase : (kindOf ts).startsBase = true
  suffixed : ∀ {depth stop c : Nat} {us back : List Token} {node : Node}, ts.length ≤ depth →
    startsArguments (kindOf us) = true →
    Reads (call (.level depth) callee (startOf ts)) (stopAfter stop ts) b us back node c →
    Leads (Parser.suffixed (.level depth)) stop a (ts ++ us) back
      (extend (suffix (.level depth) (startOf ts)) node) c

/-- Arguments start with a token. Counterpart of `Parser.startsArguments`. -/
theorem ne_nil_of_startsArguments (h : startsArguments (kindOf us) = true) : us ≠ [] := by
  rintro rfl
  cases h

/-- One round of the loop over accesses and calls is a call. Counterpart of `Parser.suffix`. -/
theorem reads_suffix_call {grammar : Grammar} {offset : Nat}
    (hstart : startsArguments (kindOf us) = true)
    (h : Reads (call grammar base offset) stop b us back node c) :
    Reads (suffix grammar offset base) stop b us back (node, true) c := by
  refine reads_currentKind.look ?_
  rw [kindOf_append (ne_nil_of_startsArguments hstart)]
  split
  · rename_i hkind
    rw [hkind] at hstart
    cases hstart
  · rename_i hkind
    rw [hkind] at hstart
    cases hstart
  · rename_i hkind
    rw [hkind] at hstart
    cases hstart
  · rw [if_pos hstart]
    exact h.result rfl

/-- A base is read as what is called. Counterpart of `Derives.plain`. -/
theorem replays_plain (h : ReplaysExpression a b ts base) (hbase : base.canBeBase = true) :
    ReplaysCallee a b ts base where
  ne_nil := h.ne_nil
  startsBase := (h.suffixed hbase).1
  suffixed hdepth hstart hcall := ((h.suffixed hbase).2 hdepth).trans
    (leads_extend (reads_suffix_call hstart hcall) (ne_nil_of_startsArguments hstart))

/-- A method is read as what is called. Counterpart of `Derives.method`. -/
theorem replays_method {d t : Token} (hd : d.kind = .symbol .colon) (ht : t.kind = .identifier)
    (h : ReplaysExpression a b ts base) (hbase : base.canBeBase = true) :
    ReplaysCallee a (b + 2) (ts ++ [d, t])
      (nodeOf (b + 1) (.member .colon base (nameOf b t)) (ts ++ [d, t])) where
  ne_nil := by simp
  startsBase := by
    rw [kindOf_append h.ne_nil]
    exact (h.suffixed hbase).1
  suffixed := by
    intro depth stop c us back node hdepth hstart hcall
    simp only [List.length_append, List.length_cons] at hdepth
    rw [startOf_append h.ne_nil] at hcall ⊢
    have hround : Reads (suffix (.level depth) (startOf ts) base) (stopAfter stop ts) b
        (d :: t :: us) back (node, true) c := by
      refine reads_currentKind.look ?_
      rw [List.cons_append, kindOf_cons, hd]
      refine reads_advance.token ((reads_identifier ht).token ?_)
      refine Reads.look (reads_node (by simp) (startOf_append h.ne_nil [d, t]).symm
        (by simp : _ = stopAfter stop _)) (reads_currentKind.look ?_)
      rw [kindOf_append (ne_nil_of_startsArguments hstart), if_pos hstart]
      exact Reads.result (by simpa using hcall) rfl
    have := ((h.suffixed hbase).2 (by omega)).trans (leads_extend hround (by simp))
    simpa using this

/-- An access goes on with a value. Counterpart of `Derives.member` and `Derives.index`. -/
theorem replays_access (h : ReplaysExpression a b ts base) (hbase : base.canBeBase = true)
    (hne : us ≠ []) (hnode : node.canBeBase = true)
    (hround : ∀ {depth stop : Nat} {back : List Token}, us.length ≤ depth →
      Reads (suffix (.level depth) (startOf ts) base)
      (stopAfter stop ts) b us back (node, true) c) :
    ReplaysExpression a c (ts ++ us) node := by
  refine .of_suffixed (by simp [hne]) hnode ?_ fun hdepth => ?_
  · rw [kindOf_append h.ne_nil]
    exact (h.suffixed hbase).1
  · rw [List.length_append] at hdepth
    rw [startOf_append h.ne_nil]
    exact ((h.suffixed hbase).2 (by omega)).trans (leads_extend (hround (by omega)) hne)

/-- An access is read after its base. Counterpart of `Derives.member`. -/
theorem replays_member {d t : Token} (hd : d.kind = .symbol .dot) (ht : t.kind = .identifier)
    (h : ReplaysExpression a b ts base) (hbase : base.canBeBase = true) :
    ReplaysExpression a (b + 2) (ts ++ [d, t])
      (nodeOf (b + 1) (.member .dot base (nameOf b t)) (ts ++ [d, t])) := by
  refine replays_access h hbase (by simp) rfl fun {_ stop _} _ => reads_currentKind.look ?_
  rw [List.cons_append, kindOf_cons, hd]
  have hstart := (startOf_append h.ne_nil [d, t]).symm
  exact reads_advance.token ((reads_identifier ht).token
    ((reads_node (by simp) hstart (by simp : _ = stopAfter stop _)).result rfl))

/-- An indexing is read after its base. Counterpart of `Derives.index`. -/
theorem replays_index {l r : Token} {ks : List Token} {key : Node}
    (hl : l.kind = .symbol .leftSquare) (hr : r.kind = .symbol .rightSquare)
    (h : ReplaysExpression a b ts base) (hbase : base.canBeBase = true)
    (hkey : ReplaysExpression b c ks key) :
    ReplaysExpression a (c + 1) (ts ++ l :: (ks ++ [r]))
      (nodeOf c (.index base key) (ts ++ l :: (ks ++ [r]))) := by
  refine replays_access h hbase (by simp) rfl fun {_ stop _} hdepth => reads_currentKind.look ?_
  simp only [List.length_cons, List.length_append, List.length_nil] at hdepth
  rw [List.cons_append, kindOf_cons, hl]
  refine reads_advance.token (Reads.andThen (hkey.reads_inner (by omega) ?_) ?_)
  · rw [List.cons_append, kindOf_cons, hr]
    decide
  · have hstart := (startOf_append h.ne_nil (l :: (ks ++ [r]))).symm
    exact (reads_expect hr).token
      ((reads_node (by simp) hstart (by simp : _ = stopAfter stop _)).result rfl)

/-- A call goes on with what is called. Counterpart of `Derives.call` and the other two rules for
calls. -/
theorem replays_called (h : ReplaysCallee a b ts base) (hstart : startsArguments (kindOf us) = true)
    (hnode : node.canBeBase = true)
    (hcall : ∀ {depth stop : Nat} {back : List Token}, us.length ≤ depth →
      Reads (call (.level depth) base (startOf ts)) (stopAfter stop ts) b us back node c) :
    ReplaysExpression a c (ts ++ us) node := by
  refine .of_suffixed (by simp [h.ne_nil]) hnode ?_ fun hdepth => ?_
  · rw [kindOf_append h.ne_nil]
    exact h.startsBase
  · rw [List.length_append] at hdepth
    rw [startOf_append h.ne_nil]
    exact h.suffixed (by omega) hstart (hcall (by omega))

/-- A call is read after what is called. Counterpart of `Derives.call`. -/
theorem replays_call {l r : Token} {arguments : List Node} (hl : l.kind = .symbol .leftParen)
    (hr : r.kind = .symbol .rightParen) (h : ReplaysCallee a b ts base)
    (harguments : ReplaysArguments b c us arguments) :
    ReplaysExpression a (c + 1) (ts ++ l :: (us ++ [r]))
      (nodeOf c (.call base arguments) (ts ++ l :: (us ++ [r]))) := by
  refine replays_called h (by simp [hl, startsArguments]) rfl fun {depth stop back} hdepth => ?_
  simp only [List.length_cons, List.length_append, List.length_nil] at hdepth
  have hclose : ∀ {stop : Nat}, Reads (do
      expect (.symbol .rightParen)
      make (.call base arguments) (startOf ts)) stop c [r] back
      (nodeOf c (.call base arguments) (ts ++ l :: (us ++ [r]))) (c + 1) := by
    intro other
    refine (reads_expect hr).leads.finish (reads_node (by simp) ?_ (by simp : _ = stopAfter stop _))
    exact (startOf_append h.ne_nil _).symm
  refine reads_currentKind.look ?_
  rw [List.cons_append, kindOf_cons, hl]
  refine (reads_expect hl).token (reads_currentKind.look ?_)
  cases harguments with
  | none =>
    rw [List.nil_append, List.cons_append, kindOf_cons, if_pos hr]
    exact hclose
  | some hstart hlist =>
    have hne : us ≠ [] := by
      rintro rfl
      cases hstart
    rw [List.append_assoc, kindOf_append hne, if_neg]
    · refine Reads.andThen (hlist.reads (by omega) (.of_stops ?_ ?_)) hclose
      · simp [hr]
      · rw [List.cons_append, kindOf_cons, hr]
        decide
    · intro hkind
      rw [hkind] at hstart
      cases hstart

/-- A call with a table is read after what is called. Counterpart of `Derives.tableCall`. -/
theorem replays_tableCall {l r : Token} {fields : List Node} (hl : l.kind = .symbol .leftCurly)
    (hr : r.kind = .symbol .rightCurly) (h : ReplaysCallee a b ts base)
    (hfields : ReplaysFields b c us fields) :
    ReplaysExpression a (c + 2) (ts ++ l :: (us ++ [r]))
      (nodeOf (c + 1) (.tableCall base (nodeOf c (.table fields) (l :: (us ++ [r]))))
        (ts ++ l :: (us ++ [r]))) := by
  refine replays_called h (by simp [hl, startsArguments]) rfl fun {_ stop _} hdepth => ?_
  simp only [List.length_cons, List.length_append, List.length_nil] at hdepth
  refine reads_currentKind.look ?_
  rw [List.cons_append, kindOf_cons, hl]
  refine (reads_table hl hr hfields (by omega)).leads.finish (reads_node (by simp) ?_
    (by simp : _ = stopAfter stop _))
  exact (startOf_append h.ne_nil _).symm

/-- A call with a string is read after what is called. Counterpart of `Derives.stringCall`. -/
theorem replays_stringCall {t : Token} {kind : LiteralKind}
    (hkind : literalKind? t.kind = some kind) (ht : startsArguments t.kind = true)
    (h : ReplaysCallee a b ts base) :
    ReplaysExpression a (b + 2) (ts ++ [t])
      (nodeOf (b + 1) (.stringCall base (nodeOf b (.literal kind (textOf t)) [t]))
        (ts ++ [t])) := by
  refine replays_called h ht rfl fun {_ stop back} _ => reads_currentKind.look ?_
  rw [List.cons_append, kindOf_cons]
  have hnode :
      Reads (make (.stringCall base (nodeOf b (.literal kind (textOf t)) [t])) (startOf ts))
      t.stop (b + 1) [] back (nodeOf (b + 1) _ (ts ++ [t])) (b + 2) :=
    reads_node (by simp) (startOf_append h.ne_nil _).symm (by simp : _ = stopAfter stop _)
  cases hcases : t.kind with
  | string =>
    rw [hcases] at hkind
    cases hkind
    exact (reads_literal .string).leads.finish hnode
  | longString =>
    rw [hcases] at hkind
    cases hkind
    exact (reads_literal .longString).leads.finish hnode
  | symbol mark =>
    rw [hcases] at hkind ht
    cases mark <;> cases hkind
    cases ht
  | _ =>
    rw [hcases] at ht
    cases ht

/-! ## Operations -/

/-- An operand ends where its operation does. Counterpart of `Closed`. -/
theorem Closed.operand {op : UnaryOp} {operand : Node} {ts : List Token} {n : Nat} {kind : Kind}
    (h : Closed (nodeOf n (.unary op operand) ts) kind) : Closed operand kind where
  suffix := by
    have := h.suffix
    rwa [Node.rightmost] at this
  operator op hop := (h.operator op hop).2

/-- A right operand ends where its operation does. Counterpart of `Closed`. -/
theorem Closed.right {op : BinaryOp} {left right : Node} {ts : List Token} {n : Nat} {kind : Kind}
    (h : Closed (nodeOf n (.binary op left right) ts) kind) : Closed right kind where
  suffix := by
    have := h.suffix
    rwa [Node.rightmost] at this
  operator op hop := (h.operator op hop).2

/-- An operator is read with its operand, which climbs above it. Counterpart of `Derives.unary`. -/
theorem replays_unary {t : Token} {op : UnaryOp} {operand : Node}
    (hop : UnaryOp.ofKind? t.kind = some op) (habove : operand.Above UnaryOp.priority)
    (h : ReplaysExpression a b ts operand) :
    ReplaysExpression a (b + 1) (t :: ts) (nodeOf b (.unary op operand) (t :: ts)) := by
  refine .of_operand (by simp) rfl fun {_ stop _} hdepth hclosed => reads_current.look ?_
  rw [List.length_cons] at hdepth
  rw [hop]
  refine reads_advance.token ?_
  refine (h.reads (by omega) habove hclosed.operand ?_).leads.finish
    (reads_node (by simp) (by simp) (by simp : _ = stopAfter stop _))
  exact fun op hop => (hclosed.operator op hop).1

/-- An operator is read with its operands: the climbing stops at it in the left one, and after the
right one. Counterpart of `Derives.binary`. -/
theorem replays_binary {t : Token} {op : BinaryOp} {left right : Node}
    (hop : BinaryOp.ofKind? t.kind = some op) (hbelow : left.Below op.leftPriority)
    (habove : right.Above op.rightPriority) (hleft : ReplaysExpression a b ts left)
    (hright : ReplaysExpression b c us right) :
    ReplaysExpression a (c + 1) (ts ++ t :: us)
      (nodeOf c (.binary op left right) (ts ++ t :: us)) where
  ne_nil := by simp
  suffixed := nofun
  expression := by
    intro depth limit stop back hdepth hnode hclosed
    simp only [List.length_cons, List.length_append] at hdepth
    obtain ⟨hlimit, hspine⟩ := hnode
    have hround : Reads (operation (.level depth) limit (startOf ts) left) (stopAfter stop ts) b
        (t :: us) back (nodeOf c (.binary op left right) (ts ++ t :: us), true) (c + 1) := by
      refine reads_currentKind.look ?_
      rw [List.cons_append, kindOf_cons, hop]
      dsimp only
      rw [if_neg (Nat.not_le.2 hlimit)]
      have hstart := (startOf_append hleft.ne_nil (t :: us)).symm
      have hoperand : ∀ {stop : Nat},
          Reads ((Grammar.level depth).expression op.rightPriority) stop b
          us back right c := hright.reads (by omega) habove hclosed.right fun op hop =>
        (hclosed.operator op hop).1
      exact reads_advance.token (hoperand.leads.finish
        ((reads_node (by simp) hstart (by simp : _ = stopAfter stop _)).result rfl))
    have hstart : Closed left (kindOf (t :: us ++ back)) := by
      rw [List.cons_append, kindOf_cons]
      refine ⟨fun _ => ?_, fun other hother => ?_⟩
      · rw [BinaryOp.eq_kind_of_ofKind? hop]
        exact op.startsSuffix_kind
      · cases hop.symm.trans hother
        exact hbelow
    rw [startOf_append hleft.ne_nil]
    exact (hleft.expression (by omega) hspine hstart).trans (leads_extend hround (by simp))

end

end LuaFormatter
