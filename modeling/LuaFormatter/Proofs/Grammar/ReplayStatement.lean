import LuaFormatter.Proofs.Grammar.ReplayExpression

/-!
# Statements are read as they derive

The parser reads the tokens of a statement as its node, if what comes next may follow it. A
parenthesis is the only token that starts a statement and goes on with another one, so a derivation
that keeps statements apart is read back as it is: `Derives.reads_chunk`.
-/

open LuaFormatter.Parser

namespace LuaFormatter

/-- What comes next may follow a statement, and is not read as a call of what it ends with. -/
structure FollowedBy (node : Node) (kind : Kind) : Prop where
  follows : kind.followsStatement = true
  apart : kind = .symbol .leftParen → node.lastExpression?.any Node.isCallable = false

/-- What can be a base is called by arguments after it. Counterpart of `Node.isCallable`. -/
theorem Node.isCallable_of_canBeBase {node : Node} (h : node.canBeBase = true) :
    node.isCallable = true := by
  obtain ⟨number, shape, span, inParens⟩ := node
  cases inParens with
  | true => rfl
  | false =>
    cases shape with
    | member indexer base name => rfl
    | _ => exact h

section
variable {a b c depth stop : Nat} {ts us back : List Token} {node : Node} {kind : Kind}

/-- What follows a statement does not go on with the expression that it ends with. Counterpart of
`FollowedBy`. -/
theorem FollowedBy.startsSuffix_eq {last : Node} (h : FollowedBy node kind)
    (hlast : node.lastExpression? = some last) (hbase : last.canBeBase = true) :
    kind.startsSuffix = false := by
  refine Kind.startsSuffix_of_followsStatement h.follows fun hparen => ?_
  have := h.apart hparen
  rw [hlast, Option.any_some, Node.isCallable_of_canBeBase hbase] at this
  cases this

/-- No operator follows a statement. Counterpart of `FollowedBy`. -/
theorem FollowedBy.ofKind?_eq (h : FollowedBy node kind) : BinaryOp.ofKind? kind = none :=
  Kind.ofKind?_of_followsStatement h.follows

/-- The values at the end of a statement end where it does. Counterpart of `FollowedBy`. -/
theorem FollowedBy.closedList {values : List Node} (h : FollowedBy node kind)
    (hlast : node.lastExpression? = values.getLast?.map Node.rightmost) :
    ClosedList values kind where
  comma := by
    rintro rfl
    cases h.follows
  operator := h.ofKind?_eq
  suffix value hvalue := h.startsSuffix_eq (by rw [hlast, hvalue]; rfl)

/-- The value at the end of a statement ends where it does. Counterpart of `FollowedBy`. -/
theorem FollowedBy.closed {value : Node} (h : FollowedBy node kind)
    (hlast : node.lastExpression? = some value.rightmost) : Closed value kind where
  suffix := h.startsSuffix_eq hlast
  operator op hop := by cases h.ofKind?_eq.symm.trans hop

/-- The tokens of a statement are read as its node. -/
def ReplaysStatement (a b : Nat) (ts : List Token) (node : Node) : Prop :=
  ∀ {depth stop : Nat} {back : List Token}, ts.length ≤ depth → FollowedBy node (kindOf back) →
    Reads (statement (.level depth)) stop a ts back node b

/-! ## Declarations -/

/-- Names start with a name. Counterpart of `Derives.lastName` and `Derives.moreNames`. -/
theorem Derives.kindOf_names {isApart : Bool} {nodes : List Node}
    (h : Derives isApart .names a b ts nodes) : ts ≠ [] ∧ kindOf ts = .identifier := by
  cases h with
  | lastName ht | moreNames ht => exact ⟨by simp, ht⟩

/-- Local variables without values are read. Counterpart of `Derives.declaration`. -/
theorem replays_declaration {isApart : Bool} {k : Token} {names : List Node}
    (hk : k.kind = .keyword .localK) (hnames : Derives isApart .names a b ts names) :
    ReplaysStatement a (b + 1) (k :: ts) (nodeOf b (.localVariables names []) (k :: ts)) := by
  intro depth stop back _ hback
  obtain ⟨hne, hfirst⟩ := hnames.kindOf_names
  have hcomma : kindOf back ≠ .symbol .comma := fun h => by cases h ▸ hback.follows
  have hequal : kindOf back ≠ .symbol .equal := fun h => by cases h ▸ hback.follows
  refine reads_currentKind.look ?_
  rw [List.cons_append, kindOf_cons, hk]
  refine reads_advance.token (Reads.look (reads_reject ?_) ?_)
  · simp [kindOf_append hne, hfirst]
  · refine Leads.finish (hnames.reads_names hcomma).leads ?_
    refine Reads.look (reads_reject hequal) ?_
    exact reads_node (by simp) (by simp) (by simp : _ = stopAfter stop _)

/-- Local variables with values are read. Counterpart of `Derives.definition`. -/
theorem replays_definition {isApart : Bool} {k e : Token} {names values : List Node}
    (hk : k.kind = .keyword .localK) (he : e.kind = .symbol .equal)
    (hnames : Derives isApart .names a b ts names) (hvalues : ReplaysList b c us values) :
    ReplaysStatement a (c + 1) (k :: (ts ++ e :: us))
      (nodeOf c (.localVariables names values) (k :: (ts ++ e :: us))) := by
  intro depth stop back hdepth hback
  simp only [List.length_cons, List.length_append] at hdepth
  obtain ⟨hne, hfirst⟩ := hnames.kindOf_names
  refine reads_currentKind.look ?_
  rw [List.cons_append, kindOf_cons, hk]
  refine reads_advance.token (Reads.look (reads_reject ?_) ?_)
  · simp [kindOf_append hne, hfirst]
  · refine Reads.andThen (hnames.reads_names (by simp [he])) ((reads_accept he).token ?_)
    refine Leads.finish (hvalues.reads (by omega) (hback.closedList rfl)).leads ?_
    exact reads_node (by simp) (by simp) (by simp : _ = stopAfter stop _)

/-- A local function is read. Counterpart of `Derives.localFunction`. -/
theorem replays_localFunction {isApart : Bool} {k f t l r e : Token} {ps bs : List Token} {n : Nat}
    {parameters body : List Node} (hk : k.kind = .keyword .localK)
    (hf : f.kind = .keyword .functionK) (ht : t.kind = .identifier)
    (hl : l.kind = .symbol .leftParen) (hr : r.kind = .symbol .rightParen)
    (he : e.kind = .keyword .endK)
    (hparameters : Derives isApart .parameters (n + 1) b ps parameters)
    (hbody : ReplaysBlock b c bs body) :
    ReplaysStatement n (c + 1) (k :: f :: t :: routine l ps r bs e)
      (nodeOf c (.function true (some (nameOf n t)) parameters body)
        (k :: f :: t :: routine l ps r bs e)) := by
  intro depth stop back hdepth _
  simp only [List.length_cons, List.length_append, List.length_nil] at hdepth
  refine reads_currentKind.look ?_
  rw [List.cons_append, kindOf_cons, hk]
  refine reads_advance.token ((reads_accept hf).token ((reads_identifier ht).token ?_))
  exact reads_functionBody hl hr he hparameters hbody (by omega) (by simp) (by simp)
    (by simp : stopAfter 0 _ = _)

/-- The name of a function. -/
def Parser.functionName : Parser Node := do
  let nameStart ← start
  let base ← identifier
  extend (namePart nameStart) base

/-- The parts of a dotted name are read one after the other. Counterpart of `Parser.namePart`. -/
theorem Derives.leads_dotted {isApart : Bool} {nodes : List Node}
    (h : Derives isApart .dotted a b ts nodes) {node : Node} (hnode : nodes = [node]) :
    Leads functionName stop a ts back (extend (namePart (startOf ts)) node) b := by
  generalize hrule : Rule.dotted = rule at h
  induction h generalizing node back with
  | nameStart ht =>
    cases hnode
    exact reads_start.look (reads_identifier ht).leads
  | @nameMember a b d t ts base hd ht hbase ih =>
    cases hnode
    have hne := hbase.ne_nil rfl
    have hstart := startOf_append hne [d, t]
    have hround : Reads (namePart (startOf ts) base) (stopAfter stop ts) b [d, t] back
        (nodeOf (b + 1) (.member .dot base (nameOf b t)) (ts ++ [d, t]), true) (b + 2) := by
      refine reads_currentKind.look ?_
      rw [List.cons_append, kindOf_cons, hd]
      exact reads_advance.token ((reads_identifier ht).token
        ((reads_node (by simp) hstart.symm (by simp : _ = stopAfter stop _)).result rfl))
    rw [hstart]
    exact (ih rfl rfl).trans (leads_extend hround (by simp))
  | _ => cases hrule

/-- The name of a function is read up to its parameters. Counterpart of `functionName`. -/
theorem Derives.reads_name {isApart : Bool} {name : Node}
    (h : Derives isApart .name a b ts [name]) (hback : kindOf back = .symbol .leftParen) :
    Reads functionName stop a ts back name b := by
  cases h with
  | nameDotted hname =>
    refine (hname.leads_dotted rfl).finish (reads_extend (reads_currentKind.look ?_))
    rw [List.nil_append, hback]
    exact reads_pure
  | @nameMethod _ b d t ts base hd ht hname =>
    have hstart := (startOf_append (hname.ne_nil rfl) [d, t]).symm
    refine (hname.leads_dotted rfl).trans (reads_extend (reads_currentKind.look ?_))
    rw [List.cons_append, kindOf_cons, hd]
    exact reads_advance.token ((reads_identifier ht).token
      ((reads_node (by simp) hstart (by simp : _ = stopAfter stop _)).result rfl))

/-- A function statement is its name and then its body. Counterpart of
`Parser.functionStatement`. -/
theorem functionStatement_eq (grammar : Grammar) :
    functionStatement grammar = (do
      let token ← advance
      let name ← functionName
      functionBody grammar token.start (some name) false) :=
  rfl

/-- A function with a name is read. Counterpart of `Derives.globalFunction`. -/
theorem replays_globalFunction {isApart : Bool} {f l r e : Token} {ns ps bs : List Token} {d : Nat}
    {name : Node} {parameters body : List Node} (hf : f.kind = .keyword .functionK)
    (hl : l.kind = .symbol .leftParen) (hr : r.kind = .symbol .rightParen)
    (he : e.kind = .keyword .endK) (hname : Derives isApart .name a b ns [name])
    (hparameters : Derives isApart .parameters b c ps parameters)
    (hbody : ReplaysBlock c d bs body) :
    ReplaysStatement a (d + 1) (f :: (ns ++ routine l ps r bs e))
      (nodeOf d
        (.function false (some name) parameters body) (f :: (ns ++ routine l ps r bs e))) := by
  intro depth stop back hdepth _
  simp only [List.length_cons, List.length_append, List.length_nil] at hdepth
  refine reads_currentKind.look ?_
  rw [List.cons_append, kindOf_cons, hf]
  show Reads (functionStatement (.level depth)) _ _ _ _ _ _
  rw [functionStatement_eq]
  refine reads_advance.token (Reads.andThen (hname.reads_name ?_) ?_)
  · exact hl
  · exact reads_functionBody hl hr he hparameters hbody (by omega) (by simp) (by simp)
      (by simp : stopAfter 0 _ = _)

/-! ## Loops and conditionals -/

/-- The keyword at the end of a block ends it. Counterpart of `Parser.endsBlock`. -/
theorem endsBlock_kindOf {e : Token} (he : e.kind = .keyword .endK) :
    endsBlock (kindOf (e :: back)) = true := by
  simp [he, endsBlock]

/-- A `while` loop is read. Counterpart of `Derives.whileLoop`. -/
theorem replays_whileLoop {k d e : Token} {bs : List Token} {condition : Node} {body : List Node}
    (hk : k.kind = .keyword .whileK) (hd : d.kind = .keyword .doK) (he : e.kind = .keyword .endK)
    (hcondition : ReplaysExpression a b ts condition) (hbody : ReplaysBlock b c bs body) :
    ReplaysStatement a (c + 1) (k :: (ts ++ d :: (bs ++ [e])))
      (nodeOf c (.whileLoop condition body) (k :: (ts ++ d :: (bs ++ [e])))) := by
  intro depth stop back hdepth _
  simp only [List.length_cons, List.length_append, List.length_nil] at hdepth
  refine reads_currentKind.look ?_
  rw [List.cons_append, kindOf_cons, hk]
  refine reads_start.look (reads_advance.token
      (Reads.andThen (hcondition.reads_inner (by omega) ?_) ?_))
  · rw [List.cons_append, kindOf_cons, hd]
    decide
  · refine (reads_expect hd).token (Reads.andThen (hbody (by omega) (endsBlock_kindOf he)) ?_)
    exact (reads_expect he).leads.finish (reads_node (by simp) (by simp)
      (by simp : _ = stopAfter stop _))

/-- A block is read as a statement. Counterpart of `Derives.doBlock`. -/
theorem replays_doBlock {k e : Token} {body : List Node} (hk : k.kind = .keyword .doK)
    (he : e.kind = .keyword .endK) (hbody : ReplaysBlock a b ts body) :
    ReplaysStatement a (b + 1) (k :: (ts ++ [e]))
      (nodeOf b (.doBlock body) (k :: (ts ++ [e]))) := by
  intro depth stop back hdepth _
  simp only [List.length_cons, List.length_append, List.length_nil] at hdepth
  refine reads_currentKind.look ?_
  rw [List.cons_append, kindOf_cons, hk]
  refine reads_start.look (reads_advance.token
    (Reads.andThen (hbody (by omega) (endsBlock_kindOf he)) ?_))
  exact (reads_expect he).leads.finish (reads_node (by simp) (by simp)
    (by simp : _ = stopAfter stop _))

/-- A `repeat` loop is read. Counterpart of `Derives.repeatLoop`. -/
theorem replays_repeatLoop {k u : Token} {bs : List Token} {condition : Node} {body : List Node}
    (hk : k.kind = .keyword .repeatK) (hu : u.kind = .keyword .untilK)
    (hbody : ReplaysBlock a b bs body) (hcondition : ReplaysExpression b c ts condition) :
    ReplaysStatement a (c + 1) (k :: (bs ++ u :: ts))
      (nodeOf c (.repeatLoop body condition) (k :: (bs ++ u :: ts))) := by
  intro depth stop back hdepth hback
  simp only [List.length_cons, List.length_append] at hdepth
  refine reads_currentKind.look ?_
  rw [List.cons_append, kindOf_cons, hk]
  refine reads_start.look (reads_advance.token (Reads.andThen (hbody (by omega) ?_) ?_))
  · simp [hu, endsBlock]
  · refine (reads_expect hu).token (Leads.finish (Reads.leads (hcondition.reads (by omega)
      condition.above_zero (hback.closed rfl) ?_)) ?_)
    · intro op hop
      cases hback.ofKind?_eq.symm.trans hop
    · exact reads_node (by simp) (by simp) (by simp : _ = stopAfter stop _)

/-- The body of a loop is read between its keywords. Counterpart of `Parser.loopBody`. -/
theorem reads_loopBody {o f : Token} {bs : List Token} {body : List Node}
    (ho : o.kind = .keyword .doK) (hf : f.kind = .keyword .endK) (hbody : ReplaysBlock a b bs body)
    (hdepth : bs.length < depth) :
    Reads (loopBody (.level depth)) stop a (o :: (bs ++ [f])) back body b :=
  (reads_expect ho).token (Reads.andThen (hbody hdepth (endsBlock_kindOf hf))
    ((reads_expect hf).result rfl))

/-- A loop over numbers is read. Counterpart of `Derives.numericFor`. -/
theorem replays_numericFor {k t e m o f : Token} {us vs bs : List Token} {n d : Nat}
    {first last : Node} {body : List Node} (hk : k.kind = .keyword .forK)
    (ht : t.kind = .identifier) (he : e.kind = .symbol .equal) (hm : m.kind = .symbol .comma)
    (ho : o.kind = .keyword .doK) (hf : f.kind = .keyword .endK)
    (hfirst : ReplaysExpression (n + 1) b us first) (hlast : ReplaysExpression b c vs last)
    (hbody : ReplaysBlock c d bs body) :
    ReplaysStatement n (d + 1) (k :: t :: e :: (us ++ m :: (vs ++ o :: (bs ++ [f]))))
      (nodeOf d (.numericFor (nameOf n t) first last none body)
        (k :: t :: e :: (us ++ m :: (vs ++ o :: (bs ++ [f]))))) := by
  intro depth stop back hdepth _
  simp only [List.length_cons, List.length_append, List.length_nil] at hdepth
  refine reads_currentKind.look ?_
  rw [List.cons_append, kindOf_cons, hk]
  refine reads_start.look (reads_advance.token ((reads_identifier ht).token
    ((reads_accept he).token (Reads.andThen (hfirst.reads_inner (by omega) ?_)
      ((reads_expect hm).token
      (Reads.andThen (hlast.reads_inner (by omega) ?_) (Reads.look (reads_reject ?_) ?_)))))))
  · rw [List.cons_append, kindOf_cons, hm]
    decide
  · rw [List.cons_append, kindOf_cons, ho]
    decide
  · simp [ho]
  · have hdepth : bs.length < depth := by omega
    show Reads (loopBody (.level depth) >>= fun body =>
      make (.numericFor (nameOf n t) first last none body) k.start) _ _ _ _ _ _
    refine Leads.finish (reads_loopBody ho hf hbody hdepth).leads ?_
    exact reads_node (by simp) (by simp) (by simp : _ = stopAfter stop _)

/-- A loop over numbers with a step is read. Counterpart of `Derives.steppedFor`. -/
theorem replays_steppedFor {k t e m p o f : Token} {us vs ws bs : List Token} {n d g : Nat}
    {first last step : Node} {body : List Node} (hk : k.kind = .keyword .forK)
    (ht : t.kind = .identifier) (he : e.kind = .symbol .equal) (hm : m.kind = .symbol .comma)
    (hp : p.kind = .symbol .comma) (ho : o.kind = .keyword .doK) (hf : f.kind = .keyword .endK)
    (hfirst : ReplaysExpression (n + 1) b us first) (hlast : ReplaysExpression b c vs last)
    (hstep : ReplaysExpression c d ws step) (hbody : ReplaysBlock d g bs body) :
    ReplaysStatement n (g + 1) (k :: t :: e :: (us ++ m :: (vs ++ p :: (ws ++ o :: (bs ++ [f])))))
      (nodeOf g (.numericFor (nameOf n t) first last (some step) body)
        (k :: t :: e :: (us ++ m :: (vs ++ p :: (ws ++ o :: (bs ++ [f])))))) := by
  intro depth stop back hdepth _
  simp only [List.length_cons, List.length_append, List.length_nil] at hdepth
  refine reads_currentKind.look ?_
  rw [List.cons_append, kindOf_cons, hk]
  refine reads_start.look (reads_advance.token ((reads_identifier ht).token
    ((reads_accept he).token (Reads.andThen (hfirst.reads_inner (by omega) ?_)
      ((reads_expect hm).token
      (Reads.andThen (hlast.reads_inner (by omega) ?_) ((reads_accept hp).token
        (Reads.andThen (Reads.map (hstep.reads_inner (by omega) ?_)) ?_))))))))
  · rw [List.cons_append, kindOf_cons, hm]
    decide
  · rw [List.cons_append, kindOf_cons, hp]
    decide
  · rw [List.cons_append, kindOf_cons, ho]
    decide
  · have hdepth : bs.length < depth := by omega
    refine Leads.finish (reads_loopBody ho hf hbody hdepth).leads ?_
    exact reads_node (by simp) (by simp) (by simp : _ = stopAfter stop _)

/-- A loop over iterators is read. Counterpart of `Derives.genericFor`. -/
theorem replays_genericFor {isApart : Bool} {k i o f : Token} {vs bs : List Token} {d : Nat}
    {names iterators body : List Node} (hk : k.kind = .keyword .forK) (hi : i.kind = .keyword .inK)
    (ho : o.kind = .keyword .doK) (hf : f.kind = .keyword .endK)
    (hnames : Derives isApart .names a b ts names) (hiterators : ReplaysList b c vs iterators)
    (hbody : ReplaysBlock c d bs body) :
    ReplaysStatement a (d + 1) (k :: (ts ++ i :: (vs ++ o :: (bs ++ [f]))))
      (nodeOf d (.genericFor names iterators body)
        (k :: (ts ++ i :: (vs ++ o :: (bs ++ [f]))))) := by
  intro depth stop back hdepth _
  simp only [List.length_cons, List.length_append, List.length_nil] at hdepth
  have hrest : ∀ {other : Nat}, Reads (do
      expect (.keyword .inK)
      let iterators ← expressionList (.level depth)
      let body ← loopBody (.level depth)
      make (.genericFor names iterators body) k.start) other b (i :: (vs ++ o :: (bs ++ [f]))) back
      (nodeOf d (.genericFor names iterators body) (k :: (ts ++ i :: (vs ++ o :: (bs ++ [f])))))
      (d + 1) := by
    intro other
    refine (reads_expect hi).token
      (Reads.andThen (hiterators.reads (by omega) (.of_stops ?_ ?_)) ?_)
    · simp [ho]
    · rw [List.cons_append, kindOf_cons, ho]
      decide
    · have hdepth : bs.length < depth := by omega
      refine Leads.finish (reads_loopBody ho hf hbody hdepth).leads ?_
      exact reads_node (by simp) (by simp) (by simp : _ = stopAfter stop _)
  refine reads_currentKind.look ?_
  rw [List.cons_append, kindOf_cons, hk]
  refine reads_start.look (reads_advance.token ?_)
  cases hnames with
  | lastName ht =>
    refine (reads_identifier ht).token
      (Reads.look (reads_reject ?_) (Reads.look (reads_reject ?_) ?_))
    · simp [hi]
    · simp [hi]
    · exact hrest
  | moreNames ht hc hnames =>
    refine (reads_identifier ht).token (Reads.look (reads_reject ?_) ((reads_accept hc).token
      (Reads.andThen (hnames.reads_names ?_) ?_)))
    · simp [hc]
    · simp [hi]
    · exact hrest

/-! ## Jumps and labels -/

/-- A `break` is read. Counterpart of `Derives.breakStatement`. -/
theorem replays_breakStatement {k : Token} {n : Nat} (hk : k.kind = .keyword .breakK) :
    ReplaysStatement n (n + 1) [k] (nodeOf n .breakStatement [k]) := by
  intro depth stop back _ _
  refine reads_currentKind.look ?_
  rw [List.cons_append, kindOf_cons, hk]
  exact reads_advance.leads.finish (reads_node (by simp) (by simp) (by simp : _ = stopAfter stop _))

/-- A `goto` is read. Counterpart of `Derives.gotoStatement`. -/
theorem replays_gotoStatement {k t : Token} {n : Nat} (hk : k.kind = .keyword .gotoK)
    (ht : t.kind = .identifier) :
    ReplaysStatement n (n + 2) [k, t] (nodeOf (n + 1) (.gotoStatement (nameOf n t)) [k, t]) := by
  intro depth stop back _ _
  refine reads_currentKind.look ?_
  rw [List.cons_append, kindOf_cons, hk]
  exact reads_advance.token ((reads_identifier ht).leads.finish
    (reads_node (by simp) (by simp) (by simp : _ = stopAfter stop _)))

/-- A label is read. Counterpart of `Derives.labelStatement`. -/
theorem replays_labelStatement {l t r : Token} {n : Nat} (hl : l.kind = .symbol .colonColon)
    (ht : t.kind = .identifier) (hr : r.kind = .symbol .colonColon) :
    ReplaysStatement n (n + 2) [l, t, r]
      (nodeOf (n + 1) (.labelStatement (nameOf n t)) [l, t, r]) := by
  intro depth stop back _ _
  refine reads_currentKind.look ?_
  rw [List.cons_append, kindOf_cons, hl]
  exact reads_advance.token ((reads_identifier ht).token ((reads_expect hr).leads.finish
    (reads_node (by simp) (by simp) (by simp : _ = stopAfter stop _))))

/-! ## Assignments and calls -/

/-- A statement that starts with a value is an assignment or a call. Counterpart of
`Parser.statement`. -/
theorem statement_of_startsBase {grammar : Grammar} {value : Node} (hne : ts ≠ [])
    (hstart : (kindOf ts).startsBase = true)
    (h : Reads (expressionStatement grammar) stop a ts back value b) :
    Reads (statement grammar) stop a ts back value b := by
  refine reads_currentKind.look ?_
  rw [kindOf_append hne]
  rcases Kind.startsBase_iff.1 hstart with hkind | hkind
  all_goals
    rw [hkind]
    exact h

/-- A call is read as a statement. Counterpart of `Derives.callStatement`. -/
theorem replays_callStatement (hcall : node.shape.isCall = true)
    (h : ReplaysExpression a b ts node) :
    ReplaysStatement a (b + 1) ts (nodeOf b (.callStatement node) ts) := by
  intro depth stop back hdepth hback
  have hbase := Shape.canBeBase_of_isCall hcall
  have hsuffix : (kindOf back).startsSuffix = false :=
    hback.startsSuffix_eq rfl (by rwa [Node.rightmost_of_canBeBase hbase])
  refine statement_of_startsBase h.ne_nil (h.suffixed hbase).1 ?_
  refine (reads_startOf h.ne_nil).look (Leads.finish
    (h.reads_suffixed hbase hdepth hsuffix).leads (reads_currentKind.look ?_))
  rw [List.nil_append, if_neg]
  · dsimp only
    rw [hcall]
    exact reads_node h.ne_nil rfl rfl
  · rintro (hkind | hkind)
    all_goals
      have := hback.follows
      rw [hkind] at this
      cases this

/-- Targets that can be assigned to are all accepted. Counterpart of the loop of
`Parser.expressionStatement`. -/
theorem reads_checkTargets {targets : List Node} (h : ∀ target ∈ targets, isTarget target = true) :
    Reads (forIn targets PUnit.unit fun target _ =>
      if isTarget target then pure (.yield PUnit.unit)
      else do
        fault (.invalidTarget target.span)
        pure (.yield PUnit.unit)) stop a [] back PUnit.unit a := by
  induction targets with
  | nil => exact reads_pure
  | cons target rest ih =>
    simp only [List.forIn_cons]
    rw [if_pos (h target (by simp)), pure_bind]
    exact ih fun other hother => h other (List.mem_cons_of_mem _ hother)

/-- An assignment is read. Counterpart of `Derives.assignment`. -/
theorem replays_assignment {e : Token} {targets values : List Node} (he : e.kind = .symbol .equal)
    (htargets : ∀ target ∈ targets, target.canBeBase = true ∧ isTarget target = true)
    (h : ReplaysList a b ts targets) (hvalues : ReplaysList b c us values) :
    ReplaysStatement a (c + 1) (ts ++ e :: us)
      (nodeOf c (.assignment targets values) (ts ++ e :: us)) := by
  intro depth stop back hdepth hback
  simp only [List.length_append, List.length_cons] at hdepth
  have hassign : ∀ {other : Nat}, Reads (do
      for target in targets do
        unless isTarget target do
          fault (.invalidTarget target.span)
      expect (.symbol .equal)
      let values ← expressionList (.level depth)
      make (.assignment targets values) (startOf (ts ++ e :: us))) other b (e :: us) back
      (nodeOf c (.assignment targets values) (ts ++ e :: us)) (c + 1) := by
    intro other
    refine (reads_checkTargets fun target hmem => (htargets target hmem).2).look
      ((reads_expect he).token ?_)
    refine Leads.finish (hvalues.reads (by omega) (hback.closedList rfl)).leads ?_
    exact reads_node (by simp) rfl (by simp : _ = stopAfter stop _)
  have hcheck : ∀ {target : Node} {ts : List Token} {a b : Nat}, target ∈ targets →
      ReplaysExpression a b ts target → (kindOf ts).startsBase = true :=
    fun hmem hnode => (hnode.suffixed (htargets _ hmem).1).1
  cases h with
  | last hnode =>
    refine statement_of_startsBase (by simp) (by
      rw [kindOf_append hnode.ne_nil]
      exact hcheck (by simp) hnode) ?_
    refine (reads_startOf (by simp)).look (Reads.andThen
      (hnode.reads_suffixed (htargets _ (by simp)).1 (by omega) ?_) (reads_currentKind.look ?_))
    · rw [List.cons_append, kindOf_cons, he]
      rfl
    · rw [List.cons_append, kindOf_cons, if_pos (.inl he)]
      refine (reads_reject (by simp [he])).look ?_
      exact hassign
  | @more _ middle _ t front others node nodes ht hnode hnodes =>
    simp only [List.length_append, List.length_cons] at hdepth
    refine statement_of_startsBase (by simp) (by
      rw [List.append_assoc, kindOf_append hnode.ne_nil]
      exact hcheck (by simp) hnode) ?_
    refine (reads_startOf (by simp)).look ?_
    rw [List.append_assoc] at hassign ⊢
    refine Reads.andThen (hnode.reads_suffixed (htargets _ (by simp)).1 (by omega) ?_)
      (reads_currentKind.look ?_)
    · rw [List.cons_append, List.cons_append, kindOf_cons, ht]
      rfl
    · rw [List.cons_append, List.cons_append, kindOf_cons, if_pos (.inr ht)]
      refine (reads_accept ht).token (Reads.andThen (hnodes.reads_targets (fun node hmem =>
        (htargets node (List.mem_cons_of_mem _ hmem)).1) (by omega) ?_ ?_) ?_)
      · simp [he]
      · rw [List.cons_append, kindOf_cons, he]
        rfl
      · exact hassign

/-! ## Blocks -/

/-- A block of one level is items of the level below. Counterpart of `Grammar.level`. -/
theorem block_eq (depth : Nat) :
    (Grammar.level (depth + 1)).block = many (blockItem (.level depth)) :=
  rfl

/-- A block without statements is read. Counterpart of `Derives.emptyBlock`. -/
theorem replays_emptyBlock {n : Nat} : ReplaysBlock n n [] [] := by
  intro depth stop back hdepth hback
  obtain ⟨depth, rfl⟩ : ∃ below, depth = below + 1 := ⟨depth - 1, by simp at hdepth; omega⟩
  rw [block_eq]
  refine reads_many_last (reads_currentKind.look ?_)
  rw [List.nil_append, if_pos hback]
  exact reads_pure

/-- A semicolon in front of a block is passed. Counterpart of `Derives.semicolon`. -/
theorem replays_semicolon {t : Token} {body : List Node} (ht : t.kind = .symbol .semicolon)
    (h : ReplaysBlock a b ts body) : ReplaysBlock a b (t :: ts) body := by
  intro depth stop back hdepth hback
  rw [List.length_cons] at hdepth
  have hrest := @h depth t.stop back (by omega) hback
  obtain ⟨depth, rfl⟩ : ∃ below, depth = below + 1 := ⟨depth - 1, by omega⟩
  rw [block_eq] at hrest ⊢
  have hround : Reads (blockItem (.level depth)) stop a [t] (ts ++ back) ([], true) a := by
    refine reads_currentKind.look ?_
    rw [List.cons_append, kindOf_cons, ht, if_neg (by decide), if_pos rfl]
    exact reads_advance.result rfl
  exact reads_many_more hround (by simp) hrest

/-- What starts a statement does not end a block. Counterpart of `Kind.startsStatement`. -/
theorem endsBlock_of_startsStatement {kind : Kind} (h : kind.startsStatement = true) :
    endsBlock kind = false ∧ kind ≠ .symbol .semicolon ∧ kind ≠ .keyword .returnK := by
  cases kind with
  | symbol mark => cases mark <;> first | decide | cases h
  | keyword word => cases word <;> first | decide | cases h
  | _ => first | decide | cases h

/-- An item of a block that starts like a statement is one. Counterpart of `Parser.blockItem`. -/
theorem blockItem_of_startsStatement {grammar : Grammar} {value : Node} (hne : ts ≠ [])
    (hstart : (kindOf ts).startsStatement = true)
    (h : Reads (statement grammar) stop a ts back value b) :
    Reads (blockItem grammar) stop a ts back ([value], true) b := by
  obtain ⟨hblock, hsemicolon, hreturn⟩ := endsBlock_of_startsStatement hstart
  refine reads_currentKind.look ?_
  rw [kindOf_append hne, if_neg (by simp [hblock]), if_neg hsemicolon, if_neg hreturn]
  exact h.result rfl

/-- A statement and the ones after it are read: an opening parenthesis after it would call its last
expression, unless that cannot be called. Counterpart of `Derives.moreStatements`. -/
theorem replays_moreStatements {isApart : Bool} {statement : Node} {body : List Node}
    (happart : us.head?.any (·.kind = .symbol .leftParen) = true →
      statement.lastExpression?.any Node.isCallable = false)
    (hstatement : Derives isApart .statement a b ts [statement])
    (hrest : Derives isApart .block b c us body) (h : ReplaysStatement a b ts statement)
    (hbody : ReplaysBlock b c us body) : ReplaysBlock a c (ts ++ us) (statement :: body) := by
  intro depth stop back hdepth hback
  rw [List.length_append] at hdepth
  have hmore := @hbody depth (stopAfter stop ts) back (by omega) hback
  obtain ⟨depth, rfl⟩ : ∃ below, depth = below + 1 := ⟨depth - 1, by omega⟩
  have hfollowed : FollowedBy statement (kindOf (us ++ back)) := by
    refine ⟨hrest.followsStatement hback, fun hparen => ?_⟩
    cases us with
    | nil =>
      rw [List.nil_append] at hparen
      rw [hparen] at hback
      cases hback
    | cons t rest => exact happart (by simpa using hparen)
  have hne := hstatement.ne_nil rfl
  have hround := blockItem_of_startsStatement hne hstatement.startsStatement
    (@h depth stop (us ++ back) (by omega) hfollowed)
  exact reads_many_more hround hne hmore

/-- What starts an expression does not end a block. Counterpart of `Kind.startsExpression`. -/
theorem endsBlock_of_startsExpression {kind : Kind} (h : kind.startsExpression = true) :
    endsBlock kind = false ∧ kind ≠ .symbol .semicolon := by
  cases kind with
  | symbol mark => cases mark <;> first | decide | cases h
  | keyword word => cases word <;> first | decide | cases h
  | _ => first | decide | cases h

/-- What ends a block ends an expression, and goes on with nothing. Counterpart of
`Parser.endsBlock`. -/
theorem endsBlock_stops {kind : Kind} (h : endsBlock kind = true) :
    kind.stopsExpression = true ∧ kind ≠ .symbol .comma ∧ kind ≠ .symbol .semicolon := by
  cases kind with
  | keyword word => cases word <;> first | decide | cases h
  | endOfFile => decide
  | _ => cases h

/-- After a `return` the block is over. Counterpart of `Parser.returnStatement`. -/
theorem reads_blockEnd {items : List Node} (h : endsBlock (kindOf back) = true) :
    Reads (do
      let token ← current
      unless endsBlock token.kind do
        fault (.expected (.keyword .endK) token)
      return (items, false)) stop a [] back (items, false) a := by
  cases back with
  | nil =>
    rintro ⟨rest, previousStop, sourceLength, made, faults⟩ rfl rfl rfl
    rfl
  | cons t rest =>
    refine reads_current.look ?_
    rw [kindOf_cons] at h
    rw [h]
    exact reads_pure

/-- A `return` is read, with or without a semicolon after it. Counterpart of
`Derives.returnStatement`. -/
theorem replays_returnStatement {k : Token} {ends : List Token} {values : List Node}
    (hk : k.kind = .keyword .returnK)
    (hends : ends = [] ∨ ∃ s : Token, s.kind = .symbol .semicolon ∧ ends = [s])
    (hvalues : ReplaysArguments a b ts values) :
    ReplaysBlock a (b + 1) (k :: (ts ++ ends))
      [nodeOf b (.returnStatement values) (k :: (ts ++ ends))] := by
  intro depth stop back hdepth hback
  simp only [List.length_cons, List.length_append] at hdepth
  obtain ⟨depth, rfl⟩ : ∃ below, depth = below + 1 := ⟨depth - 1, by omega⟩
  obtain ⟨hstops, hcomma, hsemicolon⟩ := endsBlock_stops hback
  -- The semicolon after the values, if there is one, and the node.
  have hclose : ∀ {other : Nat}, other = stopAfter k.stop ts → Reads (do
      let _ ← accept (.symbol .semicolon)
      make (.returnStatement values) k.start) other b ends back
      (nodeOf b (.returnStatement values) (k :: (ts ++ ends))) (b + 1) := by
    rintro _ rfl
    rcases hends with rfl | ⟨s, hs, rfl⟩
    · exact (reads_reject hsemicolon).look
        (reads_node (by simp) (by simp) (by simp : _ = stopAfter stop _))
    · exact (reads_accept hs).leads.finish
        (reads_node (by simp) (by simp) (by simp : _ = stopAfter stop _))
  have hnext : kindOf (ends ++ back) = kindOf back ∨
      kindOf (ends ++ back) = .symbol .semicolon := by
    rcases hends with rfl | ⟨s, hs, rfl⟩
    · exact .inl rfl
    · exact .inr hs
  have hreturn : Reads (returnStatement (.level depth)) stop a (k :: (ts ++ ends)) back
      (nodeOf b (.returnStatement values) (k :: (ts ++ ends))) (b + 1) := by
    refine reads_start.look (reads_advance.token (reads_currentKind.look ?_))
    cases hvalues with
    | none =>
      rw [List.nil_append, if_pos]
      · exact hclose rfl
      · rcases hnext with hnext | hnext
        · exact .inl (by rwa [hnext])
        · exact .inr hnext
    | some hstart hlist =>
      have hne : ts ≠ [] := by
        rintro rfl
        cases hstart
      obtain ⟨hblock, hsemi⟩ := endsBlock_of_startsExpression hstart
      rw [List.append_assoc, kindOf_append hne, if_neg (by simp [hblock, hsemi])]
      refine Reads.andThen (hlist.reads (by omega) (.of_stops ?_ ?_)) (hclose rfl)
      · rcases hnext with hnext | hnext <;> rw [hnext]
        · exact hcomma
        · simp
      · rcases hnext with hnext | hnext <;> rw [hnext]
        · exact hstops
        · decide
  rw [block_eq]
  refine reads_many_last (reads_currentKind.look ?_)
  rw [List.cons_append, kindOf_cons, hk, if_neg (by decide), if_neg (by decide), if_pos rfl]
  exact hreturn.leads.finish (reads_blockEnd hback)

/-! ## Branches -/

/-- The branch of a conditional up to an offset is read, and whether another one follows. -/
def ReplaysClause (a b stop : Nat) (ts : List Token) (node : Node) : Prop :=
  ts ≠ [] ∧ ∀ {depth other : Nat} {k : Token} {back : List Token}, ts.length ≤ depth →
    k.start = stop → endsBlock k.kind = true →
      Reads (clause (.level depth)) other a ts (k :: back)
        ([node], decide (clauseKind (kindOf ts) ≠ .elseClause ∧
          (k.kind = .keyword .elseifK ∨ k.kind = .keyword .elseK))) b

/-- Branches up to an offset, where the keyword that closes the conditional starts, are read. -/
def ReplaysClauses (a b stop : Nat) (ts : List Token) (nodes : List Node) : Prop :=
  ∀ {depth other : Nat} {e : Token} {back : List Token}, ts.length ≤ depth → e.start = stop →
    e.kind = .keyword .endK → Reads (many (clause (.level depth))) other a ts (e :: back) nodes b

/-- A branch with a condition is read. Counterpart of `Derives.clause`. -/
theorem replays_clause {k t : Token} {bs : List Token} {offset : Nat} {condition : Node}
    {body : List Node} (hk : k.kind = .keyword .ifK ∨ k.kind = .keyword .elseifK)
    (ht : t.kind = .keyword .thenK) (hcondition : ReplaysExpression a b ts condition)
    (hbody : ReplaysBlock b c bs body) :
    ReplaysClause a (c + 1) offset (k :: (ts ++ t :: bs))
      ⟨c, .clause (clauseKind k.kind) (some condition) body, ⟨k.start, max offset k.start⟩,
        false⟩ := by
  refine ⟨by simp, ?_⟩
  rintro depth other e back hdepth rfl he
  simp only [List.length_cons, List.length_append] at hdepth
  have hkind : clauseKind k.kind ≠ .elseClause := by
    rcases hk with hk | hk <;> rw [hk] <;> decide
  refine reads_advance.token ?_
  dsimp only
  rw [if_neg hkind]
  refine Reads.andThen (hcondition.reads_inner (by omega) ?_) ((reads_expect ht).token ?_)
  · rw [List.cons_append, kindOf_cons, ht]
    decide
  · have hblock := @hbody depth t.stop (e :: back) (by omega) he
    refine reads_pure.look (hblock.leads.finish ?_)
    refine reads_start.look (reads_makeAt.look ?_)
    exact reads_currentKind.look reads_pure

/-- The last branch is read. Counterpart of `Derives.elseClause`. -/
theorem replays_elseClause {k : Token} {offset : Nat} {body : List Node}
    (hk : k.kind = .keyword .elseK) (hbody : ReplaysBlock a b ts body) :
    ReplaysClause a (b + 1) offset (k :: ts)
      ⟨b, .clause .elseClause none body, ⟨k.start, max offset k.start⟩, false⟩ := by
  refine ⟨by simp, ?_⟩
  rintro depth other e back hdepth rfl he
  rw [List.length_cons] at hdepth
  have hkind : clauseKind k.kind = .elseClause := by rw [hk]; rfl
  refine reads_advance.token ?_
  dsimp only
  rw [kindOf_cons, hkind, if_pos rfl]
  have hblock := @hbody depth k.stop (e :: back) (by omega) he
  refine reads_pure.look (hblock.leads.finish ?_)
  refine reads_start.look (reads_makeAt.look ?_)
  exact reads_currentKind.look reads_pure

/-- A conditional may end after any branch. Counterpart of `Derives.lastClause`. -/
theorem replays_lastClause {offset : Nat} (h : ReplaysClause a b offset ts node) :
    ReplaysClauses a b offset ts [node] := by
  intro depth other e back hdepth hstart he
  have hround := @h.2 depth other e back hdepth hstart (by simp [he, endsBlock])
  exact reads_many_last (by simpa [he] using hround)

/-- A branch and the ones after it are read. Counterpart of `Derives.moreClauses`. -/
theorem replays_moreClauses {k : Token} {offset : Nat} {clauses : List Node}
    (hk : k.kind = .keyword .elseifK ∨ k.kind = .keyword .elseK)
    (hfirst : ts.head?.any (·.kind = .keyword .elseK) = false)
    (h : ReplaysClause a b k.start ts node)
    (hclauses : ReplaysClauses b c offset (k :: us) clauses) :
    ReplaysClauses a c offset (ts ++ k :: us) (node :: clauses) := by
  intro depth other e back hdepth hstart he
  simp only [List.length_append, List.length_cons] at hdepth
  have hkind : clauseKind (kindOf ts) ≠ .elseClause := by
    cases ts with
    | nil => exact absurd rfl h.1
    | cons t rest =>
      have ht : t.kind ≠ .keyword .elseK := by simpa using hfirst
      rw [kindOf_cons]
      unfold clauseKind
      split
      · rename_i helse
        exact absurd helse ht
      · simp
      · simp
  have hends : endsBlock k.kind = true := by
    rcases hk with hk | hk <;> rw [hk] <;> rfl
  have hround := @h.2 depth other k (us ++ e :: back) (by omega) rfl hends
  rw [decide_eq_true ⟨hkind, hk⟩] at hround
  exact reads_many_more hround h.1 (hclauses (by simp; omega) hstart he)

/-- A conditional is read. Counterpart of `Derives.conditional`. -/
theorem replays_conditional {k e : Token} {clauses : List Node} (hk : k.kind = .keyword .ifK)
    (he : e.kind = .keyword .endK) (h : ReplaysClauses a b e.start (k :: ts) clauses) :
    ReplaysStatement a (b + 1) (k :: (ts ++ [e]))
      (nodeOf b (.conditional clauses) (k :: (ts ++ [e]))) := by
  intro depth stop back hdepth _
  simp only [List.length_cons, List.length_append, List.length_nil] at hdepth
  refine reads_currentKind.look ?_
  rw [List.cons_append, kindOf_cons, hk]
  refine reads_start.look ?_
  rw [← List.cons_append]
  refine Reads.andThen (h (by simp; omega) rfl he) ?_
  exact (reads_expect he).leads.finish (reads_node (by simp) (by simp)
    (by simp : _ = stopAfter stop _))

end

/-- What a rule derives is read back. -/
def Replays : Rule → Nat → Nat → List Token → List Node → Prop
  | .expression, a, b, ts, nodes => ∀ node, nodes = [node] → ReplaysExpression a b ts node
  | .callee, a, b, ts, nodes => ∀ node, nodes = [node] → ReplaysCallee a b ts node
  | .expressions, a, b, ts, nodes => ReplaysList a b ts nodes
  | .arguments, a, b, ts, nodes => ReplaysArguments a b ts nodes
  | .field, a, b, ts, nodes => ∀ node, nodes = [node] → ReplaysField a b ts node
  | .fields, a, b, ts, nodes => ReplaysFields a b ts nodes
  | .statement, a, b, ts, nodes => ∀ node, nodes = [node] → ReplaysStatement a b ts node
  | .block, a, b, ts, nodes => ReplaysBlock a b ts nodes
  | .clause stop, a, b, ts, nodes => ∀ node, nodes = [node] → ReplaysClause a b stop ts node
  | .clauses stop, a, b, ts, nodes => ReplaysClauses a b stop ts nodes
  | .dotted, _, _, _, _ | .name, _, _, _, _ | .names, _, _, _, _ | .parameters, _, _, _, _ => True

/-- The parser reads what a derivation that keeps statements apart derives. Counterpart of
`Derives`. -/
theorem Derives.replays {rule : Rule} {a b : Nat} {ts : List Token} {nodes : List Node}
    (h : Derives true rule a b ts nodes) : Replays rule a b ts nodes := by
  induction h with
  | identifier ht => rintro _ ⟨⟩; exact replays_identifier ht
  | literal hkind => rintro _ ⟨⟩; exact replays_literal hkind
  | parens hl hr _ ih => rintro _ ⟨⟩; exact replays_parens hl hr (ih _ rfl)
  | table hl hr _ ih => rintro _ ⟨⟩; exact replays_table hl hr ih
  | function hf hl hr he hparameters _ _ ih =>
    rintro _ ⟨⟩
    exact replays_function hf hl hr he hparameters ih
  | member hd ht hbase _ ih => rintro _ ⟨⟩; exact replays_member hd ht (ih _ rfl) hbase
  | index hl hr hbase _ _ ih ihkey =>
    rintro _ ⟨⟩
    exact replays_index hl hr (ih _ rfl) hbase (ihkey _ rfl)
  | call hl hr _ _ ih iharguments => rintro _ ⟨⟩; exact replays_call hl hr (ih _ rfl) iharguments
  | tableCall hl hr _ _ ih ihfields =>
    rintro _ ⟨⟩; exact replays_tableCall hl hr (ih _ rfl) ihfields
  | stringCall hkind ht _ ih => rintro _ ⟨⟩; exact replays_stringCall hkind ht (ih _ rfl)
  | plain hbase _ ih => rintro _ ⟨⟩; exact replays_plain (ih _ rfl) hbase
  | method hd ht hbase _ ih => rintro _ ⟨⟩; exact replays_method hd ht (ih _ rfl) hbase
  | unary hop habove _ ih => rintro _ ⟨⟩; exact replays_unary hop habove (ih _ rfl)
  | binary hop hbelow habove _ _ ihleft ihright =>
    rintro _ ⟨⟩
    exact replays_binary hop hbelow habove (ihleft _ rfl) (ihright _ rfl)
  | lastExpression _ ih => exact .last (ih _ rfl)
  | moreExpressions ht _ _ ih ihs => exact .more ht (ih _ rfl) ihs
  | noArguments => exact .none
  | someArguments hlist ih => exact .some (hlist.startsExpression (.inr (.inr rfl))) ih
  | keyField hl hr he _ _ ihkey ihvalue =>
    rintro _ ⟨⟩
    exact replays_keyField hl hr he (ihkey _ rfl) (ihvalue _ rfl)
  | nameField ht he _ ih => rintro _ ⟨⟩; exact replays_nameField ht he (ih _ rfl)
  | valueField hvalue ih => rintro _ ⟨⟩; exact replays_valueField (ih _ rfl) hvalue
  | noFields => exact replays_noFields
  | lastField _ ih => exact replays_lastField (ih _ rfl)
  | moreFields ht _ _ ih ihs => exact replays_moreFields ht (ih _ rfl) ihs
  | declaration hk hnames => rintro _ ⟨⟩; exact replays_declaration hk hnames
  | definition hk he hnames _ _ ih => rintro _ ⟨⟩; exact replays_definition hk he hnames ih
  | localFunction hk hf ht hl hr he hparameters _ _ ih =>
    rintro _ ⟨⟩
    exact replays_localFunction hk hf ht hl hr he hparameters ih
  | globalFunction hf hl hr he hname hparameters _ _ _ ih =>
    rintro _ ⟨⟩
    exact replays_globalFunction hf hl hr he hname hparameters ih
  | assignment he htargets _ _ ih ihvalues =>
    rintro _ ⟨⟩
    exact replays_assignment he htargets ih ihvalues
  | callStatement hcall _ ih => rintro _ ⟨⟩; exact replays_callStatement hcall (ih _ rfl)
  | conditional hk he _ ih => rintro _ ⟨⟩; exact replays_conditional hk he ih
  | whileLoop hk hd he _ _ ih ihbody =>
    rintro _ ⟨⟩; exact replays_whileLoop hk hd he (ih _ rfl) ihbody
  | doBlock hk he _ ih => rintro _ ⟨⟩; exact replays_doBlock hk he ih
  | repeatLoop hk hu _ _ ihbody ih => rintro _ ⟨⟩; exact replays_repeatLoop hk hu ihbody (ih _ rfl)
  | numericFor hk ht he hm ho hf _ _ _ ihfirst ihlast ihbody =>
    rintro _ ⟨⟩
    exact replays_numericFor hk ht he hm ho hf (ihfirst _ rfl) (ihlast _ rfl) ihbody
  | steppedFor hk ht he hm hp ho hf _ _ _ _ ihfirst ihlast ihstep ihbody =>
    rintro _ ⟨⟩
    exact replays_steppedFor hk ht he hm hp ho hf (ihfirst _ rfl) (ihlast _ rfl)
      (ihstep _ rfl) ihbody
  | genericFor hk hi ho hf hnames _ _ _ ih ihbody =>
    rintro _ ⟨⟩
    exact replays_genericFor hk hi ho hf hnames ih ihbody
  | breakStatement hk => rintro _ ⟨⟩; exact replays_breakStatement hk
  | gotoStatement hk ht => rintro _ ⟨⟩; exact replays_gotoStatement hk ht
  | labelStatement hl ht hr => rintro _ ⟨⟩; exact replays_labelStatement hl ht hr
  | emptyBlock => exact replays_emptyBlock
  | semicolon ht _ ih => exact replays_semicolon ht ih
  | moreStatements happart hstatement hrest ih ihbody =>
    exact replays_moreStatements (happart rfl) hstatement hrest (ih _ rfl) ihbody
  | returnStatement hk hends _ ih => exact replays_returnStatement hk hends ih
  | clause hk ht _ _ ih ihbody => rintro _ ⟨⟩; exact replays_clause hk ht (ih _ rfl) ihbody
  | elseClause hk _ ih => rintro _ ⟨⟩; exact replays_elseClause hk ih
  | lastClause _ ih => exact replays_lastClause (ih _ rfl)
  | moreClauses hk hfirst _ _ ih ihs => exact replays_moreClauses hk hfirst (ih _ rfl) ihs
  | lastName | moreNames | noParameters | lastParameter | varargs | moreParameters | nameStart
  | nameMember | nameDotted | nameMethod => trivial

/-- A derived block is read back by a grammar that is deeper than it has tokens. Counterpart of
`Parser.chunk`. -/
theorem Derives.reads_chunk {a b : Nat} {ts : List Token} {nodes : List Node}
    (h : Derives true .block a b ts nodes) (stop : Nat) :
    Reads (chunk (.level (ts.length + 1))) stop a ts [] nodes b := by
  have hblock : ReplaysBlock a b ts nodes := h.replays
  refine reads_many_last ((hblock (Nat.lt_succ_self _) rfl).leads.finish ?_)
  exact reads_currentKind.look reads_pure

/-- A token that can be part of a program is part of the code. Counterpart of `Program.isCode`. -/
theorem Token.isCode_of_isWord {token : Token} (h : token.kind.isWord = true) :
    Program.isCode token = true := by
  unfold Program.isCode
  cases hkind : token.kind <;> rw [hkind] at h <;> first | rfl | cases h

/-- A source is read as what its tokens derive, if the derivation keeps statements apart and no
comment of the source is left open. Counterpart of `parse`. -/
theorem parse_of_derives {source : List Char} {next : Nat} {nodes : List Node}
    (h : Derives true .block 1 next ((tokenise source).filter Program.isCode) nodes)
    (hclosed : ∀ token ∈ tokenise source, token.kind ≠ .unterminatedComment) :
    (parse source).isValid = true ∧
      (parse source).root = ⟨0, .chunk nodes, ⟨0, byteLength source⟩, false⟩ := by
  have hrun := h.reads_chunk 0 (Program.initialState source _) (List.append_nil _).symm rfl rfl
  have hunclosed : (tokenise source).filter (·.kind = .unterminatedComment) = [] := by
    simpa [List.filter_eq_nil_iff] using hclosed
  unfold parse
  dsimp only
  rw [hrun, hunclosed]
  exact ⟨rfl, rfl⟩

end LuaFormatter
