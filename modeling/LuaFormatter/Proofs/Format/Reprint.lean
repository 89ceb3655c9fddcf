import LuaFormatter.Proofs.Spelling.Touching

/-!
# Reading what is written

The words that are written for a tree are read as the tree that is kept, up to what literals are
written as: `ReprintsLegible` is what is shown of each production. Each construct is put together of
its parts by the lemma about how it is read. Here is what the productions share, and where the
written words could mean something else: at a key that is written as a name, and at the start of a
statement after one that a parenthesis would call.
-/

namespace LuaFormatter

open Word

/-! ## Names in quotes -/

/-- A text without backslashes stands for itself. Counterpart of `decodeQuotes`. -/
theorem decodeQuotes_eq_self {text : List Char} (h : ∀ c ∈ text, c ≠ '\\') :
    decodeQuotes text = text := by
  induction text with
  | nil => rfl
  | cons c rest ih =>
    obtain ⟨hc, hrest⟩ := List.forall_mem_cons.1 h
    rw [decodeQuotes_cons hc, ih hrest]

/-- A text without carriage returns, and one more character, holds none that is followed by a line
feed. Counterpart of `NoReturns`. -/
theorem noReturns_append {front : List Char} (hfront : ∀ c ∈ front, c ≠ '\r') (last : Char) :
    NoReturns (front ++ [last]) := by
  induction front with
  | nil => exact ⟨fun _ => by simp, trivial⟩
  | cons c rest ih =>
    obtain ⟨hc, hrest⟩ := List.forall_mem_cons.1 hfront
    exact ⟨fun hreturn => absurd hreturn hc, ih hrest⟩

/-- A name is a first character and others, all of them characters of words. Counterpart of
`isName`. -/
theorem exists_chars_of_isName {name : List Char} (h : isName (String.ofList name) = true) :
    ∃ first rest, name = first :: rest ∧ ∀ c ∈ name, Scan.isWordChar c = true := by
  unfold isName at h
  rw [String.toList_ofList] at h
  cases name with
  | nil => cases h
  | cons c rest =>
    simp only [Bool.and_eq_true] at h
    exact ⟨c, rest, rfl, List.forall_mem_cons.2
      ⟨Scan.isWordChar_of_isWordStart h.1.1, List.all_eq_true.1 h.1.2⟩⟩

/-- A name in quotes means the name. Counterpart of `View.meaning`. -/
theorem text_meaning_of_isName {text : String}
    (h : isName (String.ofList (literalContent text.toList)) = true) :
    View.meaning.text .string text = String.ofList (literalContent text.toList) := by
  obtain ⟨head, rest, hname, hword⟩ := exists_chars_of_isName h
  have hplain : ∀ {d : Char}, Scan.isWordChar d = false → ∀ c ∈ literalContent text.toList,
      c ≠ d := by
    rintro d hd c hmem rfl
    rw [hword c hmem] at hd
    cases hd
  obtain ⟨first, last, htext⟩ : ∃ first last,
      text.toList = first :: (literalContent text.toList ++ [last]) := by
    unfold literalContent at hname ⊢
    cases htext : text.toList with
    | nil =>
      rw [htext] at hname
      cases hname
    | cons first tail =>
      rw [htext] at hname
      have hne : tail ≠ [] := by
        rintro rfl
        cases hname
      exact ⟨first, tail.getLast hne, by rw [List.tail_cons, List.dropLast_concat_getLast hne]⟩
  have hunify : unifyBreaks text.toList = text.toList := by
    refine unifyBreaks_eq_self ?_
    rw [htext]
    refine ⟨fun _ => ?_, noReturns_append (hplain (by decide)) last⟩
    rw [hname, List.cons_append, List.head?_cons]
    exact fun hline => hplain (by decide) head (by simp [hname]) (Option.some.inj hline)
  show String.ofList (decodeQuotes (literalContent (unifyBreaks text.toList))) = _
  rw [hunify, decodeQuotes_eq_self (hplain (by decide))]

/-- A key that is written as a name is looked at as the name. Counterpart of `View.keyName?`. -/
theorem keyName?_meaning {key : Node} {name : String} (h : keyName? key = some name)
    (place : Place) :
    View.meaning.keyName? ((key.kept place).normal .meaning) = some name := by
  unfold keyName? at h
  split at h
  · rename_i text hshape
    dsimp only at h
    split at h
    · rename_i hname
      cases h
      have hname := (Bool.and_eq_true_iff.1 hname).2
      have htext := text_meaning_of_isName hname
      simp only [View.keyName?, Node.shape_normal, Node.shape_kept, hshape, Node.shapeKept,
        Node.shapeNormal, htext, hname]
      rfl
    · cases h
  · cases h

/-! ## Statements that could be read as one -/

namespace Node

/-- The last of the nodes that are kept is what is kept of the last one, at its place. Counterpart
of `listKept`. -/
theorem getLast?_listKept (place : Nat → Place) (nodes : List Node) :
    (listKept place nodes).getLast? = nodes.getLast?.map (kept (place (nodes.length - 1))) := by
  induction nodes generalizing place with
  | nil => rfl
  | cons node rest ih =>
    cases rest with
    | nil => rfl
    | cons next rest => exact ih fun index => place (index + 1)

/-- If a node that is kept ends in something that can be called, then so does what is written.
Counterpart of `Node.endsCallableAt`. -/
theorem endsCallableAt_of_kept : ∀ {node : Node} {place : Place},
    (node.kept place).rightmost.isCallable = true → node.endsCallableAt place = true
  | mk number shape span inParens, place, h => by
    cases hparens : needsParens place (mk number shape span inParens) with
    | true => cases shape <;> exact Bool.or_eq_true_iff.2 (.inl hparens)
    | false =>
      rw [kept, hparens, rightmost,
        if_neg (show ¬(mk _ _ _ false).inParens = true from Bool.false_ne_true)] at h
      cases shape with
      | binary op left right =>
        exact Bool.or_eq_true_iff.2
          (.inr (endsCallableAt_of_kept
            (show (right.kept (Place.right op)).rightmost.isCallable = true from h)))
      | unary op operand =>
        exact Bool.or_eq_true_iff.2
          (.inr (endsCallableAt_of_kept (show (operand.kept {}).rightmost.isCallable = true
            from h)))
      | identifier _ | member _ _ _ | index _ _ | call _ _ | tableCall _ _ | stringCall _ _ =>
        exact Bool.or_eq_true_iff.2 (.inr rfl)
      | _ => cases h

/-- What can be called at the end of a statement as it is kept can be so as it is written.
Counterpart of `Node.endsCallable`. -/
theorem endsCallable_of_kept {statement : Node} {place : Place}
    (h : (statement.kept place).lastExpression?.any isCallable = true) :
    statement.endsCallable = true := by
  rw [lastExpression?, shape_kept] at h
  unfold endsCallable lastOperand?
  cases hshape : statement.shape with
  | localVariables names values | assignment names values =>
    rw [hshape] at h
    simp only [shapeKept, getLast?_listKept, Option.map_map, Option.any_map] at h ⊢
    obtain ⟨value, hvalue, hcallable⟩ := (Option.any_eq_true _ _).1 h
    exact (Option.any_eq_true _ _).2 ⟨value, hvalue, endsCallableAt_of_kept hcallable⟩
  | callStatement expression =>
    rw [hshape] at h
    exact endsCallableAt_of_kept h
  | repeatLoop body condition =>
    rw [hshape] at h
    exact endsCallableAt_of_kept h
  | _ =>
    rw [hshape] at h
    cases h

end Node

section
variable {context : Context} {isApart : Bool} {a b : Nat} {ts : List Token} {nodes : List Node}
  {node : Node}

/-- What is written for a list starts with what is written for the first node. Counterpart of
`List.intercalate`. -/
theorem exists_token_intercalate {separator first rest : List Slot} {lists : List (List Slot)}
    {kind : Kind} {text : List Char} (h : first = .token kind text :: rest) :
    ∃ rest, separator.intercalate (first :: lists) = .token kind text :: rest := by
  subst h
  cases lists with
  | nil => exact ⟨rest, List.intercalate_singleton⟩
  | cons second lists => exact ⟨_, List.intercalate_cons_cons⟩

variable (hcontext : context.attachments = [])
include hcontext

/-- What is written for a statement starts with a token. Counterpart of `spell`. -/
theorem Derives.exists_token (h : Derives isApart .statement a b ts [node]) (place : Place) :
    ∃ kind text rest, spell context place node = .token kind text :: rest := by
  cases h with
  | assignment _ htargets hderives _ =>
    obtain ⟨first, others, rfl, _, _, _, hfirst⟩ := hderives.exists_first_expression
    obtain ⟨kind, text, rest, hspell, -⟩ :=
      (hfirst.edges hcontext (.inl rfl) rfl {}).spell_first hcontext
    rw [spell_nodeOf hcontext]
    obtain ⟨slots, hslots⟩ := exists_token_intercalate hspell
    exact ⟨kind, text, _, congrArg (· ++ _) hslots⟩
  | callStatement hcall hderives =>
    obtain ⟨kind, text, rest, hspell, -⟩ :=
      (hderives.edges hcontext (.inl rfl) rfl {}).spell_first hcontext
    rw [spell_nodeOf hcontext]
    exact ⟨kind, text, rest, hspell⟩
  | conditional _ _ hclauses =>
    obtain ⟨first, others, rfl, _, _, _, _, hfirst⟩ := hclauses.exists_first_clause
    rw [spell_nodeOf hcontext]
    have hclause : ∃ kind text rest, spell context {} first = .token kind text :: rest := by
      rw [spell_eq_core hcontext]
      cases hfirst with
      | clause hk => rcases hk with hk | hk <;> rw [hk] <;> exact ⟨_, _, _, rfl⟩
      | elseClause => exact ⟨_, _, _, rfl⟩
    obtain ⟨kind, text, rest, hspell⟩ := hclause
    obtain ⟨slots, hslots⟩ := exists_token_intercalate hspell
    exact ⟨kind, text, _, congrArg (· ++ _) hslots⟩
  | _ =>
    rw [spell_nodeOf hcontext]
    exact ⟨_, _, _, rfl⟩

/-- What is written for a block starts with the token that its first statement starts with.
Counterpart of `spell`. -/
theorem Derives.exists_token_block {next : Node} {rest : List Node}
    (h : Derives isApart .block a b ts (next :: rest)) :
    ∃ kind text slots others, spell context {} next = .token kind text :: slots ∧
      Rule.block.slots context (fun _ => {}) (next :: rest) = .token kind text :: others := by
  obtain ⟨kind, text, slots, hspell⟩ :
      ∃ kind text slots, spell context {} next = .token kind text :: slots := by
    obtain ⟨_, _, _, hstatement⟩ | ⟨-, _, _, _, rfl⟩ := h.of_mem_block (List.nil_append _).symm
    · exact hstatement.exists_token hcontext {}
    · rw [spell_nodeOf hcontext]
      exact ⟨_, _, _, rfl⟩
  obtain ⟨more, lists, hlists⟩ :=
    context.exists_separatedSlots ⟨next, spell context {} next⟩
    (spelledAt context (fun _ => {}) rest)
  have hfirst : spell context {} next ++ more = .token kind text :: (slots ++ more) := by
    rw [hspell]
    rfl
  obtain ⟨others, hothers⟩ := exists_token_intercalate hfirst
  refine ⟨kind, text, slots, others, hspell, ?_⟩
  rw [Rule.slots, spelledAt_cons, hlists]
  exact hothers

end

/-! ## What is written for the nodes of a rule -/

/-- The places at which the nodes of a rule may be written: what is called before its arguments, and
statements where nothing special holds. -/
def Rule.Admits (rule : Rule) (place : Nat → Place) : Prop :=
  match rule with
  | callee => (place 0).isBase = true
  | block => place = fun _ => {}
  | _ => True

/-- No statement of a block is written as a call of what the one before it ends with. -/
def Rule.Divides (context : Context) (rule : Rule) (nodes : List Node) : Prop :=
  match rule with
  | block => nodes.IsChain context.Divides
  | _ => True

/-- What is written for the nodes is read as what is kept of them. -/
def Reprints (context : Context) (rule : Rule) (nodes : List Node) : Prop :=
  ∀ place : Nat → Place, rule.Admits place →
    ReadsAs .meaning rule (wording context.style (rule.slots context place nodes))
      (Node.listNormal .meaning (Node.listKept place nodes))

/-- What is written for the nodes is read as what is kept of them, if all their parts are legible
and no statement of theirs is written as a call. This is what is shown of each production, and
`Derives.reprints` of all of them. -/
def ReprintsLegible (context : Context) (rule : Rule) (nodes : List Node) : Prop :=
  LegibleTrees context nodes → rule.Divides context nodes → Reprints context rule nodes

section
variable {context : Context} {rule : Rule} {place : Place} {node : Node} {nodes : List Node}

/-- The form that a node is read in. -/
abbrev Node.form (place : Place) (node : Node) : Node :=
  (node.kept place).normal .meaning

/-- A single node is read as what is kept of it, in its form at a place. Counterpart of
`Reprints`. -/
theorem Reprints.one (h : Reprints context rule [node]) (hrule : rule ≠ .fields) (place : Place)
    (hplace : rule.Admits fun _ => place) :
    ReadsAs .meaning rule (wording context.style (spell context place node)) [node.form place] := by
  rw [← @slots_single context rule (fun _ => place) node hrule]
  exact h _ hplace

/-- It is enough to show for a single node what its slots are read as. Counterpart of `spell`. -/
theorem Reprints.of_spell (hrule : rule ≠ .fields)
    (h : ∀ place, (rule.Admits fun _ => place) →
      ReadsAs .meaning rule (wording context.style (spell context place node)) [node.form place]) :
    Reprints context rule [node] := by
  intro place hplace
  rw [slots_single hrule]
  refine h (place 0) ?_
  cases rule with
  | callee => exact hplace
  | block =>
    cases hplace
    rfl
  | _ => trivial

/-- A child of a legible node, wherever its rule lets it be written. Counterpart of
`ReprintsLegible`. -/
theorem ReprintsLegible.child {child : Node} (h : ReprintsLegible context rule [child])
    (hrule : rule ≠ .fields) (hdivides : rule.Divides context [child])
    (hlegible : LegibleTrees context [node]) (hchild : child ∈ node.shape.children) (place : Place)
    (hplace : rule.Admits fun _ => place) :
    ReadsAs .meaning rule (wording context.style (spell context place child)) [child.form place] :=
  (h (hlegible.child hchild) hdivides).one hrule place hplace

/-- Children of a legible node that one rule reads. Counterpart of `ReprintsLegible`. -/
theorem ReprintsLegible.children (h : ReprintsLegible context rule nodes)
    (hdivides : rule.Divides context nodes) (hlegible : LegibleTrees context [node])
    (hsub : nodes ⊆ node.shape.children) : Reprints context rule nodes :=
  h (hlegible.children hsub) hdivides

/-- The body of a legible node. Counterpart of `Shape.body?`. -/
theorem ReprintsLegible.body (h : ReprintsLegible context .block nodes)
    (hlegible : LegibleTrees context [node]) (hbody : node.shape.body? = some nodes)
    (hsub : nodes ⊆ node.shape.children) : Reprints context .block nodes :=
  h (hlegible.children hsub) (hlegible.self.body _ hbody)

/-- A language that is the same is read in the same way. Counterpart of `ReadsAs`. -/
theorem ReadsAs.of_eq {view : View} {first second : Language Word} {forms : List Node}
    (h : ReadsAs view rule first forms) (heq : second = first) : ReadsAs view rule second forms :=
  heq ▸ h

/-- A node, a comma and more nodes, with the same slots after them as after fewer. Counterpart of
`Derives.moreExpressions` and `Derives.moreNames`. -/
theorem Reprints.commas {one : Rule} (h : Reprints context one [node])
    (hrest : Reprints context rule nodes) (hne : nodes ≠ []) (hone : one ≠ .fields)
    (hadmits : ∀ place, one.Admits place ∧ rule.Admits place) (after : List Slot)
    (hslots : ∀ place node nodes, rule.slots context place (node :: nodes) =
      commaSlots (nodeSlots context place (node :: nodes)) ++ after)
    (hrule :
        ∀ {stop a b c : Nat} {comma : Token} {ts us : List Token} {node : Node} {nodes : List Node},
      comma.kind = .symbol .comma → Derives true (one.endingAt stop) a b ts [node] →
      Derives true (rule.endingAt stop) b c us nodes →
      Derives true (rule.endingAt stop) a c (ts ++ comma :: us) (node :: nodes)) :
    Reprints context rule (node :: nodes) := by
  obtain ⟨next, rest, rfl⟩ := List.exists_cons_of_ne_nil hne
  intro place _
  refine (ReadsAs.more hrule (h.one hone (place 0) (hadmits _).1) (hrest _ (hadmits _).2)).of_eq ?_
  rw [hslots, hslots, nodeSlots_cons, commaSlots_cons (by simp)]
  simp

/-- A comma may follow the last field. Counterpart of `Derives.lastField`. -/
theorem Reprints.lastField (h : Reprints context .field [node]) :
    Reprints context .fields [node] := by
  intro place _
  refine (ReadsAs.lastField (h.one (by simp) (place 0) trivial)).of_eq ?_
  rw [← @slots_single context .field place node (by simp)]
  simp [Rule.slots]

/-- A field before other fields: the comma between them is the one that is written. Counterpart of
`Derives.moreFields`. -/
theorem Reprints.moreFields (h : Reprints context .field [node])
    (hrest : Reprints context .fields nodes) :
    Reprints context .fields (node :: nodes) := by
  by_cases hne : nodes = []
  · subst hne
    exact h.lastField
  · exact h.commas hrest hne (by simp) (fun _ => ⟨trivial, trivial⟩) [.comma] (fun _ _ _ => rfl)
      fun hcomma => .moreFields (.inl hcomma)

variable (hcontext : context.attachments = [])
include hcontext

/-- For a node without parentheses in the source it is enough to look at what is written without
them. Counterpart of `core`. -/
theorem Reprints.of_core (hrule : rule ≠ .fields) (hopen : node.inParens = false)
    (h : ∀ place, (rule.Admits fun _ => place) →
      ReadsAs .meaning rule (wording context.style (core context place node))
        [.ofForm (Node.shapeNormal .meaning (Node.shapeKept place node.shape))]) :
    Reprints context rule [node] := by
  refine .of_spell hrule fun place hplace => ?_
  obtain ⟨number, shape, span, inParens⟩ := node
  cases hopen
  rw [spell_eq_core hcontext, Node.form, Node.kept_open, Node.normal]
  exact h place hplace

/-- `Reprints.of_core` for a node whose parts are known to be legible. Counterpart of
`ReprintsLegible`. -/
theorem ReprintsLegible.of_core (hrule : rule ≠ .fields) (hopen : node.inParens = false)
    (h : LegibleTrees context [node] → ∀ place, (rule.Admits fun _ => place) →
      ReadsAs .meaning rule (wording context.style (core context place node))
        [.ofForm (Node.shapeNormal .meaning (Node.shapeKept place node.shape))]) :
    ReprintsLegible context rule [node] :=
  fun hlegible _ => .of_core hcontext hrule hopen (h hlegible)

end

section
variable {context : Context} {isApart : Bool} {a b n : Nat} {ts : List Token} {t : Token}
  {place : Place}
  {body : List Node}
variable (hcontext : context.attachments = [])
include hcontext

/-- A node in parentheses is read as it is kept, with or without them. Counterpart of
`Derives.parens`. -/
theorem Reprints.parenthesise {node : Node} (h : Reprints context .expression [node]) :
    Reprints context .expression [node.parenthesise] := by
  refine .of_spell (by simp) fun place _ => ?_
  have hread := h.one (by simp) place trivial
  obtain ⟨number, shape, span, inParens⟩ := node
  cases inParens with
  | true => exact hread
  | false =>
    have hopen : needsParens place (.mk number shape span false) = false := rfl
    rw [spell_eq_core hcontext, hopen, if_neg Bool.false_ne_true, Node.form, Node.kept_open,
      Node.normal] at hread
    rw [spell_eq_core hcontext, core_parenthesise, Node.form, Node.parenthesise, Node.kept,
      Node.normal]
    split
    · rename_i hkept
      rw [hkept]
      exact hread.parens.of_eq (by simp [parenSlots])
    · rename_i hkept
      rwa [Bool.eq_false_iff.2 hkept]

/-- A single name, in each of the rules that read one. Counterpart of `Derives.identifier`. -/
theorem reprints_name {rule : Rule} (hfields : rule ≠ .fields)
    (hrule : ∀ stop n (t : Token), t.kind = .identifier →
      Derives true (rule.endingAt stop) n (n + 1) [t] [nameOf n t]) :
    Reprints context rule [nameOf n t] :=
  .of_core hcontext hfields rfl fun _ _ => (ReadsAs.ofName hrule).of_eq (mul_one _)

/-- A name before other names, in each of the rules that read a list of them. Counterpart of
`Derives.moreNames`. -/
theorem reprints_moreNames {rule : Rule} {nodes : List Node} (hne : nodes ≠ [])
    (hslots : ∀ place nodes, rule.slots context place nodes =
        commaSlots (nodeSlots context place nodes))
    (hadmits : ∀ place, rule.Admits place)
    (hrule : ∀ {stop a b : Nat} {t comma : Token} {us : List Token} {nodes : List Node},
      t.kind = .identifier → comma.kind = .symbol .comma → nodes ≠ [] →
      Derives true (rule.endingAt stop) (a + 1) b us nodes →
      Derives true (rule.endingAt stop) a b (t :: comma :: us) (nameOf a t :: nodes))
    (hrest : Reprints context rule nodes) : Reprints context rule (nameOf n t :: nodes) := by
  obtain ⟨next, rest, rfl⟩ := List.exists_cons_of_ne_nil hne
  intro place _
  refine (ReadsAs.moreNames (List.cons_ne_nil _ _) hrule
    (hrest (fun index => place (index + 1)) (hadmits _))).of_eq ?_
  rw [hslots, hslots, nodeSlots_cons, commaSlots_cons (by simp), spell_name hcontext]
  simp

/-- What is written for a name is the name. Counterpart of `spell`. -/
theorem wording_spell_name (n : Nat) (t : Token) :
    wording context.style (spell context place (nameOf n t)) = name (Parser.textOf t) := by
  rw [spell_name hcontext, wording_single, Slot.wording_name]

/-- What is written for a body is what is written for its statements. Counterpart of
`Context.bodySlots`. -/
theorem wording_bodySlots (node : Node) (h : Derives isApart .block a b ts body) :
    wording context.style (context.bodySlots node (body.map fun child =>
        ⟨child, spell context {} child⟩)) =
      wording context.style (Rule.block.slots context (fun _ => {}) body) := by
  rw [bodySlots_eq hcontext h]
  cases body with
  | nil => rfl
  | cons => simp

/-- What is written for a body with its closing keyword. Counterpart of `Context.bodyEndSlots`. -/
theorem wording_bodyEndSlots (node : Node) (h : Derives isApart .block a b ts body) :
    wording context.style (context.bodyEndSlots node (body.map fun child =>
        ⟨child, spell context {} child⟩)) =
      wording context.style (Rule.block.slots context (fun _ => {}) body) * keyword .endK := by
  rw [bodyEndSlots_eq hcontext h]
  cases body with
  | nil => simp [Rule.slots, spelledAt, Context.separatedSlots]
  | cons => simp

omit hcontext in
/-- What is written for a branch starts with its keyword. Counterpart of `clauseKeyword`. -/
theorem wording_clauseKeyword {style : Style} (kind : ClauseKind) :
    wording style (clauseKeyword kind) = keyword kind.keyword := by
  cases kind <;> simp [clauseKeyword]

omit hcontext in
/-- What is written for a key between brackets. Counterpart of `bracketSlots`. -/
theorem wording_bracketSlots {style : Style} (key : Node) (slots : List Slot) :
    wording style (bracketSlots key slots) =
      mark .leftSquare * (wording style slots * mark .rightSquare) := by
  unfold bracketSlots
  split <;> simp

end

/-- A literal is written as a token that is read as a literal of its kind. Counterpart of
`literalWord`. -/
theorem literalKind?_literalWord (style : Style) (kind : LiteralKind) (text : String) :
    Parser.literalKind? (literalWord style kind text).1 = some kind := by
  obtain ⟨raw, -, hword⟩ := literalSlot_eq style kind text
  rw [hword]
  exact kind.literalKind?_tokenKind text

/-- A literal is read with the same meaning. Counterpart of `Derives.literal`. -/
theorem LiteralWritten.readsAs {style : Style} {kind : LiteralKind} {text : String}
    (h : LiteralWritten style kind text) :
    ReadsAs .meaning .expression {[literalWord style kind text]}
      [.ofForm (.literal kind (View.meaning.text kind text))] :=
  .literal (literalKind?_literalWord style kind text) h.text_eq

section
variable {context : Context} {isApart : Bool} {a b n : Nat} {ts : List Token} {t : Token}
  {place : Place}
  {parameters body fields : List Node}
variable (hcontext : context.attachments = [])
include hcontext

/-- Parameters in parentheses, and the body up to its end. Counterpart of `Derives.function`. -/
theorem wording_function (node : Node) (h : Derives isApart .block a b ts body) :
    wording context.style
      ((if parameters.isEmpty then context.emptyParensSlots node
        else .symbol .leftParen :: .soft :: (commaSlots (parameters.map (spell context {})) ++
          [.soft, .symbol .rightParen])) ++
        context.bodyEndSlots node (body.map fun child => ⟨child, spell context {} child⟩)) =
      mark .leftParen *
      (wording context.style (Rule.parameters.slots context (fun _ => {}) parameters) *
        (mark .rightParen * (wording context.style (Rule.block.slots context (fun _ => {}) body) *
          keyword .endK))) := by
  rw [wording_append, wording_bodyEndSlots hcontext node h, map_spell]
  split
  · rename_i hempty
    obtain rfl := List.isEmpty_iff.1 hempty
    rw [emptyParensSlots_eq hcontext]
    simp [Rule.slots, commaSlots, mul_assoc]
  · simp [Rule.slots, mul_assoc]

/-- What is written for a table is what is written for its fields, between braces. Counterpart of
`core`. -/
theorem wording_table :
    wording context.style (core context place (nodeOf n (.table fields) ts)) =
      mark .leftCurly *
      (wording context.style (Rule.fields.slots context (Place.argument fields.length) fields) *
        mark .rightCurly) := by
  simp only [core, coreSlots, Node.shape_mk, danglingSlots_eq hcontext,
    danglingComments_eq hcontext]
  split
  · rename_i hempty
    obtain rfl := List.isEmpty_iff.1 hempty
    simp [Rule.slots, commaSlots]
  · rename_i hfields
    simp [Rule.slots, hfields, nodeSlots, mul_assoc]

end

/-- What could be accessed or called can be so in its form. Counterpart of `Node.canBeBase`. -/
theorem Derives.canBeBase_form {isApart : Bool} {a b : Nat} {ts : List Token} {base : Node}
    (h : Derives isApart .expression a b ts [base]) (hbase : base.canBeBase = true) :
    (base.form Place.base).canBeBase = true := by
  rw [Node.canBeBase_normal]
  exact Node.canBeBase_kept hbase (h.shape_ne_method rfl base (List.mem_singleton_self base)) rfl

/-- Operands stay in parentheses where an operator next to them would take them apart. Counterpart
of `Derives.unary`. -/
theorem Derives.above_form {isApart : Bool} {a b n : Nat} {ts us : List Token} {op : UnaryOp}
    {operand : Node} (h : Derives isApart .expression a b ts [nodeOf n (.unary op operand) us]) :
    (operand.form {}).Above UnaryOp.priority := by
  have hwell : Node.WellParenthesised (nodeOf n (.unary op operand) us) :=
    h.wellParenthesised _ (List.mem_singleton_self _)
  refine (Node.above_normal _).2 ((hwell.2.kept {}).above fun inner hinner => ?_)
  rw [Node.openBinary?_kept] at hinner
  rw [hwell.1 inner hinner]
  decide

/-- The operands of an operation fit around its operator in their forms, with the parentheses that
are kept. Counterpart of `Node.Below` and `Node.Above`. -/
theorem Derives.fits_form {isApart : Bool} {a b n : Nat} {ts us : List Token} {op : BinaryOp}
    {left right : Node}
    (h : Derives isApart .expression a b ts [nodeOf n (.binary op left right) us]) :
    (left.form (Place.left op)).Below op.leftPriority ∧
      (right.form (Place.right op)).Above op.rightPriority := by
  have hwell : Node.WellParenthesised (nodeOf n (.binary op left right) us) :=
    h.wellParenthesised _ (List.mem_singleton_self _)
  obtain ⟨hoperators, hoperators', hunary, hwellLeft, hwellRight⟩ := hwell.kept {}
  have hbelow := hwellLeft.below hoperators fun hopen => BinaryOp.ne_power_iff.1 (hunary hopen)
  exact ⟨(Node.below_normal _).2 hbelow, (Node.above_normal _).2 (hwellRight.above hoperators')⟩

/-- The empty list of nodes is read back by each of the rules that may read nothing. Counterpart of
`Derives.noArguments`. -/
theorem Reprints.nil {context : Context} {rule : Rule}
    (hslots : ∀ place, rule.slots context place [] = [])
    (hrule : ∀ stop n, Derives true (rule.endingAt stop) n n [] []) : Reprints context rule [] := by
  intro place _
  rw [hslots]
  exact .nil hrule

/-- No parenthesis comes after a statement that it would call, or there is a semicolon in between.
Counterpart of `Derives.moreStatements`. -/
theorem Reprints.moreStatements {context : Context} (hcontext : context.attachments = [])
    {isApart : Bool} {a b c : Nat} {ts us : List Token} {statement : Node} {body : List Node}
    (hstatement : Derives isApart .statement a b ts [statement])
    (hbody : Derives isApart .block b c us body)
    (hdivides : (statement :: body).IsChain context.Divides)
      (h : Reprints context .statement [statement])
    (hrest : Reprints context .block body) : Reprints context .block (statement :: body) := by
  rintro _ rfl
  have hfirst := h.one (by simp) {} trivial
  have hblock := hrest _ rfl
  cases body with
  | nil =>
    refine (ReadsAs.moreStatements hfirst hblock fun _ words hwords => ?_).of_eq ?_
    · obtain rfl : words = [] := hwords
      rfl
    · rw [slots_single (by simp)]
      exact (mul_one _).symm
  | cons next rest =>
    have hslots : Rule.block.slots context (fun _ => {}) (statement :: next :: rest) =
        spell context {} statement ++ (context.separatorSlots statement next ++
          .hard :: Rule.block.slots context (fun _ => {}) (next :: rest)) := by
      simp only [Rule.slots, spelledAt_cons]
      exact intercalate_separatedSlots ..
    have hseparator : wording context.style (context.separatorSlots statement next) =
        if needsSeparator statement next then mark .semicolon else 1 := by
      unfold Context.separatorSlots
      split <;> split <;> simp
    cases hneeds : needsSeparator statement next with
    | true =>
      refine (ReadsAs.moreStatements hfirst hblock.semicolon fun _ words hwords => ?_).of_eq ?_
      · obtain ⟨_, rfl, words, -, rfl⟩ := Language.mem_mul.1 hwords
        rfl
      · rw [hslots, wording_append, wording_append, hseparator, hneeds, if_pos rfl]
        simp
    | false =>
      refine (ReadsAs.moreStatements hfirst hblock fun hcallable words hwords => ?_).of_eq ?_
      · obtain ⟨kind, text, slots, others, hspell, hothers⟩ := hbody.exists_token_block hcontext
        rw [hothers, wording_cons] at hwords
        obtain ⟨_, rfl, words, -, rfl⟩ := Language.mem_mul.1 hwords
        by_contra hparen
        obtain rfl : kind = .symbol .leftParen := by simpa using hparen
        have hends : statement.endsCallable = true := by
          rw [Node.isCallable_lastExpression?_normal] at hcallable
          exact Node.endsCallable_of_kept hcallable
        have hcodes : (codes (spell context {} next)).head? = some (.symbol .leftParen) := by
          rw [hspell]
          rfl
        have hneeded := (hstatement.needsSeparator_iff
          ((hbody.of_mem_block (List.nil_append _).symm).imp id And.right) context hends hcodes).2
          ((List.isChain_cons_cons.1 hdivides).1 hends hcodes)
        rw [hneeds] at hneeded
        cases hneeded
      · rw [hslots, wording_append, wording_append, hseparator, hneeds]
        simp

end LuaFormatter
