import LuaFormatter.Parse.Program
import LuaFormatter.Proofs.Format.Skeleton
import LuaFormatter.Proofs.Grammar.ReadStatement

/-!
# Reading does not look at positions

What is read from tokens depends on their kinds and lexemes only. `Agree R p q` says that two
parsers, started before tokens that differ in their offsets only, give results that are related by
`R` and stop before tokens of the same kind again. Every rule agrees with itself in this sense, for
offsets that may differ and nodes of the same form: nodes that differ in their numbers and spans
(`isBlind_level`). So two sources with the same tokens are read as trees of the same form
(`sameForms_chunkRun`).
-/

namespace LuaFormatter

/-- What the grammar sees of a token. -/
def Token.content (token : Token) : Kind × List Char :=
  (token.kind, token.lexeme)

/-- The nodes differ in their numbers and spans only. -/
abbrev SameForm (node other : Node) : Prop :=
  node.skeleton (fun _ => false) false = other.skeleton (fun _ => false) false

/-- The nodes of the lists differ in their numbers and spans only. -/
abbrev SameForms (nodes others : List Node) : Prop :=
  Node.listSkeleton (fun _ => false) nodes = Node.listSkeleton (fun _ => false) others

/-- The optional nodes differ in their numbers and spans only. -/
abbrev SameOption (node other : Option Node) : Prop :=
  Node.optionSkeleton (fun _ => false) node = Node.optionSkeleton (fun _ => false) other

/-- The parts of the shapes differ in their numbers and spans only. -/
abbrev SameShape (shape other : Shape Node) : Prop :=
  Node.shapeSkeleton (fun _ => false) shape = Node.shapeSkeleton (fun _ => false) other

/-- The forms of two lists one after the other. Counterpart of `Node.listSkeleton`. -/
theorem listSkeleton_append (front back : List Node) :
    Node.listSkeleton (fun _ => false) (front ++ back) =
      Node.listSkeleton (fun _ => false) front ++ Node.listSkeleton (fun _ => false) back := by
  induction front with
  | nil => rfl
  | cons node rest ih =>
    rw [List.cons_append, Node.listSkeleton, Node.listSkeleton, ih, Bool.and_false, Bool.and_false,
      List.cons_append]

section
variable {node other : Node} {nodes others : List Node}

/-- Lists of the same forms one after the other. Counterpart of `SameForms`. -/
theorem SameForms.append {front back : List Node} (h : SameForms nodes others)
    (h' : SameForms front back) : SameForms (nodes ++ front) (others ++ back) := by
  rw [SameForms, listSkeleton_append, listSkeleton_append, h, h']

/-- One node of the same form. Counterpart of `SameForms`. -/
theorem SameForm.single (h : SameForm node other) : SameForms [node] [other] :=
  congrArg (fun node => [node]) h

/-- A first node of the same form, and the others. Counterpart of `SameForms`. -/
theorem SameForm.cons (h : SameForm node other) (h' : SameForms nodes others) :
    SameForms (node :: nodes) (other :: others) :=
  SameForms.append h.single h'

/-- A node of the same form where one may be missing. Counterpart of `SameOption`. -/
theorem SameForm.some (h : SameForm node other) : SameOption (some node) (some other) :=
  congrArg Option.some h

/-- Of two trees of one form both are calls or none is. Counterpart of `Shape.isCall`. -/
theorem SameForm.isCall_eq (h : SameForm node other) : node.shape.isCall = other.shape.isCall := by
  have hskeleton : ∀ node : Node, (node.skeleton (fun _ => false) false).shape.isCall =
      node.shape.isCall := fun node => by
    rw [Node.shape_skeleton]
    cases node.shape <;> rfl
  rw [← hskeleton, h, hskeleton]

/-- Of two trees of one form both were not understood or none. Counterpart of `Shape.isInvalid`. -/
theorem SameForm.isInvalid_eq (h : SameForm node other) :
    node.shape.isInvalid = other.shape.isInvalid := by
  have hskeleton : ∀ node : Node, (node.skeleton (fun _ => false) false).shape.isInvalid =
      node.shape.isInvalid := fun node => by
    rw [Node.shape_skeleton, Node.isInvalid_skeleton]
  rw [← hskeleton, h, hskeleton]

/-- Parentheses around trees of one form. Counterpart of `Node.parenthesise`. -/
theorem SameForm.parenthesise (h : SameForm node other) :
    SameForm node.parenthesise other.parenthesise := by
  obtain ⟨number, shape, span, inParens⟩ := node
  obtain ⟨number', shape', span', inParens'⟩ := other
  simp only [SameForm, Node.skeleton, Node.mk.injEq, Node.parenthesise] at h ⊢
  simp [h]

end

/-- What is still to be read differs in offsets only. -/
def SameRest (s t : ParseState) : Prop :=
  s.rest.map Token.content = t.rest.map Token.content

/-- As many tokens are left in both runs. Counterpart of `SameRest`. -/
theorem SameRest.length_eq {s t : ParseState} (h : SameRest s t) :
    s.rest.length = t.rest.length := by
  simpa using congrArg List.length h

namespace Parser

/-- Started before tokens that differ in offsets only, the parsers give related results and stop
before such tokens. -/
def Agree {α : Type} (R : α → α → Prop) (p q : Parser α) : Prop :=
  ∀ s t, SameRest s t → R (p s).1 (q t).1 ∧ SameRest (p s).2 (q t).2

section
variable {α β : Type} {R : α → α → Prop} {S : β → β → Prop} {p q : Parser α} {f g : α → Parser β}

/-- Results without reading agree as they are related. Counterpart of `pure`. -/
theorem agree_pure {a b : α} (h : R a b) : Agree R (pure a) (pure b) :=
  fun _ _ hrest => ⟨h, hrest⟩

/-- A step and what comes after it. Counterpart of the bind of `Parser`. -/
theorem Agree.andThen (h : Agree R p q) (hf : ∀ a b, R a b → Agree S (f a) (g b)) :
    Agree S (p >>= f) (q >>= g) := by
  intro s t hrest
  obtain ⟨hresult, hmiddle⟩ := h s t hrest
  exact hf _ _ hresult _ _ hmiddle

/-- Results that are changed afterwards agree. Counterpart of `Functor.map` for `Agree`. -/
theorem Agree.map {f g : α → β} (h : Agree R p q) (hf : ∀ a b, R a b → S (f a) (g b)) :
    Agree S (f <$> p) (g <$> q) :=
  fun s t hrest => ⟨hf _ _ (h s t hrest).1, (h s t hrest).2⟩

/-- A choice agrees if its branches do, where both runs choose the same. Counterpart of `ite` for
`Agree`. -/
theorem Agree.ite {c : Prop} [Decidable c] {p' q' : Parser α} (h : c → Agree R p q)
    (h' : ¬c → Agree R p' q') : Agree R (if c then p else p') (if c then q else q') := by
  split
  · exact h ‹_›
  · exact h' ‹_›

/-- A value and the word whether there is more. -/
def Step (R : α → α → Prop) (a b : α × Bool) : Prop :=
  R a.1 b.1 ∧ a.2 = b.2

/-- Loops agree if their rounds do. Counterpart of `Parser.extend`. -/
theorem agree_extend {round other : α → Parser (α × Bool)}
    (h : ∀ a b, R a b → Agree (Step R) (round a) (other b)) {a b : α} (hab : R a b) :
    Agree R (extend round a) (extend other b) := by
  intro s t hrest
  induction hn : s.rest.length using Nat.strongRecOn generalizing s t a b with
  | _ n ih =>
  obtain ⟨⟨hvalue, hgoes⟩, hafter⟩ := h a b hab s t hrest
  rw [extend_eq round, extend_eq other, hgoes, hafter.length_eq, hrest.length_eq]
  split
  · rename_i hgo
    refine ih _ ?_ hvalue _ _ hafter rfl
    rw [← hn, hafter.length_eq, hrest.length_eq]
    exact hgo.2
  · exact ⟨hvalue, hafter⟩

end

/-! ## Steps -/

/-- Nothing is known about the results. -/
def Any {α : Type} (_ _ : α) : Prop :=
  True

/-- Both runs look at a token of the same content. Counterpart of `Parser.current`. -/
theorem agree_current :
    Agree (fun token other => token.content = other.content) current current := by
  intro s t hrest
  refine ⟨?_, hrest⟩
  show (s.rest.head?.getD _).content = (t.rest.head?.getD _).content
  unfold SameRest at hrest
  cases hs : s.rest with
  | nil =>
    cases ht : t.rest with
    | nil => rfl
    | cons => simp [hs, ht] at hrest
  | cons =>
    cases ht : t.rest with
    | nil => simp [hs, ht] at hrest
    | cons => simpa [hs, ht] using (List.cons.inj (by simpa [hs, ht] using hrest)).1

/-- Both runs look at a token of the same kind. Counterpart of `Parser.currentKind`. -/
theorem agree_currentKind : Agree Eq currentKind currentKind :=
  agree_current.map fun _ _ h => congrArg Prod.fst h

/-- In both runs the token after the current one is of the same kind. Counterpart of
`Parser.followingKind`. -/
theorem agree_followingKind : Agree Eq followingKind followingKind := by
  intro s t hrest
  refine ⟨?_, hrest⟩
  have hkinds : s.rest.map Token.kind = t.rest.map Token.kind := by
    simpa [Token.content, Function.comp_def] using congrArg (List.map Prod.fst) hrest
  show (s.rest.tail.head?.map Token.kind).getD _ = (t.rest.tail.head?.map Token.kind).getD _
  rw [← List.head?_map, ← List.head?_map, List.map_tail, List.map_tail, hkinds]

/-- Where a rule starts may differ. Counterpart of `Parser.start`. -/
theorem agree_start : Agree Any start start :=
  fun _ _ hrest => ⟨trivial, hrest⟩

/-- Both runs pass a token of the same content. Counterpart of `Parser.advance`. -/
theorem agree_advance :
    Agree (fun token other => token.content = other.content) advance advance := by
  intro s t hrest
  refine ⟨(agree_current s t hrest).1, ?_⟩
  have hstep : ∀ state : ParseState, (advance state).2.rest = state.rest.tail := by
    rintro ⟨_ | ⟨first, rest⟩, previousStop, sourceLength, made, faults⟩ <;> rfl
  rw [SameRest, hstep, hstep, List.map_tail, List.map_tail, hrest]

/-- Both runs note a fault, each at its own place. Counterpart of `Parser.fault`. -/
theorem agree_fault (fault other : Fault) : Agree Any (Parser.fault fault) (Parser.fault other) :=
  fun _ _ hrest => ⟨trivial, hrest⟩

/-- Both runs pass a token of a kind or none does. Counterpart of `Parser.accept`. -/
theorem agree_accept (kind : Kind) : Agree Eq (accept kind) (accept kind) := by
  unfold accept
  refine agree_currentKind.andThen fun found _ h => ?_
  subst h
  exact .ite (fun _ => agree_advance.andThen fun _ _ _ => agree_pure rfl) fun _ => agree_pure rfl

/-- Both runs pass a token of a kind or note that it is missing. Counterpart of `Parser.expect`. -/
theorem agree_expect (kind : Kind) : Agree Any (expect kind) (expect kind) := by
  unfold expect
  refine (agree_accept kind).andThen fun accepted _ h => ?_
  subst h
  cases accepted with
  | true => exact agree_pure trivial
  | false => exact agree_current.andThen fun token other _ => agree_fault _ _

/-- Nodes of the same shape are of one form, wherever they stand. Counterpart of `Parser.makeAt`. -/
theorem agree_makeAt {shape other : Shape Node} (h : SameShape shape other) (span place : Span) :
    Agree SameForm (makeAt shape span) (makeAt other place) := by
  refine fun s t hrest => ⟨?_, hrest⟩
  show SameForm ⟨s.made, shape, span, false⟩ ⟨t.made, other, place, false⟩
  rw [SameForm, Node.skeleton, Node.skeleton, h]

/-- Nodes of the same shape are of one form, wherever they start. Counterpart of `Parser.make`. -/
theorem agree_make {shape other : Shape Node} (h : SameShape shape other) (start place : Nat) :
    Agree SameForm (make shape start) (make other place) :=
  fun s t hrest => agree_makeAt h _ _ s t hrest

/-- Nodes for tokens that are not understood are of one form. Counterpart of
`Parser.makeInvalid`. -/
theorem agree_makeInvalid (token other : Token) :
    Agree SameForm (makeInvalid token) (makeInvalid other) :=
  agree_makeAt rfl _ _

/-- Rounds that agree make as many rounds in both runs. Counterpart of `Parser.many`. -/
theorem agree_many {round : Parser (List Node × Bool)} (h : Agree (Step SameForms) round round) :
    Agree SameForms (many round) (many round) := by
  refine agree_extend (fun items others hitems => ?_) rfl
  refine h.andThen ?_
  rintro ⟨more, goesOn⟩ ⟨more', goesOn'⟩ ⟨hmore, hgoes⟩
  exact agree_pure ⟨hitems.append hmore, hgoes⟩

/-- Items that agree are as many in both runs. Counterpart of `Parser.commaSeparated`. -/
theorem agree_commaSeparated {item : Parser Node} (h : Agree SameForm item item) :
    Agree SameForms (commaSeparated item) (commaSeparated item) := by
  refine agree_many (h.andThen fun node other hnode => ?_)
  exact (agree_accept _).andThen fun _ _ hmore => agree_pure ⟨hnode.single, hmore⟩

end Parser

/-- The rules of a grammar do not look at positions. -/
structure Grammar.IsBlind (grammar : Grammar) : Prop where
  expression : ∀ limit, Parser.Agree SameForm (grammar.expression limit) (grammar.expression limit)
  block : Parser.Agree SameForms grammar.block grammar.block

namespace Parser

/-! ## Expressions -/

section
variable {β : Type} {S : β → β → Prop}

/-- Tokens of the same content have the same text. Counterpart of `Parser.textOf`. -/
theorem textOf_eq {token other : Token} (h : token.content = other.content) :
    textOf token = textOf other := by
  rw [textOf, textOf, show token.lexeme = other.lexeme from congrArg Prod.snd h]

/-- A look at the next token shows its kind and its text. Counterpart of `Parser.current` before the
rest of a rule. -/
theorem agree_look {f g : Token → Parser β} (h : ∀ token other, token.kind = other.kind →
    textOf token = textOf other → Agree S (f token) (g other)) :
    Agree S (current >>= f) (current >>= g) :=
  agree_current.andThen fun token other hcontent =>
    h token other (congrArg Prod.fst hcontent) (textOf_eq hcontent)

/-- Rules go on after tokens of the same kind and text. Counterpart of `Parser.advance` before the
rest of a rule. -/
theorem agree_read {f g : Token → Parser β} (h : ∀ token other, token.kind = other.kind →
    textOf token = textOf other → Agree S (f token) (g other)) :
    Agree S (advance >>= f) (advance >>= g) :=
  agree_advance.andThen fun token other hcontent =>
    h token other (congrArg Prod.fst hcontent) (textOf_eq hcontent)

/-- Rules go on after looking at the same kind. Counterpart of `Parser.currentKind` before the rest
of a rule. -/
theorem agree_kind {f g : Kind → Parser β} (h : ∀ kind, Agree S (f kind) (g kind)) :
    Agree S (currentKind >>= f) (currentKind >>= g) :=
  agree_currentKind.andThen fun kind _ heq => heq ▸ h kind

/-- Rules go on after passing a token in both runs or in none. Counterpart of `Parser.accept` before
the rest of a rule. -/
theorem agree_accepted {kind : Kind} {f g : Bool → Parser β}
    (h : ∀ accepted, Agree S (f accepted) (g accepted)) :
    Agree S (accept kind >>= f) (accept kind >>= g) :=
  (agree_accept kind).andThen fun accepted _ heq => heq ▸ h accepted

/-- Rules go on after a token that has to be of a kind. Counterpart of `Parser.expect` before the
rest of a rule. -/
theorem agree_expected {kind : Kind} {f g : Unit → Parser β} (h : Agree S (f ()) (g ())) :
    Agree S (expect kind >>= f) (expect kind >>= g) :=
  (agree_expect kind).andThen fun _ _ _ => h

/-- Rules go on from different places. Counterpart of `Parser.start` before the rest of a rule. -/
theorem agree_started {f g : Nat → Parser β} (h : ∀ start place, Agree S (f start) (g place)) :
    Agree S (start >>= f) (start >>= g) :=
  agree_start.andThen fun start place _ => h start place

/-- Rules go on after a fault. Counterpart of `Parser.fault` before the rest of a rule. -/
theorem agree_faulted {fault other : Fault} {f g : Unit → Parser β} (h : Agree S (f ()) (g ())) :
    Agree S (Parser.fault fault >>= f) (Parser.fault other >>= g) :=
  (agree_fault fault other).andThen fun _ _ _ => h

end

/-- Both runs read the same name. Counterpart of `Parser.identifier`. -/
theorem agree_identifier : Agree SameForm identifier identifier := by
  unfold identifier
  refine agree_look fun token other hkind htext => ?_
  rw [hkind]
  refine .ite (fun _ => ?_) fun _ => ?_
  · refine agree_read fun _ _ _ _ => agree_makeAt ?_ _ _
    rw [htext]
  · exact agree_faulted (agree_makeInvalid token other)

/-- Both runs read the same parameter, and both go on or stop. Counterpart of `Parser.parameter`. -/
theorem agree_parameter : Agree (Step SameForms) parameter parameter := by
  unfold parameter
  refine agree_look fun token other hkind htext => ?_
  rw [hkind]
  split
  · exact agree_identifier.andThen fun name name' hname => agree_accepted fun _ =>
      agree_pure ⟨hname.single, rfl⟩
  · refine agree_read fun _ _ _ _ => ?_
    rw [htext]
    exact (agree_make rfl _ _).andThen fun node node' hnode => agree_pure ⟨hnode.single, rfl⟩
  · exact agree_faulted (agree_pure ⟨rfl, rfl⟩)

section
variable {grammar : Grammar} (h : grammar.IsBlind)
include h

/-- Both runs read expressions of the same forms. Counterpart of `Parser.expressionList`. -/
theorem agree_expressionList : Agree SameForms (expressionList grammar) (expressionList grammar) :=
  agree_commaSeparated (h.expression 0)

/-- Both runs read functions of one form, with names of one form. Counterpart of
`Parser.functionBody`. -/
theorem agree_functionBody (start place : Nat) {name name' : Option Node}
    (hname : SameOption name name') (isLocal : Bool) :
    Agree SameForm (functionBody grammar start name isLocal)
      (functionBody grammar place name' isLocal) := by
  unfold functionBody
  refine agree_expected (agree_kind fun kind => ?_)
  have hrest : ∀ parameters parameters' : List Node, SameForms parameters parameters' →
      Agree SameForm (do
        expect (.symbol .rightParen)
        let body ← grammar.block
        expect (.keyword .endK)
        make (.function isLocal name parameters body) start) (do
        expect (.symbol .rightParen)
        let body ← grammar.block
        expect (.keyword .endK)
        make (.function isLocal name' parameters' body) place) := by
    intro parameters parameters' hparameters
    refine agree_expected (h.block.andThen fun body body' hbody =>
        agree_expected (agree_make ?_ _ _))
    simp only [SameShape, Node.shapeSkeleton, hname, hparameters, hbody]
  refine .ite (fun _ => hrest [] [] rfl) fun _ => ?_
  exact (agree_many agree_parameter).andThen hrest

/-- Both runs read fields of one form, and both go on or stop. Counterpart of `Parser.field`. -/
theorem agree_field : Agree (Step SameForms) (field grammar) (field grammar) := by
  unfold field
  refine agree_look fun token other hkind htext => ?_
  rw [hkind]
  split
  · exact agree_pure ⟨rfl, rfl⟩
  · exact agree_pure ⟨rfl, rfl⟩
  · -- After a field, a separator may follow.
    have hend : ∀ field field' : Node, SameForm field field' → Agree (Step SameForms) (do
        let comma ← accept (.symbol .comma)
        let separated ← if comma then pure true else accept (.symbol .semicolon)
        return ([field], separated)) (do
        let comma ← accept (.symbol .comma)
        let separated ← if comma then pure true else accept (.symbol .semicolon)
        return ([field'], separated)) := by
      intro field field' hfield
      refine agree_accepted fun comma => .ite (fun _ => agree_pure ⟨hfield.single, rfl⟩) fun _ => ?_
      exact agree_accepted fun separated => agree_pure ⟨hfield.single, rfl⟩
    refine agree_followingKind.andThen fun following _ hfollowing => ?_
    subst hfollowing
    refine .ite (fun _ => ?_) fun _ => .ite (fun _ => ?_) fun _ => ?_
    · refine agree_read fun _ _ _ _ => (h.expression 0).andThen fun key key' hkey =>
        agree_expected (agree_expected ((h.expression 0).andThen fun value value' hvalue => ?_))
      exact (agree_make (by simp only [SameShape, Node.shapeSkeleton, hkey, hvalue]) _ _).andThen
        hend
    · refine agree_identifier.andThen fun name name' hname => agree_read fun _ _ _ _ =>
        (h.expression 0).andThen fun value value' hvalue => ?_
      exact (agree_make (by simp only [SameShape, Node.shapeSkeleton, hname, hvalue]) _ _).andThen
        hend
    · refine (h.expression 0).andThen fun value value' hvalue => ?_
      exact (agree_make (by simp only [SameShape, Node.shapeSkeleton, hvalue]) _ _).andThen hend

/-- Both runs read tables of one form. Counterpart of `Parser.table`. -/
theorem agree_table : Agree SameForm (table grammar) (table grammar) := by
  unfold table
  refine agree_started fun start place => agree_expected ?_
  refine (agree_many (agree_field h)).andThen fun fields fields' hfields => agree_expected ?_
  exact agree_make (by simp only [SameShape, Node.shapeSkeleton, hfields]) _ _

omit h in
/-- Both runs read the same literal. Counterpart of `Parser.literal`. -/
theorem agree_literal (kind : LiteralKind) : Agree SameForm (literal kind) (literal kind) := by
  unfold literal
  refine agree_read fun token other hkind htext => ?_
  rw [htext]
  exact agree_make rfl _ _

/-- Both runs start a chain of accesses with the same form. Counterpart of `Parser.primary`. -/
theorem agree_primary : Agree SameForm (primary grammar) (primary grammar) := by
  unfold primary
  refine agree_look fun token other hkind htext => ?_
  rw [hkind]
  split
  · exact agree_identifier
  · refine agree_read fun _ _ _ _ => (h.expression 0).andThen fun node node' hnode => ?_
    exact agree_expected (agree_pure hnode.parenthesise)
  · refine agree_faulted (.ite (fun _ => ?_) fun _ => ?_)
    · exact agree_makeInvalid token other
    · exact agree_read fun _ _ _ _ => agree_makeInvalid token other

/-- Both runs read calls of one form, from bases of one form. Counterpart of `Parser.call`. -/
theorem agree_call {base base' : Node} (hbase : SameForm base base') (start place : Nat) :
    Agree SameForm (call grammar base start) (call grammar base' place) := by
  unfold call
  refine agree_kind fun kind => ?_
  split
  · refine (agree_table h).andThen fun argument argument' hargument => agree_make ?_ _ _
    simp only [SameShape, Node.shapeSkeleton, hbase, hargument]
  · refine (agree_literal .string).andThen fun argument argument' hargument => agree_make ?_ _ _
    simp only [SameShape, Node.shapeSkeleton, hbase, hargument]
  · refine (agree_literal .longString).andThen fun argument argument' hargument => agree_make ?_ _ _
    simp only [SameShape, Node.shapeSkeleton, hbase, hargument]
  · have hend : ∀ nodes nodes' : List Node, SameForms nodes nodes' → Agree SameForm (do
        expect (.symbol .rightParen)
        make (.call base nodes) start) (do
        expect (.symbol .rightParen)
        make (.call base' nodes') place) := by
      intro nodes nodes' hnodes
      refine agree_expected (agree_make ?_ _ _)
      simp only [SameShape, Node.shapeSkeleton, hbase, hnodes]
    refine agree_expected (agree_kind fun next => .ite (fun _ => hend [] [] rfl) fun _ => ?_)
    exact (agree_expressionList h).andThen hend

/-- Both runs add the same access or call to a base, or both stop. Counterpart of
`Parser.suffix`. -/
theorem agree_suffix (start place : Nat) {base base' : Node} (hbase : SameForm base base') :
    Agree (Step SameForm) (suffix grammar start base) (suffix grammar place base') := by
  unfold suffix
  refine agree_kind fun kind => ?_
  split
  · refine agree_read fun _ _ _ _ => agree_identifier.andThen fun name name' hname => ?_
    refine (agree_make ?_ _ _).andThen fun node node' hnode => agree_pure ⟨hnode, rfl⟩
    simp only [SameShape, Node.shapeSkeleton, hbase, hname]
  · refine agree_read fun _ _ _ _ => (h.expression 0).andThen fun key key' hkey => agree_expected ?_
    refine (agree_make ?_ _ _).andThen fun node node' hnode => agree_pure ⟨hnode, rfl⟩
    simp only [SameShape, Node.shapeSkeleton, hbase, hkey]
  · refine agree_read fun _ _ _ _ => agree_identifier.andThen fun name name' hname => ?_
    refine (agree_make ?_ _ _).andThen fun method method' hmethod => agree_kind fun next => ?_
    · simp only [SameShape, Node.shapeSkeleton, hbase, hname]
    · refine .ite (fun _ => ?_) fun _ => ?_
      · exact (agree_call h hmethod _ _).andThen fun node node' hnode => agree_pure ⟨hnode, rfl⟩
      · exact agree_look fun _ _ _ _ => agree_faulted (agree_pure ⟨hmethod, rfl⟩)
  · refine .ite (fun _ => ?_) fun _ => agree_pure ⟨hbase, rfl⟩
    exact (agree_call h hbase _ _).andThen fun node node' hnode => agree_pure ⟨hnode, rfl⟩

/-- Both runs read chains of accesses and calls of one form. Counterpart of `Parser.suffixed`. -/
theorem agree_suffixed : Agree SameForm (suffixed grammar) (suffixed grammar) := by
  unfold suffixed
  refine agree_started fun start place => (agree_primary h).andThen fun base base' hbase => ?_
  exact agree_extend (fun _ _ => agree_suffix h start place) hbase

/-- Both runs read operands without an operator of one form. Counterpart of `Parser.simple`. -/
theorem agree_simple : Agree SameForm (simple grammar) (simple grammar) := by
  unfold simple
  refine agree_look fun token other hkind htext => ?_
  rw [hkind]
  split
  · exact agree_literal _
  · split
    · exact agree_table h
    · exact agree_read fun _ _ _ _ => agree_functionBody h _ _ rfl false
    · exact agree_suffixed h

/-- Both runs read operands of one form. Counterpart of `Parser.operand`. -/
theorem agree_operand : Agree SameForm (operand grammar) (operand grammar) := by
  unfold operand
  refine agree_look fun token other hkind htext => ?_
  rw [hkind]
  split
  · refine agree_read fun _ _ _ _ => (h.expression _).andThen fun node node' hnode =>
      agree_make ?_ _ _
    simp only [SameShape, Node.shapeSkeleton, hnode]
  · exact agree_simple h

/-- Both runs climb over the same operator, or both stop. Counterpart of `Parser.operation`. -/
theorem agree_operation (limit start place : Nat) {left left' : Node}
    (hleft : SameForm left left') :
    Agree (Step SameForm) (operation grammar limit start left)
      (operation grammar limit place left') := by
  unfold operation
  refine agree_kind fun kind => ?_
  split
  · refine .ite (fun _ => agree_pure ⟨hleft, rfl⟩) fun _ => agree_read fun _ _ _ _ => ?_
    refine (h.expression _).andThen fun right right' hright => ?_
    refine (agree_make ?_ _ _).andThen fun node node' hnode => agree_pure ⟨hnode, rfl⟩
    simp only [SameShape, Node.shapeSkeleton, hleft, hright]
  · exact agree_pure ⟨hleft, rfl⟩

/-- Both runs read expressions of one form. Counterpart of `Parser.expression`. -/
theorem agree_expression (limit : Nat) :
    Agree SameForm (expression grammar limit) (expression grammar limit) := by
  unfold expression
  refine agree_started fun start place => (agree_operand h).andThen fun left left' hleft => ?_
  exact agree_extend (fun _ _ => agree_operation h limit start place) hleft

/-! ## Statements -/

/-- Both runs read a `return` of one form. Counterpart of `Parser.returnStatement`. -/
theorem agree_returnStatement :
    Agree SameForm (returnStatement grammar) (returnStatement grammar) := by
  unfold returnStatement
  refine agree_started fun start place => agree_read fun _ _ _ _ => agree_kind fun kind => ?_
  have hend : ∀ nodes nodes' : List Node, SameForms nodes nodes' → Agree SameForm (do
      let _ ← accept (.symbol .semicolon)
      make (.returnStatement nodes) start) (do
      let _ ← accept (.symbol .semicolon)
      make (.returnStatement nodes') place) := by
    intro nodes nodes' hnodes
    refine agree_accepted fun _ => agree_make ?_ _ _
    simp only [SameShape, Node.shapeSkeleton, hnodes]
  exact .ite (fun _ => hend [] [] rfl) fun _ => (agree_expressionList h).andThen hend

/-- Both runs read branches of one form, and both go on or stop. Counterpart of `Parser.clause`. -/
theorem agree_clause : Agree (Step SameForms) (clause grammar) (clause grammar) := by
  unfold clause
  refine agree_read fun token other hkind htext => ?_
  rw [hkind]
  have hend : ∀ (kind : ClauseKind) (condition condition' : Option Node),
      SameOption condition condition' →
      Agree (Step SameForms) (do
        let body ← grammar.block
        let clause ← makeAt (.clause kind condition body) ⟨token.start, max (← start) token.start⟩
        let next ← currentKind
        return ([clause], decide (kind ≠ .elseClause ∧
          (next = .keyword .elseifK ∨ next = .keyword .elseK)))) (do
        let body ← grammar.block
        let clause ← makeAt (.clause kind condition' body) ⟨other.start, max (← start) other.start⟩
        let next ← currentKind
        return ([clause], decide (kind ≠ .elseClause ∧
          (next = .keyword .elseifK ∨ next = .keyword .elseK)))) := by
    intro kind condition condition' hcondition
    refine h.block.andThen fun body body' hbody => agree_started fun start place => ?_
    refine (agree_makeAt ?_ _ _).andThen fun clause clause' hclause => agree_kind fun next => ?_
    · simp only [SameShape, Node.shapeSkeleton, hcondition, hbody]
    · exact agree_pure ⟨hclause.single, rfl⟩
  refine .ite (fun _ => hend _ none none rfl) fun _ => ?_
  refine (h.expression 0).andThen fun condition condition' hcondition => agree_expected ?_
  exact hend _ (some condition) (some condition') hcondition.some

/-- Both runs read conditionals of one form. Counterpart of `Parser.conditional`. -/
theorem agree_conditional : Agree SameForm (conditional grammar) (conditional grammar) := by
  unfold conditional
  refine agree_started fun start place =>
    (agree_many (agree_clause h)).andThen fun nodes nodes' hnodes =>
    agree_expected (agree_make ?_ _ _)
  simp only [SameShape, Node.shapeSkeleton, hnodes]

/-- Both runs read `while` loops of one form. Counterpart of `Parser.whileLoop`. -/
theorem agree_whileLoop : Agree SameForm (whileLoop grammar) (whileLoop grammar) := by
  unfold whileLoop
  refine agree_started fun start place => agree_read fun _ _ _ _ => ?_
  refine (h.expression 0).andThen fun condition condition' hcondition => agree_expected ?_
  refine h.block.andThen fun body body' hbody => agree_expected (agree_make ?_ _ _)
  simp only [SameShape, Node.shapeSkeleton, hcondition, hbody]

/-- Both runs read blocks of one form. Counterpart of `Parser.doBlock`. -/
theorem agree_doBlock : Agree SameForm (doBlock grammar) (doBlock grammar) := by
  unfold doBlock
  refine agree_started fun start place => agree_read fun _ _ _ _ => ?_
  refine h.block.andThen fun body body' hbody => agree_expected (agree_make ?_ _ _)
  simp only [SameShape, Node.shapeSkeleton, hbody]

/-- Both runs read `repeat` loops of one form. Counterpart of `Parser.repeatLoop`. -/
theorem agree_repeatLoop : Agree SameForm (repeatLoop grammar) (repeatLoop grammar) := by
  unfold repeatLoop
  refine agree_started fun start place => agree_read fun _ _ _ _ => ?_
  refine h.block.andThen fun body body' hbody => agree_expected ?_
  refine (h.expression 0).andThen fun condition condition' hcondition => agree_make ?_ _ _
  simp only [SameShape, Node.shapeSkeleton, hcondition, hbody]

/-- Both runs read bodies of loops of the same forms. Counterpart of `Parser.loopBody`. -/
theorem agree_loopBody : Agree SameForms (loopBody grammar) (loopBody grammar) := by
  unfold loopBody
  exact agree_expected (h.block.andThen fun body body' hbody => agree_expected (agree_pure hbody))

/-- Both runs read `for` loops of one kind and one form. Counterpart of `Parser.forLoop`. -/
theorem agree_forLoop : Agree SameForm (forLoop grammar) (forLoop grammar) := by
  unfold forLoop
  refine agree_started fun start place => agree_read fun _ _ _ _ => ?_
  refine agree_identifier.andThen fun counter counter' hcounter =>
    agree_accepted fun isNumeric => ?_
  refine .ite (fun _ => ?_) fun _ => ?_
  · refine (h.expression 0).andThen fun first first' hfirst => agree_expected ?_
    refine (h.expression 0).andThen fun last last' hlast => agree_accepted fun hasStep => ?_
    have hend : ∀ step step' : Option Node, SameOption step step' → Agree SameForm (do
          let body ← loopBody grammar
          make (.numericFor counter first last step body) start) (do
          let body ← loopBody grammar
          make (.numericFor counter' first' last' step' body) place) := by
      intro step step' hstep
      refine (agree_loopBody h).andThen fun body body' hbody => agree_make ?_ _ _
      simp only [SameShape, Node.shapeSkeleton, hcounter, hfirst, hlast, hstep, hbody]
    refine .ite (fun _ => ?_) fun _ => hend none none rfl
    exact (Agree.map (h.expression 0) fun step step' => SameForm.some).andThen hend
  · have hend : ∀ others others' : List Node, SameForms others others' → Agree SameForm (do
          expect (.keyword .inK)
          let iterators ← expressionList grammar
          let body ← loopBody grammar
          make (.genericFor (counter :: others) iterators body) start) (do
          expect (.keyword .inK)
          let iterators ← expressionList grammar
          let body ← loopBody grammar
          make (.genericFor (counter' :: others') iterators body) place) := by
      intro others others' hothers
      refine agree_expected ((agree_expressionList h).andThen fun iterators iterators' hiterators =>
          ?_)
      refine (agree_loopBody h).andThen fun body body' hbody => agree_make ?_ _ _
      simp only [SameShape, Node.shapeSkeleton, hcounter.cons hothers, hiterators, hbody]
    refine agree_accepted fun hasOthers => .ite (fun _ => ?_) fun _ => hend [] [] rfl
    exact (agree_commaSeparated agree_identifier).andThen hend

omit h in
/-- Both runs add the same part to the name of a function, or both stop. Counterpart of
`Parser.namePart`. -/
theorem agree_namePart (start place : Nat) {base base' : Node} (hbase : SameForm base base') :
    Agree (Step SameForm) (namePart start base) (namePart place base') := by
  unfold namePart
  refine agree_kind fun kind => ?_
  split
  · refine agree_read fun _ _ _ _ => agree_identifier.andThen fun name name' hname => ?_
    refine (agree_make ?_ _ _).andThen fun node node' hnode => agree_pure ⟨hnode, rfl⟩
    simp only [SameShape, Node.shapeSkeleton, hbase, hname]
  · refine agree_read fun _ _ _ _ => agree_identifier.andThen fun name name' hname => ?_
    refine (agree_make ?_ _ _).andThen fun node node' hnode => agree_pure ⟨hnode, rfl⟩
    simp only [SameShape, Node.shapeSkeleton, hbase, hname]
  · exact agree_pure ⟨hbase, rfl⟩

/-- Both runs read function statements of one form. Counterpart of `Parser.functionStatement`. -/
theorem agree_functionStatement :
    Agree SameForm (functionStatement grammar) (functionStatement grammar) := by
  unfold functionStatement
  refine agree_read fun token other _ _ => agree_started fun start place => ?_
  refine agree_identifier.andThen fun base base' hbase => ?_
  refine (agree_extend (fun _ _ => agree_namePart start place) hbase).andThen
    fun name name' hname => ?_
  exact agree_functionBody h _ _ hname.some false

/-- Both runs read local functions or local variables of one form. Counterpart of
`Parser.localStatement`. -/
theorem agree_localStatement :
    Agree SameForm (localStatement grammar) (localStatement grammar) := by
  unfold localStatement
  refine agree_read fun token other _ _ => agree_accepted fun isFunction =>
    .ite (fun _ => ?_) fun _ => ?_
  · refine agree_identifier.andThen fun name name' hname => ?_
    exact agree_functionBody h _ _ hname.some true
  · refine (agree_commaSeparated agree_identifier).andThen fun names names' hnames => ?_
    have hend : ∀ values values' : List Node, SameForms values values' →
        Agree SameForm (make (.localVariables names values) token.start)
          (make (.localVariables names' values') other.start) := by
      intro values values' hvalues
      exact agree_make (by simp only [SameShape, Node.shapeSkeleton, hnames, hvalues]) _ _
    refine agree_accepted fun hasValues => .ite (fun _ => ?_) fun _ => hend [] [] rfl
    exact (agree_expressionList h).andThen hend

omit h in
/-- Both runs read the same label. Counterpart of `Parser.labelStatement`. -/
theorem agree_labelStatement : Agree SameForm labelStatement labelStatement := by
  unfold labelStatement
  refine agree_read fun token other _ _ => agree_identifier.andThen fun label label' hlabel =>
    agree_expected (agree_make ?_ _ _)
  simp only [SameShape, Node.shapeSkeleton, hlabel]

omit h in
/-- Both runs read the same `goto`. Counterpart of `Parser.gotoStatement`. -/
theorem agree_gotoStatement : Agree SameForm gotoStatement gotoStatement := by
  unfold gotoStatement
  refine agree_read fun token other _ _ => agree_identifier.andThen fun label label' hlabel =>
    agree_make ?_ _ _
  simp only [SameShape, Node.shapeSkeleton, hlabel]

omit h in
/-- Both runs read a `break`. Counterpart of `Parser.breakStatement`. -/
theorem agree_breakStatement : Agree SameForm breakStatement breakStatement := by
  unfold breakStatement
  exact agree_read fun token other _ _ => agree_make rfl _ _

omit h in
/-- Nothing is read when targets are checked. Counterpart of the loop of
`Parser.expressionStatement`. -/
theorem rest_checkTargets (targets : List Node) (s : ParseState) :
    ((forIn targets PUnit.unit fun target _ =>
      if isTarget target then pure (.yield PUnit.unit)
      else do
        fault (.invalidTarget target.span)
        pure (.yield PUnit.unit) : Parser PUnit) s).2.rest = s.rest := by
  induction targets generalizing s with
  | nil => rfl
  | cons target rest ih =>
    rw [List.forIn_cons]
    split
    · exact ih s
    · exact ih { s with faults := .invalidTarget target.span :: s.faults }

/-- Both runs read a call or an assignment of one form, and refuse the same ones. Counterpart of
`Parser.expressionStatement`. -/
theorem agree_expressionStatement :
    Agree SameForm (expressionStatement grammar) (expressionStatement grammar) := by
  unfold expressionStatement
  refine agree_started fun start place => (agree_suffixed h).andThen fun first first' hfirst => ?_
  refine agree_kind fun kind => .ite (fun _ => ?_) fun _ => ?_
  · have hend : ∀ others others' : List Node, SameForms others others' → Agree SameForm (do
        for target in first :: others do
          unless isTarget target do
            fault (.invalidTarget target.span)
        expect (.symbol .equal)
        let values ← expressionList grammar
        make (.assignment (first :: others) values) start) (do
        for target in first' :: others' do
          unless isTarget target do
            fault (.invalidTarget target.span)
        expect (.symbol .equal)
        let values ← expressionList grammar
        make (.assignment (first' :: others') values) place) := by
      intro others others' hothers
      refine Agree.andThen (R := Any) (fun s t hrest => ⟨trivial, ?_⟩) fun _ _ _ => ?_
      · rw [SameRest, rest_checkTargets, rest_checkTargets, hrest]
      · refine agree_expected ((agree_expressionList h).andThen fun values values' hvalues =>
          agree_make ?_ _ _)
        simp only [SameShape, Node.shapeSkeleton, hfirst.cons hothers, hvalues]
    refine agree_accepted fun hasOthers => .ite (fun _ => ?_) fun _ => hend [] [] rfl
    exact (agree_commaSeparated (agree_suffixed h)).andThen hend
  · have hmake : Agree SameForm (make (.callStatement first) start)
        (make (.callStatement first') place) :=
      agree_make (by simp only [SameShape, Node.shapeSkeleton, hfirst]) _ _
    rw [hfirst.isCall_eq, hfirst.isInvalid_eq]
    exact .ite (fun _ => hmake) fun _ => agree_faulted hmake

/-- Both runs choose the same rule for a statement and read the same form. Counterpart of
`Parser.statement`. -/
theorem agree_statement : Agree SameForm (statement grammar) (statement grammar) := by
  unfold statement
  refine agree_kind fun kind => ?_
  split
  · exact agree_conditional h
  · exact agree_whileLoop h
  · exact agree_doBlock h
  · exact agree_forLoop h
  · exact agree_repeatLoop h
  · exact agree_functionStatement h
  · exact agree_localStatement h
  · exact agree_labelStatement
  · exact agree_breakStatement
  · exact agree_gotoStatement
  · exact agree_expressionStatement h

/-- Both runs read items of a block of the same forms, and both go on or stop. Counterpart of
`Parser.blockItem`. -/
theorem agree_blockItem : Agree (Step SameForms) (blockItem grammar) (blockItem grammar) := by
  unfold blockItem
  refine agree_kind fun kind => .ite (fun _ => agree_pure ⟨rfl, rfl⟩) fun _ =>
    .ite (fun _ => ?_) fun _ =>
    .ite (fun _ => ?_) fun _ => ?_
  · exact agree_read fun _ _ _ _ => agree_pure ⟨rfl, rfl⟩
  · refine (agree_returnStatement h).andThen fun node node' hnode =>
      agree_look fun token other hkind _ => ?_
    rw [hkind]
    exact .ite (fun _ => agree_pure ⟨hnode.single, rfl⟩) fun _ =>
      agree_faulted (agree_pure ⟨hnode.single, rfl⟩)
  · exact (agree_statement h).andThen fun node node' hnode => agree_pure ⟨hnode.single, rfl⟩

/-- Both runs read blocks of the same forms. Counterpart of `Parser.block`. -/
theorem agree_block : Agree SameForms (block grammar) (block grammar) :=
  agree_many (agree_blockItem h)

end

/-! ## Whole files -/

/-- Every grammar is blind to positions. Counterpart of `Grammar.level`. -/
theorem isBlind_level (depth : Nat) : (Grammar.level depth).IsBlind := by
  induction depth with
  | zero =>
    refine ⟨fun limit => ?_, agree_pure rfl⟩
    exact agree_look fun token other _ _ => agree_faulted (agree_makeInvalid token other)
  | succ depth ih => exact ⟨agree_expression ih, agree_block ih⟩

/-- Both runs read files of the same forms. Counterpart of `Parser.chunk`. -/
theorem agree_chunk {grammar : Grammar} (h : grammar.IsBlind) :
    Agree SameForms (chunk grammar) (chunk grammar) := by
  refine agree_many (h.block.andThen fun body body' hbody => agree_kind fun kind => ?_)
  refine .ite (fun _ => agree_pure ⟨hbody, rfl⟩) fun _ => ?_
  exact agree_read fun _ _ _ _ => agree_faulted (agree_pure ⟨hbody, rfl⟩)

end Parser

/-- Sources with the same tokens are read as trees of the same form. Counterpart of `chunkRun`. -/
theorem sameForms_chunkRun {source other : List Char}
    (h : (parse source).tokens.map Token.content = (parse other).tokens.map Token.content) :
    SameForms (chunkRun source).1 (chunkRun other).1 := by
  have hlength : (parse source).tokens.length = (parse other).tokens.length := by
    simpa using congrArg List.length h
  have hrest : SameRest (Program.initialState source (parse source).tokens)
      (Program.initialState other (parse other).tokens) := h
  rw [chunkRun, chunkRun, hlength]
  exact (Parser.agree_chunk (Parser.isBlind_level _) _ _ hrest).1

end LuaFormatter
