import LuaFormatter.Proofs.Grammar.Run

/-!
# Expressions that were read without faults

The rules for expressions read what they derive, if they note no fault. The rules nest a grammar, so
each is shown under the assumption that this grammar `IsSound`.
-/

open LuaFormatter.Parser LuaFormatter.ParseState

namespace LuaFormatter

/-- A rule has read the tokens between two states. -/
def Parsed (rule : Rule) (s : ParseState) (nodes : List Node) (s' : ParseState) : Prop :=
  ∃ tokens, s.After tokens s' ∧ Derives true rule s.made s'.made tokens nodes

/-- An operator that comes next is left to the operation around a node. -/
def Leaves (limit : Nat) (node : Node) (kind : Kind) : Prop :=
  ∀ op, BinaryOp.ofKind? kind = some op → op.leftPriority ≤ limit ∧ node.Below op.leftPriority

/-- A parenthesis that comes next does not call what a node ends with. -/
def Uncalled (node : Node) (kind : Kind) : Prop :=
  kind = .symbol .leftParen → node.rightmost.isCallable = false

/-- A parenthesis does not call a literal. Counterpart of `Node.isCallable`. -/
theorem uncalled_literal {number : Nat} {span : Span} {literal : LiteralKind} {text : String}
    {kind : Kind} : Uncalled ⟨number, .literal literal text, span, false⟩ kind := by
  intro _
  rw [Node.rightmost]
  rfl

/-- A parenthesis does not call a table. Counterpart of `Node.isCallable`. -/
theorem uncalled_table {number : Nat} {span : Span} {fields : List Node} {kind : Kind} :
    Uncalled ⟨number, .table fields, span, false⟩ kind := by
  intro _
  rw [Node.rightmost]
  rfl

/-- A parenthesis does not call a function that is no statement. Counterpart of
`Node.isCallable`. -/
theorem uncalled_function {number : Nat} {span : Span} {isLocal : Bool} {name : Option Node}
    {parameters body : List Node} {kind : Kind} :
    Uncalled ⟨number, .function isLocal name parameters body, span, false⟩ kind := by
  intro _
  rw [Node.rightmost]
  rfl

/-- An operation with one operand ends with what its operand ends with. Counterpart of
`Uncalled`. -/
theorem Uncalled.unary {number : Nat} {span : Span} {op : UnaryOp} {operand : Node} {kind : Kind}
    (h : Uncalled operand kind) : Uncalled ⟨number, .unary op operand, span, false⟩ kind := by
  intro hparen
  rw [Node.rightmost]
  exact h hparen

/-- An operation with two operands ends with what the second one ends with. Counterpart of
`Uncalled`. -/
theorem Uncalled.binary {number : Nat} {span : Span} {op : BinaryOp} {left right : Node}
    {kind : Kind} (h : Uncalled right kind) :
    Uncalled ⟨number, .binary op left right, span, false⟩ kind := by
  intro hparen
  rw [Node.rightmost]
  exact h hparen

/-- An expression has been read under a limit. -/
structure ParsedUnder (limit : Nat) (s : ParseState) (node : Node) (s' : ParseState) : Prop where
  parsed : Parsed .expression s [node] s'
  above : node.Above limit
  leaves : Leaves limit node s'.kind
  uncalled : Uncalled node s'.kind

/-- The rules of a grammar read what they derive. -/
structure Grammar.IsSound (grammar : Grammar) : Prop where
  expression (limit : Nat) : Sound (grammar.expression limit) (ParsedUnder limit)
  block : Sound grammar.block (Parsed .block)

/-- The place of one token is its own. Counterpart of `tokensSpan`. -/
theorem tokensSpan_single (token : Token) : tokensSpan [token] = token.span := by
  simp [tokensSpan, Token.span, Token.stop]

/-! ## Names and literals -/

/-- Where no fault is noted, a name is read. Counterpart of `Parser.identifier`. -/
theorem sound_identifier :
    Sound identifier fun s node s' =>
      s.kind = .identifier ∧ node = nameOf s.made s.token ∧ s' = s.advanced.numbered := by
  unfold identifier
  refine sound_current.andThen fun token => Sound.ite (fun hkind => ?_) (fun hkind => ?_)
  · refine sound_advance.andThen fun _ => (sound_makeAt _ _).imp ?_
    rintro m node s' ⟨rfl, rfl⟩ s ⟨-, hadvanced⟩ _ ⟨rfl, rfl⟩
    cases hadvanced (by simp [kind, hkind])
    exact ⟨hkind, by rw [nameOf, nodeOf, tokensSpan_single]; rfl, rfl⟩
  · exact sound_fault_andThen _ fun _ => (sound_makeAt _ _).imp fun _ _ _ _ => trivial

/-- The literal is the token it is read from. Counterpart of `Parser.literal`. -/
theorem sound_literal (kind : LiteralKind) :
    Sound (literal kind) fun s node s' =>
      s.kind ≠ .endOfFile → node = nodeOf s.made (.literal kind (textOf s.token)) [s.token] ∧
        s' = s.advanced.numbered := by
  unfold literal
  refine sound_advance.andThen fun token => (sound_make _ _).imp ?_
  rintro m node s' ⟨rfl, rfl⟩ s ⟨rfl, hadvanced⟩ hkind
  cases hadvanced hkind
  exact ⟨by rw [nodeOf, ← (After.advanced hkind).span_eq (by simp)]; rfl, rfl⟩

/-! ## Lists -/

section
variable {α : Type} {R : ParseState → α → ParseState → Prop}

/-- Items with commas between them have been read. -/
inductive Listed (R : ParseState → α → ParseState → Prop) :
    ParseState → List α → ParseState → Prop
  | last {item : α} {s s' : ParseState} : R s item s' → Listed R s [item] s'
  | more {item : α} {items : List α} {s m s' : ParseState} : R s item m →
    m.kind = .symbol .comma → Listed R m.advanced items s' → Listed R s (item :: items) s'

/-- Where no fault is noted, items are read with commas between them. Counterpart of
`Parser.commaSeparated`. -/
theorem sound_commaSeparated {item : Parser α} (h : Sound item R)
    (hafter : ∀ s a s', R s a s' → ∃ tokens, s.After tokens s') :
    Sound (commaSeparated item) (Listed R) := by
  have hround : Sound (do let value ← item; return ([value], ← accept (.symbol .comma)))
      fun s result s' => ∃ value m, R s value m ∧ result.1 = [value] ∧
        ((result.2 = true ∧ m.kind = .symbol .comma ∧ s' = m.advanced) ∨
          (result.2 = false ∧ m.kind ≠ .symbol .comma ∧ s' = m)) :=
    h.andThen fun value => (sound_accept (by simp)).andThen fun accepted =>
      Sound.pure fun s' m haccept s hvalue => ⟨value, m, hvalue, rfl, haccept⟩
  refine hround.many.imp fun s items s' hitems => ?_
  induction hitems with
  | stop hround hlength =>
    obtain ⟨value, m, hvalue, rfl, ⟨hgo, hcomma, rfl⟩ | ⟨-, -, rfl⟩⟩ := hround
    · obtain ⟨tokens, hread⟩ := hafter _ _ _ hvalue
      have hlast := (After.read hcomma (by simp) : m.After [m.token] m.advanced)
      have := hlength hgo
      have := (hread.trans hlast).length_rest
      simp only [List.length_append, List.length_singleton] at this
      omega
    · exact .last hvalue
  | more hround _ ih =>
    obtain ⟨value, m, hvalue, rfl, ⟨-, hcomma, rfl⟩ | ⟨hgo, -⟩⟩ := hround
    · exact .more hvalue hcomma ih
    · cases hgo

end

/-- Expressions with commas between them are what a rule for expressions reads. Counterpart of
`Derives.lastExpression` and `Derives.moreExpressions`. -/
theorem listed_expressions {s s' : ParseState} {nodes : List Node}
    (h : Listed (ParsedUnder 0) s nodes s') : Parsed .expressions s nodes s' := by
  induction h with
  | last hnode =>
    obtain ⟨tokens, hafter, hderives⟩ := hnode.parsed
    exact ⟨tokens, hafter, .lastExpression hderives⟩
  | more hnode hcomma _ ih =>
    obtain ⟨tokens, hafter, hderives⟩ := hnode.parsed
    obtain ⟨others, hothers, hrest⟩ := ih
    exact ⟨_, hafter.trans ((After.read hcomma (by simp)).trans hothers),
      .moreExpressions hcomma hderives hrest⟩

/-- A parenthesis that comes next does not call what the last of some values ends with. -/
def UncalledLast (values : List Node) (kind : Kind) : Prop :=
  kind = .symbol .leftParen → (values.getLast?.map Node.rightmost).any Node.isCallable = false

/-- Read expressions are at least one, and the last is not called by what follows. Counterpart of
`UncalledLast`. -/
theorem listed_uncalled {s s' : ParseState} {nodes : List Node}
    (h : Listed (ParsedUnder 0) s nodes s') : nodes ≠ [] ∧ UncalledLast nodes s'.kind := by
  induction h with
  | last hnode => exact ⟨List.cons_ne_nil _ _, hnode.uncalled⟩
  | more _ _ _ ih =>
    refine ⟨List.cons_ne_nil _ _, ?_⟩
    rw [UncalledLast, List.getLast?_cons_of_ne_nil ih.1]
    exact ih.2

/-- Values have been read, and what follows does not call the last of them. Counterpart of
`Parser.expressionList`. -/
theorem sound_values {grammar : Grammar} (h : grammar.IsSound) :
    Sound (expressionList grammar) fun s nodes s' =>
      Parsed .expressions s nodes s' ∧ UncalledLast nodes s'.kind :=
  (sound_commaSeparated (h.expression 0) fun _ _ _ hnode =>
    ⟨_, hnode.parsed.choose_spec.1⟩).imp fun _ _ _ hnodes =>
      ⟨listed_expressions hnodes, (listed_uncalled hnodes).2⟩

/-- Where no fault is noted, expressions are read. Counterpart of `Parser.expressionList`. -/
theorem sound_expressionList {grammar : Grammar} (h : grammar.IsSound) :
    Sound (expressionList grammar) (Parsed .expressions) :=
  (sound_values h).imp fun _ _ _ => And.left

/-- A name has been read. -/
def ParsedName (s : ParseState) (node : Node) (s' : ParseState) : Prop :=
  s.kind = .identifier ∧ node = nameOf s.made s.token ∧ s' = s.advanced.numbered

/-- A name that is read takes one token. Counterpart of `ParsedName`. -/
theorem ParsedName.after {s s' : ParseState} {node : Node} (h : ParsedName s node s') :
    s.After [s.token] s' := by
  obtain ⟨hkind, -, rfl⟩ := h
  exact (After.read hkind (by simp)).numbered

/-- Where no fault is noted, names with commas between them are read. Counterpart of
`Parser.commaSeparated` for `Parser.identifier`. -/
theorem sound_names : Sound (commaSeparated identifier) (Parsed .names) := by
  refine (sound_commaSeparated sound_identifier fun _ _ _ h => ⟨_, ParsedName.after h⟩).imp ?_
  intro s nodes s' h
  induction h with
  | last hname =>
    have hafter := ParsedName.after hname
    obtain ⟨hkind, rfl, rfl⟩ := hname
    exact ⟨_, hafter, .lastName hkind⟩
  | more hname hcomma _ ih =>
    have hafter := ParsedName.after hname
    obtain ⟨hkind, rfl, rfl⟩ := hname
    obtain ⟨others, hothers, hrest⟩ := ih
    exact ⟨_, hafter.trans ((After.read hcomma (by simp)).trans hothers),
      .moreNames hkind hcomma hrest⟩

/-! ## Functions -/

/-- One parameter has been read, and the comma after it if there is one. -/
def ParsedParameter (s : ParseState) (result : List Node × Bool) (s' : ParseState) : Prop :=
  (∃ node m, ParsedName s node m ∧ result.1 = [node] ∧
    ((result.2 = true ∧ m.kind = .symbol .comma ∧ s' = m.advanced) ∨
      (result.2 = false ∧ s' = m))) ∨
  (s.kind = .symbol .dotDotDot ∧ result.2 = false ∧ s' = s.advanced.numbered ∧
    result.1 = [nodeOf s.made (.literal .vararg (textOf s.token)) [s.token]])

/-- Where no fault is noted, a parameter is read. Counterpart of `Parser.parameter`. -/
theorem sound_parameter : Sound parameter ParsedParameter := by
  unfold parameter
  refine sound_current.andThen fun token => ?_
  split
  · refine sound_identifier.andThen fun name => (sound_accept (by simp)).andThen fun accepted =>
      Sound.pure ?_
    rintro s' m haccept s hname _ ⟨-, rfl⟩
    refine .inl ⟨name, m, hname, rfl, ?_⟩
    obtain haccept | ⟨hno, -, rfl⟩ := haccept
    · exact .inl haccept
    · exact .inr ⟨hno, rfl⟩
  · rename_i hkind
    refine sound_advance.andThen fun _ => (sound_make _ _).andThen fun node => Sound.pure ?_
    rintro s' m ⟨rfl, rfl⟩ s ⟨-, hadvanced⟩ _ ⟨rfl, rfl⟩
    have hend : s.kind ≠ .endOfFile := by simp [kind, hkind]
    cases hadvanced hend
    refine .inr ⟨hkind, rfl, rfl, ?_⟩
    rw [nodeOf, ← (After.advanced hend).span_eq (by simp)]
    rfl
  · exact sound_fault_andThen _ fun _ => Sound.pure fun _ => trivial

/-- Where no fault is noted, at least one parameter is read. Counterpart of `Parser.many` for
`Parser.parameter`. -/
theorem sound_parameters :
    Sound (many parameter) fun s nodes s' => Parsed .parameters s nodes s' ∧ nodes ≠ [] := by
  refine sound_parameter.many.imp fun s nodes s' h => ?_
  induction h with
  | stop hround hlength =>
    obtain ⟨name, m, hname, rfl, ⟨hgo, hcomma, rfl⟩ | ⟨-, rfl⟩⟩ | ⟨hkind, -, rfl, rfl⟩ := hround
    · have hlast := (After.read hcomma (by simp) : m.After [m.token] m.advanced)
      have := hlength hgo
      have := (hname.after.trans hlast).length_rest
      simp only [List.length_append, List.length_singleton] at this
      omega
    · have hafter := hname.after
      obtain ⟨hkind, rfl, rfl⟩ := hname
      exact ⟨⟨_, hafter, .lastParameter hkind⟩, by simp⟩
    · exact ⟨⟨_, (After.read hkind (by simp)).numbered, .varargs hkind⟩, by simp⟩
  | more hround _ ih =>
    obtain ⟨name, m, hname, rfl, ⟨-, hcomma, rfl⟩ | ⟨hgo, -⟩⟩ | ⟨-, hgo, -⟩ := hround
    · have hafter := hname.after
      obtain ⟨hkind, rfl, rfl⟩ := hname
      obtain ⟨⟨others, hothers, hrest⟩, hne⟩ := ih
      exact ⟨⟨_, hafter.trans ((After.read hcomma (by simp)).trans hothers),
        .moreParameters hkind hcomma hne hrest⟩, by simp⟩
    · cases hgo
    · cases hgo

/-- The parameters and the body of a function have been read, and the node has been made. -/
def ParsedBody (start : Nat) (name : Option Node) (isLocal : Bool) (s : ParseState) (node : Node)
    (s' : ParseState) : Prop :=
  ∃ (l r e : Token) (ps bs : List Token) (parameters body : List Node) (b c : Nat),
    l.kind = .symbol .leftParen ∧ r.kind = .symbol .rightParen ∧ e.kind = .keyword .endK ∧
    Derives true .parameters s.made b ps parameters ∧ Derives true .block b c bs body ∧
    s.After (routine l ps r bs e) s' ∧ s'.made = c + 1 ∧
    node = ⟨c, .function isLocal name parameters body, ⟨start, max s'.previousStop start⟩, false⟩

/-- Where no fault is noted, parameters and a body are read. Counterpart of
`Parser.functionBody`. -/
theorem sound_functionBody {grammar : Grammar} (h : grammar.IsSound) (start : Nat)
    (name : Option Node) (isLocal : Bool) :
    Sound (functionBody grammar start name isLocal) (ParsedBody start name isLocal) := by
  unfold functionBody
  refine (sound_expect (by simp)).andThen fun _ => ?_
  have hrest : ∀ parameters : List Node, Sound (do
      expect (.symbol .rightParen)
      let body ← grammar.block
      expect (.keyword .endK)
      make (.function isLocal name parameters body) start)
      fun s node s' => ∃ (bs : List Token) (body : List Node) (c : Nat) (r e : Token),
        r.kind = .symbol .rightParen ∧ e.kind = .keyword .endK ∧
        Derives true .block s.made c bs body ∧ s.After (r :: (bs ++ [e])) s' ∧ s'.made = c + 1 ∧
        node = ⟨c, .function isLocal name parameters body,
          ⟨start, max s'.previousStop start⟩, false⟩ := by
    intro parameters
    refine (sound_expect (by simp)).andThen fun _ => h.block.andThen fun body =>
      (sound_expect (by simp)).andThen fun _ => (sound_make _ _).imp ?_
    rintro _ node s' ⟨rfl, rfl⟩ m ⟨hend, rfl⟩ _ ⟨bs, hafter, hbody⟩ s ⟨hright, rfl⟩
    exact ⟨bs, body, m.made, s.token, m.token, hright, hend, hbody,
      ((After.read hright (by simp)).trans
        (hafter.trans (After.read hend (by simp)))).numbered, rfl, rfl⟩
  refine (sound_currentKind.andThen fun found => Sound.ite (fun _ => ?_) (fun _ => ?_))
  · refine (hrest []).imp ?_
    rintro _ node s' ⟨bs, body, c, r, e, hr, he, hbody, hafter, hmade, rfl⟩ _ ⟨-, rfl⟩ s
      ⟨hleft, rfl⟩
    exact ⟨s.token, r, e, [], bs, [], body, _, c, hleft, hr, he, .noParameters, hbody,
      (After.read hleft (by simp)).trans hafter, hmade, rfl⟩
  · refine sound_parameters.andThen fun parameters => (hrest parameters).imp ?_
    rintro _ node s' ⟨bs, body, c, r, e, hr, he, hbody, hafter, hmade, rfl⟩ _
      ⟨⟨ps, hps, hparams⟩, -⟩ _ ⟨-, rfl⟩ s ⟨hleft, rfl⟩
    exact ⟨s.token, r, e, ps, bs, parameters, body, _, c, hleft, hr, he, hparams, hbody,
      (After.read hleft (by simp)).trans (hps.trans hafter), hmade, rfl⟩

/-- What is read of a function is what its rule reads, whichever tokens stand in front. Counterpart
of the three rules for functions of `Derives`. -/
theorem ParsedBody.derives {isLocal : Bool} {name : Option Node} {s₀ s s' : ParseState}
    {node : Node} {front : List Token}
    (hbody : ParsedBody s₀.token.start name isLocal s node s') (hfront : s₀.After front s)
    {rule : Rule} {a : Nat}
    (h : ∀ (l r e : Token) (ps bs : List Token) (parameters body : List Node) (b c : Nat),
      l.kind = .symbol .leftParen → r.kind = .symbol .rightParen → e.kind = .keyword .endK →
      Derives true .parameters s.made b ps parameters → Derives true .block b c bs body →
      Derives true rule a (c + 1) (front ++ routine l ps r bs e)
        [nodeOf c (.function isLocal name parameters body) (front ++ routine l ps r bs e)])
    (ha : a = s₀.made) : Parsed rule s₀ [node] s' := by
  obtain ⟨l, r, e, ps, bs, parameters, body, b, c, hl, hr, he, hps, hbs, hafter, hmade, rfl⟩ :=
    hbody
  have hall := hfront.trans hafter
  refine ⟨_, hall, ?_⟩
  rw [hall.span_eq (by simp), hmade, ← ha]
  exact h l r e ps bs parameters body b c hl hr he hps hbs

/-! ## Tables -/

/-- Where no fault is noted, a field is read or the table ends. Counterpart of `Parser.field`. -/
theorem sound_field {grammar : Grammar} (h : grammar.IsSound) :
    Sound (field grammar) fun s result s' =>
      (result = ([], false) ∧ s' = s) ∨
        ∃ node m, result.1 = [node] ∧ Parsed .field s [node] m ∧
          ((result.2 = true ∧ (m.kind = .symbol .comma ∨ m.kind = .symbol .semicolon) ∧
            s' = m.advanced) ∨ (result.2 = false ∧ s' = m)) := by
  have hseparator : ∀ node : Node, Sound (do
      let comma ← accept (.symbol .comma)
      let separated ← if comma then pure true else accept (.symbol .semicolon)
      return (([node], separated) : List Node × Bool))
      fun m result s' => result.1 = [node] ∧
        ((result.2 = true ∧ (m.kind = .symbol .comma ∨ m.kind = .symbol .semicolon) ∧
          s' = m.advanced) ∨ (result.2 = false ∧ s' = m)) := by
    intro node
    refine (sound_accept (by simp)).andThen fun comma => ?_
    cases comma with
    | true =>
      refine Sound.pure ?_
      rintro _ m (⟨-, hcomma, rfl⟩ | ⟨hfalse, -⟩)
      · exact ⟨rfl, .inl ⟨rfl, .inl hcomma, rfl⟩⟩
      · cases hfalse
    | false =>
      refine (sound_accept (by simp)).andThen fun semicolon => Sound.pure ?_
      rintro _ m haccept _ (⟨hfalse, -⟩ | ⟨-, -, rfl⟩)
      · cases hfalse
      · obtain ⟨hgo, hkind, rfl⟩ | ⟨hgo, -, rfl⟩ := haccept
        · exact ⟨rfl, .inl ⟨hgo, .inr hkind, rfl⟩⟩
        · exact ⟨rfl, .inr ⟨hgo, rfl⟩⟩
  unfold field
  refine sound_current.andThen fun token => ?_
  split
  · refine Sound.pure ?_
    rintro _ s ⟨-, rfl⟩
    exact .inl ⟨rfl, rfl⟩
  · refine Sound.pure ?_
    rintro _ s ⟨-, rfl⟩
    exact .inl ⟨rfl, rfl⟩
  · refine sound_followingKind.andThen fun following => Sound.ite (fun hkind => ?_) (fun _ =>
      Sound.ite (fun hnamed => ?_) (fun _ => ?_))
    · refine sound_advance.andThen fun _ => (h.expression 0).andThen fun key =>
        (sound_expect (by simp)).andThen fun _ => (sound_expect (by simp)).andThen fun _ =>
        (h.expression 0).andThen fun value => (sound_make _ _).andThen fun node =>
        (hseparator node).imp ?_
      rintro _ result s' hresult m ⟨rfl, rfl⟩ _ hvalue _ ⟨hequal, rfl⟩ k ⟨hright, rfl⟩ _ hkey s
        ⟨-, hadvanced⟩ _ ⟨-, rfl⟩ _ ⟨rfl, rfl⟩
      have hend : s.kind ≠ .endOfFile := by simp [kind, hkind]
      cases hadvanced hend
      obtain ⟨ks, hks, hkey⟩ := hkey.parsed
      obtain ⟨vs, hvs, hvalue⟩ := hvalue.parsed
      have hall := (After.advanced hend).trans (hks.trans ((After.read hright (by simp)).trans
        ((After.read hequal (by simp)).trans hvs)))
      refine .inr ⟨_, _, hresult.1, ⟨_, hall.numbered, ?_⟩, hresult.2⟩
      rw [hall.span_eq (by simp)]
      exact .keyField hkind hright hequal hkey hvalue
    · refine sound_identifier.andThen fun name => sound_advance.andThen fun _ =>
        (h.expression 0).andThen fun value => (sound_make _ _).andThen fun node =>
        (hseparator node).imp ?_
      rintro _ result s' hresult m ⟨rfl, rfl⟩ _ hvalue k ⟨-, hadvanced⟩ s ⟨hkind, rfl, rfl⟩
        _ ⟨rfl, rfl⟩ _ ⟨rfl, rfl⟩
      have hname := (After.read hkind (by simp) : s.After [s.token] s.advanced)
      have hequal : s.advanced.numbered.kind = .symbol .equal := by
        rw [← hnamed.2]
        simp only [kind, ParseState.token, ParseState.advanced, numbered]
        cases s.rest.tail <;> rfl
      cases hadvanced (by simp [hequal])
      obtain ⟨vs, hvs, hvalue⟩ := hvalue.parsed
      have hall := hname.numbered.trans ((After.read hequal (by simp)).trans hvs)
      refine .inr ⟨_, _, hresult.1, ⟨_, hall.numbered, ?_⟩, hresult.2⟩
      rw [hall.span_eq (by simp)]
      exact .nameField hkind hequal hvalue
    · refine (h.expression 0).andThen fun value => (sound_make _ _).andThen fun node =>
        (hseparator node).imp ?_
      rintro _ result s' hresult m ⟨rfl, rfl⟩ s hvalue _ ⟨-, rfl⟩ _ ⟨rfl, rfl⟩
      obtain ⟨vs, hvs, hvalue⟩ := hvalue.parsed
      refine .inr ⟨_, _, hresult.1, ⟨_, hvs.numbered, ?_⟩, hresult.2⟩
      rw [hvs.span_eq (hvalue.ne_nil rfl)]
      exact .valueField hvalue

/-- Where no fault is noted, the fields of a table are read. Counterpart of `Parser.many` for
`Parser.field`. -/
theorem sound_fields {grammar : Grammar} (h : grammar.IsSound) :
    Sound (many (field grammar)) (Parsed .fields) := by
  refine (sound_field h).many.imp fun s nodes s' hitems => ?_
  induction hitems with
  | stop hround hlength =>
    obtain ⟨hresult, rfl⟩ | ⟨node, m, rfl, ⟨ts, hafter, hfield⟩, ⟨hgo, hkind, rfl⟩ | ⟨-, rfl⟩⟩ :=
      hround
    · cases hresult
      exact ⟨[], .refl _, .noFields⟩
    · have hlast := (After.advanced (by rcases hkind with h | h <;> simp [h]) :
        m.After [m.token] m.advanced)
      have := hlength hgo
      have := (hafter.trans hlast).length_rest
      simp only [List.length_append, List.length_singleton] at this
      omega
    · exact ⟨ts, hafter, .lastField hfield⟩
  | more hround _ ih =>
    obtain ⟨hresult, rfl⟩ | ⟨node, m, rfl, ⟨ts, hafter, hfield⟩, ⟨-, hkind, rfl⟩ | ⟨hgo, -⟩⟩ :=
      hround
    · cases hresult
    · obtain ⟨us, hus, hfields⟩ := ih
      exact ⟨_, hafter.trans ((After.advanced (by rcases hkind with h | h <;> simp [h])).trans hus),
        .moreFields hkind hfield hfields⟩
    · cases hgo

/-- A table has been read. -/
def ParsedTable (s : ParseState) (node : Node) (s' : ParseState) : Prop :=
  ∃ (l r : Token) (ts : List Token) (fields : List Node) (b : Nat),
    l.kind = .symbol .leftCurly ∧ r.kind = .symbol .rightCurly ∧
    Derives true .fields s.made b ts fields ∧ s.After (l :: (ts ++ [r])) s' ∧ s'.made = b + 1 ∧
    node = nodeOf b (.table fields) (l :: (ts ++ [r]))

/-- Where no fault is noted, a table is read. Counterpart of `Parser.table`. -/
theorem sound_table {grammar : Grammar} (h : grammar.IsSound) :
    Sound (table grammar) ParsedTable := by
  unfold table
  refine sound_start.andThen fun start => (sound_expect (by simp)).andThen fun _ =>
    (sound_fields h).andThen fun fields => (sound_expect (by simp)).andThen fun _ =>
    (sound_make _ _).imp ?_
  rintro _ node s' ⟨rfl, rfl⟩ m ⟨hright, rfl⟩ _ ⟨ts, hts, hfields⟩ s ⟨hleft, rfl⟩ _ ⟨rfl, rfl⟩
  have hall : s.After (s.token :: (ts ++ [m.token])) m.advanced :=
    (After.read hleft (by simp)).trans (hts.trans (After.read hright (by simp)))
  refine ⟨s.token, m.token, ts, fields, m.made, hleft, hright, hfields, hall.numbered, rfl, ?_⟩
  rw [nodeOf, ← hall.span_eq (by simp)]
  rfl

/-! ## Accesses and calls -/

/-- A value that can be accessed or called has been read. -/
def ParsedBase (s : ParseState) (node : Node) (s' : ParseState) : Prop :=
  Parsed .expression s [node] s' ∧ node.canBeBase = true

/-- A table that is read is what the rule for tables reads. Counterpart of `Derives.table`. -/
theorem ParsedTable.derives {s s' : ParseState} {node : Node} (h : ParsedTable s node s') :
    Parsed .expression s [node] s' := by
  obtain ⟨l, r, ts, fields, b, hl, hr, hfields, hafter, hmade, rfl⟩ := h
  exact ⟨_, hafter, hmade ▸ .table hl hr hfields⟩

/-- Where no fault is noted, a name or an expression in parentheses is read. Counterpart of
`Parser.primary`. -/
theorem sound_primary {grammar : Grammar} (h : grammar.IsSound) :
    Sound (primary grammar) ParsedBase := by
  unfold primary
  refine sound_current.andThen fun token => ?_
  split
  · refine sound_identifier.imp ?_
    rintro m node s' hname s ⟨-, rfl⟩
    have hafter := ParsedName.after hname
    obtain ⟨hkind, rfl, rfl⟩ := hname
    exact ⟨⟨_, hafter, .identifier hkind⟩, rfl⟩
  · rename_i hkind
    refine sound_advance.andThen fun _ => (h.expression 0).andThen fun node =>
      (sound_expect (by simp)).andThen fun _ => Sound.pure ?_
    rintro _ m ⟨hright, rfl⟩ _ hnode s ⟨-, hadvanced⟩ _ ⟨rfl, rfl⟩
    have hend : s.kind ≠ .endOfFile := by simp [kind, hkind]
    cases hadvanced hend
    obtain ⟨ts, hts, hderives⟩ := hnode.parsed
    refine ⟨⟨_, (After.advanced hend).trans (hts.trans (After.read hright (by simp))),
      .parens hkind hright hderives⟩, ?_⟩
    obtain ⟨number, shape, span, inParens⟩ := node
    rfl
  · refine sound_fault_andThen _ fun _ => ?_
    have hmake : Sound (makeInvalid token) fun _ _ _ => True :=
      (sound_makeAt _ _).imp fun _ _ _ _ => trivial
    dsimp only
    split
    · exact hmake
    · exact sound_advance.andThen fun _ => hmake.imp fun _ _ _ _ _ _ => trivial

/-- Where no fault is noted, a call of what was read before is read. Counterpart of
`Parser.call`. -/
theorem sound_call {grammar : Grammar} (h : grammar.IsSound) (base : Node) (start : Nat) :
    Sound (call grammar base start) fun m node s' => s'.rest.length < m.rest.length ∧
      ∀ s, start = s.token.start → Parsed .callee s [base] m → ParsedBase s node s' := by
  unfold call
  refine sound_currentKind.andThen fun found => ?_
  split
  · refine (sound_table h).andThen fun argument => (sound_make _ _).imp ?_
    rintro m node s' ⟨rfl, rfl⟩ _ ⟨l, r, us, fields, b, hl, hr, hfields, hafter, hmade, rfl⟩
      _ ⟨-, rfl⟩
    refine ⟨hafter.shorter (by simp), ?_⟩
    rintro s rfl ⟨ts, hts, hbase⟩
    have hall := hts.trans hafter
    refine ⟨⟨_, hall.numbered, ?_⟩, rfl⟩
    rw [hall.span_eq (by simp)]
    show Derives true .expression s.made (m.made + 1) _ [nodeOf m.made _ _]
    rw [hmade]
    exact .tableCall hl hr hbase hfields
  · refine (sound_literal _).andThen fun argument => (sound_make _ _).imp ?_
    rintro _ node s' ⟨rfl, rfl⟩ m hliteral _ ⟨hkind, rfl⟩
    obtain ⟨rfl, rfl⟩ := hliteral (by simp [← hkind])
    refine ⟨(After.read hkind.symm (by simp)).shorter (by simp), ?_⟩
    rintro s rfl ⟨ts, hts, hbase⟩
    have hall := hts.trans (After.read hkind.symm (by simp)).numbered
    refine ⟨⟨_, hall.numbered, ?_⟩, rfl⟩
    rw [hall.span_eq (by simp)]
    refine .stringCall ?_ ?_ hbase <;> rw [show m.token.kind = _ from hkind.symm] <;> rfl
  · refine (sound_literal _).andThen fun argument => (sound_make _ _).imp ?_
    rintro _ node s' ⟨rfl, rfl⟩ m hliteral _ ⟨hkind, rfl⟩
    obtain ⟨rfl, rfl⟩ := hliteral (by simp [← hkind])
    refine ⟨(After.read hkind.symm (by simp)).shorter (by simp), ?_⟩
    rintro s rfl ⟨ts, hts, hbase⟩
    have hall := hts.trans (After.read hkind.symm (by simp)).numbered
    refine ⟨⟨_, hall.numbered, ?_⟩, rfl⟩
    rw [hall.span_eq (by simp)]
    refine .stringCall ?_ ?_ hbase <;> rw [show m.token.kind = _ from hkind.symm] <;> rfl
  · have hrest : ∀ arguments : List Node, Sound (do
        expect (.symbol .rightParen)
        make (.call base arguments) start)
        fun m node s' => m.kind = .symbol .rightParen ∧ s' = m.advanced.numbered ∧
          node = ⟨m.made, .call base arguments,
            ⟨start, max m.advanced.previousStop start⟩, false⟩ := by
      refine fun arguments => (sound_expect (by simp)).andThen fun _ => (sound_make _ _).imp ?_
      rintro _ node s' ⟨rfl, rfl⟩ m ⟨hright, rfl⟩
      exact ⟨hright, rfl, rfl⟩
    -- The two branches differ only in the arguments.
    have hcall : ∀ (arguments : List Node) (m k s : ParseState) (us : List Token),
        m.kind = .symbol .leftParen → m.advanced.After us k →
        Derives true .arguments m.made k.made us arguments → k.kind = .symbol .rightParen →
        Parsed .callee s [base] m →
        ParsedBase s ⟨k.made, .call base arguments,
          ⟨s.token.start, max k.advanced.previousStop s.token.start⟩,
          false⟩ k.advanced.numbered := by
      rintro arguments m k s us hleft hus harguments hright ⟨ts, hts, hbase⟩
      have hall := hts.trans ((After.read hleft (by simp)).trans
        (hus.trans (After.read hright (by simp))))
      refine ⟨⟨_, hall.numbered, ?_⟩, rfl⟩
      rw [hall.span_eq (by simp)]
      exact .call hleft hright hbase harguments
    refine (sound_expect (by simp)).andThen fun _ => sound_currentKind.andThen fun next =>
      Sound.ite (fun _ => ?_) (fun _ => ?_)
    · refine (hrest []).imp ?_
      rintro _ node s' ⟨hright, rfl, rfl⟩ _ ⟨-, rfl⟩ m ⟨hleft, rfl⟩ _ ⟨-, rfl⟩
      refine ⟨((After.read hleft (by simp)).trans (After.read hright (by simp))).shorter
        (by simp), ?_⟩
      rintro s rfl hbase
      exact hcall [] m m.advanced s [] hleft (.refl _) .noArguments hright hbase
    · refine (sound_expressionList h).andThen fun arguments => (hrest arguments).imp ?_
      rintro k node s' ⟨hright, rfl, rfl⟩ _ ⟨us, hus, harguments⟩ _ ⟨-, rfl⟩ m ⟨hleft, rfl⟩
        _ ⟨-, rfl⟩
      refine ⟨((After.read hleft (by simp)).trans
        (hus.trans (After.read hright (by simp)))).shorter (by simp), ?_⟩
      rintro s rfl hbase
      exact hcall arguments m k s us hleft hus (.someArguments harguments) hright hbase

/-- Where no fault is noted, an access or a call is added to what was read before. Counterpart of
`Parser.suffix`. -/
theorem sound_suffix {grammar : Grammar} (h : grammar.IsSound) (start : Nat) (base : Node) :
    Sound (suffix grammar start base) fun m result s' =>
      (result.2 = true → s'.rest.length < m.rest.length) ∧
      (result.2 = false → s'.kind ≠ .symbol .leftParen) ∧
      ∀ s, start = s.token.start → ParsedBase s base m → ParsedBase s result.1 s' := by
  unfold suffix
  refine sound_currentKind.andThen fun found => ?_
  split
  · refine sound_advance.andThen fun _ => sound_identifier.andThen fun name =>
      (sound_make _ _).andThen fun node => Sound.pure ?_
    rintro _ _ ⟨rfl, rfl⟩ m ⟨hkind, rfl, rfl⟩ k ⟨-, hadvanced⟩ _ ⟨hdot, rfl⟩
    cases hadvanced (by simp [← hdot])
    have hboth := (After.read hdot.symm (by simp)).trans (After.read hkind (by simp)).numbered
    refine ⟨fun _ => hboth.shorter (by simp), (by simp), ?_⟩
    rintro s rfl ⟨⟨ts, hts, hbase⟩, hcan⟩
    have hall := hts.trans hboth
    refine ⟨⟨_, hall.numbered, ?_⟩, rfl⟩
    rw [hall.span_eq (by simp)]
    exact .member hdot.symm hkind hcan hbase
  · refine sound_advance.andThen fun _ => (h.expression 0).andThen fun key =>
      (sound_expect (by simp)).andThen fun _ => (sound_make _ _).andThen fun node => Sound.pure ?_
    rintro _ _ ⟨rfl, rfl⟩ m ⟨hright, rfl⟩ _ hkey k ⟨-, hadvanced⟩ _ ⟨hleft, rfl⟩
    cases hadvanced (by simp [← hleft])
    obtain ⟨ks, hks, hkey⟩ := hkey.parsed
    have hboth := (After.read hleft.symm (by simp)).trans
      (hks.trans (After.read hright (by simp)))
    refine ⟨fun _ => hboth.shorter (by simp), (by simp), ?_⟩
    rintro s rfl ⟨⟨ts, hts, hbase⟩, hcan⟩
    have hall := hts.trans hboth
    refine ⟨⟨_, hall.numbered, ?_⟩, rfl⟩
    rw [hall.span_eq (by simp)]
    exact .index hleft.symm hright hcan hbase hkey
  · refine sound_advance.andThen fun _ => sound_identifier.andThen fun name =>
      (sound_make _ _).andThen fun method => sound_currentKind.andThen fun next =>
      Sound.ite (fun _ => ?_) (fun _ => ?_)
    · refine (sound_call h method start).andThen fun node => Sound.pure ?_
      rintro s' _ ⟨hshorter, hcall⟩ _ ⟨-, rfl⟩ _ ⟨rfl, rfl⟩ m ⟨hkind, rfl, rfl⟩ k ⟨-, hadvanced⟩ _
        ⟨hcolon, rfl⟩
      cases hadvanced (by simp [← hcolon])
      have hboth := (After.read hcolon.symm (by simp)).trans (After.read hkind (by simp)).numbered
      refine ⟨fun _ => Nat.lt_trans hshorter (hboth.shorter (by simp)), (by simp), ?_⟩
      rintro s rfl ⟨⟨ts, hts, hbase⟩, hcan⟩
      have hall := hts.trans hboth
      refine hcall s rfl ⟨_, hall.numbered, ?_⟩
      rw [hall.span_eq (by simp)]
      exact .method hcolon.symm hkind hcan hbase
    · exact sound_current.andThen fun _ => sound_fault_andThen _ fun _ =>
        Sound.pure fun _ => trivial
  · refine Sound.ite (fun _ => ?_) (fun hstarts => ?_)
    · refine (sound_call h base start).andThen fun node => Sound.pure ?_
      rintro s' _ ⟨hshorter, hcall⟩ m ⟨-, rfl⟩
      refine ⟨fun _ => hshorter, (by simp), ?_⟩
      rintro s rfl ⟨⟨ts, hts, hbase⟩, hcan⟩
      exact hcall s rfl ⟨ts, hts, .plain hcan hbase⟩
    · refine Sound.pure ?_
      rintro _ m ⟨rfl, rfl⟩
      refine ⟨(by simp), fun _ hparen => hstarts (hparen ▸ rfl), ?_⟩
      rintro s - hbase
      exact hbase

/-- Where no fault is noted, a chain of accesses and calls is read, and no parenthesis follows.
Counterpart of `Parser.suffixed`. -/
theorem sound_suffixed {grammar : Grammar} (h : grammar.IsSound) :
    Sound (suffixed grammar) fun s node s' =>
      ParsedBase s node s' ∧ s'.kind ≠ .symbol .leftParen := by
  unfold suffixed
  refine sound_start.andThen fun start => (sound_primary h).andThen fun base =>
    (Sound.extend (sound_suffix h start) base).imp ?_
  rintro m node s' hrounds s hbase _ ⟨rfl, rfl⟩
  induction hrounds with
  | @stop _ _ goesOn _ _ hround hlength =>
    obtain ⟨hshorter, hparen, hbases⟩ := hround
    cases goesOn with
    | false => exact ⟨hbases s rfl hbase, hparen rfl⟩
    | true => exact absurd (hlength rfl) (Nat.not_le_of_lt (hshorter rfl))
  | more hround _ ih => exact ih (hround.2.2 s rfl hbase)

/-- What a chain reads can be a base. Counterpart of `Parser.suffixed`. -/
theorem sound_base {grammar : Grammar} (h : grammar.IsSound) :
    Sound (suffixed grammar) ParsedBase :=
  (sound_suffixed h).imp fun _ _ _ => And.left

/-! ## Operations -/

/-- What can be a base is no operation, so it climbs above any limit. Counterpart of
`Node.Above`. -/
theorem Node.above_of_canBeBase {node : Node} (h : node.canBeBase = true) (limit : Nat) :
    node.Above limit := by
  obtain ⟨number, shape, span, inParens⟩ := node
  cases inParens with
  | true => cases shape <;> trivial
  | false => cases shape <;> trivial

/-- What can be a base is no operation, so it ends below any priority. Counterpart of
`Node.Below`. -/
theorem Node.below_of_canBeBase {node : Node} (h : node.canBeBase = true) (priority : Nat) :
    node.Below priority := by
  obtain ⟨number, shape, span, inParens⟩ := node
  cases inParens with
  | true => cases shape <;> trivial
  | false => cases shape <;> trivial

/-- An operand has been read that leaves all operators around it alone. -/
structure ParsedOperand (s : ParseState) (node : Node) (s' : ParseState) : Prop where
  parsed : Parsed .expression s [node] s'
  above (limit : Nat) : node.Above limit
  below (op : BinaryOp) : BinaryOp.ofKind? s'.kind = some op → node.Below op.leftPriority
  uncalled : Uncalled node s'.kind

/-- Where no fault is noted, an operand without an operator is read. Counterpart of
`Parser.simple`. -/
theorem sound_simple {grammar : Grammar} (h : grammar.IsSound) :
    Sound (simple grammar) ParsedOperand := by
  unfold simple
  refine sound_current.andThen fun token => ?_
  split
  · rename_i literalKind hkind
    refine (sound_literal _).imp ?_
    rintro s node s' hliteral _ ⟨rfl, rfl⟩
    have hend : s.kind ≠ .endOfFile := by
      intro hend
      rw [show s.token.kind = _ from hend] at hkind
      cases hkind
    obtain ⟨rfl, rfl⟩ := hliteral hend
    exact ⟨⟨_, (After.advanced hend).numbered, .literal hkind⟩, fun _ => trivial,
      fun _ _ => trivial, uncalled_literal⟩
  · split
    · refine (sound_table h).imp ?_
      rintro s node s' htable _ ⟨rfl, rfl⟩
      have hparsed := htable.derives
      obtain ⟨l, r, ts, fields, b, -, -, -, -, -, rfl⟩ := htable
      exact ⟨hparsed, fun _ => trivial, fun _ _ => trivial, uncalled_table⟩
    · rename_i hkind
      refine sound_advance.andThen fun _ => (sound_functionBody h _ _ _).imp ?_
      rintro m node s' hbody s ⟨-, hadvanced⟩ _ ⟨rfl, rfl⟩
      have hend : s.kind ≠ .endOfFile := by simp [kind, hkind]
      cases hadvanced hend
      have hparsed : Parsed .expression s [node] s' :=
        hbody.derives (After.advanced hend) (fun l r e ps bs parameters body b c hl hr he hps hbs =>
          .function hkind hl hr he hps hbs) rfl
      obtain ⟨l, r, e, ps, bs, parameters, body, b, c, -, -, -, -, -, -, -, rfl⟩ := hbody
      exact ⟨hparsed, fun _ => trivial, fun _ _ => trivial, uncalled_function⟩
    · refine (sound_suffixed h).imp ?_
      rintro s node s' ⟨⟨hparsed, hcan⟩, hparen⟩ _ ⟨-, rfl⟩
      exact ⟨hparsed, node.above_of_canBeBase hcan, fun op _ => node.below_of_canBeBase hcan _,
        fun h => absurd h hparen⟩

/-- Where no fault is noted, an operand is read with the operators before it. Counterpart of
`Parser.operand`. -/
theorem sound_operand {grammar : Grammar} (h : grammar.IsSound) :
    Sound (operand grammar) ParsedOperand := by
  unfold operand
  refine sound_current.andThen fun token => ?_
  split
  · rename_i op hop
    refine sound_advance.andThen fun _ => (h.expression _).andThen fun operand =>
      (sound_make _ _).imp ?_
    rintro m node s' ⟨rfl, rfl⟩ _ hoperand s ⟨-, hadvanced⟩ _ ⟨rfl, rfl⟩
    have hend : s.kind ≠ .endOfFile := by
      intro hend
      rw [show s.token.kind = _ from hend] at hop
      cases hop
    cases hadvanced hend
    obtain ⟨ts, hts, hderives⟩ := hoperand.parsed
    have hall := (After.advanced hend).trans hts
    refine ⟨⟨_, hall.numbered, ?_⟩, fun _ => trivial, fun next hnext => hoperand.leaves next hnext,
      hoperand.uncalled.unary⟩
    rw [hall.span_eq (by simp)]
    exact .unary hop hoperand.above hderives
  · refine (sound_simple h).imp ?_
    rintro m node s' hnode s ⟨-, rfl⟩
    exact hnode

/-- The operand of an operation under a limit has been read. -/
structure ParsedLeft (limit : Nat) (s : ParseState) (node : Node) (s' : ParseState) : Prop where
  parsed : Parsed .expression s [node] s'
  above : node.Above limit
  below (op : BinaryOp) : BinaryOp.ofKind? s'.kind = some op → node.Below op.leftPriority
  uncalled : Uncalled node s'.kind

/-- Where no fault is noted, an operator above the limit is read with its right operand. Counterpart
of `Parser.operation`. -/
theorem sound_operation {grammar : Grammar} (h : grammar.IsSound) (limit start : Nat)
    (left : Node) :
    Sound (operation grammar limit start left) fun m result s' =>
      (result.2 = true → s'.rest.length < m.rest.length) ∧
      ∀ s, start = s.token.start → ParsedLeft limit s left m → ParsedLeft limit s result.1 s' ∧
        (result.2 = false → Leaves limit result.1 s'.kind) := by
  unfold operation
  refine sound_currentKind.andThen fun found => ?_
  split
  · rename_i op hop
    refine Sound.ite (fun hlimit => Sound.pure ?_) (fun hlimit => ?_)
    · rintro _ m ⟨rfl, rfl⟩
      refine ⟨(by simp), fun s _ hleft => ⟨hleft, fun _ other hother => ?_⟩⟩
      refine ⟨?_, hleft.below other hother⟩
      cases hop.symm.trans hother
      exact hlimit
    · refine sound_advance.andThen fun _ => (h.expression _).andThen fun right =>
        (sound_make _ _).andThen fun node => Sound.pure ?_
      rintro _ m ⟨rfl, rfl⟩ _ hright k ⟨-, hadvanced⟩ _ ⟨rfl, rfl⟩
      have hend : k.kind ≠ .endOfFile := by
        intro hend
        rw [hend] at hop
        cases hop
      cases hadvanced hend
      obtain ⟨rs, hrs, hderives⟩ := hright.parsed
      have hboth := (After.advanced hend).trans hrs
      refine ⟨fun _ => ?_, ?_⟩
      · have := hboth.length_rest
        simp only [List.length_append, List.length_singleton] at this
        show m.rest.length < k.rest.length
        omega
      · rintro s rfl hleft
        obtain ⟨ls, hls, hlefts⟩ := hleft.parsed
        have hall := hls.trans hboth
        refine ⟨⟨⟨_, hall.numbered, ?_⟩, ⟨by omega, hleft.above⟩,
          fun next hnext => hright.leaves next hnext, hright.uncalled.binary⟩, (by simp)⟩
        rw [hall.span_eq (by simp)]
        exact .binary hop (hleft.below op hop) hright.above hlefts hderives
  · rename_i hop
    refine Sound.pure ?_
    rintro _ m ⟨rfl, rfl⟩
    refine ⟨(by simp), fun s _ hleft => ⟨hleft, fun _ other hother => ?_⟩⟩
    cases hop.symm.trans hother

/-- Where no fault is noted, an expression is read that climbs above the limit. Counterpart of
`Parser.expression`. -/
theorem sound_expression {grammar : Grammar} (h : grammar.IsSound) (limit : Nat) :
    Sound (Parser.expression grammar limit) (ParsedUnder limit) := by
  unfold Parser.expression
  refine sound_start.andThen fun start => (sound_operand h).andThen fun left =>
    (Sound.extend (sound_operation h limit start) left).imp ?_
  rintro m node s' hrounds s hoperand _ ⟨rfl, rfl⟩
  have hleft : ParsedLeft limit s left m :=
    ⟨hoperand.parsed, hoperand.above limit, hoperand.below, hoperand.uncalled⟩
  clear hoperand
  induction hrounds with
  | @stop value next goesOn m s' hround hlength =>
    obtain ⟨hprogress, hround⟩ := hround
    obtain ⟨hnext, hleaves⟩ := hround s rfl hleft
    refine ⟨hnext.parsed, hnext.above, hleaves ?_, hnext.uncalled⟩
    cases goesOn with
    | false => rfl
    | true => exact absurd (hprogress rfl) (by have := hlength rfl; omega)
  | more hround _ ih => exact ih (hround.2 s rfl hleft).1

end LuaFormatter
