import LuaFormatter.Proofs.Grammar.ReadExpression

/-!
# Statements that were read without faults

The rules for statements read what they derive, if they note no fault, and so do all levels of the
grammar (`isSound_level`). `derives_of_isValid` is the result for a whole source: the tokens of a
valid program derive its tree.
-/

open LuaFormatter.Parser LuaFormatter.ParseState

namespace LuaFormatter

/-- A statement has been read, and a parenthesis that comes next does not call what it ends with. -/
structure ParsedStatement (s : ParseState) (node : Node) (s' : ParseState) : Prop where
  parsed : Parsed .statement s [node] s'
  uncalled : s'.kind = .symbol .leftParen → node.lastExpression?.any Node.isCallable = false

/-- A statement that starts with a token of a kind has been read. -/
def ParsedFrom (kind : Kind) (s : ParseState) (node : Node) (s' : ParseState) : Prop :=
  s.kind = kind → ParsedStatement s node s'

/-- Where no fault is noted, a `while` loop is read. Counterpart of `Parser.whileLoop`. -/
theorem sound_whileLoop {grammar : Grammar} (h : grammar.IsSound) :
    Sound (whileLoop grammar) (ParsedFrom (.keyword .whileK)) := by
  unfold whileLoop
  refine sound_start.andThen fun start => sound_advance.andThen fun _ =>
    (h.expression 0).andThen fun condition => (sound_expect (by simp)).andThen fun _ =>
    h.block.andThen fun body => (sound_expect (by simp)).andThen fun _ => (sound_make _ _).imp ?_
  rintro _ node s' ⟨rfl, rfl⟩ m ⟨hend, rfl⟩ _ ⟨bs, hbs, hbody⟩ k ⟨hdo, rfl⟩ _ hcondition s
    ⟨-, hadvanced⟩ _ ⟨rfl, rfl⟩ hkind
  cases hadvanced (by simp [hkind])
  obtain ⟨ts, hts, hcondition⟩ := hcondition.parsed
  have hall := (After.read hkind (by simp)).trans (hts.trans
    ((After.read hdo (by simp)).trans (hbs.trans (After.read hend (by simp)))))
  refine ⟨⟨_, hall.numbered, ?_⟩, fun _ => rfl⟩
  rw [hall.span_eq (by simp)]
  exact .whileLoop hkind hdo hend hcondition hbody

/-- Where no fault is noted, a block is read. Counterpart of `Parser.doBlock`. -/
theorem sound_doBlock {grammar : Grammar} (h : grammar.IsSound) :
    Sound (doBlock grammar) (ParsedFrom (.keyword .doK)) := by
  unfold doBlock
  refine sound_start.andThen fun start => sound_advance.andThen fun _ =>
    h.block.andThen fun body => (sound_expect (by simp)).andThen fun _ => (sound_make _ _).imp ?_
  rintro _ node s' ⟨rfl, rfl⟩ m ⟨hend, rfl⟩ _ ⟨bs, hbs, hbody⟩ s ⟨-, hadvanced⟩ _ ⟨rfl, rfl⟩ hkind
  cases hadvanced (by simp [hkind])
  have hall := (After.read hkind (by simp)).trans (hbs.trans (After.read hend (by simp)))
  refine ⟨⟨_, hall.numbered, ?_⟩, fun _ => rfl⟩
  rw [hall.span_eq (by simp)]
  exact .doBlock hkind hend hbody

/-- Where no fault is noted, a `repeat` loop is read. Counterpart of `Parser.repeatLoop`. -/
theorem sound_repeatLoop {grammar : Grammar} (h : grammar.IsSound) :
    Sound (repeatLoop grammar) (ParsedFrom (.keyword .repeatK)) := by
  unfold repeatLoop
  refine sound_start.andThen fun start => sound_advance.andThen fun _ =>
    h.block.andThen fun body => (sound_expect (by simp)).andThen fun _ =>
    (h.expression 0).andThen fun condition => (sound_make _ _).imp ?_
  rintro _ node s' ⟨rfl, rfl⟩ _ hcondition m ⟨huntil, rfl⟩ _ ⟨bs, hbs, hbody⟩ s ⟨-, hadvanced⟩ _
    ⟨rfl, rfl⟩ hkind
  cases hadvanced (by simp [hkind])
  obtain ⟨ts, hts, hderives⟩ := hcondition.parsed
  have hall := (After.read hkind (by simp)).trans (hbs.trans
    ((After.read huntil (by simp)).trans hts))
  refine ⟨⟨_, hall.numbered, ?_⟩, hcondition.uncalled⟩
  rw [hall.span_eq (by simp)]
  exact .repeatLoop hkind huntil hbody hderives

/-- The body of a loop has been read with the keywords around it. -/
def ParsedLoopBody (s : ParseState) (body : List Node) (s' : ParseState) : Prop :=
  ∃ (o f : Token) (bs : List Token), o.kind = .keyword .doK ∧ f.kind = .keyword .endK ∧
    s.After (o :: (bs ++ [f])) s' ∧ Derives true .block s.made s'.made bs body

/-- Where no fault is noted, the body of a loop is read between its keywords. Counterpart of
`Parser.loopBody`. -/
theorem sound_loopBody {grammar : Grammar} (h : grammar.IsSound) :
    Sound (loopBody grammar) ParsedLoopBody := by
  unfold loopBody
  refine (sound_expect (by simp)).andThen fun _ => h.block.andThen fun body =>
    (sound_expect (by simp)).andThen fun _ => Sound.pure ?_
  rintro _ m ⟨hend, rfl⟩ _ ⟨bs, hbs, hbody⟩ s ⟨hdo, rfl⟩
  exact ⟨s.token, m.token, bs, hdo, hend, (After.read hdo (by simp)).trans
    (hbs.trans (After.read hend (by simp))), hbody⟩

/-- Where no fault is noted, a loop over numbers, with or without a step, or over iterators is read.
Counterpart of `Parser.forLoop`. -/
theorem sound_forLoop {grammar : Grammar} (h : grammar.IsSound) :
    Sound (forLoop grammar) (ParsedFrom (.keyword .forK)) := by
  unfold forLoop
  refine sound_start.andThen fun start => sound_advance.andThen fun _ =>
    sound_identifier.andThen fun counter => sound_accept_cases (by simp) ?_ ?_
  · refine (h.expression 0).andThen fun first => (sound_expect (by simp)).andThen fun _ =>
      (h.expression 0).andThen fun last => sound_accept_cases (by simp) ?_ ?_
    · simp only [↓reduceIte]
      refine (h.expression 0).map.andThen fun _ => (sound_loopBody h).andThen fun body =>
        (sound_make _ _).imp ?_
      rintro m node s' ⟨rfl, rfl⟩ _ ⟨o, f, bs, hdo, hend, hbs, hbody⟩ _ ⟨step, rfl, hstep⟩ i
        ⟨hcomma', rfl⟩ _ hlast j ⟨hcomma, rfl⟩ _ hfirst k ⟨hequal, rfl⟩ l ⟨hname, rfl, rfl⟩ s
        ⟨-, hadvanced⟩ _ ⟨rfl, rfl⟩ hkind
      cases hadvanced (by simp [hkind])
      obtain ⟨us, hus, hfirst⟩ := hfirst.parsed
      obtain ⟨vs, hvs, hlast⟩ := hlast.parsed
      obtain ⟨ws, hws, hstep⟩ := hstep.parsed
      have hall := (After.read hkind (by simp)).trans
        ((After.read hname (by simp)).numbered.trans ((After.read hequal (by simp)).trans
        (hus.trans ((After.read hcomma (by simp)).trans (hvs.trans
        ((After.read hcomma' (by simp)).trans (hws.trans hbs)))))))
      refine ⟨⟨_, hall.numbered, ?_⟩, fun _ => rfl⟩
      rw [hall.span_eq (by simp)]
      exact .steppedFor hkind hname hequal hcomma hcomma' hdo hend hfirst hlast hstep hbody
    · simp only [Bool.false_eq_true, ↓reduceIte]
      refine (Sound.pure fun s => rfl : Sound (pure none) fun s b s' => (b, s') = (none, s)).andThen
        fun _ => (sound_loopBody h).andThen fun body => (sound_make _ _).imp ?_
      rintro m node s' ⟨rfl, rfl⟩ _ ⟨o, f, bs, hdo, hend, hbs, hbody⟩ _ hnone - _ hlast j
        ⟨hcomma, rfl⟩ _ hfirst k ⟨hequal, rfl⟩ l ⟨hname, rfl, rfl⟩ s ⟨-, hadvanced⟩ _
        ⟨rfl, rfl⟩ hkind
      cases hnone
      cases hadvanced (by simp [hkind])
      obtain ⟨us, hus, hfirst⟩ := hfirst.parsed
      obtain ⟨vs, hvs, hlast⟩ := hlast.parsed
      have hall := (After.read hkind (by simp)).trans
        ((After.read hname (by simp)).numbered.trans ((After.read hequal (by simp)).trans
        (hus.trans ((After.read hcomma (by simp)).trans (hvs.trans hbs)))))
      refine ⟨⟨_, hall.numbered, ?_⟩, fun _ => rfl⟩
      rw [hall.span_eq (by simp)]
      exact .numericFor hkind hname hequal hcomma hdo hend hfirst hlast hbody
  · refine sound_accept_cases (by simp) ?_ ?_
    · simp only [↓reduceIte]
      refine sound_names.andThen fun others => (sound_expect (by simp)).andThen fun _ =>
        (sound_expressionList h).andThen fun iterators => (sound_loopBody h).andThen fun body =>
        (sound_make _ _).imp ?_
      rintro m node s' ⟨rfl, rfl⟩ _ ⟨o, f, bs, hdo, hend, hbs, hbody⟩ _ ⟨vs, hvs, hiterators⟩ i
        ⟨hin, rfl⟩ _ ⟨ts, hts, hnames⟩ j ⟨hcomma, rfl⟩ - l ⟨hname, rfl, rfl⟩ s ⟨-, hadvanced⟩ _
        ⟨rfl, rfl⟩ hkind
      cases hadvanced (by simp [hkind])
      have hall := (After.read hkind (by simp)).trans
        (((After.read hname (by simp)).numbered.trans ((After.read hcomma (by simp)).trans
        hts)).trans ((After.read hin (by simp)).trans (hvs.trans hbs)))
      refine ⟨⟨_, hall.numbered, ?_⟩, fun _ => rfl⟩
      rw [hall.span_eq (by simp)]
      exact .genericFor hkind hin hdo hend (.moreNames hname hcomma hnames) hiterators hbody
    · simp only [Bool.false_eq_true, ↓reduceIte]
      refine (Sound.pure fun s => rfl :
        Sound (pure []) fun s b s' => (b, s') = (([] : List Node), s)).andThen
        fun _ => (sound_expect (by simp)).andThen fun _ =>
        (sound_expressionList h).andThen fun iterators => (sound_loopBody h).andThen fun body =>
        (sound_make _ _).imp ?_
      rintro m node s' ⟨rfl, rfl⟩ _ ⟨o, f, bs, hdo, hend, hbs, hbody⟩ _ ⟨vs, hvs, hiterators⟩ i
        ⟨hin, rfl⟩ _ hnone - - l ⟨hname, rfl, rfl⟩ s ⟨-, hadvanced⟩ _ ⟨rfl, rfl⟩ hkind
      cases hnone
      cases hadvanced (by simp [hkind])
      have hall := (After.read hkind (by simp)).trans
        ((After.read hname (by simp)).numbered.trans
        ((After.read hin (by simp)).trans (hvs.trans hbs)))
      refine ⟨⟨_, hall.numbered, ?_⟩, fun _ => rfl⟩
      rw [hall.span_eq (by simp)]
      exact .genericFor hkind hin hdo hend (.lastName hname) hiterators hbody

/-- A part of a function's name has been read. Counterpart of `Parser.namePart`. -/
theorem sound_namePart (start : Nat) (base : Node) :
    Sound (namePart start base) fun m result s' => ∀ s, start = s.token.start →
      Parsed .dotted s [base] m →
      (result.2 = true ∧ Parsed .dotted s [result.1] s' ∧ s'.rest.length < m.rest.length) ∨
        (result.2 = false ∧ Parsed .name s [result.1] s') := by
  unfold namePart
  refine sound_currentKind.andThen fun found => ?_
  split
  · refine sound_advance.andThen fun _ => sound_identifier.andThen fun name =>
      (sound_make _ _).andThen fun node => Sound.pure ?_
    rintro _ _ ⟨rfl, rfl⟩ m ⟨hkind, rfl, rfl⟩ k ⟨-, hadvanced⟩ _ ⟨hdot, rfl⟩ s rfl ⟨ts, hts, hbase⟩
    cases hadvanced (by simp [← hdot])
    have hboth : k.After [k.token, k.advanced.token] k.advanced.advanced.numbered :=
      (After.read hdot.symm (by simp)).trans (After.read hkind (by simp)).numbered
    have hall := hts.trans hboth
    refine .inl ⟨rfl, ⟨_, hall.numbered, ?_⟩, ?_⟩
    · rw [hall.span_eq (by simp)]
      exact .nameMember hdot.symm hkind hbase
    · have := hboth.numbered.length_rest
      simp only [List.length_cons, List.length_nil] at this
      omega
  · refine sound_advance.andThen fun _ => sound_identifier.andThen fun name =>
      (sound_make _ _).andThen fun node => Sound.pure ?_
    rintro _ _ ⟨rfl, rfl⟩ m ⟨hkind, rfl, rfl⟩ k ⟨-, hadvanced⟩ _ ⟨hcolon, rfl⟩ s rfl
      ⟨ts, hts, hbase⟩
    cases hadvanced (by simp [← hcolon])
    have hall := hts.trans ((After.read hcolon.symm (by simp)).trans
      (After.read hkind (by simp)).numbered)
    refine .inr ⟨rfl, ⟨_, hall.numbered, ?_⟩⟩
    rw [hall.span_eq (by simp)]
    exact .nameMethod hcolon.symm hkind hbase
  · refine Sound.pure ?_
    rintro _ m ⟨-, rfl⟩ s - ⟨ts, hts, hbase⟩
    exact .inr ⟨rfl, ts, hts, .nameDotted hbase⟩

/-- A function ends with a keyword, so nothing calls it. Counterpart of `Parser.functionBody`. -/
theorem ParsedBody.uncalled {start : Nat} {name : Option Node} {isLocal : Bool}
    {s s' : ParseState} {node : Node} (h : ParsedBody start name isLocal s node s') :
    s'.kind = .symbol .leftParen → node.lastExpression?.any Node.isCallable = false := by
  obtain ⟨l, r, e, ps, bs, parameters, body, b, c, -, -, -, -, -, -, -, rfl⟩ := h
  exact fun _ => rfl

/-- Where no fault is noted, a function is read with its name. Counterpart of
`Parser.functionStatement`. -/
theorem sound_functionStatement {grammar : Grammar} (h : grammar.IsSound) :
    Sound (functionStatement grammar) (ParsedFrom (.keyword .functionK)) := by
  unfold functionStatement
  refine sound_advance.andThen fun token => sound_start.andThen fun nameStart =>
    sound_identifier.andThen fun base => (Sound.extend (sound_namePart nameStart) base).andThen
    fun name => (sound_functionBody h _ _ _).imp ?_
  rintro m node s' hbody k hrounds l hbase _ ⟨rfl, rfl⟩ s ⟨rfl, hadvanced⟩ hkind
  cases hadvanced (by simp [hkind])
  have hstart := ParsedName.after hbase
  obtain ⟨hname, rfl, rfl⟩ := hbase
  have hdotted : Parsed .dotted s.advanced [nameOf s.advanced.made s.advanced.token]
      s.advanced.advanced.numbered := ⟨_, hstart, .nameStart hname⟩
  have hnamed : Parsed .name s.advanced [name] m := by
    clear hbody hstart
    generalize s.advanced.advanced.numbered = k at hrounds hdotted
    generalize nameOf s.advanced.made s.advanced.token = base at hrounds hdotted
    induction hrounds with
    | stop hround hlength =>
      obtain ⟨hgo, -, hless⟩ | ⟨-, hnamed⟩ := hround _ rfl hdotted
      · have := hlength hgo
        omega
      · exact hnamed
    | more hround _ ih =>
      obtain ⟨-, hdotted, -⟩ | ⟨hgo, -⟩ := hround _ rfl hdotted
      · exact ih hdotted
      · cases hgo
  obtain ⟨ns, hns, hderives⟩ := hnamed
  exact ⟨hbody.derives ((After.read hkind (by simp)).trans hns)
    (fun l r e ps bs parameters body b c hl hr he hps hbs =>
      .globalFunction hkind hl hr he hderives hps hbs) rfl, hbody.uncalled⟩

/-- Where no fault is noted, a local function or local variables are read. Counterpart of
`Parser.localStatement`. -/
theorem sound_localStatement {grammar : Grammar} (h : grammar.IsSound) :
    Sound (localStatement grammar) (ParsedFrom (.keyword .localK)) := by
  unfold localStatement
  refine sound_advance.andThen fun token => sound_accept_cases (by simp) ?_ ?_
  · simp only [↓reduceIte]
    refine sound_identifier.andThen fun name => (sound_functionBody h _ _ _).imp ?_
    rintro _ node s' hbody _ hname k ⟨hfunction, rfl⟩ s ⟨rfl, hadvanced⟩ hkind
    cases hadvanced (by simp [hkind])
    have hafter := ParsedName.after hname
    obtain ⟨hident, rfl, rfl⟩ := hname
    exact ⟨hbody.derives ((After.read hkind (by simp)).trans
      ((After.read hfunction (by simp)).trans hafter))
      (fun l r e ps bs parameters body b c hl hr he hps hbs =>
        .localFunction hkind hfunction hident hl hr he hps hbs) rfl, hbody.uncalled⟩
  · simp only [Bool.false_eq_true, ↓reduceIte]
    refine sound_names.andThen fun names => sound_accept_cases (by simp) ?_ ?_
    · simp only [↓reduceIte]
      refine (sound_values h).andThen fun values => (sound_make _ _).imp ?_
      rintro _ node s' ⟨rfl, rfl⟩ _ ⟨⟨vs, hvs, hvalues⟩, hlast⟩ m ⟨hequal, rfl⟩ k
        ⟨ts, hts, hnames⟩ - s ⟨rfl, hadvanced⟩ hkind
      cases hadvanced (by simp [hkind])
      have hall := (After.read hkind (by simp)).trans (hts.trans
        ((After.read hequal (by simp)).trans hvs))
      refine ⟨⟨_, hall.numbered, ?_⟩, hlast⟩
      rw [hall.span_eq (by simp)]
      exact .definition hkind hequal hnames hvalues
    · simp only [Bool.false_eq_true, ↓reduceIte]
      refine (Sound.pure fun s => rfl :
        Sound (pure []) fun s b s' => (b, s') = (([] : List Node), s)).andThen
        fun _ => (sound_make _ _).imp ?_
      rintro _ node s' ⟨rfl, rfl⟩ m hnone - k ⟨ts, hts, hnames⟩ - s ⟨rfl, hadvanced⟩ hkind
      cases hnone
      cases hadvanced (by simp [hkind])
      have hall := (After.read hkind (by simp)).trans hts
      refine ⟨⟨_, hall.numbered, ?_⟩, fun _ => rfl⟩
      rw [hall.span_eq (by simp)]
      exact .declaration hkind hnames

/-- Where no fault is noted, a label is read. Counterpart of `Parser.labelStatement`. -/
theorem sound_labelStatement : Sound labelStatement (ParsedFrom (.symbol .colonColon)) := by
  unfold labelStatement
  refine sound_advance.andThen fun token => sound_identifier.andThen fun label =>
    (sound_expect (by simp)).andThen fun _ => (sound_make _ _).imp ?_
  rintro _ node s' ⟨rfl, rfl⟩ m ⟨hclose, rfl⟩ k ⟨hname, rfl, rfl⟩ s ⟨rfl, hadvanced⟩ hkind
  cases hadvanced (by simp [hkind])
  have hall := (After.read hkind (by simp)).trans
    ((After.read hname (by simp)).numbered.trans (After.read hclose (by simp)))
  refine ⟨⟨_, hall.numbered, ?_⟩, fun _ => rfl⟩
  rw [hall.span_eq (by simp)]
  exact .labelStatement hkind hname hclose

/-- Where no fault is noted, a `goto` is read. Counterpart of `Parser.gotoStatement`. -/
theorem sound_gotoStatement : Sound gotoStatement (ParsedFrom (.keyword .gotoK)) := by
  unfold gotoStatement
  refine sound_advance.andThen fun token => sound_identifier.andThen fun label =>
    (sound_make _ _).imp ?_
  rintro _ node s' ⟨rfl, rfl⟩ k ⟨hname, rfl, rfl⟩ s ⟨rfl, hadvanced⟩ hkind
  cases hadvanced (by simp [hkind])
  have hall := (After.read hkind (by simp)).trans (After.read hname (by simp)).numbered
  refine ⟨⟨_, hall.numbered, ?_⟩, fun _ => rfl⟩
  rw [hall.span_eq (by simp)]
  exact .gotoStatement hkind hname

/-- Where no fault is noted, a `break` is read. Counterpart of `Parser.breakStatement`. -/
theorem sound_breakStatement : Sound breakStatement (ParsedFrom (.keyword .breakK)) := by
  unfold breakStatement
  refine sound_advance.andThen fun token => (sound_make _ _).imp ?_
  rintro _ node s' ⟨rfl, rfl⟩ s ⟨rfl, hadvanced⟩ hkind
  cases hadvanced (by simp [hkind])
  have hall := (After.read hkind (by simp) : s.After [s.token] s.advanced)
  refine ⟨⟨_, hall.numbered, ?_⟩, fun _ => rfl⟩
  rw [hall.span_eq (by simp)]
  exact .breakStatement hkind

/-! ## Conditionals -/

/-- A branch has been read, up to the token that comes next. -/
def ParsedClause (s : ParseState) (result : List Node × Bool) (s' : ParseState) : Prop :=
  ∃ clause, result.1 = [clause] ∧ Parsed (.clause s'.token.start) s [clause] s' ∧
    (result.2 = true → (s'.kind = .keyword .elseifK ∨ s'.kind = .keyword .elseK) ∧
      s.kind ≠ .keyword .elseK)

/-- Where no fault is noted, a branch is read. Counterpart of `Parser.clause`. -/
theorem sound_clause {grammar : Grammar} (h : grammar.IsSound) :
    Sound (Parser.clause grammar) fun s result s' =>
      (s.kind = .keyword .ifK ∨ s.kind = .keyword .elseifK ∨ s.kind = .keyword .elseK) →
        ParsedClause s result s' := by
  have hrest : ∀ (token : Token) (condition : Option Node), Sound (do
      let body ← grammar.block
      let clause ← makeAt (.clause (clauseKind token.kind) condition body)
        ⟨token.start, max (← start) token.start⟩
      let next ← currentKind
      return (([clause], clauseKind token.kind ≠ .elseClause ∧
        (next = .keyword .elseifK ∨ next = .keyword .elseK)) : List Node × Bool))
      fun s result s' => ∃ (bs : List Token) (body : List Node) (c : Nat),
        Derives true .block s.made c bs body ∧ s.After bs s' ∧ s'.made = c + 1 ∧
        result.1 = [⟨c, .clause (clauseKind token.kind) condition body,
          ⟨token.start, max s'.token.start token.start⟩, false⟩] ∧
        (result.2 = true → (s'.kind = .keyword .elseifK ∨ s'.kind = .keyword .elseK) ∧
          clauseKind token.kind ≠ .elseClause) := by
    intro token condition
    refine h.block.andThen fun body => sound_start.andThen fun stop =>
      (sound_makeAt _ _).andThen fun clause => sound_currentKind.andThen fun next => Sound.pure ?_
    rintro _ _ ⟨rfl, rfl⟩ m ⟨rfl, rfl⟩ _ ⟨rfl, rfl⟩ s ⟨bs, hbs, hbody⟩
    exact ⟨bs, body, m.made, hbody, hbs.numbered, rfl, rfl, fun hgo =>
      (of_decide_eq_true hgo).symm⟩
  unfold Parser.clause
  refine sound_advance.andThen fun token => Sound.ite (fun helse => ?_) (fun hcondition => ?_)
  · refine (Sound.pure fun s => rfl :
      Sound (pure none) fun s b s' => (b, s') = ((none : Option Node), s)).andThen
      fun _ => (hrest token _).imp ?_
    rintro _ result s' ⟨bs, body, c, hbody, hbs, hmade, hresult, hgo⟩ _ hnone s
      ⟨rfl, hadvanced⟩ hkind
    cases hnone
    have hkind : s.kind = .keyword .elseK := by
      rcases hkind with hk | hk | hk
      · rw [show s.token.kind = _ from hk] at helse
        cases helse
      · rw [show s.token.kind = _ from hk] at helse
        cases helse
      · exact hk
    cases hadvanced (by simp [hkind])
    refine ⟨_, hresult, ⟨_, (After.read hkind (by simp)).trans hbs, ?_⟩, fun hmore => ?_⟩
    · rw [hmade, helse]
      exact .elseClause hkind hbody
    · exact absurd helse (hgo hmore).2
  · refine (h.expression 0).andThen fun condition => (sound_expect (by simp)).andThen fun _ =>
      (Sound.pure fun s => rfl :
        Sound (pure (some condition)) fun s b s' => (b, s') = (some condition, s)).andThen
      fun _ => (hrest token _).imp ?_
    rintro _ result s' ⟨bs, body, c, hbody, hbs, hmade, hresult, hgo⟩ _ hsome m ⟨hthen, rfl⟩ _
      hexpression s ⟨rfl, hadvanced⟩ hkind
    cases hsome
    have hkind : s.kind = .keyword .ifK ∨ s.kind = .keyword .elseifK := by
      rcases hkind with hk | hk | hk
      · exact .inl hk
      · exact .inr hk
      · rw [show s.token.kind = _ from hk] at hcondition
        exact absurd rfl hcondition
    have hend : s.kind ≠ .endOfFile := by rcases hkind with hk | hk <;> simp [hk]
    cases hadvanced hend
    obtain ⟨ts, hts, hexpression⟩ := hexpression.parsed
    refine ⟨_, hresult, ⟨_, (After.advanced hend).trans (hts.trans
      ((After.read hthen (by simp)).trans hbs)), ?_⟩, fun hmore => ⟨(hgo hmore).1, ?_⟩⟩
    · rw [hmade]
      exact .clause hkind hthen hexpression hbody
    · rcases hkind with hk | hk <;> simp [hk]

/-- Where no fault is noted, the branches of a conditional are read. Counterpart of `Parser.many`
for `Parser.clause`. -/
theorem sound_clauses {grammar : Grammar} (h : grammar.IsSound) :
    Sound (many (Parser.clause grammar)) fun s clauses s' =>
      (s.kind = .keyword .ifK ∨ s.kind = .keyword .elseifK ∨ s.kind = .keyword .elseK) →
        ∃ us, s.After (s.token :: us) s' ∧
          Derives true (.clauses s'.token.start) s.made s'.made (s.token :: us) clauses := by
  refine (sound_clause h).many.imp fun s clauses s' hitems => ?_
  -- A branch takes at least its keyword, which is the token to be read next.
  have hfirst : ∀ {s s' : ParseState} {stop : Nat} {clause : Node},
      Parsed (.clause stop) s [clause] s' → ∃ us, s.After (s.token :: us) s' ∧
        Derives true (.clause stop) s.made s'.made (s.token :: us) [clause] := by
    rintro s s' stop clause ⟨ts, hts, hclause⟩
    cases ts with
    | nil => exact absurd rfl (hclause.ne_nil rfl)
    | cons first us => exact ⟨us, hts.token_eq ▸ hts, hts.token_eq ▸ hclause⟩
  induction hitems with
  | stop hround _ =>
    intro hkind
    obtain ⟨clause, rfl, hclause, -⟩ := hround hkind
    obtain ⟨us, hus, hderives⟩ := hfirst hclause
    exact ⟨us, hus, .lastClause hderives⟩
  | more hround _ ih =>
    intro hkind
    obtain ⟨clause, rfl, hclause, hmore⟩ := hround hkind
    obtain ⟨hnext, helse⟩ := hmore rfl
    obtain ⟨us, hus, hderives⟩ := hfirst hclause
    obtain ⟨vs, hvs, hothers⟩ := ih (.inr hnext)
    exact ⟨_, hus.trans hvs,
      .moreClauses hnext (by simpa [ParseState.kind] using helse) hderives hothers⟩

/-- Where no fault is noted, a conditional is read. Counterpart of `Parser.conditional`. -/
theorem sound_conditional {grammar : Grammar} (h : grammar.IsSound) :
    Sound (conditional grammar) (ParsedFrom (.keyword .ifK)) := by
  unfold conditional
  refine sound_start.andThen fun start => (sound_clauses h).andThen fun clauses =>
    (sound_expect (by simp)).andThen fun _ => (sound_make _ _).imp ?_
  rintro _ node s' ⟨rfl, rfl⟩ m ⟨hend, rfl⟩ s hclauses _ ⟨rfl, rfl⟩ hkind
  obtain ⟨us, hus, hclauses⟩ := hclauses (.inl hkind)
  have hall := hus.trans (After.read hend (by simp))
  refine ⟨⟨_, hall.numbered, ?_⟩, fun _ => rfl⟩
  rw [hall.span_eq (by simp)]
  exact .conditional hkind hend hclauses

/-! ## Assignments and calls -/

/-- The rules give neither a whole file nor something that could not be read. Counterpart of
`Shape.isInvalid`. -/
theorem Derives.isRead {isApart : Bool} {rule : Rule} {a b : Nat} {tokens : List Token}
    {nodes : List Node} (h : Derives isApart rule a b tokens nodes) :
    ∀ node ∈ nodes, node.shape.isInvalid = false ∧ ∀ body, node.shape ≠ .chunk body := by
  induction h with
  | @parens _ _ _ _ _ node _ _ _ ih =>
    obtain ⟨number, shape, span, inParens⟩ := node
    simpa [Node.parenthesise, Node.shape] using ih
  | lastExpression _ ih | someArguments _ ih | plain _ _ ih | lastField _ ih | nameDotted _ ih
  | semicolon _ _ ih | lastClause _ ih => exact ih
  | moreExpressions _ _ _ ih ihs | moreFields _ _ _ ih ihs | moreStatements _ _ _ ih ihs
  | moreClauses _ _ _ _ ih ihs =>
    exact List.forall_mem_cons.2 ⟨ih _ (List.mem_singleton_self _), ihs⟩
  | moreNames _ _ _ ih | moreParameters _ _ _ _ ih =>
    exact List.forall_mem_cons.2 ⟨⟨rfl, nofun⟩, ih⟩
  | noArguments | noParameters | noFields | emptyBlock => exact List.forall_mem_nil _
  | _ => exact List.forall_mem_singleton.2 ⟨rfl, nofun⟩

/-- Targets are checked one by one. Counterpart of the loop of `Parser.expressionStatement`. -/
theorem sound_checkTargets (targets : List Node) :
    Sound (forIn targets PUnit.unit fun target _ =>
      if isTarget target then pure (.yield PUnit.unit)
      else do
        fault (.invalidTarget target.span)
        pure (.yield PUnit.unit))
      fun s _ s' => (∀ target ∈ targets, isTarget target = true) ∧ s' = s := by
  induction targets with
  | nil => exact Sound.pure fun s => ⟨by simp, rfl⟩
  | cons target rest ih =>
    simp only [List.forIn_cons]
    split
    · rename_i htarget
      rw [pure_bind]
      exact ih.imp fun s _ s' hs => ⟨List.forall_mem_cons.2 ⟨htarget, hs.1⟩, hs.2⟩
    · rw [bind_assoc]
      refine sound_fault_andThen _ fun _ => ?_
      rw [pure_bind]
      exact ih.imp fun _ _ _ _ => trivial

/-- The targets and the values of an assignment have been read. Counterpart of
`Parser.expressionStatement`. -/
theorem sound_assignment {grammar : Grammar} (h : grammar.IsSound) (start : Nat)
    (targets : List Node) :
    Sound (do
      for target in targets do
        unless isTarget target do
          fault (.invalidTarget target.span)
      expect (.symbol .equal)
      let values ← expressionList grammar
      make (.assignment targets values) start)
      fun m node s' => ∀ s, start = s.token.start → Parsed .expressions s targets m →
        (∀ target ∈ targets, target.canBeBase = true) → ParsedStatement s node s' := by
  refine (sound_checkTargets targets).andThen fun _ => (sound_expect (by simp)).andThen fun _ =>
    (sound_values h).andThen fun values => (sound_make _ _).imp ?_
  rintro k node s' ⟨rfl, rfl⟩ _ ⟨⟨vs, hvs, hvalues⟩, hlast⟩ m ⟨hequal, rfl⟩ _ ⟨htargets, rfl⟩ s rfl
    ⟨ts, hts, hderives⟩ hbases
  have hall := hts.trans ((After.read hequal (by simp)).trans hvs)
  refine ⟨⟨_, hall.numbered, ?_⟩, hlast⟩
  rw [hall.span_eq (by simp)]
  exact .assignment hequal (fun target hmem => ⟨hbases target hmem, htargets target hmem⟩)
    hderives hvalues

/-- Chains of accesses and calls with commas between them are expressions that can be bases.
Counterpart of the targets of `Derives.assignment`. -/
theorem listed_bases {s s' : ParseState} {nodes : List Node} (h : Listed ParsedBase s nodes s') :
    Parsed .expressions s nodes s' ∧ ∀ node ∈ nodes, node.canBeBase = true := by
  induction h with
  | last hnode =>
    obtain ⟨⟨tokens, hafter, hderives⟩, hcan⟩ := hnode
    exact ⟨⟨tokens, hafter, .lastExpression hderives⟩, by simpa using hcan⟩
  | more hnode hcomma _ ih =>
    obtain ⟨⟨tokens, hafter, hderives⟩, hcan⟩ := hnode
    obtain ⟨⟨others, hothers, hrest⟩, hall⟩ := ih
    exact ⟨⟨_, hafter.trans ((After.read hcomma (by simp)).trans hothers),
      .moreExpressions hcomma hderives hrest⟩, List.forall_mem_cons.2 ⟨hcan, hall⟩⟩

/-- Where no fault is noted, a call or an assignment to targets is read. Counterpart of
`Parser.expressionStatement`. -/
theorem sound_expressionStatement {grammar : Grammar} (h : grammar.IsSound) :
    Sound (expressionStatement grammar) ParsedStatement := by
  unfold expressionStatement
  refine sound_start.andThen fun start => (sound_suffixed h).andThen fun first =>
    sound_currentKind.andThen fun kind => Sound.ite (fun _ => ?_) (fun _ => ?_)
  · refine sound_accept_cases (by simp) ?_ ?_
    · simp only [↓reduceIte]
      refine (sound_commaSeparated (sound_base h) fun _ _ _ hnode =>
        ⟨_, hnode.1.choose_spec.1⟩).andThen fun others =>
        (sound_assignment h start (first :: others)).imp ?_
      rintro m node s' hassignment _ hothers k ⟨hcomma, rfl⟩ _ ⟨-, rfl⟩ s ⟨hfirst, -⟩ _ ⟨rfl, rfl⟩
      obtain ⟨hparsed, hbases⟩ := listed_bases (.more hfirst hcomma hothers)
      exact hassignment s rfl hparsed hbases
    · simp only [Bool.false_eq_true, ↓reduceIte]
      refine (Sound.pure fun s => rfl :
        Sound (pure []) fun s b s' => (b, s') = (([] : List Node), s)).andThen
        fun others => (sound_assignment h start (first :: others)).imp ?_
      rintro m node s' hassignment k hnone - _ ⟨-, rfl⟩ s ⟨hfirst, -⟩ _ ⟨rfl, rfl⟩
      cases hnone
      obtain ⟨hparsed, hbases⟩ := listed_bases (.last hfirst)
      exact hassignment s rfl hparsed hbases
  · simp only
    split
    · rename_i hcall
      refine (sound_make _ _).imp ?_
      rintro m node s' ⟨rfl, rfl⟩ _ ⟨-, rfl⟩ s ⟨⟨⟨ts, hts, hderives⟩, -⟩, hparen⟩ _ ⟨rfl, rfl⟩
      have hcall : first.shape.isCall = true := by
        simpa [(hderives.isRead first (by simp)).1] using hcall
      refine ⟨⟨_, hts.numbered, ?_⟩, fun h => absurd h hparen⟩
      rw [hts.span_eq (hderives.ne_nil rfl)]
      exact .callStatement hcall hderives
    · exact sound_fault_andThen _ fun _ => (sound_make _ _).imp fun _ _ _ _ => trivial

/-! ## Blocks -/

/-- Where no fault is noted, a statement is read. Counterpart of `Parser.statement`. -/
theorem sound_statement {grammar : Grammar} (h : grammar.IsSound) :
    Sound (statement grammar) ParsedStatement := by
  have hfrom : ∀ {kind : Kind} {parser : Parser Node}, Sound parser (ParsedFrom kind) →
      Sound parser fun m node s' => ∀ s, kind = s.kind ∧ m = s → ParsedStatement s node s' := by
    intro kind parser hparser
    refine hparser.imp ?_
    rintro m node s' hnode s ⟨rfl, rfl⟩
    exact hnode rfl
  unfold statement
  refine sound_currentKind.andThen fun kind => ?_
  split
  · exact hfrom (sound_conditional h)
  · exact hfrom (sound_whileLoop h)
  · exact hfrom (sound_doBlock h)
  · exact hfrom (sound_forLoop h)
  · exact hfrom (sound_repeatLoop h)
  · exact hfrom (sound_functionStatement h)
  · exact hfrom (sound_localStatement h)
  · exact hfrom sound_labelStatement
  · exact hfrom sound_breakStatement
  · exact hfrom sound_gotoStatement
  · refine (sound_expressionStatement h).imp ?_
    rintro m node s' hnode s ⟨-, rfl⟩
    exact hnode

/-- Where no fault is noted, a `return` is read that ends the block. Counterpart of
`Parser.returnStatement`. -/
theorem sound_returnStatement {grammar : Grammar} (h : grammar.IsSound) :
    Sound (returnStatement grammar) fun s node s' =>
      s.kind = .keyword .returnK → Parsed .block s [node] s' := by
  -- What comes after the values does not depend on them.
  have hrest : ∀ (start : Nat) (values : List Node), Sound (do
      let _ ← accept (.symbol .semicolon)
      make (.returnStatement values) start)
      fun m node s' => ∀ s ts, start = s.token.start → s.kind = .keyword .returnK →
        s.advanced.After ts m → Derives true .arguments s.made m.made ts values →
        Parsed .block s [node] s' := by
    intro start values
    refine sound_accept_cases (by simp) ((sound_make _ _).imp ?_) ((sound_make _ _).imp ?_)
    · rintro _ node s' ⟨rfl, rfl⟩ m ⟨hsemicolon, rfl⟩ s ts rfl hkind hts hvalues
      have hall : s.After (s.token :: (ts ++ [m.token])) m.advanced :=
        (After.read hkind (by simp)).trans (hts.trans (After.read hsemicolon (by simp)))
      refine ⟨_, hall.numbered, ?_⟩
      rw [hall.span_eq (by simp)]
      exact .returnStatement hkind (.inr ⟨m.token, hsemicolon, rfl⟩) hvalues
    · rintro m node s' ⟨rfl, rfl⟩ - s ts rfl hkind hts hvalues
      have hall : s.After (s.token :: (ts ++ [])) m := by
        rw [List.append_nil]
        exact (After.read hkind (by simp)).trans hts
      refine ⟨_, hall.numbered, ?_⟩
      rw [hall.span_eq (by simp)]
      exact .returnStatement hkind (.inl rfl) hvalues
  unfold returnStatement
  refine sound_start.andThen fun start => sound_advance.andThen fun _ =>
    sound_currentKind.andThen fun kind => Sound.ite (fun _ => ?_) (fun _ => ?_)
  · refine (Sound.pure fun s => rfl :
      Sound (pure []) fun s b s' => (b, s') = (([] : List Node), s)).andThen
      fun values => (hrest start values).imp ?_
    rintro m node s' hmake _ hnone _ ⟨-, rfl⟩ s ⟨-, hadvanced⟩ _ ⟨rfl, rfl⟩ hkind
    cases hnone
    cases hadvanced (by simp [hkind])
    exact hmake s [] rfl hkind (.refl _) .noArguments
  · refine (sound_expressionList h).andThen fun values => (hrest start values).imp ?_
    rintro m node s' hmake _ ⟨ts, hts, hvalues⟩ _ ⟨-, rfl⟩ s ⟨-, hadvanced⟩ _ ⟨rfl, rfl⟩ hkind
    cases hadvanced (by simp [hkind])
    exact hmake s ts rfl hkind hts (.someArguments hvalues)

/-- An item of a block has been read. -/
inductive ParsedItem : ParseState → List Node × Bool → ParseState → Prop
  | nothing {s : ParseState} : ParsedItem s ([], false) s
  | semicolon {s : ParseState} : s.kind = .symbol .semicolon → ParsedItem s ([], true) s.advanced
  | last {s s' : ParseState} {node : Node} :
      Parsed .block s [node] s' → ParsedItem s ([node], false) s'
  | statement {s s' : ParseState} {node : Node} :
      ParsedStatement s node s' → ParsedItem s ([node], true) s'

/-- Where no fault is noted, a statement is read, a semicolon is passed, or the block ends.
Counterpart of `Parser.blockItem`. -/
theorem sound_blockItem {grammar : Grammar} (h : grammar.IsSound) :
    Sound (blockItem grammar) ParsedItem := by
  unfold blockItem
  refine sound_currentKind.andThen fun kind => Sound.ite (fun _ => ?_) (fun _ =>
    Sound.ite (fun hsemicolon => ?_) (fun _ => Sound.ite (fun hreturn => ?_) (fun _ => ?_)))
  · refine Sound.pure ?_
    rintro _ s ⟨-, rfl⟩
    exact .nothing
  · refine sound_advance.andThen fun _ => Sound.pure ?_
    rintro _ s ⟨-, hadvanced⟩ _ ⟨rfl, rfl⟩
    cases hadvanced (by simp [hsemicolon])
    exact .semicolon hsemicolon
  · refine (sound_returnStatement h).andThen fun node => sound_current.andThen fun token => ?_
    simp only
    split
    · refine Sound.pure ?_
      rintro _ m ⟨-, rfl⟩ s hnode _ ⟨rfl, rfl⟩
      exact .last (hnode hreturn)
    · exact sound_fault_andThen _ fun _ => Sound.pure fun _ => trivial
  · refine (sound_statement h).andThen fun node => Sound.pure ?_
    rintro s' m hnode s ⟨-, rfl⟩
    exact .statement hnode

/-- Where no fault is noted, a block is read. Counterpart of `Parser.block`. -/
theorem sound_block {grammar : Grammar} (h : grammar.IsSound) :
    Sound (Parser.block grammar) (Parsed .block) := by
  refine (sound_blockItem h).many.imp fun s nodes s' hitems => ?_
  induction hitems with
  | stop hround _ =>
    cases hround with
    | nothing => exact ⟨[], .refl _, .emptyBlock⟩
    | semicolon hkind => exact ⟨_, After.read hkind (by simp), .semicolon hkind .emptyBlock⟩
    | last hblock => exact hblock
    | statement hnode =>
      obtain ⟨ts, hts, hstatement⟩ := hnode.parsed
      refine ⟨_, hts, ?_⟩
      rw [← List.append_nil ts]
      exact .moreStatements (by simp) hstatement .emptyBlock
  | more hround _ ih =>
    obtain ⟨us, hus, hblock⟩ := ih
    cases hround with
    | semicolon hkind => exact ⟨_, (After.read hkind (by simp)).trans hus, .semicolon hkind hblock⟩
    | statement hnode =>
      obtain ⟨ts, hts, hstatement⟩ := hnode.parsed
      exact ⟨_, hts.trans hus,
        .moreStatements (fun _ hhead => hnode.uncalled (hus.kind_eq hhead)) hstatement hblock⟩

/-! ## Sources -/

/-- At every level the grammar reads what it derives. Counterpart of `Grammar.level`. -/
theorem isSound_level (depth : Nat) : (Grammar.level depth).IsSound := by
  induction depth with
  | zero =>
    constructor
    · intro limit
      exact sound_current.andThen fun token => sound_fault_andThen _ fun _ =>
        (sound_makeAt _ _).imp fun _ _ _ _ => trivial
    · exact Sound.pure fun s => ⟨[], .refl s, .emptyBlock⟩
  | succ depth ih => exact ⟨sound_expression ih, sound_block ih⟩

/-- Where no fault is noted, a block is read up to the end of the source. Counterpart of
`Parser.chunk`. -/
theorem sound_chunk {grammar : Grammar} (h : grammar.IsSound) :
    Sound (Parser.chunk grammar) fun s nodes s' =>
      Parsed .block s nodes s' ∧ s'.kind = .endOfFile := by
  have hround : Sound (do
      let body ← grammar.block
      if (← currentKind) = .endOfFile then
        return ((body, false) : List Node × Bool)
      else
        let token ← advance
        fault (.unexpectedToken token)
        return (body, true))
      fun s result s' => Parsed .block s result.1 s' ∧ s'.kind = .endOfFile ∧ result.2 = false := by
    refine h.block.andThen fun body => sound_currentKind.andThen fun kind =>
      Sound.ite (fun hend => Sound.pure ?_) (fun _ => ?_)
    · rintro _ m ⟨rfl, rfl⟩ s hbody
      exact ⟨hbody, hend, rfl⟩
    · exact sound_advance.andThen fun _ => sound_fault_andThen _ fun _ =>
        Sound.pure fun _ => trivial
  refine hround.many.imp fun s nodes s' hitems => ?_
  cases hitems with
  | stop hround _ => exact ⟨hround.1, hround.2.1⟩
  | more hround _ => cases hround.2.2

/-- The end of a source is no token of it. Counterpart of `Scan.nextToken`. -/
theorem nextToken_ne_endOfFile (atStart : Bool) (first : Char) (rest : List Char) :
    (Scan.nextToken atStart first rest).1 ≠ .endOfFile := by
  unfold Scan.nextToken Scan.comment Scan.quoted Scan.longString Scan.word
  dsimp only
  repeat' split
  all_goals simp

/-- No token of a source is the end of the file. Counterpart of `Scan.tokensFrom`. -/
theorem kind_ne_endOfFile_of_mem {source : List Char} {offset : Nat} {token : Token}
    (h : token ∈ Scan.tokensFrom offset source) : token.kind ≠ .endOfFile := by
  fun_induction Scan.tokensFrom offset source with
  | case1 => simp at h
  | case2 offset c rest _ ih => exact ih h
  | case3 offset c rest _ kind length hnext lexeme ih =>
    rcases List.mem_cons.1 h with rfl | h
    · have := nextToken_ne_endOfFile (offset == 0) c rest
      rwa [hnext] at this
    · exact ih h

/-- The run that reads the statements of a source. -/
def chunkRun (source : List Char) : List Node × ParseState :=
  Parser.chunk (Grammar.level ((parse source).tokens.length + 1))
    (Program.initialState source (parse source).tokens)

/-- The root of a tree holds the statements of the source. Counterpart of `parse`. -/
theorem root_parse (source : List Char) :
    (parse source).root = ⟨0, .chunk (chunkRun source).1, ⟨0, byteLength source⟩, false⟩ := rfl

/-- A valid source is read without a fault. Counterpart of `chunkRun`. -/
theorem faults_chunkRun {source : List Char} (h : (parse source).isValid = true) :
    (chunkRun source).2.faults = [] := by
  have hnil : (parse source).faults = [] := List.isEmpty_iff.1 h
  exact List.reverse_eq_nil_iff.1 (List.append_eq_nil_iff.1 hnil).2

/-- The tokens of a valid program derive its tree. Statements are kept apart in it: none goes on
with the parenthesis that the next one starts with. Counterpart of `parse`. -/
theorem derives_of_isValid {source : List Char} (h : (parse source).isValid = true) :
    Derives true .block 1 (parse source).nodeCount (parse source).tokens (chunkRun source).1 := by
  obtain ⟨⟨tokens, hafter, hderives⟩, hend⟩ :=
    (sound_chunk (isSound_level _) _).2 (faults_chunkRun h)
  have htokens : (parse source).tokens = tokens ++ (chunkRun source).2.rest := hafter.rest_eq
  have hrest : (chunkRun source).2.rest = [] := rest_eq_nil_of_kind hend fun token hmem =>
    kind_ne_endOfFile_of_mem (List.mem_filter.1 (htokens ▸ List.mem_append_right _ hmem)).1
  rw [htokens, hrest, List.append_nil]
  exact hderives

end LuaFormatter
