import LuaFormatter.Parse.Program
import LuaFormatter.Proofs.Grammar.Derivation

/-!
# Runs of a parser

`Sound` relates the states before and after a parser, for the runs that note no fault: a fault is
never taken back, so a run is free of them if each of its steps is. The rules follow the monad:
`Sound.andThen` goes through a parser step by step and collects what each step says, and `Rounds`
and `Items` unfold the loops.
-/

namespace LuaFormatter

/-- The end of the last token, or another offset if there are no tokens. -/
def stopAfter (stop : Nat) (tokens : List Token) : Nat :=
  (tokens.getLast?.map Token.stop).getD stop

@[simp] theorem stopAfter_nil (stop : Nat) : stopAfter stop [] = stop := rfl

@[simp] theorem stopAfter_append (stop : Nat) (front back : List Token) :
    stopAfter stop (front ++ back) = stopAfter (stopAfter stop front) back := by
  unfold stopAfter
  rw [List.getLast?_append]
  cases back.getLast? <;> simp

/-- The place of tokens is that of a node made after reading them. Counterpart of `Parser.make`. -/
theorem tokensSpan_eq {first : Token} {rest : List Token} {stop : Nat} :
    tokensSpan (first :: rest) = ⟨first.start,
        max (stopAfter stop (first :: rest)) first.start⟩ := by
  unfold tokensSpan stopAfter
  rw [List.getLast?_eq_some_getLast (List.cons_ne_nil first rest)]
  rfl

namespace ParseState

/-- The token to be read next. -/
def token (state : ParseState) : Token :=
  state.rest.head?.getD ⟨.endOfFile, state.sourceLength, []⟩

/-- The kind of the token to be read next. -/
def kind (state : ParseState) : Kind :=
  state.token.kind

/-- The states before and after reading tokens. -/
structure After (state : ParseState) (tokens : List Token) (next : ParseState) : Prop where
  rest_eq : state.rest = tokens ++ next.rest
  stop_eq : next.previousStop = stopAfter state.previousStop tokens
  length_eq : next.sourceLength = state.sourceLength

/-- A state comes after itself, with nothing read. Counterpart of `After`. -/
theorem After.refl (state : ParseState) : state.After [] state :=
  ⟨rfl, rfl, rfl⟩

/-- Tokens that are read one list after the other. Counterpart of `After`. -/
theorem After.trans {state middle next : ParseState} {front back : List Token}
    (h : state.After front middle) (h' : middle.After back next) :
    state.After (front ++ back) next where
  rest_eq := by rw [h.rest_eq, h'.rest_eq, List.append_assoc]
  stop_eq := by rw [h'.stop_eq, h.stop_eq, stopAfter_append]
  length_eq := h'.length_eq.trans h.length_eq

/-- Reading tokens, the first of which is the one to be read next. Counterpart of
`ParseState.token`. -/
theorem After.token_eq {state next : ParseState} {first : Token} {rest : List Token}
    (h : state.After (first :: rest) next) : state.token = first := by
  simp [token, h.rest_eq]

/-- The kind of the first token that is read is that of the token to be read next. Counterpart of
`ParseState.kind`. -/
theorem After.kind_eq {state next : ParseState} {tokens : List Token} {kind : Kind}
    (h : state.After tokens next) (hhead : tokens.head?.any (·.kind = kind) = true) :
    state.kind = kind := by
  cases tokens with
  | nil => cases hhead
  | cons first rest => rw [ParseState.kind, h.token_eq]; exact of_decide_eq_true hhead

/-- Tokens that are read are no longer left. Counterpart of `After`. -/
theorem After.length_rest {state next : ParseState} {tokens : List Token}
    (h : state.After tokens next) : next.rest.length + tokens.length = state.rest.length := by
  rw [h.rest_eq, List.length_append, Nat.add_comm]

/-- Reading tokens leaves fewer of them. Counterpart of `After`. -/
theorem After.shorter {state next : ParseState} {tokens : List Token}
    (h : state.After tokens next) (hne : tokens ≠ []) :
    next.rest.length < state.rest.length := by
  have hlength := h.length_rest
  have := List.length_pos_iff.2 hne
  omega

/-- The state after the next token. -/
def advanced (state : ParseState) : ParseState :=
  { state with rest := state.rest.tail, previousStop := state.token.stop }

/-- The state after one more node. -/
def numbered (state : ParseState) : ParseState :=
  { state with made := state.made + 1 }

/-- Before the end of the source tokens are left. Counterpart of `ParseState.kind`. -/
theorem rest_ne_nil_of_kind {state : ParseState} (h : state.kind ≠ .endOfFile) :
    state.rest ≠ [] := by
  intro hrest
  exact h (by simp [kind, token, hrest])

/-- At the end of the source all tokens are read, if none of them stands for the end. Counterpart of
`ParseState.kind`. -/
theorem rest_eq_nil_of_kind {state : ParseState} (h : state.kind = .endOfFile)
    (htokens : ∀ token ∈ state.rest, token.kind ≠ .endOfFile) : state.rest = [] := by
  cases hrest : state.rest with
  | nil => rfl
  | cons first rest =>
    refine absurd ?_ (htokens first (by simp [hrest]))
    simpa [kind, token, hrest] using h

/-- Reading a token that is not the end of the source. Counterpart of `ParseState.advanced`. -/
theorem After.advanced {state : ParseState} (h : state.kind ≠ .endOfFile) :
    state.After [state.token] state.advanced := by
  have hrest := rest_ne_nil_of_kind h
  refine ⟨?_, rfl, rfl⟩
  cases hcases : state.rest with
  | nil => exact absurd hcases hrest
  | cons first rest => simp [token, ParseState.advanced, hcases]

/-- Reading a token of a kind. Counterpart of `ParseState.advanced`. -/
theorem After.read {state : ParseState} {kind : Kind} (h : state.kind = kind)
    (hkind : kind ≠ .endOfFile) : state.After [state.token] state.advanced :=
  After.advanced (h ▸ hkind)

/-- Making a node reads no token. Counterpart of `ParseState.numbered`. -/
theorem After.numbered {state next : ParseState} {tokens : List Token}
    (h : state.After tokens next) : state.After tokens next.numbered :=
  ⟨h.rest_eq, h.stop_eq, h.length_eq⟩

/-- A node from the next token to the last one that was read takes up all tokens. Counterpart of
`Parser.make`. -/
theorem After.span_eq {state next : ParseState} {tokens : List Token}
    (h : state.After tokens next) (hne : tokens ≠ []) :
    (⟨state.token.start, max next.previousStop state.token.start⟩ : Span) = tokensSpan tokens := by
  cases tokens with
  | nil => exact absurd rfl hne
  | cons first rest => rw [h.token_eq, h.stop_eq, ← tokensSpan_eq]

end ParseState

namespace Parser

open ParseState

/-- A parser never takes a fault back, and relates the states before and after it if it notes
none. -/
def Sound {α : Type} (parser : Parser α) (relation : ParseState → α → ParseState → Prop) : Prop :=
  ∀ state, state.faults <:+ (parser state).2.faults ∧
    ((parser state).2.faults = state.faults → relation state (parser state).1 (parser state).2)

section
variable {α β : Type} {p q : Parser α} {f : α → Parser β} {R S : ParseState → α → ParseState → Prop}
  {T : ParseState → β → ParseState → Prop}

/-- What is known of a run may be weakened. Counterpart of `Sound`. -/
theorem Sound.imp (h : Sound p R) (himp : ∀ s a s', R s a s' → S s a s') : Sound p S :=
  fun s => ⟨(h s).1, fun hs => himp _ _ _ ((h s).2 hs)⟩

/-- A result without reading. Counterpart of `pure`. -/
theorem Sound.pure {a : α} (h : ∀ s, R s a s) : Sound (pure a) R :=
  fun s => ⟨List.suffix_refl _, fun _ => h s⟩

/-- A result that is changed afterwards. Counterpart of `Functor.map` for `Sound`. -/
theorem Sound.map {g : α → β} (h : Sound p R) :
    Sound (g <$> p) fun s b s' => ∃ a, b = g a ∧ R s a s' :=
  fun s => ⟨(h s).1, fun hs => ⟨_, rfl, (h s).2 hs⟩⟩

/-- A step and what comes after it, which may use what the step says. Counterpart of the bind of
`Parser`. -/
theorem Sound.andThen (h : Sound p R)
    (hf : ∀ a, Sound (f a) fun m b s' => ∀ s, R s a m → T s b s') : Sound (p >>= f) T := by
  intro s
  have hfirst := (h s).1
  have hsecond := (hf (p s).1 (p s).2).1
  refine ⟨hfirst.trans hsecond, fun hs => ?_⟩
  have hmiddle : (p s).2.faults = s.faults := by
    refine (hfirst.eq_of_length_le ?_).symm
    rw [← hs]
    exact hsecond.length_le
  exact (hf _ _).2 (hs.trans hmiddle.symm) s ((h s).2 hmiddle)

/-- A choice, if both branches are sound. Counterpart of `ite` for `Sound`. -/
theorem Sound.ite {c : Prop} [Decidable c] (hp : c → Sound p R) (hq : ¬c → Sound q R) :
    Sound (if c then p else q) R := by
  split
  · exact hp ‹_›
  · exact hq ‹_›

/-- What a loop does: the value and the state after each round. -/
inductive Rounds (R : α → ParseState → α × Bool → ParseState → Prop) :
    α → ParseState → α → ParseState → Prop
  | stop {value next : α} {goesOn : Bool} {s s' : ParseState} : R value s (next, goesOn) s' →
    (goesOn = true → s.rest.length ≤ s'.rest.length) → Rounds R value s next s'
  | more {value next final : α} {s m s' : ParseState} : R value s (next, true) m →
    Rounds R next m final s' → Rounds R value s final s'

/-- One round of a loop: it goes on if the round says so and has read a token. Counterpart of
`Parser.extend`. -/
theorem extend_eq (round : α → Parser (α × Bool)) (value : α) (s : ParseState) :
    extend round value s =
      if (round value s).1.2 ∧ (round value s).2.rest.length < s.rest.length then
        extend round (round value s).1.1 (round value s).2
      else
        ((round value s).1.1, (round value s).2) := by
  rw [extend]
  rfl

/-- A loop is sound if its rounds are. Counterpart of `Parser.extend`. -/
theorem Sound.extend {round : α → Parser (α × Bool)}
    {R : α → ParseState → α × Bool → ParseState → Prop} (h : ∀ value, Sound (round value) (R value))
    (value : α) : Sound (extend round value) (Rounds R value) := by
  intro s
  induction hlength : s.rest.length using Nat.strongRecOn generalizing value s with
  | ind length ih =>
    obtain ⟨hgrows, hrelated⟩ := h value s
    rw [extend_eq]
    split
    · rename_i hgo
      obtain ⟨hlater, hrounds⟩ := ih _ (hlength ▸ hgo.2) (round value s).1.1 _ rfl
      refine ⟨hgrows.trans hlater, fun hs => ?_⟩
      have hmiddle : (round value s).2.faults = s.faults := by
        refine (hgrows.eq_of_length_le ?_).symm
        rw [← hs]
        exact hlater.length_le
      have hround := hrelated hmiddle
      rw [← Prod.eta (round value s).1, hgo.1] at hround
      exact .more hround (hrounds (hs.trans hmiddle.symm))
    · rename_i hstop
      exact ⟨hgrows, fun hs => .stop (hrelated hs) fun hgo => by simpa [hgo] using hstop⟩

/-- What a loop that collects items does, round by round. -/
inductive Items (R : ParseState → List α × Bool → ParseState → Prop) :
    ParseState → List α → ParseState → Prop
  | stop {items : List α} {goesOn : Bool} {s s' : ParseState} : R s (items, goesOn) s' →
    (goesOn = true → s.rest.length ≤ s'.rest.length) → Items R s items s'
  | more {items others : List α} {s m s' : ParseState} : R s (items, true) m →
    Items R m others s' → Items R s (items ++ others) s'

/-- A loop that only adds to a list adds the items of its rounds. Counterpart of `Items`. -/
theorem Rounds.items {R : ParseState → List α × Bool → ParseState → Prop} {front final : List α}
    {s s' : ParseState}
    (h : Rounds (fun front s result s' => ∃ items, R s (items, result.2) s' ∧
      result.1 = front ++ items) front s final s') :
    ∃ items, final = front ++ items ∧ Items R s items s' := by
  induction h with
  | stop hround hlength =>
    obtain ⟨items, hround, rfl⟩ := hround
    exact ⟨items, rfl, .stop hround hlength⟩
  | more hround _ ih =>
    obtain ⟨items, hround, rfl⟩ := hround
    obtain ⟨others, rfl, hothers⟩ := ih
    exact ⟨items ++ others, by simp, .more hround hothers⟩

/-- A loop that collects items is sound if its rounds are. Counterpart of `Parser.many`. -/
theorem Sound.many {round : Parser (List α × Bool)}
    {R : ParseState → List α × Bool → ParseState → Prop} (h : Sound round R) :
    Sound (many round) (Items R) := by
  have hround : ∀ front : List α,
      Sound (do return ((← round).map (front ++ ·) id)) fun s result s' =>
      ∃ items, R s (items, result.2) s' ∧ result.1 = front ++ items := fun front =>
    h.andThen fun result => Sound.pure fun m s hround => ⟨result.1, hround, rfl⟩
  refine (Sound.extend hround []).imp fun s items s' hrounds => ?_
  obtain ⟨_, rfl, hitems⟩ := hrounds.items
  exact hitems

end

/-! ## The steps of a parser -/

/-- The current token is the next one. Counterpart of `Parser.current`. -/
theorem sound_current : Sound current fun s token s' => token = s.token ∧ s' = s :=
  fun _ => ⟨List.suffix_refl _, fun _ => ⟨rfl, rfl⟩⟩

/-- The kind of the current token is that of the next one. Counterpart of `Parser.currentKind`. -/
theorem sound_currentKind : Sound currentKind fun s kind s' => kind = s.kind ∧ s' = s :=
  fun _ => ⟨List.suffix_refl _, fun _ => ⟨rfl, rfl⟩⟩

/-- The kind of the token after it is that of the one after the next. Counterpart of
`Parser.followingKind`. -/
theorem sound_followingKind :
    Sound followingKind fun s kind s' =>
      kind = (s.rest.tail.head?.map Token.kind).getD .endOfFile ∧ s' = s :=
  fun _ => ⟨List.suffix_refl _, fun _ => ⟨rfl, rfl⟩⟩

/-- A rule starts where the next token does. Counterpart of `Parser.start`. -/
theorem sound_start : Sound start fun s offset s' => offset = s.token.start ∧ s' = s :=
  fun _ => ⟨List.suffix_refl _, fun _ => ⟨rfl, rfl⟩⟩

/-- While tokens are left, the next one is passed. Counterpart of `Parser.advance`. -/
theorem advance_of_rest {s : ParseState} (h : s.rest ≠ []) : advance s = (s.token, s.advanced) := by
  obtain ⟨rest, previousStop, sourceLength, made, faults⟩ := s
  cases rest with
  | nil => exact absurd rfl h
  | cons first rest => rfl

/-- At the end of the source nothing is passed. Counterpart of `Parser.advance`. -/
theorem advance_of_nil {s : ParseState} (h : s.rest = []) : advance s = (s.token, s) := by
  obtain ⟨rest, previousStop, sourceLength, made, faults⟩ := s
  cases h
  rfl

/-- The token that is passed is the next one. Counterpart of `Parser.advance`. -/
theorem sound_advance :
    Sound advance fun s token s' => token = s.token ∧ (s.kind ≠ .endOfFile → s' = s.advanced) := by
  intro s
  cases hrest : s.rest with
  | nil =>
    rw [advance_of_nil hrest]
    exact ⟨List.suffix_refl _, fun _ =>
      ⟨rfl, fun hkind => absurd hrest (rest_ne_nil_of_kind hkind)⟩⟩
  | cons first rest =>
    rw [advance_of_rest (by simp [hrest])]
    exact ⟨List.suffix_refl _, fun _ => ⟨rfl, fun _ => rfl⟩⟩

/-- A parser that notes a fault has no run without one. Counterpart of `Parser.fault`. -/
theorem sound_fault (fault : Fault) : Sound (Parser.fault fault) fun _ _ _ => False := by
  intro s
  refine ⟨List.suffix_cons _ _, fun h => ?_⟩
  exact absurd h (List.cons_ne_self _ _)

/-- After a fault nothing is left to be shown, but that no fault is taken back. Counterpart of
`Parser.fault` before the rest of a rule. -/
theorem sound_fault_andThen {β : Type} {f : Unit → Parser β}
    {T : ParseState → β → ParseState → Prop} (fault : Fault)
    (hf : ∀ a, Sound (f a) fun _ _ _ => True) :
    Sound (Parser.fault fault >>= f) T :=
  (sound_fault fault).andThen fun a => (hf a).imp fun _ _ _ _ _ hfalse => hfalse.elim

/-- A token is passed if it is of the kind. Counterpart of `Parser.accept`. -/
theorem sound_accept {kind : Kind} (hkind : kind ≠ .endOfFile) :
    Sound (accept kind) fun s accepted s' =>
      (accepted = true ∧ s.kind = kind ∧ s' = s.advanced) ∨
        (accepted = false ∧ s.kind ≠ kind ∧ s' = s) := by
  unfold accept
  refine sound_currentKind.andThen fun found => Sound.ite (fun hfound => ?_) (fun hfound => ?_)
  · refine sound_advance.andThen fun _ => Sound.pure ?_
    rintro s' m ⟨-, hadvanced⟩ s ⟨rfl, rfl⟩
    exact .inl ⟨rfl, hfound, hadvanced (hfound ▸ hkind)⟩
  · refine Sound.pure ?_
    rintro _ s ⟨rfl, rfl⟩
    exact .inr ⟨rfl, hfound, rfl⟩

/-- The two ways to go on after a token that may be there. Counterpart of `Parser.accept` before the
rest of a rule. -/
theorem sound_accept_cases {β : Type} {f : Bool → Parser β} {T : ParseState → β → ParseState → Prop}
    {kind : Kind} (hkind : kind ≠ .endOfFile)
    (htrue : Sound (f true) fun m b s' => ∀ s, s.kind = kind ∧ m = s.advanced → T s b s')
    (hfalse : Sound (f false) fun s b s' => s.kind ≠ kind → T s b s') :
    Sound (accept kind >>= f) T := by
  refine (sound_accept hkind).andThen fun accepted => ?_
  cases accepted with
  | true =>
    refine htrue.imp ?_
    rintro m b s' h s (⟨-, hs⟩ | ⟨hcontra, -⟩)
    · exact h s hs
    · cases hcontra
  | false =>
    refine hfalse.imp ?_
    rintro m b s' h s (⟨hcontra, -⟩ | ⟨-, hs, rfl⟩)
    · cases hcontra
    · exact h hs

/-- Where no fault is noted, a token of the kind is passed. Counterpart of `Parser.expect`. -/
theorem sound_expect {kind : Kind} (hkind : kind ≠ .endOfFile) :
    Sound (expect kind) fun s _ s' => s.kind = kind ∧ s' = s.advanced := by
  unfold expect
  refine sound_accept_cases hkind (Sound.pure fun _ _ hs => hs) ?_
  exact sound_current.andThen fun token => (sound_fault _).imp fun _ _ _ hfalse => hfalse.elim

/-- A node is made with the next number. Counterpart of `Parser.makeAt`. -/
theorem sound_makeAt (shape : Shape Node) (span : Span) :
    Sound (makeAt shape span) fun s node s' =>
      node = ⟨s.made, shape, span, false⟩ ∧ s' = s.numbered :=
  fun _ => ⟨List.suffix_refl _, fun _ => ⟨rfl, rfl⟩⟩

/-- A node is made that ends at the last token read. Counterpart of `Parser.make`. -/
theorem sound_make (shape : Shape Node) (start : Nat) :
    Sound (make shape start) fun s node s' =>
      node = ⟨s.made, shape, ⟨start, max s.previousStop start⟩, false⟩ ∧ s' = s.numbered :=
  fun _ => ⟨List.suffix_refl _, fun _ => ⟨rfl, rfl⟩⟩

end Parser

end LuaFormatter
