import Mathlib.Logic.Relation
import LuaFormatter.Proofs.Grammar.Run

/-!
# Parsers in step

`Move` is what a parser can do to a state at a time: read a token while there is one, note a fault
or make a node. Tokens are only ever taken from the front (`Moves.suffix`), so a reading never goes
back.

`InStepAt` compares two parsers from a state: they do the same, move by move, and have read a token
if the result says so. It goes through a rule of the grammar piece by piece, and the length of what
is left decides what a piece may rely on: `InStep n` speaks of the states with fewer than `n` tokens
left, so a piece that comes after a token is compared under a smaller bound than the rule it belongs
to (`InStepAt.before`). That is why a rule can be compared when only what it nests is known to be in
step further on.

`LoopEnds` is what the bound on the rounds of a loop stands for: the loop ends because a round asks
for no other one, and not because the round read nothing.
-/

namespace LuaFormatter

namespace ParseState

/-- One move of a reading. -/
inductive Move : ParseState → ParseState → Prop
  | read {s : ParseState} : s.rest ≠ [] → Move s s.advanced
  | note {s : ParseState} (fault : Fault) : Move s { s with faults := fault :: s.faults }
  | make {s : ParseState} : Move s s.numbered

/-- Any number of moves. -/
abbrev Moves : ParseState → ParseState → Prop :=
  Relation.ReflTransGen Move

/-- A move leaves the end of what is to be read. Counterpart of `Move`. -/
theorem Move.suffix {s s' : ParseState} (h : Move s s') : s'.rest <:+ s.rest := by
  cases h with
  | read => exact List.tail_suffix s.rest
  | note | make => exact List.suffix_refl _

/-- What is left after some moves is the end of what was left before. Counterpart of `Moves`. -/
theorem Moves.suffix {s s' : ParseState} (h : s.Moves s') : s'.rest <:+ s.rest := by
  induction h with
  | refl => exact List.suffix_refl _
  | tail _ hstep ih => exact hstep.suffix.trans ih

/-- Moves leave no more tokens than there were. Counterpart of `Moves`. -/
theorem Moves.length_le {s s' : ParseState} (h : s.Moves s') : s'.rest.length ≤ s.rest.length :=
  h.suffix.length_le

/-- A token of another kind than the end of the file is still to be read. Counterpart of
`ParseState.kind`. -/
theorem rest_ne_nil_of_eq {s : ParseState} {kind : Kind} (h : s.kind = kind)
    (hkind : kind ≠ .endOfFile) :
    s.rest ≠ [] :=
  rest_ne_nil_of_kind (h ▸ hkind)

end ParseState

namespace Parser

open ParseState

/-- From a state, two parsers do the same, move by move, and read a token if the result says so. -/
structure InStepAt {α : Type} (s : ParseState) (p q : Parser α) (reads : α → Prop) : Prop where
  same : p s = q s
  moves : s.Moves (p s).2
  reads : reads (p s).1 → (p s).2.rest.length < s.rest.length

/-- Two parsers are in step from all states with fewer than `n` tokens left. -/
def InStep {α : Type} (n : Nat) (p q : Parser α) (reads : α → Prop) : Prop :=
  ∀ s : ParseState, s.rest.length < n → InStepAt s p q reads

/-- A parser is in step with itself: it only makes moves, and reads a token if the result says
so. -/
abbrev Paced {α : Type} (n : Nat) (p : Parser α) (reads : α → Prop) : Prop :=
  InStep n p p reads

/-- No result says that a token was read. -/
abbrev never {α : Type} (_ : α) : Prop :=
  False

/-- Every result says that a token was read. -/
abbrev always {α : Type} (_ : α) : Prop :=
  True

/-- A round that asks for another one says that a token was read. -/
abbrev ifMore {α : Type} (result : α × Bool) : Prop :=
  result.2 = true

section
variable {α β : Type} {n : Nat} {s : ParseState} {p q : Parser α} {f g : α → Parser β}
  {R R' : α → Prop} {T : β → Prop}

/-- Fewer results need to say that a token was read. Counterpart of `InStepAt`. -/
theorem InStepAt.imp (h : InStepAt s p q R) (himp : ∀ a, R' a → R a) : InStepAt s p q R' :=
  ⟨h.same, h.moves, fun hreads => h.reads (himp _ hreads)⟩

/-- No result needs to say that a token was read. Counterpart of `InStepAt.imp`. -/
theorem InStepAt.weaken (h : InStepAt s p q R) : InStepAt s p q never :=
  h.imp fun _ => False.elim

/-- Parsers in step for some number of tokens are so for fewer. Counterpart of `InStep`. -/
theorem InStep.mono {k : Nat} (h : InStep n p q R) (hk : k ≤ n) : InStep k p q R :=
  fun s hs => h s (Nat.lt_of_lt_of_le hs hk)

/-- What is in step with the same parser is in step. Counterpart of `InStepAt`. -/
theorem InStepAt.joined {q' : Parser α} (h : InStepAt s p q R) (h' : InStepAt s p q' R) :
    InStepAt s q q' R :=
  ⟨h.same.symm.trans h'.same, h.same ▸ h.moves, h.same ▸ h.reads⟩

/-- A result without reading, in step with itself from a state. Counterpart of `pure`. -/
theorem InStepAt.pure {a : α} (h : ¬R a) : InStepAt s (pure a) (pure a) R :=
  ⟨rfl, .refl, fun hreads => absurd hreads h⟩

/-- A result without reading is in step with itself. Counterpart of `pure`. -/
theorem InStep.pure {a : α} (h : ¬R a) : Paced n (pure a) R :=
  fun _ _ => .pure h

/-! ## One piece after another -/

/-- A piece and what comes after it, which must have read a token if the first piece did not.
Counterpart of the bind of `Parser`. -/
theorem InStepAt.bind (h : InStepAt s p q R)
    (hf : ∀ a m, m.rest.length ≤ s.rest.length → (R a → m.rest.length < s.rest.length) →
      InStepAt m (f a) (g a) fun b => T b ∧ ¬R a) : InStepAt s (p >>= f) (q >>= g) T := by
  have hlater := hf (p s).1 (p s).2 h.moves.length_le h.reads
  refine ⟨?_, h.moves.trans hlater.moves, fun hreads => ?_⟩
  · change f (p s).1 (p s).2 = g (q s).1 (q s).2
    rw [hlater.same, h.same]
  · change (f (p s).1 (p s).2).2.rest.length < s.rest.length
    by_cases hfirst : R (p s).1
    · exact Nat.lt_of_le_of_lt hlater.moves.length_le (h.reads hfirst)
    · exact Nat.lt_of_lt_of_le (hlater.reads ⟨hreads, hfirst⟩) h.moves.length_le

/-- Two parsers one after the other are in step if both are; a token is surely read if either surely
reads one. Counterpart of the bind of `Parser`. -/
theorem InStep.bind (h : InStep n p q R) (hf : ∀ a, InStep n (f a) (g a) fun b => T b ∧ ¬R a) :
    InStep n (p >>= f) (q >>= g) T :=
  fun s hs => (h s hs).bind fun a m hm _ => hf a m (Nat.lt_of_le_of_lt hm hs)

/-- A piece and what comes after it, which reads what is to be read. Counterpart of the bind of
`Parser`. -/
theorem InStep.then (h : InStep n p q R) (hf : ∀ a, InStep n (f a) (g a) T) :
    InStep n (p >>= f) (q >>= g) T :=
  h.bind fun a m hm => (hf a m hm).imp fun _ => And.left

/-- What comes after a piece that reads a token has fewer tokens left. Counterpart of the bind of
`Parser`. -/
theorem InStepAt.before (h : InStepAt s p q always) (hs : s.rest.length ≤ n)
    (hf : ∀ a, InStep n (f a) (g a) never) : InStepAt s (p >>= f) (q >>= g) T :=
  h.bind fun a m _ hread =>
    (hf a m (Nat.lt_of_lt_of_le (hread trivial) hs)).imp fun _ hb => hb.2 trivial

/-- What comes after a piece that may have read a token. Counterpart of the bind of `Parser`. -/
theorem InStepAt.thenUnder {c : Prop} (h : InStepAt s p q fun _ => c) (hs : s.rest.length < n)
    (hf : ∀ a, InStep n (f a) (g a) never) : InStepAt s (p >>= f) (q >>= g) fun _ => c :=
  h.bind fun a m hm _ => (hf a m (Nat.lt_of_le_of_lt hm hs)).imp fun _ hb => hb.2 hb.1

/-- A choice is in step from a state if both branches are where they are taken. Counterpart of `ite`
for `InStepAt`. -/
theorem InStepAt.ite {c : Prop} [Decidable c] {p' q' : Parser α} (hp : c → InStepAt s p q R)
    (hq : ¬c → InStepAt s p' q' R) : InStepAt s (if c then p else p') (if c then q else q') R := by
  split
  · exact hp ‹_›
  · exact hq ‹_›

/-- A choice is in step if both branches are. Counterpart of `ite` for `InStep`. -/
theorem InStep.ite {c : Prop} [Decidable c] {p' q' : Parser α} (hp : InStep n p q R)
    (hq : InStep n p' q' R) : InStep n (if c then p else p') (if c then q else q') R :=
  fun s hs => .ite (fun _ => hp s hs) (fun _ => hq s hs)

/-- A piece that is left out under a condition, and what comes after it. Counterpart of `ite` for
`InStep`. -/
theorem InStep.skipIf {c : Prop} [Decidable c] {a : α} (h : InStep n p q never)
    (hf : ∀ a, InStep n (f a) (g a) T) :
    InStep n (if c then f a else p >>= f) (if c then g a else q >>= g) T :=
  .ite (hf a) (h.then hf)

/-- A piece that is there under a condition only, and what comes after it. Counterpart of `ite` for
`InStep`. -/
theorem InStep.onlyIf {c : Prop} [Decidable c] {a : α} (h : InStep n p q never)
    (hf : ∀ a, InStep n (f a) (g a) T) :
    InStep n (if c then p >>= f else f a) (if c then q >>= g else g a) T :=
  .ite (h.then hf) (hf a)

end

/-! ## The steps of a parser -/

section
variable {β : Type} {n : Nat} {s : ParseState} {T : β → Prop}

/-- After a look at the current token, parsers are in step if they are for this token. Counterpart
of `Parser.current`. -/
theorem InStepAt.current {f g : Token → Parser β} (h : InStepAt s (f s.token) (g s.token) T) :
    InStepAt s (current >>= f) (current >>= g) T :=
  ⟨h.same, h.moves, h.reads⟩

/-- After a look at the current kind, parsers are in step if they are for this kind. Counterpart of
`Parser.currentKind`. -/
theorem InStepAt.currentKind {f g : Kind → Parser β} (h : InStepAt s (f s.kind) (g s.kind) T) :
    InStepAt s (currentKind >>= f) (currentKind >>= g) T :=
  ⟨h.same, h.moves, h.reads⟩

/-- After a look at where the current token starts, parsers are in step if they are for this offset.
Counterpart of `Parser.start`. -/
theorem InStepAt.start {f g : Nat → Parser β}
    (h : InStepAt s (f s.token.start) (g s.token.start) T) :
    InStepAt s (start >>= f) (start >>= g) T :=
  ⟨h.same, h.moves, h.reads⟩

/-- A look at the current token only makes moves. Counterpart of `Parser.current`. -/
theorem inStep_current : Paced n current never :=
  fun _ _ => ⟨rfl, .refl, False.elim⟩

/-- A look at the current kind only makes moves. Counterpart of `Parser.currentKind`. -/
theorem inStep_currentKind : Paced n currentKind never :=
  fun _ _ => ⟨rfl, .refl, False.elim⟩

/-- A look at the kind after it only makes moves. Counterpart of `Parser.followingKind`. -/
theorem inStep_followingKind : Paced n followingKind never :=
  fun _ _ => ⟨rfl, .refl, False.elim⟩

/-- A look at where the current token starts only makes moves. Counterpart of `Parser.start`. -/
theorem inStep_start : Paced n start never :=
  fun _ _ => ⟨rfl, .refl, False.elim⟩

/-- Going on from a token leaves fewer of them. Counterpart of `ParseState.advanced`. -/
theorem length_advanced (h : s.rest ≠ []) : s.advanced.rest.length < s.rest.length := by
  have hpos := List.length_pos_iff.2 h
  simp only [advanced, List.length_tail]
  omega

/-- Going on from a token surely reads it. Counterpart of `Parser.advance`. -/
theorem inStepAt_advance (h : s.rest ≠ []) : InStepAt s advance advance always := by
  refine ⟨rfl, ?_, fun _ => ?_⟩
  · rw [advance_of_rest h]
    exact .single (.read h)
  · rw [advance_of_rest h]
    exact length_advanced h

/-- Going on only makes moves, also at the end of the file. Counterpart of `Parser.advance`. -/
theorem inStep_advance : Paced n advance never := by
  intro s hs
  by_cases hrest : s.rest = []
  · refine ⟨rfl, ?_, False.elim⟩
    rw [advance_of_nil hrest]
  · exact (inStepAt_advance hrest).weaken

/-- What comes after the next token, if there is one, has fewer tokens left. Counterpart of
`Parser.advance`. -/
theorem InStepAt.advance {f g : Token → Parser β} (h : s.rest ≠ []) (hs : s.rest.length ≤ n)
    (hf : ∀ token, InStep n (f token) (g token) never) :
    InStepAt s (advance >>= f) (advance >>= g) T :=
  (inStepAt_advance h).before hs hf

/-- After a fault the same tokens are left. Counterpart of `Parser.fault`. -/
theorem InStepAt.fault {f g : Unit → Parser β} {fault : Fault}
    (h : InStepAt { s with faults := fault :: s.faults } (f ()) (g ()) T) :
    InStepAt s (Parser.fault fault >>= f) (Parser.fault fault >>= g) T :=
  ⟨h.same, .head (.note fault) h.moves, h.reads⟩

/-- A report only makes moves. Counterpart of `Parser.fault`. -/
theorem inStep_fault (fault : Fault) : Paced n (Parser.fault fault) never :=
  fun _ _ => ⟨rfl, .single (.note fault), False.elim⟩

/-- A token that is accepted is read. Counterpart of `Parser.accept`. -/
theorem inStep_accepted {kind : Kind} (hkind : kind ≠ .endOfFile) :
    Paced n (accept kind) (· = true) := by
  intro s _
  unfold accept
  refine .currentKind (.ite (fun hfound => ?_) (fun _ => .pure Bool.false_ne_true))
  exact .advance (rest_ne_nil_of_eq hfound hkind) (Nat.le_refl _) fun _ => .pure not_false

/-- Reading a token if it is there only makes moves. Counterpart of `Parser.accept`. -/
theorem inStep_accept (kind : Kind) : Paced n (accept kind) never := by
  unfold accept
  exact inStep_currentKind.then fun _ =>
    .ite (inStep_advance.then fun _ => .pure not_false) (.pure not_false)

/-- The two ways to go on after a token that may be there. Counterpart of `Parser.accept`. -/
theorem InStepAt.accept {kind : Kind} {f g : Bool → Parser β}
    (htrue : s.kind = kind →
      InStepAt s (Parser.advance >>= fun _ => f true) (Parser.advance >>= fun _ => g true) T)
    (hfalse : s.kind ≠ kind → InStepAt s (f false) (g false) T) :
    InStepAt s (Parser.accept kind >>= f) (Parser.accept kind >>= g) T := by
  have hunfold : ∀ f : Bool → Parser β,
      Parser.accept kind >>= f = Parser.currentKind >>= fun found =>
      if found = kind then Parser.advance >>= fun _ => f true else f false := by
    intro f
    unfold Parser.accept
    rw [bind_assoc]
    congr
    funext found
    split <;> simp
  rw [hunfold, hunfold]
  exact .currentKind (.ite htrue hfalse)

/-- The token that is expected is read if it is there. Counterpart of `Parser.expect`. -/
theorem inStepAt_expect {kind : Kind} (hkind : kind ≠ .endOfFile) :
    InStepAt s (expect kind) (expect kind) fun _ => s.kind = kind := by
  unfold expect
  refine .accept (fun h => ?_) (fun h => ?_)
  · exact .advance (rest_ne_nil_of_eq h hkind) (Nat.le_refl _) fun _ => .pure not_false
  · exact .current (.imp (inStep_fault _ _ (Nat.lt_succ_self _)) fun _ => h)

/-- Reading a token, or reporting that it is missing, only makes moves. Counterpart of
`Parser.expect`. -/
theorem inStep_expect (kind : Kind) : Paced n (expect kind) never := by
  unfold expect
  exact (inStep_accept kind).then fun _ =>
    .ite (.pure not_false) (inStep_current.then fun _ => inStep_fault _)

/-- Making a node at a span only makes moves. Counterpart of `Parser.makeAt`. -/
theorem inStep_makeAt (shape : Shape Node) (span : Span) :
    Paced n (makeAt shape span) never :=
  fun _ _ => ⟨rfl, .single .make, False.elim⟩

/-- Making a node only makes moves. Counterpart of `Parser.make`. -/
theorem inStep_make (shape : Shape Node) (start : Nat) :
    Paced n (make shape start) never :=
  fun _ _ => ⟨rfl, .single .make, False.elim⟩

/-- Making a node in place of a token only makes moves. Counterpart of `Parser.makeInvalid`. -/
theorem inStep_makeInvalid (token : Token) : Paced n (makeInvalid token) never :=
  inStep_makeAt _ _

end

/-! ## Loops -/

section
variable {α : Type} {n : Nat} {s : ParseState} {round round' : α → Parser (α × Bool)}

/-- A first round, and the loops after it. Counterpart of `Parser.extend`. -/
theorem InStepAt.firstRound {c : Prop} {value : α}
    (h : InStepAt s (round value) (round' value) fun _ => c)
    (hlater : ∀ next m, m.rest.length < s.rest.length →
      InStepAt m (extend round next) (extend round' next) never) :
    InStepAt s (extend round value) (extend round' value) fun _ => c := by
  by_cases hgo : (round value s).1.2 ∧ (round value s).2.rest.length < s.rest.length
  · have hnext := hlater (round value s).1.1 _ hgo.2
    have hunfold := (extend_eq round value s).trans (if_pos hgo)
    refine ⟨?_, ?_, fun _ => ?_⟩
    · rw [hunfold, hnext.same, extend_eq round' value s, ← h.same, if_pos hgo]
    · rw [hunfold]
      exact h.moves.trans hnext.moves
    · rw [hunfold]
      exact Nat.lt_of_le_of_lt hnext.moves.length_le hgo.2
  · have hunfold := (extend_eq round value s).trans (if_neg hgo)
    refine ⟨?_, ?_, fun hc => ?_⟩
    · rw [hunfold, extend_eq round' value s, ← h.same, if_neg hgo]
    · rw [hunfold]
      exact h.moves
    · rw [hunfold]
      exact h.reads hc

/-- Loops are in step if their rounds are. Counterpart of `Parser.extend`. -/
theorem InStep.extend (h : ∀ value, InStep n (round value) (round' value) ifMore) (value : α) :
    InStep n (extend round value) (extend round' value) never := by
  intro s hs
  induction hlength : s.rest.length using Nat.strongRecOn generalizing value s with
  | ind length ih =>
    subst hlength
    exact (h value s hs).weaken.firstRound fun next m hm => ih _ hm next m (Nat.lt_trans hm hs) rfl

/-- A loop whose first round reads a token. Counterpart of `Parser.extend`. -/
theorem InStepAt.extend {value : α} (h : InStepAt s (round value) (round' value) always)
    (hs : s.rest.length ≤ n) (hrounds : ∀ value, InStep n (round value) (round' value) ifMore) :
    InStepAt s (extend round value) (Parser.extend round' value) always :=
  h.firstRound fun next m hm => InStep.extend hrounds next m (Nat.lt_of_lt_of_le hm hs)

end

/-- A round that adds its items to those that were there before. -/
def collecting {α : Type} (round : Parser (List α × Bool)) (items : List α) :
    Parser (List α × Bool) :=
  return ((← round).map (items ++ ·) id)

/-- A loop collects the items of its rounds from none on. Counterpart of `Parser.many`. -/
theorem many_eq {α : Type} (round : Parser (List α × Bool)) :
    many round = extend (collecting round) [] :=
  rfl

/-- One item of a list with commas, and whether a comma follows. -/
def listed {α : Type} (item : Parser α) : Parser (List α × Bool) := do
  let value ← item
  return ([value], ← accept (.symbol .comma))

/-- A list with commas is a loop over its items. Counterpart of `Parser.commaSeparated`. -/
theorem commaSeparated_eq {α : Type} (item : Parser α) : commaSeparated item = many (listed item) :=
  rfl

section
variable {α : Type} {n : Nat} {s : ParseState} {round round' : Parser (List α × Bool)}
  {item item' : Parser α}

/-- A round with the items so far is in step if the round is. Counterpart of `collecting`. -/
theorem InStep.collecting (h : InStep n round round' ifMore) (items : List α) :
    InStep n (collecting round items) (Parser.collecting round' items) ifMore :=
  h.bind fun _ => .pure fun hmore => hmore.2 hmore.1

/-- A loop is in step if its rounds are and read a token whenever they ask for more. Counterpart of
`Parser.many`. -/
theorem InStep.many (h : InStep n round round' ifMore) :
    InStep n (many round) (Parser.many round') never := by
  rw [many_eq, many_eq]
  exact InStep.extend h.collecting []

/-- A loop that collects items, and whose first round reads a token. Counterpart of
`Parser.many`. -/
theorem InStepAt.many (h : InStepAt s round round' always) (hs : s.rest.length ≤ n)
    (hrounds : InStep n round round' ifMore) :
    InStepAt s (many round) (Parser.many round') always := by
  rw [many_eq, many_eq]
  exact InStepAt.extend (h.bind fun _ _ _ _ => .pure fun hread => hread.2 trivial) hs
    hrounds.collecting

/-- An item with the comma after it is in step if the item is; the comma is a token that was read.
Counterpart of `listed`. -/
theorem InStep.listed (h : InStep n item item' never) :
    InStep n (listed item) (Parser.listed item') ifMore :=
  h.then fun _ => (inStep_accepted (by nofun)).bind fun _ => .pure fun hmore => hmore.2 hmore.1

/-- A list with commas is in step if its items are. Counterpart of `Parser.commaSeparated`. -/
theorem InStep.commaSeparated (h : InStep n item item' never) :
    InStep n (commaSeparated item) (Parser.commaSeparated item') never := by
  rw [commaSeparated_eq, commaSeparated_eq]
  exact h.listed.many

end

/-! ## The ends of loops -/

/-- What a loop does round by round when nothing but its rounds ends it. -/
inductive Repeats {α : Type} (round : α → Parser (α × Bool)) :
    Nat → α → ParseState → α × ParseState → Prop
  | stop {value : α} {s : ParseState} : (round value s).1.2 = false →
    Repeats round 1 value s ((round value s).1.1, (round value s).2)
  | again {count : Nat} {value : α} {s : ParseState} {result : α × ParseState} :
    (round value s).1.2 = true → Repeats round count (round value s).1.1 (round value s).2 result →
    Repeats round (count + 1) value s result

/-- From every state the loop ends by itself, after at most one round more than there are tokens
left. -/
def LoopEnds {α : Type} (round : α → Parser (α × Bool)) : Prop :=
  ∀ value s, ∃ count ≤ s.rest.length + 1, Repeats round count value s (extend round value s)

/-- A loop ends by itself if a round that asks for another one has read a token. Counterpart of
`LoopEnds`. -/
theorem loopEnds_of_inStep {α : Type} {round : α → Parser (α × Bool)}
    (h : ∀ n value, Paced n (round value) ifMore) : LoopEnds round := by
  intro value s
  induction hlength : s.rest.length using Nat.strongRecOn generalizing value s with
  | ind length ih =>
    subst hlength
    have hround := h _ value s (Nat.lt_succ_self _)
    cases hmore : (round value s).1.2 with
    | false =>
      rw [extend_eq, if_neg fun hgo => by simp [hmore] at hgo]
      exact ⟨1, by omega, .stop hmore⟩
    | true =>
      have hread := hround.reads hmore
      obtain ⟨count, hcount, hlater⟩ := ih _ hread (round value s).1.1 _ rfl
      rw [extend_eq, if_pos ⟨hmore, hread⟩]
      exact ⟨count + 1, by omega, .again hmore hlater⟩

/-- After a loop has ended, its last round has asked for no other one. Counterpart of `Repeats`. -/
theorem Repeats.last {α : Type} {round : α → Parser (α × Bool)} {count : Nat} {value : α}
    {s : ParseState} {result : α × ParseState} (h : Repeats round count value s result) :
    ∃ last m, (round last m).1.2 = false ∧ (round last m).2 = result.2 := by
  induction h with
  | stop hmore => exact ⟨_, _, hmore, rfl⟩
  | again _ _ ih => exact ih

end Parser

end LuaFormatter
