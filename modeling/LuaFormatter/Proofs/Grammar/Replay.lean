import LuaFormatter.Proofs.Grammar.Run

/-!
# Replaying a run

What a parser does on tokens that are known. `Leads p … q` says that a parser `p`, once it has read
given tokens, goes on as `q`; a parser that is done goes on as `pure`, which is `Reads`. Steps are
put one after the other with `Leads.trans`, and the rules for loops read off one round at a time, so
a loop can be followed from any of its rounds on.
-/

namespace LuaFormatter

/-- The kind of the first token, or the end of the source if there is none. -/
def kindOf (tokens : List Token) : Kind :=
  (tokens.head?.map Token.kind).getD .endOfFile

@[simp] theorem kindOf_cons (token : Token) (tokens : List Token) :
    kindOf (token :: tokens) = token.kind := rfl

/-- The first token of two lists is that of the first one. Counterpart of `kindOf`. -/
theorem kindOf_append {front : List Token} (h : front ≠ []) (back : List Token) :
    kindOf (front ++ back) = kindOf front := by
  cases front with
  | nil => exact absurd rfl h
  | cons first rest => rfl

/-- Where the first token starts. -/
def startOf (tokens : List Token) : Nat :=
  (tokensSpan tokens).start

@[simp] theorem startOf_cons (token : Token) (tokens : List Token) :
    startOf (token :: tokens) = token.start :=
  tokensSpan_start token tokens

/-- Two lists of tokens start where the first one does. Counterpart of `startOf`. -/
theorem startOf_append {front : List Token} (h : front ≠ []) (back : List Token) :
    startOf (front ++ back) = startOf front := by
  cases front with
  | nil => exact absurd rfl h
  | cons first rest => simp

@[simp] theorem stopAfter_cons (stop : Nat) (token : Token) (tokens : List Token) :
    stopAfter stop (token :: tokens) = stopAfter token.stop tokens := by
  rw [← List.singleton_append, stopAfter_append]
  rfl

/-- The span of tokens reaches from the start of the first to the end of the last. Counterpart of
`tokensSpan`. -/
theorem span_eq_tokensSpan {tokens : List Token} (h : tokens ≠ []) (stop : Nat) :
    (⟨startOf tokens, max (stopAfter stop tokens) (startOf tokens)⟩ : Span) =
      tokensSpan tokens := by
  cases tokens with
  | nil => exact absurd rfl h
  | cons first rest => rw [startOf_cons, ← tokensSpan_eq]

/-- The state after tokens and nodes. -/
def ParseState.past (s : ParseState) (tokens back : List Token) (next : Nat) : ParseState :=
  { s with rest := back, previousStop := stopAfter s.previousStop tokens, made := next }

namespace Parser

/-- A parser that has read tokens goes on as another one. `stop` is the end of the token before, and
the nodes that are made have the numbers from `first` up to but not including `next`. -/
def Leads {α : Type} (p : Parser α) (stop first : Nat) (tokens back : List Token) (q : Parser α)
    (next : Nat) : Prop :=
  ∀ s : ParseState, s.rest = tokens ++ back → s.previousStop = stop → s.made = first →
    p s = q (s.past tokens back next)

/-- A parser reads tokens and gives a value. -/
def Reads {α : Type} (p : Parser α) (stop first : Nat) (tokens back : List Token) (value : α)
    (next : Nat) : Prop :=
  Leads p stop first tokens back (pure value) next

section
variable {α β : Type} {p q r : Parser α} {f : α → Parser β} {stop first middle next : Nat}
  {front tokens back : List Token} {value : α}

/-- A parser that has read nothing goes on as itself. Counterpart of `Leads`. -/
theorem Leads.refl : Leads p stop first [] back p first := by
  rintro ⟨rest, previousStop, sourceLength, made, faults⟩ rfl rfl rfl
  rfl

/-- A parser that has read tokens in two steps has read them all. Counterpart of `Leads`. -/
theorem Leads.trans (h : Leads p stop first front (tokens ++ back) q middle)
    (h' : Leads q (stopAfter stop front) middle tokens back r next) :
    Leads p stop first (front ++ tokens) back r next := by
  intro s hrest hstop hmade
  rw [h s (by rw [hrest, List.append_assoc]) hstop hmade]
  rw [h' _ rfl (by rw [← hstop]; rfl) rfl]
  simp only [ParseState.past, stopAfter_append]

/-- After a step that is done, the parser goes on with its value. Counterpart of the bind of
`Parser`. -/
theorem Reads.leads (h : Reads p stop first tokens back value next) :
    Leads (p >>= f) stop first tokens back (f value) next := by
  intro s hrest hstop hmade
  show f (p s).1 (p s).2 = _
  rw [h s hrest hstop hmade]
  rfl

/-- A step that is done, and what comes after it. Counterpart of the bind of `Parser`. -/
theorem Reads.andThen {q : Parser β} (h : Reads p stop first front (tokens ++ back) value middle)
    (h' : Leads (f value) (stopAfter stop front) middle tokens back q next) :
    Leads (p >>= f) stop first (front ++ tokens) back q next :=
  h.leads.trans h'

/-- A step that reads nothing, and what comes after it. Counterpart of the bind of `Parser`. -/
theorem Reads.look {q : Parser β} (h : Reads p stop first [] (tokens ++ back) value middle)
    (h' : Leads (f value) stop middle tokens back q next) :
    Leads (p >>= f) stop first tokens back q next :=
  h.andThen h'

/-- A step that reads one token, and what comes after it. Counterpart of the bind of `Parser`. -/
theorem Reads.token {q : Parser β} {t : Token}
    (h : Reads p stop first [t] (tokens ++ back) value middle)
    (h' : Leads (f value) t.stop middle tokens back q next) :
    Leads (p >>= f) stop first (t :: tokens) back q next :=
  h.andThen h'

/-- A result without reading is that result. Counterpart of `pure`. -/
theorem reads_pure : Reads (pure value : Parser α) stop first [] back value first :=
  Leads.refl

/-- The last step. Counterpart of the bind of `Parser`. -/
theorem Reads.result (h : Reads p stop first tokens back value next) {b : β}
    (hf : f value = pure b) : Reads (p >>= f) stop first tokens back b next := by
  rw [Reads, ← hf]
  exact h.leads

/-- A result that is changed afterwards. Counterpart of `Functor.map` for `Reads`. -/
theorem Reads.map {g : α → β} (h : Reads p stop first tokens back value next) :
    Reads (g <$> p) stop first tokens back (g value) next := by
  intro s hrest hstop hmade
  show (g (p s).1, (p s).2) = _
  rw [h s hrest hstop hmade]
  rfl

/-- A parser that goes on as one that reads nothing more. Counterpart of `Leads`. -/
theorem Leads.finish (h : Leads p stop first tokens back q middle)
    (h' : Reads q (stopAfter stop tokens) middle [] back value next) :
    Reads p stop first tokens back value next := by
  have := h.trans h'
  rwa [List.append_nil] at this

/-! ## Steps -/

/-- The current token is the first one. Counterpart of `Parser.current`. -/
theorem reads_current {t : Token} : Reads current stop first [] (t :: back) t first := by
  rintro ⟨rest, previousStop, sourceLength, made, faults⟩ rfl rfl rfl
  rfl

/-- The kind of the current token is that of the first one. Counterpart of `Parser.currentKind`. -/
theorem reads_currentKind : Reads currentKind stop first [] back (kindOf back) first := by
  rintro ⟨rest, previousStop, sourceLength, made, faults⟩ rfl rfl rfl
  cases rest <;> rfl

/-- The kind of the token after it is that of the second one. Counterpart of
`Parser.followingKind`. -/
theorem reads_followingKind {t : Token} :
    Reads followingKind stop first [] (t :: back) (kindOf back) first := by
  rintro ⟨rest, previousStop, sourceLength, made, faults⟩ rfl rfl rfl
  rfl

/-- A rule starts where its first token does. Counterpart of `Parser.start`. -/
theorem reads_start {t : Token} : Reads start stop first [] (t :: back) t.start first := by
  rintro ⟨rest, previousStop, sourceLength, made, faults⟩ rfl rfl rfl
  rfl

/-- A rule that reads some tokens starts where the first of them does. Counterpart of
`Parser.start`. -/
theorem reads_startOf (h : tokens ≠ []) :
    Reads start stop first [] (tokens ++ back) (startOf tokens) first := by
  cases tokens with
  | nil => exact absurd rfl h
  | cons t rest =>
    rw [startOf_cons]
    exact reads_start

/-- Passing a token gives that token. Counterpart of `Parser.advance`. -/
theorem reads_advance {t : Token} : Reads advance stop first [t] back t first := by
  rintro ⟨rest, previousStop, sourceLength, made, faults⟩ rfl rfl rfl
  rfl

/-- A token of the kind is passed. Counterpart of `Parser.accept`. -/
theorem reads_accept {t : Token} {kind : Kind} (h : t.kind = kind) :
    Reads (accept kind) stop first [t] back true first := by
  unfold accept
  refine reads_currentKind.look ?_
  rw [show kindOf ([t] ++ back) = kind from h, if_pos rfl]
  exact reads_advance.result rfl

/-- A token of another kind is not passed. Counterpart of `Parser.accept`. -/
theorem reads_reject {kind : Kind} (h : kindOf back ≠ kind) :
    Reads (accept kind) stop first [] back false first := by
  unfold accept
  refine reads_currentKind.look ?_
  rw [List.nil_append, if_neg h]
  exact reads_pure

/-- A token of the kind that has to come next is passed without a fault. Counterpart of
`Parser.expect`. -/
theorem reads_expect {t : Token} {kind : Kind} (h : t.kind = kind) :
    Reads (expect kind) stop first [t] back () first :=
  (reads_accept h).result rfl

/-- A node is made with the next number. Counterpart of `Parser.makeAt`. -/
theorem reads_makeAt {shape : Shape Node} {span : Span} :
    Reads (makeAt shape span) stop first [] back ⟨first, shape, span, false⟩ (first + 1) := by
  rintro ⟨rest, previousStop, sourceLength, made, faults⟩ rfl rfl rfl
  rfl

/-- A node is made that ends at the last token read. Counterpart of `Parser.make`. -/
theorem reads_make {shape : Shape Node} {start : Nat} :
    Reads (make shape start) stop first [] back
      ⟨first, shape, ⟨start, max stop start⟩, false⟩ (first + 1) := by
  rintro ⟨rest, previousStop, sourceLength, made, faults⟩ rfl rfl rfl
  rfl

/-- A node that takes up all tokens that were read. Counterpart of `Parser.make`. -/
theorem reads_node {shape : Shape Node} {offset other : Nat} (hne : tokens ≠ [])
    (hoffset : offset = startOf tokens) (hstop : stop = stopAfter other tokens) :
    Reads (make shape offset) stop first [] back (nodeOf first shape tokens) (first + 1) := by
  rw [nodeOf, ← span_eq_tokensSpan hne other, ← hoffset, ← hstop]
  exact reads_make

/-- A node that takes up all tokens that were read, and what comes after it. Counterpart of
`Parser.make` before the rest of a rule. -/
theorem Leads.node {r : Node → Parser α} {shape : Shape Node} {offset other : Nat}
    (h : Leads p stop first tokens back (make shape offset >>= r) next) (all : List Token)
    (hne : all ≠ []) (hoffset : offset = startOf all)
    (hstop : stopAfter stop tokens = stopAfter other all) :
    Leads p stop first tokens back (r (nodeOf next shape all)) (next + 1) := by
  have := h.trans (reads_node hne hoffset hstop).leads
  rwa [List.append_nil] at this

/-! ## Loops -/

/-- A round after which the loop goes on. Counterpart of `Parser.extend`. -/
theorem leads_extend {round : α → Parser (α × Bool)} {next' : α}
    (h : Reads (round value) stop first tokens back (next', true) next) (hne : tokens ≠ []) :
    Leads (extend round value) stop first tokens back (extend round next') next := by
  intro s hrest hstop hmade
  rw [extend_eq, h s hrest hstop hmade]
  have hlength : back.length < s.rest.length := by
    have := List.length_pos_iff.2 hne
    rw [hrest, List.length_append]
    omega
  exact if_pos ⟨rfl, hlength⟩

/-- The last round of a loop. Counterpart of `Parser.extend`. -/
theorem reads_extend {round : α → Parser (α × Bool)} {final : α}
    (h : Reads (round value) stop first tokens back (final, false) next) :
    Reads (extend round value) stop first tokens back final next := by
  intro s hrest hstop hmade
  rw [extend_eq, h s hrest hstop hmade]
  exact if_neg fun hgo => Bool.false_ne_true hgo.1

end

section
variable {α : Type} {round : Parser (List α × Bool)} {stop first middle next : Nat}
  {front tokens back : List Token} {items others : List α}

/-- The items that were there before a loop stay in front. Counterpart of `Parser.many`. -/
theorem extend_collect (round : Parser (List α × Bool)) (items : List α) (s : ParseState) :
    extend (fun items => return ((← round).map (items ++ ·) id)) items s =
      ((items ++ (many round s).1, (many round s).2) : List α × ParseState) := by
  unfold many
  induction hlength : s.rest.length using Nat.strongRecOn generalizing items s with
  | ind length ih =>
    have hunfold : ∀ front : List α,
        extend (fun items => return ((← round).map (items ++ ·) id)) front s =
          if (round s).1.2 ∧ (round s).2.rest.length < s.rest.length then
            extend (fun items => return ((← round).map (items ++ ·) id)) (front ++ (round s).1.1)
              (round s).2
          else (front ++ (round s).1.1, (round s).2) := fun front => extend_eq _ front s
    rw [hunfold items, hunfold []]
    split
    · rename_i hgo
      rw [ih _ (hlength ▸ hgo.2) (items ++ (round s).1.1) _ rfl,
        ih _ (hlength ▸ hgo.2) ([] ++ (round s).1.1) _ rfl]
      simp
    · simp

/-- A round of a loop that collects items, and the rounds after it. Counterpart of `Parser.many`. -/
theorem reads_many_more (h : Reads round stop first front (tokens ++ back) (items, true) middle)
    (hne : front ≠ [])
    (h' : Reads (many round) (stopAfter stop front) middle tokens back others next) :
    Reads (many round) stop first (front ++ tokens) back (items ++ others) next := by
  have hround : Reads (do return ((← round).map (([] : List α) ++ ·) id)) stop first front
      (tokens ++ back) (items, true) middle := h.result rfl
  have hrest : Leads (extend (fun items => return ((← round).map (items ++ ·) id)) items)
      (stopAfter stop front) middle tokens back (pure (items ++ others)) next := by
    intro s hrest hstop hmade
    rw [extend_collect, h' s hrest hstop hmade]
    rfl
  exact (leads_extend hround hne).trans hrest

/-- The last round of a loop that collects items. Counterpart of `Parser.many`. -/
theorem reads_many_last (h : Reads round stop first tokens back (items, false) next) :
    Reads (many round) stop first tokens back items next := by
  have hround : Reads (do return ((← round).map (([] : List α) ++ ·) id)) stop first tokens
      back (items, false) next := h.result rfl
  exact reads_extend hround

/-- Without a comma after it an item is the last one. Counterpart of `Parser.commaSeparated`. -/
theorem reads_commaSeparated_last {item : Parser α} {value : α}
    (h : Reads item stop first tokens back value next) (hcomma : kindOf back ≠ .symbol .comma) :
    Reads (commaSeparated item) stop first tokens back [value] next :=
  reads_many_last (h.leads.finish ((reads_reject hcomma).result rfl))

/-- After a comma come more items. Counterpart of `Parser.commaSeparated`. -/
theorem reads_commaSeparated_more {item : Parser α} {value : α} {values : List α} {t : Token}
    (ht : t.kind = .symbol .comma)
    (h : Reads item stop first front (t :: (tokens ++ back)) value middle)
    (h' : Reads (commaSeparated item) t.stop middle tokens back values next) :
    Reads (commaSeparated item) stop first (front ++ t :: tokens) back (value :: values) next := by
  have hround : Reads (do let value ← item; return ([value], ← accept (.symbol .comma))) stop first
      (front ++ [t]) (tokens ++ back) ([value], true) middle :=
    h.andThen ((reads_accept ht).result rfl)
  have hstop : stopAfter stop (front ++ [t]) = t.stop := by simp
  have hmore := reads_many_more hround (by simp) (hstop ▸ h')
  rwa [List.append_assoc] at hmore

end

end Parser

end LuaFormatter
