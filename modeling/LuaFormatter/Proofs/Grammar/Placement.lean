import LuaFormatter.Proofs.Grammar.Yield
import LuaFormatter.Proofs.Token.Order

/-!
# Where the nodes of a tree are

`Placed low high nodes` says that nodes come one after the other between two offsets, none of them
empty, and that the same holds for the parts of each inside its span. The nodes of a derivation from
ordered tokens are placed (`Yields.placed`).
-/

namespace LuaFormatter

section
variable {tokens : List Token} {token : Token}

/-- The place of ordered tokens starts no later than each of them. Counterpart of `tokensSpan`. -/
theorem Ordered.start_le (h : Ordered tokens) (hmem : token ∈ tokens) :
    (tokensSpan tokens).start ≤ token.start := by
  cases tokens with
  | nil => simp at hmem
  | cons first rest =>
    rw [tokensSpan_start]
    rcases List.mem_cons.1 hmem with rfl | hmem
    · exact Nat.le_refl _
    · have := (List.pairwise_cons.1 h.pairwise).1 token hmem
      have := h.start_lt_stop first (by simp)
      omega

/-- The span of ordered tokens ends with the last one. Counterpart of `tokensSpan`. -/
theorem Ordered.tokensSpan_stop {front : List Token} {last : Token}
    (h : Ordered (front ++ [last])) :
    (tokensSpan (front ++ [last])).stop = last.stop := by
  have hlast := h.start_lt_stop last (by simp)
  unfold tokensSpan
  rw [List.getLast?_concat]
  cases front with
  | nil =>
    simp only [List.nil_append, List.head?_cons]
    omega
  | cons first rest =>
    have := h.stop_le_start (by simp : first ∈ first :: rest) (by simp : last ∈ [last])
    have := h.start_lt_stop first (by simp)
    simp only [List.cons_append, List.head?_cons]
    omega

/-- The place of ordered tokens stops no earlier than each of them. Counterpart of `tokensSpan`. -/
theorem Ordered.stop_le (h : Ordered tokens) (hmem : token ∈ tokens) :
    token.stop ≤ (tokensSpan tokens).stop := by
  rcases List.eq_nil_or_concat tokens with rfl | ⟨front, last, rfl⟩
  · simp at hmem
  · rw [List.concat_eq_append] at h hmem ⊢
    rw [h.tokensSpan_stop]
    rcases List.mem_append.1 hmem with hmem | hmem
    · have := h.stop_le_start hmem (by simp : last ∈ [last])
      have := h.start_lt_stop last (by simp)
      omega
    · cases List.mem_singleton.1 hmem
      exact Nat.le_refl _

/-- The span of tokens ends with one of them. Counterpart of `tokensSpan`. -/
theorem Ordered.exists_stop_eq (h : Ordered tokens) (hne : tokens ≠ []) :
    ∃ token ∈ tokens, token.stop = (tokensSpan tokens).stop := by
  rcases List.eq_nil_or_concat tokens with rfl | ⟨front, last, rfl⟩
  · exact absurd rfl hne
  · rw [List.concat_eq_append] at h ⊢
    exact ⟨last, by simp, h.tokensSpan_stop.symm⟩

/-- The span of tokens starts with one of them. Counterpart of `tokensSpan`. -/
theorem exists_start_eq (hne : tokens ≠ []) :
    ∃ token ∈ tokens, token.start = (tokensSpan tokens).start := by
  cases tokens with
  | nil => exact absurd rfl hne
  | cons first rest => exact ⟨first, by simp, (tokensSpan_start first rest).symm⟩

end

/-- Also a branch starts with its first token. Counterpart of `Shape.spanOf`. -/
theorem Shape.start_spanOf (shape : Shape Node) (tokens : List Token) (stop : Nat) :
    (shape.spanOf tokens stop).start = (tokensSpan tokens).start := by
  unfold spanOf
  split <;> rfl

/-- Nodes one after the other between two offsets, with their parts inside them. -/
inductive Placed : Nat → Nat → List Node → Prop
  | nil {low high : Nat} : low ≤ high → Placed low high []
  | cons {low high number : Nat} {shape : Shape Node} {span : Span} {inParens : Bool}
    {rest : List Node} : low ≤ span.start → span.start < span.stop →
    Placed span.start span.stop shape.children → Placed span.stop high rest →
    Placed low high (⟨number, shape, span, inParens⟩ :: rest)

/-- Where the first of some tokens starts, if there is one, is no earlier than a bound of them all.
Counterpart of `startOr`. -/
theorem le_startOr {tokens : List Token} {low stop : Nat} (hstop : low ≤ stop)
    (h : ∀ token ∈ tokens, low ≤ token.start) : low ≤ startOr stop tokens := by
  cases tokens with
  | nil => exact hstop
  | cons first rest => exact h first (by simp)

/-- The nodes of ordered tokens are placed between their ends. Counterpart of `Placed`. -/
theorem Yields.placed {isApart : Bool} {stop a b low : Nat} {ts : List Token} {nodes : List Node}
    (h : Yields isApart stop a b ts nodes) (hordered : Ordered ts)
    (hlow : ∀ token ∈ ts, low ≤ token.start) (hstop : ∀ token ∈ ts, token.stop ≤ stop)
    (hle : low ≤ stop) : Placed low stop nodes := by
  induction h generalizing low with
  | nil => exact .nil hle
  | token t _ ih =>
    rw [List.forall_mem_cons] at hlow hstop
    exact ih (hordered.sublist (List.sublist_cons_self t _)) hlow.2 hstop.2 hle
  | @node stop a b c us ts nodes shape span rule inParens hderives hne hspan hparts hrest ihparts
      ihrest =>
    rw [List.forall_mem_append] at hlow hstop
    have hus := hordered.left
    obtain ⟨first, hfirst, hstart⟩ := exists_start_eq hne
    obtain ⟨last, hlast, hend⟩ := hus.exists_stop_eq hne
    -- Tokens of the node are over before what follows it.
    have hnext : ∀ token ∈ us, token.stop ≤ startOr stop ts := fun token hmem =>
      le_startOr (hstop.1 token hmem) fun next hmem' => hordered.stop_le_start hmem hmem'
    have hfirst' := hus.start_lt_stop first hfirst
    have hspanStart : span.start = first.start := by
      rw [hspan, hstart, Shape.start_spanOf]
    have hspanStop : ∀ token ∈ us, token.stop ≤ span.stop := by
      intro token hmem
      rw [hspan]
      unfold Shape.spanOf
      split
      · exact Nat.le_trans (hnext token hmem) (Nat.le_max_left _ _)
      · exact hus.stop_le hmem
    have hspanNext : span.stop ≤ startOr stop ts := by
      rw [hspan]
      unfold Shape.spanOf
      split
      · have := hnext first hfirst
        simp only [← hstart]
        omega
      · exact hend ▸ hnext last hlast
    have hstartStop : startOr stop ts ≤ stop := by
      cases ts with
      | nil => exact Nat.le_refl stop
      | cons token rest =>
        have := hstop.2 token (by simp)
        have := hordered.right.start_lt_stop token (by simp)
        show token.start ≤ stop
        omega
    have hlt : span.start < span.stop := by
      have := hspanStop first hfirst
      omega
    refine .cons (hspanStart ▸ hlow.1 first hfirst) hlt ?_ ?_
    · refine ihparts hus (fun token hmem => ?_) hspanStop (Nat.le_of_lt hlt)
      rw [hspanStart, hstart]
      exact hus.start_le hmem
    · refine ihrest hordered.right (fun token hmem => ?_) hstop.2
        (Nat.le_trans hspanNext hstartStop)
      cases ts with
      | nil => simp at hmem
      | cons next rest =>
        have hnext : span.stop ≤ next.start := hspanNext
        rcases List.mem_cons.1 hmem with rfl | hmem
        · exact hnext
        · have := (List.pairwise_cons.1 hordered.right.pairwise).1 token hmem
          have := hordered.right.start_lt_stop next (by simp)
          omega

/-- Every part of the nodes starts with one of their tokens. Counterpart of `Shape.spanOf`. -/
theorem Yields.exists_start {isApart : Bool} {stop a b : Nat} {ts : List Token} {nodes : List Node}
    (h : Yields isApart stop a b ts nodes) {node part : Node} (hmem : node ∈ nodes)
    (hpart : part.Part node) : ∃ token ∈ ts, token.start = part.span.start := by
  induction h generalizing node with
  | nil => simp at hmem
  | token t _ ih =>
    obtain ⟨token, htoken, hstart⟩ := ih hmem hpart
    exact ⟨token, List.mem_cons_of_mem t htoken, hstart⟩
  | @node stop a b c us ts nodes shape span rule inParens _ hne hspan _ _ ihparts ihrest =>
    rcases List.mem_cons.1 hmem with rfl | hmem
    · cases hpart with
      | self =>
        obtain ⟨first, hfirst, hstart⟩ := exists_start_eq hne
        refine ⟨first, List.mem_append_left ts hfirst, ?_⟩
        show first.start = span.start
        rw [hstart, hspan, Shape.start_spanOf]
      | child hchild hpart =>
        obtain ⟨token, htoken, hstart⟩ := ihparts hchild hpart
        exact ⟨token, List.mem_append_left ts htoken, hstart⟩
    · obtain ⟨token, htoken, hstart⟩ := ihrest hmem hpart
      exact ⟨token, List.mem_append_right us htoken, hstart⟩

namespace Placed

variable {low high : Nat} {nodes : List Node} {node : Node}

/-- Nodes one after the other stand between offsets in order. Counterpart of `Placed`. -/
theorem le (h : Placed low high nodes) : low ≤ high := by
  induction h with
  | nil hle => exact hle
  | cons hlow hlt _ _ _ ih => omega

/-- The nodes are between the offsets, and none is empty. Counterpart of `Placed`. -/
theorem bounds (h : Placed low high nodes) (hmem : node ∈ nodes) :
    low ≤ node.span.start ∧ node.span.start < node.span.stop ∧ node.span.stop ≤ high := by
  induction h with
  | nil => simp at hmem
  | cons hlow hlt _ hrest _ ih =>
    rcases List.mem_cons.1 hmem with rfl | hmem
    · exact ⟨hlow, hlt, hrest.le⟩
    · have := ih hmem
      omega

/-- Every node is over when the next one starts. Counterpart of `Placed`. -/
theorem pairwise (h : Placed low high nodes) :
    nodes.Pairwise fun node next => node.span.stop ≤ next.span.start := by
  induction h with
  | nil => exact .nil
  | cons _ _ _ hrest _ ih => exact .cons (fun next hmem => (hrest.bounds hmem).1) ih

/-- The parts of a node are placed inside it. Counterpart of `Placed`. -/
theorem children (h : Placed low high nodes) (hmem : node ∈ nodes) :
    Placed node.span.start node.span.stop node.children := by
  induction h with
  | nil => simp at hmem
  | cons _ _ hparts _ _ ih =>
    rcases List.mem_cons.1 hmem with rfl | hmem
    · exact hparts
    · exact ih hmem

/-- A part is inside the node. Counterpart of `Placed`. -/
theorem part {inner : Node} (hpart : inner.Part node) (h : Placed low high nodes)
    (hmem : node ∈ nodes) :
    node.span.start ≤ inner.span.start ∧ inner.span.start < inner.span.stop ∧
      inner.span.stop ≤ node.span.stop ∧
      Placed inner.span.start inner.span.stop inner.children := by
  induction hpart generalizing low high nodes with
  | self =>
    exact ⟨Nat.le_refl _, (h.bounds hmem).2.1, Nat.le_refl _, h.children hmem⟩
  | child hchild _ ih =>
    have hparts := h.children hmem
    obtain ⟨hstart, hlt, hstop, hplaced⟩ := ih hparts hchild
    have := hparts.bounds hchild
    exact ⟨by omega, hlt, by omega, hplaced⟩

end Placed

end LuaFormatter
