import LuaFormatter.Comment.Attachment
import LuaFormatter.Proofs.Grammar.Placement
import LuaFormatter.Proofs.Grammar.ReadStatement

/-!
# The neighbours of a comment

A comment overlaps no token of the code, so it is inside a node, before it or after it
(`Yields.parted`). Then the binary search among nodes that are placed one after the other finds the
node that contains the comment, or its neighbours on both sides (`search_spec`), and the way down
the tree ends at the innermost node that contains it (`within_spec`).
-/

namespace LuaFormatter

open Surroundings

/-- A span is in another one if it starts no earlier and stops no later. Counterpart of
`Span.contains`. -/
theorem Span.contains_iff {outer inner : Span} :
    outer.contains inner = true ↔ outer.start ≤ inner.start ∧ inner.stop ≤ outer.stop := by
  simp [Span.contains]

/-- A node contains a span or is on one side of it. -/
def Parted (span : Span) (node : Node) : Prop :=
  node.span.contains span = true ∨ node.span.stop ≤ span.start ∨ span.stop ≤ node.span.start

/-- A span that overlaps no token is inside a node, before it or after it. Counterpart of
`Yields`. -/
theorem Yields.parted {isApart : Bool} {stop a b : Nat} {ts : List Token} {nodes : List Node}
    {span : Span} (h : Yields isApart stop a b ts nodes)
    (hts : ∀ token ∈ ts, token.stop ≤ span.start ∨ span.stop ≤ token.start)
    (hordered : Ordered ts) (hstop : stop ≤ span.start ∨ span.stop ≤ stop) {node part : Node}
    (hmem : node ∈ nodes) (hpart : part.Part node) : Parted span part := by
  induction h generalizing node with
  | nil => simp at hmem
  | token t _ ih =>
    exact ih (List.forall_mem_cons.1 hts).2 (hordered.sublist (List.sublist_cons_self t _)) hstop
      hmem hpart
  | @node stop a b c us ts nodes shape bounds rule inParens hderives hne hspan hparts hrest ihparts
      ihrest =>
    rw [List.forall_mem_append] at hts
    have hus := hordered.left
    obtain ⟨first, hfirst, hstart⟩ := exists_start_eq hne
    obtain ⟨last, hlast, hend⟩ := hus.exists_stop_eq hne
    have hnext : startOr stop ts ≤ span.start ∨ span.stop ≤ startOr stop ts := by
      cases ts with
      | nil => exact hstop
      | cons next rest =>
        have hlt := hordered.right.start_lt_stop next (by simp)
        rcases hts.2 next (by simp) with h | h
        · exact .inl (Nat.le_of_lt (Nat.lt_of_lt_of_le hlt h))
        · exact .inr h
    have hself : bounds.start ≤ span.start ∧ span.stop ≤ bounds.stop ∨
        bounds.stop ≤ span.start ∨ span.stop ≤ bounds.start := by
      have hfirst' := hts.1 first hfirst
      have hlast' := hts.1 last hlast
      have hlt := hus.start_lt_stop first hfirst
      have hlt' := hus.start_lt_stop last hlast
      rw [hspan]
      unfold Shape.spanOf
      split
      · simp only [← hstart]
        omega
      · rw [← hstart, ← hend]
        omega
    rcases List.mem_cons.1 hmem with rfl | hmem
    · cases hpart with
      | self => exact hself.imp_left Span.contains_iff.2
      | child hchild hpart =>
        refine ihparts hts.1 hus ?_ hchild hpart
        have hle : bounds.start ≤ bounds.stop := by
          have hlt := hus.start_lt_stop first hfirst
          have := hus.stop_le hfirst
          rw [hspan]
          unfold Shape.spanOf
          split
          · exact Nat.le_max_right _ _
          · omega
        omega
    · exact ihrest hts.2 hordered.right hstop hmem hpart

/-! ## The search among neighbours -/

/-- What a search finds: a node around the span, or the nodes before and after it. -/
def Found (nodes : List Node) (span : Span) : Position → Prop
  | .inside node => node ∈ nodes ∧ node.span.contains span = true
  | .between preceding following => ∃ before after, nodes = before ++ after ∧
    (∀ node ∈ before, node.span.stop ≤ span.start) ∧
    (∀ node ∈ after, span.stop ≤ node.span.start) ∧
    preceding = before.getLast? ∧ following = after.head?

/-- The search among nodes one after the other finds where a span is. Counterpart of `search`. -/
theorem search_spec {nodes : List Node} {span : Span}
    (hordered : nodes.Pairwise fun node next => node.span.stop ≤ next.span.start)
    (hlt : ∀ node ∈ nodes, node.span.start < node.span.stop)
    (hparted : ∀ node ∈ nodes, Parted span node) (hspan : span.start < span.stop)
    {left right : Nat} (hle : left ≤ right) (hright : right ≤ nodes.length)
    (hbefore : ∀ node ∈ nodes.take left, node.span.stop ≤ span.start)
    (hafter : ∀ node ∈ nodes.drop right, span.stop ≤ node.span.start) :
    Found nodes span
      (search nodes span left right (nodes.take left).getLast? (nodes.drop right).head?) := by
  induction hsize : right - left using Nat.strongRecOn generalizing left right with
  | ind size ih =>
    rw [search]
    split
    · rename_i hless
      have hmiddle : (left + right) / 2 < nodes.length := by omega
      have hnode := List.getElem?_eq_getElem hmiddle
      dsimp only
      rw [hnode]
      have hmem : nodes[(left + right) / 2] ∈ nodes := List.getElem_mem hmiddle
      have hsplit : nodes = nodes.take ((left + right) / 2) ++
          nodes[(left + right) / 2] :: nodes.drop ((left + right) / 2 + 1) := by
        rw [List.getElem_cons_drop, List.take_append_drop]
      generalize hfound : nodes[(left + right) / 2] = node at *
      have hpair := hordered
      rw [hsplit, List.pairwise_append] at hpair
      obtain ⟨-, hback, hfront⟩ := hpair
      dsimp only
      split
      · exact ⟨hmem, ‹_›⟩
      · rename_i hcontains
        have hsides : node.span.stop ≤ span.start ∨ span.stop ≤ node.span.start :=
          (hparted node hmem).resolve_left hcontains
        have hnodeLt := hlt node hmem
        split
        · rename_i hisBefore
          have hisBefore : node.span.stop ≤ span.start := by simpa [Span.isBefore] using hisBefore
          have htake : nodes.take ((left + right) / 2 + 1) =
              nodes.take ((left + right) / 2) ++ [node] := by
            rw [List.take_add_one, hnode]
            rfl
          have hnew : some node = (nodes.take ((left + right) / 2 + 1)).getLast? := by
            rw [htake, List.getLast?_concat]
          rw [hnew]
          refine ih (right - ((left + right) / 2 + 1)) (by omega) (by omega) hright ?_ hafter rfl
          rw [htake]
          intro other hother
          rcases List.mem_append.1 hother with hother | hother
          · have := hfront other hother node (by simp)
            omega
          · cases List.mem_singleton.1 hother
            exact hisBefore
        · rename_i hnot
          have hnot : ¬node.span.stop ≤ span.start := by simpa [Span.isBefore] using hnot
          have hisAfter : span.stop ≤ node.span.start := hsides.resolve_left hnot
          rw [if_pos (by simpa [Span.isBefore] using hisAfter)]
          have hdrop : nodes.drop ((left + right) / 2) =
              node :: nodes.drop ((left + right) / 2 + 1) := by
            rw [← hfound, List.getElem_cons_drop]
          have hnew : some node = (nodes.drop ((left + right) / 2)).head? := by
            rw [hdrop]
            rfl
          rw [hnew]
          refine ih ((left + right) / 2 - left) (by omega) (by omega) (by omega) hbefore ?_ rfl
          rw [hdrop]
          intro other hother
          rcases List.mem_cons.1 hother with rfl | hother
          · exact hisAfter
          · have := (List.pairwise_cons.1 hback).1 other hother
            omega
    · have heq : left = right := by omega
      subst heq
      exact ⟨nodes.take left, nodes.drop left, (List.take_append_drop left nodes).symm, hbefore,
        hafter, rfl, rfl⟩

/-! ## The way down the tree -/

/-- Children that are placed one after the other are in the order of the source. Counterpart of
`orderedChildren`. -/
theorem orderedChildren_eq {node : Node} {low high : Nat} (hplaced : Placed low high node.children)
    (hread : ∀ child ∈ node.children, child.shape.isInvalid = false) :
    orderedChildren node = node.children := by
  unfold orderedChildren
  rw [List.filter_eq_self.2 fun child hmem => by simp [hread child hmem]]
  refine List.mergeSort_of_pairwise ?_
  refine hplaced.pairwise.imp_of_mem fun {child next} hmem _ hnext => ?_
  have := (hplaced.bounds hmem).2.1
  simp only [comesFirst, Bool.or_eq_true, decide_eq_true_eq]
  exact .inl (by omega)

/-- All parts of a tree were read and are placed, and none of them overlaps a span. -/
def Searchable (span : Span) (root : Node) : Prop :=
  ∀ part : Node, part.Part root → (∃ low high, Placed low high part.children) ∧
    ∀ child ∈ part.children, child.shape.isInvalid = false ∧ Parted span child

/-- The search goes on in a child. Counterpart of `Searchable`. -/
theorem Searchable.child {span : Span} {root child : Node} (h : Searchable span root)
    (hchild : child ∈ root.children) : Searchable span child :=
  fun part hpart => h part (.child hchild hpart)

/-- The way down ends at a node of which no child contains the span, with the children around the
span for neighbours. -/
structure Surrounded (span : Span) (parent : Node) (preceding following : Option Node) : Prop where
  split : ∃ before after, parent.children = before ++ after ∧
    (∀ child ∈ before, child.span.stop ≤ span.start) ∧
    (∀ child ∈ after, span.stop ≤ child.span.start) ∧
    preceding = before.getLast? ∧ following = after.head?

/-- Where the search finds a child around the span, it goes on in this child. Counterpart of
`within`. -/
theorem within_of_inside {span : Span} {enclosing : Option Node} {node child : Node}
    (h : search (orderedChildren node) span 0 (orderedChildren node).length none none =
      .inside child) :
    within span enclosing node = within span (some child) child := by
  rw [within]
  split
  · rename_i other hother
    cases h.symm.trans hother
    rfl
  · rename_i hother
    cases h.symm.trans hother

/-- Where the search finds the span between two children, it ends with them. Counterpart of
`within`. -/
theorem within_of_between {span : Span} {enclosing preceding following : Option Node} {node : Node}
    (h : search (orderedChildren node) span 0 (orderedChildren node).length none none =
      .between preceding following) :
    within span enclosing node = ⟨enclosing, preceding, following⟩ := by
  rw [within]
  split
  · rename_i hother
    cases h.symm.trans hother
  · rename_i hother
    cases h.symm.trans hother
    rfl

/-- The search ends at a part of the tree that surrounds the span, with the children of this part on
both sides of it. Counterpart of `within`. -/
theorem within_spec {span : Span} (hspan : span.start < span.stop) (enclosing : Option Node)
    (root : Node) (h : Searchable span root) :
    ∃ parent, parent.Part root ∧
      Surrounded span parent (within span enclosing root).preceding
        (within span enclosing root).following ∧
      ((parent = root ∧ (within span enclosing root).enclosing = enclosing) ∨
        ((within span enclosing root).enclosing = some parent ∧
          parent.span.contains span = true)) := by
  induction hsize : root.size using Nat.strongRecOn generalizing root enclosing with
  | ind size ih =>
    obtain ⟨⟨low, high, hplaced⟩, hchildren⟩ := h root (.self root)
    have hordered := orderedChildren_eq hplaced fun child hmem => (hchildren child hmem).1
    have hfound := search_spec hplaced.pairwise (fun child hmem => (hplaced.bounds hmem).2.1)
      (fun child hmem => (hchildren child hmem).2) hspan (Nat.zero_le root.children.length)
      (Nat.le_refl _) (by simp) (by simp)
    simp only [List.take_zero, List.getLast?_nil, List.drop_length, List.head?_nil] at hfound
    rw [← hordered] at hfound
    cases hsearch : search (orderedChildren root) span 0
      (orderedChildren root).length none none with
    | inside child =>
      rw [hsearch, hordered] at hfound
      rw [within_of_inside hsearch]
      obtain ⟨hmem, hcontains⟩ := hfound
      obtain ⟨parent, hpart, hsurrounded, hend⟩ :=
        ih child.size (hsize ▸ Node.size_lt_of_mem_children hmem)
        (some child) child (h.child hmem) rfl
      refine ⟨parent, .child hmem hpart, hsurrounded, .inr ?_⟩
      rcases hend with ⟨rfl, henclosing⟩ | hend
      · exact ⟨henclosing, hcontains⟩
      · exact hend
    | between preceding following =>
      rw [hsearch, hordered] at hfound
      rw [within_of_between hsearch]
      exact ⟨root, .self root, ⟨hfound⟩, .inl ⟨rfl, rfl⟩⟩

/-- The parts of every node of a valid program are placed inside it. Counterpart of `Placed`. -/
theorem placed_children {source : List Char} (h : (parse source).isValid = true) {part : Node}
    (hpart : part.Part (parse source).root) :
    Placed part.span.start part.span.stop part.children := by
  have hyields : Yields true (byteLength source) 1 (parse source).nodeCount (parse source).tokens
      (chunkRun source).1 := (derives_of_isValid h).yields
  have hplaced : Placed 0 (byteLength source) (chunkRun source).1 := by
    refine hyields.placed (ordered_tokens source) (fun _ _ => Nat.zero_le _) (fun token hmem => ?_)
      (Nat.zero_le _)
    have := Scan.stop_le_of_mem (List.mem_filter.1 hmem).1
    omega
  rw [root_parse] at hpart
  cases hpart with
  | self => exact hplaced
  | child hmem hpart => exact (Placed.part hpart hplaced hmem).2.2.2

/-- The tree of a valid program can be searched for its comments. Counterpart of `Searchable`. -/
theorem searchable_root {source : List Char} (h : (parse source).isValid = true) {comment : Comment}
    (hcomment : comment ∈ (parse source).comments) :
    Searchable comment.span (parse source).root := by
  have hyields : Yields true (byteLength source) 1 (parse source).nodeCount (parse source).tokens
      (chunkRun source).1 := (derives_of_isValid h).yields
  have hparted : ∀ node ∈ (chunkRun source).1, ∀ part : Node, part.Part node →
      Parted comment.span part := by
    intro node hmem part hpart
    refine hyields.parted (fun token htoken => (comment_apart hcomment htoken).2)
      (ordered_tokens source) (.inr ?_) hmem hpart
    obtain ⟨token, htoken, -, hspan, -⟩ := exists_token_of_comment hcomment
    have := Scan.stop_le_of_mem htoken
    rw [hspan]
    simpa [Token.span] using this
  have hread : ∀ node ∈ (chunkRun source).1, ∀ part : Node, part.Part node →
      part.shape.isInvalid = false := by
    intro node hmem part hpart
    obtain ⟨rule, first, front, us, back, -, -, -, -, -, hderives, -⟩ := hyields.part hmem hpart
    simpa using (hderives.isRead part.bare (by simp)).1
  intro part hpart
  refine ⟨⟨_, _, placed_children h hpart⟩, ?_⟩
  rw [root_parse] at hpart
  cases hpart with
  | self =>
    exact fun child hmem =>
      ⟨hread child hmem child (.self child), hparted child hmem child (.self child)⟩
  | child hmem hpart =>
    intro child hchild
    have hpart := (Node.Part.of_mem_children hchild).trans hpart
    exact ⟨hread _ hmem child hpart, hparted _ hmem child hpart⟩

end LuaFormatter
