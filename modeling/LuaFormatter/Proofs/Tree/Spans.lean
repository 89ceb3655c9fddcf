import LuaFormatter.Proofs.Comment.Owners
import LuaFormatter.Proofs.Tree.Nodes

/-!
# The spans of nodes

The spans of the nodes of a valid program are nested. Those of the parts of a node come one after
the other inside its own, so a search among them can be a binary one. A node starts with a token,
and ends with one unless it is a branch, which reaches up to the keyword after it (`spans_nest`).
-/

namespace LuaFormatter

/-- Every node of a valid program but the whole file starts with a token. Counterpart of
`Node.span`. -/
theorem exists_start_of_part {source : List Char} (h : (parse source).isValid = true) {part : Node}
    (hpart : part.Part (parse source).root) (hne : part ≠ (parse source).root) :
    ∃ token ∈ (parse source).tokens, token.start = part.span.start := by
  have hyields : Yields true 0 1 (parse source).nodeCount (parse source).tokens
      (chunkRun source).1 := (derives_of_isValid h).yields
  rw [root_parse] at hpart hne
  cases hpart with
  | self => exact absurd rfl hne
  | child hchild hpart => exact hyields.exists_start hchild hpart

/-- A node of a program was read, and its span is where it should be: the parts of the node come one
after the other inside it. If it is not the whole file it starts with a token, and ends with one if
it is no branch of a conditional. -/
structure Node.Nests (program : Program) (node : Node) : Prop where
  read : node.shape.isInvalid = false
  ordered : node.children.Pairwise fun child next => child.span.isBefore next.span = true
  inside : ∀ child ∈ node.children, node.span.contains child.span = true
  starts : node ≠ program.root → ∃ token ∈ program.tokens, token.start = node.span.start
  stops : node ≠ program.root → node.shape.isClause = false →
    ∃ token ∈ program.tokens, token.stop = node.span.stop

/-- The walk from the root of a valid program meets all nodes that were made for it, and their spans
are nested and ordered. Counterpart of `Node.span`. -/
theorem spans_nest {source : List Char} (h : (parse source).isValid = true) :
    (parse source).root.preorder.length = (parse source).nodeCount ∧
      ∀ node ∈ (parse source).root.preorder, node.Nests (parse source) := by
  refine ⟨by simpa using (preorder_numbers source).length_eq, fun node hmem => ?_⟩
  have hpart := Node.mem_preorder.1 hmem
  have hplaced := placed_children h hpart
  refine {
    read := ?_
    ordered := hplaced.pairwise.imp fun hnext => by simpa [Span.isBefore] using hnext
    inside := fun child hchild => ?_
    starts := exists_start_of_part h hpart
    stops := fun hroot hclause => ?_ }
  · rcases derives_part h hpart with rfl | ⟨rule, first, front, us, back, -, -, -, hderives⟩
    · rfl
    · simpa using (hderives.isRead node.bare (by simp)).1
  · obtain ⟨hstart, -, hstop⟩ := hplaced.bounds hchild
    exact Span.contains_iff.2 ⟨hstart, hstop⟩
  · obtain ⟨rule, first, front, us, back, htokens, hne, hspan, -⟩ :=
      (derives_part h hpart).resolve_left hroot
    have hsub : us.Sublist (parse source).tokens := by
      rw [htokens]
      exact (List.sublist_append_left us back).trans (List.sublist_append_right front _)
    obtain ⟨last, hlast, hstop⟩ := ((ordered_tokens source).sublist hsub).exists_stop_eq hne
    exact ⟨last, hsub.mem hlast, by rw [hstop, hspan hclause]⟩

/-- A program with branches, parentheses and a call. -/
theorem spans_nest_if :
    (parse "if a then (b)() else c() end".toList).isValid = true ∧
      (parse "if a then (b)() else c() end".toList).root.preorder.length =
        (parse "if a then (b)() else c() end".toList).nodeCount ∧
      ∀ node ∈ (parse "if a then (b)() else c() end".toList).root.preorder,
        node.Nests (parse "if a then (b)() else c() end".toList) := by
  have hvalid : (parse "if a then (b)() else c() end".toList).isValid = true := by decide +kernel
  exact ⟨hvalid, spans_nest hvalid⟩

end LuaFormatter
