import LuaFormatter.Proofs.Grammar.Numbering
import LuaFormatter.Tree.Outline
import Mathlib.Data.List.Nodup
import Mathlib.Data.List.Pairwise
import Mathlib.Data.List.Perm.Basic

/-!
# All nodes of a tree

The walk from the root down meets every node that was made for a source, also for one with faults:
the numbers of the nodes that it meets are all numbers of nodes, each of them once
(`preorder_numbers`). From this follows that a node is told apart by its number (`eq_of_number_eq`),
and that every node but the root has exactly one parent (`nodes_form_tree`).
-/

namespace LuaFormatter

namespace Node

/-- The nodes of a tree are its root and those of the trees of its children. Counterpart of
`Node.preorder`. -/
theorem preorder_eq (node : Node) : node.preorder = node :: node.children.flatMap preorder := by
  rw [preorder]
  simp

/-- The walk meets the parts of a node. Counterpart of `Node.preorder`. -/
theorem mem_preorder {node part : Node} : part ∈ node.preorder ↔ part.Part node := by
  induction hsize : node.size using Nat.strongRecOn generalizing node with
  | ind size ih =>
    rw [preorder_eq, List.mem_cons, List.mem_flatMap]
    constructor
    · rintro (rfl | ⟨child, hchild, hmem⟩)
      · exact .self part
      · exact .child hchild ((ih _ (hsize ▸ size_lt_of_mem_children hchild) rfl).1 hmem)
    · intro hpart
      cases hpart with
      | self => exact .inl rfl
      | child hchild hpart =>
        exact .inr ⟨_, hchild, (ih _ (hsize ▸ size_lt_of_mem_children hchild) rfl).2 hpart⟩

open scoped List in
/-- The parts of all nodes together are all nodes but the first. Counterpart of `Node.children`. -/
theorem flatMap_children_perm (node : Node) :
    (node.preorder.flatMap children).Perm (node.children.flatMap preorder) := by
  induction hsize : node.size using Nat.strongRecOn generalizing node with
  | ind size ih =>
    have hparts : (node.children.flatMap fun child => child.preorder.flatMap children).Perm
        (node.children.flatMap fun child => child.children.flatMap preorder) :=
      .flatMap_left _ fun child hchild => ih _ (hsize ▸ size_lt_of_mem_children hchild) child rfl
    calc node.preorder.flatMap children
        = node.children ++ node.children.flatMap fun child => child.preorder.flatMap children := by
          rw [preorder_eq, List.flatMap_cons, List.flatMap_assoc]
      _ ~ node.children ++ node.children.flatMap fun child => child.children.flatMap preorder :=
          hparts.append_left _
      _ ~ node.children.flatMap fun child => child :: child.children.flatMap preorder := by
          simpa using List.map_append_flatMap_perm node.children id
            fun child => child.children.flatMap preorder
      _ = node.children.flatMap preorder := by
          simp only [← preorder_eq]

end Node

/-- The walk meets every number once. Counterpart of `Numbered`. -/
theorem Numbered.perm {isToken : Token → Prop} {a b : Nat} {nodes : List Node}
    (h : Numbered isToken a b nodes) :
    ((nodes.flatMap Node.preorder).map Node.number).Perm (List.range' a (b - a)) := by
  induction h with
  | nil => simp
  | @node a b c shape span rest inParens hparts _ _ hrest ihparts ihrest =>
    have hle := hparts.le
    have hle' := hrest.le
    have hsplit : List.range' a (c - a) =
        List.range' a (b - a) ++ b :: List.range' (b + 1) (c - (b + 1)) := by
      have happend := @List.range'_append_1 a (b - a) (c - (b + 1) + 1)
      rw [Nat.add_sub_cancel' hle, show b - a + (c - (b + 1) + 1) = c - a by omega] at happend
      rw [← happend, List.range'_succ]
    rw [hsplit, List.flatMap_cons, Node.preorder_eq, List.map_append, List.map_cons]
    exact ((ihparts.cons b).append ihrest).trans List.perm_middle.symm

/-- The walk from the root meets all nodes that were made for a source, each of them once.
Counterpart of `Node.preorder`. -/
theorem preorder_numbers (source : List Char) :
    ((parse source).root.preorder.map Node.number).Perm (List.range (parse source).nodeCount) := by
  have hnumbered := numbered_chunkRun source
  obtain ⟨count, hcount⟩ := Nat.exists_eq_add_of_le' hnumbered.le
  have hrange : List.range (parse source).nodeCount =
      0 :: List.range' 1 ((parse source).nodeCount - 1) := by
    rw [hcount, List.range_eq_range', List.range'_succ, Nat.add_sub_cancel]
  rw [hrange, root_parse, Node.preorder_eq, List.map_cons]
  exact hnumbered.perm.cons 0

/-- No two nodes have the same number. Counterpart of `Node.number`. -/
theorem eq_of_number_eq {source : List Char} {node other : Node}
    (hnode : node.Part (parse source).root) (hother : other.Part (parse source).root)
    (hnumber : node.number = other.number) : node = other := by
  have hnodup := (preorder_numbers source).nodup_iff.2 List.nodup_range
  exact List.inj_on_of_nodup_map hnodup (Node.mem_preorder.2 hnode)
    (Node.mem_preorder.2 hother) hnumber

/-- A number other than that of the root is that of a part of exactly one node, and of one of its
parts only. Counterpart of `Node.number`. -/
theorem exists_parent {source : List Char} {number : Nat} (hpos : 0 < number)
    (hlt : number < (parse source).nodeCount) :
    ∃ parent ∈ (parse source).root.preorder,
      (parent.children.map Node.number).count number = 1 ∧
        ∀ other ∈ (parse source).root.preorder, number ∈ other.children.map Node.number →
          other = parent := by
  have hperm := ((parse source).root.flatMap_children_perm).map Node.number
  have hnumbers : (((parse source).root.children.flatMap Node.preorder).map Node.number).Perm
      (List.range' 1 ((parse source).nodeCount - 1)) := (numbered_chunkRun source).perm
  have hall := hperm.trans hnumbers
  have hmem := hall.mem_iff.2 (List.mem_range'_1.2 ⟨hpos, by omega⟩)
  have hnodup := hall.nodup_iff.2 List.nodup_range'
  rw [List.map_flatMap] at hmem hnodup
  obtain ⟨hinner, houter⟩ := List.nodup_flatMap.1 hnodup
  obtain ⟨parent, hparent, hchild⟩ := List.mem_flatMap.1 hmem
  refine ⟨parent, hparent, List.count_eq_one_of_mem (hinner parent hparent) hchild, ?_⟩
  intro other hother hmem
  by_contra hne
  have hsymm : Std.Symm (Function.onFun List.Disjoint fun node : Node =>
        node.children.map Node.number) :=
    ⟨fun _ _ hdisjoint _ hleft hright => hdisjoint hright hleft⟩
  exact houter.forall hother hparent hne hmem hchild

/-- The names and literals of a source, with or without faults, have the texts of its tokens.
Counterpart of `Shape.IsReadFrom`. -/
theorem isReadFrom_of_part {source : List Char} {part : Node}
    (hpart : part.Part (parse source).root) :
    part.shape.IsReadFrom (parse source).HasToken := by
  rw [root_parse] at hpart
  cases hpart with
  | self => trivial
  | child hchild hpart =>
    obtain ⟨-, -, -, -, hread, -⟩ := (numbered_chunkRun source).part hchild hpart
    exact hread

/-- The nodes that were made for a source, with or without faults, form a tree. The root is the
first node and the whole file. Every other node is one part of exactly one node, and no node but the
root has a smaller number than one of its parts. So the walk from the root meets every node once.
Counterpart of `parse`. -/
theorem nodes_form_tree (source : List Char) :
    ((parse source).root.number = 0 ∧ ∃ body, (parse source).root.shape = .chunk body) ∧
      (∀ number, 0 < number → number < (parse source).nodeCount →
        ∃ parent ∈ (parse source).root.preorder,
          (parent.children.map Node.number).count number = 1 ∧
            ∀ other ∈ (parse source).root.preorder, number ∈ other.children.map Node.number →
              other = parent) ∧
      (∀ node ∈ (parse source).root.preorder, node ≠ (parse source).root →
        ∀ child ∈ node.children, child.number < node.number) ∧
      ((parse source).root.preorder.map Node.number).Perm
      (List.range (parse source).nodeCount) := by
  refine ⟨⟨rfl, _, rfl⟩, fun number => exists_parent, fun node hmem hne child hchild => ?_,
    preorder_numbers source⟩
  cases Node.mem_preorder.1 hmem with
  | self => exact absurd rfl hne
  | child htop hpart =>
    obtain ⟨first, -, -, -, -, hparts⟩ := (numbered_chunkRun source).part htop hpart
    obtain ⟨-, -, hlt, -⟩ := hparts.part hchild (.self child)
    exact hlt

end LuaFormatter
