import LuaFormatter.Parse.Program

/-!
# The surroundings of a comment

Which nodes enclose a span, come before it and come after it. `surroundings` goes down from the root
as long as a child contains the span; among the children that do not, a binary search finds the
neighbours. Children that could not be read are left out.
-/

namespace LuaFormatter

/-- The nodes around a span. There is no enclosing node if only the whole file contains it. -/
structure Surroundings where
  enclosing : Option Node
  preceding : Option Node
  following : Option Node

namespace Surroundings

/-- The order of nodes in a source: by their start, then by their end. -/
def comesFirst (a b : Node) : Bool :=
  a.span.start < b.span.start || (a.span.start = b.span.start && a.span.stop ≤ b.span.stop)

/-- The children of a node in the order of the source, without those that could not be read. -/
def orderedChildren (node : Node) : List Node :=
  (node.children.filter fun child => !child.shape.isInvalid).mergeSort comesFirst

/-- Where a span is among nodes: inside one of them, or between two neighbours. -/
inductive Position where
  | inside (node : Node)
  | between (preceding following : Option Node)

/-- Search for a span among the nodes from `left` up to `right`, between two neighbours that are
known so far. The search stops at a node that overlaps the span. -/
def search (nodes : List Node) (span : Span) (left right : Nat)
    (preceding following : Option Node) : Position :=
  if left < right then
    let middle := (left + right) / 2
    match nodes[middle]? with
    | none => .between preceding following
    | some node =>
      if node.span.contains span then .inside node
      else if node.span.isBefore span then
        search nodes span (middle + 1) right (some node) following
      else if span.isBefore node.span then search nodes span left middle preceding (some node)
      else .between preceding following
  else
    .between preceding following
termination_by right - left

/-- The search finds a span only inside one of the nodes. Counterpart of `search`. -/
theorem mem_of_search {nodes : List Node} {span : Span} {left right : Nat}
    {preceding following : Option Node} {node : Node}
    (h : search nodes span left right preceding following = .inside node) : node ∈ nodes := by
  fun_induction search nodes span left right preceding following with
  | case1 | case5 | case6 => cases h
  | case2 left right preceding following _ middle found hfound =>
    cases h
    exact List.mem_of_getElem? hfound
  | case3 left right preceding following _ middle found hfound _ _ ih => exact ih h
  | case4 left right preceding following _ middle found hfound _ _ _ ih => exact ih h

/-- A node in which the search finds a span is a child. Counterpart of `search` on
`orderedChildren`, by which the way down ends. -/
theorem mem_children_of_search {parent : Node} {span : Span} {left right : Nat}
    {preceding following : Option Node} {node : Node}
    (h : search (orderedChildren parent) span left right preceding following = .inside node) :
    node ∈ parent.children :=
  (List.mem_filter.1 (List.mem_mergeSort.1 (mem_of_search h))).1

/-- The surroundings of a span inside a node, which is the innermost enclosing one known so far. -/
def within (span : Span) (enclosing : Option Node) (node : Node) : Surroundings :=
  let children := orderedChildren node
  match _found : search children span 0 children.length none none with
  | .inside child => within span (some child) child
  | .between preceding following => ⟨enclosing, preceding, following⟩
termination_by node.size
decreasing_by exact Node.size_lt_of_mem_children (mem_children_of_search _found)

end Surroundings

/-- The nodes of a tree around a span. -/
def surroundings (root : Node) (span : Span) : Surroundings :=
  Surroundings.within span none root

end LuaFormatter
