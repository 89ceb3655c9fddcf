import LuaFormatter.Format.Context
import LuaFormatter.Proofs.Comment.Owners
import LuaFormatter.Proofs.Tree.Nodes

/-!
# Every comment has one owner

The owners of comments are looked for in trees of all kinds, also in those of sources with faults,
where nodes may overlap. The search uses indices of children and of bytes, numbers of nodes, and the
text between two offsets. `attachments?` makes every such use explicit and fails where it is not
allowed: an index past the end, a number that no node has, an offset inside a character, or two
offsets in the wrong order. It never fails, and gives the owners that the formatter uses
(`attachments?_eq`).

Every comment is then in the list of exactly one node, its owner (`comments_attached_once`).
-/

namespace LuaFormatter

/-! ## Checked runs -/

/-- The number of the node is one of those that were given out, so the node can be looked up. -/
def Program.holds (program : Program) (node : Node) : Bool :=
  node.number < program.nodeCount

/-- The last byte before an offset that is no space. It fails past the end of the source. -/
def Gap.lastBefore? (source : List UInt8) : Nat → Option (Option UInt8)
  | 0 => some none
  | index + 1 =>
    source[index]?.bind fun byte =>
      if isSpace byte then lastBefore? source index else some (some byte)

/-- A line break stands before the offset, with only spaces between. -/
def Gap.hasBreakBefore? (source : List UInt8) (offset : Nat) : Option Bool :=
  (lastBefore? source offset).map fun byte => byte.all isBreak

namespace Surroundings

/-- The search for a span among nodes. It fails at an index without a node. -/
def search? (program : Program) (nodes : List Node) (span : Span) (left right : Nat)
    (preceding following : Option Node) : Option Position :=
  if left < right then
    let middle := (left + right) / 2
    match nodes[middle]? with
    | none => none
    | some node =>
      if program.holds node then
        if node.span.contains span then some (.inside node)
        else if node.span.isBefore span then
          search? program nodes span (middle + 1) right (some node) following
        else if span.isBefore node.span then
          search? program nodes span left middle preceding (some node)
        else some (.between preceding following)
      else none
  else
    some (.between preceding following)
termination_by right - left

section
variable {program : Program} {nodes : List Node} {span : Span} {left right : Nat}
  {preceding following : Option Node}

/-- A search that does not fail finds what the search without checks finds. Counterpart of `search`,
whose look-ups `search?` checks. -/
theorem search_of_search? {position : Position}
    (h : search? program nodes span left right preceding following = some position) :
    search nodes span left right preceding following = position := by
  fun_induction search? program nodes span left right preceding following with
  | case1 | case6 => cases h
  | case2 left right preceding following hlt middle node hnode
  | case5 left right preceding following hlt middle node hnode =>
    cases h
    rw [search]
    simp_all [middle]
  | case3 left right preceding following hlt middle node hnode _ _ _ ih
  | case4 left right preceding following hlt middle node hnode _ _ _ _ ih =>
    rw [search, ← ih h]
    simp_all [middle]
  | case7 left right preceding following hge =>
    cases h
    rw [search, if_neg hge]

/-- The search among nodes that can be looked up does not fail. Counterpart of `search?`. -/
theorem search?_eq (hnodes : ∀ node ∈ nodes, program.holds node = true)
    (hright : right ≤ nodes.length) :
    search? program nodes span left right preceding following =
      some (search nodes span left right preceding following) := by
  fun_induction search nodes span left right preceding following with
  | case1 left right preceding following hlt middle hnone =>
    have := List.getElem?_eq_none_iff.1 hnone
    omega
  | case2 left right preceding following hlt middle node hnode hcontains =>
    have hholds := hnodes node (List.mem_of_getElem? hnode)
    rw [search?]
    simp_all [middle]
  | case3 left right preceding following hlt middle node hnode hcontains hbefore ih =>
    have hholds := hnodes node (List.mem_of_getElem? hnode)
    rw [search?, ← ih hright]
    simp_all [middle]
  | case4 left right preceding following hlt middle node hnode hcontains hbefore hafter ih =>
    have hholds := hnodes node (List.mem_of_getElem? hnode)
    rw [search?, ← ih (by omega)]
    simp_all [middle]
  | case5 left right preceding following hlt middle node hnode hcontains hbefore hafter =>
    have hholds := hnodes node (List.mem_of_getElem? hnode)
    rw [search?]
    simp_all [middle]
  | case6 left right preceding following hge => rw [search?, if_neg hge]

end

/-- The surroundings of a span inside a node. It fails if the node or one of its children cannot be
looked up. -/
def within? (program : Program) (span : Span) (enclosing : Option Node) (node : Node) :
    Option Surroundings :=
  if (node :: node.children).all program.holds then
    let children := orderedChildren node
    match _found : search? program children span 0 children.length none none with
    | none => none
    | some (.inside child) => within? program span (some child) child
    | some (.between preceding following) => some ⟨enclosing, preceding, following⟩
  else
    none
termination_by node.size
decreasing_by
  exact Node.size_lt_of_mem_children (mem_children_of_search (search_of_search? _found))

end Surroundings

/-- The nodes of a program around a span. It fails if one of them cannot be looked up. -/
def surroundings? (program : Program) (span : Span) : Option Surroundings :=
  Surroundings.within? program span none program.root

namespace Attachment

/-- How many of the comments, the last of which comes first, have only blanks between them and an
offset. It fails if there is no text between a comment and the offset. -/
def leadingRun? (source : List Char) (stop : Nat) : List Comment → Option Nat
  | [] => some 0
  | comment :: rest =>
    ((Span.mk comment.span.stop stop).text? source).bind fun gap =>
      if (utf8 gap).all Gap.isSpace then
        (leadingRun? source comment.span.start rest).map (· + 1)
      else
        some 0

/-- The owners of a run of ties. It fails if they cannot be looked up. -/
def settle? (program : Program) : List Tie → Option (List Attachment)
  | [] => some []
  | first :: rest =>
    if program.holds first.preceding && program.holds first.following then
      let comments := (first :: rest).map Tie.comment
      (leadingRun? program.source first.following.span.start comments.reverse).map fun leading =>
        let (trailing, leading) := comments.splitAt (comments.length - leading)
        trailing.map (⟨·, first.preceding, .trailing⟩) ++
          leading.map (⟨·, first.following, .leading⟩)
    else
      none

/-- What becomes of a comment. It fails if the nodes around it cannot be found, or the text before
it. -/
def verdict? (program : Program) (comment : Comment) : Option Verdict :=
  (surroundings? program comment.span).bind fun around =>
    if around.enclosing.all program.holds then
      let parens := around.enclosing.filter fun node =>
        node.shape.hasEmptyParens && isBetweenParens program.tokens comment.span
      match parens with
      | some node => some (.owned ⟨comment, node, .dangling⟩)
      | none =>
        let source := utf8 program.source
        (Gap.hasBreakBefore? source comment.span.start).map fun onOwnLine =>
          let endsLine := Gap.hasBreakAfter source comment.span.stop
          let owned := Verdict.owned (ownerOf program.root comment around onOwnLine)
          match around.preceding, around.following with
          | some preceding, some following =>
            if onOwnLine || endsLine then owned else .tied ⟨comment, preceding, following⟩
          | _, _ => owned
    else
      none

/-- The owners of comments, after a run of ties. It fails where a run cannot be settled. -/
def settleAll? (program : Program) (ties : List Tie) : List Verdict → Option (List Attachment)
  | [] => settle? program ties
  | .owned attachment :: rest => do
    let settled ← settle? program ties
    let others ← settleAll? program [] rest
    return settled ++ attachment :: others
  | .tied tie :: rest =>
    if ties.getLast?.all (·.following.number = tie.following.number) then
      settleAll? program (ties ++ [tie]) rest
    else do
      let settled ← settle? program ties
      let others ← settleAll? program [tie] rest
      return settled ++ others

end Attachment

/-- The comments of a program with their owners. It fails if some owner has no list for its
comments, or if something needed on the way to the owners is not there. -/
def attachments? (program : Program) : Option (List Attachment) := do
  let verdicts ← program.comments.mapM (Attachment.verdict? program)
  let settled ← Attachment.settleAll? program [] verdicts
  if settled.all fun attachment => program.holds attachment.owner then
    return settled.map Attachment.makeRoom
  else
    none

/-! ## Text between offsets -/

/-- Between two offsets that cut a source between characters stands a text. Counterpart of
`cut?`. -/
theorem exists_text? {source : List Char} {start stop : Nat} (hle : start ≤ stop)
    (hstart : (cut? source start).isSome = true) (hstop : (cut? source stop).isSome = true) :
    ∃ gap, (Span.mk start stop).text? source = some gap ∧
      utf8 gap = (Gap.after (utf8 source) start).take (stop - start) := by
  obtain ⟨⟨front, tail⟩, hfront⟩ := Option.isSome_iff_exists.1 hstart
  obtain ⟨⟨longer, back⟩, hlonger⟩ := Option.isSome_iff_exists.1 hstop
  obtain ⟨hsource, rfl⟩ := cut?_eq_some hfront
  obtain ⟨rfl, rfl⟩ := cut?_eq_some hlonger
  obtain ⟨gap, rfl⟩ : ∃ gap, longer = front ++ gap := by
    rcases List.append_eq_append_iff.1 hsource.symm with ⟨gap, hgap, -⟩ | ⟨extra, rfl, -⟩
    · exact ⟨gap, hgap⟩
    · cases extra with
      | nil => exact ⟨[], by simp⟩
      | cons c extra =>
        have := c.utf8Size_pos
        rw [byteLength_append, byteLength] at hle
        omega
  refine ⟨gap, ?_, ?_⟩
  · rw [byteLength_append, List.append_assoc, Span.text?_append]
  · rw [Gap.after, List.append_assoc, utf8_append, ← length_utf8 front, List.drop_left, utf8_append,
      ← length_utf8, utf8_append, List.length_append, Nat.add_sub_cancel_left, List.take_left]

/-- The last byte before an offset inside the source can be found. Counterpart of
`Gap.lastBefore?`. -/
theorem Gap.lastBefore?_eq {source : List UInt8} {offset : Nat} (h : offset ≤ source.length) :
    lastBefore? source offset = some ((before source offset).dropWhile isSpace).head? := by
  induction offset with
  | zero => rfl
  | succ index ih =>
    have hbyte := List.getElem?_eq_getElem (Nat.lt_of_succ_le h)
    have hbefore : before source (index + 1) = source[index] :: before source index := by
      rw [before, List.take_add_one, hbyte]
      simp [before]
    rw [lastBefore?, hbyte, hbefore, Option.bind_some]
    split
    · rename_i hspace
      rw [ih (Nat.le_of_succ_le h), List.dropWhile_cons_of_pos hspace]
    · rename_i hspace
      rw [List.dropWhile_cons_of_neg hspace]
      rfl

/-! ## The nodes around a comment -/

/-- All nodes of a tree can be looked up, and they start between characters. Counterpart of
`Program.holds`. -/
theorem holds_of_part {source : List Char} {part : Node} (hpart : part.Part (parse source).root) :
    (parse source).holds part = true ∧ (cut? source part.span.start).isSome = true := by
  have hnumbered := numbered_chunkRun source
  rw [Program.holds, decide_eq_true_eq]
  rw [root_parse] at hpart
  cases hpart with
  | self => exact ⟨hnumbered.le, by simp [Node.span, cut?]⟩
  | child hchild hpart =>
    obtain ⟨first, -, hnumber, ⟨token, htoken, hstart⟩, -⟩ := hnumbered.part hchild hpart
    exact ⟨hnumber, hstart ▸ cut?_start_of_hasToken htoken⟩

namespace Surroundings

/-- The nodes around a span are parts of a tree, and the one that follows starts after it. -/
structure OfParts (root : Node) (span : Span) (around : Surroundings) : Prop where
  enclosing : ∀ node ∈ around.enclosing, node.Part root
  preceding : ∀ node ∈ around.preceding, node.Part root
  following : ∀ node ∈ around.following, node.Part root ∧ span.stop ≤ node.span.start

/-- The neighbours that a search finds are among the nodes, also if these overlap. Counterpart of
`search`. -/
theorem search_between {nodes : List Node} {span : Span} {left right : Nat}
    {preceding following before after : Option Node}
    (h : search nodes span left right preceding following = .between before after)
    (hpreceding : ∀ node ∈ preceding, node ∈ nodes)
    (hfollowing : ∀ node ∈ following, node ∈ nodes ∧ span.stop ≤ node.span.start) :
    (∀ node ∈ before, node ∈ nodes) ∧
      ∀ node ∈ after, node ∈ nodes ∧ span.stop ≤ node.span.start := by
  fun_induction search nodes span left right preceding following with
  | case1 | case5 | case6 =>
    cases h
    exact ⟨hpreceding, hfollowing⟩
  | case2 => cases h
  | case3 left right preceding following _ middle node hnode _ _ ih =>
    refine ih h ?_ hfollowing
    rintro _ ⟨⟩
    exact List.mem_of_getElem? hnode
  | case4 left right preceding following _ middle node hnode _ _ hafter ih =>
    refine ih h hpreceding ?_
    rintro _ ⟨⟩
    exact ⟨List.mem_of_getElem? hnode, by simpa [Span.isBefore] using hafter⟩

/-- The children among which the search looks are children of the node. Counterpart of
`orderedChildren`. -/
theorem mem_children_of_mem_orderedChildren {node child : Node} (h : child ∈ orderedChildren node) :
    child ∈ node.children :=
  (List.mem_filter.1 (List.mem_mergeSort.1 h)).1

/-- The way down a tree stays in it. Counterpart of `Surroundings.within`. -/
theorem ofParts_within {root : Node} {span : Span} (enclosing : Option Node) (node : Node)
    (henclosing : ∀ outer ∈ enclosing, outer.Part root) (hnode : node.Part root) :
    (within span enclosing node).OfParts root span := by
  induction hsize : node.size using Nat.strongRecOn generalizing node enclosing with
  | ind size ih =>
    have hpart : ∀ child ∈ orderedChildren node, child.Part root := fun child hmem =>
      (Node.Part.of_mem_children (mem_children_of_mem_orderedChildren hmem)).trans hnode
    cases hsearch : search (orderedChildren node) span 0
      (orderedChildren node).length none none with
    | inside child =>
      have hchild := mem_children_of_search hsearch
      rw [within_of_inside hsearch]
      refine ih child.size (hsize ▸ Node.size_lt_of_mem_children hchild) (some child) child ?_
        ((Node.Part.of_mem_children hchild).trans hnode) rfl
      rintro _ ⟨⟩
      exact (Node.Part.of_mem_children hchild).trans hnode
    | between preceding following =>
      rw [within_of_between hsearch]
      obtain ⟨hpreceding, hfollowing⟩ := search_between hsearch (by simp) (by simp)
      exact ⟨henclosing, fun other hmem => hpart other (hpreceding other hmem), fun other hmem =>
        ⟨hpart other (hfollowing other hmem).1, (hfollowing other hmem).2⟩⟩

/-- The way down a tree does not fail. Counterpart of `within?`. -/
theorem within?_eq {source : List Char} (span : Span) (enclosing : Option Node) (node : Node)
    (hnode : node.Part (parse source).root) :
    within? (parse source) span enclosing node = some (within span enclosing node) := by
  induction hsize : node.size using Nat.strongRecOn generalizing node enclosing with
  | ind size ih =>
    have hholds : ∀ child ∈ node.children, (parse source).holds child = true := fun child hmem =>
      (holds_of_part ((Node.Part.of_mem_children hmem).trans hnode)).1
    have hfound := @search?_eq (parse source) (orderedChildren node) span 0
      (orderedChildren node).length none none
      (fun child hmem => hholds child (mem_children_of_mem_orderedChildren hmem)) (Nat.le_refl _)
    rw [within?, if_pos (by simpa [(holds_of_part hnode).1] using hholds)]
    dsimp only
    -- Only the branch of what the search finds is left.
    split
    · rename_i hnone
      cases hfound.symm.trans hnone
    · rename_i child hinside
      have hsearch := search_of_search? hinside
      have hchild := mem_children_of_search hsearch
      rw [within_of_inside hsearch]
      exact ih child.size (hsize ▸ Node.size_lt_of_mem_children hchild) (some child) child
        ((Node.Part.of_mem_children hchild).trans hnode) rfl
    · rename_i hbetween
      rw [within_of_between (search_of_search? hbetween)]

end Surroundings

/-- The nodes around a span are parts of the tree. Counterpart of `surroundings`. -/
theorem ofParts_surroundings (source : List Char) (span : Span) :
    (surroundings (parse source).root span).OfParts (parse source).root span :=
  Surroundings.ofParts_within none (parse source).root (by simp) (.self _)

/-- The search with its checks finds the nodes that are around the span. Counterpart of
`surroundings?`, whose checks always hold. -/
theorem surroundings?_eq (source : List Char) (span : Span) :
    surroundings? (parse source) span = some (surroundings (parse source).root span) :=
  Surroundings.within?_eq span none (parse source).root (.self _)

/-- A comment is a stretch of whole characters of its source. Counterpart of `Comment.span`. -/
theorem cut?_comment {source : List Char} {comment : Comment}
    (h : comment ∈ (parse source).comments) :
    (cut? source comment.span.start).isSome = true ∧
      (cut? source comment.span.stop).isSome = true := by
  obtain ⟨token, htoken, -, hspan, -⟩ := exists_token_of_comment h
  obtain ⟨hstart, hstop, -⟩ := text?_span_of_mem htoken
  rw [hspan]
  exact ⟨hstart, hstop⟩

namespace Attachment

/-- The comment of a tie is before the node that follows it, and the nodes are parts of the tree. -/
structure Tie.InGap (source : List Char) (tie : Tie) : Prop where
  comment : tie.comment ∈ (parse source).comments
  preceding : tie.preceding.Part (parse source).root
  following : tie.following.Part (parse source).root
  stop_le : tie.comment.span.stop ≤ tie.following.span.start

/-- The nodes of a verdict are parts of the tree. -/
def Verdict.OfParts (source : List Char) : Verdict → Prop
  | owned attachment => attachment.owner.Part (parse source).root
  | tied tie => tie.InGap source

/-- The owner of a comment is a part of the tree. Counterpart of `ownerOf`. -/
theorem part_ownerOf {root : Node} {comment : Comment} {around : Surroundings}
    (h : around.OfParts root comment.span) (onOwnLine : Bool) :
    (ownerOf root comment around onOwnLine).owner.Part root := by
  have henclosing : (around.enclosing.getD root).Part root := by
    cases hnode : around.enclosing with
    | none => exact .self root
    | some node => exact h.enclosing node hnode
  unfold ownerOf
  dsimp only
  split
  · exact henclosing
  · split
    · rename_i preceding following hpreceding hfollowing
      split
      · exact (h.following following hfollowing).1
      · exact h.preceding preceding hpreceding
    · rename_i following _ hfollowing
      exact (h.following following hfollowing).1
    · rename_i preceding hpreceding _
      exact h.preceding preceding hpreceding
    · exact henclosing

/-- What becomes of a comment is decided by parts of the tree. Counterpart of `verdict`. -/
theorem ofParts_verdict {source : List Char} {comment : Comment}
    (hcomment : comment ∈ (parse source).comments) (bytes : List UInt8) :
    (verdict (parse source) bytes comment).OfParts source := by
  have haround := ofParts_surroundings source comment.span
  unfold verdict
  dsimp only
  split
  · rename_i node hnode
    exact haround.enclosing node (Option.filter_eq_some_iff.1 hnode).1
  · have howner := fun onOwnLine => part_ownerOf haround onOwnLine
    split
    · rename_i preceding following hpreceding hfollowing
      obtain ⟨hpart, hstop⟩ := haround.following following hfollowing
      split
      · exact howner _
      · exact ⟨hcomment, haround.preceding preceding hpreceding, hpart, hstop⟩
    · exact howner _

/-- What becomes of a comment is decided without a failure. Counterpart of `verdict?`. -/
theorem verdict?_eq {source : List Char} {comment : Comment}
    (hcomment : comment ∈ (parse source).comments) :
    verdict? (parse source) comment = some (verdict (parse source) (utf8 source) comment) := by
  have haround := ofParts_surroundings source comment.span
  have hholds : (surroundings (parse source).root comment.span).enclosing.all
      (parse source).holds = true :=
    (Option.all_eq_true_iff_get _ _).2 fun hsome =>
      (holds_of_part (haround.enclosing _ (Option.get_mem hsome))).1
  have hbefore : Gap.hasBreakBefore? (utf8 source) comment.span.start =
      some (Gap.hasBreakBefore (utf8 source) comment.span.start) := by
    obtain ⟨⟨front, back⟩, hcut⟩ := Option.isSome_iff_exists.1 (cut?_comment hcomment).1
    obtain ⟨rfl, hstart⟩ := cut?_eq_some hcut
    rw [Gap.hasBreakBefore?, Gap.lastBefore?_eq (by simp [← hstart])]
    rfl
  rw [verdict?, surroundings?_eq, Option.bind_some, if_pos hholds, verdict]
  dsimp only
  rw [show (parse source).source = source from rfl, hbefore]
  cases (surroundings (parse source).root comment.span).enclosing.filter fun node =>
    node.shape.hasEmptyParens && isBetweenParens (parse source).tokens comment.span <;> rfl

/-- The text before each comment of a run can be read. Counterpart of `leadingRun?`. -/
theorem leadingRun?_eq {source : List Char} {stop : Nat} {comments : List Comment}
    (hstop : (cut? source stop).isSome = true)
    (hcomments : ∀ comment ∈ comments, comment ∈ (parse source).comments)
    (hordered : comments.Pairwise fun comment earlier => earlier.span.stop ≤ comment.span.start)
    (hle : ∀ comment ∈ comments, comment.span.stop ≤ stop) :
    leadingRun? source stop comments = some (leadingRun (utf8 source) stop comments) := by
  induction comments generalizing stop with
  | nil => rfl
  | cons comment rest ih =>
    rw [List.forall_mem_cons] at hcomments hle
    rw [List.pairwise_cons] at hordered
    obtain ⟨hstart, hend⟩ := cut?_comment hcomments.1
    obtain ⟨gap, htext, hgap⟩ := exists_text? hle.1 hend hstop
    have hrest := ih hstart hcomments.2 hordered.2 hordered.1
    rw [leadingRun?, htext, Option.bind_some, hgap, leadingRun, hrest]
    split <;> rfl

/-- Ties that wait together: they are before the same node. -/
structure IsRun (source : List Char) (ties : List Tie) : Prop where
  inGap : ∀ tie ∈ ties, tie.InGap source
  same : ∀ tie ∈ ties, ∀ other ∈ ties, tie.following = other.following

namespace IsRun

variable {source : List Char} {ties : List Tie} {tie : Tie}

/-- The empty list of ties is a run. Counterpart of `IsRun`, where a scan starts. -/
theorem nil : IsRun source [] :=
  ⟨by simp, by simp⟩

/-- A single tie in its gap is a run. Counterpart of `IsRun`, where a run of ties begins. -/
theorem one (h : tie.InGap source) : IsRun source [tie] :=
  ⟨by simpa using h, by simp⟩

/-- A tie before the node of the last one is before that of all of them, since the number of a node
tells it apart. Counterpart of `IsRun`, where a scan goes on. -/
theorem concat (h : IsRun source ties) (htie : tie.InGap source)
    (hlast : ties.getLast?.all (·.following.number = tie.following.number) = true) :
    IsRun source (ties ++ [tie]) := by
  have hnew : ∀ other ∈ ties, other.following = tie.following := by
    intro other hmem
    obtain ⟨last, hgetLast⟩ := Option.ne_none_iff_exists'.1
      (mt List.getLast?_eq_none_iff.1 (List.ne_nil_of_mem hmem))
    have hmem' := List.mem_of_getLast? hgetLast
    have hnumber : last.following.number = tie.following.number := by simpa [hgetLast] using hlast
    rw [h.same other hmem last hmem']
    exact eq_of_number_eq (h.inGap last hmem').following htie.following hnumber
  have hall : ∀ other ∈ ties ++ [tie], other.InGap source ∧ other.following = tie.following := by
    simpa [or_imp, forall_and, htie] using ⟨h.inGap, hnew⟩
  refine ⟨fun other hmem => (hall other hmem).1, fun first hfirst other hother => ?_⟩
  rw [(hall first hfirst).2, (hall other hother).2]

end IsRun

/-- A run of ties can be settled. Counterpart of `settle?`. -/
theorem settle?_eq {source : List Char} {ties : List Tie} (hrun : IsRun source ties)
    (hordered : (ties.map Tie.comment).Pairwise fun comment next =>
      comment.span.stop ≤ next.span.start) :
    settle? (parse source) ties = some (settle (utf8 source) ties) := by
  cases ties with
  | nil => rfl
  | cons first rest =>
    have hfirst := hrun.inGap first (by simp)
    have hmem : ∀ comment ∈ ((first :: rest).map Tie.comment).reverse,
        comment ∈ (parse source).comments ∧ comment.span.stop ≤ first.following.span.start := by
      intro comment hmem
      obtain ⟨tie, htie, rfl⟩ := List.mem_map.1 (List.mem_reverse.1 hmem)
      rw [hrun.same first (by simp) tie htie]
      exact ⟨(hrun.inGap tie htie).comment, (hrun.inGap tie htie).stop_le⟩
    have hleading := leadingRun?_eq (holds_of_part hfirst.following).2
      (fun comment h => (hmem comment h).1) (List.pairwise_reverse.2 hordered)
      fun comment h => (hmem comment h).2
    rw [settle?, if_pos (by simp [holds_of_part hfirst.preceding, holds_of_part hfirst.following])]
    dsimp only
    rw [show (parse source).source = source from rfl, hleading]
    rfl

/-- All comments get their owners without a failure. Counterpart of `settleAll?`. -/
theorem settleAll?_eq {source : List Char} {ties : List Tie} {verdicts : List Verdict}
    (hrun : IsRun source ties) (hverdicts : ∀ verdict ∈ verdicts, verdict.OfParts source)
    (hordered : (ties.map Tie.comment ++ verdicts.map Verdict.comment).Pairwise fun comment next =>
      comment.span.stop ≤ next.span.start) :
    settleAll? (parse source) ties verdicts = some (settleAll (utf8 source) ties verdicts) := by
  induction verdicts generalizing ties with
  | nil =>
    rw [settleAll?, settleAll]
    exact settle?_eq hrun (by simpa using hordered)
  | cons verdict rest ih =>
    rw [List.forall_mem_cons] at hverdicts
    obtain ⟨hties, hrest, -⟩ := List.pairwise_append.1 hordered
    have hsettle := settle?_eq hrun hties
    cases verdict with
    | owned attachment =>
      have hothers := ih .nil hverdicts.2 hrest.of_cons
      simp [settleAll?, settleAll, hsettle, hothers]
    | tied tie =>
      have htie : tie.InGap source := hverdicts.1
      unfold settleAll? settleAll
      split
      · rename_i hlast
        exact ih (hrun.concat htie hlast) hverdicts.2 (by simpa [Verdict.comment] using hordered)
      · have hothers := ih (.one htie) hverdicts.2 hrest
        simp [hsettle, hothers]

/-- All verdicts can be given. Counterpart of `verdict?` for all comments of a program. -/
theorem mapM_verdict?_eq {source : List Char} {comments : List Comment}
    (h : ∀ comment ∈ comments, comment ∈ (parse source).comments) :
    comments.mapM (verdict? (parse source)) =
      some (comments.map (verdict (parse source) (utf8 source))) := by
  induction comments with
  | nil => rfl
  | cons comment rest ih =>
    rw [List.forall_mem_cons] at h
    simp [verdict?_eq h.1, ih h.2]

end Attachment

/-- Every verdict names parts of the tree. Counterpart of `Attachment.verdict`. -/
theorem ofParts_verdicts (source : List Char) :
    ∀ verdict ∈ (parse source).comments.map (Attachment.verdict (parse source) (utf8 source)),
      verdict.OfParts source := by
  intro verdict hmem
  obtain ⟨comment, hcomment, rfl⟩ := List.mem_map.1 hmem
  exact Attachment.ofParts_verdict hcomment _

/-- The owners of comments are parts of the tree. Counterpart of `Attachment.owner`. -/
theorem part_owner {source : List Char} {attachment : Attachment}
    (h : attachment ∈ attachments (parse source)) : attachment.owner.Part (parse source).root := by
  obtain ⟨settled, hsettled, rfl⟩ := List.mem_map.1 h
  rw [Attachment.owner_makeRoom]
  rcases Attachment.mem_settleAll hsettled with hverdict | ⟨tie, htie, howner⟩
  · exact ofParts_verdicts source _ hverdict
  · have htie : tie.InGap source := ofParts_verdicts source _ (htie.resolve_left (by simp))
    rcases howner with ⟨howner, -⟩ | ⟨howner, -⟩
    · exact howner ▸ htie.preceding
    · exact howner ▸ htie.following

/-- The owners of all comments are found without a failure. Counterpart of `attachments?`. -/
theorem attachments?_eq (source : List Char) :
    attachments? (parse source) = some (attachments (parse source)) := by
  have hverdicts := @Attachment.mapM_verdict?_eq source (parse source).comments fun _ hmem => hmem
  have hsettled := Attachment.settleAll?_eq .nil (ofParts_verdicts source) (by
    rw [List.map_nil, List.nil_append, Attachment.map_comment_verdict]
    exact pairwise_comments source)
  have howners : (Attachment.settleAll (utf8 source) []
      ((parse source).comments.map (Attachment.verdict (parse source) (utf8 source)))).all
        (fun attachment => (parse source).holds attachment.owner) = true := by
    refine List.all_eq_true.2 fun attachment hmem => ?_
    rw [← Attachment.owner_makeRoom]
    exact (holds_of_part (part_owner (List.mem_map_of_mem hmem))).1
  rw [attachments?, hverdicts]
  simp only [Option.bind_eq_bind, Option.bind_some, hsettled, if_pos howners]
  rfl

/-! ## The comments of a node -/

/-- Items with a key from a list are those with its first key, those with its second one, and so on.
Counterpart of `List.filter` by a key. -/
theorem flatMap_filter_perm {α : Type} (key : α → Nat) {keys : List Nat} {items : List α}
    (hnodup : keys.Nodup) (h : ∀ item ∈ items, key item ∈ keys) :
    (keys.flatMap fun k => items.filter (key · = k)).Perm items := by
  induction keys generalizing items with
  | nil =>
    have : items = [] := List.eq_nil_iff_forall_not_mem.2 fun item hmem => by
      simpa using h item hmem
    rw [this]
    rfl
  | cons first keys ih =>
    obtain ⟨hfirst, hkeys⟩ := List.nodup_cons.1 hnodup
    have hothers : (keys.flatMap fun k => items.filter (key · = k)) =
        keys.flatMap fun k => (items.filter fun item => !decide (key item = first)).filter
        (key · = k) := by
      refine List.flatMap_congr fun k hk => ?_
      have : k ≠ first := fun heq => hfirst (heq ▸ hk)
      rw [List.filter_filter]
      exact List.filter_congr fun item _ => by grind
    rw [List.flatMap_cons, hothers]
    refine .trans (.append_left _ (ih hkeys fun item hmem => ?_)) (List.filter_append_perm _ items)
    obtain ⟨hmem, hne⟩ := List.mem_filter.1 hmem
    exact (List.mem_cons.1 (h item hmem)).resolve_left (by simpa using hne)

/-- The lists of all nodes together hold all comments of a program with their owners. Counterpart of
`Context.owned`. -/
theorem flatMap_owned_perm (source : List Char) (style : Style) :
    ((parse source).root.preorder.flatMap (Context.ofProgram (parse source) style).owned).Perm
      (attachments (parse source)) := by
  have hnumbers := preorder_numbers source
  have hperm := @flatMap_filter_perm Attachment (·.owner.number)
    ((parse source).root.preorder.map Node.number) (attachments (parse source))
    (hnumbers.nodup_iff.2 List.nodup_range) fun attachment hmem =>
      List.mem_map_of_mem (Node.mem_preorder.2 (part_owner hmem))
  rwa [List.flatMap_map] at hperm

/-- No two comments of a source are the same. Counterpart of `Program.comments`. -/
theorem nodup_comments (source : List Char) : (parse source).comments.Nodup := by
  refine (pairwise_comments source).imp_of_mem fun hmem _ hle => ?_
  have := comment_start_lt_stop hmem
  rintro rfl
  omega

/-- A comment is inside a node only if there is room. Counterpart of `Attachment.makeRoom`. -/
theorem Attachment.printsDangling_of_makeRoom {attachment : Attachment}
    (h : attachment.makeRoom.placement = .dangling) :
    attachment.makeRoom.owner.shape.printsDangling = true := by
  rw [owner_makeRoom]
  unfold makeRoom at h
  split at h
  · cases h
  · rename_i hroom
    by_contra hprints
    exact hroom ⟨h, hprints⟩

/-- Every comment of a source, with or without faults, is attached exactly once. The owners are
found without a failure, and the lists of all nodes together hold the comments of the source. A
comment is in the list of its owner only, with one placement, and it is inside a node only if that
has room for it. Counterpart of `attachments`. -/
theorem comments_attached_once (source : List Char) (style : Style) :
    attachments? (parse source) = some (Context.ofProgram (parse source) style).attachments ∧
      (((parse source).root.preorder.flatMap (Context.ofProgram (parse source) style).owned).map
        Attachment.comment).Perm (parse source).comments ∧
      (∀ comment ∈ (parse source).comments, ∃! attachment,
        (∃ node ∈ (parse source).root.preorder,
          attachment ∈ (Context.ofProgram (parse source) style).owned node) ∧
          attachment.comment = comment) ∧
      ∀ node ∈ (parse source).root.preorder,
        ∀ attachment ∈ (Context.ofProgram (parse source) style).owned node,
          attachment.owner = node ∧
            (attachment.placement = .dangling → node.shape.printsDangling = true) := by
  have hperm := flatMap_owned_perm source style
  have hcomments := map_comment_attachments (parse source)
  refine ⟨attachments?_eq source, hcomments ▸ hperm.map Attachment.comment, ?_, ?_⟩
  · intro comment hcomment
    rw [← hcomments] at hcomment
    obtain ⟨attachment, hmem, rfl⟩ := List.mem_map.1 hcomment
    have hnodup : ((attachments (parse source)).map Attachment.comment).Nodup := by
      rw [hcomments]
      exact nodup_comments source
    refine ⟨attachment, ⟨List.mem_flatMap.1 (hperm.mem_iff.2 hmem), rfl⟩, ?_⟩
    rintro other ⟨hother, hsame⟩
    exact List.inj_on_of_nodup_map hnodup (hperm.mem_iff.1 (List.mem_flatMap.2 hother)) hmem hsame
  · intro node hnode attachment hmem
    obtain ⟨hmem, hnumber⟩ := List.mem_filter.1 hmem
    have howner : attachment.owner = node :=
      eq_of_number_eq (part_owner hmem) (Node.mem_preorder.1 hnode) (of_decide_eq_true hnumber)
    refine ⟨howner, fun hdangling => ?_⟩
    obtain ⟨settled, -, rfl⟩ := List.mem_map.1 hmem
    rw [← howner]
    exact Attachment.printsDangling_of_makeRoom hdangling

end LuaFormatter
