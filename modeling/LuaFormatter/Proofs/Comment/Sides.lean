import LuaFormatter.Proofs.Comment.Room

/-!
# The sides of comments

The way down the tree takes a binary search at every level, and stops at the first node whose parts
do not contain the comment. It finds what a look at all nodes finds (`Surroundings.Scanned`), since
a comment overlaps no node and the nodes of a level come one after the other. So a comment is
printed on the side of its owner that it is on in the source (`Attachment.OnItsSide`); this holds of
ties as well, which are settled with the nodes of the first tie of their run
(`comments_onTheirSides`).
-/

namespace LuaFormatter

/-! ## What a scan of all nodes finds -/

namespace Surroundings

/-- The nodes around a span are those that a scan of the tree finds. The enclosing node is the
deepest one around the span, as it is in every other one but the root; its neighbours are the last
of the children that are over before the span and the first of those that start after it. -/
structure Scanned (root : Node) (span : Span) (around : Surroundings) : Prop where
  encloses : ∀ node ∈ around.enclosing,
    node ∈ root.preorder ∧ node ≠ root ∧ node.span.contains span = true
  deepest : ∀ other ∈ root.preorder, other ≠ root → other.span.contains span = true →
    ∃ node ∈ around.enclosing, node ∈ other.preorder
  preceding : around.preceding =
    ((around.enclosing.getD root).children.filter (·.span.isBefore span)).getLast?
  following : around.following = (around.enclosing.getD root).children.find? (span.isBefore ·.span)

/-- The enclosing node is below the node that the way down starts from. Counterpart of
`Surroundings.within`. -/
theorem size_enclosing_lt {span : Span} {enclosing : Option Node} {root : Node} {bound : Nat}
    (hbound : root.size ≤ bound) (henclosing : ∀ node ∈ enclosing, node.size < bound) :
    ∀ node ∈ (within span enclosing root).enclosing, node.size < bound := by
  induction hsize : root.size using Nat.strongRecOn generalizing root enclosing with
  | ind size ih =>
    cases hsearch : search (orderedChildren root) span 0
      (orderedChildren root).length none none with
    | inside child =>
      have hlt := Node.size_lt_of_mem_children (mem_children_of_search hsearch)
      rw [within_of_inside hsearch]
      refine ih child.size (hsize ▸ hlt) (by omega) ?_ rfl
      rintro _ ⟨⟩
      omega
    | between preceding following =>
      rw [within_of_between hsearch]
      exact henclosing

end Surroundings

/-- The children around a span are found by a scan. Counterpart of `Surrounded`. -/
theorem Surrounded.scan {span : Span} {parent : Node} {preceding following : Option Node}
    (h : Surrounded span parent preceding following) (hspan : span.start < span.stop)
    (hlt : ∀ child ∈ parent.children, child.span.start < child.span.stop) :
    preceding = (parent.children.filter (·.span.isBefore span)).getLast? ∧
      following = parent.children.find? (span.isBefore ·.span) := by
  obtain ⟨before, after, hsplit, hbefore, hafter, rfl, rfl⟩ := h.split
  rw [hsplit] at hlt ⊢
  have hpast : before.filter (·.span.isBefore span) = before :=
    List.filter_eq_self.2 fun child hmem => decide_eq_true (hbefore child hmem)
  have hnotPast : after.filter (·.span.isBefore span) = [] := by
    refine List.filter_eq_nil_iff.2 fun child hmem => ?_
    have := hafter child hmem
    have := hlt child (List.mem_append_right before hmem)
    simp only [Span.isBefore, decide_eq_true_eq]
    omega
  have hnotNext : before.find? (span.isBefore ·.span) = none := by
    refine List.find?_eq_none.2 fun child hmem => ?_
    have := hbefore child hmem
    have := hlt child (List.mem_append_left after hmem)
    simp only [Span.isBefore, decide_eq_true_eq]
    omega
  have hnext : after.find? (span.isBefore ·.span) = after.head? := by
    cases after with
    | nil => rfl
    | cons first rest => exact List.find?_cons_of_pos (decide_eq_true (hafter first (by simp)))
  rw [List.filter_append, hpast, hnotPast, List.append_nil, List.find?_append, hnotNext, hnext]
  exact ⟨rfl, rfl⟩

/-- The search for the nodes around a comment finds what a scan finds. Counterpart of
`surroundings`. -/
theorem scanned_surroundings {source : List Char} (h : (parse source).isValid = true)
    {comment : Comment} (hcomment : comment ∈ (parse source).comments) :
    (surroundings (parse source).root comment.span).Scanned (parse source).root comment.span := by
  have hspan := comment_start_lt_stop hcomment
  have hplaced := placed_children h (.self (parse source).root)
  have hsize := @Surroundings.size_enclosing_lt comment.span none (parse source).root _
    (Nat.le_refl _) (by simp)
  obtain ⟨parent, hpart, hsurrounded, hend⟩ := within_spec hspan none (parse source).root
    (searchable_root h hcomment)
  have hchildren : ∀ child ∈ parent.children, ¬child.span.contains comment.span = true := by
    intro child hmem
    obtain ⟨before, after, hsplit, hbefore, hafter, -, -⟩ := hsurrounded.split
    rw [Span.contains_iff]
    rcases List.mem_append.1 (hsplit ▸ hmem) with hmem | hmem
    · have := hbefore child hmem
      omega
    · have := hafter child hmem
      omega
  obtain ⟨hpreceding, hfollowing⟩ := hsurrounded.scan hspan fun child hmem =>
    ((placed_children h hpart).bounds hmem).2.1
  change ∀ node ∈ (surroundings (parse source).root comment.span).enclosing, _ at hsize
  change parent = _ ∧ (surroundings (parse source).root comment.span).enclosing = none ∨
    (surroundings (parse source).root comment.span).enclosing = some parent ∧ _ at hend
  rcases hend with ⟨rfl, henclosing⟩ | ⟨henclosing, hcontains⟩
  · refine ⟨by simp [henclosing], fun other hother hne hinside => ?_,
      by rw [henclosing]; exact hpreceding, by rw [henclosing]; exact hfollowing⟩
    cases Node.mem_preorder.1 hother with
    | self => exact absurd rfl hne
    | child hchild hpart =>
      exact absurd (hplaced.contains_of_part hchild hpart hinside) (hchildren _ hchild)
  · have hne : parent ≠ (parse source).root := by
      rintro rfl
      exact Nat.lt_irrefl _ (hsize _ henclosing)
    refine ⟨?_, fun other hother hotherNe hinside => ⟨parent, henclosing, ?_⟩,
      by rw [henclosing]; exact hpreceding, by rw [henclosing]; exact hfollowing⟩
    · intro node hnode
      cases henclosing.symm.trans hnode
      exact ⟨Node.mem_preorder.2 hpart, hne, hcontains⟩
    · rw [Node.mem_preorder]
      cases hpart with
      | self => exact absurd rfl hne
      | child hchild hpart =>
        cases Node.mem_preorder.1 hother with
        | self => exact absurd rfl hotherNe
        | child hchild' houter =>
          exact hplaced.part_of_contains hspan hchild hchild' hpart houter ⟨hcontains, hchildren⟩
            hinside

/-! ## The sides of owners -/

namespace Attachment

/-- The comment is on the side of its owner that its placement says. A comment after its owner may
also be inside it, if the owner has no room for comments. -/
def OnItsSide (attachment : Attachment) : Prop :=
  match attachment.placement with
  | .leading => attachment.comment.span.stop ≤ attachment.owner.span.start
  | .trailing => attachment.owner.span.stop ≤ attachment.comment.span.start ∨
    attachment.owner.span.contains attachment.comment.span = true ∧
      attachment.owner.shape.printsDangling = false
  | .dangling => attachment.owner.span.contains attachment.comment.span = true

/-- The comment of a tie is between its two nodes. -/
def Tie.Between (tie : Tie) : Prop :=
  tie.preceding.span.stop ≤ tie.comment.span.start ∧
    tie.comment.span.stop ≤ tie.following.span.start

/-- What a verdict says of the side of a comment. -/
def Verdict.OnItsSide : Verdict → Prop
  | owned attachment => attachment.OnItsSide
  | tied tie => tie.Between

/-- Making room for a comment leaves it on its side of the owner. Counterpart of
`Attachment.makeRoom`. -/
theorem onItsSide_makeRoom {attachment : Attachment} (h : attachment.OnItsSide) :
    attachment.makeRoom.OnItsSide := by
  obtain ⟨comment, owner, placement⟩ := attachment
  unfold makeRoom
  split
  · rename_i hroom
    obtain ⟨rfl, hroom⟩ : placement = .dangling ∧ ¬owner.shape.printsDangling = true := hroom
    exact .inr ⟨h, by simpa using hroom⟩
  · exact h

/-- A run is settled with the nodes of its first tie, which are on the two sides of the others too.
Counterpart of `settle`. -/
theorem onItsSide_settle {source : List Char} {ties : List Tie} (bytes : List UInt8)
    (hrun : IsRun source ties) (hbetween : ∀ tie ∈ ties, tie.Between)
    (hordered : (ties.map Tie.comment).Pairwise fun comment next =>
      comment.span.stop ≤ next.span.start) :
    ∀ attachment ∈ settle bytes ties, attachment.OnItsSide := by
  cases ties with
  | nil => simp [settle]
  | cons first rest =>
    have hsides : ∀ comment ∈ (first :: rest).map Tie.comment,
        first.preceding.span.stop ≤ comment.span.start ∧
          comment.span.stop ≤ first.following.span.start := by
      intro comment hmem
      obtain ⟨tie, htie, rfl⟩ := List.mem_map.1 hmem
      have hfirst := (hbetween first (by simp)).1
      refine ⟨?_, hrun.same first (by simp) tie htie ▸ (hbetween tie htie).2⟩
      rcases List.mem_cons.1 htie with rfl | htie
      · exact hfirst
      · have hnext := (List.pairwise_cons.1 hordered).1 _ (List.mem_map_of_mem htie)
        have hlt := comment_start_lt_stop (hrun.inGap first (by simp)).comment
        omega
    intro attachment hmem
    simp only [settle, List.splitAt_eq] at hmem
    rcases List.mem_append.1 hmem with hmem | hmem
    · obtain ⟨comment, hcomment, rfl⟩ := List.mem_map.1 hmem
      exact .inl (hsides comment (List.mem_of_mem_take hcomment)).1
    · obtain ⟨comment, hcomment, rfl⟩ := List.mem_map.1 hmem
      exact (hsides comment (List.mem_of_mem_drop hcomment)).2

/-- Settling runs of ties leaves each comment on its side of the owner. Counterpart of `settleAll`,
by recursion over the verdicts with the run so far. -/
theorem onItsSide_settleAll {source : List Char} {ties : List Tie} {verdicts : List Verdict}
    (bytes : List UInt8) (hrun : IsRun source ties) (hbetween : ∀ tie ∈ ties, tie.Between)
    (hparts : ∀ verdict ∈ verdicts, verdict.OfParts source)
    (hverdicts : ∀ verdict ∈ verdicts, verdict.OnItsSide)
    (hordered : (ties.map Tie.comment ++ verdicts.map Verdict.comment).Pairwise fun comment next =>
      comment.span.stop ≤ next.span.start) :
    ∀ attachment ∈ settleAll bytes ties verdicts, attachment.OnItsSide := by
  induction verdicts generalizing ties with
  | nil => exact onItsSide_settle bytes hrun hbetween (by simpa using hordered)
  | cons verdict rest ih =>
    rw [List.forall_mem_cons] at hparts hverdicts
    obtain ⟨hties, hrest, -⟩ := List.pairwise_append.1 hordered
    have hsettled := onItsSide_settle bytes hrun hbetween hties
    cases verdict with
    | owned attachment =>
      have hothers := ih .nil (by simp) hparts.2 hverdicts.2 hrest.of_cons
      rw [settleAll, List.forall_mem_append, List.forall_mem_cons]
      exact ⟨hsettled, hverdicts.1, hothers⟩
    | tied tie =>
      have htie : tie.InGap source := hparts.1
      have htieBetween : tie.Between := hverdicts.1
      unfold settleAll
      split
      · rename_i hlast
        refine ih (hrun.concat htie hlast) ?_ hparts.2 hverdicts.2
          (by simpa [Verdict.comment] using hordered)
        simpa [or_imp, forall_and, htieBetween] using hbetween
      · have hothers := ih (.one htie) (by simpa using htieBetween) hparts.2 hverdicts.2 hrest
        rw [List.forall_mem_append]
        exact ⟨hsettled, hothers⟩

end Attachment

/-- A node before a comment is over when the comment starts. Counterpart of `Neighboured`. -/
theorem Neighboured.stop_preceding {root parent preceding : Node} {comment : Comment}
    {following : Option Node} (h : Neighboured root comment parent (some preceding) following) :
    preceding.span.stop ≤ comment.span.start := by
  obtain ⟨before, after, -, hbefore, -, hlast, -⟩ := h.surrounded.split
  exact hbefore preceding (List.mem_of_getLast? hlast.symm)

/-- A node after a comment starts when the comment is over. Counterpart of `Neighboured`. -/
theorem Neighboured.start_following {root parent following : Node} {comment : Comment}
    {preceding : Option Node} (h : Neighboured root comment parent preceding (some following)) :
    comment.span.stop ≤ following.span.start := by
  obtain ⟨before, after, -, -, hafter, -, hfirst⟩ := h.surrounded.split
  exact hafter following (List.mem_of_head? hfirst.symm)

/-- The whole file is around its comments. Counterpart of `Span.contains`. -/
theorem root_contains_comment {source : List Char} {comment : Comment}
    (hcomment : comment ∈ (parse source).comments) :
    (parse source).root.span.contains comment.span = true := by
  obtain ⟨token, htoken, -, hspan, -⟩ := exists_token_of_comment hcomment
  have hstop := Scan.stop_le_of_mem htoken
  rw [hspan, Span.contains_iff]
  exact ⟨Nat.zero_le _, by simpa [root_parse, Node.span, Token.span] using hstop⟩

/-- The verdict on a comment is on its side of the owner. Counterpart of `Attachment.verdict`. -/
theorem onItsSide_verdict {source : List Char} (h : (parse source).isValid = true)
    {comment : Comment} (hcomment : comment ∈ (parse source).comments) (bytes : List UInt8) :
    (Attachment.verdict (parse source) bytes comment).OnItsSide := by
  have hsound := sound_verdict h hcomment bytes
  have hsame := Attachment.comment_verdict (parse source) bytes comment
  cases hverdict : Attachment.verdict (parse source) bytes comment with
  | owned attachment =>
    obtain ⟨other, owner, placement⟩ := attachment
    rw [hverdict] at hsound hsame
    obtain rfl : other = comment := hsame
    cases placement with
    | leading =>
      obtain ⟨parent, preceding, hparent⟩ := hsound
      exact hparent.start_following
    | trailing =>
      obtain ⟨parent, following, hparent⟩ := hsound
      exact .inl hparent.stop_preceding
    | dangling =>
      obtain ⟨preceding, following, hparent⟩ := hsound
      rcases hparent.inside with rfl | hcontains
      · exact root_contains_comment hcomment
      · exact hcontains
  | tied tie =>
    rw [hverdict] at hsound hsame
    obtain rfl : tie.comment = comment := hsame
    obtain ⟨parent, hparent⟩ := hsound
    exact ⟨hparent.stop_preceding, hparent.start_following⟩

/-- The search for the nodes around a comment of a valid program finds what a scan of all nodes
finds. So every comment is before its owner, after it or inside it as its placement says; only a
comment inside an owner that has no room for it is printed after the owner. Counterpart of
`surroundings` and `attachments`. -/
theorem comments_onTheirSides {source : List Char} (h : (parse source).isValid = true) :
    (∀ comment ∈ (parse source).comments,
      (surroundings (parse source).root comment.span).Scanned (parse source).root comment.span) ∧
      ∀ attachment ∈ attachments (parse source), attachment.OnItsSide := by
  refine ⟨fun comment hcomment => scanned_surroundings h hcomment, fun attachment hmem => ?_⟩
  obtain ⟨settled, hsettled, rfl⟩ := List.mem_map.1 hmem
  refine Attachment.onItsSide_makeRoom (Attachment.onItsSide_settleAll _ .nil (by simp)
    (ofParts_verdicts source) ?_ ?_ settled hsettled)
  · intro verdict hmem
    obtain ⟨comment, hcomment, rfl⟩ := List.mem_map.1 hmem
    exact onItsSide_verdict h hcomment _
  · rw [List.map_nil, List.nil_append, Attachment.map_comment_verdict]
    exact pairwise_comments source

/-- Two comments between the same two arguments, a comment at the end of the line, and one inside a
call. -/
theorem comments_onTheirSides_arguments :
    (parse "f(a --[[x]], --[[y]] b) -- z\ng(--[[w]])".toList).isValid = true ∧
      (parse "f(a --[[x]], --[[y]] b) -- z\ng(--[[w]])".toList).comments.length = 4 ∧
      (∀ comment ∈ (parse "f(a --[[x]], --[[y]] b) -- z\ng(--[[w]])".toList).comments,
        (surroundings (parse "f(a --[[x]], --[[y]] b) -- z\ng(--[[w]])".toList).root
          comment.span).Scanned (parse "f(a --[[x]], --[[y]] b) -- z\ng(--[[w]])".toList).root
          comment.span) ∧
      ∀ attachment ∈ attachments (parse "f(a --[[x]], --[[y]] b) -- z\ng(--[[w]])".toList),
        attachment.OnItsSide := by
  have hvalid : (parse "f(a --[[x]], --[[y]] b) -- z\ng(--[[w]])".toList).isValid = true := by
    decide +kernel
  exact ⟨hvalid, by decide +kernel, comments_onTheirSides hvalid⟩

end LuaFormatter
