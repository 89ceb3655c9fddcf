import LuaFormatter.Proofs.Comment.Attached
import LuaFormatter.Proofs.Grammar.EmptyParens
import Mathlib.Data.List.TakeWhile

/-!
# Room for comments

A comment is inside a node only where the node prints it: between empty parentheses, or else in a
body or in a node without parts (`exists_of_mem_danglingComments`). The search for a comment ends at
the innermost node around it. For a comment between two tokens of an empty pair of parentheses that
is the node with the pair, since a span has one innermost node only (`Placed.innermost_unique`).
-/

namespace LuaFormatter

/-! ## The innermost node -/

/-- The node contains a span, and none of its parts does. -/
structure Node.Innermost (span : Span) (node : Node) : Prop where
  contains : node.span.contains span = true
  children : ∀ child ∈ node.children, ¬child.span.contains span = true

/-- Of nodes one after the other, only one contains a span. Counterpart of `Placed`. -/
theorem Placed.eq_of_contains {low high : Nat} {nodes : List Node} {span : Span} {node other : Node}
    (h : Placed low high nodes) (hspan : span.start < span.stop) (hnode : node ∈ nodes)
    (hother : other ∈ nodes) (hcontains : node.span.contains span = true)
    (hcontains' : other.span.contains span = true) : node = other := by
  rw [Span.contains_iff] at hcontains hcontains'
  induction h with
  | nil => cases hnode
  | @cons _ _ _ _ bounds _ _ _ _ _ hrest _ ih =>
    rcases List.mem_cons.1 hnode with rfl | hnode
    · rcases List.mem_cons.1 hother with rfl | hother
      · rfl
      · have hnext := (hrest.bounds hother).1
        have hstop : span.stop ≤ bounds.stop := hcontains.2
        omega
    · rcases List.mem_cons.1 hother with rfl | hother
      · have hnext := (hrest.bounds hnode).1
        have hstop : span.stop ≤ bounds.stop := hcontains'.2
        omega
      · exact ih hnode hother

/-- A node contains what its parts contain. Counterpart of `Placed`. -/
theorem Placed.contains_of_part {low high : Nat} {nodes : List Node} {span : Span}
    {node part : Node} (h : Placed low high nodes) (hmem : node ∈ nodes) (hpart : part.Part node)
    (hcontains : part.span.contains span = true) : node.span.contains span = true := by
  obtain ⟨hstart, -, hstop, -⟩ := Placed.part hpart h hmem
  rw [Span.contains_iff] at hcontains ⊢
  omega

/-- The innermost node around a span is inside every other node around it. Counterpart of
`Placed`. -/
theorem Placed.part_of_contains {low high : Nat} {nodes : List Node} {span : Span}
    {node other part outer : Node} (h : Placed low high nodes) (hspan : span.start < span.stop)
    (hnode : node ∈ nodes) (hother : other ∈ nodes) (hpart : part.Part node)
    (houter : outer.Part other) (hp : part.Innermost span)
    (hcontains : outer.span.contains span = true) : part.Part outer := by
  induction houter generalizing low high nodes node with
  | self =>
    obtain rfl := h.eq_of_contains hspan hnode hother
      (h.contains_of_part hnode hpart hp.contains) hcontains
    exact hpart
  | child hchild houter ih =>
    have hinside := (h.children hother).contains_of_part hchild houter hcontains
    obtain rfl := h.eq_of_contains hspan hnode hother
      (h.contains_of_part hnode hpart hp.contains)
      (h.contains_of_part hother (.child hchild houter) hcontains)
    cases hpart with
    | self => exact absurd hinside (hp.children _ hchild)
    | child hchild' hpart => exact ih (h.children hnode) hchild' hchild hpart

/-- Only one of the parts of nodes is the innermost one around a span. Counterpart of `Placed`. -/
theorem Placed.innermost_unique {low high : Nat} {nodes : List Node} {span : Span}
    {node other part inner : Node} (h : Placed low high nodes) (hspan : span.start < span.stop)
    (hnode : node ∈ nodes) (hother : other ∈ nodes) (hpart : part.Part node)
    (hinner : inner.Part other) (hp : part.Innermost span) (hi : inner.Innermost span) :
    part = inner :=
  (h.part_of_contains hspan hnode hother hpart hinner hp hi.contains).antisymm
    (h.part_of_contains hspan hother hnode hinner hpart hi hp.contains)

/-- No part of a node with neighbours of a comment contains the comment. Counterpart of
`Neighboured`. -/
theorem Neighboured.not_contains {root parent child : Node} {comment : Comment}
    {preceding following : Option Node} (h : Neighboured root comment parent preceding following)
    (hspan : comment.span.start < comment.span.stop) (hchild : child ∈ parent.children) :
    ¬child.span.contains comment.span = true := by
  obtain ⟨before, after, hsplit, hbefore, hafter, -, -⟩ := h.surrounded.split
  rw [hsplit] at hchild
  rw [Span.contains_iff]
  rcases List.mem_append.1 hchild with hchild | hchild
  · have := hbefore child hchild
    omega
  · have := hafter child hchild
    omega

/-- The tokens on both sides of a comment between empty parentheses. Counterpart of
`isBetweenParens`. -/
theorem exists_parens {source : List Char} {comment : Comment}
    (hcomment : comment ∈ (parse source).comments)
    (h : isBetweenParens (parse source).tokens comment.span = true) :
    ∃ l r : Token, l.kind = .symbol .leftParen ∧ r.kind = .symbol .rightParen ∧
      [l, r] <:+: (parse source).tokens ∧ l.stop ≤ comment.span.start ∧
      comment.span.stop ≤ r.start := by
  let precedes : Token → Bool := fun token => token.start < comment.span.start
  have hsplit := @List.takeWhile_append_dropWhile Token precedes (parse source).tokens
  have hfirst := List.head?_dropWhile_not precedes (parse source).tokens
  have hlast : ∀ token ∈ (parse source).tokens.takeWhile precedes, precedes token = true :=
    fun token hmem => List.mem_takeWhile_imp hmem
  change (((parse source).tokens.takeWhile precedes).getLast?.any _ &&
    ((parse source).tokens.dropWhile precedes).head?.any _) = true at h
  generalize (parse source).tokens.takeWhile precedes = before at h hsplit hlast
  generalize (parse source).tokens.dropWhile precedes = after at h hsplit hfirst
  rw [Bool.and_eq_true, Option.any_eq_true, Option.any_eq_true] at h
  obtain ⟨⟨l, hl, hlkind⟩, r, hr, hrkind⟩ := h
  obtain ⟨front, rfl⟩ := List.getLast?_eq_some_iff.1 hl
  obtain ⟨back, rfl⟩ := List.head?_eq_some_iff.1 hr
  have hlstart : l.start < comment.span.start := of_decide_eq_true (hlast l (by simp))
  have hrstart : ¬r.start < comment.span.start := of_decide_eq_false hfirst
  have hlmem : l ∈ (parse source).tokens := by simp [← hsplit]
  have hrmem : r ∈ (parse source).tokens := by simp [← hsplit]
  have hordered := ordered_tokens source
  have hllt := hordered.start_lt_stop l hlmem
  have hrlt := hordered.start_lt_stop r hrmem
  have hcommentlt := comment_start_lt_stop hcomment
  refine ⟨l, r, of_decide_eq_true hlkind, of_decide_eq_true hrkind, ⟨front, back, ?_⟩, ?_, ?_⟩
  · simpa using hsplit
  · rcases (comment_apart hcomment hlmem).2 with hle | hle <;> omega
  · rcases (comment_apart hcomment hrmem).2 with hle | hle <;> omega

/-- A comment between the two tokens of an empty pair of parentheses has the node with the pair for
the innermost one around it. Counterpart of `Shape.hasEmptyParens`. -/
theorem Neighboured.hasEmptyParens {source : List Char} (h : (parse source).isValid = true)
    {comment : Comment} (hcomment : comment ∈ (parse source).comments) {parent : Node}
    {preceding following : Option Node}
    (hparent : Neighboured (parse source).root comment parent preceding following)
    (hbetween : isBetweenParens (parse source).tokens comment.span = true) :
    parent.shape.hasEmptyParens = true := by
  obtain ⟨l, r, hl, hr, hpair, hlstop, hrstart⟩ := exists_parens hcomment hbetween
  have hspan := comment_start_lt_stop hcomment
  have hordered := ordered_tokens source
  have hllt := hordered.start_lt_stop l (hpair.mem (by simp))
  have hrlt := hordered.start_lt_stop r (hpair.mem (by simp))
  obtain ⟨node, hnode, part, hpart, hencloses⟩ :=
    (derives_of_isValid h).finds.found l r hl hr hordered hpair
  have hinnermost : part.Innermost comment.span := by
    have hstart := hencloses.start_le
    have hstop := hencloses.le_stop
    refine ⟨Span.contains_iff.2 ⟨by omega, by omega⟩, fun child hchild => ?_⟩
    rw [Span.contains_iff]
    rcases hencloses.apart child hchild with happart | happart <;> omega
  have hplaced := placed_children h (.self (parse source).root)
  have hnode : node ∈ (parse source).root.children := by
    rw [root_parse]
    exact hnode
  have hroot : parent ≠ (parse source).root := by
    rintro rfl
    exact hparent.not_contains hspan hnode
      (hplaced.contains_of_part hnode hpart hinnermost.contains)
  have hinside := hparent.inside.resolve_left hroot
  have hparentInnermost : parent.Innermost comment.span :=
    ⟨hinside, fun child hchild => hparent.not_contains hspan hchild⟩
  rcases hparent with ⟨hparentPart, -, -⟩
  cases hparentPart with
  | self => exact absurd rfl hroot
  | child hchild hparentPart =>
    rw [hplaced.innermost_unique hspan hchild hnode hparentPart hpart hparentInnermost hinnermost]
    exact hencloses.hasEmptyParens

/-! ## Comments inside a node -/

/-- The parent has no parts if a comment in it has no neighbours. Counterpart of `Neighboured`. -/
theorem Neighboured.children_eq_nil {root parent : Node} {comment : Comment}
    (h : Neighboured root comment parent none none) : parent.children = [] := by
  obtain ⟨before, after, hsplit, -, -, hbefore, hafter⟩ := h.surrounded.split
  rw [hsplit, List.getLast?_eq_none_iff.1 hbefore.symm, List.head?_eq_none_iff.1 hafter.symm]
  rfl

/-- A node has room for a comment inside it: between empty parentheses, or else in a body, or it has
no parts. -/
def Node.HasRoom (tokens : List Token) (comment : Comment) (node : Node) : Prop :=
  if isBetweenParens tokens comment.span then node.shape.hasEmptyParens = true
  else node.shape.body?.isSome = true ∨ node.children = []

/-- A comment that is printed inside its owner has room there: a node without children around it is
a body or an empty table. Counterpart of `ownerOf`. -/
theorem Attachment.hasRoom_of_ownerOf {root : Node} {tokens : List Token} {comment : Comment}
    {around : Surroundings} {onOwnLine : Bool}
    (h : Neighboured root comment (around.enclosing.getD root) around.preceding around.following)
    (hbetween : ¬isBetweenParens tokens comment.span = true)
    (hdangling : (ownerOf root comment around onOwnLine).placement = .dangling) :
    (ownerOf root comment around onOwnLine).owner.HasRoom tokens comment := by
  obtain ⟨enclosing, preceding, following⟩ := around
  unfold Node.HasRoom
  rw [if_neg hbetween]
  unfold ownerOf at hdangling ⊢
  dsimp only at h hdangling ⊢
  split
  · rename_i hbody
    obtain ⟨node, rfl, hnode⟩ := Option.any_eq_true _ _ |>.1 (Bool.and_eq_true_iff.1 hbody).2
    obtain ⟨body, hbody, -⟩ := Option.any_eq_true _ _ |>.1 hnode
    exact .inl (by simp [hbody])
  · rename_i hbody
    rw [if_neg hbody] at hdangling
    cases preceding with
    | none =>
      cases following with
      | none => exact .inr h.children_eq_nil
      | some following => cases hdangling
    | some preceding =>
      cases following with
      | none => cases hdangling
      | some following =>
        dsimp only at hdangling
        split at hdangling <;> cases hdangling

/-- A comment inside a node has room there. Counterpart of `Attachment.makeRoom`. -/
theorem Attachment.hasRoom_of_verdict {source : List Char} (h : (parse source).isValid = true)
    {comment : Comment} (hcomment : comment ∈ (parse source).comments) {bytes : List UInt8}
    {attachment : Attachment} (hverdict : verdict (parse source) bytes comment = .owned attachment)
    (hdangling : attachment.placement = .dangling) :
    attachment.owner.HasRoom (parse source).tokens comment := by
  by_cases hbetween : isBetweenParens (parse source).tokens comment.span = true
  · have hsound := sound_verdict h hcomment bytes
    rw [hverdict] at hsound
    obtain ⟨comment', owner, placement⟩ := attachment
    cases hdangling
    obtain ⟨preceding, following, howner⟩ := hsound
    unfold Node.HasRoom
    rw [if_pos hbetween]
    exact howner.hasEmptyParens h hcomment hbetween
  · obtain ⟨parent, hparent, rfl⟩ := exists_neighboured h hcomment
    have hparens : ((surroundings (parse source).root comment.span).enclosing.filter fun node =>
        node.shape.hasEmptyParens && isBetweenParens (parse source).tokens
        comment.span) = none := by
      simp [hbetween]
    unfold verdict at hverdict
    dsimp only at hverdict
    rw [hparens] at hverdict
    have howned : attachment = ownerOf (parse source).root comment
        (surroundings (parse source).root comment.span)
        (Gap.hasBreakBefore bytes comment.span.start) := by
      dsimp only at hverdict
      split at hverdict
      · split at hverdict
        · cases hverdict
          rfl
        · cases hverdict
      · cases hverdict
        rfl
    rw [howned] at hdangling ⊢
    exact hasRoom_of_ownerOf hparent hbetween hdangling

/-- A comment inside a node is one that has room there. Counterpart of
`Context.danglingComments`. -/
theorem exists_of_mem_danglingComments {source : List Char} (h : (parse source).isValid = true)
    {style : Style} {node : Node} (hpart : node.Part (parse source).root) {betweenParens : Bool}
    {comment : Comment}
    (hmem : comment ∈
      (Context.ofProgram (parse source) style).danglingComments node betweenParens) :
    node.shape.printsDangling = true ∧ node.HasRoom (parse source).tokens comment ∧
      isBetweenParens (parse source).tokens comment.span = betweenParens := by
  obtain ⟨hmem, hbetween⟩ := List.mem_filter.1 hmem
  obtain ⟨attachment, hattachment, rfl⟩ := List.mem_map.1 hmem
  obtain ⟨howned, hdangling⟩ := List.mem_filter.1 hattachment
  obtain ⟨hattached, hnumber⟩ := List.mem_filter.1 howned
  have howner : attachment.owner = node :=
    eq_of_number_eq (part_owner hattached) hpart (of_decide_eq_true hnumber)
  obtain ⟨settled, hsettled, rfl⟩ := List.mem_map.1 hattached
  have hdangling := of_decide_eq_true hdangling
  have hprints := Attachment.printsDangling_of_makeRoom hdangling
  refine ⟨howner ▸ hprints, ?_, of_decide_eq_true hbetween⟩
  have hplacement : settled.placement = .dangling := by
    unfold Attachment.makeRoom at hdangling
    split at hdangling
    · cases hdangling
    · exact hdangling
  rw [Attachment.comment_makeRoom, ← howner, Attachment.owner_makeRoom]
  rcases Attachment.mem_settleAll hsettled with hverdict | ⟨tie, -, hsettledBy⟩
  · obtain ⟨comment, hcomment, hverdict⟩ := List.mem_map.1 hverdict
    have hsame := Attachment.comment_verdict (parse source) (utf8 (parse source).source) comment
    rw [hverdict] at hsame
    obtain rfl : settled.comment = comment := hsame
    exact Attachment.hasRoom_of_verdict h hcomment hverdict hplacement
  · rcases hsettledBy with ⟨-, htie⟩ | ⟨-, htie⟩
    · cases hplacement.symm.trans htie
    · cases hplacement.symm.trans htie

end LuaFormatter
