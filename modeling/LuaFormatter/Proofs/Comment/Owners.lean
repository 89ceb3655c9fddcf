import LuaFormatter.Proofs.Comment.Neighbours

/-!
# The owners of comments

Every comment of a program gets an owner that is a part of its tree, and the comments keep their
order. A comment is never printed after a branch of a conditional: the branches together reach from
the first token to the keyword that closes them, so a comment among them is inside one
(`Derives.exists_clause`).
-/

namespace LuaFormatter

/-- The rules for branches of conditionals. -/
def Rule.readsClauses : Rule → Bool
  | clause _ | clauses _ => true
  | _ => false

/-- Only the rules for branches give branches. Counterpart of `Shape.isClause`. -/
theorem Derives.isClause_eq_false {isApart : Bool} {rule : Rule} {a b : Nat} {ts : List Token}
    {nodes : List Node} (h : Derives isApart rule a b ts nodes) (hrule : rule.readsClauses = false)
    {node : Node} (hmem : node ∈ nodes) : node.shape.isClause = false := by
  induction h generalizing node with
  | @parens _ _ _ _ _ inner _ _ _ ih =>
    cases List.mem_singleton.1 hmem
    rw [Node.shape_parenthesise]
    exact ih rfl (List.mem_singleton_self inner)
  | lastExpression _ ih | someArguments _ ih | plain _ _ ih | lastField _ ih | nameDotted _ ih
  | semicolon _ _ ih => exact ih rfl hmem
  | moreExpressions _ _ _ ih ihs | moreFields _ _ _ ih ihs | moreStatements _ _ _ ih ihs =>
    rcases List.mem_cons.1 hmem with rfl | hmem
    · exact ih rfl (List.mem_singleton_self node)
    · exact ihs rfl hmem
  | moreNames _ _ _ ih | moreParameters _ _ _ _ ih =>
    rcases List.mem_cons.1 hmem with rfl | hmem
    · rfl
    · exact ih rfl hmem
  | noArguments | noParameters | noFields | emptyBlock => cases hmem
  | clause | elseClause | lastClause | moreClauses => cases hrule
  | _ =>
    cases List.mem_singleton.1 hmem
    rfl

/-- Only a conditional has branches for parts. Counterpart of `Shape.isClause`. -/
theorem Derives.isClause_children {isApart : Bool} {rule : Rule} {a b : Nat} {ts : List Token}
    {nodes : List Node} (h : Derives isApart rule a b ts nodes) :
    ∀ node ∈ nodes, (∃ clauses, node.shape = .conditional clauses) ∨
        ∀ child ∈ node.shape.children, child.shape.isClause = false := by
  induction h with
  | parens _ _ _ ih => simpa using ih
  | _ => grind -linarith -ring [→ Derives.isClause_eq_false, Rule.readsClauses, Shape.isClause,
      Shape.children, Node.shape]

/-- Among the tokens are those of branches, followed by the keyword that closes them, and a span
that is all of them. -/
def HasBranches (isApart : Bool) (clauses : List Node) (span : Span) (ts : List Token) : Prop :=
  ∃ (first next : Nat) (k e : Token) (us : List Token),
    Derives isApart (.clauses e.start) first next (k :: us) clauses ∧
    span = tokensSpan (k :: (us ++ [e])) ∧ (k :: (us ++ [e])).Sublist ts

/-- Branches with their tokens are so among more tokens. Counterpart of `HasBranches`. -/
theorem HasBranches.mono {isApart : Bool} {clauses : List Node} {span : Span} {ts us : List Token}
    (h : HasBranches isApart clauses span ts) (hsub : ts.Sublist us) :
    HasBranches isApart clauses span us := by
  obtain ⟨first, next, k, e, vs, hclauses, hspan, hvs⟩ := h
  exact ⟨first, next, k, e, vs, hclauses, hspan, hvs.trans hsub⟩

/-- The branches of a conditional reach from its first token to the keyword that closes it.
Counterpart of `Derives.conditional`. -/
theorem Derives.hasBranches {isApart : Bool} {rule : Rule} {a b : Nat} {ts : List Token}
    {nodes : List Node} (h : Derives isApart rule a b ts nodes) {node : Node} (hmem : node ∈ nodes)
    {clauses : List Node} (hshape : node.shape = .conditional clauses) :
    HasBranches isApart clauses node.span ts := by
  induction h generalizing node with
  | @conditional a b k e us _ _ _ hclauses _ =>
    cases List.mem_singleton.1 hmem
    cases hshape
    exact ⟨a, b, k, e, us, hclauses, rfl, List.Sublist.refl _⟩
  | @parens _ _ _ _ _ inner _ _ _ ih =>
    cases List.mem_singleton.1 hmem
    rw [Node.shape_parenthesise] at hshape
    rw [Node.span_parenthesise]
    exact (ih (List.mem_singleton_self inner) hshape).mono
      ((List.sublist_append_left _ _).trans (List.sublist_cons_self _ _))
  | lastExpression _ ih | someArguments _ ih | plain _ _ ih | lastField _ ih | nameDotted _ ih
  | lastClause _ ih => exact ih hmem hshape
  | moreExpressions _ _ _ ih ihs | moreFields _ _ _ ih ihs | moreClauses _ _ _ _ ih ihs =>
    rcases List.mem_cons.1 hmem with rfl | hmem
    · exact (ih (by simp) hshape).mono (List.sublist_append_left _ _)
    · exact (ihs hmem hshape).mono (List.sublist_append_of_sublist_right (by simp))
  | moreStatements _ _ _ ih ihs =>
    rcases List.mem_cons.1 hmem with rfl | hmem
    · exact (ih (by simp) hshape).mono (List.sublist_append_left _ _)
    · exact (ihs hmem hshape).mono (List.sublist_append_right _ _)
  | moreNames _ _ _ ih | moreParameters _ _ _ _ ih =>
    rcases List.mem_cons.1 hmem with rfl | hmem
    · cases hshape
    · exact (ih hmem hshape).mono ((List.sublist_cons_self _ _).trans (List.sublist_cons_self _ _))
  | semicolon _ _ ih => exact (ih hmem hshape).mono (List.sublist_cons_self _ _)
  | noArguments | noParameters | noFields | emptyBlock => simp at hmem
  | _ =>
    cases List.mem_singleton.1 hmem
    cases hshape

/-- A span between the first token of branches and their end, which overlaps none of their tokens,
is inside one of them. Counterpart of `Derives.moreClauses`. -/
theorem Derives.exists_clause {isApart : Bool} {stop a b : Nat} {ts : List Token}
    {clauses : List Node} {span : Span} (h : Derives isApart (.clauses stop) a b ts clauses)
    (hordered : Ordered ts) (hstart : (tokensSpan ts).start ≤ span.start) (hstop : span.stop ≤ stop)
    (hts : ∀ token ∈ ts, token.stop ≤ span.start ∨ span.stop ≤ token.start) :
    ∃ clause ∈ clauses, clause.span.contains span = true := by
  -- A branch reaches from its first token to a given offset.
  have hclause : ∀ {stop a b : Nat} {ts : List Token} {clause : Node},
      Derives isApart (.clause stop) a b ts [clause] →
      clause.span = ⟨(tokensSpan ts).start, max stop (tokensSpan ts).start⟩ := by
    intro stop a b ts clause h
    cases h with
    | clause | elseClause => simp [Node.span]
  generalize hrule : Rule.clauses stop = rule at h
  induction h with
  | @lastClause _ _ _ _ clause h =>
    cases hrule
    refine ⟨clause, by simp, Span.contains_iff.2 ?_⟩
    rw [hclause h]
    exact ⟨hstart, Nat.le_trans hstop (Nat.le_max_left _ _)⟩
  | @moreClauses _ _ _ _ k ts us clause clauses _ _ h hrest _ ih =>
    cases hrule
    have hne := h.ne_nil rfl
    have hsame : (tokensSpan (ts ++ k :: us)).start = (tokensSpan ts).start := by
      cases ts with
      | nil => exact absurd rfl hne
      | cons first rest => simp
    rw [hsame] at hstart
    rcases hts k (by simp) with hbefore | hafter
    · have hlt := hordered.right.start_lt_stop k (by simp)
      obtain ⟨other, hmem, hcontains⟩ := ih hordered.right
        (by rw [tokensSpan_start]; omega)
        (fun token hmem => hts token (List.mem_append_right ts hmem)) rfl
      exact ⟨other, by simp [hmem], hcontains⟩
    · refine ⟨clause, by simp, Span.contains_iff.2 ?_⟩
      rw [hclause h]
      exact ⟨hstart, Nat.le_trans hafter (Nat.le_max_left _ _)⟩
  | _ => cases hrule

/-- A comment is not between the parts of a conditional. Counterpart of `Surrounded`. -/
theorem not_surrounded_of_conditional {isApart : Bool} {rule : Rule} {a b : Nat} {ts : List Token}
    {nodes clauses : List Node} {parent : Node} {span : Span} {preceding following : Option Node}
    (h : Derives isApart rule a b ts nodes) (hmem : parent ∈ nodes) (hordered : Ordered ts)
    (hspan : span.start < span.stop)
    (hts : ∀ token ∈ ts, token.stop ≤ span.start ∨ span.stop ≤ token.start)
    (hshape : parent.shape = .conditional clauses) (hcontains : parent.span.contains span = true) :
    ¬Surrounded span parent preceding following := by
  rintro ⟨before, after, hsplit, hbefore, hafter, -, -⟩
  obtain ⟨first, next, k, e, us, hclauses, hparent, hsub⟩ := h.hasBranches hmem hshape
  have hinner : Ordered (k :: us ++ [e]) := hordered.sublist hsub
  rw [Span.contains_iff, hparent] at hcontains
  have hend : span.stop ≤ e.start := by
    have hstop : span.stop ≤ e.stop := hinner.tokensSpan_stop ▸ hcontains.2
    rcases hts e (hsub.mem (by simp)) with hpast | hpast
    · omega
    · exact hpast
  obtain ⟨clause, hclause, hinside⟩ := hclauses.exists_clause hinner.left
    (by simpa using hcontains.1) hend fun token htoken =>
      hts token (hsub.mem (List.mem_append_left [e] htoken))
  have hchild : clause ∈ before ++ after := by
    rw [← hsplit, Node.children, hshape]
    exact hclause
  rw [Span.contains_iff] at hinside
  rcases List.mem_append.1 hchild with hside | hside
  · have := hbefore clause hside
    omega
  · have := hafter clause hside
    omega

/-! ## Owners are parts of the tree -/

/-- A comment has neighbours among the parts of a node, the innermost one that contains it. -/
structure Neighboured (root : Node) (comment : Comment) (parent : Node)
    (preceding following : Option Node) : Prop where
  part : parent.Part root
  inside : parent = root ∨ parent.span.contains comment.span = true
  surrounded : Surrounded comment.span parent preceding following

namespace Neighboured

variable {root parent node : Node} {comment : Comment} {other : Option Node}

/-- The neighbour before a comment is a child of its parent. Counterpart of `Neighboured`. -/
theorem preceding_mem (h : Neighboured root comment parent (some node) other) :
    node ∈ parent.children := by
  obtain ⟨before, after, hsplit, -, -, hlast, -⟩ := h.surrounded.split
  rw [hsplit]
  exact List.mem_append_left _ (List.mem_of_getLast? hlast.symm)

/-- The neighbour after a comment is a child of its parent. Counterpart of `Neighboured`. -/
theorem following_mem (h : Neighboured root comment parent other (some node)) :
    node ∈ parent.children := by
  obtain ⟨before, after, hsplit, -, -, -, hfirst⟩ := h.surrounded.split
  rw [hsplit]
  exact List.mem_append_right _ (List.mem_of_head? hfirst.symm)

/-- The neighbour before a comment is a part of the tree. Counterpart of `Neighboured`. -/
theorem preceding_part (h : Neighboured root comment parent (some node) other) : node.Part root :=
  (Node.Part.of_mem_children h.preceding_mem).trans h.part

/-- The neighbour after a comment is a part of the tree. Counterpart of `Neighboured`. -/
theorem following_part (h : Neighboured root comment parent other (some node)) : node.Part root :=
  (Node.Part.of_mem_children h.following_mem).trans h.part

end Neighboured

/-- Every comment of a valid source has a parent and neighbours among the children of the parent,
and these are what the search finds. Counterpart of `surroundings`. -/
theorem exists_neighboured {source : List Char} (h : (parse source).isValid = true)
    {comment : Comment} (hcomment : comment ∈ (parse source).comments) :
    ∃ parent, Neighboured (parse source).root comment parent
        (surroundings (parse source).root comment.span).preceding
        (surroundings (parse source).root comment.span).following ∧
      (surroundings (parse source).root comment.span).enclosing.getD (parse source).root =
      parent := by
  obtain ⟨parent, hpart, hsurrounded, hend⟩ := within_spec (comment_start_lt_stop hcomment) none
    (parse source).root (searchable_root h hcomment)
  refine ⟨parent, ⟨hpart, ?_, hsurrounded⟩, ?_⟩
  · rcases hend with ⟨rfl, -⟩ | ⟨-, hcontains⟩
    · exact .inl rfl
    · exact .inr hcontains
  · show (Surroundings.within comment.span none (parse source).root).enclosing.getD _ = parent
    rcases hend with ⟨rfl, henclosing⟩ | ⟨henclosing, -⟩ <;> rw [henclosing] <;> rfl

/-- Every part of a valid program but the whole comes with its derivation. Counterpart of
`Node.Part`. -/
theorem derives_part {source : List Char} (h : (parse source).isValid = true) {part : Node}
    (hpart : part.Part (parse source).root) :
    part = (parse source).root ∨
      ∃ (rule : Rule) (first : Nat) (front us back : List Token),
        (parse source).tokens = front ++ (us ++ back) ∧ us ≠ [] ∧
        (part.shape.isClause = false → part.span = tokensSpan us) ∧
        Derives true rule first (part.number + 1) us [part.bare] := by
  have hyields : Yields true 0 1 (parse source).nodeCount (parse source).tokens
      (chunkRun source).1 := (derives_of_isValid h).yields
  rw [root_parse] at hpart ⊢
  cases hpart with
  | self => exact .inl rfl
  | child hchild hpart =>
    obtain ⟨rule, first, front, us, back, htokens, -, -, hne, hspan, hderives, -⟩ :=
      hyields.part hchild hpart
    exact .inr ⟨rule, first, front, us, back, htokens, hne, hspan, hderives⟩

/-- A comment is not printed after a branch of a conditional. Counterpart of `Neighboured`. -/
theorem Neighboured.isClause_preceding {source : List Char} (h : (parse source).isValid = true)
    {comment : Comment} (hcomment : comment ∈ (parse source).comments) {parent preceding : Node}
    {following : Option Node}
    (hparent : Neighboured (parse source).root comment parent (some preceding) following) :
    preceding.shape.isClause = false := by
  have hchild := hparent.preceding_mem
  rcases derives_part h hparent.part with
    rfl | ⟨rule, first, front, us, back, htokens, hne, -, hderives⟩
  · have hderives := derives_of_isValid h
    exact hderives.isClause_eq_false rfl hchild
  · rcases hderives.isClause_children parent.bare (by simp) with ⟨clauses, hshape⟩ | hchildren
    · rw [Node.shape_bare] at hshape
      rcases hparent.inside with rfl | hcontains
      · cases hshape
      · have hsub : us.Sublist (parse source).tokens := by
          rw [htokens]
          exact (List.sublist_append_left us back).trans (List.sublist_append_right front _)
        obtain ⟨number, shape, span, inParens⟩ := parent
        refine absurd ⟨hparent.surrounded.split⟩ (not_surrounded_of_conditional hderives
          (List.mem_singleton_self _) ((ordered_tokens source).sublist hsub) ?_ ?_ hshape hcontains)
        · exact (comment_apart hcomment (hsub.mem (List.head_mem hne))).1
        · exact fun token htoken => (comment_apart hcomment (hsub.mem htoken)).2
    · exact hchildren preceding (by simpa [Node.children] using hchild)

/-! ## Attachments -/

namespace Attachment

variable {source : List UInt8} {ties : List Tie} {verdicts : List Verdict} {attachment : Attachment}

/-- The comment that a verdict is about. -/
def Verdict.comment : Verdict → Comment
  | owned attachment => attachment.comment
  | tied tie => tie.comment

/-- Settling a run of ties keeps the comments and their order. Counterpart of `settle`. -/
theorem map_comment_settle (source : List UInt8) (ties : List Tie) :
    (settle source ties).map Attachment.comment = ties.map Tie.comment := by
  cases ties with
  | nil => rfl
  | cons first rest =>
    simp only [settle, List.splitAt_eq, List.map_append, List.map_map]
    rw [show (Attachment.comment ∘ fun comment =>
      (⟨comment, first.preceding, .trailing⟩ : Attachment)) = id from rfl,
      show (Attachment.comment ∘ fun comment =>
      (⟨comment, first.following, .leading⟩ : Attachment)) = id from rfl, List.map_id, List.map_id,
      List.take_append_drop]

/-- No comment is lost, and the comments keep their order. Counterpart of `settleAll`. -/
theorem map_comment_settleAll (source : List UInt8) (ties : List Tie) (verdicts : List Verdict) :
    (settleAll source ties verdicts).map Attachment.comment =
      ties.map Tie.comment ++ verdicts.map Verdict.comment := by
  induction verdicts generalizing ties with
  | nil => simp [settleAll, map_comment_settle]
  | cons verdict rest ih =>
    cases verdict with
    | owned attachment => simp [settleAll, map_comment_settle, ih, Verdict.comment]
    | tied tie =>
      unfold settleAll
      split
      · simp [ih, Verdict.comment]
      · simp [map_comment_settle, ih, Verdict.comment]

/-- A comment was settled by a tie, which may have been that of another comment. -/
def IsSettledBy (attachment : Attachment) (tie : Tie) : Prop :=
  (attachment.owner = tie.preceding ∧ attachment.placement = .trailing) ∨
    (attachment.owner = tie.following ∧ attachment.placement = .leading)

/-- Every attachment of a settled run comes from one of its ties. Counterpart of `settle`. -/
theorem mem_settle (h : attachment ∈ settle source ties) :
    ∃ tie ∈ ties, attachment.IsSettledBy tie := by
  cases ties with
  | nil => simp [settle] at h
  | cons first rest =>
    refine ⟨first, by simp, ?_⟩
    rcases List.mem_append.1 h with h | h
    · obtain ⟨comment, -, rfl⟩ := List.mem_map.1 h
      exact .inl ⟨rfl, rfl⟩
    · obtain ⟨comment, -, rfl⟩ := List.mem_map.1 h
      exact .inr ⟨rfl, rfl⟩

/-- An attachment is a verdict of its own, or comes from a tie. Counterpart of `settleAll`. -/
theorem mem_settleAll (h : attachment ∈ settleAll source ties verdicts) :
    .owned attachment ∈ verdicts ∨
      ∃ tie, (tie ∈ ties ∨ .tied tie ∈ verdicts) ∧ attachment.IsSettledBy tie := by
  induction verdicts generalizing ties with
  | nil =>
    obtain ⟨tie, htie, hsettled⟩ := mem_settle h
    exact .inr ⟨tie, .inl htie, hsettled⟩
  | cons verdict rest ih =>
    cases verdict with
    | owned other =>
      simp only [settleAll, List.mem_append, List.mem_cons] at h
      rcases h with h | rfl | h
      · obtain ⟨tie, htie, hsettled⟩ := mem_settle h
        exact .inr ⟨tie, .inl htie, hsettled⟩
      · exact .inl (by simp)
      · rcases ih h with h | ⟨tie, htie, hsettled⟩
        · exact .inl (List.mem_cons_of_mem _ h)
        · refine .inr ⟨tie, .inr (List.mem_cons_of_mem _ ?_), hsettled⟩
          simpa using htie
    | tied tie =>
      unfold settleAll at h
      split at h
      · rcases ih h with h | ⟨other, hother, hsettled⟩
        · exact .inl (List.mem_cons_of_mem _ h)
        · refine .inr ⟨other, ?_, hsettled⟩
          rcases hother with hother | hother
          · rcases List.mem_append.1 hother with hother | hother
            · exact .inl hother
            · cases List.mem_singleton.1 hother
              exact .inr (by simp)
          · exact .inr (List.mem_cons_of_mem _ hother)
      · rcases List.mem_append.1 h with h | h
        · obtain ⟨other, hother, hsettled⟩ := mem_settle h
          exact .inr ⟨other, .inl hother, hsettled⟩
        · rcases ih h with h | ⟨other, hother, hsettled⟩
          · exact .inl (List.mem_cons_of_mem _ h)
          · refine .inr ⟨other, .inr ?_, hsettled⟩
            rcases hother with hother | hother
            · cases List.mem_singleton.1 hother
              simp
            · exact List.mem_cons_of_mem _ hother

/-- Making room for a comment keeps the comment. Counterpart of `Attachment.makeRoom`. -/
theorem comment_makeRoom (attachment : Attachment) :
    attachment.makeRoom.comment = attachment.comment := by
  unfold makeRoom
  split <;> rfl

/-- Making room for a comment keeps its owner. Counterpart of `Attachment.makeRoom`. -/
theorem owner_makeRoom (attachment : Attachment) :
    attachment.makeRoom.owner = attachment.owner := by
  unfold makeRoom
  split <;> rfl

/-- A verdict is about its comment. Counterpart of `Attachment.verdict`. -/
theorem comment_verdict (program : Program) (source : List UInt8) (comment : Comment) :
    (verdict program source comment).comment = comment := by
  unfold verdict ownerOf
  dsimp only
  repeat' split
  all_goals rfl

/-- The verdicts on comments are about these comments in their order. Counterpart of
`Attachment.verdict`. -/
theorem map_comment_verdict (program : Program) (source : List UInt8) (comments : List Comment) :
    (comments.map (verdict program source)).map Verdict.comment = comments := by
  rw [List.map_map]
  conv => rhs; rw [← List.map_id comments]
  exact List.map_congr_left fun comment _ => comment_verdict program source comment

end Attachment

/-- No comment is lost, and the comments keep their order. Counterpart of `attachments`. -/
theorem map_comment_attachments (program : Program) :
    (attachments program).map Attachment.comment = program.comments := by
  unfold attachments
  dsimp only
  rw [List.map_map, show Attachment.comment ∘ Attachment.makeRoom = Attachment.comment from
    funext Attachment.comment_makeRoom, Attachment.map_comment_settleAll, List.map_nil,
    List.nil_append, Attachment.map_comment_verdict]

/-- An attached comment is a comment of the program. Counterpart of `attachments`. -/
theorem mem_comments_of_mem_attachments {program : Program} {attachment : Attachment}
    (h : attachment ∈ attachments program) : attachment.comment ∈ program.comments := by
  rw [← map_comment_attachments]
  exact List.mem_map_of_mem h

/-- What a verdict says about the owner of a comment. -/
def Attachment.Verdict.Sound (root : Node) (comment : Comment) : Verdict → Prop
  | owned ⟨_, owner, .leading⟩ => ∃ parent preceding,
    Neighboured root comment parent preceding (some owner)
  | owned ⟨_, owner, .trailing⟩ => ∃ parent following,
    Neighboured root comment parent (some owner) following
  | owned ⟨_, owner, .dangling⟩ => ∃ preceding following,
    Neighboured root comment owner preceding following
  | tied tie => ∃ parent, Neighboured root comment parent (some tie.preceding) (some tie.following)

/-- The verdict on a comment of a valid source names an owner next to the comment. Counterpart of
`Attachment.verdict`. -/
theorem sound_verdict {source : List Char} (h : (parse source).isValid = true) {comment : Comment}
    (hcomment : comment ∈ (parse source).comments) (bytes : List UInt8) :
    (Attachment.verdict (parse source) bytes comment).Sound (parse source).root comment := by
  obtain ⟨parent, hparent, henclosing⟩ := exists_neighboured h hcomment
  unfold Attachment.verdict
  dsimp only
  split
  · rename_i node hnode
    obtain ⟨hsome, -⟩ := Option.filter_eq_some_iff.1 hnode
    rw [hsome] at henclosing
    cases henclosing
    exact ⟨_, _, hparent⟩
  · unfold Attachment.ownerOf
    dsimp only
    rw [henclosing]
    generalize hpreceding : (surroundings (parse source).root comment.span).preceding = preceding
    generalize hfollowing : (surroundings (parse source).root comment.span).following = following
    rw [hpreceding, hfollowing] at hparent
    cases preceding with
    | none =>
      cases following with
      | none => 
        dsimp only
        split <;> exact ⟨_, _, hparent⟩
      | some following =>
        dsimp only
        split <;> exact ⟨_, _, hparent⟩
    | some preceding =>
      cases following with
      | none =>
        dsimp only
        split <;> exact ⟨_, _, hparent⟩
      | some following =>
        dsimp only
        split
        · split
          · exact ⟨_, _, hparent⟩
          · split <;> exact ⟨_, _, hparent⟩
        · exact ⟨_, hparent⟩

/-- The owners of comments are parts of the tree, and no comment is printed after a branch.
Counterpart of `Attachment.owner`. -/
theorem owner_spec {source : List Char} (h : (parse source).isValid = true)
    {attachment : Attachment} (hmem : attachment ∈ attachments (parse source)) :
    attachment.owner.Part (parse source).root ∧
      (attachment.placement = .trailing → attachment.owner.shape.isClause = false) := by
  obtain ⟨⟨comment, owner, placement⟩, hsettled, rfl⟩ := List.mem_map.1 hmem
  rcases Attachment.mem_settleAll hsettled with hverdict | ⟨tie, htie, hsettled⟩
  · obtain ⟨comment, hcomment, hverdict⟩ := List.mem_map.1 hverdict
    have hsound := sound_verdict h hcomment (utf8 (parse source).source)
    rw [hverdict] at hsound
    cases placement with
    | leading =>
      obtain ⟨parent, preceding, hparent⟩ := hsound
      exact ⟨hparent.following_part, nofun⟩
    | trailing =>
      obtain ⟨parent, following, hparent⟩ := hsound
      exact ⟨hparent.preceding_part, fun _ => hparent.isClause_preceding h hcomment⟩
    | dangling =>
      obtain ⟨preceding, following, hparent⟩ := hsound
      rw [Attachment.owner_makeRoom]
      refine ⟨hparent.part, fun htrailing => ?_⟩
      -- Only a node without room for the comment has it after itself.
      unfold Attachment.makeRoom at htrailing
      split at htrailing
      · rename_i hroom
        cases hshape : owner.shape <;> simp_all [Shape.printsDangling, Shape.isClause]
      · cases htrailing
  · obtain ⟨comment, hcomment, hverdict⟩ := List.mem_map.1 (htie.resolve_left (by simp))
    have hsound := sound_verdict h hcomment (utf8 (parse source).source)
    rw [hverdict] at hsound
    obtain ⟨parent, hparent⟩ := hsound
    rcases hsettled with ⟨rfl, rfl⟩ | ⟨rfl, rfl⟩
    · exact ⟨hparent.preceding_part, fun _ => hparent.isClause_preceding h hcomment⟩
    · exact ⟨hparent.following_part, nofun⟩

/-- No comment stands before or after the whole file. Counterpart of `Attachment.owner`. -/
theorem owner_ne_root {source : List Char} (h : (parse source).isValid = true)
    {attachment : Attachment} (hmem : attachment ∈ attachments (parse source))
    (hplacement : attachment.placement ≠ .dangling) : attachment.owner ≠ (parse source).root := by
  have hinner : ∀ {node parent : Node}, node ∈ parent.children → parent.Part (parse source).root →
      node ≠ (parse source).root := by
    rintro node parent hchild hpart rfl
    have := Node.size_lt_of_mem_children hchild
    have := hpart.size_le
    omega
  obtain ⟨⟨comment, owner, placement⟩, hsettled, rfl⟩ := List.mem_map.1 hmem
  rw [Attachment.owner_makeRoom]
  rcases Attachment.mem_settleAll hsettled with hverdict | ⟨tie, htie, hsettled⟩
  · obtain ⟨comment, hcomment, hverdict⟩ := List.mem_map.1 hverdict
    have hsound := sound_verdict h hcomment (utf8 (parse source).source)
    rw [hverdict] at hsound
    cases placement with
    | leading =>
      obtain ⟨parent, preceding, hparent⟩ := hsound
      exact hinner hparent.following_mem hparent.part
    | trailing =>
      obtain ⟨parent, following, hparent⟩ := hsound
      exact hinner hparent.preceding_mem hparent.part
    | dangling =>
      -- A whole file has room for comments.
      rintro rfl
      exact hplacement (by simp [Attachment.makeRoom, root_parse, Node.shape, Shape.printsDangling])
  · obtain ⟨comment, hcomment, hverdict⟩ := List.mem_map.1 (htie.resolve_left (by simp))
    have hsound := sound_verdict h hcomment (utf8 (parse source).source)
    rw [hverdict] at hsound
    obtain ⟨parent, hparent⟩ := hsound
    rcases hsettled with ⟨rfl, rfl⟩ | ⟨rfl, rfl⟩
    · exact hinner hparent.preceding_mem hparent.part
    · exact hinner hparent.following_mem hparent.part

end LuaFormatter
