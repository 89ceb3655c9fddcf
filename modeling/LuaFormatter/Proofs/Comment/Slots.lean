import LuaFormatter.Proofs.Comment.Once
import LuaFormatter.Proofs.Comment.Room
import LuaFormatter.Proofs.Spelling.Within

/-!
# The slots of comments

Every comment of a program has a slot in the spelling of its tree, at its place or put off
(`exists_slot_of_mem_attachments`). A comment before or after its owner stands there wherever the
owner is written, and one inside its owner stands where the owner has room for it.
-/

namespace LuaFormatter

/-- The slot of a comment, which may be put off. -/
def Comment.IsSlot (comment : Comment) (slot : Slot) : Prop :=
  slot = comment.slot ∨ ∃ breaks, slot = .later breaks comment.kind comment.written

section
variable {context : Context} {node : Node} {comment : Comment}

namespace Context

/-- A comment before a node has a slot. Counterpart of `Context.leadingSlots`. -/
theorem exists_slot_leading (context : Context) (comment : Comment) :
    ∃ slot ∈ context.leadingSlots comment, comment.IsSlot slot :=
  ⟨comment.slot, List.mem_cons_self, .inl rfl⟩

/-- A comment after a node has a slot. Counterpart of `Context.trailingSlots`. -/
theorem exists_slot_trailing (context : Context) (comment : Comment) :
    ∃ slot ∈ context.trailingSlots comment, comment.IsSlot slot := by
  unfold trailingSlots
  split
  · exact ⟨_, List.mem_singleton_self _, .inr ⟨_, rfl⟩⟩
  · split
    · exact ⟨_, List.mem_cons_of_mem _ (List.mem_singleton_self _), .inl rfl⟩
    · exact ⟨_, List.mem_singleton_self _, .inr ⟨0, rfl⟩⟩

/-- A comment before or after a node stands there. Counterpart of `Context.commented`. -/
theorem exists_slot_commented {placement : Placement} (hplacement : placement ≠ .dangling)
    (h : comment ∈ context.placed node placement) (slots : List Slot) :
    ∃ slot ∈ context.commented node slots, comment.IsSlot slot := by
  cases placement with
  | dangling => exact absurd rfl hplacement
  | leading =>
    obtain ⟨slot, hslot, his⟩ := context.exists_slot_leading comment
    exact ⟨slot, List.mem_append_left _ (List.mem_append_left _
      (List.mem_flatMap.2 ⟨comment, h, hslot⟩)), his⟩
  | trailing =>
    obtain ⟨slot, hslot, his⟩ := context.exists_slot_trailing comment
    exact ⟨slot, List.mem_append_right _ (List.mem_flatMap.2 ⟨comment, h, hslot⟩), his⟩

/-- The slot of a comment is among those of its list, whatever separates them. Counterpart of
`List.intercalate`. -/
theorem slot_mem_joined {separator : Slot} {comments : List Comment} (h : comment ∈ comments) :
    comment.slot ∈ [separator].intercalate (comments.map fun comment => [comment.slot]) := by
  have hinfix : [comment.slot] <:+: [separator].intercalate (comments.map fun comment =>
        [comment.slot]) :=
    infix_intercalate (List.mem_map_of_mem h)
  exact hinfix.subset (List.mem_singleton_self _)

/-- A comment inside a node has a slot. Counterpart of `Context.danglingSlots`. -/
theorem slot_mem_danglingSlots (h : comment ∈ context.danglingComments node false) :
    comment.slot ∈ context.danglingSlots node := by
  unfold danglingSlots
  split
  · rename_i hnone
    rw [hnone] at h
    cases h
  · exact List.mem_cons_of_mem _ (slot_mem_joined h)

/-- A comment between empty parentheses has a slot. Counterpart of `Context.emptyParensSlots`. -/
theorem slot_mem_emptyParensSlots (h : comment ∈ context.danglingComments node true) :
    comment.slot ∈ context.emptyParensSlots node := by
  unfold emptyParensSlots
  split
  · rename_i hnone
    rw [hnone] at h
    cases h
  · exact List.mem_cons_of_mem _ (List.mem_cons_of_mem _
      (List.mem_append_left _ (slot_mem_joined h)))

/-- A comment of a file without statements has a slot. Counterpart of `Context.chunkSlots`. -/
theorem slot_mem_chunkSlots {body : List Spelled}
    (h : comment ∈ context.danglingComments node false) :
    comment.slot ∈ context.chunkSlots node body := by
  refine List.mem_append_right _ (List.mem_append_right _ ?_)
  split
  · rename_i hnone
    rw [hnone] at h
    cases h
  · exact List.mem_append_left _ (slot_mem_joined h)

/-- A comment in an empty body has a slot. Counterpart of `Context.bodySlots`. -/
theorem slot_mem_bodySlots {body : List Spelled}
    (h : comment ∈ context.danglingComments node false) :
    comment.slot ∈ context.bodySlots node body :=
  List.mem_append_left _ (slot_mem_danglingSlots h)

/-- A comment in an empty body has a slot before the closing keyword. Counterpart of
`Context.bodyEndSlots`. -/
theorem slot_mem_bodyEndSlots {body : List Spelled}
    (h : comment ∈ context.danglingComments node false) :
    comment.slot ∈ context.bodyEndSlots node body :=
  List.mem_append_left _ (slot_mem_bodySlots h)

end Context

/-- A comment between empty parentheses stands there. Counterpart of `coreSlots`. -/
theorem slot_mem_core_parens {place : Place} {spell : Place → Node → List Slot}
    (hnode : node.shape.hasEmptyParens = true) (h : comment ∈ context.danglingComments node true) :
    comment.slot ∈ coreSlots context place node spell := by
  have hslot := Context.slot_mem_emptyParensSlots h
  obtain ⟨number, shape, span, inParens⟩ := node
  cases shape with
  | function isLocal name parameters body =>
    refine List.mem_append_right _ (List.mem_cons_of_mem _ (List.mem_append_right _
      (List.mem_append_left _ ?_)))
    have hempty : parameters.isEmpty = true := hnode
    rw [if_pos hempty]
    exact hslot
  | call base arguments =>
    refine List.mem_append_right _ ?_
    have hempty : arguments.isEmpty = true := hnode
    rw [if_pos hempty]
    exact hslot
  | _ => cases hnode

/-- Another comment inside a node stands in its body, or between its braces. Counterpart of
`coreSlots`. -/
theorem slot_mem_core {place : Place} {spell : Place → Node → List Slot}
    (hprints : node.shape.printsDangling = true)
    (hnode : node.shape.body?.isSome = true ∨ node.children = [])
    (h : comment ∈ context.danglingComments node false) :
    comment.slot ∈ coreSlots context place node spell := by
  have hend : ∀ body : List Spelled, comment.slot ∈ context.bodyEndSlots node body :=
    fun _ => Context.slot_mem_bodyEndSlots h
  have hbody : ∀ body : List Spelled, comment.slot ∈ context.bodySlots node body :=
    fun _ => Context.slot_mem_bodySlots h
  obtain ⟨number, shape, span, inParens⟩ := node
  cases shape with
  | chunk body => exact Context.slot_mem_chunkSlots h
  | function isLocal name parameters body =>
    exact List.mem_append_right _ (List.mem_cons_of_mem _ (List.mem_append_right _
      (List.mem_append_right _ (hend _))))
  | clause kind condition body =>
    exact List.mem_append_right _ (List.mem_append_right _ (hbody _))
  | whileLoop condition body =>
    exact List.mem_cons_of_mem _ (List.mem_cons_of_mem _ (List.mem_append_right _
      (List.mem_cons_of_mem _ (List.mem_cons_of_mem _ (hend _)))))
  | doBlock body => exact List.mem_cons_of_mem _ (hend _)
  | repeatLoop body condition =>
    exact List.mem_cons_of_mem _ (List.mem_append_left _ (hbody _))
  | numericFor counter first last step body =>
    simp [coreSlots, Node.shape, hend]
  | genericFor names iterators body =>
    simp [coreSlots, Node.shape, hend]
  | table fields =>
    have hempty : fields.isEmpty = true := hprints
    simp [coreSlots, Node.shape, hempty, Context.slot_mem_danglingSlots h]
  | call base arguments => rcases hnode with hnode | hnode <;> cases hnode
  | _ => cases hprints

end

/-- Every comment has a slot in the spelling of a program. Counterpart of `spell`. -/
theorem exists_slot_of_mem_attachments {source : List Char} (h : (parse source).isValid = true)
    (style : Style) {attachment : Attachment} (hmem : attachment ∈ attachments (parse source)) :
    ∃ slot ∈ spell (.ofProgram (parse source) style) {} (parse source).root,
      attachment.comment.IsSlot slot := by
  have howner := part_owner hmem
  have howned : attachment ∈ (Context.ofProgram (parse source) style).owned attachment.owner :=
    List.mem_filter.2 ⟨hmem, decide_eq_true rfl⟩
  have hplaced : ∀ placement, attachment.placement = placement →
      attachment.comment ∈ ((Context.ofProgram (parse source) style).owned attachment.owner
        |>.filter (·.placement = placement)).map Attachment.comment :=
    fun placement hplacement => List.mem_map_of_mem
    (List.mem_filter.2 ⟨howned, decide_eq_true hplacement⟩)
  obtain ⟨slots, hslots, hinfix⟩ :=
    @exists_infix_spell (.ofProgram (parse source) style) _ _ howner
      (fun _ hnode => isUnreadStatement_children h hnode) {}
  suffices ∃ slot ∈ slots, attachment.comment.IsSlot slot by
    obtain ⟨slot, hslot, his⟩ := this
    exact ⟨slot, hinfix.subset hslot, his⟩
  by_cases hdangling : attachment.placement = .dangling
  · have hinside : attachment.comment ∈ (Context.ofProgram (parse source) style).danglingComments
        attachment.owner (isBetweenParens (parse source).tokens attachment.comment.span) :=
      List.mem_filter.2 ⟨hplaced _ hdangling, decide_eq_true rfl⟩
    obtain ⟨hprints, hroom, -⟩ := exists_of_mem_danglingComments h howner hinside
    unfold Node.HasRoom at hroom
    cases hslots with
    | name hname =>
      unfold keyName? at hname
      split at hname
      · rename_i hshape
        rw [hshape] at hprints
        cases hprints
      · cases hname
    | spell place =>
      refine ⟨_, (infix_spell _ place _).subset ?_, .inl rfl⟩
      cases hbetween : isBetweenParens (parse source).tokens attachment.comment.span with
      | true =>
        rw [hbetween] at hinside hroom
        exact slot_mem_core_parens hroom hinside
      | false =>
        rw [hbetween] at hinside hroom
        exact slot_mem_core hprints hroom hinside
  · have hcommented := Context.exists_slot_commented hdangling (hplaced _ rfl)
    cases hslots with
    | spell place =>
      rw [spell_eq]
      exact hcommented _
    | name => exact hcommented _

end LuaFormatter
