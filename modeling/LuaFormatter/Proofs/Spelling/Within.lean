import LuaFormatter.Proofs.Comment.Once
import LuaFormatter.Proofs.Layout.Cut
import LuaFormatter.Proofs.Spelling.Implement
import LuaFormatter.Proofs.Spelling.Paper

/-!
# The spelling of a part

The slots of a part of a tree stand together in the slots of the whole (`spell_infix`), and so do
the statements of a block (`infix_statementSlots`). The one exception is a key that is written as a
name.

`Written` says what an output is made of, from the slots of the tree over the pieces that fill them
in to the inks on paper, and `exists_written` that every output is. `FilledIn` finds slots again
among the pieces.
-/

namespace LuaFormatter

open Layout

section
variable {slots front back : List Slot} {context : Context} {place : Place} {node : Node}
  {body : List Spelled}

/-! ## The parts of a spelling -/

/-- Slots within the first of two lists are within both. Counterpart of `List.IsInfix`. -/
theorem infix_left (h : slots <:+: front) : slots <:+: front ++ back :=
  h.trans (List.prefix_append ..).isInfix

/-- Slots within the second of two lists are within both. Counterpart of `List.IsInfix`. -/
theorem infix_right (h : slots <:+: back) : slots <:+: front ++ back :=
  h.trans (List.suffix_append ..).isInfix

/-- A list of slots is within all of them with a separator between them. Counterpart of
`List.intercalate`. -/
theorem infix_intercalate {separator : List Slot} {lists : List (List Slot)} (h : slots ∈ lists) :
    slots <:+: separator.intercalate lists := by
  induction lists with
  | nil => cases h
  | cons first rest ih =>
    cases rest with
    | nil =>
      obtain rfl := List.mem_singleton.1 h
      have hone : separator.intercalate [slots] = slots := by rw [List.intercalate_singleton]
      exact hone.symm ▸ List.infix_rfl
    | cons second rest =>
      rw [List.intercalate_cons_cons, List.append_assoc]
      rcases List.mem_cons.1 h with rfl | h
      · exact infix_left List.infix_rfl
      · exact infix_right (infix_right (ih h))

/-- A key is within its brackets. Counterpart of `bracketSlots`. -/
theorem infix_brackets (key : Node) (slots : List Slot) : slots <:+: bracketSlots key slots := by
  unfold bracketSlots
  split
  · exact List.infix_cons (List.infix_cons (infix_left List.infix_rfl))
  · exact List.infix_cons (infix_left List.infix_rfl)

/-- Slots are within their parentheses. Counterpart of `parenSlots`. -/
theorem infix_parens (slots : List Slot) : slots <:+: parenSlots slots :=
  List.infix_cons (List.infix_cons (infix_left List.infix_rfl))

namespace Context

/-- A node is within its comments. Counterpart of `Context.commented`. -/
theorem infix_commented (context : Context) (node : Node) (slots : List Slot) :
    slots <:+: context.commented node slots :=
  List.infix_append ..

/-- A statement is within its line, which may end with a semicolon. Counterpart of
`Context.separatedSlots`. -/
theorem exists_separated (context : Context) {statement : Spelled} (h : statement ∈ body) :
    ∃ slots ∈ context.separatedSlots body, statement.slots <:+: slots := by
  fun_induction separatedSlots context body with
  | case1 => cases h
  | case2 last =>
    obtain rfl := List.mem_singleton.1 h
    exact ⟨_, List.mem_singleton_self _, List.infix_rfl⟩
  | case3 first next rest ih =>
    rcases List.mem_cons.1 h with rfl | h
    · exact ⟨_, List.mem_cons_self, infix_left List.infix_rfl⟩
    · obtain ⟨slots, hmem, hinside⟩ := ih h
      exact ⟨slots, List.mem_cons_of_mem _ hmem, hinside⟩

/-- A statement that was read is among those that are written. Counterpart of
`Context.statementSlots`. -/
theorem infix_statement {statement : Spelled} (h : statement ∈ body)
    (hread : statement.node.isUnreadStatement = false) :
    statement.slots <:+: context.statementSlots body := by
  have hmem : statement ∈ body.filter fun statement => !statement.node.isUnreadStatement :=
    List.mem_filter.2 ⟨h, by rw [hread]; rfl⟩
  obtain ⟨slots, hslots, hinside⟩ := exists_separated context hmem
  exact hinside.trans (infix_intercalate hslots)

/-- The statements are within their body. Counterpart of `Context.bodySlots`. -/
theorem infix_bodySlots (hne : body ≠ []) :
    context.statementSlots body <:+: context.bodySlots node body := by
  rw [bodySlots, if_neg (by simpa using hne)]
  exact infix_right (List.infix_cons List.infix_rfl)

/-- The statements are within their body with its closing keyword. Counterpart of
`Context.bodyEndSlots`. -/
theorem infix_bodyEndSlots (hne : body ≠ []) :
    context.statementSlots body <:+: context.bodyEndSlots node body :=
  infix_left (infix_bodySlots hne)

/-- The statements are within their file. Counterpart of `Context.chunkSlots`. -/
theorem infix_chunkSlots (hne : body ≠ []) :
    context.statementSlots body <:+: context.chunkSlots node body := by
  rw [chunkSlots, if_neg (by simpa using hne)]
  exact infix_right (infix_left (infix_left List.infix_rfl))

/-- An argument is within the arguments. Counterpart of `Context.argumentSlots`. -/
theorem infix_argument {argument : Spelled} (h : argument ∈ body) :
    argument.slots <:+: context.argumentSlots body := by
  fun_induction argumentSlots context body with
  | case1 => cases h
  | case2 last =>
    obtain rfl := List.mem_singleton.1 h
    exact List.infix_rfl
  | case3 first next rest ih =>
    rcases List.mem_cons.1 h with rfl | h
    · exact infix_left List.infix_rfl
    · exact infix_right (List.infix_cons (infix_right (ih h)))

end Context

/-! ## Blocks and parts -/

section
variable {spell : Place → Node → List Slot} {nodes : List Node} {child : Node}

/-- A node is within a list with commas where all stand at one place. Counterpart of
`commaSlots`. -/
theorem infix_commas (place : Place) (h : child ∈ nodes) :
    spell place child <:+: commaSlots (nodes.map (spell place)) :=
  infix_intercalate (List.mem_map_of_mem h)

/-- A node is within a list with commas where each stands at its own place. Counterpart of
`commaSlots`. -/
theorem exists_infix_commas (spell : Place → Node → List Slot) (place : Nat → Place)
    (h : child ∈ nodes) :
    ∃ spot, spell spot child <:+: commaSlots (nodes.mapIdx fun index node =>
        spell (place index) node) := by
  obtain ⟨index, hindex, rfl⟩ := List.mem_iff_getElem.1 h
  exact ⟨place index, infix_intercalate (List.mem_mapIdx.2 ⟨index, hindex, rfl⟩)⟩

/-- The statements of a block stand together. Counterpart of `Context.statementSlots`. -/
theorem infix_block (hbody : node.shape.body? = some nodes) (hne : nodes ≠ []) :
    context.statementSlots (nodes.map fun child => ⟨child, spell {} child⟩) <:+:
      coreSlots context place node spell := by
  have hmap : nodes.map (fun child => (⟨child, spell {} child⟩ : Spelled)) ≠ [] := by
    simpa using hne
  obtain ⟨number, shape, span, inParens⟩ := node
  cases shape with
  | chunk body =>
    cases hbody
    exact Context.infix_chunkSlots hmap
  | function isLocal name parameters body =>
    cases hbody
    exact infix_right (List.infix_cons
        (infix_right (infix_right (Context.infix_bodyEndSlots hmap))))
  | clause kind condition body =>
    cases hbody
    exact infix_right (infix_right (Context.infix_bodySlots hmap))
  | whileLoop condition body =>
    cases hbody
    exact List.infix_cons (List.infix_cons (infix_right (List.infix_cons (List.infix_cons
      (Context.infix_bodyEndSlots hmap)))))
  | doBlock body =>
    cases hbody
    exact List.infix_cons (Context.infix_bodyEndSlots hmap)
  | repeatLoop body condition =>
    cases hbody
    exact List.infix_cons (infix_left (Context.infix_bodySlots hmap))
  | numericFor counter first last step body =>
    cases hbody
    exact List.infix_cons (List.infix_cons
        (infix_right (List.infix_cons (List.infix_cons (List.infix_cons
      (infix_right (List.infix_cons (List.infix_cons (infix_right (infix_right (List.infix_cons
        (List.infix_cons (Context.infix_bodyEndSlots hmap)))))))))))))
  | genericFor names iterators body =>
    cases hbody
    exact List.infix_cons (List.infix_cons
        (infix_right (List.infix_cons (List.infix_cons (List.infix_cons
      (infix_right (List.infix_cons (List.infix_cons (Context.infix_bodyEndSlots hmap)))))))))
  | _ => cases hbody

end

/-- The slots that a node is written with somewhere: it is spelled at a place, or it is a key that
is written as a name. -/
inductive IsWritten (context : Context) (node : Node) : List Slot → Prop
  | spell (place : Place) : IsWritten context node (spell context place node)
  | name {name : String} : keyName? node = some name →
    IsWritten context node (context.commented node [nameSlot name])

/-- The slots of a part stand together. Counterpart of `coreSlots`. -/
theorem exists_infix_core {child : Node} (hchild : child ∈ node.children)
    (hread : child.isUnreadStatement = false) :
    ∃ slots, IsWritten context child slots ∧
      slots <:+: coreSlots context place node (spell context) := by
  have hblock : ∀ nodes, node.shape.body? = some nodes → child ∈ nodes →
      ∃ slots, IsWritten context child slots ∧
        slots <:+: coreSlots context place node (spell context) := by
    intro nodes hbody hmem
    have hstatement : (⟨child, spell context {} child⟩ : Spelled) ∈
        nodes.map fun child => (⟨child, spell context {} child⟩ : Spelled) :=
        List.mem_map_of_mem hmem
    exact ⟨_, .spell {}, (Context.infix_statement hstatement hread).trans
      (infix_block hbody (List.ne_nil_of_mem hmem))⟩
  obtain ⟨number, shape, span, inParens⟩ := node
  have hmem : child ∈ shape.children := hchild
  cases shape with
  | chunk body | doBlock body => exact hblock body rfl hmem
  | localVariables names initial =>
    rcases List.mem_append.1 hmem with hmem | hmem
    · exact ⟨_, .spell {}, List.infix_cons (List.infix_cons (infix_left (infix_commas {} hmem)))⟩
    · obtain ⟨spot, hinside⟩ :=
        exists_infix_commas (spell context) (Place.value initial.length) hmem
      refine ⟨_, .spell spot, List.infix_cons (List.infix_cons (infix_right ?_))⟩
      rw [if_neg (by simpa using List.ne_nil_of_mem hmem)]
      exact List.infix_cons (List.infix_cons (List.infix_cons hinside))
  | assignment targets assigned =>
    rcases List.mem_append.1 hmem with hmem | hmem
    · exact ⟨_, .spell {}, infix_left (infix_commas {} hmem)⟩
    · obtain ⟨spot, hinside⟩ :=
        exists_infix_commas (spell context) (Place.value assigned.length) hmem
      exact ⟨_, .spell spot,
        infix_right (List.infix_cons (List.infix_cons (List.infix_cons hinside)))⟩
  | callStatement expression =>
    obtain rfl := List.mem_singleton.1 hmem
    exact ⟨_, .spell {}, List.infix_rfl⟩
  | function isLocal name parameters body =>
    rcases List.mem_append.1 hmem with hmem | hmem
    · refine ⟨_, .spell {}, infix_right (List.infix_cons ?_)⟩
      rcases List.mem_append.1 hmem with hmem | hmem
      · obtain rfl := Option.mem_toList.1 hmem
        exact infix_left (List.infix_cons List.infix_rfl)
      · refine infix_right (infix_left ?_)
        rw [if_neg (by simpa using List.ne_nil_of_mem hmem)]
        exact List.infix_cons (List.infix_cons (infix_left (infix_commas {} hmem)))
    · exact hblock body rfl hmem
  | conditional clauses =>
    exact ⟨_, .spell {}, infix_left (infix_intercalate (List.mem_map_of_mem hmem))⟩
  | clause kind condition body =>
    rcases List.mem_append.1 hmem with hmem | hmem
    · obtain rfl := Option.mem_toList.1 hmem
      exact ⟨_, .spell {}, infix_right (infix_left (infix_left List.infix_rfl))⟩
    · exact hblock body rfl hmem
  | whileLoop condition body =>
    rcases List.mem_cons.1 hmem with rfl | hmem
    · exact ⟨_, .spell {}, List.infix_cons (List.infix_cons (infix_left List.infix_rfl))⟩
    · exact hblock body rfl hmem
  | repeatLoop body condition =>
    rcases List.mem_append.1 hmem with hmem | hmem
    · exact hblock body rfl hmem
    · obtain rfl := List.mem_singleton.1 hmem
      exact ⟨_, .spell {},
        List.infix_cons (infix_right (List.infix_cons (List.infix_cons (List.infix_cons
        List.infix_rfl))))⟩
  | numericFor counter first last step body =>
    rcases List.mem_append.1 hmem with hmem | hmem
    · refine ⟨_, .spell {}, List.infix_cons (List.infix_cons ?_)⟩
      rcases List.mem_append.1 hmem with hmem | hmem
      · rcases List.mem_cons.1 hmem with rfl | hmem
        · exact infix_left List.infix_rfl
        · refine infix_right (List.infix_cons (List.infix_cons (List.infix_cons ?_)))
          rcases List.mem_cons.1 hmem with rfl | hmem
          · exact infix_left List.infix_rfl
          · obtain rfl := List.mem_singleton.1 hmem
            exact infix_right (List.infix_cons (List.infix_cons (infix_left List.infix_rfl)))
      · obtain rfl := Option.mem_toList.1 hmem
        exact infix_right (List.infix_cons
            (List.infix_cons (List.infix_cons (infix_right (List.infix_cons
          (List.infix_cons (infix_right (infix_left (List.infix_cons (List.infix_cons
            List.infix_rfl))))))))))
    · exact hblock body rfl hmem
  | genericFor names iterators body =>
    rcases List.mem_append.1 hmem with hmem | hmem
    · rcases List.mem_append.1 hmem with hmem | hmem
      · exact ⟨_, .spell {}, List.infix_cons (List.infix_cons (infix_left (infix_commas {} hmem)))⟩
      · obtain ⟨spot, hinside⟩ :=
          exists_infix_commas (spell context) (Place.argument iterators.length) hmem
        exact ⟨_, .spell spot,
          List.infix_cons (List.infix_cons (infix_right (List.infix_cons (List.infix_cons
          (List.infix_cons (infix_left hinside))))))⟩
    · exact hblock body rfl hmem
  | returnStatement returned =>
    obtain ⟨spot, hinside⟩ := exists_infix_commas (spell context) (Place.value returned.length) hmem
    have hne : returned ≠ [] := List.ne_nil_of_mem hmem
    refine ⟨_, .spell spot, List.infix_cons ?_⟩
    rw [if_neg (by simpa using hne)]
    exact List.infix_cons hinside
  | gotoStatement label =>
    obtain rfl := List.mem_singleton.1 hmem
    exact ⟨_, .spell {}, List.infix_cons (List.infix_cons List.infix_rfl)⟩
  | labelStatement label =>
    obtain rfl := List.mem_singleton.1 hmem
    exact ⟨_, .spell {}, List.infix_cons (infix_left List.infix_rfl)⟩
  | breakStatement | identifier name | literal kind text | invalid => cases hmem
  | table fields =>
    obtain ⟨spot, hinside⟩ :=
      exists_infix_commas (spell context) (Place.argument fields.length) hmem
    have hne : fields ≠ [] := List.ne_nil_of_mem hmem
    refine ⟨_, .spell spot, ?_⟩
    simp only [coreSlots, Node.shape]
    rw [if_neg (by simpa using hne)]
    exact List.infix_cons (List.infix_cons (infix_left hinside))
  | keyField key value =>
    rcases List.mem_cons.1 hmem with rfl | hmem
    · cases hname : keyName? child with
      | some name =>
        refine ⟨_, .name hname, ?_⟩
        simp only [coreSlots, Node.shape, hname]
        exact infix_left List.infix_rfl
      | none =>
        refine ⟨_, .spell Place.field, ?_⟩
        simp only [coreSlots, Node.shape, hname]
        exact infix_left (infix_brackets _ _)
    · obtain rfl := List.mem_singleton.1 hmem
      exact ⟨_, .spell Place.field, infix_right (List.infix_cons (List.infix_cons (List.infix_cons
        List.infix_rfl)))⟩
  | nameField name value =>
    rcases List.mem_cons.1 hmem with rfl | hmem
    · exact ⟨_, .spell {}, infix_left List.infix_rfl⟩
    · obtain rfl := List.mem_singleton.1 hmem
      exact ⟨_, .spell Place.field, infix_right (List.infix_cons (List.infix_cons (List.infix_cons
        List.infix_rfl)))⟩
  | valueField value =>
    obtain rfl := List.mem_singleton.1 hmem
    exact ⟨_, .spell _, List.infix_rfl⟩
  | binary op left right =>
    rcases List.mem_cons.1 hmem with rfl | hmem
    · exact ⟨_, .spell _, infix_left List.infix_rfl⟩
    · obtain rfl := List.mem_singleton.1 hmem
      exact ⟨_, .spell _,
        infix_right (List.infix_cons (List.infix_cons (List.infix_cons List.infix_rfl)))⟩
  | unary op operand =>
    obtain rfl := List.mem_singleton.1 hmem
    exact ⟨_, .spell {}, List.infix_cons (infix_right List.infix_rfl)⟩
  | member indexer base name =>
    rcases List.mem_cons.1 hmem with rfl | hmem
    · exact ⟨_, .spell _, infix_left List.infix_rfl⟩
    · obtain rfl := List.mem_singleton.1 hmem
      exact ⟨_, .spell {}, infix_right (List.infix_cons List.infix_rfl)⟩
  | index base key =>
    rcases List.mem_cons.1 hmem with rfl | hmem
    · exact ⟨_, .spell _, infix_left List.infix_rfl⟩
    · obtain rfl := List.mem_singleton.1 hmem
      exact ⟨_, .spell {}, infix_right (infix_brackets _ _)⟩
  | call base arguments =>
    rcases List.mem_cons.1 hmem with rfl | hmem
    · exact ⟨_, .spell _, infix_left List.infix_rfl⟩
    · obtain ⟨index, hindex, rfl⟩ := List.mem_iff_getElem.1 hmem
      refine ⟨_, .spell <| Place.argument arguments.length index, infix_right ?_⟩
      rw [if_neg (by simpa using List.ne_nil_of_mem hmem)]
      refine List.infix_cons (List.infix_cons (infix_left ?_))
      have hargument : (⟨arguments[index], spell context (Place.argument arguments.length index)
          arguments[index]⟩ : Spelled) ∈ arguments.mapIdx fun index argument =>
            ⟨argument, spell context (Place.argument arguments.length index) argument⟩ :=
        List.mem_mapIdx.2 ⟨index, hindex, rfl⟩
      exact Context.infix_argument hargument
  | tableCall base argument | stringCall base argument =>
    rcases List.mem_cons.1 hmem with rfl | hmem
    · exact ⟨_, .spell _, infix_left List.infix_rfl⟩
    · obtain rfl := List.mem_singleton.1 hmem
      exact ⟨_, .spell {}, infix_right List.infix_rfl⟩

/-- The core of a node is within its parentheses and comments. Counterpart of `spell`. -/
theorem infix_spell (context : Context) (place : Place) (node : Node) :
    coreSlots context place node (spell context) <:+: spell context place node := by
  rw [spell_eq]
  refine .trans ?_ (context.infix_commented node _)
  split
  · exact infix_parens _
  · exact List.infix_rfl

/-- What has children is no key that is written as a name. Counterpart of `keyName?`. -/
theorem keyName?_of_mem_children {node child : Node} (h : child ∈ node.children) :
    keyName? node = none := by
  unfold keyName?
  split
  · rename_i raw hshape
    rw [Node.children, hshape] at h
    cases h
  · rfl

/-- Everything in a tree is written in the slots of the tree. Counterpart of `spell`. -/
theorem exists_infix_spell {context : Context} {root part : Node} (hpart : part.Part root)
    (hread : ∀ node : Node, node.Part root → ∀ child ∈ node.children,
        child.isUnreadStatement = false)
    (place : Place) :
    ∃ slots, IsWritten context part slots ∧ slots <:+: spell context place root := by
  induction hpart generalizing place with
  | self => exact ⟨_, .spell place, List.infix_rfl⟩
  | @child child root hchild hpart ih =>
    obtain ⟨middle, hmiddle, hcore⟩ :=
      @exists_infix_core context place root child hchild (hread root (.self root) child hchild)
    have hwhole := hcore.trans (infix_spell context place root)
    cases hpart with
    | self => exact ⟨middle, hmiddle, hwhole⟩
    | child hinner hpart =>
      cases hmiddle with
      | spell spot =>
        obtain ⟨slots, hslots, hinside⟩ :=
          ih (fun node hnode => hread node (.child hchild hnode)) spot
        exact ⟨slots, hslots, hinside.trans hwhole⟩
      | name hname =>
        rw [keyName?_of_mem_children hinner] at hname
        cases hname

/-- In a valid program the slots of every part stand together, but for a key that is written as a
name. Counterpart of `spell`. -/
theorem exists_infix_root {source : List Char} (h : (parse source).isValid = true) (style : Style)
    {part : Node} (hpart : part.Part (parse source).root) (hname : keyName? part = none) :
    ∃ place, coreSlots (.ofProgram (parse source) style) place part
      (spell (.ofProgram (parse source) style)) <:+:
        spell (.ofProgram (parse source) style) {} (parse source).root := by
  obtain ⟨slots, hslots, hwhole⟩ :=
    @exists_infix_spell (.ofProgram (parse source) style) _ _ hpart
      (fun _ hnode => isUnreadStatement_children h hnode) {}
  cases hslots with
  | spell place => exact ⟨place, (infix_spell _ place part).trans hwhole⟩
  | name hfound =>
    rw [hname] at hfound
    cases hfound

end

/-! ## From slots to paper -/

/-- Slots are found again among the pieces that fill in the slots of a whole: these are cut in front
of them. -/
def FilledIn (whole slots : List Slot) (front back : List Piece) : Prop :=
  ∃ before after, whole = before ++ (slots ++ after) ∧ Resolves before front ∧
    Resolves (slots ++ after) back

/-- Pieces that fill in a whole fill in each part of it. Counterpart of `FilledIn`. -/
theorem exists_filledIn {whole slots : List Slot} {pieces : List Piece} (h : slots <:+: whole)
    (hpieces : Resolves whole pieces) :
    ∃ front back, pieces = front ++ back ∧ FilledIn whole slots front back := by
  obtain ⟨before, after, rfl⟩ := h
  rw [List.append_assoc] at hpieces ⊢
  obtain ⟨front, back, rfl, hfront, hback⟩ := resolves_append.1 hpieces
  exact ⟨front, back, rfl, before, after, rfl, hfront, hback⟩

/-- Every slot is filled in by some of the pieces. Counterpart of `Resolves`. -/
theorem exists_resolves_of_mem {slots : List Slot} {slot : Slot} {pieces : List Piece}
    (h : slot ∈ slots) (hpieces : Resolves slots pieces) :
    ∃ inside, slot.Resolves inside ∧ inside ⊆ pieces := by
  induction slots generalizing pieces with
  | nil => cases h
  | cons first rest ih =>
    obtain ⟨front, back, rfl, hfront, hback⟩ := hpieces
    rcases List.mem_cons.1 h with rfl | h
    · exact ⟨front, hfront, List.subset_append_left ..⟩
    · obtain ⟨inside, hinside, hsubset⟩ := ih h hback
      exact ⟨inside, hinside, List.subset_append_of_subset_right _ hsubset⟩

/-- What the output of a source in a style is made of: pieces fill in the slots of its tree, and
inks are what they leave on paper when all that is put off is written at the ends of lines. -/
structure Written (source : List Char) (style : Style) (pieces : List Piece) (inks : List Ink) :
    Prop where
  resolves : Resolves (spell (.ofProgram (parse source) style) {} (parse source).root) pieces
  flushed : Flushed [] (pieces.flatMap Piece.marks) inks
  format_eq : format source style = render style inks

/-- Every output is made of pieces that fill in the slots of the tree. Counterpart of `format`. -/
theorem exists_written (source : List Char) (style : Style) :
    ∃ pieces inks, Written source style pieces inks := by
  obtain ⟨word, hword, hflushed⟩ := flushed_traceOf style ((parse source).toDoc style)
  obtain ⟨pieces, hpieces, rfl⟩ := implements_compile _ {} (parse source).root .broken 0 word hword
  exact ⟨pieces, _, hpieces, hflushed, Doc.layout_eq_render style _⟩

/-- A token is written with its inks. Counterpart of `Kind.marks`. -/
theorem marks_eq_ofInks (kind : Kind) (text : List Char) :
    kind.marks text = Mark.ofInks (Piece.token kind text).inks := by
  rw [Kind.marks, Piece.inks, Mark.ofInks, List.map_map]
  refine List.map_congr_left fun c _ => ?_
  simp only [Function.comp_apply]
  split <;> rfl

/-- The inks in front of a comment that is put off. -/
def leadInks (levels : List Nat) : List Ink :=
  if levels.isEmpty then [.char false ' '] else levels.map .newline

/-- What is put off is one letter: what stands in front of it, and its text. Counterpart of
`Piece.later`. -/
theorem marks_later (levels : List Nat) (kind : Kind) (text : List Char) :
    (Piece.later levels kind text).marks =
      [.later (Mark.ofInks (leadInks levels ++ (Piece.token kind text).inks))] := by
  rw [Piece.marks, marks_eq_ofInks, Mark.ofInks, Mark.ofInks, List.map_append, leadInks]
  split <;> simp

/-- What is put off is a comment and the blanks before it. Counterpart of `Piece.later`. -/
theorem laterInks_marks (pieces : List Piece) :
    ∀ mark ∈ pieces.flatMap Piece.marks, mark.LaterInks := by
  intro mark hmem
  obtain ⟨piece, -, hmark⟩ := List.mem_flatMap.1 hmem
  cases piece with
  | token kind text =>
    rw [Piece.marks, marks_eq_ofInks] at hmark
    obtain ⟨ink, -, rfl⟩ := List.mem_map.1 hmark
    exact trivial
  | space | newline level =>
    obtain rfl := List.mem_singleton.1 hmark
    exact trivial
  | later levels kind text =>
    rw [marks_later] at hmark
    obtain rfl := List.mem_singleton.1 hmark
    exact ⟨_, rfl⟩

/-- Where the pieces of an output are cut, so are its inks. Counterpart of `FilledIn`. -/
theorem Written.cut {source : List Char} {style : Style} {front back : List Piece} {inks : List Ink}
    (h : Written source style (front ++ back) inks) :
    ∃ before pending after, inks = before ++ after ∧
      Laid [] (front.flatMap Piece.marks) before (Mark.ofInks pending) ∧
      Flushed (Mark.ofInks pending) (back.flatMap Piece.marks) after := by
  have hflushed := h.flushed
  rw [List.flatMap_append] at hflushed
  obtain ⟨before, waiting, after, rfl, hbefore, hafter⟩ := hflushed.cut
  obtain ⟨pending, rfl⟩ := hbefore.exists_ofInks (laterInks_marks front) ⟨[], rfl⟩
  exact ⟨before, pending, after, rfl, hbefore, hafter⟩

end LuaFormatter
