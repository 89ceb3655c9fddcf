import LuaFormatter.Proofs.Grammar.Yield
import LuaFormatter.Proofs.Spelling.Spell

/-!
# Room for line breaks

`Roomy` counts the line breaks of slots in the way that spacing does for words: between two tokens
there is room for two, and the slots that may break take one each. The spelling of a node needs no
room in front of it and leaves room for two behind it, if those of its parts do (`roomy_coreSlots`).
Such spellings can be put together with all the separators there are.
-/

namespace LuaFormatter

/-- The slots can be filled in where there is room for a number of line breaks, and leave room for
two: there are never more than two between tokens, and none after the last. -/
def Roomy : Nat → List Slot → Prop
  | room, [] => 2 ≤ room
  | _, .token _ _ :: rest => Roomy 2 rest
  | room, .space :: rest => Roomy room rest
  | room, .gap :: rest | room, .soft :: rest | room, .pad :: rest | room, .hard :: rest =>
    1 ≤ room ∧ Roomy (room - 1) rest
  | room, .comma :: rest => 2 ≤ room ∧ Roomy 2 rest
  | room, .later breaks _ _ :: rest => 2 ≤ room ∧ breaks ≤ 2 ∧ Roomy room rest

section
variable {room more : Nat} {front back slots : List Slot} {kind : Kind} {text : List Char}

@[simp] theorem roomy_two : Roomy 2 [] :=
  Nat.le_refl 2

@[simp] theorem roomy_token : Roomy room (.token kind text :: slots) ↔ Roomy 2 slots :=
  .rfl

@[simp] theorem roomy_fixed : Roomy room (.fixed kind :: slots) ↔ Roomy 2 slots :=
  .rfl

@[simp] theorem roomy_symbol (mark : Symbol) : Roomy room (.symbol mark :: slots) ↔ Roomy 2 slots :=
  .rfl

@[simp] theorem roomy_keyword (word : Keyword) :
    Roomy room (.keyword word :: slots) ↔ Roomy 2 slots :=
  .rfl

@[simp] theorem roomy_name (name : String) : Roomy room (nameSlot name :: slots) ↔ Roomy 2 slots :=
  .rfl

@[simp] theorem roomy_comment (comment : Comment) :
    Roomy room (comment.slot :: slots) ↔ Roomy 2 slots :=
  .rfl

@[simp] theorem roomy_literal (style : Style) (kind : LiteralKind) (text : String) :
    Roomy room (literalSlot style kind text :: slots) ↔ Roomy 2 slots := by
  cases kind <;> rfl

@[simp] theorem roomy_space : Roomy room (.space :: slots) ↔ Roomy room slots :=
  .rfl

@[simp] theorem roomy_gap : Roomy (room + 1) (.gap :: slots) ↔ Roomy room slots :=
  ⟨And.right, fun h => ⟨by omega, h⟩⟩

@[simp] theorem roomy_soft : Roomy (room + 1) (.soft :: slots) ↔ Roomy room slots :=
  ⟨And.right, fun h => ⟨by omega, h⟩⟩

@[simp] theorem roomy_pad : Roomy (room + 1) (.pad :: slots) ↔ Roomy room slots :=
  ⟨And.right, fun h => ⟨by omega, h⟩⟩

@[simp] theorem roomy_hard : Roomy (room + 1) (.hard :: slots) ↔ Roomy room slots :=
  ⟨And.right, fun h => ⟨by omega, h⟩⟩

@[simp] theorem roomy_comma : Roomy 2 (.comma :: slots) ↔ Roomy 2 slots :=
  ⟨And.right, fun h => ⟨Nat.le_refl 2, h⟩⟩

/-- Where there is room for line breaks there is for fewer. Counterpart of `Roomy`. -/
theorem Roomy.mono (h : Roomy room slots) (hle : room ≤ more) : Roomy more slots := by
  induction slots generalizing room more with
  | nil => exact Nat.le_trans h hle
  | cons slot rest ih =>
    cases slot with
    | token => exact h
    | space => exact ih h hle
    | gap | soft | pad | hard => exact ⟨Nat.le_trans h.1 hle, ih h.2 (by omega)⟩
    | comma => exact ⟨Nat.le_trans h.1 hle, h.2⟩
    | later => exact ⟨Nat.le_trans h.1 hle, h.2.1, ih h.2.2 hle⟩

/-- Slots one after the other are roomy, since the first ones leave room for two line breaks.
Counterpart of `Roomy`. -/
theorem Roomy.append (hfront : Roomy room front) (hback : Roomy 2 back) :
    Roomy room (front ++ back) := by
  induction front generalizing room with
  | nil => exact hback.mono hfront
  | cons slot rest ih =>
    cases slot with
    | token | space => exact ih hfront
    | gap | soft | pad | hard | comma => exact ⟨hfront.1, ih hfront.2⟩
    | later => exact ⟨hfront.1, hfront.2.1, ih hfront.2.2⟩

/-- The back of roomy slots is roomy where there is room for two line breaks. Counterpart of
`Roomy`. -/
theorem Roomy.right (h : Roomy room (front ++ back)) (hroom : room ≤ 2) : Roomy 2 back := by
  induction front generalizing room with
  | nil => exact h.mono hroom
  | cons slot rest ih =>
    cases slot with
    | token => exact ih h (Nat.le_refl 2)
    | space => exact ih h hroom
    | gap | soft | pad | hard => exact ih h.2 (by omega)
    | comma => exact ih h.2 (Nat.le_refl 2)
    | later => exact ih h.2.2 hroom

/-- What can stand anywhere leaves room for two line breaks. Counterpart of `Roomy`. -/
theorem Roomy.then (hfront : Roomy 0 front) (hback : Roomy 2 back) : Roomy room (front ++ back) :=
  (hfront.append hback).mono (Nat.zero_le room)

/-- After slots that need no room, the others have room for two line breaks. Counterpart of
`Roomy`. -/
theorem roomy_append (hfront : Roomy 0 front) (hroom : room ≤ 2) :
    Roomy room (front ++ back) ↔ Roomy 2 back :=
  ⟨fun h => h.right hroom, hfront.then⟩

/-- Slots that need no room are roomy anywhere. Counterpart of `Roomy`. -/
theorem Roomy.any (h : Roomy 0 slots) : Roomy room slots :=
  h.mono (Nat.zero_le room)

/-- Lists with separators between them, which must leave room for the next list. Counterpart of
`List.intercalate`. -/
theorem roomy_intercalate {separator : List Slot} {lists : List (List Slot)} (hne : lists ≠ [])
    (h : ∀ list ∈ lists, Roomy 0 list)
    (hseparator : ∀ slots, Roomy 0 slots → Roomy 2 (separator ++ slots)) :
    Roomy 0 (separator.intercalate lists) := by
  match lists with
  | [] => exact absurd rfl hne
  | [last] => simpa using h last (by simp)
  | first :: second :: rest =>
    rw [List.intercalate_cons_cons, List.append_assoc]
    refine (h first (by simp)).then (hseparator _ (roomy_intercalate (by simp) ?_ hseparator))
    exact fun list hlist => h list (List.mem_cons_of_mem _ hlist)

/-- Lists with commas between them need no room. Counterpart of `commaSlots`. -/
theorem roomy_commas {lists : List (List Slot)} (hne : lists ≠ [])
    (h : ∀ list ∈ lists, Roomy 0 list) :
    Roomy 0 (commaSlots lists) :=
  roomy_intercalate hne h fun slots hslots => by simpa using hslots.any

/-- Lists with commas between them before slots that could stand in their place. Counterpart of
`commaSlots`. -/
theorem roomy_commas_append {lists : List (List Slot)} (h : ∀ list ∈ lists, Roomy 0 list)
    (hroom : room ≤ 2) (hback : Roomy room back) : Roomy room (commaSlots lists ++ back) := by
  cases lists with
  | nil => exact hback
  | cons first rest => exact (roomy_commas (by simp) h).then (hback.mono hroom)

/-- A key between brackets needs no room. Counterpart of `bracketSlots`. -/
theorem roomy_brackets (key : Node) (h : Roomy 0 slots) : Roomy 0 (bracketSlots key slots) := by
  unfold bracketSlots
  split <;> exact h.then (by simp)

/-- Slots in parentheses need no room. Counterpart of `parenSlots`. -/
theorem roomy_parens (h : Roomy 0 slots) : Roomy 0 (parenSlots slots) := by
  have hclose : Roomy 2 [Slot.soft, .symbol .rightParen] := by simp
  simpa [parenSlots] using h.then hclose

end

/-! ## The parts of a spelling -/

namespace Context

variable {context : Context} {node : Node} {slots back : List Slot} {body : List Spelled}

/-- A comment before slots needs no room. Counterpart of `Context.leadingSlots`. -/
theorem roomy_leading (comment : Comment) (h : Roomy 0 back) :
    Roomy 0 (context.leadingSlots comment ++ back) := by
  unfold leadingSlots
  dsimp only
  split <;> split <;> simpa using h.any

/-- Comments before slots need no room. Counterpart of `Context.leadingSlots`. -/
theorem roomy_leadings (comments : List Comment) (h : Roomy 0 back) :
    Roomy 0 (comments.flatMap context.leadingSlots ++ back) := by
  induction comments with
  | nil => exact h
  | cons comment rest ih =>
    rw [List.flatMap_cons, List.append_assoc]
    exact roomy_leading comment ih

/-- Comments after a node are roomy. Counterpart of `Context.trailingSlots`. -/
theorem roomy_trailing (comments : List Comment) :
    Roomy 2 (comments.flatMap context.trailingSlots) := by
  induction comments with
  | nil => simp
  | cons comment rest ih =>
    rw [List.flatMap_cons]
    refine Roomy.append ?_ ih
    unfold trailingSlots
    split
    · exact ⟨Nat.le_refl 2, by split <;> omega, by simp⟩
    · split
      · simp
      · exact ⟨Nat.le_refl 2, by omega, by simp⟩

/-- Comments around slots. Counterpart of `Context.commented`. -/
theorem roomy_commented (h : Roomy 0 slots) : Roomy 0 (context.commented node slots) := by
  rw [commented, List.append_assoc]
  exact roomy_leadings _ (h.append (roomy_trailing _))

/-- Comments one below the other. Counterpart of `Context.lineSlots`. -/
theorem roomy_lineSlots {comments : List Comment} (hne : comments ≠ []) :
    Roomy 0 (lineSlots comments) := by
  refine roomy_intercalate (by simpa using hne) (fun list hlist => ?_) fun slots hslots => ?_
  · obtain ⟨comment, -, rfl⟩ := List.mem_map.1 hlist
    simp
  · simpa using hslots.any

/-- Comments inside a node are roomy. Counterpart of `Context.danglingSlots`. -/
theorem roomy_dangling (h : Roomy 2 back) : Roomy 2 (context.danglingSlots node ++ back) := by
  unfold danglingSlots
  split
  · exact h
  · rename_i comments hne
    simpa using (roomy_lineSlots (by simpa using hne)).then h

/-- Empty parentheses need no room. Counterpart of `Context.emptyParensSlots`. -/
theorem roomy_emptyParens : Roomy 0 (context.emptyParensSlots node) := by
  unfold emptyParensSlots
  generalize context.danglingComments node true = comments
  split
  · simp
  · rename_i hne
    have hcomments : ∀ between : Slot, between = .hard ∨ between = .gap →
        Roomy 0 ([between].intercalate (comments.map fun comment => [comment.slot])) := by
      intro between hbetween
      refine roomy_intercalate (by simpa using hne) (fun list hlist => ?_) fun slots hslots => ?_
      · obtain ⟨comment, -, rfl⟩ := List.mem_map.1 hlist
        simp
      · rcases hbetween with rfl | rfl <;> simpa using hslots.any
    dsimp only
    cases comments.any fun comment => !comment.isBlock with
    | true => simp [roomy_append (hcomments .hard (.inl rfl))]
    | false => simp [roomy_append (hcomments .gap (.inr rfl))]

/-- Statements on lines of their own need no room before the first. Counterpart of
`Context.separatedSlots`. -/
theorem roomy_separated (hne : body ≠ []) (h : ∀ statement ∈ body, Roomy 0 statement.slots) :
    Roomy 0 ([Slot.hard].intercalate (context.separatedSlots body)) := by
  fun_induction separatedSlots context body with
  | case1 => exact absurd rfl hne
  | case2 last => simpa using h last (by simp)
  | case3 statement next rest ih =>
    have hrest := ih (by simp) fun other hother => h other (List.mem_cons_of_mem _ hother)
    obtain ⟨first, others, hcons⟩ : ∃ first others,
        context.separatedSlots (next :: rest) = first :: others := by
      cases rest <;> exact ⟨_, _, rfl⟩
    rw [hcons] at hrest ⊢
    rw [List.intercalate_cons_cons, List.append_assoc, List.append_assoc, List.append_assoc]
    refine (h statement (by simp)).then ?_
    split <;> split <;> simpa using hrest.any

/-- Statements need no room before the first, and leave at most one blank line between two.
Counterpart of `Context.statementSlots`. -/
theorem roomy_statements (hne : body ≠ [])
    (hread : ∀ statement ∈ body, statement.node.isUnreadStatement = false)
    (h : ∀ statement ∈ body, Roomy 0 statement.slots) : Roomy 0 (context.statementSlots body) := by
  have hfilter : body.filter (fun statement => !statement.node.isUnreadStatement) = body :=
    List.filter_eq_self.2 fun statement hmem => by simp [hread statement hmem]
  rw [statementSlots, hfilter]
  exact roomy_separated hne h

/-- A body is roomy before what closes it. Counterpart of `Context.bodySlots`. -/
theorem roomy_body (hread : ∀ statement ∈ body, statement.node.isUnreadStatement = false)
    (h : ∀ statement ∈ body, Roomy 0 statement.slots) (hback : Roomy 2 back) :
    Roomy 2 (context.bodySlots node body ++ back) := by
  unfold bodySlots
  rw [List.append_assoc]
  refine roomy_dangling ?_
  split
  · exact hback
  · rename_i hne
    simpa using (roomy_statements (by simpa using hne) hread h).then hback

/-- A body with its closing keyword is roomy. Counterpart of `Context.bodyEndSlots`. -/
theorem roomy_bodyEnd (hread : ∀ statement ∈ body, statement.node.isUnreadStatement = false)
    (h : ∀ statement ∈ body, Roomy 0 statement.slots) : Roomy 2 (context.bodyEndSlots node body) :=
  roomy_body hread h (by split <;> simp)

/-- Arguments need no room before the first, and leave at most one blank line between two.
Counterpart of `Context.argumentSlots`. -/
theorem roomy_arguments (hne : body ≠ []) (h : ∀ argument ∈ body, Roomy 0 argument.slots) :
    Roomy 0 (context.argumentSlots body) := by
  fun_induction argumentSlots context body with
  | case1 => exact absurd rfl hne
  | case2 last => exact h last (by simp)
  | case3 argument next rest ih =>
    have hrest := ih (by simp) fun other hother => h other (List.mem_cons_of_mem _ hother)
    refine (h argument (by simp)).then ?_
    split <;> simpa using hrest.any

end Context

/-! ## Every spelling is roomy -/

/-- The shape has the parts that every shape of a program has, and is not the whole program. -/
def Shape.IsWhole {α : Type} : Shape α → Prop
  | assignment _ assigned => assigned ≠ []
  | conditional clauses => clauses ≠ []
  | chunk _ | invalid => False
  | _ => True

/-- The core of a node is roomy if its parts are. Counterpart of `coreSlots`. -/
theorem roomy_coreSlots {context : Context} {place : Place} {node : Node}
    {spell : Place → Node → List Slot} (hnode : node.shape.IsWhole)
    (hread : ∀ child ∈ node.children, child.isUnreadStatement = false)
    (h : ∀ place, ∀ child ∈ node.children, Roomy 0 (spell place child)) :
    Roomy 0 (coreSlots context place node spell) := by
  obtain ⟨number, shape, span, inParens⟩ := node
  have hone : ∀ place, ∀ child ∈ shape.children, Roomy 0 (spell place child) := h
  have heach : ∀ nodes : List Node, nodes ⊆ shape.children →
      ∀ list ∈ nodes.map (spell {}), Roomy 0 list := by
    intro nodes hsub list hlist
    obtain ⟨child, hchild, rfl⟩ := List.mem_map.1 hlist
    exact hone {} child (hsub hchild)
  have hindexed : ∀ (nodes : List Node) (place : Nat → Place), nodes ⊆ shape.children →
      ∀ list ∈ nodes.mapIdx fun index child => spell (place index) child, Roomy 0 list := by
    intro nodes place hsub list hlist
    obtain ⟨index, hindex, rfl⟩ := List.mem_mapIdx.1 hlist
    exact hone _ _ (hsub (List.getElem_mem hindex))
  have hblock : ∀ nodes : List Node, nodes ⊆ shape.children →
      ∀ statement ∈ nodes.map fun child => (⟨child, spell {} child⟩ : Spelled),
        Roomy 0 statement.slots := by
    intro nodes hsub statement hstatement
    obtain ⟨child, hchild, rfl⟩ := List.mem_map.1 hstatement
    exact hone {} child (hsub hchild)
  have hreads : ∀ nodes : List Node, nodes ⊆ shape.children →
      ∀ statement ∈ nodes.map fun child => (⟨child, spell {} child⟩ : Spelled),
        statement.node.isUnreadStatement = false := by
    intro nodes hsub statement hstatement
    obtain ⟨child, hchild, rfl⟩ := List.mem_map.1 hstatement
    exact hread child (hsub hchild)
  have hend : ∀ (other : Node) (nodes : List Node), nodes ⊆ shape.children →
      Roomy 2 (context.bodyEndSlots other (nodes.map fun child => ⟨child, spell {} child⟩)) :=
    fun other nodes hsub => Context.roomy_bodyEnd (hreads nodes hsub) (hblock nodes hsub)
  cases shape with
  | chunk | invalid => exact hnode.elim
  | localVariables names initial =>
    have hnames := heach names (by simp [Shape.children])
    simp only [coreSlots, Node.shape, roomy_keyword, roomy_space]
    refine roomy_commas_append hnames (Nat.le_refl 2) ?_
    split
    · simp
    · rename_i hne
      have hinitial := roomy_commas (by simpa using hne)
        (hindexed initial (Place.value initial.length) (by simp [Shape.children]))
      simpa using hinitial.any
  | assignment targets assigned =>
    have htargets := heach targets (by simp [Shape.children])
    have hne : assigned ≠ [] := hnode
    have hassigned := roomy_commas (by simpa using hne)
      (hindexed assigned (Place.value assigned.length) (by simp [Shape.children]))
    simp only [coreSlots, Node.shape]
    exact roomy_commas_append htargets (by omega) (by simpa using hassigned.any)
  | callStatement expression => exact hone {} expression (by simp [Shape.children])
  | function isLocal name parameters body =>
    have hparameters := heach parameters fun _ h => by simp [Shape.children, h]
    have hbody := hend ⟨number, .function isLocal name parameters body, span, inParens⟩ body
      fun _ h => by simp [Shape.children, h]
    have hlist : Roomy 0 (if parameters.isEmpty then
        context.emptyParensSlots ⟨number, .function isLocal name parameters body, span, inParens⟩
        else
          .symbol .leftParen :: .soft :: (commaSlots (parameters.map (spell {})) ++
            [.soft, .symbol .rightParen])) := by
      split
      · exact Context.roomy_emptyParens
      · simp only [roomy_symbol, roomy_soft]
        exact roomy_commas_append hparameters (by omega) (by simp)
    have hrest := (hlist.append hbody).mono (Nat.zero_le 2)
    simp only [coreSlots, Node.shape]
    cases name with
    | none => split <;> simpa using hrest
    | some name =>
      have hname := hone {} name (by simp [Shape.children])
      split <;> simpa [roomy_append hname] using hrest
  | conditional clauses =>
    have hne : clauses ≠ [] := hnode
    have hclauses : Roomy 0 ([Slot.hard].intercalate (clauses.map (spell {}))) :=
      roomy_intercalate (by simpa using hne) (heach clauses fun _ h => h)
        fun slots hslots => by simpa using hslots.any
    simp only [coreSlots, Node.shape]
    exact hclauses.then (by split <;> simp)
  | clause kind condition body =>
    have hbody : Roomy 2 (context.bodySlots ⟨number, .clause kind condition body, span, inParens⟩
        (body.map fun child => ⟨child, spell {} child⟩) ++ []) :=
      Context.roomy_body (hreads body fun _ h => by simp [Shape.children, h])
        (hblock body fun _ h => by simp [Shape.children, h]) roomy_two
    simp only [coreSlots, Node.shape]
    cases condition with
    | none => cases kind <;> simpa [clauseKeyword] using hbody
    | some condition =>
      have hcondition := hone {} condition (by simp [Shape.children])
      cases kind <;> simpa [clauseKeyword, roomy_append hcondition] using hbody
  | whileLoop condition body =>
    have hcondition := hone {} condition (by simp [Shape.children])
    have hbody := hend ⟨number, .whileLoop condition body, span, inParens⟩ body
      (by simp [Shape.children])
    simpa [coreSlots, Node.shape, roomy_append hcondition] using hbody
  | doBlock body =>
    have hbody := hend ⟨number, .doBlock body, span, inParens⟩ body (by simp [Shape.children])
    simpa [coreSlots, Node.shape] using hbody
  | repeatLoop body condition =>
    have hcondition := hone {} condition (by simp [Shape.children])
    simp only [coreSlots, Node.shape, roomy_keyword]
    exact Context.roomy_body (hreads body (by simp [Shape.children]))
      (hblock body (by simp [Shape.children])) (by split <;> simpa using hcondition.any)
  | numericFor counter first last step body =>
    have hcounter := hone {} counter (by simp [Shape.children])
    have hfirst := hone {} first (by simp [Shape.children])
    have hlast := hone {} last (by simp [Shape.children])
    have hbody := hend ⟨number, .numericFor counter first last step body, span, inParens⟩ body
      fun _ h => by simp [Shape.children, h]
    cases step with
    | none =>
      simpa [coreSlots, Node.shape, roomy_append hcounter, roomy_append hfirst,
        roomy_append hlast] using hbody
    | some step =>
      have hstep := hone {} step (by simp [Shape.children])
      simpa [coreSlots, Node.shape, roomy_append hcounter, roomy_append hfirst, roomy_append hlast,
        roomy_append hstep] using hbody
  | genericFor names iterators body =>
    have hnames := heach names fun _ h => by simp [Shape.children, h]
    have hiterators := hindexed iterators (Place.argument iterators.length)
      fun _ h => by simp [Shape.children, h]
    have hbody := hend ⟨number, .genericFor names iterators body, span, inParens⟩ body
      fun _ h => by simp [Shape.children, h]
    simp only [coreSlots, Node.shape, roomy_keyword, roomy_gap]
    refine roomy_commas_append hnames (by omega) ?_
    simp only [roomy_keyword, roomy_gap]
    exact roomy_commas_append hiterators (by omega) (by simpa using hbody)
  | returnStatement returned =>
    simp only [coreSlots, Node.shape, roomy_keyword]
    split
    · simp
    · rename_i hne
      have hreturned := roomy_commas (by simpa using hne)
        (hindexed returned (Place.value returned.length) (by simp [Shape.children]))
      simpa using hreturned.any
  | gotoStatement label =>
    have hlabel := hone {} label (by simp [Shape.children])
    simpa [coreSlots, Node.shape] using hlabel.any
  | labelStatement label =>
    have hlabel := hone {} label (by simp [Shape.children])
    simp [coreSlots, Node.shape, roomy_append hlabel]
  | breakStatement | identifier _ | literal kind text => simp [coreSlots, Node.shape]
  | table fields =>
    simp only [coreSlots, Node.shape]
    split
    · exact Context.roomy_dangling (by split <;> simp)
    · rename_i hne
      have hfields := hindexed fields (Place.argument fields.length) (by simp [Shape.children])
      simp [roomy_append (roomy_commas (by simpa using hne) hfields)]
  | keyField key value =>
    have hvalue := hone Place.field value (by simp [Shape.children])
    have hrest : Roomy 2 (.space :: .symbol .equal :: .space :: spell Place.field value) := by
      simpa using hvalue.any
    simp only [coreSlots, Node.shape]
    split
    · exact (Context.roomy_commented (by simp)).then hrest
    · exact (roomy_brackets key (hone Place.field key (by simp [Shape.children]))).then hrest
  | nameField name value =>
    have hname := hone {} name (by simp [Shape.children])
    have hvalue := hone Place.field value (by simp [Shape.children])
    simpa [coreSlots, Node.shape, roomy_append hname] using hvalue.any
  | valueField value => exact hone _ value (by simp [Shape.children])
  | binary op left right =>
    have hleft := hone (Place.left op) left (by simp [Shape.children])
    have hright := hone (Place.right op) right (by simp [Shape.children])
    simpa [coreSlots, Node.shape, roomy_append hleft] using hright.any
  | unary op operand =>
    have hoperand := hone {} operand (by simp [Shape.children])
    simp only [coreSlots, Node.shape, roomy_fixed]
    split <;> simpa using hoperand.any
  | member indexer base name =>
    have hbase := hone Place.base base (by simp [Shape.children])
    have hname := hone {} name (by simp [Shape.children])
    cases indexer <;> simpa [coreSlots, Node.shape, roomy_append hbase] using hname.any
  | index base key =>
    have hbase := hone Place.base base (by simp [Shape.children])
    exact hbase.then (roomy_brackets key (hone {} key (by simp [Shape.children]))).any
  | call base arguments =>
    have hbase := hone Place.base base (by simp [Shape.children])
    simp only [coreSlots, Node.shape]
    refine hbase.then ?_
    split
    · exact Context.roomy_emptyParens.any
    · rename_i hne
      have harguments : Roomy 0 (context.argumentSlots (arguments.mapIdx fun index argument =>
          ⟨argument, spell (Place.argument arguments.length index) argument⟩)) := by
        refine Context.roomy_arguments (by simpa using hne) fun argument hargument => ?_
        obtain ⟨index, hindex, rfl⟩ := List.mem_mapIdx.1 hargument
        exact hone _ _ (List.mem_cons_of_mem _ (List.getElem_mem _))
      simp [roomy_append harguments]
  | tableCall base argument | stringCall base argument =>
    have hbase := hone Place.base base (by simp [Shape.children])
    exact hbase.then (hone {} argument (by simp [Shape.children])).any

end LuaFormatter
