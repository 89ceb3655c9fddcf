import LuaFormatter.Proofs.Comment.Once
import LuaFormatter.Proofs.Format.Cosmetic
import LuaFormatter.Proofs.Layout.Conserve
import LuaFormatter.Proofs.Layout.Spacing
import LuaFormatter.Proofs.Spelling.Literal
import LuaFormatter.Proofs.Spelling.Roomy
import LuaFormatter.Proofs.Tree.Language

/-!
# The lines of an output are tidy

Blank lines are written after the shebang, between statements, after comments, before comments that
have a line of their own, and between arguments. Some of these are put off to the end of a line.
They never meet: the spelling of every part of a program is roomy (`roomy_spell`), so the trace of
its layout is spaced, and its lines are tidy (`tidyLines_format`).
-/

namespace LuaFormatter

open Layout Scan

/-! ## The tree of a program -/

section
variable {isApart : Bool} {rule : Rule} {a b : Nat} {ts : List Token} {nodes : List Node}

/-- The rules give nodes that have the parts of their shapes. Counterpart of `Shape.IsWhole`. -/
theorem Derives.isWhole (h : Derives isApart rule a b ts nodes) :
    ∀ node ∈ nodes, node.shape.IsWhole := by
  induction h with
  | parens _ _ _ ih =>
    refine List.forall_mem_singleton.2 ?_
    rw [Node.shape_parenthesise]
    exact ih _ (List.mem_singleton_self _)
  | lastExpression _ ih | someArguments _ ih | plain _ _ ih | lastField _ ih | nameDotted _ ih
  | semicolon _ _ ih | lastClause _ ih => exact ih
  | moreExpressions _ _ _ ih ihs | moreFields _ _ _ ih ihs | moreStatements _ _ _ ih ihs
  | moreClauses _ _ _ _ ih ihs =>
    exact List.forall_mem_cons.2 ⟨ih _ (List.mem_singleton_self _), ihs⟩
  | moreNames _ _ _ ih | moreParameters _ _ _ _ ih => exact List.forall_mem_cons.2 ⟨trivial, ih⟩
  | noArguments | noParameters | noFields | emptyBlock => exact List.forall_mem_nil _
  | assignment _ _ _ hvalues => exact List.forall_mem_singleton.2 (hvalues.nodes_ne_nil rfl)
  | conditional _ _ hclauses => exact List.forall_mem_singleton.2 (hclauses.nodes_ne_nil rfl)
  | _ => exact List.forall_mem_singleton.2 trivial

end

section
variable {source : List Char}

/-- The spelling of every part of a program but the whole is roomy. Counterpart of `spell`. -/
theorem roomy_spell (h : (parse source).isValid = true) (style : Style) (place : Place)
    (part : Node) (hpart : part.Part (parse source).root)
    (hsize : part.size < (parse source).root.size) :
    Roomy 0 (spell (.ofProgram (parse source) style) place part) := by
  have hwhole : part.shape.IsWhole := by
    rcases derives_part h hpart with rfl | ⟨rule, first, front, us, back, -, -, -, hderives⟩
    · exact absurd hsize (Nat.lt_irrefl _)
    · simpa using hderives.isWhole part.bare (by simp)
  have hcore : Roomy 0 (coreSlots (.ofProgram (parse source) style) place part
      (spell (.ofProgram (parse source) style))) :=
    roomy_coreSlots hwhole (isUnreadStatement_children h hpart) fun place child hchild =>
      roomy_spell h style place child ((Node.Part.of_mem_children hchild).trans hpart)
        (Nat.lt_trans (Node.size_lt_of_mem_children hchild) hsize)
  rw [spell_eq]
  refine Context.roomy_commented ?_
  split
  · exact roomy_parens hcore
  · exact hcore
termination_by part.size
decreasing_by exact Node.size_lt_of_mem_children hchild

/-- No comment stands before or after the whole file. Counterpart of `Context.placed`. -/
theorem placed_root (h : (parse source).isValid = true) (style : Style) {placement : Placement}
    (hplacement : placement ≠ .dangling) :
    (Context.ofProgram (parse source) style).placed (parse source).root placement = [] := by
  rw [Context.placed, List.map_eq_nil_iff, List.filter_eq_nil_iff]
  intro attachment hattachment hplaced
  obtain ⟨hmem, hnumber⟩ := List.mem_filter.1 hattachment
  have howner : attachment.owner = (parse source).root :=
    eq_of_number_eq (owner_spec h hmem).1 (.self _) (of_decide_eq_true hnumber)
  exact owner_ne_root h hmem (by rwa [of_decide_eq_true hplaced]) howner

/-! ## The whole file -/

/-- A shebang takes up its own line. Counterpart of `Context.shebangSlots`. -/
theorem roomy_shebang {context : Context} {body : List Spelled} {back : List Slot}
    (h : Roomy 0 back) : Roomy 0 (context.shebangSlots body ++ back) := by
  unfold Context.shebangSlots
  split
  · split <;> simpa using h.any
  · exact h

/-- A whole file has nothing in it, or it ends in a line break and is roomy up to there. Counterpart
of `Context.chunkSlots`. -/
theorem roomy_chunkSlots {context : Context} {node : Node} {body : List Spelled}
    (hread : ∀ statement ∈ body, statement.node.isUnreadStatement = false)
    (h : ∀ statement ∈ body, Roomy 0 statement.slots) :
    context.chunkSlots node body = [] ∨
      ∃ slots, context.chunkSlots node body = slots ++ [.hard] ∧ Roomy 0 slots := by
  unfold Context.chunkSlots
  generalize context.danglingComments node false = comments
  cases comments with
  | cons first others =>
    have hlines := Context.roomy_lineSlots (List.cons_ne_nil first others)
    refine .inr ⟨context.shebangSlots body ++
      ((if body.isEmpty then [] else context.statementSlots body ++ [.hard]) ++
        Context.lineSlots (first :: others)), by simp, roomy_shebang ?_⟩
    split
    · exact hlines
    · rename_i hne
      have hstatements : Roomy 0 (context.statementSlots body) :=
        Context.roomy_statements (by simpa using hne) hread h
      rw [List.append_assoc]
      exact hstatements.then (by simpa using hlines.any)
  | nil =>
    cases body with
    | cons statement rest =>
      have hstatements : Roomy 0 (context.statementSlots (statement :: rest)) :=
        Context.roomy_statements (List.cons_ne_nil statement rest) hread h
      exact .inr ⟨context.shebangSlots (statement :: rest) ++
        context.statementSlots (statement :: rest), by simp, roomy_shebang hstatements⟩
    | nil =>
      unfold Context.shebangSlots
      cases context.shebang with
      | some token => exact .inr ⟨[.token .shebang (trimEnd token.lexeme)], rfl, by simp⟩
      | none => exact .inl rfl

/-- There are no documents, or the last is a line break. -/
def EndsInBreak (docs : List Doc) : Prop :=
  docs = [] ∨ ∃ front, docs = front ++ [.hardLine]

/-- Documents that both end in a line break do so together. Counterpart of `List.append` for
`EndsInBreak`. -/
theorem EndsInBreak.append {front back : List Doc} (hfront : EndsInBreak front)
    (hback : EndsInBreak back) : EndsInBreak (front ++ back) := by
  rcases hback with rfl | ⟨others, rfl⟩
  · rwa [List.append_nil]
  · exact .inr ⟨front ++ others, (List.append_assoc ..).symm⟩

/-- The document of a whole file has no parts, or it ends in a line break. Counterpart of
`Context.chunk`. -/
theorem chunk_eq_concat (context : Context) (node : Node) (body : List Printed) :
    ∃ docs, context.chunk node body = .concat docs ∧ EndsInBreak docs := by
  unfold Context.chunk
  refine ⟨_, rfl, (EndsInBreak.append ?_ ?_).append ?_⟩
  · cases context.shebang with
    | some token =>
      refine EndsInBreak.append (.inr ⟨[_], rfl⟩) ?_
      split
      · exact .inr ⟨[], rfl⟩
      · exact .inl rfl
    | none => exact .inl rfl
  · split
    · exact .inl rfl
    · exact .inr ⟨[_], rfl⟩
  · cases context.danglingLines? node with
    | some lines => exact .inr ⟨[_], rfl⟩
    | none => exact .inl rfl

/-- A word of documents that end in a line break ends in one at the outermost level. Counterpart of
`Doc.allSpell`. -/
theorem exists_of_allSpell_concat {mode : Mode} {docs : List Doc} {word : List Mark}
    (h : Doc.allSpell 0 mode (docs ++ [.hardLine]) word) :
    ∃ front, word = front ++ [.ink (.newline 0)] := by
  induction docs generalizing word with
  | nil =>
    obtain ⟨first, rest, rfl, rfl, rfl⟩ := h
    exact ⟨[], rfl⟩
  | cons doc docs ih =>
    obtain ⟨first, rest, rfl, -, hrest⟩ := h
    obtain ⟨front, rfl⟩ := ih hrest
    exact ⟨first ++ front, (List.append_assoc ..).symm⟩

end

/-! ## Texts -/

/-- The text holds a character that is no blank, and no line feed where it would be cut. -/
def Kind.Fills (kind : Kind) (text : List Char) : Prop :=
  (∃ c ∈ text, isBlank c = false) ∧ (kind.isVerbatim = true → '\n' ∉ text)

section
variable {source : List Char} {style : Style}

/-- A text of a plain kind with a character that is no blank fills its line. Counterpart of
`Kind.Fills`. -/
theorem fills_plain {kind : Kind} {text : List Char} (h : ∃ c ∈ text, isBlank c = false)
    (hplain : kind.isVerbatim = false) : kind.Fills text := by
  refine ⟨h, fun hverbatim => ?_⟩
  rw [hplain] at hverbatim
  cases hverbatim

/-- A text that starts with no blank fills its line, if it is not cut at line feeds. Counterpart of
`Kind.Fills`. -/
theorem fills_head {kind : Kind} {text : List Char} (h : ∃ c ∈ text.head?, isBlank c = false)
    (hline : kind.isVerbatim = true → '\n' ∉ text) : kind.Fills text := by
  obtain ⟨c, hc, hblank⟩ := h
  exact ⟨⟨c, List.mem_of_head? hc, hblank⟩, hline⟩

/-- A character that is no blank is not trimmed. Counterpart of `trimEnd`. -/
theorem mem_trimEnd {text : List Char} {c : Char} (hc : c ∈ text) (hblank : isBlank c = false) :
    c ∈ trimEnd text := by
  have hsplit := List.takeWhile_append_dropWhile (p := isBlank) (l := text.reverse)
  rw [trimEnd, List.mem_reverse]
  rw [← List.mem_reverse, ← hsplit, List.mem_append] at hc
  refine hc.resolve_left fun hmem => ?_
  rw [List.all_eq_true.1 List.all_takeWhile c hmem] at hblank
  cases hblank

/-- A text on one line is not cut. Counterpart of `verbatimText`. -/
theorem verbatimText_eq {text : List Char} (h : '\n' ∉ text) : verbatimText text = text := by
  rw [verbatimText, if_neg (by simpa using h)]

/-- Requoting adds no line feed. Counterpart of `requote`. -/
theorem newline_notMem_requote {quotes : QuoteStyle} {raw : List Char} (h : '\n' ∉ raw) :
    '\n' ∉ requote quotes raw := by
  unfold requote
  split
  · exact h
  · have hcontent : '\n' ∉ literalContent raw := fun hmem =>
      h (List.mem_of_mem_tail ((List.dropLast_subset _) hmem))
    have henclosing := quotes.enclosing_inner (literalContent raw)
    dsimp only
    intro hmem
    simp only [List.mem_cons, List.mem_append, List.not_mem_nil, or_false] at hmem
    rcases hmem with heq | hmem | heq
    · rcases henclosing with ⟨hquote, -⟩ | ⟨hquote, -⟩ <;> simp [← heq] at hquote
    · rcases mem_escapeQuotes hmem with hmem | heq
      · exact hcontent hmem
      · cases heq
    · rcases henclosing with ⟨hquote, -⟩ | ⟨hquote, -⟩ <;> simp [← heq] at hquote

/-- A requoted string starts with no blank. Counterpart of `requote`. -/
theorem head_requote {quotes : QuoteStyle} {raw : List Char}
    (h : ∃ c ∈ raw.head?, isBlank c = false) :
    ∃ c ∈ (requote quotes raw).head?, isBlank c = false := by
  unfold requote
  split
  · exact h
  · refine ⟨_, rfl, ?_⟩
    rcases quotes.enclosing_inner (literalContent raw) with ⟨hquote, -⟩ | ⟨hquote, -⟩ <;>
      (rw [hquote]; decide)

/-- The block comments of a program are closed. Counterpart of `Kind.unterminatedComment`. -/
theorem kind_ne_unterminatedComment (h : (parse source).isValid = true) :
    ∀ token ∈ tokenise source, token.kind ≠ .unterminatedComment := by
  intro token htoken hkind
  have hfaults : ((tokenise source).filter (·.kind = .unterminatedComment)).map
      (Fault.unterminatedComment ·.span) ++ _ = [] := List.isEmpty_iff.1 h
  have hnone := List.map_eq_nil_iff.1 (List.append_eq_nil_iff.1 hfaults).1
  exact absurd (decide_eq_true hkind) (List.filter_eq_nil_iff.1 hnone token htoken)

/-- A comment fills its line. Counterpart of `Kind.Fills`. -/
theorem fills_comment (h : (parse source).isValid = true)
    (hlines : ∀ token ∈ tokenise source, token.kind.isVerbatim = true → '\n' ∉ token.lexeme)
    {comment : Comment} (hcomment : comment ∈ (parse source).comments) :
    comment.kind.Fills comment.written := by
  obtain ⟨token, htoken, hkind, -, htext, hblock⟩ := exists_token_of_comment hcomment
  have hhead := isBlank_of_mem htoken fun hunknown => by rw [hunknown] at hkind; cases hkind
  rw [Comment.kind, Comment.written, htext]
  cases hisBlock : comment.isBlock with
  | false =>
    obtain ⟨c, hc, hblank⟩ := hhead
    exact fills_plain ⟨c, mem_trimEnd (List.mem_of_head? hc) hblank, hblank⟩ rfl
  | true =>
    have hclosed := kind_ne_unterminatedComment h token htoken
    have hline : '\n' ∉ token.lexeme := by
      refine hlines token htoken ?_
      cases hshape : token.kind <;> simp_all [Kind.isComment, Kind.isVerbatim]
    simp only [if_true]
    rw [verbatimText_eq hline]
    exact fills_head hhead fun _ => hline

/-- A shebang fills its line. Counterpart of `Kind.Fills`. -/
theorem fills_shebang {token : Token} (h : token ∈ (parse source).shebang) :
    Kind.shebang.Fills (trimEnd token.lexeme) := by
  have hfind : (tokenise source).find? (·.kind = .shebang) = some token := h
  have hkind : token.kind = .shebang := by simpa using List.find?_some hfind
  obtain ⟨c, hc, hblank⟩ := isBlank_of_mem (List.mem_of_find?_eq_some hfind) (by simp [hkind])
  exact fills_plain ⟨c, mem_trimEnd (List.mem_of_head? hc) hblank, hblank⟩ rfl

/-- A name fills its line. Counterpart of `isName`. -/
theorem fills_name {name : String} (h : isName name = true) :
    Kind.identifier.Fills name.toList := by
  unfold isName at h
  split at h
  · cases h
  · rename_i c rest hname
    simp only [Bool.and_eq_true] at h
    refine fills_plain ⟨c, ?_, isBlank_of_isWordStart h.1.1⟩ rfl
    rw [hname]
    exact List.mem_cons_self

/-- Everything that a program writes besides its tree fills its line. Counterpart of
`Context.Writes`. -/
theorem writes_fills (h : (parse source).isValid = true)
    (hlines : ∀ token ∈ tokenise source, token.kind.isVerbatim = true → '\n' ∉ token.lexeme) :
    (Context.ofProgram (parse source) style).Writes Kind.Fills where
  fixed kind hkind := by
    refine fills_head ?_ fun hverbatim => ?_
    · cases kind with
      | symbol mark => cases mark <;> exact ⟨_, rfl, by decide⟩
      | keyword word => cases word <;> exact ⟨_, rfl, by decide⟩
      | _ => cases hkind
    · cases kind with
      | symbol | keyword => cases hverbatim
      | _ => cases hkind
  name _ hname := fills_name hname
  comment _ hmem := fills_comment h hlines (mem_comments_of_mem_attachments hmem)
  shebang _ hmem := fills_shebang hmem

/-- Strings are the literals that are verbatim. Counterpart of `Kind.isVerbatim`. -/
theorem isVerbatim_of_literalKind? {kind : Kind} {literal : LiteralKind}
    (hkind : Parser.literalKind? kind = some literal)
    (hcut : literal = .string ∨ literal = .longString) : kind.isVerbatim = true := by
  cases kind with
  | string | longString => rfl
  | keyword word => rcases hcut with rfl | rfl <;> cases word <;> cases hkind
  | symbol mark => rcases hcut with rfl | rfl <;> cases mark <;> cases hkind
  | _ => rcases hcut with rfl | rfl <;> cases hkind

/-- The texts of the leaves of a tree fill their lines. Counterpart of `Shape.HasText`. -/
theorem fills_leaf
    (hlines : ∀ token ∈ tokenise source, token.kind.isVerbatim = true → '\n' ∉ token.lexeme)
    {part : Node} (hpart : part.Part (parse source).root) :
    part.shape.HasText style Kind.Fills := by
  have htokens : ∀ token, (parse source).HasToken token → token.kind ≠ .endOfFile →
      token ∈ tokenise source := by
    rintro token (hmem | rfl) hkind
    · exact (List.mem_filter.1 hmem).1
    · exact absurd rfl hkind
  have hread := isReadFrom_of_part hpart
  cases hshape : part.shape with
  | identifier name =>
    rw [hshape] at hread
    obtain ⟨token, htoken, hkind, rfl⟩ := hread
    show Kind.identifier.Fills (Parser.textOf token).toList
    rw [Parser.textOf, String.toList_ofList]
    obtain ⟨c, hc, hblank⟩ :=
      isBlank_of_mem (htokens token htoken (by simp [hkind])) (by simp [hkind])
    exact fills_plain ⟨c, List.mem_of_head? hc, hblank⟩ rfl
  | literal kind text =>
    rw [hshape] at hread
    obtain ⟨token, htoken, hkind, rfl⟩ := hread
    have hmem := htokens token htoken fun heq => by rw [heq] at hkind; cases hkind
    have hhead := isBlank_of_mem hmem fun heq => by rw [heq] at hkind; cases hkind
    have hline : kind = .string ∨ kind = .longString → '\n' ∉ token.lexeme := by
      intro hcut
      exact hlines token hmem (isVerbatim_of_literalKind? hkind hcut)
    have htext : (Parser.textOf token).toList = token.lexeme := String.toList_ofList
    cases kind with
    | string =>
      have hquoted : '\n' ∉ requote style.quotes token.lexeme :=
        newline_notMem_requote (hline (.inl rfl))
      simp only [Shape.HasText, literalSlot, Slot.HasText, htext, verbatimText_eq hquoted]
      exact fills_head (head_requote hhead) fun _ => hquoted
    | longString =>
      simp only [Shape.HasText, literalSlot, Slot.HasText, htext,
        verbatimText_eq (hline (.inr rfl))]
      exact fills_head hhead fun _ => hline (.inr rfl)
    | _ =>
      obtain ⟨c, hc, hblank⟩ := hhead
      simp only [Shape.HasText, literalSlot, Slot.HasText, htext]
      exact fills_plain ⟨c, List.mem_of_head? hc, hblank⟩ rfl
  | _ => trivial

end

/-! ## Words of roomy slots -/

section
variable {room : Nat} {word : List Mark}

/-- A text leaves room for two line breaks after it. Counterpart of `Spaced`. -/
theorem spaced_text (isNote : Bool) (text : List Char) (hword : Spaced 2 word) :
    Spaced 2 (Mark.ofInks (Ink.ofText isNote text) ++ word) := by
  induction text with
  | nil => exact hword
  | cons c rest ih =>
    cases hblank : isBlank c with
    | false => exact .solid hblank ih
    | true => exact .blank hblank ih

/-- A text that is not blank needs no room for line breaks before it. Counterpart of
`Ink.ofText`. -/
theorem spaced_text_of_mem (isNote : Bool) {text : List Char} (h : ∃ c ∈ text, isBlank c = false)
    (hword : Spaced 2 word) : Spaced room (Mark.ofInks (Ink.ofText isNote text) ++ word) := by
  induction text with
  | nil => simp at h
  | cons c rest ih =>
    cases hblank : isBlank c with
    | false => exact .solid hblank (spaced_text isNote rest hword)
    | true =>
      refine .blank hblank (ih ?_)
      obtain ⟨d, hd, hsolid⟩ := h
      rcases List.mem_cons.1 hd with rfl | hd
      · rw [hblank] at hsolid
        cases hsolid
      · exact ⟨d, hd, hsolid⟩

/-- A token that fills its line leaves room for two line breaks after it. Counterpart of
`Kind.marks`. -/
theorem spaced_marks {kind : Kind} {text : List Char} (h : kind.Fills text)
    (hline : kind.OneLine text) (hword : Spaced 2 word) :
    Spaced room (kind.marks text ++ word) := by
  have hnewline : '\n' ∉ text := by
    cases hverbatim : kind.isVerbatim with
    | false => exact hline hverbatim
    | true => exact h.2 hverbatim
  rw [marks_of_not_mem hnewline]
  exact spaced_text_of_mem kind.isNote h.1 hword

/-- As many line breaks as there is room for are spaced. Counterpart of `Spaced`. -/
theorem spaced_newlines (levels : List Nat) (h : levels.length ≤ room) (hword : Spaced 0 word) :
    Spaced room (levels.map (fun level => .ink (.newline level)) ++ word) := by
  induction levels generalizing room with
  | nil => exact hword.mono (Nat.zero_le room)
  | cons level rest ih =>
    obtain ⟨less, rfl⟩ : ∃ less, room = less + 1 := ⟨room - 1, by simp at h; omega⟩
    exact .newline (ih (by simpa using h))

/-- Pieces that fill in roomy slots are written as a spaced word. Counterpart of `Roomy`. -/
theorem spaced_of_roomy {slots : List Slot} {pieces : List Piece} (h : Roomy room slots)
    (hroom : room ≤ 2) (hfills : HasTexts Kind.Fills slots) (hlines : HasTexts Kind.OneLine slots)
    (hpieces : Resolves slots pieces) : Spaced room (pieces.flatMap Piece.marks) := by
  induction slots generalizing room pieces with
  | nil =>
    obtain rfl := hpieces
    exact .nil h
  | cons slot rest ih =>
    obtain ⟨front, back, rfl, hfront, hback⟩ := hpieces
    obtain ⟨hfill, hfills⟩ := hasTexts_cons.1 hfills
    obtain ⟨hline, hlines⟩ := hasTexts_cons.1 hlines
    have hrest : ∀ {room}, Roomy room rest → room ≤ 2 → Spaced room (back.flatMap Piece.marks) :=
      fun hrest hroom => ih hrest hroom hfills hlines hback
    have hspace : Roomy room rest →
        Spaced room (([Piece.space] ++ back).flatMap Piece.marks) :=
      fun h => .blank rfl (hrest h hroom)
    have hnewline : ∀ level, 1 ≤ room ∧ Roomy (room - 1) rest →
        Spaced room (([Piece.newline level] ++ back).flatMap Piece.marks) := by
      rintro level ⟨hpos, h⟩
      obtain ⟨less, rfl⟩ : ∃ less, room = less + 1 := ⟨room - 1, by omega⟩
      exact .newline (hrest h (by omega))
    have hless : 1 ≤ room ∧ Roomy (room - 1) rest → Roomy room rest :=
      fun h => h.2.mono (Nat.sub_le room 1)
    have htoken : ∀ {kind : Kind} {text : List Char}, kind.Fills text → kind.OneLine text →
        Roomy 2 rest → Spaced room (([Piece.token kind text] ++ back).flatMap Piece.marks) :=
      fun hfill hline h => spaced_marks hfill hline (hrest h (Nat.le_refl 2))
    cases slot with
    | token kind text =>
      obtain rfl := hfront
      exact htoken hfill hline h
    | space =>
      obtain rfl := hfront
      exact hspace h
    | gap =>
      obtain rfl | ⟨level, rfl⟩ := hfront
      · exact hspace (hless h)
      · exact hnewline level h
    | soft =>
      obtain rfl | ⟨level, rfl⟩ := hfront
      · exact hrest (hless h) hroom
      · exact hnewline level h
    | pad =>
      obtain rfl | rfl | ⟨level, rfl⟩ := hfront
      · exact hrest (hless h) hroom
      · exact hspace (hless h)
      · exact hnewline level h
    | hard =>
      obtain ⟨level, rfl⟩ := hfront
      exact hnewline level h
    | comma =>
      obtain rfl | rfl := hfront
      · exact (hrest h.2 (Nat.le_refl 2)).mono h.1
      · exact htoken hfill hline h.2
    | later breaks kind text =>
      obtain ⟨levels, rfl, rfl⟩ := hfront
      obtain ⟨htwo, hbreaks, h⟩ := h
      have htext : Spaced 0 (kind.marks text) := by
        rw [← List.append_nil (kind.marks text)]
        exact spaced_marks hfill hline (.nil (Nat.le_refl 2))
      refine .later htwo ?_ (hrest h hroom)
      split
      · exact .blank rfl (htext.mono (by omega))
      · exact spaced_newlines levels hbreaks htext

end

section
variable {source : List Char}

/-- The spelling of a whole program is that of its statements, with no comments around them.
Counterpart of `spell`. -/
theorem spell_root (h : (parse source).isValid = true) (style : Style) :
    let context := Context.ofProgram (parse source) style
    spell context {} (parse source).root = context.chunkSlots (parse source).root
      ((parse source).root.children.map fun child => ⟨child, spell context {} child⟩) := by
  intro context
  have hleading : context.placed (parse source).root .leading = [] :=
    placed_root h style (by decide)
  have htrailing : context.placed (parse source).root .trailing = [] :=
    placed_root h style (by decide)
  rw [spell_eq, Context.commented, hleading, htrailing]
  exact List.append_nil _

/-- The document of a whole program ends in a line break, if it has any parts. Counterpart of
`Program.toDoc`. -/
theorem exists_toDoc (h : (parse source).isValid = true) (style : Style) :
    ∃ docs, (parse source).toDoc style = .concat docs ∧ EndsInBreak docs := by
  let context := Context.ofProgram (parse source) style
  have hbare : (parse source).toDoc style = context.chunk (parse source).root
      ((parse source).root.children.map fun child => ⟨child, compile context {} child⟩) := by
    have hleading : ((context.owned (parse source).root).filter (·.placement = .leading)).map
        Attachment.comment = [] := placed_root h style (by decide)
    have htrailing : ((context.owned (parse source).root).filter (·.placement = .trailing)).map
        Attachment.comment = [] := placed_root h style (by decide)
    rw [Program.toDoc, compile_eq, Context.withComments, hleading, htrailing]
    rfl
  rw [hbare]
  exact chunk_eq_concat context _ _

/-- The spelling of a whole program is empty or ends in a line break that needs no more room.
Counterpart of `Context.chunkSlots`. -/
theorem roomy_root (h : (parse source).isValid = true) (style : Style) :
    spell (.ofProgram (parse source) style) {} (parse source).root = [] ∨
      ∃ slots, spell (.ofProgram (parse source) style) {} (parse source).root = slots ++ [.hard] ∧
        Roomy 0 slots := by
  rw [spell_root h style]
  refine roomy_chunkSlots ?_ ?_ <;> intro statement hstatement <;>
    obtain ⟨child, hchild, rfl⟩ := List.mem_map.1 hstatement
  · exact isUnreadStatement_children h (.self _) child hchild
  · exact roomy_spell h style {} child (.of_mem_children hchild)
      (Node.size_lt_of_mem_children hchild)

/-- The trace of a program that holds no line feed in a string or a comment is empty, or it ends in
a line break and is spaced up to there. Counterpart of `traceOf`. -/
theorem spaced_traceOf (h : (parse source).isValid = true)
    (hlines : ∀ token ∈ tokenise source, token.kind.isVerbatim = true → '\n' ∉ token.lexeme)
    (style : Style) :
    let inks := traceOf style ((parse source).toDoc style)
    inks = [] ∨ ∃ front, inks = front ++ [.newline 0] ∧ Spaced 0 (Mark.ofInks front) ∧
      ∀ ink ∈ front, ink.IsPlain := by
  obtain ⟨word, hword, hflushed⟩ := flushed_traceOf style ((parse source).toDoc style)
  obtain ⟨pieces, hpieces, rfl⟩ := implements_compile _ {} (parse source).root .broken 0 word hword
  obtain ⟨docs, hdocs, rfl | ⟨front, rfl⟩⟩ := exists_toDoc h style
  · rw [hdocs] at hword
    have hnil : pieces.flatMap Piece.marks = [] := hword
    exact .inl (Flushed.eq_nil (hnil ▸ hflushed))
  rw [hdocs] at hword
  obtain ⟨marks, hmarks⟩ := exists_of_allSpell_concat hword
  obtain hnil | ⟨slots, hslots, hroomy⟩ := roomy_root h style
  · rw [hnil] at hpieces
    obtain rfl : pieces = [] := hpieces
    simp at hmarks
  have hfills := hasTexts_spell (@writes_fills source style h hlines) {} (parse source).root
    fun part hpart => fills_leaf hlines hpart
  have honeLine := hasTexts_oneLine source style
  rw [hslots] at hpieces hfills honeLine
  obtain ⟨inner, last, rfl, hinner, hlast⟩ := resolves_append.1 hpieces
  obtain ⟨_, _, rfl, ⟨level, rfl⟩, rfl⟩ := hlast
  -- The last piece is the line break that the document ends with.
  have hwhole : (inner ++ ([Piece.newline level] ++ [])).flatMap Piece.marks =
      inner.flatMap Piece.marks ++ [.ink (.newline level)] := by
    simp [Piece.marks]
  rw [hwhole] at hmarks hflushed
  obtain ⟨rfl, hlevel⟩ := List.append_inj' hmarks rfl
  cases hlevel
  obtain ⟨before, after, hinks, hbefore, hafter⟩ := hflushed.split rfl
  obtain rfl := hafter.eq_nil
  have hspaced : Spaced 0 (inner.flatMap Piece.marks) :=
    spaced_of_roomy hroomy (Nat.zero_le 2) (hasTexts_append.1 hfills).1
      (hasTexts_append.1 honeLine).1 hinner
  exact .inr ⟨before, hinks,
    hbefore.spaced (Nat.zero_le 2) (fun hne => absurd rfl hne) (.nil (Nat.le_refl 2)) hspaced,
    hbefore.inked .nil (inked_pieces (hasTexts_append.1 honeLine).1 hinner)⟩

end

/-- The output of a program that holds no line feed in a string or a comment, in any style: it is
empty, or it consists of lines with a line ending after each, of which neither the first nor the
last is blank and no two in a row are, and none ends in a space or a tab. Counterpart of
`format`. -/
theorem tidyLines_format {source : List Char} (h : (parse source).isValid = true)
    (hlines : ∀ token ∈ tokenise source, token.kind.isVerbatim = true → '\n' ∉ token.lexeme)
    (style : Style) :
    ∃ lines, format source style = lines.flatMap (· ++ style.lineEnding.text) ∧
      TidyLines lines := by
  have hformat : format source style =
      render style (traceOf style ((parse source).toDoc style)) := Doc.layout_eq_render style _
  rw [hformat]
  obtain hnil | ⟨front, hfront, hspaced, hplain⟩ := spaced_traceOf h hlines style
  · rw [hnil]
    exact ⟨[], rfl, tidyLines_nil⟩
  · rw [hfront]
    exact exists_tidyLines style hspaced hplain

/-- Blank lines meet after the first comment of this program, which is put off to the end of its
line, and before the second. -/
theorem tidyLines_format_comments :
    (parse "f() -- a\n\n\n\n-- b\n\ng()".toList).isValid = true ∧
      (∀ token ∈ tokenise "f() -- a\n\n\n\n-- b\n\ng()".toList,
        token.kind.isVerbatim = true → '\n' ∉ token.lexeme) ∧
      ∃ lines, format "f() -- a\n\n\n\n-- b\n\ng()".toList {} =
          lines.flatMap (· ++ LineEnding.lineFeed.text) ∧ TidyLines lines := by
  have hvalid : (parse "f() -- a\n\n\n\n-- b\n\ng()".toList).isValid = true := by decide +kernel
  have hlines : ∀ token ∈ tokenise "f() -- a\n\n\n\n-- b\n\ng()".toList,
      token.kind.isVerbatim = true → '\n' ∉ token.lexeme := by decide +kernel
  exact ⟨hvalid, hlines, tidyLines_format hvalid hlines {}⟩

end LuaFormatter
