import LuaFormatter.Proofs.Spelling.Spell
import Mathlib.Data.List.Forall2

/-!
# Documents of parts

The functions that write texts, lists, comments, statements and values, and the slots that their
documents implement. Each lemma is about one function, over any slots that the documents of its
parts implement; `Prints` ties what is printed for a node to its slots.
-/

namespace LuaFormatter

open Layout

/-! ## Texts -/

section
variable {kind : Kind} {slots : List Slot}

/-- A line holds no line feed. Counterpart of `List.splitOn`. -/
theorem not_mem_of_mem_splitOn {content line : List Char} (h : line ∈ content.splitOn '\n') :
    '\n' ∉ line := by
  induction content generalizing line with
  | nil => simp_all
  | cons c rest ih =>
    rw [List.splitOn, List.splitOnP_cons_eq_if_modifyHead] at h
    split at h
    · rcases List.mem_cons.1 h with rfl | h
      · simp
      · exact ih h
    · rename_i hc
      have hne : '\n' ≠ c := by
        rintro rfl
        simp at hc
      cases hsplit : rest.splitOnP (· == '\n') with
      | nil => simp [hsplit] at h
      | cons first others =>
        rw [hsplit, List.modifyHead_cons] at h
        rcases List.mem_cons.1 h with rfl | h
        · have hfirst : '\n' ∉ first := ih (by rw [List.splitOn, hsplit]; simp)
          simp [hfirst, hne]
        · exact ih (by rw [List.splitOn, hsplit]; simp [h])

/-- The letters of two texts of one kind. Counterpart of `Kind.marks`. -/
theorem marks_append (kind : Kind) (front back : List Char) :
    kind.marks (front ++ back) = kind.marks front ++ kind.marks back := by
  simp [Kind.marks]

/-- A text that is not printed as it stands is written letter by letter. Counterpart of
`Kind.marks`. -/
theorem marks_of_not_verbatim (h : kind.isVerbatim = false) (text : List Char) :
    kind.marks text = Mark.ofInks (Ink.ofText kind.isNote text) := by
  simp [Kind.marks, Mark.ofInks, Ink.ofText, h]

/-- A text on one line is written letter by letter. Counterpart of `Kind.marks`. -/
theorem marks_of_not_mem {text : List Char} (h : '\n' ∉ text) :
    kind.marks text = Mark.ofInks (Ink.ofText kind.isNote text) := by
  simp only [Kind.marks, Mark.ofInks, Ink.ofText, List.map_map, Function.comp_def]
  refine List.map_congr_left fun c hc => ?_
  rw [if_neg]
  rintro ⟨-, rfl⟩
  exact h hc

/-- A text spells pieces that are written with its characters. Counterpart of `Doc.text`. -/
theorem Implements.text {content : String} (pieces : List Piece) (hpieces : Resolves slots pieces)
    (hmarks : pieces.flatMap Piece.marks = Mark.ofInks (Ink.ofText false content.toList)) :
    Implements (.text content) slots := by
  rintro mode level word rfl
  exact ⟨pieces, hpieces, hmarks.symm⟩

/-- A text that is one token. Counterpart of `Doc.text`. -/
theorem Implements.token {content : String} (hverbatim : kind.isVerbatim = false)
    (hnote : kind.isNote = false) : Implements (.text content) [.token kind content.toList] := by
  refine .text [.token kind content.toList] ⟨_, [], rfl, rfl, rfl⟩ ?_
  simp [Piece.marks, marks_of_not_verbatim hverbatim, hnote]

/-- A note is one token. Counterpart of `Doc.note`. -/
theorem Implements.note {content : List Char} (hnote : kind.isNote = true) :
    Implements (.note (String.ofList content)) [.token kind content] := by
  rintro mode level word rfl
  have hverbatim : kind.isVerbatim = false := by
    cases kind <;> simp_all [Kind.isNote, Kind.isVerbatim]
  refine ⟨[.token kind content], ⟨_, [], rfl, rfl, rfl⟩, ?_⟩
  simp [Piece.marks, marks_of_not_verbatim hverbatim, hnote]

/-- Lines with literal line breaks between them are written as one token that holds line breaks.
Counterpart of `Doc.literalLine`. -/
theorem allSpell_lines (hverbatim : kind.isVerbatim = true) (hnote : kind.isNote = false)
    {lines : List (List Char)} (hlines : ∀ line ∈ lines, '\n' ∉ line) {level : Nat} {mode : Mode}
    {word : List Mark}
    (h : Doc.allSpell level mode
      ((lines.map fun line => Doc.text (String.ofList line)).intersperse .literalLine) word) :
    word = kind.marks (['\n'].intercalate lines) := by
  induction lines generalizing word with
  | nil => exact h
  | cons line lines ih =>
    have hline : kind.marks line = Mark.ofInks (Ink.ofText false line) := by
      rw [marks_of_not_mem (hlines line (by simp)), hnote]
    cases lines with
    | nil =>
      obtain ⟨_, _, rfl, rfl, rfl⟩ := h
      simp [hline, List.intercalate]
    | cons next lines =>
      obtain ⟨_, _, rfl, rfl, _, rest, rfl, rfl, hrest⟩ := h
      have hword := ih (fun line hmem => hlines line (by simp [hmem])) hrest
      have hlast : ['\n'].intercalate (line :: next :: lines) =
          line ++ '\n' :: ['\n'].intercalate (next :: lines) := by
        simp [List.intercalate]
      rw [hlast, marks_append, hline, hword]
      simp [Kind.marks, hverbatim]

/-- A text that is printed as it is makes one token. Counterpart of `Doc.verbatim`. -/
theorem implements_verbatim (hverbatim : kind.isVerbatim = true) (hnote : kind.isNote = false)
    (content : List Char) :
    Implements (Doc.verbatim content) [.token kind (verbatimText content)] := by
  refine .single fun level mode word hword => ⟨[.token kind (verbatimText content)], rfl, ?_⟩
  rw [List.flatMap_singleton, Piece.marks]
  unfold Doc.verbatim at hword
  unfold verbatimText
  split at hword
  · rename_i hbreak
    have hlines : Doc.allSpell level mode
        ((((content.splitOn '\n').map stripReturn).map fun line =>
          Doc.text (String.ofList line)).intersperse .literalLine) word := by
      rw [List.map_map]
      exact hword
    rw [if_pos hbreak]
    refine allSpell_lines hverbatim hnote ?_ hlines
    intro line hmem
    obtain ⟨whole, hwhole, rfl⟩ := List.mem_map.1 hmem
    have hfree := not_mem_of_mem_splitOn hwhole
    unfold stripReturn
    split
    · exact fun h => hfree (List.dropLast_subset _ h)
    · exact hfree
  · rename_i hbreak
    rw [if_neg hbreak, marks_of_not_mem (by simpa using hbreak), hnote]
    simpa [Doc.spells] using hword

/-- A literal implements its token, requoted if it is a string. Counterpart of `literalDoc`. -/
theorem implements_literalDoc (style : Style) (kind : LiteralKind) (text : String) :
    Implements (literalDoc style kind text) [literalSlot style kind text] := by
  cases kind with
  | string | longString => exact implements_verbatim rfl rfl _
  | number | boolean | nil | vararg => exact .token rfl rfl

end

/-! ## Lists -/

section
variable {mode : Mode} {separator : Doc} {docs : List Doc} {middle : List Slot}
  {lists : List (List Slot)}

/-- Documents with a separator between them implement their slots, in one mode. Counterpart of
`Doc.join`. -/
theorem implementsIn_join (hseparator : ImplementsIn mode separator middle)
    (h : List.Forall₂ (ImplementsIn mode) docs lists) :
    ImplementsIn mode (Doc.join separator docs) (middle.intercalate lists) := by
  refine .concat ?_
  induction h with
  | nil => exact .nil
  | cons hfirst hrest ih =>
    cases hrest with
    | nil => exact .cons hfirst .nil
    | cons hnext hothers => exact .cons hfirst (.cons hseparator ih)

/-- Documents with a separator between them implement their slots. Counterpart of `Doc.join`. -/
theorem implements_join (hseparator : Implements separator middle)
    (h : List.Forall₂ Implements docs lists) :
    Implements (Doc.join separator docs) (middle.intercalate lists) :=
  fun mode => implementsIn_join (hseparator mode) (h.imp fun _ _ hdoc => hdoc mode)

/-- A space implements a space. Counterpart of `Slot.space`. -/
theorem implements_space : Implements (.text " ") [.space] :=
  .text [.space] ⟨_, [], rfl, rfl, rfl⟩ rfl

/-- The text of a symbol implements its token. Counterpart of `Slot.symbol`. -/
theorem implements_symbol (mark : Symbol) : Implements (.text mark.text) [.symbol mark] :=
  .token rfl rfl

/-- The text of a keyword implements its token. Counterpart of `Slot.keyword`. -/
theorem implements_keyword (word : Keyword) : Implements (.text word.text) [.keyword word] :=
  .token rfl rfl

/-- A comma and a line that may be broken implement a comma and a gap. Counterpart of
`Doc.commaLine`. -/
theorem implements_commaLine : Implements Doc.commaLine [.symbol .comma, .gap] :=
  .cat (.slot (implements_symbol .comma) (.one .line))

end

/-! ## Comments -/

section
variable {context : Context} {comment : Comment} {node : Node} {doc : Doc} {slots : List Slot}

/-- The text of a comment implements its slot. Counterpart of `Context.commentText`. -/
theorem implements_commentText (comment : Comment) :
    Implements (Context.commentText comment) [comment.slot] := by
  unfold Context.commentText Comment.slot Comment.kind Comment.written
  cases comment.isBlock with
  | true => exact implements_verbatim rfl rfl _
  | false => exact .note rfl

/-- The text of a comment can be written in one way only. Counterpart of `Context.commentText`. -/
theorem eq_marks_of_spells_commentText {level : Nat} {mode : Mode} {word : List Mark}
    (h : (Context.commentText comment).spells level mode word) :
    word = comment.kind.marks comment.written := by
  obtain ⟨_, ⟨_, _, rfl, rfl, rfl⟩, rfl⟩ := implements_commentText comment mode level word h
  simp [Piece.marks]

/-- A comment before a node implements its slots. Counterpart of `Context.leadingComment`. -/
theorem implements_leadingComment (context : Context) (comment : Comment) :
    ImplementAll (context.leadingComment comment) (context.leadingSlots comment) := by
  unfold Context.leadingComment Context.leadingSlots
  refine .cons (.cat (.slot (implements_commentText comment) (.one ?_))) ?_
  · split
    · exact implements_space
    · exact .hardLine
  · split
    · exact .one .hardLine
    · exact .nil

/-- A comment after a node implements its slots. Counterpart of `Context.trailingComment`. -/
theorem implements_trailingComment (context : Context) (comment : Comment) :
    Implements (context.trailingComment comment) (context.trailingSlots comment) := by
  unfold Context.trailingComment Context.trailingSlots
  split
  · refine .single fun level mode word hword => ?_
    obtain ⟨marks, rfl, hmarks⟩ := hword
    obtain ⟨_, _, rfl, rfl, _, _, rfl, hblank, _, _, rfl, htext, rfl⟩ := hmarks
    rw [eq_marks_of_spells_commentText htext]
    split at hblank
    · rename_i hprevious
      obtain rfl := hblank
      refine ⟨[.later [level, level] comment.kind comment.written], ⟨[level, level], ?_, rfl⟩, ?_⟩
      · rw [if_pos hprevious]
        rfl
      · simp [Piece.marks]
    · rename_i hprevious
      obtain rfl := hblank
      refine ⟨[.later [level] comment.kind comment.written], ⟨[level], ?_, rfl⟩, ?_⟩
      · rw [if_neg hprevious]
        rfl
      · simp [Piece.marks]
  · split
    · exact .cat (.slot implements_space
        (.one (implements_commentText comment)))
    · refine .cat (.slot ?_ (.one .breakParent))
      refine .single fun level mode word hword => ?_
      obtain ⟨marks, rfl, hmarks⟩ := hword
      obtain ⟨_, _, rfl, rfl, _, _, rfl, htext, rfl⟩ := hmarks
      rw [eq_marks_of_spells_commentText htext]
      refine ⟨[.later [] comment.kind comment.written], ⟨[], rfl, rfl⟩, ?_⟩
      simp [Piece.marks, Mark.ofInks, Ink.ofText]

/-- The documents of some items implement their slots one after the other. Counterpart of
`ImplementAll`. -/
theorem ImplementAll.flatMap {α : Type} {items : List α} {docs : α → List Doc}
    {slots : α → List Slot} (h : ∀ item ∈ items, ImplementAll (docs item) (slots item)) :
    ImplementAll (items.flatMap docs) (items.flatMap slots) := by
  induction items with
  | nil => exact .nil
  | cons item items ih =>
    exact .append (h item (by simp)) (ih fun item hmem => h item (by simp [hmem]))

/-- A node with its comments implements its slots between theirs. Counterpart of
`Context.withComments`. -/
theorem implements_withComments (h : Implements doc slots) :
    Implements (context.withComments node doc) (context.commented node slots) := by
  unfold Context.withComments Context.commented
  dsimp only
  split
  · rename_i hnone
    obtain ⟨hleading, htrailing⟩ := Bool.and_eq_true_iff.1 hnone
    unfold Context.placed
    rw [List.isEmpty_iff.1 hleading, List.isEmpty_iff.1 htrailing]
    simpa using h
  · rw [List.append_assoc]
    refine .concat (.append (.flatMap fun comment _ =>
        implements_leadingComment context comment) ?_)
    refine .cons h ?_
    rw [List.map_eq_flatMap]
    exact .flatMap fun comment _ => .one (implements_trailingComment context comment)

/-- Comments one below the other, or on one line. Counterpart of `Doc.join`. -/
theorem implementsIn_comments {mode : Mode} {separator : Doc} {slot : Slot}
    (h : ImplementsIn mode separator [slot]) (comments : List Comment) :
    ImplementsIn mode (Doc.join separator (comments.map Context.commentText))
      ([slot].intercalate (comments.map fun comment => [comment.slot])) := by
  refine implementsIn_join h ?_
  rw [List.forall₂_map_left_iff, List.forall₂_map_right_iff, List.forall₂_same]
  exact fun comment _ => implements_commentText comment mode

/-- Empty parentheses implement theirs, with comments between them. Counterpart of
`Context.emptyParens`. -/
theorem implements_emptyParens (context : Context) (node : Node) :
    Implements (context.emptyParens node) (context.emptyParensSlots node) := by
  unfold Context.emptyParens Context.emptyParensSlots
  cases context.danglingComments node true with
  | nil =>
    exact .text [.token (.symbol .leftParen) ['('], .token (.symbol .rightParen) [')']]
      ⟨[_], [_], rfl, rfl, [_], [], rfl, rfl, rfl⟩ rfl
  | cons first others =>
    dsimp only
    cases (first :: others).any fun comment => !comment.isBlock with
    | true =>
      -- A line comment breaks the group, so every line inside is a line break.
      refine .brokenGroup (.cat (.slot (implements_symbol .leftParen _) ?_))
      exact .lead
        (.indented (.slot .brokenSoftLine (.one (implementsIn_comments .brokenLine _))))
        (.slot .brokenSoftLine (.one (implements_symbol .rightParen _)))
    | false =>
      refine .groupedIf (.slot (implements_symbol .leftParen) ?_)
      exact .lead
        (.indented (.slot .softLine
          (.one fun mode => implementsIn_comments (Implements.line mode) _)))
        (.slot .softLine (.one (implements_symbol .rightParen)))

/-- Comments inside a node implement a line each. Counterpart of `Context.danglingLines?`. -/
theorem implements_danglingLines {context : Context} {node : Node} {lines : Doc}
    (h : context.danglingLines? node = some lines) :
    Implements lines (Context.lineSlots (context.danglingComments node false)) := by
  unfold Context.danglingLines? at h
  split at h
  · cases h
  · rename_i hcomments
    cases h
    exact fun mode => implementsIn_comments (Implements.hardLine mode) _

/-- The comments inside a node, if there are some. Counterpart of `Context.danglingBlock?`. -/
theorem implements_danglingBlock {context : Context} {node : Node} {block : Doc}
    (h : context.danglingBlock? node = some block) :
    Implements block (context.danglingSlots node) ∧
      context.danglingComments node false ≠ [] := by
  obtain ⟨lines, hlines, rfl⟩ := Option.map_eq_some_iff.1 h
  have hblock := implements_danglingLines hlines
  have hnonempty : context.danglingComments node false ≠ [] := by
    intro hnil
    simp [Context.danglingLines?, hnil] at hlines
  refine ⟨?_, hnonempty⟩
  unfold Context.danglingSlots
  split
  · contradiction
  · exact .indented (.slot .hardLine (.one hblock))

/-- A node without a block of comments has none inside it. Counterpart of
`Context.danglingBlock?`. -/
theorem danglingBlock_eq_none {context : Context} {node : Node}
    (h : context.danglingBlock? node = none) : context.danglingComments node false = [] := by
  have hlines := Option.map_eq_none_iff.1 h
  unfold Context.danglingLines? at hlines
  split at hlines
  · assumption
  · cases hlines

end

/-! ## Statements and values -/

/-- What is printed for a node implements its slots. -/
structure Prints (printed : Printed) (spelled : Spelled) : Prop where
  node_eq : printed.node = spelled.node
  doc_implements : Implements printed.doc spelled.slots

section
variable {context : Context} {printed : List Printed} {spelled : List Spelled}

/-- Statements with their semicolons implement their slots. Counterpart of `Context.separated`. -/
theorem implements_separated (h : List.Forall₂ Prints printed spelled) :
    List.Forall₂ Implements (context.separated printed) (context.separatedSlots spelled) := by
  induction h with
  | nil => exact .nil
  | @cons statement slots printed spelled hfirst hrest ih =>
    cases hrest with
    | nil => exact .cons hfirst.doc_implements .nil
    | cons hnext hothers =>
      refine .cons (.cat (.cons hfirst.doc_implements (.cons ?_ (.one ?_)))) ih
      · rw [hfirst.node_eq, hnext.node_eq]
        split
        · exact implements_symbol .semicolon
        · exact .empty
      · rw [hfirst.node_eq]
        split
        · exact .hardLine
        · exact .empty

/-- Documents that are printed implement the slots of the nodes that are kept. Counterpart of
`Prints`. -/
theorem prints_filter (keep : Node → Bool) (h : List.Forall₂ Prints printed spelled) :
    List.Forall₂ Prints (printed.filter (keep ·.node)) (spelled.filter (keep ·.node)) := by
  induction h with
  | nil => exact .nil
  | cons hfirst _ ih =>
    rw [List.filter_cons, List.filter_cons, hfirst.node_eq]
    split
    · exact .cons hfirst ih
    · exact ih

/-- Statements on lines of their own implement their slots. Counterpart of `Context.statements`. -/
theorem implements_statements (h : List.Forall₂ Prints printed spelled) :
    Implements (context.statements printed) (context.statementSlots spelled) :=
  implements_join .hardLine
    (implements_separated (prints_filter (fun node => !node.isUnreadStatement) h))

/-- The body of a node is spelled by its slots; it is missing if there are none. Counterpart of
`Context.body?`. -/
theorem implements_body (context : Context) (node : Node)
    (h : List.Forall₂ Prints printed spelled) :
    match context.body? node printed with
    | some body => Implements body (context.bodySlots node spelled) ∧ context.hasBody node spelled
    | none => context.bodySlots node spelled = [] ∧ ¬context.hasBody node spelled := by
  unfold Context.body? Context.bodySlots Context.hasBody
  dsimp only
  cases hblock : context.danglingBlock? node with
  | none =>
    have hcomments := danglingBlock_eq_none hblock
    have hdangling : context.danglingSlots node = [] := by
      simp [Context.danglingSlots, hcomments]
    cases h with
    | nil => simp [hdangling, hcomments]
    | cons hfirst hrest =>
      rw [hdangling]
      exact ⟨.indented (.slot .hardLine (.one (implements_statements (.cons hfirst hrest)))), rfl⟩
  | some block =>
    obtain ⟨himplements, hcomments⟩ := implements_danglingBlock hblock
    cases h with
    | nil => simpa [hcomments] using himplements
    | cons hfirst hrest =>
      exact ⟨.cat (.cons himplements (.one
        (.indented (.slot .hardLine (.one (implements_statements (.cons hfirst hrest))))))), rfl⟩

/-- A body with its closing keyword implements its slots. Counterpart of `Context.bodyAndEnd`. -/
theorem implements_bodyAndEnd (context : Context) (node : Node)
    (h : List.Forall₂ Prints printed spelled) :
    Implements (context.bodyAndEnd node printed) (context.bodyEndSlots node spelled) := by
  have hbody := implements_body context node h
  unfold Context.bodyAndEnd Context.bodyEndSlots
  cases hdoc : context.body? node printed with
  | some body =>
    rw [hdoc] at hbody
    rw [if_pos hbody.2]
    exact .cat (.cons hbody.1 (.slot .hardLine (.one (implements_keyword .endK))))
  | none =>
    rw [hdoc] at hbody
    rw [if_neg hbody.2, hbody.1]
    exact .text [.space, .token (.keyword .endK) ['e', 'n', 'd']]
      ⟨[_], [_], rfl, rfl, [_], [], rfl, rfl, rfl⟩ rfl

/-- Documents with commas between them implement their slots. Counterpart of `commaList`. -/
theorem implements_commaList (h : List.Forall₂ Prints printed spelled) :
    Implements (commaList printed) (commaSlots (spelled.map Spelled.slots)) := by
  refine implements_join implements_commaLine ?_
  rw [List.forall₂_map_left_iff, List.forall₂_map_right_iff]
  exact h.imp fun _ _ hprints => hprints.doc_implements

/-- A space may stand where a space or a line break may. Counterpart of `Slot.gap`. -/
theorem resolves_gap {slots : List Slot} {pieces : List Piece}
    (h : Resolves (.space :: slots) pieces) : Resolves (.gap :: slots) pieces := by
  obtain ⟨front, back, rfl, rfl, hback⟩ := h
  exact ⟨[.space], back, rfl, .inl rfl, hback⟩

/-- Assigned values implement a gap and their slots. Counterpart of `assignedValues`. -/
theorem implements_assignedValues (h : List.Forall₂ Prints printed spelled) :
    Implements (assignedValues printed) (.gap :: commaSlots (spelled.map Spelled.slots)) := by
  unfold assignedValues
  split
  · rename_i node doc
    cases h with
    | @cons _ value _ _ hvalue hrest =>
    cases hrest
    have hslots : commaSlots ([value].map Spelled.slots) = value.slots := by
      simp [commaSlots, List.intercalate]
    rw [hslots]
    split
    · exact (Implements.cat (.slot implements_space (.one hvalue.doc_implements))).weaken
        fun _ => resolves_gap
    · split
      · refine (Implements.cat (.slot implements_space (.one ?_))).weaken fun _ => resolves_gap
        split
        · exact .indented (.one hvalue.doc_implements)
        · exact hvalue.doc_implements
      · exact .grouped (.one (.indented (.slot .line (.one hvalue.doc_implements))))
  · exact .grouped (.one (.indented (.slot .line (.one (implements_commaList h)))))

/-- A `return` implements its keyword and its values. Counterpart of `returnDoc`. -/
theorem implements_returnDoc (h : List.Forall₂ Prints printed spelled) :
    Implements (returnDoc printed)
      (.keyword .returnK ::
        if spelled.isEmpty then [] else .space :: commaSlots (spelled.map Spelled.slots)) := by
  have hreturn : Implements (.text "return ") [.keyword .returnK, .space] :=
    .text [.token (.keyword .returnK) ['r', 'e', 't', 'u', 'r', 'n'], .space]
      ⟨[_], [_], rfl, rfl, [_], [], rfl, rfl, rfl⟩ rfl
  unfold returnDoc
  split
  · cases h
    exact implements_keyword .returnK
  · cases h with
    | @cons _ value _ _ hvalue hrest =>
    cases hrest
    have hslots : commaSlots ([value].map Spelled.slots) = value.slots := by
      simp [commaSlots, List.intercalate]
    rw [hslots]
    exact .cat (.cons hreturn (.one hvalue.doc_implements))
  · rename_i hnil _
    cases h with
    | nil => exact absurd rfl hnil
    | cons hfirst hrest =>
      exact .cat (.cons hreturn (.one (.grouped (.one (.indented (.one
        (implements_commaList (.cons hfirst hrest))))))))

end

end LuaFormatter
