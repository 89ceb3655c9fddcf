import LuaFormatter.Proofs.Comment.Shown

/-!
# The comments of what is written

One rule for each builder of documents: if what it is given shows the comments of some nodes, what
it makes shows these and the comments it adds. `Context.around` and `Context.inside` are the
comments that a node adds. Some builders have forms in which a part stands in different ways, and
arguments are written twice, as they are and hugged; the rules ask for the same comments in each
form (`shows_huggedArguments`, `shows_keyField`). Only comments start with two dashes
(`Comment.IsMarked`), so a text with another start shows none.
-/

namespace LuaFormatter

open Doc

/-! ## Comments -/

/-- The text of a comment starts with two dashes. -/
def Comment.IsMarked (comment : Comment) : Prop :=
  ['-', '-'].isPrefixOf comment.text = true

/-- The documents of comments. -/
def Context.textsOf (comments : List Comment) : Multiset Doc :=
  (comments.map commentText : List Doc)

/-- The texts of comments, added up one by one. Counterpart of `Context.textsOf`. -/
theorem sum_singletons (comments : List Comment) :
    (comments.map fun comment => ({Context.commentText comment} : Multiset Doc)).sum =
      Context.textsOf comments := by
  induction comments with
  | nil => rfl
  | cons comment comments ih =>
    rw [List.map_cons, List.sum_cons, ih]
    rfl

namespace Context

/-- The documents of the comments before and after a node. -/
def around (context : Context) (node : Node) : Multiset Doc :=
  textsOf (((context.owned node).filter (·.placement = .leading)).map Attachment.comment) +
    textsOf (((context.owned node).filter (·.placement = .trailing)).map Attachment.comment)

/-- The documents of the comments inside a node. -/
def inside (context : Context) (node : Node) (betweenParens : Bool) : Multiset Doc :=
  textsOf (context.danglingComments node betweenParens)

/-- The texts of all comments start with two dashes. -/
def IsMarked (context : Context) : Prop :=
  ∀ attachment ∈ context.attachments, attachment.comment.IsMarked

end Context

/-- A text that starts without blanks still does so without its trailing blanks. Counterpart of
`trimEnd`. -/
theorem prefix_trimEnd {front text : List Char} (hfront : front.all (!isBlank ·) = true)
    (h : front <+: text) :
    front <+: trimEnd text := by
  obtain ⟨rest, rfl⟩ := h
  have hkept : front.reverse.dropWhile isBlank = front.reverse := by
    cases hreverse : front.reverse with
    | nil => rfl
    | cons c others =>
      have hc := List.all_eq_true.1 hfront c (List.mem_reverse.1 (by simp [hreverse]))
      rw [List.dropWhile_cons_of_neg (by simpa using hc)]
  refine ⟨(rest.reverse.dropWhile isBlank).reverse, ?_⟩
  rw [trimEnd, List.reverse_append, List.dropWhile_append, hkept]
  split
  · rename_i hempty
    rw [List.isEmpty_iff.1 hempty]
    simp
  · rw [List.reverse_append, List.reverse_reverse]

/-- Two dashes are not trimmed off the end of a text that starts with them. Counterpart of
`trimEnd`. -/
theorem isPrefixOf_trimEnd {text : List Char} (h : ['-', '-'].isPrefixOf text = true) :
    ['-', '-'].isPrefixOf (trimEnd text) = true :=
  List.isPrefixOf_iff_prefix.2 (prefix_trimEnd (by decide) (List.isPrefixOf_iff_prefix.1 h))

section
variable {context : Context} {comment : Comment} {comments : List Comment} {node : Node} {doc : Doc}
  {shown : Multiset Doc}

/-- The text of a comment shows the comment. Counterpart of `Context.commentText`. -/
theorem shows_commentText (h : comment.IsMarked) :
    (Context.commentText comment).Shows {Context.commentText comment} := by
  unfold Context.commentText
  split
  · refine (shows_verbatim comment.text).congr (if_pos h)
  · rintro plain rfl
    refine ⟨rfl, ?_⟩
    rw [commentDocs, opensComment, String.toList_ofList, if_pos (isPrefixOf_trimEnd h)]
    rfl

/-- A comment before a node is shown once, with its line break. Counterpart of
`Context.leadingComment`. -/
theorem showAll_leadingComment (context : Context) (h : comment.IsMarked) :
    ShowAll (context.leadingComment comment) {Context.commentText comment} := by
  unfold Context.leadingComment
  refine .only (.cat (.only (shows_commentText h) (.one ?_))) ?_
  · split
    · exact .text rfl
    · exact .hardLine
  · split
    · exact .one .hardLine
    · exact .nil

/-- A comment after a node is shown once. Counterpart of `Context.trailingComment`. -/
theorem shows_trailingComment (context : Context) (h : comment.IsMarked) :
    (context.trailingComment comment).Shows {Context.commentText comment} := by
  unfold Context.trailingComment
  split
  · refine .suffix (.cat (.skip .hardLine (.skip ?_ (.one (shows_commentText h)))))
    split
    · exact .hardLine
    · exact .empty
  · split
    · exact .cat (.skip (.text rfl) (.one (shows_commentText h)))
    · exact .cat (.only (.suffix (.cat (.skip (.text rfl) (.one (shows_commentText h)))))
        (.one .breakParent))

/-- The comments of a node start with two dashes. Counterpart of `Context.owned`. -/
theorem Context.IsMarked.of_mem_map (h : context.IsMarked) {keep : Attachment → Bool}
    (hmem : comment ∈ ((context.owned node).filter keep).map Attachment.comment) :
    comment.IsMarked := by
  obtain ⟨attachment, hattachment, rfl⟩ := List.mem_map.1 hmem
  exact h attachment (List.mem_filter.1 (List.mem_filter.1 hattachment).1).1

/-- A comment inside a node starts with two dashes as all comments do. Counterpart of
`Context.danglingComments`. -/
theorem Context.IsMarked.of_mem_dangling (h : context.IsMarked) {betweenParens : Bool}
    (hmem : comment ∈ context.danglingComments node betweenParens) : comment.IsMarked :=
  h.of_mem_map (List.mem_filter.1 hmem).1

/-- A document with the comments around its node shows these and what it showed before. Counterpart
of `Context.withComments`. -/
theorem shows_withComments (hmarked : context.IsMarked) (h : doc.Shows shown) :
    (context.withComments node doc).Shows (context.around node + shown) := by
  unfold Context.withComments Context.around
  dsimp only
  have hleading := fun comment => @Context.IsMarked.of_mem_map context comment node hmarked
    fun attachment => attachment.placement = .leading
  have htrailing := fun comment => @Context.IsMarked.of_mem_map context comment node hmarked
    fun attachment => attachment.placement = .trailing
  generalize ((context.owned node).filter fun attachment =>
    attachment.placement = .leading).map Attachment.comment = leading at hleading ⊢
  generalize ((context.owned node).filter fun attachment =>
    attachment.placement = .trailing).map Attachment.comment = trailing at htrailing ⊢
  split
  · rename_i hnone
    obtain ⟨hleading, htrailing⟩ := Bool.and_eq_true_iff.1 hnone
    rw [List.isEmpty_iff.1 hleading, List.isEmpty_iff.1 htrailing]
    exact h.congr (zero_add shown).symm
  · rw [← sum_singletons leading, ← sum_singletons trailing]
    refine (Shows.concat (.append (.flatMap fun comment hmem =>
      showAll_leadingComment context (hleading comment hmem)) (.cons h (.map fun comment hmem =>
        shows_trailingComment context (htrailing comment hmem))))).congr ?_
    ac_rfl

/-- Comments one below the other, or on one line. Counterpart of `Context.commentText`. -/
theorem shows_joinComments {separator : Doc} (hseparator : separator.Shows 0)
    (h : ∀ comment ∈ comments, comment.IsMarked) :
    (Doc.join separator (comments.map Context.commentText)).Shows (Context.textsOf comments) := by
  rw [← sum_singletons]
  exact .join hseparator (.map fun comment hmem => shows_commentText (h comment hmem))

/-- Empty parentheses show the comments between them. Counterpart of `Context.emptyParens`. -/
theorem shows_emptyParens (hmarked : context.IsMarked) (node : Node) :
    (context.emptyParens node).Shows (context.inside node true) := by
  have hdangling :=
    fun comment => @Context.IsMarked.of_mem_dangling context comment node hmarked true
  unfold Context.emptyParens Context.inside
  split
  · rename_i hnone
    rw [hnone]
    exact .text rfl
  · refine .groupedIf (.skip (.text rfl) (.only (.indented (.skip .softLine (.one ?_)))
      (.skip .softLine (.one (.text rfl)))))
    exact shows_joinComments .line hdangling

/-- Comments in place of a body are shown, each on a line. Counterpart of
`Context.danglingLines?`. -/
theorem shows_danglingLines (hmarked : context.IsMarked) {lines : Doc}
    (h : context.danglingLines? node = some lines) : lines.Shows (context.inside node false) := by
  unfold Context.danglingLines? at h
  split at h
  · cases h
  · cases h
    exact shows_joinComments .hardLine fun comment => hmarked.of_mem_dangling

/-- Comments between braces or keywords are shown. Counterpart of `Context.danglingBlock?`. -/
theorem shows_danglingBlock (hmarked : context.IsMarked) {block : Doc}
    (h : context.danglingBlock? node = some block) : block.Shows (context.inside node false) := by
  obtain ⟨lines, hlines, rfl⟩ := Option.map_eq_some_iff.1 h
  exact .indented (.skip .hardLine (.one (shows_danglingLines hmarked hlines)))

/-- A node without a block of comments has no comments inside. Counterpart of
`Context.danglingBlock?`. -/
theorem inside_of_danglingBlock_eq_none (h : context.danglingBlock? node = none) :
    context.inside node false = 0 := by
  rw [Context.inside, danglingBlock_eq_none h]
  rfl

end

/-! ## Statements and values -/

/-- What is written for each of the nodes shows its comments. -/
def ShowEach (shown : Node → Multiset Doc) (printed : List Printed) : Prop :=
  ∀ item ∈ printed, item.doc.Shows (shown item.node)

/-- The comments of nodes. -/
def commentsOf (shown : Node → Multiset Doc) (nodes : List Node) : Multiset Doc :=
  (nodes.map shown).sum

section
variable {context : Context} {node : Node} {shown : Node → Multiset Doc} {printed : List Printed}

/-- The documents that are printed for nodes show the comments of all of them. Counterpart of
`ShowEach`. -/
theorem ShowEach.docs (h : ShowEach shown printed) :
    ShowAll (printed.map Printed.doc) (commentsOf shown (printed.map Printed.node)) := by
  rw [commentsOf, List.map_map]
  exact .map h

/-- Semicolons between statements show no comments. Counterpart of `Context.separated`. -/
theorem showAll_separated (h : ShowEach shown printed) :
    ShowAll (context.separated printed) (commentsOf shown (printed.map Printed.node)) := by
  induction printed with
  | nil => exact .nil
  | cons statement rest ih =>
    have hfirst := h statement List.mem_cons_self
    have hrest := ih fun item hmem => h item (List.mem_cons_of_mem statement hmem)
    cases rest with
    | nil => exact .cons hfirst .nil
    | cons next rest =>
      refine .cons (.cat (.only hfirst (.skip ?_ (.one ?_)))) hrest
      · split
        · exact .text rfl
        · exact .empty
      · split
        · exact .hardLine
        · exact .empty

/-- All statements could be read. -/
def AllRead (printed : List Printed) : Prop :=
  ∀ item ∈ printed, item.node.isUnreadStatement = false

/-- Statements one below the other show the comments of each of them. Counterpart of
`Context.statements`. -/
theorem shows_statements (h : ShowEach shown printed) (hread : AllRead printed) :
    (context.statements printed).Shows (commentsOf shown (printed.map Printed.node)) := by
  have hall : printed.filter (fun statement => !statement.node.isUnreadStatement) = printed :=
    List.filter_eq_self.2 fun item hmem => by rw [hread item hmem]; rfl
  unfold Context.statements
  rw [hall]
  exact .join .hardLine (showAll_separated h)

/-- The body of a node shows the comments inside the node and those of the statements. Counterpart
of `Context.body?`. -/
theorem shows_body (hmarked : context.IsMarked) (h : ShowEach shown printed)
    (hread : AllRead printed) :
    match context.body? node printed with
    | some body =>
      body.Shows (context.inside node false + commentsOf shown (printed.map Printed.node))
    | none => context.inside node false + commentsOf shown (printed.map Printed.node) = 0 := by
  have hstatements : (Doc.indented [.hardLine, context.statements printed]).Shows
      (commentsOf shown (printed.map Printed.node)) :=
    .indented (.skip .hardLine (.one (shows_statements h hread)))
  unfold Context.body?
  dsimp only
  cases hblock : context.danglingBlock? node with
  | none =>
    rw [inside_of_danglingBlock_eq_none hblock, zero_add]
    cases printed with
    | nil => rfl
    | cons first rest => exact hstatements
  | some block =>
    have hinside := shows_danglingBlock hmarked hblock
    cases printed with
    | nil => exact hinside.congr (add_zero _).symm
    | cons first rest => exact .cat (.cons hinside (.one hstatements))

/-- A body with its closing keyword shows the comments inside the node and those of its statements.
Counterpart of `Context.bodyAndEnd`. -/
theorem shows_bodyAndEnd (hmarked : context.IsMarked) (h : ShowEach shown printed)
    (hread : AllRead printed) :
    (context.bodyAndEnd node printed).Shows
      (context.inside node false + commentsOf shown (printed.map Printed.node)) := by
  have hbody := @shows_body context node shown printed hmarked h hread
  unfold Context.bodyAndEnd
  cases hdoc : context.body? node printed with
  | some body =>
    rw [hdoc] at hbody
    exact .cat (.only hbody (.skip .hardLine (.one (.text rfl))))
  | none =>
    rw [hdoc] at hbody
    exact Shows.congr (.text rfl) hbody.symm

/-- A list with commas shows the comments of its items. Counterpart of `commaList`. -/
theorem shows_commaList (h : ShowEach shown printed) :
    (commaList printed).Shows (commentsOf shown (printed.map Printed.node)) :=
  .join .commaLine h.docs

/-- Assigned values show their comments, indented or not. Counterpart of `assignedValues`. -/
theorem shows_assignedValues (h : ShowEach shown printed) :
    (assignedValues printed).Shows (commentsOf shown (printed.map Printed.node)) := by
  unfold assignedValues
  split
  · rename_i node doc
    have hdoc : doc.Shows (commentsOf shown [node]) :=
      (h ⟨node, doc⟩ (List.mem_singleton_self _)).congr (add_zero _).symm
    split
    · exact .cat (.skip (.text rfl) (.one hdoc))
    · split
      · refine .cat (.skip (.text rfl) (.one ?_))
        split
        · exact .indented (.one hdoc)
        · exact hdoc
      · exact .grouped (.one (.indented (.skip .line (.one hdoc))))
  · exact .grouped (.one (.indented (.skip .line (.one (shows_commaList h)))))

/-- A return shows the comments of its values. Counterpart of `returnDoc`. -/
theorem shows_returnDoc (h : ShowEach shown printed) :
    (returnDoc printed).Shows (commentsOf shown (printed.map Printed.node)) := by
  unfold returnDoc
  split
  · exact .text rfl
  · rename_i value
    exact .cat (.skip (.text rfl) (.cons (h value (List.mem_singleton_self _)) .nil))
  · exact .cat (.skip (.text rfl) (.one (.grouped (.one (.indented (.one (shows_commaList h)))))))

end

/-! ## Names and literals -/

/-- A text that does not start with a dash starts no comment. Counterpart of `opensComment`. -/
theorem opensComment_of_head {content : String} (h : content.toList.head? ≠ some '-') :
    opensComment content = false := by
  unfold opensComment
  cases hchars : content.toList with
  | nil => rfl
  | cons c rest =>
    have hc : ('-' == c) = false := by
      rw [beq_eq_false_iff_ne]
      rintro rfl
      exact h (by rw [hchars]; rfl)
    rw [List.isPrefixOf_cons_cons, hc, Bool.false_and]

/-- A verbatim text that does not start with a dash shows no comment. Counterpart of
`Doc.verbatim`. -/
theorem shows_verbatim_of_head {content : List Char} (h : content.head? ≠ some '-') :
    (Doc.verbatim content).Shows 0 := by
  have hopens := @opensComment_of_head (String.ofList content) (by rwa [String.toList_ofList])
  rw [opensComment, String.toList_ofList] at hopens
  exact (shows_verbatim content).congr (by rw [hopens]; rfl)

/-- A string starts with a quote and not with a dash. Counterpart of `QuoteStyle.enclosing`. -/
theorem head_enclosing_ne (quotes : QuoteStyle) (content rest : List Char) :
    (quotes.enclosing content :: rest).head? ≠ some '-' := by
  unfold QuoteStyle.enclosing
  split
  · cases quotes <;> simp [QuoteStyle.alternate]
  · cases quotes <;> simp [QuoteStyle.preferred]

/-- A literal shows no comment. Counterpart of `literalDoc`. -/
theorem shows_literalDoc (style : Style) (kind : LiteralKind) {text : String}
    (h : text.toList.head? ≠ some '-') : (literalDoc style kind text).Shows 0 := by
  cases kind with
  | string =>
    refine shows_verbatim_of_head ?_
    unfold requote
    split
    · exact h
    · exact head_enclosing_ne style.quotes _ _
  | longString => exact shows_verbatim_of_head h
  | number | boolean | nil | vararg => exact .text (opensComment_of_head h)

/-- A name starts no comment. Counterpart of `isName`. -/
theorem opensComment_of_isName {name : String} (h : isName name = true) :
    opensComment name = false := by
  refine opensComment_of_head ?_
  unfold isName at h
  split at h
  · cases h
  · rename_i c rest hchars
    rw [Bool.and_eq_true, Bool.and_eq_true] at h
    rw [hchars, List.head?_cons]
    rintro ⟨rfl⟩
    exact absurd h.1.1 (by decide)

/-! ## Tables -/

section
variable {context : Context} {node : Node} {shown : Node → Multiset Doc} {printed : List Printed}

/-- A table shows the comments inside it and those of its fields. Counterpart of `Context.table`. -/
theorem shows_table (hmarked : context.IsMarked) (h : ShowEach shown printed)
    (hinside : printed ≠ [] → context.inside node false = 0) :
    (context.table node printed).Shows
      (context.inside node false + commentsOf shown (printed.map Printed.node)) := by
  unfold Context.table
  cases printed with
  | nil =>
    refine Shows.congr ?_ (add_zero (context.inside node false)).symm
    cases hblock : context.danglingBlock? node with
    | none => exact Shows.congr (.text rfl) (inside_of_danglingBlock_eq_none hblock).symm
    | some block =>
      exact .cat (.skip (.text rfl) (.only (shows_danglingBlock hmarked hblock)
        (.skip .hardLine (.one (.text rfl)))))
  | cons first rest =>
    have hcomma : (if context.style.trailingComma = .never then Doc.empty
        else Doc.text ",").Shows 0 := by
      split
      · exact .empty
      · exact .text rfl
    have hspace : (if context.style.bracketSpacing then Doc.text " " else Doc.empty).Shows 0 := by
      split
      · exact .text rfl
      · exact .empty
    have hseparator : (Doc.cat [.text ",", .hardLine]).Shows 0 :=
      .cat (.skip (.text rfl) (.one .hardLine))
    have hopen : (Doc.text "\x7b").Shows 0 := .text rfl
    have hclose : (Doc.text "\x7d").Shows 0 := .text rfl
    have hinner := Shows.indented <| ShowAll.skip .hardLine <|
      ShowAll.only (.join hseparator h.docs) (.one hcomma)
    have hbroken := Shows.cat <| ShowAll.skip hopen <|
      ShowAll.only hinner (.skip .hardLine (.one hclose))
    have hflat := Shows.cat <| ShowAll.skip hopen <| ShowAll.skip hspace <|
      ShowAll.only (.join .commaLine h.docs) (.skip hspace (.one hclose))
    rw [hinside (by simp), zero_add]
    dsimp only [List.isEmpty_cons]
    rw [if_neg Bool.false_ne_true]
    split
    · refine .alternatives (by simp) fun option hmem => ?_
      rcases List.mem_cons.1 hmem with rfl | hmem
      · exact hflat
      · obtain rfl := List.mem_singleton.1 hmem
        exact hbroken
    · exact hbroken

/-- Brackets around a key show no comments of their own. Counterpart of `bracketed`. -/
theorem showAll_bracketed {key : Printed} {comments : Multiset Doc} (h : key.doc.Shows comments) :
    ShowAll (bracketed key) comments := by
  unfold bracketed
  split
  · exact .skip (.text rfl) (.only h (.one (.text rfl)))
  · exact .skip (.text rfl) (.only h (.one (.text rfl)))

/-- A key that is written as a name keeps its comments. Counterpart of `Context.keyField`. -/
theorem shows_keyField (hmarked : context.IsMarked) {key value : Printed}
    (hkey : key.doc.Shows (shown key.node)) (hvalue : value.doc.Shows (shown value.node))
    (hleaf : ∀ kind raw, key.node.shape = .literal kind raw →
      shown key.node = context.around key.node) :
    (context.keyField key value).Shows (shown key.node + shown value.node) := by
  unfold Context.keyField
  dsimp only
  split
  · rename_i name hname
    split at hname
    · rename_i raw hshape
      split at hname
      · rename_i hisName
        cases hname
        have hkeyDoc : (context.withComments key.node
            (Doc.text (String.ofList (literalContent raw.toList)))).Shows (shown key.node) := by
          rw [hleaf _ _ hshape, ← add_zero (context.around key.node)]
          exact shows_withComments hmarked
            (.text (opensComment_of_isName (Bool.and_eq_true_iff.1 hisName).2))
        exact .cat (.cons hkeyDoc (.skip (.text rfl) (.one hvalue)))
      · cases hname
    · cases hname
  · exact .cat (.append (showAll_bracketed hkey) (.skip (.text rfl) (.one hvalue)))

end

/-! ## Arguments -/

/-- What is written for each of the arguments, hugged or not, shows its comments. -/
def ShowArguments (shown : Node → Multiset Doc) (arguments : List Argument) : Prop :=
  ∀ argument ∈ arguments, argument.doc.Shows (shown argument.node) ∧
    ∀ hugged ∈ argument.hugged, hugged.Shows (shown argument.node)

/-- An argument with the comma after it. -/
def Context.withComma (context : Context) (argument : Argument) : Doc :=
  if context.endsParagraph argument then Doc.cat [argument.doc, .text ",", .hardLine, .hardLine]
  else Doc.cat [argument.doc, Doc.commaLine]

section
variable {context : Context} {node : Node} {shown : Node → Multiset Doc}
  {arguments front : List Argument} {last : Argument}

/-- All arguments but the last one have a comma after them. Counterpart of
`Context.commaSeparated`. -/
theorem commaSeparated_concat (context : Context) (front : List Argument) (last : Argument) :
    context.commaSeparated (front ++ [last]) = front.map context.withComma ++ [last.doc] := by
  induction front with
  | nil => rfl
  | cons argument front ih =>
    rw [List.cons_append, List.map_cons, List.cons_append, ← ih]
    cases front <;> rfl

/-- A comma shows no comment. Counterpart of `Context.withComma`. -/
theorem shows_withComma {argument : Argument} (h : argument.doc.Shows (shown argument.node)) :
    (context.withComma argument).Shows (shown argument.node) := by
  unfold Context.withComma
  split
  · exact .cat (.only h (.skip (.text rfl) (.skip .hardLine (.one .hardLine))))
  · exact .cat (.only h (.one .commaLine))

/-- Arguments with their commas show the comments of the arguments. Counterpart of
`Context.withComma`. -/
theorem showAll_withComma (h : ShowArguments shown front) :
    ShowAll (front.map context.withComma) (commentsOf shown (front.map (·.node))) := by
  rw [commentsOf, List.map_map]
  exact .map fun argument hmem => shows_withComma (h argument hmem).1

/-- Arguments with commas between them show the comments of the arguments. Counterpart of
`Context.commaSeparated`. -/
theorem showAll_commaSeparated (h : ShowArguments shown arguments) :
    ShowAll (context.commaSeparated arguments) (commentsOf shown (arguments.map (·.node))) := by
  rcases List.eq_nil_or_concat arguments with rfl | ⟨front, last, rfl⟩
  · exact .nil
  · rw [List.concat_eq_append] at h ⊢
    have hlast := (h last (by simp)).1
    rw [commaSeparated_concat, commentsOf, List.map_append, List.map_append, List.sum_append]
    exact .append (showAll_withComma fun argument hmem => h argument (by simp [hmem]))
      (.cons hlast .nil)

/-- The first argument in its hugged form shows the same comments. Counterpart of
`Context.huggedFirst`. -/
theorem shows_huggedFirst {argument : Argument} {hugged : Doc} {comments : Multiset Doc}
    (h : hugged.Shows comments) : (context.huggedFirst argument hugged).Shows comments := by
  unfold Context.huggedFirst
  refine .cat (.only h (.skip (.text rfl) (.one ?_)))
  split
  · exact .cat (.skip .hardLine (.one .hardLine))
  · exact .line

/-- Parentheses around arguments show no comments of their own. Counterpart of
`Context.parenthesised`. -/
theorem shows_parenthesised {breaks : Bool} {docs : List Doc} {comments : Multiset Doc}
    (h : ShowAll docs comments) : (Context.parenthesised breaks docs).Shows comments :=
  .groupedIf (.skip (.text rfl) (.only (.indented (.skip .softLine (.one (.concat h))))
    (.skip .softLine (.one (.text rfl)))))

/-- Each of the three forms of a list with a hugged argument shows all comments once. Counterpart of
`Context.arguments`. -/
theorem shows_huggedArguments {breaks : Bool} {all before after : List Doc} {hugged : Doc}
    {hug : Hug} {first middle others comments : Multiset Doc} (hall : ShowAll all comments)
    (hbefore : ShowAll before first) (hhugged : hugged.Shows middle)
    (hafter : ShowAll after others) (hsum : first + (middle + others) = comments)
    (hhug : match hug with | .first => first = 0 | .last => others = 0) :
    (huggedArguments breaks all before after hugged hug).Shows comments := by
  have harguments : (Doc.concat (before ++ hugged :: after)).Shows comments :=
    (Shows.concat (.append hbefore (.cons hhugged hafter))).congr hsum
  have hgroup : (Doc.groupedIf true [hugged]).Shows middle := .groupedIf (.one hhugged)
  have hclose : ShowAll [Doc.text ")"] 0 := .one (.text rfl)
  have hflat : (Doc.ifBreak
      (Doc.indented [.text "(", .softLine, .concat (before ++ hugged :: after)])
      (Doc.cat [.text "(", .concat (before ++ hugged :: after)])).Shows comments :=
    .ifBreak (.indented (.skip (.text rfl) (.skip .softLine (.one harguments))))
      (.cat (.skip (.text rfl) (.one harguments)))
  unfold huggedArguments
  dsimp only
  refine .cat (.skip ?_ (.one (.alternatives (by simp) fun option hmem => ?_)))
  · split
    · exact .breakParent
    · exact .empty
  · simp only [List.mem_cons, List.not_mem_nil, or_false] at hmem
    rcases hmem with rfl | rfl | rfl
    · refine .cat (.only hflat (.skip ?_ hclose))
      split
      · exact .softLine
      · exact .empty
    · cases hug with
      | first =>
        obtain rfl : first = 0 := hhug
        rw [← hsum, zero_add]
        exact .cat (.skip (.text rfl) (.cons hgroup (.only (.concat hafter) hclose)))
      | last =>
        obtain rfl : others = 0 := hhug
        rw [← hsum, add_zero]
        exact .cat (.skip (.text rfl) (.cons (.concat hbefore) (.only hgroup hclose)))
    · exact shows_parenthesised hall

/-- The arguments of a call show the comments between the parentheses and their own, in each of the
forms that the layout may choose. Counterpart of `Context.arguments`. -/
theorem shows_arguments (hmarked : context.IsMarked) (h : ShowArguments shown arguments)
    (hinside : arguments ≠ [] → context.inside node true = 0)
    (hhug : ∀ hug, hug? (arguments.map (·.node)) = some hug →
      arguments.findSome? (·.hugged) = (huggedOf arguments hug).bind (·.hugged)) :
    (context.arguments node arguments).Shows
      (context.inside node true + commentsOf shown (arguments.map (·.node))) := by
  unfold Context.arguments
  cases hempty : arguments.isEmpty with
  | true =>
    obtain rfl := List.isEmpty_iff.1 hempty
    exact (shows_emptyParens hmarked node).congr (add_zero _).symm
  | false =>
    have hdocs := @showAll_commaSeparated context shown arguments h
    rw [hinside (List.isEmpty_eq_false_iff.1 hempty), zero_add, if_neg Bool.false_ne_true]
    dsimp only
    split
    · rename_i hugged found hfirst hfind hhead
      obtain ⟨_, _, hnodes⟩ := hug?_eq_first hfirst
      obtain ⟨first, second, rfl⟩ : ∃ first second, arguments = [first, second] :=
        List.length_eq_two.1 (by simpa using congrArg List.length hnodes)
      obtain rfl : first = found := Option.some.inj hhead
      have hhugged : first.hugged = some hugged := by
        simpa [hhug .first hfirst, huggedOf] using hfind
      exact @shows_huggedArguments _ _ _ _ _ .first 0 _ _ _ hdocs .nil
        (shows_huggedFirst ((h first (by simp)).2 hugged hhugged))
        (.cons (h second (by simp)).1 .nil) (zero_add _) rfl
    · rename_i hugged hlast hfind
      obtain ⟨front, last, rfl⟩ : ∃ front last, arguments = front ++ [last] := by
        rcases List.eq_nil_or_concat arguments with rfl | ⟨front, last, rfl⟩
        · cases hempty
        · exact ⟨front, last, List.concat_eq_append⟩
      have hhugged : last.hugged = some hugged := by
        rw [hhug .last hlast] at hfind
        simpa [huggedOf] using hfind
      have hfront : (context.commaSeparated (front ++ [last])).dropLast =
          front.map context.withComma := by
        rw [commaSeparated_concat, List.dropLast_concat]
      rw [hfront]
      refine @shows_huggedArguments _ _ _ _ _ .last _ _ 0 _ hdocs
        (showAll_withComma fun argument hmem => h argument (by simp [hmem]))
        ((h last (by simp)).2 hugged hhugged) .nil ?_ rfl
      rw [commentsOf, commentsOf, List.map_append, List.map_append, List.sum_append]
      rfl
    · exact shows_parenthesised hdocs

end

/-! ## Operations, parameters and bodies -/

section
variable {context : Context} {node : Node} {printed : List Printed}
  {shown : Node → Multiset Doc}

/-- An operator in front shows no comment. Counterpart of `unaryDoc`. -/
theorem shows_unaryDoc (op : UnaryOp) {operand : Doc} {comments : Multiset Doc}
    (h : operand.Shows comments) : (unaryDoc op operand).Shows comments := by
  have hop : (Doc.text op.text).Shows 0 := by cases op <;> exact .text rfl
  unfold unaryDoc
  refine .cat (.skip hop (.skip ?_ (.one h)))
  split
  · exact .text rfl
  · exact .empty

/-- Parameters show their comments, hugged or not. Counterpart of `parametersDoc`. -/
theorem shows_parametersDoc {isHugged : Bool} (h : ShowEach shown printed) :
    (parametersDoc isHugged printed).Shows (commentsOf shown (printed.map Printed.node)) := by
  unfold parametersDoc
  split
  · exact .cat (.skip (.text rfl) (.only (.join (.text rfl) h.docs) (.one (.text rfl))))
  · exact .grouped (.skip (.text rfl)
        (.only (.indented (.skip .softLine (.one (shows_commaList h))))
      (.skip .softLine (.one (.text rfl)))))

/-- Parentheses around an expression show no comment. Counterpart of `parenthesisedDoc`. -/
theorem shows_parenthesisedDoc {doc : Doc} {comments : Multiset Doc} (h : doc.Shows comments) :
    (parenthesisedDoc node doc).Shows comments := by
  unfold parenthesisedDoc
  split
  · exact .grouped (.skip (.text rfl) (.only (.indented (.skip .softLine (.one h)))
      (.skip .softLine (.one (.text rfl)))))
  · exact .cat (.skip (.text rfl) (.only h (.one (.text rfl))))

/-- A chain of operators shows the comments of its parts. Counterpart of `chainDoc`. -/
theorem shows_chainDoc {inParens isAlone : Bool} {parts : List Doc} {comments : Multiset Doc}
    (h : ShowAll parts comments) : (chainDoc inParens isAlone parts).Shows comments := by
  unfold chainDoc
  split
  · exact .concat h
  · split
    · exact .grouped (.one (.concat h))
    · cases h with
      | nil => exact .empty
      | cons hfirst hrest => exact .grouped (.cons hfirst (.one (.indented (.one (.concat hrest)))))

/-- A conditional shows the comments of its branches. Counterpart of `Context.conditional`. -/
theorem shows_conditional (context : Context) (h : ShowEach shown printed) :
    (context.conditional printed).Shows (commentsOf shown (printed.map Printed.node)) := by
  have hjoined : (Doc.join .hardLine (printed.map Printed.doc)).Shows
      (commentsOf shown (printed.map Printed.node)) := .join .hardLine h.docs
  rw [conditional_eq]
  split
  · exact .cat (.only hjoined (.one (.text rfl)))
  · exact .cat (.only hjoined (.skip .hardLine (.one (.text rfl))))

/-- The line that a branch starts with, with its condition if it has one. Counterpart of
`Context.clause`. -/
theorem shows_header {keyword : Doc} {condition : Option Node} {print : Node → Doc}
    (hkeyword : keyword.Shows 0) (h : ∀ child ∈ condition, (print child).Shows (shown child)) :
    (match condition.map print with
      | some condition => Doc.cat [keyword, condition, .text " then"]
      | none => keyword).Shows (commentsOf shown condition.toList) := by
  cases condition with
  | none => exact hkeyword
  | some child => exact .cat (.skip hkeyword (.cons (h child rfl) (.one (.text rfl))))

/-- A branch shows the comments of its condition, those inside it and those of its statements.
Counterpart of `Context.clause`. -/
theorem shows_clause (hmarked : context.IsMarked) {kind : ClauseKind} {condition : Option Node}
    {print : Node → Doc} (hcondition : ∀ child ∈ condition, (print child).Shows (shown child))
    (h : ShowEach shown printed) (hread : AllRead printed) :
    (context.clause node kind (condition.map print) printed).Shows
      (commentsOf shown condition.toList +
        (context.inside node false + commentsOf shown (printed.map Printed.node))) := by
  have hbody := @shows_body context node shown printed hmarked h hread
  unfold Context.clause
  dsimp only
  cases hdoc : context.body? node printed with
  | some body =>
    rw [hdoc] at hbody
    refine .cat (.cons (shows_header ?_ hcondition) (.one hbody))
    cases kind <;> exact .text rfl
  | none =>
    rw [hdoc] at hbody
    rw [hbody, add_zero]
    refine shows_header ?_ hcondition
    cases kind <;> exact .text rfl

/-- Trimming leaves the start of a text. Counterpart of `trimEnd`. -/
theorem trimEnd_prefix (content : List Char) : trimEnd content <+: content := by
  rw [trimEnd, ← List.reverse_suffix, List.reverse_reverse]
  exact List.dropWhile_suffix _

/-- A trimmed text does not start with a character that the text does not start with. Counterpart of
`trimEnd`. -/
theorem head_trimEnd_ne {content : List Char} {c : Char} (h : content.head? ≠ some c) :
    (trimEnd content).head? ≠ some c := by
  obtain ⟨rest, hrest⟩ := trimEnd_prefix content
  cases htrimmed : trimEnd content with
  | nil => simp
  | cons d others =>
    rw [htrimmed] at hrest
    rwa [← hrest] at h

/-- The line that names the interpreter is no comment. Counterpart of `Context.shebang`. -/
theorem showAll_shebang (hshebang : ∀ token ∈ context.shebang, token.lexeme.head? ≠ some '-')
    {blankLine : Token → List Doc} (hblank : ∀ token, ShowAll (blankLine token) 0) :
    ShowAll (match context.shebang with
      | some token =>
        [.note (String.ofList (trimEnd token.lexeme)), .hardLine] ++ blankLine token
      | none => []) 0 := by
  cases htoken : context.shebang with
  | none => exact .nil
  | some token =>
    have hhead := head_trimEnd_ne (hshebang token htoken)
    have hopens := @opensComment_of_head (String.ofList (trimEnd token.lexeme))
      (by rwa [String.toList_ofList])
    exact .skip (.note hopens) (.skip .hardLine (hblank token))

/-- The comments of a file without statements are shown, with the line break after them. Counterpart
of `Context.danglingLines?`. -/
theorem showAll_danglingLines (hmarked : context.IsMarked) (node : Node) :
    ShowAll (match context.danglingLines? node with
      | some lines => [lines, .hardLine]
      | none => []) (context.inside node false) := by
  cases hlines : context.danglingLines? node with
  | some lines => exact .only (shows_danglingLines hmarked hlines) (.one .hardLine)
  | none =>
    have hnone : context.danglingBlock? node = none := by
      rw [Context.danglingBlock?, hlines]
      rfl
    rw [inside_of_danglingBlock_eq_none hnone]
    exact .nil

/-- A file shows the comments inside it and those of its statements; its shebang is no comment.
Counterpart of `Context.chunk`. -/
theorem shows_chunk (hmarked : context.IsMarked) (h : ShowEach shown printed)
    (hread : AllRead printed)
    (hshebang : ∀ token ∈ context.shebang, token.lexeme.head? ≠ some '-') :
    (context.chunk node printed).Shows
      (context.inside node false + commentsOf shown (printed.map Printed.node)) := by
  have hstatements : ShowAll
      (if printed.isEmpty then [] else [context.statements printed, .hardLine])
      (commentsOf shown (printed.map Printed.node)) := by
    cases printed with
    | nil => exact .nil
    | cons first rest => exact .only (shows_statements h hread) (.one .hardLine)
  unfold Context.chunk
  dsimp only
  rw [add_comm, ← zero_add (commentsOf shown _)]
  refine .concat (.append (.append (showAll_shebang hshebang fun token => ?_) hstatements)
    (showAll_danglingLines hmarked node))
  split
  · exact .one .hardLine
  · exact .nil

end

end LuaFormatter
