import LuaFormatter.Proofs.Comment.Builders
import LuaFormatter.Proofs.Format.Cosmetic
import LuaFormatter.Proofs.Layout.Flat

/-!
# Flat groups of a program

The formatter hides no line break in a group that need not break. One rule for each builder of
documents says that what it makes announces its breaks if its parts do. Only two builders write
choices, which hide what is in them: a table says that it breaks if a field does, and a list with a
hugged argument puts the demand to break before the choice. The hugged argument is written a second
time there, and this document breaks only if the first one does (`willBreak_hugged`).
-/

namespace LuaFormatter

open Doc

section
variable {context : Context} {comment : Comment} {comments : List Comment} {node : Node}
  {printed : Doc}

/-! ## Comments -/

/-- A verbatim text announces its line breaks. Counterpart of `Doc.verbatim`. -/
theorem announces_verbatim (content : List Char) : (Doc.verbatim content).Announces := by
  unfold Doc.verbatim
  split
  · refine .join .literalLine fun doc hdoc => ?_
    obtain ⟨line, hline, rfl⟩ := List.mem_map.1 hdoc
    rw [Announces.text_iff, String.toList_ofList]
    have hcut := not_mem_of_mem_splitOn hline
    split
    · exact fun hmem => hcut (List.dropLast_subset _ hmem)
    · exact hcut
  · rename_i hbreak
    rw [Announces.text_iff, String.toList_ofList]
    simpa using hbreak

/-- A comment announces its line breaks, if it is a block comment over several lines. Counterpart of
`Context.commentText`. -/
theorem announces_commentText (h : comment.kind.OneLine comment.written) :
    (Context.commentText comment).Announces := by
  unfold Context.commentText
  split
  · exact announces_verbatim comment.text
  · rename_i hline
    rw [Announces.note_iff, String.toList_ofList]
    have hwritten := h (by rw [Comment.kind, if_neg hline]; rfl)
    rwa [Comment.written, if_neg hline] at hwritten

/-- A comment before a node announces the line break after it. Counterpart of
`Context.leadingComment`. -/
theorem announces_leadingComment (h : comment.kind.OneLine comment.written) :
    ∀ doc ∈ context.leadingComment comment, doc.Announces := by
  have htext := announces_commentText h
  unfold Context.leadingComment
  refine List.forall_mem_cons.2 ⟨.cat ?_, ?_⟩
  · split <;> simp [htext]
  · split <;> simp

/-- A comment after its owner is put off, and says so. Counterpart of `Context.trailingComment`. -/
theorem announces_trailingComment (h : comment.kind.OneLine comment.written) :
    (context.trailingComment comment).Announces := by
  have htext := announces_commentText h
  unfold Context.trailingComment
  split
  · refine .suffix (.cat ?_) ?_
    · split <;> simp [htext]
    · simp [willBreak]
  · split
    · exact .cat (by simp [htext])
    · exact .suffix_breakParent (.cat (by simp [htext]))

variable (h : context.Writes Kind.OneLine)
include h

/-- A node with the comments around it announces its breaks. Counterpart of
`Context.withComments`. -/
theorem announces_withComments (hprinted : printed.Announces) :
    (context.withComments node printed).Announces := by
  unfold Context.withComments
  dsimp only
  split
  · exact hprinted
  · refine .concat fun item hitem => ?_
    rcases List.mem_append.1 hitem with hleading | hitem
    · obtain ⟨comment, hcomment, hmem⟩ := List.mem_flatMap.1 hleading
      obtain ⟨attachment, hattachment, rfl⟩ := List.mem_map.1 hcomment
      exact announces_leadingComment
        (h.owned (List.mem_map_of_mem (List.mem_filter.1 hattachment).1)) item hmem
    · rcases List.mem_cons.1 hitem with rfl | htrailing
      · exact hprinted
      · obtain ⟨comment, hcomment, rfl⟩ := List.mem_map.1 htrailing
        obtain ⟨attachment, hattachment, rfl⟩ := List.mem_map.1 hcomment
        exact announces_trailingComment
          (h.owned (List.mem_map_of_mem (List.mem_filter.1 hattachment).1))

/-- Comments inside a node, with separators between them, announce their breaks. Counterpart of
`Doc.join`. -/
theorem announces_joinDangling {separator : Doc} (hseparator : separator.Announces) (node : Node)
    (betweenParens : Bool) :
    (Doc.join separator ((context.danglingComments node betweenParens).map
        Context.commentText)).Announces := by
  refine .join hseparator fun doc hdoc => ?_
  obtain ⟨comment, hcomment, rfl⟩ := List.mem_map.1 hdoc
  exact announces_commentText (h.dangling node betweenParens comment hcomment)

/-- Empty parentheses announce the breaks of the comments between them. Counterpart of
`Context.emptyParens`. -/
theorem announces_emptyParens (node : Node) : (context.emptyParens node).Announces := by
  have hjoined := announces_joinDangling h .line node true
  unfold Context.emptyParens
  split
  · simp
  · have hindented := Announces.indented
      (List.forall_mem_cons.2 ⟨.softLine, List.forall_mem_singleton.2 hjoined⟩)
    exact .groupedIf _ (by simp [hindented])

/-- Comments in place of a body announce their breaks. Counterpart of `Context.danglingLines?`. -/
theorem announces_danglingLines {lines : Doc} (hlines : context.danglingLines? node = some lines) :
    lines.Announces := by
  have hjoined := announces_joinDangling h .hardLine node false
  unfold Context.danglingLines? at hlines
  split at hlines
  · cases hlines
  · cases hlines
    exact hjoined

/-- Comments between braces or keywords announce their breaks. Counterpart of
`Context.danglingBlock?`. -/
theorem announces_danglingBlock {block : Doc} (hblock : context.danglingBlock? node = some block) :
    block.Announces := by
  obtain ⟨lines, hlines, rfl⟩ := Option.map_eq_some_iff.1 hblock
  exact .indented (by simp [announces_danglingLines h hlines])

end

/-! ## Statements and values -/

/-- What is written for each of the nodes announces its breaks. -/
def AnnounceEach (printed : List Printed) : Prop :=
  ∀ item ∈ printed, item.doc.Announces

section
variable {context : Context} {node : Node} {printed clauses fields : List Printed}
  {operand doc : Doc}

/-- The documents that are printed for nodes announce their breaks. Counterpart of
`AnnounceEach`. -/
theorem AnnounceEach.docs (h : AnnounceEach printed) :
    ∀ doc ∈ printed.map Printed.doc, doc.Announces :=
  List.forall_mem_map.2 h

@[simp] theorem announces_commaLine : Doc.commaLine.Announces :=
  .cat (by simp)

/-- A list with commas announces the breaks of its items. Counterpart of `commaList`. -/
theorem announces_commaList (h : AnnounceEach printed) : (commaList printed).Announces :=
  .join announces_commaLine h.docs

/-- Statements with semicolons between them announce their breaks. Counterpart of
`Context.separated`. -/
theorem announces_separated (h : AnnounceEach printed) :
    ∀ doc ∈ context.separated printed, doc.Announces := by
  induction printed with
  | nil => exact List.forall_mem_nil _
  | cons statement rest ih =>
    have hfirst := h statement List.mem_cons_self
    have hrest := ih fun item hitem => h item (List.mem_cons_of_mem _ hitem)
    cases rest with
    | nil => simpa [Context.separated] using hfirst
    | cons next rest =>
      refine List.forall_mem_cons.2 ⟨.cat ?_, hrest⟩
      split <;> split <;> simp [hfirst]

/-- Statements one below the other announce the breaks between them. Counterpart of
`Context.statements`. -/
theorem announces_statements (h : AnnounceEach printed) : (context.statements printed).Announces :=
  .join .hardLine (announces_separated fun item hitem => h item (List.mem_filter.1 hitem).1)

/-- A body announces the breaks around it. Counterpart of `Context.body?`. -/
theorem announces_body (hwrites : context.Writes Kind.OneLine) (h : AnnounceEach printed)
    {body : Doc} (hbody : context.body? node printed = some body) : body.Announces := by
  have hstatements : (context.statements printed).Announces := announces_statements h
  have hindented := @Announces.indented [.hardLine, context.statements printed]
    (by simp [hstatements])
  unfold Context.body? at hbody
  split at hbody
  · exact announces_danglingBlock hwrites hbody
  · dsimp only at hbody
    split at hbody
    · rename_i comments hcomments
      cases hbody
      exact .cat (by simp [announces_danglingBlock hwrites hcomments, hindented])
    · cases hbody
      exact hindented

/-- A body with its closing keyword announces its breaks. Counterpart of `Context.bodyAndEnd`. -/
theorem announces_bodyAndEnd (hwrites : context.Writes Kind.OneLine) (node : Node)
    (h : AnnounceEach printed) :
    (context.bodyAndEnd node printed).Announces := by
  unfold Context.bodyAndEnd
  split
  · rename_i body hbody
    exact .cat (by simp [announces_body hwrites h hbody])
  · simp

/-- Assigned values announce their breaks, indented or not. Counterpart of `assignedValues`. -/
theorem announces_assignedValues (h : AnnounceEach printed) :
    (assignedValues printed).Announces := by
  have hlist := announces_commaList h
  have hindented := @Announces.indented [.line, commaList printed] (by simp [hlist])
  unfold assignedValues
  split
  · rename_i node doc
    have hdoc : doc.Announces := h ⟨node, doc⟩ List.mem_cons_self
    have hdeep := @Announces.indented [doc] (by simpa using hdoc)
    split
    · exact .cat (by simp [hdoc])
    · split
      · refine .cat ?_
        split <;> simp [hdoc, hdeep]
      · have hline := @Announces.indented [.line, doc] (by simp [hdoc])
        exact .grouped (by simp [hline])
  · exact .grouped (by simp [hindented])

/-- A return announces the breaks of its values. Counterpart of `returnDoc`. -/
theorem announces_returnDoc (h : AnnounceEach printed) : (returnDoc printed).Announces := by
  have hlist := announces_commaList h
  unfold returnDoc
  split
  · simp
  · exact .cat (by simp [h _ List.mem_cons_self])
  · have hindented := @Announces.indented [commaList _] (by simpa using hlist)
    have hgroup := @Announces.grouped [Doc.indented [commaList _]] (by simpa using hindented)
    exact .cat (by simp [hgroup])

/-- Parameters announce their breaks, hugged or not. Counterpart of `parametersDoc`. -/
theorem announces_parametersDoc (isHugged : Bool) (h : AnnounceEach printed) :
    (parametersDoc isHugged printed).Announces := by
  have hlist := announces_commaList h
  unfold parametersDoc
  split
  · have hjoined := @Announces.join (.text ", ") _ (by simp) h.docs
    exact .cat (by simp [hjoined])
  · have hindented := @Announces.indented [.softLine, commaList printed] (by simp [hlist])
    exact .grouped (by simp [hindented])

/-- An expression between parentheses announces its breaks. Counterpart of `parenthesisedDoc`. -/
theorem announces_parenthesisedDoc (node : Node) (h : doc.Announces) :
    (parenthesisedDoc node doc).Announces := by
  unfold parenthesisedDoc
  split
  · have hindented := @Announces.indented [.softLine, doc] (by simp [h])
    exact .grouped (by simp [hindented])
  · exact .cat (by simp [h])

/-- An operand with its operator announces its breaks. Counterpart of `unaryDoc`. -/
theorem announces_unaryDoc (op : UnaryOp) (h : operand.Announces) :
    (unaryDoc op operand).Announces := by
  have hop : '\n' ∉ op.text.toList := by cases op <;> decide
  unfold unaryDoc
  refine .cat ?_
  split <;> simp [h, hop]

/-- A conditional announces the breaks between its branches. Counterpart of
`Context.conditional`. -/
theorem announces_conditional (h : AnnounceEach clauses) :
    (context.conditional clauses).Announces := by
  have hjoined := Announces.join .hardLine h.docs
  rw [conditional_eq]
  split <;> exact .cat (by simp [hjoined])

/-- The head of a branch, and its statements if there are any. Counterpart of `Context.clause`. -/
theorem announces_headed {header : Doc} (hheader : header.Announces) {body : Option Doc}
    (hbody : ∀ doc ∈ body, doc.Announces) :
    (match body with
      | some body => Doc.cat [header, body]
      | none => header).Announces := by
  cases body with
  | none => exact hheader
  | some body => exact .cat (by simp [hheader, hbody body rfl])

/-- A branch announces the breaks of its condition and of its body. Counterpart of
`Context.clause`. -/
theorem announces_clause (hwrites : context.Writes Kind.OneLine) (node : Node) (kind : ClauseKind)
    {condition : Option Doc} (hcondition : ∀ doc ∈ condition, doc.Announces)
    (h : AnnounceEach printed) :
    (context.clause node kind condition printed).Announces := by
  refine announces_headed ?_ fun body hbody => announces_body hwrites h hbody
  cases condition with
  | none => cases kind <;> simp
  | some condition =>
    have hone : condition.Announces := hcondition condition rfl
    refine .cat ?_
    cases kind <;> simp [hone]

/-- A whole file announces its breaks, with its shebang and its last line. Counterpart of
`Context.chunk`. -/
theorem announces_chunk (hwrites : context.Writes Kind.OneLine) (h : AnnounceEach printed) :
    (context.chunk node printed).Announces := by
  have hstatements : (context.statements printed).Announces := announces_statements h
  unfold Context.chunk
  refine .concat ?_
  simp only [List.forall_mem_append]
  refine ⟨⟨?_, ?_⟩, ?_⟩
  · split
    · rename_i token htoken
      have hline : '\n' ∉ trimEnd token.lexeme := hwrites.shebang token htoken rfl
      simp only [List.forall_mem_append]
      refine ⟨by simp [hline], ?_⟩
      split <;> simp
    · simp
  · split <;> simp [hstatements]
  · split
    · rename_i lines hlines
      simp [announces_danglingLines hwrites hlines]
    · simp

end

/-! ## Tables and arguments -/

section
variable {context : Context} {node : Node} {fields : List Printed} {key value : Printed}
  {arguments : List Argument} {hugged : Doc} {all before after : List Doc}

/-- A table may be printed flat, and says that it breaks if one of its fields does. Counterpart of
`Context.table`. -/
theorem announces_table (hwrites : context.Writes Kind.OneLine) (node : Node)
    (h : AnnounceEach fields) :
    (context.table node fields).Announces := by
  have hcomma :
      (if context.style.trailingComma = .never then Doc.empty else .text ",").Announces := by
    split <;> simp
  have hspace : (if context.style.bracketSpacing then Doc.text " " else .empty).Announces := by
    split <;> simp
  have hlines := @Announces.join (Doc.cat [.text ",", .hardLine]) _ (.cat (by simp)) h.docs
  have hflat := Announces.join announces_commaLine h.docs
  have hindented := Announces.indented
    (List.forall_mem_cons.2 ⟨.hardLine,
      List.forall_mem_cons.2 ⟨hlines, List.forall_mem_singleton.2 hcomma⟩⟩)
  have hbroken := @Announces.cat [.text "\x7b", Doc.indented _, .hardLine, .text "\x7d"]
    (by simpa using hindented)
  unfold Context.table
  split
  · split
    · rename_i comments hcomments
      exact .cat (by simp [announces_danglingBlock hwrites hcomments])
    · simp
  · dsimp only
    split
    · refine .alternatives (List.forall_mem_cons.2 ⟨.cat ?_, List.forall_mem_singleton.2 hbroken⟩)
        ?_
      · simp [hspace, hflat]
      · intro hfields
        have hquiet :
            (if context.style.bracketSpacing then Doc.text " " else .empty).willBreak = false := by
          split <;> rfl
        rw [← @willBreak_join Doc.commaLine rfl] at hfields
        simp [hquiet, hfields, willBreak]
    · exact hbroken

/-- A key between brackets announces its breaks. Counterpart of `bracketed`. -/
theorem announces_bracketed (h : key.doc.Announces) : ∀ doc ∈ bracketed key, doc.Announces := by
  unfold bracketed
  split <;> simp [h]

/-- A field with a key announces the breaks of its key and its value. Counterpart of
`Context.keyField`. -/
theorem announces_keyField (hwrites : context.Writes Kind.OneLine) (hkey : key.doc.Announces)
    (hvalue : value.doc.Announces) : (context.keyField key value).Announces := by
  unfold Context.keyField
  dsimp only
  split
  · rename_i name hname
    refine .cat ?_
    have hone : (context.withComments key.node (.text name)).Announces := by
      refine announces_withComments hwrites ?_
      rw [Announces.text_iff]
      split at hname
      · split at hname
        · rename_i hisName
          cases hname
          exact hwrites.name _ (Bool.and_eq_true_iff.1 hisName).2 rfl
        · cases hname
      · cases hname
    simp [hone, hvalue]
  · refine .cat (List.forall_mem_append.2 ⟨announces_bracketed hkey, by simp [hvalue]⟩)

/-- Arguments between parentheses announce their breaks. Counterpart of `Context.parenthesised`. -/
theorem announces_parenthesised (breaks : Bool) (h : ∀ doc ∈ all, doc.Announces) :
    (Context.parenthesised breaks all).Announces := by
  have hindented := @Announces.indented [.softLine, .concat all] (by simpa using Announces.concat h)
  exact .groupedIf _ (by simp [hindented])

/-- The arguments with the hugged one broken and the others on its lines. Counterpart of
`Context.arguments`, for the most expanded form. -/
theorem announces_expanded (hug : Hug) (hbefore : ∀ doc ∈ before, doc.Announces)
    (hafter : ∀ doc ∈ after, doc.Announces) (hhugged : hugged.Announces) :
    (match hug with
      | .first => Doc.cat [.text "(", Doc.groupedIf true [hugged], .concat after, .text ")"]
      | .last =>
        Doc.cat [.text "(", .concat before, Doc.groupedIf true [hugged], .text ")"]).Announces := by
  have hgroup := @Announces.groupedIf [hugged] true (by simpa using hhugged)
  cases hug with
  | first => exact .cat (by simp [hgroup, Announces.concat hafter])
  | last => exact .cat (by simp [hgroup, Announces.concat hbefore])

/-- The choice between the three forms does not say that an argument breaks, but the demand before
it does. If no argument breaks, neither does the hugged one. Counterpart of `Context.arguments`, for
the three forms together. -/
theorem announces_huggedArguments (breaks : Bool) (hug : Hug) (hall : ∀ doc ∈ all, doc.Announces)
    (hbefore : ∀ doc ∈ before, doc.Announces) (hafter : ∀ doc ∈ after, doc.Announces)
    (hhugged : hugged.Announces)
    (hquiet : (∀ doc ∈ all, doc.willBreak = false) → hugged.willBreak = false) :
    (huggedArguments breaks all before after hugged hug).Announces := by
  have harguments : (Doc.concat (before ++ hugged :: after)).Announces :=
    .concat (List.forall_mem_append.2 ⟨hbefore, List.forall_mem_cons.2 ⟨hhugged, hafter⟩⟩)
  have hopen := @Announces.cat [.text "(", .concat (before ++ hugged :: after)]
    (by simp [harguments])
  have hdeep := @Announces.indented [.text "(", .softLine, .concat (before ++ hugged :: after)]
    (by simp [harguments])
  have hflat : (Doc.cat
      [.ifBreak (Doc.indented [.text "(", .softLine, .concat (before ++ hugged :: after)])
        (Doc.cat [.text "(", .concat (before ++ hugged :: after)]),
        if all.any Doc.willBreak then .softLine else .empty, .text ")"]).Announces := by
    refine .cat ?_
    split <;> simp [Announces.ifBreak hdeep hopen]
  have hexpanded := announces_expanded hug hbefore hafter hhugged
  have hforms := List.forall_mem_cons.2 ⟨hflat, List.forall_mem_cons.2
    ⟨hexpanded, List.forall_mem_singleton.2 (announces_parenthesised true hall)⟩⟩
  unfold huggedArguments
  dsimp only
  cases hbreaks : all.any Doc.willBreak with
  | true =>
    rw [hbreaks] at hforms
    exact .breakParent_cat hforms
  | false =>
    rw [hbreaks] at hforms
    refine .cat (List.forall_mem_cons.2
        ⟨.empty, List.forall_mem_singleton.2 (.alternatives hforms ?_)⟩)
    intro hothers
    have hhugged := hquiet (by simpa using hbreaks)
    obtain ⟨hothers, -⟩ := Bool.or_eq_false_iff.1 hothers
    rw [List.any_append, Bool.or_eq_false_iff] at hothers
    simp [willBreak, anyWillBreak_eq, Doc.indented, hothers.1, hothers.2, hhugged]

/-- What is written for each of the arguments announces its breaks, and if it is written hugged too,
the second document breaks only if the first one does. -/
def AnnounceArguments (arguments : List Argument) : Prop :=
  ∀ argument ∈ arguments, argument.doc.Announces ∧ ∀ hugged ∈ argument.hugged,
    hugged.Announces ∧ (argument.doc.willBreak = false → hugged.willBreak = false)

/-- An argument with its comma announces its breaks. Counterpart of `Context.withComma`. -/
theorem announces_withComma {argument : Argument} (h : argument.doc.Announces) :
    (context.withComma argument).Announces := by
  unfold Context.withComma
  split <;> exact .cat (by simp [h])

/-- Arguments with commas announce their breaks. Counterpart of `Context.commaSeparated`. -/
theorem announces_commaSeparated (h : AnnounceArguments arguments) :
    ∀ doc ∈ context.commaSeparated arguments, doc.Announces := by
  rcases List.eq_nil_or_concat arguments with rfl | ⟨front, last, rfl⟩
  · exact List.forall_mem_nil _
  · rw [List.concat_eq_append] at h ⊢
    rw [commaSeparated_concat, List.forall_mem_append, List.forall_mem_map,
      List.forall_mem_singleton]
    exact ⟨fun argument hmem => announces_withComma (h argument (by simp [hmem])).1,
      (h last (by simp)).1⟩

/-- A hugged first argument announces its breaks. Counterpart of `Context.huggedFirst`. -/
theorem announces_huggedFirst {argument : Argument} (h : hugged.Announces) :
    (context.huggedFirst argument hugged).Announces := by
  unfold Context.huggedFirst
  refine .cat ?_
  split <;> simp [h, Announces.cat]

/-- The first argument says that it breaks when a blank line follows it. Counterpart of
`Context.huggedFirst`. -/
theorem willBreak_huggedFirst {argument : Argument}
    (h : argument.doc.willBreak = false → hugged.willBreak = false)
    (hquiet : (context.withComma argument).willBreak = false) :
    (context.huggedFirst argument hugged).willBreak = false := by
  unfold Context.withComma at hquiet
  unfold Context.huggedFirst
  split at hquiet
  · simp [willBreak] at hquiet
  · rename_i hparagraph
    simp only [willBreak_cat, List.any_cons, Bool.or_eq_false_iff] at hquiet
    simp [hparagraph, h hquiet.1, willBreak]

/-- The arguments of a call announce their breaks in each of the forms that the layout may choose.
Counterpart of `Context.arguments`. -/
theorem announces_arguments (hwrites : context.Writes Kind.OneLine) (node : Node)
    (h : AnnounceArguments arguments)
    (hhug : ∀ hug, hug? (arguments.map (·.node)) = some hug →
      arguments.findSome? (·.hugged) = (huggedOf arguments hug).bind (·.hugged)) :
    (context.arguments node arguments).Announces := by
  have hdocs : ∀ doc ∈ context.commaSeparated arguments, doc.Announces := announces_commaSeparated h
  unfold Context.arguments
  split
  · exact announces_emptyParens hwrites node
  dsimp only
  split
  · rename_i hugged found hfirst hfind hhead
    obtain ⟨_, _, hnodes⟩ := hug?_eq_first hfirst
    obtain ⟨first, second, rfl⟩ : ∃ first second, arguments = [first, second] :=
      List.length_eq_two.1 (by simpa using congrArg List.length hnodes)
    obtain rfl : first = found := Option.some.inj hhead
    have hmem : hugged ∈ first.hugged := by simpa [hhug .first hfirst, huggedOf] using hfind
    obtain ⟨hannounces, hbreak⟩ := (h first (by simp)).2 hugged hmem
    have hafter : ∀ doc ∈ (context.commaSeparated [first, second]).tail, doc.Announces :=
      fun doc hdoc => hdocs doc (List.mem_of_mem_tail hdoc)
    refine announces_huggedArguments _ _ hdocs (List.forall_mem_nil _) hafter
      (announces_huggedFirst hannounces) fun hquiet => willBreak_huggedFirst hbreak (hquiet _ ?_)
    exact List.mem_cons_self
  · rename_i hugged hlast hfind
    obtain ⟨front, last, rfl⟩ : ∃ front last, arguments = front ++ [last] := by
      rcases List.eq_nil_or_concat arguments with rfl | ⟨front, last, rfl⟩
      · contradiction
      · exact ⟨front, last, List.concat_eq_append⟩
    have hmem : hugged ∈ last.hugged := by
      rw [hhug .last hlast] at hfind
      simpa [huggedOf] using hfind
    obtain ⟨hannounces, hbreak⟩ := (h last (by simp)).2 hugged hmem
    refine announces_huggedArguments _ _ hdocs (fun doc hdoc =>
        hdocs doc (List.dropLast_subset _ hdoc))
      (List.forall_mem_nil _) hannounces fun hquiet => hbreak (hquiet last.doc ?_)
    rw [commaSeparated_concat]
    exact List.mem_append_right _ (List.mem_singleton_self _)
  · exact announces_parenthesised _ hdocs

end

end LuaFormatter
