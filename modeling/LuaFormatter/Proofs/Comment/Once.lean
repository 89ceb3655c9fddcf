import LuaFormatter.Proofs.Comment.Blanked
import LuaFormatter.Proofs.Comment.Room
import LuaFormatter.Proofs.Comment.Tidy
import LuaFormatter.Proofs.Token.Reread

/-!
# No layout loses or repeats a comment

The document of a program without faults leaves choices open, and what is written for a comment may
stand in several of their forms. `comments_printed_once` says that each comment of the source is
printed once all the same, whichever forms are taken. The tree of such a program is tidy
(`tidyTree_root`): only comments start with two dashes, everything was read, and a comment is inside
a node only where the node prints it.
-/

namespace LuaFormatter

/-! ## Tokens that start with a dash -/

namespace Scan

/-- What two dashes start is a comment of some kind. Counterpart of `comment`. -/
theorem isComment_comment (rest : List Char) : (comment rest).1.isComment = true := by
  unfold comment
  split
  · split <;> rfl
  · rfl

/-- Two dashes open a comment. Counterpart of `Scan.nextToken`. -/
theorem nextToken_dashes (atStart : Bool) {rest : List Char} (h : rest.head? = some '-') :
    nextToken atStart '-' rest = comment rest := by
  unfold nextToken
  rw [if_neg (by simp), if_pos ⟨rfl, h⟩]

/-- One dash alone is a symbol. Counterpart of `Scan.nextToken`. -/
theorem nextToken_minus (atStart : Bool) {rest : List Char} (h : rest.head? ≠ some '-') :
    nextToken atStart '-' rest = (.symbol .minus, 0) := by
  have hread : Symbol.read? ('-' :: rest) = some .minus :=
    @read?_append .minus rest fun c _ =>
      Symbol.goesOn_eq_false (Symbol.followers_eq .minus (Symbol.mem_all _)) List.not_mem_nil
  exact nextToken_symbol atStart nofun (fun _ => h) (by simp) (bracketLevel?_of_ne (by simp) rest)
    rfl nofun rfl hread

/-- A token that starts with a dash is a comment or the sign. Counterpart of `Scan.nextToken`. -/
theorem kind_of_dash {atStart : Bool} {rest : List Char} {kind : Kind} {length : Nat}
    (h : nextToken atStart '-' rest = (kind, length)) :
    kind.isComment = true ∨ kind = .symbol .minus := by
  by_cases hrest : rest.head? = some '-'
  · left
    rw [← isComment_comment rest, ← nextToken_dashes atStart hrest, h]
  · rw [nextToken_minus atStart hrest] at h
    cases h
    exact .inr rfl

/-- A line that starts with another character than a line break is not empty. Counterpart of
`lineLength`. -/
theorem lineLength_pos {c : Char} {rest : List Char} (h : rest.head? = some c) (hline : c ≠ '\n')
    (hreturn : c ≠ '\r') : 0 < lineLength rest := by
  obtain ⟨tail, rfl⟩ := List.head?_eq_some_iff.1 h
  unfold lineLength
  rw [List.takeWhile_cons_of_pos (by simpa using hline)]
  dsimp only
  split
  · rename_i hlast
    cases hline : tail.takeWhile (· != '\n') with
    | nil => simp [hline, hreturn] at hlast
    | cons c line => simp
  · simp

/-- The token of a comment has both dashes. Counterpart of `Scan.comment`. -/
theorem length_comment_pos {rest : List Char} (h : rest.head? = some '-') :
    0 < (comment rest).2 := by
  unfold comment
  split
  · split
    · omega
    · obtain ⟨tail, rfl⟩ := List.head?_eq_some_iff.1 h
      simp
  · exact lineLength_pos h (by decide) (by decide)

/-- A token that is a comment starts with two dashes. Counterpart of `nextToken`. -/
theorem isPrefixOf_comment {atStart : Bool} {first : Char} {rest : List Char} {kind : Kind}
    {length : Nat} (h : nextToken atStart first rest = (kind, length))
    (hkind : kind.isComment = true) : ['-', '-'].isPrefixOf (first :: rest.take length) = true := by
  obtain ⟨rfl, hrest⟩ := dashes_of_isComment (by rw [h]; exact hkind)
  have hlength : 0 < length := by
    have hpos := length_comment_pos hrest
    rwa [← nextToken_dashes atStart hrest, h] at hpos
  obtain ⟨tail, rfl⟩ := List.head?_eq_some_iff.1 hrest
  obtain ⟨more, rfl⟩ := Nat.exists_eq_succ_of_ne_zero hlength.ne'
  simp

/-- Comments start with two dashes, and no other token but the sign starts with one. Counterpart of
`Scan.tokensFrom`. -/
theorem dashes_of_mem {offset : Nat} {source : List Char} {token : Token}
    (h : token ∈ tokensFrom offset source) :
    (token.kind.isComment = true → ['-', '-'].isPrefixOf token.lexeme = true) ∧
      (token.lexeme.head? = some '-' → token.kind.isComment = true ∨
        token.kind = .symbol .minus) := by
  fun_induction tokensFrom offset source with
  | case1 => cases h
  | case2 offset c rest _ ih => exact ih h
  | case3 offset c rest _ kind length hnext lexeme ih =>
    rcases List.mem_cons.1 h with rfl | h
    · refine ⟨isPrefixOf_comment hnext, fun hhead => ?_⟩
      obtain rfl : c = '-' := by simpa [lexeme] using hhead
      exact kind_of_dash hnext
    · exact ih h

end Scan

/-! ## Leaves -/

/-- The text is that of a name or a literal among the tokens. -/
def IsLeafText (ts : List Token) (text : String) : Prop :=
  ∃ token ∈ ts, text = Parser.textOf token ∧
    (token.kind = .identifier ∨ (Parser.literalKind? token.kind).isSome = true)

/-- The text of a token is so among more tokens. Counterpart of `IsLeafText`. -/
theorem IsLeafText.mono {ts us : List Token} {text : String} (h : IsLeafText ts text)
    (hsub : ts ⊆ us) :
    IsLeafText us text := by
  obtain ⟨token, hmem, htoken⟩ := h
  exact ⟨token, hsub hmem, htoken⟩

section
variable {isApart : Bool} {rule : Rule} {a b : Nat} {ts : List Token} {nodes : List Node}

/-- The texts of leaves are those of tokens. Counterpart of `Shape.leafText?`. -/
theorem Derives.isLeafText (h : Derives isApart rule a b ts nodes) :
    ∀ node ∈ nodes, ∀ text ∈ node.shape.leafText?, IsLeafText ts text := by
  induction h with
  | identifier ht | lastName ht | lastParameter ht | nameStart ht =>
    intro node hmem text htext
    cases List.mem_singleton.1 hmem
    cases htext
    exact ⟨_, List.mem_singleton_self _, rfl, .inl ht⟩
  | literal ht | varargs ht =>
    intro node hmem text htext
    cases List.mem_singleton.1 hmem
    cases htext
    exact ⟨_, List.mem_singleton_self _, rfl, .inr (by rw [ht]; rfl)⟩
  | parens _ _ _ ih =>
    intro node hmem text htext
    rw [List.mem_singleton.1 hmem, Node.shape_parenthesise] at htext
    exact (ih _ (List.mem_singleton_self _) text htext).mono (by simp)
  | lastExpression _ ih | someArguments _ ih | plain _ _ ih | lastField _ ih | nameDotted _ ih
  | lastClause _ ih => exact ih
  | semicolon _ _ ih =>
    intro node hmem text htext
    exact (ih node hmem text htext).mono (by simp)
  | moreExpressions _ _ _ ih ihs | moreFields _ _ _ ih ihs | moreStatements _ _ _ ih ihs
  | moreClauses _ _ _ _ ih ihs =>
    intro node hmem text htext
    rcases List.mem_cons.1 hmem with rfl | hmem
    · exact (ih _ (List.mem_singleton_self _) text htext).mono (by simp)
    · exact (ihs node hmem text htext).mono fun _ htoken => by simp [htoken]
  | moreNames ht _ _ ih | moreParameters ht _ _ _ ih =>
    intro node hmem text htext
    rcases List.mem_cons.1 hmem with rfl | hmem
    · cases htext
      exact ⟨_, List.mem_cons_self, rfl, .inl ht⟩
    · exact (ih node hmem text htext).mono fun _ htoken => by simp [htoken]
  | noArguments | noParameters | noFields | emptyBlock => nofun
  | _ =>
    intro node hmem text htext
    cases List.mem_singleton.1 hmem
    cases htext

end

/-! ## The tree of a program without faults -/

section
variable {source : List Char}

/-- A name or a literal does not start with a dash. Counterpart of `Shape.leafText?`. -/
theorem head?_leafText (h : (parse source).isValid = true) {part : Node}
    (hpart : part.Part (parse source).root) :
    ∀ text ∈ part.shape.leafText?, text.toList.head? ≠ some '-' := by
  intro text htext hhead
  rcases derives_part h hpart with rfl | ⟨rule, first, front, us, back, htokens, -, -, hderives⟩
  · rw [root_parse] at htext
    cases htext
  · obtain ⟨token, hmem, rfl, hkind⟩ := hderives.isLeafText part.bare (by simp) text
      (by rwa [Node.shape_bare])
    have htoken : token ∈ (parse source).tokens := by
      rw [htokens]
      simp [hmem]
    obtain ⟨htoken, hcode⟩ := List.mem_filter.1 htoken
    rw [Parser.textOf, String.toList_ofList] at hhead
    rcases (Scan.dashes_of_mem htoken).2 hhead with hcomment | hminus
    · simp [Program.isCode, hcomment] at hcode
    · rw [hminus] at hkind
      rcases hkind with hkind | hkind
      · cases hkind
      · simp [Parser.literalKind?] at hkind

/-- All expressions and statements inside a node were read. Counterpart of `Shape.isInvalid`. -/
theorem isInvalid_children (h : (parse source).isValid = true) {part : Node}
    (hpart : part.Part (parse source).root) :
    ∀ child ∈ part.children, child.shape.isInvalid = false := by
  intro child hchild
  rcases derives_part h ((Node.Part.of_mem_children hchild).trans hpart) with
    rfl | ⟨rule, first, front, us, back, -, -, -, hderives⟩
  · rw [root_parse]
    rfl
  · simpa using (hderives.isRead child.bare (by simp)).1

/-- In a valid source no statement was left out by the parser. Counterpart of
`Node.isUnreadStatement`. -/
theorem isUnreadStatement_children (h : (parse source).isValid = true) {part : Node}
    (hpart : part.Part (parse source).root) :
    ∀ child ∈ part.children, child.isUnreadStatement = false := by
  intro child hchild
  have hread := isInvalid_children h hpart child hchild
  unfold Node.isUnreadStatement
  split
  · rename_i hshape
    rw [hshape] at hread
    cases hread
  · rename_i expression hshape
    exact isInvalid_children h ((Node.Part.of_mem_children hchild).trans hpart) expression
      (by simp [Node.children, hshape, Shape.children])
  · rfl

variable {style : Style} {part : Node}

/-- A part without comments inside shows none there. Counterpart of `Context.inside`. -/
theorem inside_eq_zero {betweenParens : Bool} (h : ∀ comment,
    comment ∉ (Context.ofProgram (parse source) style).danglingComments part betweenParens) :
    (Context.ofProgram (parse source) style).inside part betweenParens = 0 := by
  rw [Context.inside, List.eq_nil_iff_forall_not_mem.2 h]
  rfl

/-- The nodes of a program without faults are tidy. Counterpart of `Context.TidyTree`. -/
theorem tidyTree_root (h : (parse source).isValid = true) (style : Style) :
    (Context.ofProgram (parse source) style).TidyTree (parse source).root := by
  intro part hpart
  refine ⟨head?_leafText h hpart, isUnreadStatement_children h hpart, fun hparens => ?_,
    fun hnoRoom => ?_⟩
  · refine inside_eq_zero fun comment hmem => ?_
    obtain ⟨-, hroom, hbetween⟩ := exists_of_mem_danglingComments h hpart hmem
    rw [Node.HasRoom, if_pos hbetween, hparens] at hroom
    cases hroom
  · refine inside_eq_zero fun comment hmem => ?_
    obtain ⟨hprints, hroom, hbetween⟩ := exists_of_mem_danglingComments h hpart hmem
    rw [Node.HasRoom, if_neg (by simp [hbetween]), Node.children] at hroom
    exact absurd (Shape.hasRoom_of_printsDangling hprints hroom) (by simp [hnoRoom])

/-- All comments of a program start with two dashes. Counterpart of `Context.IsMarked`. -/
theorem isMarked_ofProgram (source : List Char) (style : Style) :
    (Context.ofProgram (parse source) style).IsMarked := by
  intro attachment hmem
  have hcomment : attachment.comment ∈ (parse source).comments := by
    rw [← map_comment_attachments]
    exact List.mem_map_of_mem hmem
  obtain ⟨token, htoken, hkind, -, htext, -⟩ := exists_token_of_comment hcomment
  rw [Comment.IsMarked, htext]
  exact (Scan.dashes_of_mem htoken).1 hkind

/-- A shebang does not start with a dash, so it is not taken for a comment. Counterpart of
`Program.shebang`. -/
theorem head?_shebang (source : List Char) :
    ∀ token ∈ (parse source).shebang, token.lexeme.head? ≠ some '-' := by
  intro token hmem hhead
  have hfind : (tokenise source).find? (·.kind = .shebang) = some token := hmem
  have hkind : token.kind = .shebang := by simpa using List.find?_some hfind
  rcases (Scan.dashes_of_mem (List.mem_of_find?_eq_some hfind)).2 hhead with hcomment | hminus
  · rw [hkind] at hcomment
    cases hcomment
  · cases hkind.symm.trans hminus

/-- Whichever forms the choices in the document of a program take, each comment of the source is
printed once: the documents of comments in what is left are those of the comments of the source, in
some order. Counterpart of `Program.toDoc`. -/
theorem comments_printed_once (h : (parse source).isValid = true) (style : Style) {plain : Doc}
    (hplain : ((parse source).toDoc style).Resolves plain) :
    plain.commentDocs.Perm ((parse source).comments.map Context.commentText) := by
  have hshown := shows_compile (isMarked_ofProgram source style) (head?_shebang source) {}
    (parse source).root (tidyTree_root h style)
  have hperm := (flatMap_owned_perm source style).map Attachment.comment
  rw [map_comment_attachments] at hperm
  refine Multiset.coe_eq_coe.1 ((hshown plain hplain).2.trans ?_)
  exact Multiset.coe_eq_coe.2 (hperm.map Context.commentText)

end

/-- A call whose last argument may be hugged, with a comment in that argument and one after the
call. -/
theorem comments_printed_once_hugged :
    let source := "f(1, \x7b --[[a]] \x7d) -- b".toList
    ((parse source).isValid = true ∧
        ((parse source).toDoc {}).Resolves ((parse source).toDoc {}).firstForms) ∧
      ((parse source).toDoc {}).firstForms.commentDocs.Perm [.text "--[[a]]", .note "-- b"] := by
  have hvalid : (parse "f(1, \x7b --[[a]] \x7d) -- b".toList).isValid = true := by decide +kernel
  have hcomments : (parse "f(1, \x7b --[[a]] \x7d) -- b".toList).comments =
      [⟨true, ⟨7, 14⟩, "--[[a]]".toList⟩, ⟨false, ⟨18, 22⟩, "-- b".toList⟩] := by decide +kernel
  refine ⟨⟨hvalid, Doc.resolves_firstForms _⟩, ?_⟩
  have hprinted := comments_printed_once hvalid {} (Doc.resolves_firstForms _)
  rw [hcomments] at hprinted
  exact hprinted

end LuaFormatter
