import LuaFormatter.Proofs.Format.Uncommented
import LuaFormatter.Proofs.Grammar.Placement
import LuaFormatter.Proofs.Grammar.Positions
import LuaFormatter.Proofs.Token.Gaps

/-!
# One text for each sequence of tokens

Sources with the same tokens, without comments and without blank lines between tokens, are formatted
alike (`format_eq_of_content_eq`). The trees that are read from them have the same form. Where the
formatter looks for a blank line, behind a node of a list that is followed by another one, it finds
none (`Yields.listSkeleton_eq`), so the skeletons are the same, and with them the documents.
-/

namespace LuaFormatter

/-! ## Skeletons for two tests -/

namespace Node

section
variable {isBlankAfter isOther : Nat → Bool}

/-- Whether a paragraph ends with a node says nothing about its skeleton. Counterpart of
`Node.skeleton`. -/
theorem skeleton_eq_of_eq {node : Node} {ends isEnd : Bool}
    (h : node.skeleton isBlankAfter ends = node.skeleton isOther isEnd) :
    node.skeleton isBlankAfter false = node.skeleton isOther false := by
  obtain ⟨number, shape, span, inParens⟩ := node
  simp only [skeleton, mk.injEq] at h
  rw [skeleton, skeleton, h.2.1]

/-- Two tests that tell apart no nodes of a list tell apart none of its two halves. Counterpart of
`Node.listSkeleton`. -/
theorem listSkeleton_eq_of_append {front back : List Node}
    (h : listSkeleton isBlankAfter (front ++ back) = listSkeleton isOther (front ++ back)) :
    listSkeleton isBlankAfter front = listSkeleton isOther front ∧
      listSkeleton isBlankAfter back = listSkeleton isOther back := by
  induction front with
  | nil => exact ⟨rfl, h⟩
  | cons node rest ih =>
    rw [List.cons_append, listSkeleton, listSkeleton] at h
    obtain ⟨hnode, hrest⟩ := List.cons.inj h
    obtain ⟨hfront, hback⟩ := ih hrest
    refine ⟨?_, hback⟩
    rw [listSkeleton, listSkeleton, hfront]
    cases rest with
    | nil =>
      rw [List.isEmpty_nil, Bool.not_true, Bool.false_and, Bool.false_and, skeleton_eq_of_eq hnode]
    | cons next rest => exact congrArg (· :: _) hnode

/-- Two tests for blank lines that give one skeleton for a list give one for its first node and one
for the rest. Counterpart of `listSkeleton`. -/
theorem listSkeleton_eq_of_cons {node : Node} {rest : List Node}
    (h : listSkeleton isBlankAfter (node :: rest) = listSkeleton isOther (node :: rest)) :
    node.skeleton isBlankAfter false = node.skeleton isOther false ∧
      listSkeleton isBlankAfter rest = listSkeleton isOther rest := by
  obtain ⟨hnode, hrest⟩ := List.cons.inj h
  exact ⟨skeleton_eq_of_eq hnode, hrest⟩

/-- An optional node has one skeleton if the list of at most one does. Counterpart of
`optionSkeleton`. -/
theorem optionSkeleton_eq_of_toList {node : Option Node}
    (h : listSkeleton isBlankAfter node.toList = listSkeleton isOther node.toList) :
    optionSkeleton isBlankAfter node = optionSkeleton isOther node := by
  cases node with
  | none => rfl
  | some node => exact congrArg some (listSkeleton_eq_of_cons h).1

/-- Two tests that tell apart no parts of a shape do not tell apart the shape. Counterpart of
`Node.shapeSkeleton`. -/
theorem shapeSkeleton_eq_of_children {shape : Shape Node}
    (h : listSkeleton isBlankAfter shape.children = listSkeleton isOther shape.children) :
    shapeSkeleton isBlankAfter shape = shapeSkeleton isOther shape := by
  cases shape with
  | breakStatement | identifier _ | literal _ _ | invalid => rfl
  | chunk _ | doBlock _ | conditional _ | returnStatement _ | table _ =>
    exact congrArg _ h
  | callStatement _ | gotoStatement _ | labelStatement _ | valueField _ | unary _ _ =>
    exact congrArg _ (listSkeleton_eq_of_cons h).1
  | localVariables names values | assignment names values =>
    obtain ⟨hnames, hvalues⟩ := listSkeleton_eq_of_append h
    simp only [shapeSkeleton, hnames, hvalues]
  | function isLocal name parameters body =>
    obtain ⟨hhead, hbody⟩ := listSkeleton_eq_of_append h
    obtain ⟨hname, hparameters⟩ := listSkeleton_eq_of_append hhead
    simp only [shapeSkeleton, optionSkeleton_eq_of_toList hname, hparameters, hbody]
  | clause kind condition body =>
    obtain ⟨hcondition, hbody⟩ := listSkeleton_eq_of_append h
    simp only [shapeSkeleton, optionSkeleton_eq_of_toList hcondition, hbody]
  | whileLoop _ _ | call _ _ =>
    obtain ⟨hfirst, hrest⟩ := listSkeleton_eq_of_cons h
    simp only [shapeSkeleton, hfirst, hrest]
  | repeatLoop body condition =>
    obtain ⟨hbody, hcondition⟩ := listSkeleton_eq_of_append h
    simp only [shapeSkeleton, hbody, (listSkeleton_eq_of_cons hcondition).1]
  | numericFor counter first last step body =>
    obtain ⟨hhead, hbody⟩ := listSkeleton_eq_of_append h
    obtain ⟨hcounter, hhead⟩ := listSkeleton_eq_of_cons hhead
    obtain ⟨hfirst, hhead⟩ := listSkeleton_eq_of_cons hhead
    obtain ⟨hlast, hstep⟩ := listSkeleton_eq_of_cons hhead
    simp only [shapeSkeleton, hcounter, hfirst, hlast, optionSkeleton_eq_of_toList hstep, hbody]
  | genericFor names iterators body =>
    obtain ⟨hhead, hbody⟩ := listSkeleton_eq_of_append h
    obtain ⟨hnames, hiterators⟩ := listSkeleton_eq_of_append hhead
    simp only [shapeSkeleton, hnames, hiterators, hbody]
  | keyField _ _ | nameField _ _ | binary _ _ _ | member _ _ _ | index _ _ | tableCall _ _
  | stringCall _ _ =>
    obtain ⟨hfirst, hrest⟩ := listSkeleton_eq_of_cons h
    simp only [shapeSkeleton, hfirst, (listSkeleton_eq_of_cons hrest).1]

end

end Node

/-! ## Tokens behind a node -/

/-- A literal separates no items. Counterpart of `Kind.isSeparator`. -/
theorem Kind.isSeparator_of_literalKind? {kind : Kind} {literal : LiteralKind}
    (h : Parser.literalKind? kind = some literal) : kind.isSeparator = false := by
  cases hkind : kind.isSeparator with
  | false => rfl
  | true =>
    unfold isSeparator at hkind
    split at hkind
    · cases h
    · cases h
    · cases hkind

/-- Some token of a node is no separator. Counterpart of `Kind.isSeparator`. -/
theorem Derives.exists_isSeparator_eq_false {isApart : Bool} {rule : Rule} {a b : Nat}
    {tokens : List Token} {nodes : List Node} (h : Derives isApart rule a b tokens nodes)
    (hne : nodes ≠ []) : ∃ token ∈ tokens, token.kind.isSeparator = false := by
  induction h with
  | literal hkind => exact ⟨_, List.mem_singleton_self _, Kind.isSeparator_of_literalKind? hkind⟩
  | _ => grind [Kind.isSeparator]

/-- Nodes have a token besides separators, since an operand or a keyword is part of each.
Counterpart of `Yields`. -/
theorem Yields.exists_isSeparator_eq_false {isApart : Bool} {stop a b : Nat} {tokens : List Token}
    {nodes : List Node} (h : Yields isApart stop a b tokens nodes) (hne : nodes ≠ []) :
    ∃ token ∈ tokens, token.kind.isSeparator = false := by
  induction h with
  | nil => exact absurd rfl hne
  | token t _ ih =>
    obtain ⟨token, hmem, htoken⟩ := ih hne
    exact ⟨token, List.mem_cons_of_mem _ hmem, htoken⟩
  | node inParens hderives _ _ _ _ _ _ =>
    obtain ⟨token, hmem, htoken⟩ := hderives.exists_isSeparator_eq_false (List.cons_ne_nil _ _)
    exact ⟨token, List.mem_append_left _ hmem, htoken⟩

/-- The test finds no blank line at the ends of tokens that are followed by more than separators. -/
structure Dense (isBlankAfter : Nat → Bool) (tokens : List Token) : Prop where
  ordered : Ordered tokens
  stop : ∀ token ∈ tokens, ∀ later ∈ tokens, later.kind.isSeparator = false →
    token.stop ≤ later.start → isBlankAfter token.stop = false
  start : ∀ token ∈ tokens, ∀ later ∈ tokens, later.kind.isSeparator = false →
    token.start ≤ later.start → isBlankAfter token.start = false

namespace Dense

variable {isBlankAfter : Nat → Bool} {tokens front back : List Token}

/-- Fewer tokens have no more blank lines between them. Counterpart of `Dense`. -/
theorem sublist (h : Dense isBlankAfter tokens) (hsub : front.Sublist tokens) :
    Dense isBlankAfter front where
  ordered := h.ordered.sublist hsub
  stop token hmem later hlater := h.stop token (hsub.mem hmem) later (hsub.mem hlater)
  start token hmem later hlater := h.start token (hsub.mem hmem) later (hsub.mem hlater)

/-- No blank line follows a node with tokens in front of others that are more than separators.
Counterpart of `Dense`. -/
theorem isBlankAfter_spanOf (h : Dense isBlankAfter (front ++ back)) (hne : front ≠ [])
    (hback : ∃ token ∈ back, token.kind.isSeparator = false) (shape : Shape Node) (stop : Nat) :
    isBlankAfter (shape.spanOf front (startOr stop back)).stop = false := by
  obtain ⟨later, hlater, hseparator⟩ := hback
  unfold Shape.spanOf
  split
  · -- A branch reaches up to the first of the tokens behind it.
    cases back with
    | nil => cases hlater
    | cons next rest =>
      obtain ⟨first, hfirst, hstart⟩ := exists_start_eq hne
      have hle := h.ordered.stop_le_start hfirst (List.mem_cons_self : next ∈ next :: rest)
      have hlt := h.ordered.start_lt_stop first (List.mem_append_left _ hfirst)
      have hmax : max (startOr stop (next :: rest)) (tokensSpan front).start = next.start := by
        show max next.start (tokensSpan front).start = next.start
        omega
      have hnext : next.start ≤ later.start := by
        rw [← tokensSpan_start next rest]
        exact h.ordered.right.start_le hlater
      dsimp only
      rw [hmax]
      exact h.start next (by simp) later (List.mem_append_right _ hlater) hseparator hnext
  · obtain ⟨last, hlast, hstop⟩ := h.ordered.left.exists_stop_eq hne
    rw [← hstop]
    exact h.stop last (List.mem_append_left _ hlast) later (List.mem_append_right _ hlater)
      hseparator (h.ordered.stop_le_start hlast hlater)

end Dense

/-- Between dense tokens, a test finds no paragraphs. Counterpart of `Node.listSkeleton`. -/
theorem Yields.listSkeleton_eq {isApart : Bool} {isBlankAfter : Nat → Bool} {stop a b : Nat}
    {tokens : List Token} {nodes : List Node} (h : Yields isApart stop a b tokens nodes)
    (hdense : Dense isBlankAfter tokens) :
    Node.listSkeleton isBlankAfter nodes = Node.listSkeleton (fun _ => false) nodes := by
  induction h with
  | nil => rfl
  | token t _ ih => exact ih (hdense.sublist (List.sublist_cons_self _ _))
  | @node stop a b c us ts nodes shape span rule inParens _ hne hspan _ hrest ihparts ihrest =>
    have hparts := ihparts (hdense.sublist (List.sublist_append_left _ _))
    have hends : (!nodes.isEmpty && isBlankAfter span.stop) = false := by
      cases nodes with
      | nil => rfl
      | cons next nodes =>
        rw [hspan,
          hdense.isBlankAfter_spanOf hne (hrest.exists_isSeparator_eq_false (List.cons_ne_nil _ _)),
          Bool.and_false]
    rw [Node.listSkeleton, Node.listSkeleton,
      ihrest (hdense.sublist (List.sublist_append_right _ _))]
    dsimp only [Node.span]
    rw [hends, Bool.and_false, Node.skeleton, Node.skeleton,
      Node.shapeSkeleton_eq_of_children hparts]

/-! ## Whole sources -/

section
variable {source other : List Char}

/-- No token of a source without comments is a comment. Counterpart of `Program.comments`. -/
theorem isComment_eq_false (h : (parse source).comments = []) :
    ∀ token ∈ tokenise source, token.kind.isComment = false := by
  intro token hmem
  have hnone : Program.commentOf? token = none := List.filterMap_eq_nil_iff.1 h token hmem
  unfold Program.commentOf? at hnone
  split at hnone
  · cases hnone
  · rename_i hkind
    exact Bool.eq_false_iff.2 hkind

/-- The tokens of a source without comments and blank lines are dense. Counterpart of `Dense`. -/
theorem dense_tokenise (hcomments : (parse source).comments = [])
    (hblank : hasBlankLine source = false) :
    Dense (Gap.isNextLineBlank (utf8 source)) (tokenise source) where
  ordered := ordered_tokenise source
  stop _ hmem _ hlater hseparator hle :=
    isNextLineBlank_stop hblank (isComment_eq_false hcomments) hmem hlater hle hseparator
  start _ hmem _ hlater hseparator hle :=
    isNextLineBlank_start hblank (isComment_eq_false hcomments) hmem hlater hle hseparator

/-- A shebang is at the start of its source. Counterpart of `Scan.nextToken` for `Kind.shebang`. -/
theorem Scan.atStart_of_shebang {atStart : Bool} {c : Char} {rest : List Char}
    (h : (nextToken atStart c rest).1 = .shebang) : atStart = true := by
  unfold nextToken at h
  split at h
  · rename_i hshebang
    exact hshebang.2.1
  · exfalso
    unfold comment quoted longString word at h
    grind

/-- A shebang stands at the start of the source. Counterpart of `nextToken`. -/
theorem Scan.start_of_shebang {offset : Nat} {text : List Char} {token : Token}
    (hmem : token ∈ tokensFrom offset text) (h : token.kind = .shebang) : token.start = 0 := by
  fun_induction tokensFrom offset text with
  | case1 => cases hmem
  | case2 offset c rest _ ih => exact ih hmem
  | case3 offset c rest _ kind length hnext lexeme ih =>
    rcases List.mem_cons.1 hmem with rfl | hmem
    · have hstart := @atStart_of_shebang (offset == 0) c rest (by rw [hnext]; exact h)
      simpa using hstart
    · exact ih hmem

/-- No blank line is kept after the shebang. Counterpart of `Program.shebangLine`. -/
theorem shebangLine_eq (h : (parse source).isValid = true)
    (hdense : Dense (Gap.isNextLineBlank (utf8 source)) (tokenise source)) :
    (parse source).shebangLine =
      (((tokenise source).map Token.content).find? (·.1 = .shebang)).map
        fun content => (trimEnd content.2, false) := by
  rw [List.find?_map, Option.map_map]
  show ((tokenise source).find? (·.kind = .shebang)).map _ = _
  refine Option.map_congr fun token hfind => ?_
  have hmem := List.mem_of_find?_eq_some hfind
  have hkind : token.kind = .shebang := by simpa using List.find?_some hfind
  refine Prod.ext rfl ?_
  show (!(chunkRun source).1.isEmpty && Gap.isNextLineBlank (utf8 source) token.stop) = false
  cases hbody : (chunkRun source).1 with
  | nil => rfl
  | cons first rest =>
    obtain ⟨later, hlater, hseparator⟩ :=
      (derives_of_isValid h).exists_isSeparator_eq_false (by simp [hbody])
    obtain ⟨hlater, hcode⟩ := List.mem_filter.1 hlater
    have hne : token ≠ later := by
      rintro rfl
      simp [Program.isCode, hkind] at hcode
    have hle : token.stop ≤ later.start := by
      have hstart := Scan.start_of_shebang hmem hkind
      have hlt := hdense.ordered.start_lt_stop later hlater
      rcases hdense.ordered.apart hmem hlater hne with hle | hle
      · exact hle
      · omega
    rw [hdense.stop token hmem later hlater hseparator hle, Bool.and_false]

/-- The document of a program without comments and blank lines, from the form of its tree.
Counterpart of `Program.toDoc`. -/
theorem toDoc_eq_of_dense (h : (parse source).isValid = true)
    (hcomments : (parse source).comments = []) (hblank : hasBlankLine source = false)
    (style : Style) :
    (parse source).toDoc style =
      skeletonDoc style
        ((((tokenise source).map Token.content).find? (·.1 = .shebang)).map
          fun content => (trimEnd content.2, false))
        (Node.listSkeleton (fun _ => false) (chunkRun source).1) := by
  have hdense := dense_tokenise hcomments hblank
  have hyields : Yields true 0 1 (parse source).nodeCount (parse source).tokens
      (chunkRun source).1 := (derives_of_isValid h).yields
  rw [toDoc_eq_skeletonDoc h hcomments, shebangLine_eq h hdense,
    hyields.listSkeleton_eq (hdense.sublist List.filter_sublist)]

/-- The kinds and texts of the code are those of all tokens, without comments and the shebang.
Counterpart of `Program.tokens`. -/
theorem tokens_content (source : List Char) :
    (parse source).tokens.map Token.content =
      ((tokenise source).map Token.content).filter
        (fun content => !content.1.isComment && content.1 ≠ .shebang) := by
  rw [List.filter_map]
  rfl

/-- Two valid sources without comments and without blank lines between tokens are formatted alike,
in every style, if they have the same tokens. Counterpart of `format`. -/
theorem format_eq_of_content_eq (h : (parse source).isValid = true)
    (h' : (parse other).isValid = true) (hcomments : (parse source).comments = [])
    (hcomments' : (parse other).comments = []) (hblank : hasBlankLine source = false)
    (hblank' : hasBlankLine other = false)
    (htokens : (tokenise source).map Token.content = (tokenise other).map Token.content)
    (style : Style) : format source style = format other style := by
  have hforms : SameForms (chunkRun source).1 (chunkRun other).1 := by
    apply sameForms_chunkRun
    rw [tokens_content, tokens_content, htokens]
  have hdoc : (parse source).toDoc style = (parse other).toDoc style := by
    rw [toDoc_eq_of_dense h hcomments hblank, toDoc_eq_of_dense h' hcomments' hblank',
      htokens, hforms]
  exact congrArg (Doc.layout style) hdoc

/-- A shebang, a call whose arguments stand on lines of their own, and a separator. -/
theorem format_eq_of_content_eq_respaced :
    let source := "#!lua\nf(a,\n  b)\n;g = \"c\"".toList
    let other := "#!lua\r\nf ( a, b );\r\tg=\"c\"".toList
    ((parse source).isValid = true ∧ (parse other).isValid = true ∧ (parse source).comments = [] ∧
        (parse other).comments = [] ∧ hasBlankLine source = false ∧ hasBlankLine other = false ∧
        (tokenise source).map Token.content = (tokenise other).map Token.content) ∧
      format source {} = format other {} :=
  ⟨by decide +kernel, format_eq_of_content_eq (by decide +kernel) (by decide +kernel)
    (by decide +kernel) (by decide +kernel) (by decide +kernel) (by decide +kernel)
    (by decide +kernel) {}⟩

end

end LuaFormatter
