import LuaFormatter.Proofs.Format.Brackets
import LuaFormatter.Proofs.Format.Cosmetic
import LuaFormatter.Proofs.Format.FirstText
import LuaFormatter.Proofs.Format.ReprintStatement
import LuaFormatter.Proofs.Format.Uncommented

/-!
# Reading the output

The output for a program without comments is read as the program: the tree of the output has the
form of the tree that is kept of the source, up to the quotes of strings, the line breaks in
strings, and fields whose keys are names (`parse_format`). Three things can go wrong, each because
of something in the source that `Legible` rules out: a bracket before a key that starts with a long
string, a statement that is written with a parenthesis that the tree does not show, and the line
breaks of a style in a string.
-/

namespace LuaFormatter

open Layout

/-! ## What can be read -/

/-- The source is formatted to what can be read in the same way. -/
structure Legible (source : List Char) (style : Style) : Prop where
  /-- No key is an operation that starts with a long string. -/
  brackets : ∀ part : Node, part.Part (parse source).root → part.hidesBracket = false
  /-- No statement loses its first parenthesis after one that the next parenthesis would call. -/
  statements : ∀ part : Node, part.Part (parse source).root → ∀ body, part.shape.body? = some body →
    body.IsChain (Context.ofProgram (parse source) style).Divides
  /-- The line breaks of the style do not change what a string means. -/
  literals : ∀ token ∈ (parse source).tokens, token.KeepsValue style

instance (style : Style) (token : Token) : Decidable (token.KeepsValue style) := by
  unfold Token.KeepsValue
  split <;> infer_instance

instance (context : Context) : DecidableRel context.Divides :=
  fun _ _ => inferInstanceAs (Decidable (_ → _))

instance (source : List Char) (style : Style) : Decidable (Legible source style) :=
  decidable_of_iff
    ((∀ part ∈ (parse source).root.preorder, part.hidesBracket = false ∧
        ∀ body ∈ part.shape.body?, body.IsChain (Context.ofProgram (parse source) style).Divides) ∧
      ∀ token ∈ (parse source).tokens, token.KeepsValue style)
    ⟨fun h => ⟨fun part hpart => (h.1 part (Node.mem_preorder.2 hpart)).1,
        fun part hpart body hbody => (h.1 part (Node.mem_preorder.2 hpart)).2 body hbody, h.2⟩,
      fun h => ⟨fun part hpart => ⟨h.brackets part (Node.mem_preorder.1 hpart),
        fun body hbody => h.statements part (Node.mem_preorder.1 hpart) body hbody⟩, h.literals⟩⟩

/-- A document that is written with a token first opens with the text of the token. Counterpart of
`Doc.Opens`. -/
theorem Doc.Opens.head_eq {doc : Doc} {text : String} (h : doc.Opens text) {kind : Kind} {c : Char}
    {front : List Char} {slots : List Slot}
    (hdoc : Implements doc (.token kind (c :: front) :: slots)) (hc : c ≠ '\n') :
    text.toList.head? = some c := by
  obtain ⟨word, hword, hflushed⟩ := flushed_traceOf {} doc
  obtain ⟨pieces, hpieces, rfl⟩ := hdoc .broken 0 word hword
  obtain ⟨_, _, rfl, rfl, -⟩ := hpieces
  obtain ⟨rest, hinks, -⟩ := Flushed.exists_token hc hflushed
  obtain ⟨isNote, _, later, hlater, -⟩ := h.printed {} 0 .broken (start doc) [] rfl
  obtain ⟨d, tail, htext⟩ := List.exists_cons_of_ne_nil (mt String.toList_eq_nil_iff.1 h.filled)
  have htrace : traceOf {} doc = Ink.ofText isNote text.toList ++ trace {} later := hlater.trace
  rw [hinks, htext] at htrace
  obtain ⟨hhead, -⟩ := List.cons.inj htrace
  rw [htext, (Ink.char.inj hhead).2]
  rfl

section
variable {source : List Char} {style : Style}

/-- What is written for a part of a legible source can be read. Counterpart of `Legible`. -/
theorem Legible.part (hlegible : Legible source style) (h : (parse source).isValid = true)
    {part : Node} (hpart : part.Part (parse source).root) :
    part.Legible (Context.ofProgram (parse source) style) where
  name name hshape := by
    have hread := isReadFrom_of_part hpart
    rw [hshape] at hread
    obtain ⟨token, htoken, hkind, rfl⟩ := hread
    have hreads := reads_of_hasToken htoken (by rw [hkind]; rfl)
    rwa [hkind] at hreads
  literal kind text hshape := by
    have hread := isReadFrom_of_part hpart
    rw [hshape] at hread
    obtain ⟨token, htoken, hkind, rfl⟩ := hread
    have hreads := reads_of_hasToken htoken (Kind.isWord_of_literalKind? hkind)
    rw [Parser.textOf, String.toList_ofList] at hreads
    rcases htoken with hmem | rfl
    · exact (hlegible.literals token hmem).literalWritten hreads hkind
    · cases hkind
  bracket := hlegible.brackets part hpart
  minus operand rest hshape hspell := by
    have hchild : operand ∈ part.children := by simp [Node.children, hshape, Shape.children]
    have hexpression := isExpression_lead h hpart operand (by rw [hshape]; rfl)
    obtain ⟨text, hopens⟩ :=
      (opensNode_of_part h style ((Node.Part.of_mem_children hchild).trans hpart) hexpression).whole
      {}
    have hdoc := implements_compile (Context.ofProgram (parse source) style) {} operand
    rw [hspell] at hdoc
    have hhead : text.toList.head? = some '-' := hopens.head_eq hdoc (by decide)
    simp [spacesOperand, hopens.first, hhead]
  body := hlegible.statements part hpart

end

/-! ## The line that names the interpreter -/

namespace Scan

/-- A line goes up to the line break of a style. Counterpart of `lineLength`. -/
theorem lineLength_ending {line : List Char} (hline : '\n' ∉ line)
    (hreturn : line.getLast? ≠ some '\r') (style : Style) (back : List Char) :
    lineLength (line ++ (style.lineEnding.text ++ back)) = line.length := by
  have hfront : ∀ more : List Char, '\n' ∉ more →
      (line ++ (more ++ '\n' :: back)).takeWhile (· != '\n') = line ++ more := by
    intro more hmore
    rw [← List.append_assoc, List.takeWhile_append_of_pos, List.takeWhile_cons_of_neg (by simp),
      List.append_nil]
    intro c hc
    have hne : c ≠ '\n' := by
      rintro rfl
      exact (List.mem_append.1 hc).elim hline hmore
    simpa using hne
  have hending : style.lineEnding.text ++ back = [] ++ '\n' :: back ∨
      style.lineEnding.text ++ back = ['\r'] ++ '\n' :: back := by
    cases style.lineEnding <;> simp [LineEnding.text]
  unfold lineLength
  rcases hending with hending | hending
  · rw [hending, hfront [] (by simp)]
    simp [hreturn]
  · rw [hending, hfront ['\r'] (by simp)]
    simp

/-- A shebang is read as such at the start of a text. Counterpart of `tokenise`. -/
theorem tokenise_shebang {line : List Char} (hstart : ['#', '!'] <+: line) (hline : '\n' ∉ line)
    (hreturn : line.getLast? ≠ some '\r') (style : Style) (back : List Char) :
    tokenise (line ++ (style.lineEnding.text ++ back)) =
      ⟨.shebang, 0, line⟩ :: tokensFrom (byteLength line) (style.lineEnding.text ++ back) := by
  obtain ⟨rest, rfl⟩ := hstart
  have hlength : lineLength ('!' :: rest ++ (style.lineEnding.text ++ back)) =
      ('!' :: rest).length := by
    refine lineLength_ending (fun hmem => hline (List.mem_cons_of_mem _ hmem)) ?_ style back
    simpa [List.getLast?_cons] using hreturn
  have hnext : nextToken ((0 : Nat) == 0) '#' ('!' :: rest ++ (style.lineEnding.text ++ back)) =
      (.shebang, ('!' :: rest).length) := by
    rw [nextToken, if_pos ⟨rfl, rfl, rfl⟩, hlength]
  show tokensFrom 0 ('#' :: ('!' :: rest ++ (style.lineEnding.text ++ back))) = _
  rw [tokensFrom, if_neg (by decide), hnext]
  simp only [List.take_left, List.drop_left, Nat.zero_add]
  rfl

/-- A shebang starts with the two characters that mark it. Counterpart of `nextToken`. -/
theorem isPrefix_shebang {offset : Nat} {source : List Char} {token : Token}
    (h : token ∈ tokensFrom offset source) (hkind : token.kind = .shebang) :
    ['#', '!'] <+: token.lexeme := by
  fun_induction tokensFrom offset source with
  | case1 => cases h
  | case2 offset c rest _ ih => exact ih h
  | case3 offset c rest _ kind length hnext lexeme ih =>
    rcases List.mem_cons.1 h with rfl | h
    · have hfirst : c = '#' ∧ rest.head? = some '!' ∧ length = lineLength rest := by
        unfold nextToken at hnext
        split at hnext
        · rename_i hshebang
          cases hnext
          exact ⟨hshebang.1, hshebang.2.2, rfl⟩
        · exfalso
          obtain rfl : kind = .shebang := hkind
          unfold comment quoted longString word at hnext
          grind
      obtain ⟨rfl, hbang, rfl⟩ := hfirst
      obtain ⟨tail, rfl⟩ := List.head?_eq_some_iff.1 hbang
      obtain ⟨more, hmore⟩ := Nat.exists_eq_succ_of_ne_zero
        (lineLength_pos hbang (by decide) (by decide)).ne'
      exact ⟨tail.take more, by simp [lexeme, hmore]⟩
    · exact ih h

end Scan

section
variable {source : List Char} {style : Style}

/-- The shebang that is written is a line that starts as one and ends without a blank. Counterpart
of `Program.shebang`. -/
theorem line_shebang {token : Token} (h : token ∈ (parse source).shebang) :
    ['#', '!'] <+: trimEnd token.lexeme ∧ '\n' ∉ trimEnd token.lexeme ∧
      ∀ c ∈ (trimEnd token.lexeme).getLast?, isBlank c = false := by
  have hfind : (tokenise source).find? (·.kind = .shebang) = some token := h
  have hkind : token.kind = .shebang := by simpa using List.find?_some hfind
  refine ⟨prefix_trimEnd (by decide)
    (Scan.isPrefix_shebang (List.mem_of_find?_eq_some hfind) hkind),
    oneLine_shebang h rfl, fun c hc => ?_⟩
  have hhead := List.head?_dropWhile_not isBlank token.lexeme.reverse
  rw [trimEnd, List.getLast?_reverse] at hc
  rwa [hc] at hhead

/-! ## The tokens of the output -/

/-- What is written on empty paper, or after a line that is not followed by a blank yet, is read as
its tokens. Counterpart of `Fits`. -/
theorem Fits.exists_tokens {pieces : List Piece} (h : Fits style none pieces) {line gap : List Char}
    (hgap : ∀ c ∈ gap, Scan.isSkipped c = true)
    (hline : ∀ c ∈ line.getLast?, (c == ' ' || c == '\t') = false) :
    ∃ text, ((pieces.flatMap Piece.inks).foldl (Ink.put style)
        (gap.reverse ++ line.reverse)).reverse = line ++ text ∧
      ∀ offset, (Scan.tokensFrom offset text).map Token.content =
      pieces.filterMap (Piece.content? style) := by
  obtain ⟨text, htext, hjoined, -⟩ :=
    @Fits.exists_joined _ _ _ h (by simp) gap line.reverse hgap (by rwa [List.head?_reverse])
  exact ⟨text, by rw [htext]; simp, hjoined.map_content⟩

/-- The tokens of the pieces can be part of a program. Counterpart of `Fits`. -/
theorem Fits.isWord {pending : Option Kind} {pieces : List Piece} (h : Fits style pending pieces) :
    ∀ content ∈ pieces.filterMap (Piece.content? style), content.1.isWord = true := by
  induction pieces generalizing pending with
  | nil => exact List.forall_mem_nil _
  | cons piece rest ih =>
    cases piece with
    | token kind text => exact List.forall_mem_cons.2 ⟨h.1, ih h.2.2.2⟩
    | space | newline _ => exact ih h
    | later _ _ _ => exact h.elim

/-- The shebang is a line of its own, with a blank line after it or not. Counterpart of
`Context.shebangSlots`. -/
theorem shebangSlots_cases (context : Context) (body : List Spelled) :
    context.shebangSlots body = [] ∨
      ∃ token ∈ context.shebang, ∃ more, (more = [] ∨ more = [.hard]) ∧
        context.shebangSlots body = .token .shebang (trimEnd token.lexeme) :: .hard :: more := by
  unfold Context.shebangSlots
  split
  · rename_i token htoken
    exact .inr ⟨token, htoken, _, by split <;> simp, rfl⟩
  · exact .inl rfl

/-- What is written for a source starts with its shebang, if it has one, and goes on as the slots
after it. Counterpart of `format`. -/
theorem exists_text_format {body : List Spelled} {slots : List Slot}
    (hspell : spell (.ofProgram (parse source) style) {} (parse source).root =
      (Context.ofProgram (parse source) style).shebangSlots body ++ slots)
    (htouches : Touches style none slots) :
    ∃ text pieces, (Resolves slots pieces ∨ Resolves (.hard :: slots) pieces) ∧
      Fits style none pieces ∧
      (∀ offset, (Scan.tokensFrom offset text).map Token.content =
        pieces.filterMap (Piece.content? style)) ∧
      (format source style = text ∨
        ∃ token ∈ (parse source).shebang,
          format source style = trimEnd token.lexeme ++ (style.lineEnding.text ++ text)) := by
  obtain ⟨pieces, inks, hpieces, hflushed, hformat⟩ := exists_written source style
  rw [hspell] at hpieces
  rcases shebangSlots_cases (.ofProgram (parse source) style) body with hnone | ⟨token, htoken,
      more, hmore, hline⟩
  · rw [hnone] at hpieces
    have hfits := htouches.fits (by simp) hpieces
    obtain ⟨text, htext, htokens⟩ := @Fits.exists_tokens _ _ hfits [] [] (by simp) (by simp)
    rw [hfits.marks_eq] at hflushed
    refine ⟨text, pieces, .inl hpieces, hfits, htokens, .inl ?_⟩
    rw [hformat, hflushed.eq_of_inks, render]
    exact htext
  · rw [hline] at hpieces
    obtain ⟨_, _, rfl, rfl, _, pieces, rfl, ⟨level, rfl⟩, hpieces⟩ := hpieces
    obtain ⟨-, -, hblank⟩ := line_shebang htoken
    suffices h : ∃ text pieces, (Resolves slots pieces ∨ Resolves (.hard :: slots) pieces) ∧
        Fits style none pieces ∧
        (∀ offset, (Scan.tokensFrom offset text).map Token.content =
          pieces.filterMap (Piece.content? style)) ∧
        format source style = trimEnd token.lexeme ++ (style.lineEnding.text ++ text) by
      obtain ⟨text, pieces, hslots, hfits, htokens, htext⟩ := h
      exact ⟨text, pieces, hslots, hfits, htokens, .inr ⟨token, htoken, htext⟩⟩
    generalize trimEnd token.lexeme = line at hblank hflushed ⊢
    have hrest : Resolves slots pieces ∨ Resolves (.hard :: slots) pieces := by
      rcases hmore with rfl | rfl
      · exact .inl hpieces
      · exact .inr hpieces
    have hfits : Fits style none pieces :=
      hrest.elim (htouches.fits (by simp)) (@Touches.fits _ _ (.hard :: slots) _ htouches (by simp))
    -- After the line comes the line break of the style, and the indentation before what follows.
    have hend : ∀ c ∈ line.reverse.head?, (c == ' ' || c == '\t') = false := by
      intro c hc
      have hc := hblank c (by rwa [List.head?_reverse] at hc)
      by_contra hspace
      simp only [Bool.not_eq_false, Bool.or_eq_true, beq_iff_eq] at hspace
      rcases hspace with rfl | rfl <;> revert hc <;> decide
    have hput :
        ([Piece.token .shebang line].flatMap Piece.inks ++ [Piece.newline level].flatMap
          Piece.inks).foldl
        (Ink.put style) [] = style.indentation level ++
        (line ++ style.lineEnding.text).reverse := by
      rw [List.foldl_append, List.flatMap_singleton, foldl_put_token]
      simp [Piece.inks, Ink.put, Kind.lexeme, Kind.isVerbatim, Scan.dropWhile_of_head hend]
    obtain ⟨text, htext, htokens⟩ := @Fits.exists_tokens _ _ hfits (line ++ style.lineEnding.text)
      (style.indentation level).reverse
      (fun c hc => isSkipped_indentation style level c (List.mem_reverse.1 hc)) (by
        cases style.lineEnding <;> simp [LineEnding.text])
    have hmarks : ([Piece.token .shebang line] ++ ([Piece.newline level] ++ pieces)).flatMap
        Piece.marks =
        Mark.ofInks ([Piece.token .shebang line].flatMap Piece.inks ++ [Piece.newline level].flatMap
          Piece.inks ++ pieces.flatMap Piece.inks) := by
      have hshebang : Piece.marks (.token .shebang line) =
          Mark.ofInks (Piece.inks (.token .shebang line)) :=
        marks_eq_ofInks .shebang line
      rw [List.flatMap_append, List.flatMap_append, hfits.marks_eq]
      simp only [List.flatMap_singleton, hshebang, Mark.ofInks, List.map_append, List.append_assoc]
      rfl
    rw [hmarks] at hflushed
    refine ⟨text, pieces, hrest, hfits, htokens, ?_⟩
    rw [List.reverse_reverse] at htext
    rw [hformat, hflushed.eq_of_inks, render, List.foldl_append, hput, htext, List.append_assoc]

/-- The tokens of the output are those of the slots after the shebang. Counterpart of `format`. -/
theorem tokens_format {body : List Spelled} {slots : List Slot}
    (hspell : spell (.ofProgram (parse source) style) {} (parse source).root =
      (Context.ofProgram (parse source) style).shebangSlots body ++ slots)
    (htouches : Touches style none slots) :
    (parse (format source style)).tokens.map Token.content ∈ wording style slots ∧
      ∀ token ∈ tokenise (format source style), token.kind.isComment = false := by
  obtain ⟨text, pieces, hpieces, hfits, htokens, houtput⟩ := exists_text_format hspell htouches
  have hwords : ∀ offset, ∀ token ∈ Scan.tokensFrom offset text, token.kind.isWord = true :=
    fun offset token hmem => hfits.isWord token.content (htokens offset ▸ List.mem_map_of_mem hmem)
  have hcode : ∀ offset, (Scan.tokensFrom offset text).filter Program.isCode =
      Scan.tokensFrom offset text :=
    fun offset => List.filter_eq_self.2 fun token hmem =>
    Token.isCode_of_isWord (hwords offset token hmem)
  have hmem : pieces.filterMap (Piece.content? style) ∈ wording style slots := by
    rcases hpieces with hpieces | hpieces
    · exact content_mem_wording hpieces
    · simpa using @content_mem_wording style _ _ hpieces
  -- A shebang is no part of the code, and neither is the line break after it.
  obtain ⟨front, offset, hfront, hshebang⟩ : ∃ front offset,
      tokenise (format source style) = front ++ Scan.tokensFrom offset text ∧
        ∀ token ∈ front, token.kind = .shebang := by
    rcases houtput with houtput | ⟨token, htoken, houtput⟩
    · exact ⟨[], 0, by rw [houtput]; rfl, List.forall_mem_nil _⟩
    · obtain ⟨hstart, hline, hblank⟩ := line_shebang htoken
      have hreturn : (trimEnd token.lexeme).getLast? ≠ some '\r' := by
        intro hlast
        have hfalse := hblank '\r' hlast
        revert hfalse
        decide
      rw [houtput, Scan.tokenise_shebang hstart hline hreturn,
        Scan.tokensFrom_gap (isSkipped_lineEnding style)]
      exact ⟨[_], _, rfl, List.forall_mem_singleton.2 rfl⟩
  have hparsed : (parse (format source style)).tokens = Scan.tokensFrom offset text := by
    show (tokenise (format source style)).filter Program.isCode = _
    rw [hfront, List.filter_append, hcode, List.filter_eq_nil_iff.2, List.nil_append]
    intro token htoken
    simp [Program.isCode, hshebang token htoken]
  refine ⟨by rw [hparsed, htokens]; exact hmem, fun token htoken => ?_⟩
  rw [hfront] at htoken
  rcases List.mem_append.1 htoken with htoken | htoken
  · rw [hshebang token htoken]
    rfl
  · have hcode := Token.isCode_of_isWord (hwords offset token htoken)
    rw [Program.isCode, Bool.and_eq_true, Bool.not_eq_true'] at hcode
    exact hcode.1

/-! ## The output -/

/-- The slots of the statements of a program, with a line break after the last. -/
def Context.programSlots (context : Context) (body : List Node) : List Slot :=
  if body.isEmpty then [] else Rule.block.slots context (fun _ => {}) body ++ [.hard]

/-- What is written for a program is what is written for its statements. Counterpart of
`Context.programSlots`. -/
theorem wording_programSlots (context : Context) (body : List Node) :
    wording style (context.programSlots body) =
      wording style (Rule.block.slots context (fun _ => {}) body) := by
  cases body with
  | nil => rfl
  | cons => simp [Context.programSlots]

/-- A program without comments is written with its shebang and its statements. Counterpart of
`spell`. -/
theorem exists_spell_root (h : (parse source).isValid = true)
    (hcomments : (parse source).comments = []) (style : Style) :
    ∃ body, spell (.ofProgram (parse source) style) {} (parse source).root =
      (Context.ofProgram (parse source) style).shebangSlots body ++
        (Context.ofProgram (parse source) style).programSlots (chunkRun source).1 := by
  have hcontext : (Context.ofProgram (parse source) style).attachments = [] :=
    attachments_eq_nil hcomments
  have hchildren : (parse source).root.children = (chunkRun source).1 := rfl
  refine ⟨(chunkRun source).1.map fun child =>
      ⟨child, spell (.ofProgram (parse source) style) {} child⟩, ?_⟩
  rw [spell_root h, hchildren, Context.chunkSlots, danglingComments_eq hcontext,
    statementSlots_eq (derives_of_isValid h), List.isEmpty_map, List.append_nil]
  rfl

/-- The output for a legible program without comments is valid, has no comments either, and its tree
means the same as the tree that is kept of the source. Counterpart of `format` and `parse`. -/
theorem parse_format (h : (parse source).isValid = true) (hcomments : (parse source).comments = [])
    (style : Style) (hlegible : Legible source style) :
    (parse (format source style)).isValid = true ∧ (parse (format source style)).comments = [] ∧
      (parse (format source style)).root.normal .meaning =
      ((parse source).root.kept {}).normal .meaning := by
  have hcontext : (Context.ofProgram (parse source) style).attachments = [] :=
    attachments_eq_nil hcomments
  have hderives := derives_of_isValid h
  have htrees : LegibleTrees (.ofProgram (parse source) style) (chunkRun source).1 :=
    fun statement hmem part hpart => hlegible.part h (.child hmem hpart)
  have hdivides := hlegible.statements (parse source).root (.self _) (chunkRun source).1 rfl
  obtain ⟨body, hspell⟩ := exists_spell_root h hcomments style
  have htouches :
      Touches style none ((Context.ofProgram (parse source) style).programSlots
        (chunkRun source).1) := by
    unfold Context.programSlots
    split
    · trivial
    · exact (hderives.touches hcontext htrees fun _ => {}).append (.hard trivial)
  obtain ⟨hwritten, hplain⟩ := tokens_format hspell htouches
  rw [wording_programSlots] at hwritten
  obtain ⟨next, nodes, hnodes, hforms⟩ :=
    hderives.reprints hcontext htrees hdivides _ rfl 0 1 _ hwritten
  obtain ⟨hvalid, hroot⟩ := parse_of_derives hnodes fun token htoken hkind => by
    have hcomment := hplain token htoken
    rw [hkind] at hcomment
    cases hcomment
  refine ⟨hvalid, ?_, ?_⟩
  · refine List.filterMap_eq_nil_iff.2 fun token htoken => ?_
    rw [Program.commentOf?, hplain token htoken]
    rfl
  · rw [hroot, root_parse, Node.kept, Node.normal, Node.normal, Node.shapeKept, Node.shapeNormal,
      Node.shapeNormal, hforms]
    rfl

end

/-- A program with quoted keys, with minus signs and a bracket that need a blank, and with a
semicolon and parentheses that are needed, is read back. -/
theorem parse_format_keys :
    let source := String.toList
      "#!lua\nt = \x7b['k'] = 'it\\'s', [ [[a]] ] = - -(x)\x7d u = (t);(f or g)(u['k']);((h))()"
    (parse source).isValid = true ∧ (parse source).comments = [] ∧ Legible source {} ∧
      (parse (format source {})).isValid = true ∧ (parse (format source {})).comments = [] ∧
      (parse (format source {})).root.normal .meaning =
      ((parse source).root.kept {}).normal .meaning := by
  intro source
  have hfacts : (parse source).isValid = true ∧ (parse source).comments = [] ∧
      Legible source {} := by
    decide +kernel
  obtain ⟨hvalid, hcomments, hlegible⟩ := hfacts
  exact ⟨hvalid, hcomments, hlegible, parse_format hvalid hcomments {} hlegible⟩

/-- Where a key starts with a long string, the output cannot be read. -/
theorem isValid_format_bracket :
    let source := "x = t[ [[a]] .. b ]".toList
    (parse source).isValid = true ∧ (parse source).comments = [] ∧
    (parse (format source {})).isValid = false := by
  decide +kernel

end LuaFormatter
