import LuaFormatter.Proofs.Format.Hugged
import LuaFormatter.Proofs.Grammar.Moved
import LuaFormatter.Proofs.Source.Trailing

/-!
# A text as a block and as a function

The text of a program can be put between `do` and `end`, and between the first and the last line of
a call with a function. It is then read as a block, or as a function, with the statements of the
program (`BareSource.block`, `BareSource.hugged`): its tokens and their tree are moved, and blank
lines are where they were. So the lines of every steady text are the same in both places
(`format_blockOf_callOf`).
-/

namespace LuaFormatter

/-- The text as the statements of a block. Counterpart of `Shape.doBlock`. -/
def blockOf (text : List Char) : List Char :=
  "do ".toList ++ (text ++ ' ' :: "end".toList)

/-- The text as the statements of a function that is the only argument of a call. Counterpart of
`Shape.function`. -/
def callOf (name : String) (text : List Char) : List Char :=
  (name.toList ++ "(function() ".toList) ++ (text ++ ' ' :: "end)".toList)

example : callOf "f" "g()".toList = "f(function() g() end)".toList := by decide

/-! ## Tokens around a text -/

namespace Scan

/-- A space before a text. Counterpart of `tokensFrom_gap`. -/
theorem tokensFrom_space (offset : Nat) (rest : List Char) :
    tokensFrom offset (' ' :: rest) = tokensFrom (offset + 1) rest := by
  rw [tokensFrom, if_pos (by rfl)]
  rfl

/-- A last token, after which the text ends. Counterpart of `tokensFrom_reads`. -/
theorem tokensFrom_last {kind : Kind} {lexeme : List Char} (h : Reads kind lexeme) (offset : Nat) :
    tokensFrom offset lexeme = [⟨kind, offset, lexeme⟩] := by
  have hends : kind.EndsBefore [] := fun c hc => by cases hc
  have hread := tokensFrom_reads h hends offset
  rwa [List.append_nil, tokensFrom] at hread

/-- The keyword before a block. Counterpart of `tokensFrom_reads`. -/
theorem tokensFrom_do (rest : List Char) :
    tokensFrom 0 ("do ".toList ++ rest) =
      ⟨.keyword .doK, 0, "do".toList⟩ :: tokensFrom (byteLength "do ".toList) rest := by
  show tokensFrom 0 (Keyword.doK.text.toList ++ ' ' :: rest) = _
  rw [tokensFrom_reads (reads_keyword .doK) (by rintro _ ⟨⟩; rfl), tokensFrom_space]
  rfl

/-- The tokens up to the body of a function that is the only argument of a call. Counterpart of
`tokensFrom_reads`. -/
theorem tokensFrom_call {name : String} (hname : isName name = true) (rest : List Char) :
    tokensFrom 0 (name.toList ++ "(function() ".toList ++ rest) =
      ⟨.identifier, 0, name.toList⟩ ::
        ⟨.symbol .leftParen, byteLength name.toList, "(".toList⟩ ::
        ⟨.keyword .functionK, byteLength name.toList + 1, "function".toList⟩ ::
        ⟨.symbol .leftParen, byteLength name.toList + 9, "(".toList⟩ ::
        ⟨.symbol .rightParen, byteLength name.toList + 10, ")".toList⟩ ::
        tokensFrom (byteLength (name.toList ++ "(function() ".toList)) rest := by
  have hlength : byteLength (name.toList ++ "(function() ".toList) =
      byteLength name.toList + 12 := byteLength_append _ _
  rw [List.append_assoc, tokensFrom_reads (reads_of_isName hname) (by rintro _ ⟨⟩; rfl),
    Nat.zero_add, hlength]
  show _ :: tokensFrom _ (Symbol.leftParen.text.toList ++ (Keyword.functionK.text.toList ++
    (Symbol.leftParen.text.toList ++ (Symbol.rightParen.text.toList ++ ' ' :: rest)))) = _
  rw [tokensFrom_reads (reads_symbol .leftParen) (by rintro _ ⟨⟩; decide +kernel),
    tokensFrom_reads (reads_keyword .functionK) (by rintro _ ⟨⟩; rfl),
    tokensFrom_reads (reads_symbol .leftParen) (by rintro _ ⟨⟩; decide +kernel),
    tokensFrom_reads (reads_symbol .rightParen) (by rintro _ ⟨⟩; decide +kernel), tokensFrom_space]
  rfl

/-- The tokens after the body of a function that is the only argument of a call. Counterpart of
`tokensFrom_last`. -/
theorem tokensFrom_endCall (offset : Nat) :
    tokensFrom offset "end)".toList =
      [⟨.keyword .endK, offset, "end".toList⟩, ⟨.symbol .rightParen, offset + 3, ")".toList⟩] := by
  show tokensFrom offset (Keyword.endK.text.toList ++ Symbol.rightParen.text.toList) = _
  rw [tokensFrom_reads (reads_keyword .endK) (by rintro _ ⟨⟩; rfl),
    tokensFrom_last (reads_symbol .rightParen)]
  rfl

end Scan

/-! ## Trees around a text -/

section
variable {b : Nat} {tokens bs : List Token} {statements : List Node}

/-- A statement on its own is a block. Counterpart of `Derives.moreStatements`. -/
theorem Derives.single {a : Nat} {ts : List Token} {statement : Node}
    (h : Derives true .statement a b ts [statement]) : Derives true .block a b ts [statement] := by
  have hblock := Derives.moreStatements (fun _ hparen => by cases hparen) h .emptyBlock
  rwa [List.append_nil] at hblock

/-- The tokens of a block between two keywords. Counterpart of `Derives.doBlock`. -/
theorem Derives.exists_block {k e : Token} (h : Derives true .block 1 b bs statements)
    (htokens : tokens = k :: (bs ++ [e])) (hk : k.kind = .keyword .doK)
    (he : e.kind = .keyword .endK) :
    ∃ next statement, Derives true .block 1 next tokens [statement] ∧
      ∀ isBlankAfter, Node.listSkeleton isBlankAfter [statement] =
        [.ofShape (.doBlock (Node.listSkeleton isBlankAfter statements))] := by
  subst htokens
  exact ⟨_, _, (Derives.doBlock hk he h).single, fun _ => rfl⟩

/-- The tokens of a block between those of a call with a function. Counterpart of
`Derives.function`. -/
theorem Derives.exists_hugged {t p f l r e q : Token} (h : Derives true .block 2 b bs statements)
    (htokens : tokens = t :: p :: f :: l :: r :: (bs ++ [e, q])) (ht : t.kind = .identifier)
    (hp : p.kind = .symbol .leftParen) (hf : f.kind = .keyword .functionK)
    (hl : l.kind = .symbol .leftParen) (hr : r.kind = .symbol .rightParen)
    (he : e.kind = .keyword .endK) (hq : q.kind = .symbol .rightParen) :
    ∃ next statement, Derives true .block 1 next tokens [statement] ∧
      ∀ isBlankAfter, Node.listSkeleton isBlankAfter [statement] =
        [.ofShape (.callStatement (.ofShape (.call (.ofShape (.identifier (Parser.textOf t)))
          [.ofShape (.function false none [] (Node.listSkeleton isBlankAfter statements))])))] := by
  have hfunction := Derives.function hf hl hr he .noParameters h
  have hcall := Derives.call hp hq (.plain rfl (.identifier ht))
    (.someArguments (.lastExpression hfunction))
  have hjoined : tokens = [t] ++ p :: (f :: routine l [] r bs e ++ [q]) := by
    simp [htokens, routine]
  rw [← hjoined] at hcall
  exact ⟨_, _, (Derives.callStatement rfl hcall).single, fun _ => rfl⟩

end

section
variable {text : List Char} {body : List Node} {name : String}

/-- A source whose tokens are all derived is a valid one without comments and a shebang. Counterpart
of `parse_of_derives`. -/
theorem BareSource.of_derives {source : List Char} {next : Nat} {nodes : List Node}
    (h : Derives true .block 1 next (tokenise source) nodes)
    (hbody : Node.listSkeleton (Gap.isNextLineBlank (utf8 source)) nodes = body) :
    BareSource source body := by
  have hcode : ∀ token ∈ tokenise source, Program.isCode token = true :=
    fun token hmem => Token.isCode_of_isWord (h.isWord token hmem)
  have hkind : ∀ token ∈ tokenise source, token.kind.isComment = false ∧ token.kind ≠ .shebang :=
    fun token hmem => by simpa [Program.isCode] using hcode token hmem
  have hclosed : ∀ token ∈ tokenise source, token.kind ≠ .unterminatedComment :=
    fun token hmem heq => by
      have hcomment := (hkind token hmem).1
      rw [heq] at hcomment
      cases hcomment
  obtain ⟨hvalid, hroot⟩ := parse_of_derives (by rwa [List.filter_eq_self.2 hcode]) hclosed
  refine ⟨hvalid, ?_, ?_, (skeletons_of_children (by rw [hroot]; rfl)).trans hbody⟩
  · refine List.filterMap_eq_nil_iff.2 fun token hmem => ?_
    rw [Program.commentOf?, if_neg (by simp [(hkind token hmem).1])]
  · refine List.find?_eq_none.2 fun token hmem => ?_
    simpa using (hkind token hmem).2

/-- Blank lines are in a text where they are in it between others, of which the one after it is
plain. Counterpart of `Gap.isNextLineBlank_inside`. -/
theorem listSkeleton_inside {back : List Char} (hback : Gap.Plain (utf8 back)) (front : List Char)
    (count : Nat) (nodes : List Node) :
    Node.listSkeleton (Gap.isNextLineBlank (utf8 (front ++ (text ++ back))))
        (Node.listMoved (byteLength front) count nodes) =
      Node.listSkeleton (Gap.isNextLineBlank (utf8 text)) nodes := by
  rw [Node.listSkeleton_moved]
  congr 1
  funext offset
  rw [utf8_append, utf8_append, ← length_utf8]
  exact Gap.isNextLineBlank_inside hback _ _ offset

/-- A text between `do` and `end` is a block of its statements. Counterpart of
`Derives.doBlock`. -/
theorem BareSource.block (h : BareSource text body) :
    BareSource (blockOf text) [.ofShape (.doBlock body)] := by
  have hend : ∀ offset, Scan.tokensFrom offset "end".toList =
      [⟨.keyword .endK, offset, "end".toList⟩] := Scan.tokensFrom_last (Scan.reads_keyword .endK)
  have htokens : tokenise (blockOf text) = _ := Scan.tokensFrom_do _
  rw [tokensFrom_inside h.isValid h.comments h.shebang (by decide), hend] at htokens
  have hbody := (derives_of_isValid h.isValid).moved (byteLength "do ".toList) 0
  obtain ⟨next, statement, hderives, hskeleton⟩ := hbody.exists_block htokens rfl rfl
  refine .of_derives hderives ?_
  rw [hskeleton, blockOf, listSkeleton_inside (by decide), ← h.skeletons]
  rfl

/-- A text between the lines of a call with a function is the body of the function. Counterpart of
`Derives.function`. -/
theorem BareSource.hugged (h : BareSource text body) (hname : isName name = true) :
    BareSource (callOf name text) [.ofShape (.callStatement (.ofShape
      (.call (.ofShape (.identifier name)) [.ofShape (.function false none [] body)])))] := by
  have hopener : 0 < byteLength (name.toList ++ "(function() ".toList) := by
    rw [byteLength_append]
    exact Nat.add_pos_right _ (by decide)
  have htokens : tokenise (callOf name text) = _ := Scan.tokensFrom_call hname _
  rw [tokensFrom_inside h.isValid h.comments h.shebang hopener, Scan.tokensFrom_endCall] at htokens
  have hbody := (derives_of_isValid h.isValid).moved
    (byteLength (name.toList ++ "(function() ".toList)) 1
  obtain ⟨next, statement, hderives, hskeleton⟩ :=
    hbody.exists_hugged htokens rfl rfl rfl rfl rfl rfl rfl
  refine .of_derives hderives ?_
  rw [hskeleton, callOf, listSkeleton_inside (by decide), ← h.skeletons, Parser.textOf,
    String.ofList_toList]
  rfl

/-- The lines of a text are the same in a block and in a hugged function, if they are steady. No
source has to be read for this: what is asked of the text is that it is valid, without comments and
a shebang, and has statements. Counterpart of `exists_lines_hugged`. -/
theorem format_blockOf_callOf {style : Style} (h : BareSource text body)
    (hname : isName name = true) (hbody : body ≠ [])
    (hwidth : name.length + "(function()".length ≤ style.printWidth)
    (hsteady : (blockDoc style body).isSteady style 1 = true) :
    ∃ lines,
      format (blockOf text) style = "do".toList ++ style.lineEnding.text ++ lines ++
        style.lineEnding.text ++ "end".toList ++ style.lineEnding.text ∧
      format (callOf name text) style =
        (name.toList ++ "(function()".toList) ++ style.lineEnding.text ++ lines ++
          style.lineEnding.text ++ "end)".toList ++ style.lineEnding.text := by
  rw [h.block.format_eq, (h.hugged hname).format_eq]
  exact exists_lines_hugged hbody hwidth hsteady

end

end LuaFormatter
