import LuaFormatter.Proofs.Grammar.First
import LuaFormatter.Proofs.Grammar.Positions
import LuaFormatter.Proofs.Token.Reread
import Mathlib.Computability.Language

/-!
# The language of a tree

Which tokens a tree can be read from. A node stands for its keywords and symbols with the tokens of
its parts between them, in the order of the source, and for a pair of parentheses if the source has
one. `Node.language` leaves open only what a tree does not show:

* how many more pairs of parentheses are around an expression that has one,
* the semicolons between statements, and whether one follows a `return`,
* whether the fields of a table are divided by commas or semicolons, and whether one follows the
  last.

What may stand at the edges of a block is a parameter: before its first statement, after its last,
and in a block without statements. With semicolons there, the tokens of every valid program are in
the language of its tree (`tokens_mem_language`); without them they are not
(`tokens_notMem_language`).
-/

namespace LuaFormatter

open scoped Computability

/-- What is read of a token: its kind and its text. -/
abbrev Word := Kind × List Char

namespace Word

/-- The word of a kind with only one text. -/
def ofKind (kind : Kind) : Word :=
  (kind, kind.describe.toList)

/-- The word of a literal. -/
def ofLiteral (kind : LiteralKind) (text : String) : Word :=
  match kind with
  | .string => (.string, text.toList)
  | .longString => (.longString, text.toList)
  | .number => (.number, text.toList)
  | .boolean => ofKind (.keyword (if text = "true" then .trueK else .falseK))
  | .nil => ofKind (.keyword .nilK)
  | .vararg => ofKind (.symbol .dotDotDot)

/-! ## Languages of words -/

/-- A single token of a kind with only one text. -/
def fixed (kind : Kind) : Language Word :=
  {[.ofKind kind]}

/-- A symbol. -/
abbrev mark (symbol : Symbol) : Language Word :=
  fixed (.symbol symbol)

/-- A keyword. -/
abbrev keyword (word : Keyword) : Language Word :=
  fixed (.keyword word)

/-- Any number of semicolons. -/
def semicolons : Language Word :=
  (mark .semicolon)∗

/-- Something or nothing. -/
def optional (language : Language Word) : Language Word :=
  1 + language

/-- A comma or a semicolon. -/
def fieldSeparator : Language Word :=
  mark .comma + mark .semicolon

/-- At least one pair of parentheses around something. -/
def parenthesised (inner : Language Word) : Language Word :=
  {words | ∃ extra, ∃ inside ∈ inner,
    words = List.replicate (extra + 1) (.ofKind (.symbol .leftParen)) ++ inside ++
      List.replicate (extra + 1) (.ofKind (.symbol .rightParen))}

end Word

/-- The keyword that a branch starts with. -/
@[simp] def ClauseKind.keyword : ClauseKind → Keyword
  | ifClause => .ifK
  | elseifClause => .elseifK
  | elseClause => .elseK

/-- The symbol before the name of a member. -/
@[simp] def Indexer.symbol : Indexer → Symbol
  | dot => .dot
  | colon => .colon

/-- The shape is a `return`. -/
def Shape.isReturn {α : Type} : Shape α → Bool
  | returnStatement _ => true
  | _ => false

/-! ## Languages of nodes -/

open Word

namespace Node

/-- What may stand after the last statement of a block: nothing more after a `return`. -/
def blockEnd (edge : Language Word) (body : List Node) : Language Word :=
  if body.getLast?.any (·.shape.isReturn) then 1 else edge

section
variable (edge : Language Word)

mutual

/-- The tokens that a node stands for. -/
def language : Node → Language Word
  | mk _ shape _ inParens =>
    if inParens then parenthesised (shapeLanguage shape) else shapeLanguage shape

/-- The tokens that a shape stands for. -/
@[simp] def shapeLanguage : Shape Node → Language Word
  | .chunk body => listLanguage edge semicolons (blockEnd edge body) body
  | .localVariables names values =>
    keyword .localK * listLanguage 1 (mark .comma) 1 names *
      if values.isEmpty then 1 else mark .equal * listLanguage 1 (mark .comma) 1 values
  | .assignment targets values =>
    listLanguage 1 (mark .comma) 1 targets * mark .equal * listLanguage 1 (mark .comma) 1 values
  | .callStatement expression => language expression
  | .function isLocal name parameters body =>
    (if isLocal then keyword .localK else 1) * keyword .functionK * optionLanguage 1 1 name *
      mark .leftParen * listLanguage 1 (mark .comma) 1 parameters * mark .rightParen *
      listLanguage edge semicolons (blockEnd edge body) body * keyword .endK
  | .conditional clauses => listLanguage 1 1 1 clauses * keyword .endK
  | .clause kind condition body =>
    keyword kind.keyword * optionLanguage 1 (keyword .thenK) condition *
      listLanguage edge semicolons (blockEnd edge body) body
  | .whileLoop condition body =>
    keyword .whileK * language condition * keyword .doK *
      listLanguage edge semicolons (blockEnd edge body) body * keyword .endK
  | .doBlock body =>
    keyword .doK * listLanguage edge semicolons (blockEnd edge body) body * keyword .endK
  | .repeatLoop body condition =>
    keyword .repeatK * listLanguage edge semicolons (blockEnd edge body) body * keyword .untilK *
      language condition
  | .numericFor counter first last step body =>
    keyword .forK * language counter * mark .equal * language first * mark .comma * language last *
      optionLanguage (mark .comma) 1 step * keyword .doK *
      listLanguage edge semicolons (blockEnd edge body) body * keyword .endK
  | .genericFor names iterators body =>
    keyword .forK * listLanguage 1 (mark .comma) 1 names * keyword .inK *
      listLanguage 1 (mark .comma) 1 iterators * keyword .doK *
      listLanguage edge semicolons (blockEnd edge body) body * keyword .endK
  | .returnStatement values =>
    keyword .returnK * listLanguage 1 (mark .comma) 1 values * optional (mark .semicolon)
  | .breakStatement => keyword .breakK
  | .gotoStatement label => keyword .gotoK * language label
  | .labelStatement label => mark .colonColon * language label * mark .colonColon
  | .identifier name => {[(.identifier, name.toList)]}
  | .literal kind text => {[.ofLiteral kind text]}
  | .table fields =>
    mark .leftCurly * listLanguage 1 fieldSeparator (optional fieldSeparator) fields *
    mark .rightCurly
  | .keyField key value =>
    mark .leftSquare * language key * mark .rightSquare * mark .equal * language value
  | .nameField name value => language name * mark .equal * language value
  | .valueField value => language value
  | .binary op left right => language left * fixed op.kind * language right
  | .unary op operand => fixed op.kind * language operand
  | .member indexer base name => language base * mark indexer.symbol * language name
  | .index base key => language base * mark .leftSquare * language key * mark .rightSquare
  | .call base arguments =>
    language base * mark .leftParen * listLanguage 1 (mark .comma) 1 arguments * mark .rightParen
  | .tableCall base argument | .stringCall base argument => language base * language argument
  | .invalid => 0

/-- The tokens of nodes one after the other: what stands before the first, between two, and after
the last of them. -/
def listLanguage (before between after : Language Word) : List Node → Language Word
  | [] => before
  | [node] => before * language node * after
  | node :: next :: rest =>
    before * language node * listLanguage between between after (next :: rest)

/-- The tokens of a node that may be missing, with what stands before and after it. -/
@[simp] def optionLanguage (before after : Language Word) : Option Node → Language Word
  | none => 1
  | some node => before * language node * after

end

/-- What stands before the first node stands before all of them. Counterpart of `listLanguage`. -/
theorem listLanguage_eq (before between after : Language Word) (nodes : List Node) :
    listLanguage edge before between after nodes =
      before * listLanguage edge 1 between after nodes := by
  match nodes with
  | [] => simp [listLanguage]
  | [node] => simp [listLanguage, mul_assoc]
  | node :: next :: rest => simp [listLanguage, mul_assoc]

@[simp] theorem listLanguage_one (node : Node) :
    listLanguage edge 1 1 1 [node] = node.language edge := by
  simp [listLanguage]

@[simp] theorem language_mk (number : Nat) (shape : Shape Node) (span : Span) :
    (mk number shape span false).language edge = shapeLanguage edge shape := by
  simp [language]

/-- The tokens of a first node, what stands between, and those of the others. Counterpart of
`listLanguage`. -/
theorem listLanguage_cons (between after : Language Word) (node : Node) {nodes : List Node}
    (hne : nodes ≠ []) :
    listLanguage edge 1 between after (node :: nodes) =
      node.language edge * (between * listLanguage edge 1 between after nodes) := by
  obtain ⟨next, rest, rfl⟩ := List.exists_cons_of_ne_nil hne
  rw [listLanguage, one_mul, listLanguage_eq edge between]

end

end Node

/-! ## Words of tokens -/

/-- The text of the token follows from its kind, and it is no literal. -/
def Kind.isMark (kind : Kind) : Bool :=
  kind.isFixed && (Parser.literalKind? kind).isNone

/-- The word of a token, with the one text of its kind if it has only one. -/
def Token.word (token : Token) : Word :=
  match Parser.literalKind? token.kind with
  | some kind => .ofLiteral kind (Parser.textOf token)
  | none => if token.kind.isFixed then .ofKind token.kind else (token.kind, token.lexeme)

/-- The word of a token with only one text is that of its kind. Counterpart of `Token.word`. -/
theorem Token.word_eq {t : Token} {kind : Kind} (h : t.kind = kind) (hmark : kind.isMark = true) :
    t.word = .ofKind kind := by
  simp only [Kind.isMark, Bool.and_eq_true, Option.isNone_iff_eq_none] at hmark
  rw [word, h, hmark.2]
  exact if_pos hmark.1

/-- The words of tokens are in a language. -/
def InLanguage (tokens : List Token) (language : Language Word) : Prop :=
  tokens.map Token.word ∈ language

namespace InLanguage

variable {t : Token} {kind : Kind} {ts us : List Token} {first second edge : Language Word}

/-- The empty list of tokens is in the language of the empty word. Counterpart of `InLanguage`. -/
theorem nil : InLanguage [] 1 :=
  Language.nil_mem_one

/-- Tokens one after the other are in the product of their languages. Counterpart of
`InLanguage`. -/
theorem append (h : InLanguage ts first) (h' : InLanguage us second) :
    InLanguage (ts ++ us) (first * second) := by
  rw [InLanguage, List.map_append]
  exact Language.append_mem_mul h h'

/-- What may be left out may be. Counterpart of `optional`. -/
theorem absent : InLanguage [] (optional first) :=
  .inl nil

/-- What may be left out may be there. Counterpart of `optional`. -/
theorem present (h : InLanguage ts first) : InLanguage ts (optional first) :=
  .inr h

/-- A single keyword or symbol. Counterpart of `InLanguage`. -/
theorem one (h : t.kind = kind) (hmark : kind.isMark = true) : InLanguage [t] (fixed kind) := by
  rw [InLanguage, List.map_singleton, Token.word_eq h hmark]
  rfl

/-- A keyword or symbol before other tokens. Counterpart of `InLanguage`. -/
theorem cons (h : t.kind = kind) (hmark : kind.isMark = true) (hrest : InLanguage ts first) :
    InLanguage (t :: ts) (fixed kind * first) :=
  (one h hmark).append hrest

/-- A name is its word. Counterpart of `Parser.textOf`. -/
theorem ofName (h : t.kind = .identifier) :
    InLanguage [t] {[(.identifier, (Parser.textOf t).toList)]} := by
  have hword : t.word = (.identifier, (Parser.textOf t).toList) := by
    simp [Token.word, h, Parser.literalKind?, Kind.isFixed, Parser.textOf]
  rw [InLanguage, List.map_singleton, hword]
  rfl

/-- A literal is its word. Counterpart of `Word.ofLiteral`. -/
theorem ofLiteral {literal : LiteralKind} (h : Parser.literalKind? t.kind = some literal) :
    InLanguage [t] {[.ofLiteral literal (Parser.textOf t)]} := by
  have hword : t.word = .ofLiteral literal (Parser.textOf t) := by rw [Token.word, h]
  rw [InLanguage, List.map_singleton, hword]
  rfl

/-- A comma or a semicolon separates fields. Counterpart of `fieldSeparator`. -/
theorem separator (h : t.kind = .symbol .comma ∨ t.kind = .symbol .semicolon) :
    InLanguage [t] fieldSeparator := by
  rcases h with h | h
  · exact .inl (one h rfl)
  · exact .inr (one h rfl)

/-- There may be no semicolons. Counterpart of `semicolons`. -/
theorem noSemicolons : InLanguage [] semicolons :=
  Language.nil_mem_kstar _

/-- One more semicolon. Counterpart of `semicolons`. -/
theorem moreSemicolons (h : t.kind = .symbol .semicolon)
    (hrest : InLanguage ts (semicolons * first)) :
    InLanguage (t :: ts) (semicolons * first) := by
  have hcons := cons h rfl hrest
  rw [← mul_assoc] at hcons
  exact mul_le_mul_left mul_kstar_le_kstar first hcons

/-- Another pair of parentheses around an expression. Counterpart of `parenthesised`. -/
theorem parenthesise {node : Node} {l r : Token} (hl : l.kind = .symbol .leftParen)
    (hr : r.kind = .symbol .rightParen) (h : InLanguage ts (node.language edge)) :
    InLanguage (l :: (ts ++ [r])) (node.parenthesise.language edge) := by
  obtain ⟨number, shape, span, inParens⟩ := node
  rw [InLanguage, List.map_cons, List.map_append, List.map_singleton, Token.word_eq hl rfl,
    Token.word_eq hr rfl]
  cases inParens with
  | false => exact ⟨0, ts.map Token.word, by simpa [InLanguage] using h, rfl⟩
  | true =>
    obtain ⟨extra, inside, hinside, hwords⟩ := h
    refine ⟨extra + 1, inside, hinside, ?_⟩
    generalize extra + 1 = pairs at hwords ⊢
    rw [hwords, List.replicate_succ, List.replicate_succ']
    simp

end InLanguage

/-! ## Derivations -/

/-- The tokens that a rule reads as nodes. -/
@[simp] def Rule.language (edge : Language Word) : Rule → List Node → Language Word
  | expressions, nodes | arguments, nodes | names, nodes | parameters, nodes =>
    Node.listLanguage edge 1 (mark .comma) 1 nodes
  | fields, nodes => Node.listLanguage edge 1 fieldSeparator (optional fieldSeparator) nodes
  | block, nodes => Node.listLanguage edge edge semicolons (Node.blockEnd edge nodes) nodes
  | _, nodes => Node.listLanguage edge 1 1 1 nodes

/-- Rules that read at least one token read at least one node. Counterpart of `Rule.isFilled`. -/
theorem Derives.nodes_ne_nil {isApart : Bool} {rule : Rule} {a b : Nat} {ts : List Token}
    {nodes : List Node} (h : Derives isApart rule a b ts nodes) (hfilled : rule.isFilled = true) :
    nodes ≠ [] := by
  cases h with
  | noArguments | someArguments | noParameters | lastParameter | moreParameters | varargs | noFields
  | lastField | moreFields | emptyBlock | semicolon | moreStatements | returnStatement =>
    cases hfilled
  | _ => exact List.cons_ne_nil _ _

/-- No statement that others may follow is a `return`. Counterpart of `Shape.isReturn`. -/
theorem Derives.isReturn_eq_false {isApart : Bool} {a b : Nat} {ts : List Token} {node : Node}
    (h : Derives isApart .statement a b ts [node]) : node.shape.isReturn = false := by
  cases h <;> rfl

/-- An operator before an operand has only one text. Counterpart of `Kind.isMark`. -/
theorem UnaryOp.isMark_kind (op : UnaryOp) : op.kind.isMark = true := by
  cases op <;> rfl

/-- An operator between operands has only one text. Counterpart of `Kind.isMark`. -/
theorem BinaryOp.isMark_kind (op : BinaryOp) : op.kind.isMark = true := by
  cases op <;> rfl

open InLanguage in
/-- The tokens of a derivation are in the language of its nodes. Counterpart of `Rule.language`. -/
theorem Derives.inLanguage {isApart : Bool} {rule : Rule} {a b : Nat} {ts : List Token}
    {nodes : List Node} (h : Derives isApart rule a b ts nodes) :
    InLanguage ts (rule.language semicolons nodes) := by
  induction h with
  | identifier ht | nameStart ht => simpa using ofName ht
  | lastName ht | lastParameter ht => simpa [Node.listLanguage] using ofName ht
  | literal ht => simpa using ofLiteral ht
  | varargs ht => simpa [Node.listLanguage] using ofLiteral (by rw [ht]; rfl)
  | parens hl hr _ ih => simpa using parenthesise hl hr (by simpa using ih)
  | table hl hr _ ih => simpa [mul_assoc] using cons hl rfl (ih.append (one hr rfl))
  | function hf hl hr he _ _ ihp ihb =>
    simpa [mul_assoc] using
      cons hf rfl (cons hl rfl (ihp.append (cons hr rfl (ihb.append (one he rfl)))))
  | member hd ht _ _ ih | method hd ht _ _ ih | nameMember hd ht _ ih | nameMethod hd ht _ ih =>
    simpa [mul_assoc] using ih.append (cons hd rfl (ofName ht))
  | index hl hr _ _ _ ih ihk =>
    simpa [mul_assoc] using ih.append (cons hl rfl (ihk.append (one hr rfl)))
  | call hl hr _ _ ih ihus | tableCall hl hr _ _ ih ihus =>
    simpa [mul_assoc] using ih.append (cons hl rfl (ihus.append (one hr rfl)))
  | stringCall ht _ _ ih => simpa using ih.append (ofLiteral ht)
  | plain _ _ ih | nameDotted _ ih => exact ih
  | valueField _ ih | callStatement _ _ ih => simpa using ih
  | unary ht _ _ ih =>
    simpa using cons (UnaryOp.eq_kind_of_ofKind? ht) (UnaryOp.isMark_kind _) ih
  | binary ht _ _ _ _ ihl ihr =>
    simpa [mul_assoc] using
      ihl.append (cons (BinaryOp.eq_kind_of_ofKind? ht) (BinaryOp.isMark_kind _) ihr)
  | lastExpression _ ih => simpa [Node.listLanguage] using ih
  | moreExpressions ht _ hs ih ihs =>
    rw [Rule.language, Node.listLanguage_cons _ _ _ _ (hs.nodes_ne_nil rfl)]
    simpa using ih.append (cons ht rfl ihs)
  | noArguments | noParameters | noFields => simpa [Node.listLanguage] using nil
  | someArguments _ ih => exact ih
  | moreNames ht hc hs ih =>
    rw [Rule.language, Node.listLanguage_cons _ _ _ _ (hs.nodes_ne_nil rfl)]
    simpa using (ofName ht).append (cons hc rfl ih)
  | moreParameters ht hc hne _ ih =>
    rw [Rule.language, Node.listLanguage_cons _ _ _ _ hne]
    simpa using (ofName ht).append (cons hc rfl ih)
  | keyField hl hr he _ _ ihk ihv =>
    simpa [mul_assoc] using cons hl rfl (ihk.append (cons hr rfl (cons he rfl ihv)))
  | nameField ht he _ ih => simpa [mul_assoc] using (ofName ht).append (cons he rfl ih)
  | lastField _ ih => simpa [Node.listLanguage] using ih.append absent
  | @moreFields _ _ _ t ts us field fields ht _ _ ih ihs =>
    by_cases hne : fields = []
    · subst hne
      have hlast : InLanguage (t :: us) (optional fieldSeparator) := by
        simpa [Node.listLanguage] using ((separator ht).append ihs).present
      simpa [Node.listLanguage] using ih.append hlast
    · rw [Rule.language, Node.listLanguage_cons _ _ _ _ hne]
      simpa using ih.append ((separator ht).append ihs)
  | declaration hk _ ih => simpa using cons hk rfl ih
  | definition hk he _ hvs ih ihv =>
    simpa [mul_assoc, hvs.nodes_ne_nil rfl] using cons hk rfl (ih.append (cons he rfl ihv))
  | localFunction hk hf ht hl hr he _ _ ihp ihb =>
    simpa [mul_assoc] using cons hk rfl (cons hf rfl ((ofName ht).append (cons hl rfl
      (ihp.append (cons hr rfl (ihb.append (one he rfl)))))))
  | globalFunction hf hl hr he _ _ _ ihn ihp ihb =>
    simpa [mul_assoc] using cons hf rfl (ihn.append (cons hl rfl (ihp.append (cons hr rfl
      (ihb.append (one he rfl))))))
  | assignment he _ _ _ ih ihv => simpa [mul_assoc] using ih.append (cons he rfl ihv)
  | conditional hk he _ ih => simpa using ih.append (one he rfl)
  | whileLoop hk hd he _ _ ih ihb =>
    simpa [mul_assoc] using cons hk rfl (ih.append (cons hd rfl (ihb.append (one he rfl))))
  | doBlock hk he _ ih => simpa [mul_assoc] using cons hk rfl (ih.append (one he rfl))
  | repeatLoop hk hu _ _ ihb ih => simpa [mul_assoc] using cons hk rfl (ihb.append (cons hu rfl ih))
  | numericFor hk ht he hm ho hf _ _ _ ih ihl ihb =>
    simpa [mul_assoc] using cons hk rfl ((ofName ht).append (cons he rfl (ih.append (cons hm rfl
      (ihl.append (cons ho rfl (ihb.append (one hf rfl))))))))
  | steppedFor hk ht he hm hp ho hf _ _ _ _ ih ihl ihs ihb =>
    simpa [mul_assoc] using cons hk rfl ((ofName ht).append (cons he rfl (ih.append (cons hm rfl
      (ihl.append (cons hp rfl (ihs.append (cons ho rfl (ihb.append (one hf rfl))))))))))
  | genericFor hk hi ho hf _ _ _ ihn ihv ihb =>
    simpa [mul_assoc] using cons hk rfl (ihn.append (cons hi rfl (ihv.append (cons ho rfl
      (ihb.append (one hf rfl))))))
  | breakStatement hk => simpa using one hk rfl
  | gotoStatement hk ht => simpa using cons hk rfl (ofName ht)
  | labelStatement hl ht hr =>
    simpa [mul_assoc] using cons hl rfl ((ofName ht).append (one hr rfl))
  | emptyBlock => exact noSemicolons
  | semicolon ht _ ih =>
    rw [Rule.language, Node.listLanguage_eq] at ih ⊢
    exact moreSemicolons ht ih
  | @moreStatements _ _ _ ts us statement body _ hs _ ih ihs =>
    have hstatement := noSemicolons.append (ih.append ihs)
    cases body with
    | nil =>
      simpa [Node.listLanguage, Node.blockEnd, hs.isReturn_eq_false, mul_assoc] using hstatement
    | cons next rest =>
      simpa [Node.listLanguage, Node.blockEnd, mul_assoc] using hstatement
  | @returnStatement _ _ _ _ ends _ hk hends _ ih =>
    have hlast : InLanguage ends (optional (mark .semicolon)) := by
      rcases hends with rfl | ⟨t, ht, rfl⟩
      · exact absent
      · exact (one ht rfl).present
    simpa [Node.listLanguage, Node.blockEnd, Shape.isReturn, mul_assoc] using
      noSemicolons.append (cons hk rfl (ih.append hlast))
  | clause hk ht _ _ ih ihb =>
    rcases hk with hk | hk
    · simpa [hk, Parser.clauseKind, mul_assoc] using
        cons hk rfl (ih.append (cons ht rfl ihb))
    · simpa [hk, Parser.clauseKind, mul_assoc] using
        cons hk rfl (ih.append (cons ht rfl ihb))
  | elseClause hk _ ih => simpa using cons hk rfl ih
  | lastClause _ ih => exact ih
  | moreClauses _ _ _ hs ih ihs =>
    show InLanguage _ (Node.listLanguage semicolons 1 1 1 _)
    rw [Node.listLanguage_cons _ _ _ _ (hs.nodes_ne_nil rfl)]
    simpa using ih.append ihs

/-! ## Programs -/

/-- The word of a token that was read from a source is its kind with its text. Counterpart of
`Token.word`. -/
theorem Token.word_eq_content {source : List Char} {token : Token} (h : token ∈ tokenise source) :
    token.word = token.content := by
  have hreads := fun hword => Scan.reads_of_mem h hword
  obtain ⟨kind, start, lexeme⟩ := token
  cases kind with
  | symbol symbol =>
    obtain rfl : lexeme = symbol.text.toList := (hreads rfl).lexeme_symbol
    cases symbol <;> rfl
  | keyword keyword =>
    obtain rfl : lexeme = keyword.text.toList := (hreads rfl).lexeme_keyword
    cases keyword <;> rfl
  | _ => simp [word, content, Parser.literalKind?, Word.ofLiteral, Kind.isFixed, Parser.textOf]

/-- No token is lost, made up or moved: the tokens of a valid program are in the language of its
tree, with semicolons at the edges of its blocks. Counterpart of `Node.language`. -/
theorem tokens_mem_language {source : List Char} (h : (parse source).isValid = true) :
    (parse source).tokens.map Token.content ∈ (parse source).root.language semicolons := by
  have hwords : (parse source).tokens.map Token.word = (parse source).tokens.map Token.content :=
    List.map_congr_left fun token hmem => Token.word_eq_content (List.mem_filter.1 hmem).1
  rw [← hwords, root_parse, Node.language_mk]
  exact (derives_of_isValid h).inLanguage

/-- A program with everything that its tree does not show. -/
theorem tokens_mem_language_loose :
    (parse ";f(((a)));;return {1;2,};".toList).isValid = true ∧
      (parse ";f(((a)));;return {1;2,};".toList).tokens.map Token.content ∈
        (parse ";f(((a)));;return {1;2,};".toList).root.language semicolons := by
  have hvalid : (parse ";f(((a)));;return {1;2,};".toList).isValid = true := by decide +kernel
  exact ⟨hvalid, tokens_mem_language hvalid⟩

/-- How many tokens a file stands for that is empty or a single empty block. -/
def Node.emptyLength? : Node → Option Nat
  | ⟨_, .chunk [], _, false⟩ => some 0
  | ⟨_, .chunk [⟨_, .doBlock [], _, false⟩], _, false⟩ => some 2
  | _ => none

/-- With nothing at the edges of blocks, such a file is written with these tokens only. Counterpart
of `Node.emptyLength?`. -/
theorem Node.length_of_emptyLength? {root : Node} {length : Nat}
    (h : root.emptyLength? = some length) {words : List Word} (hwords : words ∈ root.language 1) :
    words.length = length := by
  unfold emptyLength? at h
  split at h
  · cases h
    rw [language_mk, shapeLanguage, listLanguage] at hwords
    rw [(Language.mem_one words).1 hwords]
    rfl
  · cases h
    simp only [language_mk, shapeLanguage, listLanguage, blockEnd, ite_self, one_mul,
      mul_one] at hwords
    obtain ⟨_, rfl, _, rfl, rfl⟩ := Language.mem_mul.1 hwords
    rfl
  · cases h

/-- A program with more tokens than that is not in the language. Counterpart of
`Node.emptyLength?`. -/
theorem notMem_language_of_emptyLength? {program : Program}
    (h : program.root.emptyLength?.any (· < program.tokens.length) = true) :
    program.tokens.map Token.content ∉ program.root.language 1 := by
  intro hmem
  obtain ⟨length, hlength, hlt⟩ := (Option.any_eq_true _ _).1 h
  have heq := Node.length_of_emptyLength? hlength hmem
  rw [List.length_map] at heq
  exact absurd heq (Nat.ne_of_gt (of_decide_eq_true hlt))

/-- Semicolons are read also before the first statement of a block, after its last, and in a block
without statements. -/
theorem tokens_notMem_language :
    ((parse ";do end".toList).isValid = true ∧
      (parse ";do end".toList).tokens.map Token.content ∉
      (parse ";do end".toList).root.language 1) ∧
    ((parse "do end;".toList).isValid = true ∧
      (parse "do end;".toList).tokens.map Token.content ∉
      (parse "do end;".toList).root.language 1) ∧
    (parse ";".toList).isValid = true ∧
      (parse ";".toList).tokens.map Token.content ∉ (parse ";".toList).root.language 1 := by
  refine ⟨⟨?_, notMem_language_of_emptyLength? ?_⟩, ⟨?_, notMem_language_of_emptyLength? ?_⟩, ?_,
    notMem_language_of_emptyLength? ?_⟩ <;> decide +kernel

end LuaFormatter
