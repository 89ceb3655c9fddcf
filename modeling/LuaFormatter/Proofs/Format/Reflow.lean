import LuaFormatter.Proofs.Format.Neat
import LuaFormatter.Proofs.Format.Uncommented
import LuaFormatter.Proofs.Token.Ends

/-!
# Widths only move blanks

The print width, the indentation and the line ending of a style decide where lines break and what
stands at their ends. Everything else of an output is the same for all of them, up to the comma
after the last field of a broken table (`squeeze_format`): the document does not depend on them, and
all its words fill in the same neat slots.

That the slots are neat needs a look at the last token of a field. `Node.Closes` follows the right
side of an expression down to it, and every expression of a valid program has one
(`Derives.closes`).
-/

namespace LuaFormatter

open Layout

/-! ## The texts of literals -/

/-- A firm character is no blank and no comma. Counterpart of `Scan.isFirm`. -/
theorem isLayout_of_isFirm {c : Char} (h : Scan.isFirm c = true) :
    isLayout c = false ∧ c ≠ ',' := by
  simp only [Scan.isFirm, Scan.isSkipped, Bool.and_eq_true, Bool.not_eq_true', bne_iff_ne, ne_eq,
    Bool.or_eq_false_iff] at h
  obtain ⟨⟨⟨⟨⟨⟨hspace, htab⟩, hfeed⟩, hreturn⟩, -⟩, -⟩, hcomma⟩ := h
  exact ⟨by simp [isLayout, hspace, htab, hfeed, hreturn], hcomma⟩

/-- A text that ends firmly is written with a last character that is no comma. Counterpart of
`Firm`. -/
theorem Scan.EndsFirmly.firm {text : List Char} (h : Scan.EndsFirmly text) (kind : Kind) :
    Firm [.token kind text] := by
  obtain ⟨c, hlast, hfirm⟩ := h
  obtain ⟨hlayout, hcomma⟩ := isLayout_of_isFirm hfirm
  obtain ⟨front, rfl⟩ := List.getLast?_eq_some_iff.1 hlast
  refine ⟨c, ?_, hcomma⟩
  have hc : letters [c] = [c] := by simp [letters, hlayout]
  rw [List.flatMap_singleton, Slot.letters, letters_append, hc, List.getLast?_concat]

/-- A carriage return is no letter, so cutting it off changes nothing. Counterpart of
`stripReturn`. -/
theorem letters_stripReturn (line : List Char) : letters (stripReturn line) = letters line := by
  unfold stripReturn
  split
  · rename_i hlast
    obtain ⟨front, rfl⟩ := List.getLast?_eq_some_iff.1 hlast
    rw [List.dropLast_concat, letters_append]
    exact (List.append_nil _).symm
  · rfl

/-- The letters of lines are those of each of them. Counterpart of `letters`. -/
theorem letters_intercalate (lines : List (List Char)) :
    letters (['\n'].intercalate lines) = (lines.map letters).flatten := by
  match lines with
  | [] => rfl
  | [last] => simp
  | first :: second :: rest =>
    have hbreak : letters ['\n'] = [] := rfl
    rw [List.intercalate_cons_cons, letters_append, letters_append, letters_intercalate, hbreak,
      List.append_nil]
    rfl

/-- Only blanks are lost when the line breaks of a text are made line feeds. Counterpart of
`verbatimText`. -/
theorem letters_verbatimText (content : List Char) :
    letters (verbatimText content) = letters content := by
  unfold verbatimText
  split
  · conv => rhs; rw [← @List.intercalate_splitOn _ content _ _ '\n']
    rw [letters_intercalate, letters_intercalate, List.map_map]
    exact congrArg _ (List.map_congr_left fun line _ => letters_stripReturn line)
  · rfl

/-- Cutting the ends of its lines leaves a token firm. Counterpart of `verbatimText`. -/
theorem firm_verbatim {text : List Char} {kind : Kind} (h : Firm [.token kind text]) :
    Firm [.token kind (verbatimText text)] := by
  obtain ⟨c, hlast, hc⟩ := h
  refine ⟨c, ?_, hc⟩
  rw [List.flatMap_singleton, Slot.letters, letters_verbatimText, ← hlast, List.flatMap_singleton,
    Slot.letters]

/-- A requoted string ends firmly, with its quote. Counterpart of `requote`. -/
theorem endsFirmly_requote {style : QuoteStyle} {raw : List Char} (h : Scan.EndsFirmly raw) :
    Scan.EndsFirmly (requote style raw) := by
  unfold requote
  split
  · exact h
  · refine .cons _ (.append _ ⟨_, rfl, ?_⟩)
    unfold QuoteStyle.enclosing
    split <;> cases style <;> rfl

/-- A literal is written with a last character that is no comma. Counterpart of `literalSlot`. -/
theorem firm_literal {style : Style} {kind : LiteralKind} {text : String}
    (h : Scan.EndsFirmly text.toList) : Firm [literalSlot style kind text] := by
  cases kind with
  | string => exact firm_verbatim ((endsFirmly_requote h).firm _)
  | longString => exact firm_verbatim (h.firm _)
  | number | boolean | nil | vararg => exact h.firm _

/-! ## The last token of an expression -/

/-- The last token of the node ends in no blank and no comma. -/
inductive Node.Closes : Node → Prop
  | name {node : Node} {name : String} : node.shape = .identifier name →
    Scan.EndsFirmly name.toList → Closes node
  | literal {node : Node} {kind : LiteralKind} {text : String} : node.shape = .literal kind text →
    Scan.EndsFirmly text.toList → Closes node
  | table {node : Node} {fields : List Node} : node.shape = .table fields → Closes node
  | function {node : Node} {isLocal : Bool} {name : Option Node} {parameters body : List Node} :
    node.shape = .function isLocal name parameters body → Closes node
  | index {node base key : Node} : node.shape = .index base key → Closes node
  | call {node base : Node} {arguments : List Node} : node.shape = .call base arguments →
      Closes node
  | member {node base name : Node} {indexer : Indexer} : node.shape = .member indexer base name →
    name.Closes → Closes node
  | tableCall {node base argument : Node} : node.shape = .tableCall base argument →
      argument.Closes →
    Closes node
  | stringCall {node base argument : Node} : node.shape = .stringCall base argument →
    argument.Closes → Closes node
  | unary {node operand : Node} {op : UnaryOp} : node.shape = .unary op operand → operand.Closes →
    Closes node
  | binary {node left right : Node} {op : BinaryOp} : node.shape = .binary op left right →
    right.Closes → Closes node
  | keyField {node key value : Node} : node.shape = .keyField key value → value.Closes → Closes node
  | nameField {node name value : Node} : node.shape = .nameField name value → value.Closes →
    Closes node
  | valueField {node value : Node} : node.shape = .valueField value → value.Closes → Closes node

/-- How a node ends depends on its shape alone. Counterpart of `Node.Closes`. -/
theorem Node.Closes.congr {node other : Node} (h : node.Closes)
    (hshape : other.shape = node.shape) :
    other.Closes := by
  cases h with
  | name h hname => exact .name (hshape.trans h) hname
  | literal h htext => exact .literal (hshape.trans h) htext
  | table h => exact .table (hshape.trans h)
  | function h => exact .function (hshape.trans h)
  | index h => exact .index (hshape.trans h)
  | call h => exact .call (hshape.trans h)
  | member h hname => exact .member (hshape.trans h) hname
  | tableCall h hargument => exact .tableCall (hshape.trans h) hargument
  | stringCall h hargument => exact .stringCall (hshape.trans h) hargument
  | unary h hoperand => exact .unary (hshape.trans h) hoperand
  | binary h hright => exact .binary (hshape.trans h) hright
  | keyField h hvalue => exact .keyField (hshape.trans h) hvalue
  | nameField h hvalue => exact .nameField (hshape.trans h) hvalue
  | valueField h hvalue => exact .valueField (hshape.trans h) hvalue

/-- Names and literals end in no blank and no comma. -/
def OperandsEndFirmly (tokens : List Token) : Prop :=
  ∀ token ∈ tokens, Scan.isOperand token.kind = true → Scan.EndsFirmly token.lexeme

/-- The rules for expressions and fields. -/
def Rule.readsValues : Rule → Bool
  | expression | field | fields => true
  | _ => false

section
variable {isApart : Bool} {rule : Rule} {a b : Nat} {ts : List Token} {nodes : List Node}
  {t : Token}

/-- What all tokens do, fewer tokens do. Counterpart of `OperandsEndFirmly`. -/
theorem OperandsEndFirmly.mono {us : List Token} (h : OperandsEndFirmly ts) (hsub : us ⊆ ts) :
    OperandsEndFirmly us :=
  fun token hmem => h token (hsub hmem)

/-- A name among the tokens ends firmly. Counterpart of `Node.Closes`. -/
theorem OperandsEndFirmly.name (h : OperandsEndFirmly ts) (hmem : t ∈ ts)
    (hkind : t.kind = .identifier) (n : Nat) : (nameOf n t).Closes := by
  refine .name rfl ?_
  rw [Parser.textOf, String.toList_ofList]
  exact h t hmem (by rw [hkind]; rfl)

/-- A literal among the tokens ends firmly. Counterpart of `Node.Closes`. -/
theorem OperandsEndFirmly.literal (h : OperandsEndFirmly ts) (hmem : t ∈ ts) {kind : LiteralKind}
    (hkind : Parser.literalKind? t.kind = some kind) (n : Nat) :
    (nodeOf n (.literal kind (Parser.textOf t)) [t]).Closes := by
  refine .literal rfl ?_
  rw [Parser.textOf, String.toList_ofList]
  refine h t hmem ?_
  unfold Parser.literalKind? at hkind
  split at hkind <;> simp_all [Scan.isOperand]

/-- Every expression and every field has a last token. Counterpart of `Node.Closes`. -/
theorem Derives.closes (h : Derives isApart rule a b ts nodes) (hts : OperandsEndFirmly ts)
    (hrule : rule.readsValues = true) : ∀ node ∈ nodes, node.Closes := by
  induction h with
  | identifier ht => simpa using hts.name (by simp) ht _
  | literal ht => simpa using hts.literal (by simp) ht _
  | parens _ _ _ ih =>
    have hinner := ih (hts.mono (by simp)) rfl _ (List.mem_singleton_self _)
    simpa using hinner.congr (Node.shape_parenthesise _)
  | table => simpa using Node.Closes.table rfl
  | function => simpa using Node.Closes.function rfl
  | member _ ht => simpa using Node.Closes.member rfl (hts.name (by simp) ht _)
  | index => simpa using Node.Closes.index rfl
  | call => simpa using Node.Closes.call rfl
  | tableCall => simpa using Node.Closes.tableCall rfl (.table rfl)
  | stringCall ht => simpa using Node.Closes.stringCall rfl (hts.literal (by simp) ht _)
  | unary _ _ _ ih =>
    have hoperand := ih (hts.mono (by simp)) rfl _ (List.mem_singleton_self _)
    simpa using Node.Closes.unary rfl hoperand
  | binary _ _ _ _ _ _ ih =>
    have hright := ih (hts.mono fun _ hmem => by simp [hmem]) rfl _ (List.mem_singleton_self _)
    simpa using Node.Closes.binary rfl hright
  | keyField _ _ _ _ _ _ ih =>
    have hvalue := ih (hts.mono fun _ hmem => by simp [hmem]) rfl _ (List.mem_singleton_self _)
    simpa using Node.Closes.keyField rfl hvalue
  | nameField _ _ _ ih =>
    have hvalue := ih (hts.mono (by simp)) rfl _ (List.mem_singleton_self _)
    simpa using Node.Closes.nameField rfl hvalue
  | valueField _ ih =>
    have hvalue := ih hts rfl _ (List.mem_singleton_self _)
    simpa using Node.Closes.valueField rfl hvalue
  | noFields => nofun
  | lastField _ ih => exact ih hts rfl
  | moreFields _ _ _ ih ihs =>
    intro node hmem
    rcases List.mem_cons.1 hmem with rfl | hmem
    · exact ih (hts.mono (by simp)) rfl _ (List.mem_singleton_self _)
    · exact ihs (hts.mono (by simp)) rfl node hmem
  | _ => cases hrule

/-- The fields of every table have a last token. Counterpart of `Node.Closes`. -/
theorem Derives.closes_fields (h : Derives isApart rule a b ts nodes) (hts : OperandsEndFirmly ts) :
    ∀ node ∈ nodes, ∀ fields, node.shape = .table fields → ∀ field ∈ fields, field.Closes := by
  induction h with
  | parens _ _ _ ih => simpa using ih (hts.mono (by simp))
  | table _ _ h =>
    intro node hmem fields hshape
    cases List.mem_singleton.1 hmem
    cases hshape
    exact h.closes (hts.mono (by simp)) rfl
  | lastExpression _ ih | someArguments _ ih | plain _ _ ih | lastField _ ih | nameDotted _ ih
  | lastClause _ ih => exact ih hts
  | semicolon _ _ ih => exact ih (hts.mono (by simp))
  | moreExpressions _ _ _ ih ihs | moreFields _ _ _ ih ihs | moreStatements _ _ _ ih ihs
  | moreClauses _ _ _ _ ih ihs =>
    intro node hmem
    rcases List.mem_cons.1 hmem with rfl | hmem
    · exact ih (hts.mono (by simp)) _ (List.mem_singleton_self _)
    · exact ihs (hts.mono (by simp)) node hmem
  | moreNames _ _ _ ih | moreParameters _ _ _ _ ih =>
    intro node hmem fields hshape
    rcases List.mem_cons.1 hmem with rfl | hmem
    · cases hshape
    · exact ih (hts.mono (by simp)) node hmem fields hshape
  | noArguments | noParameters | noFields | emptyBlock => nofun
  | _ =>
    intro node hmem fields hshape
    cases List.mem_singleton.1 hmem
    cases hshape

end

/-! ## Spellings -/

/-- A symbol that is no comma is firm. Counterpart of `Firm`. -/
theorem firm_symbol (mark : Symbol) (hmark : mark ≠ .comma) : Firm [.symbol mark] := by
  cases mark with
  | comma => exact absurd rfl hmark
  | _ => exact ⟨_, rfl, by decide⟩

/-- The keyword that closes a body is firm. Counterpart of `Firm`. -/
theorem firm_end : Firm [.keyword .endK] :=
  ⟨'d', rfl, by decide⟩

/-- Parentheses around a node do not change that it is firm. Counterpart of `spell`. -/
theorem firm_spell {context : Context} {place : Place} {node : Node}
    (hcontext : context.attachments = [])
    (h : Firm (coreSlots context place node (spell context))) :
    Firm (spell context place node) := by
  rw [spell_eq, commented_eq hcontext]
  split
  · exact .cons (.cons (.append (.cons (firm_symbol .rightParen (by simp)))))
  · exact h

/-- A node that closes is written with a last character that is no comma. Counterpart of
`Node.Closes`. -/
theorem Node.Closes.firm {context : Context} (hcontext : context.attachments = []) {node : Node}
    (h : node.Closes) (place : Place) : Firm (spell context place node) := by
  induction h generalizing place with
  | @name node name hshape hname =>
    refine firm_spell hcontext ?_
    simp only [coreSlots, hshape]
    exact hname.firm .identifier
  | literal hshape htext =>
    refine firm_spell hcontext ?_
    simp only [coreSlots, hshape]
    exact firm_literal htext
  | table hshape =>
    refine firm_spell hcontext ?_
    simp only [coreSlots, hshape]
    split
    · exact .cons (.append (.cons (firm_symbol .rightCurly (by simp))))
    · exact .cons (.cons (.append (.cons (.cons (firm_symbol .rightCurly (by simp))))))
  | function hshape =>
    refine firm_spell hcontext ?_
    simp only [coreSlots, hshape]
    exact .append (.cons (.append (.append (.append (.cons firm_end)))))
  | index hshape =>
    refine firm_spell hcontext ?_
    simp only [coreSlots, hshape]
    refine .append ?_
    unfold bracketSlots
    split
    · exact .cons (.cons (.append (.cons (firm_symbol .rightSquare (by simp)))))
    · exact .cons (.append (firm_symbol .rightSquare (by simp)))
  | call hshape =>
    refine firm_spell hcontext ?_
    simp only [coreSlots, hshape]
    refine .append ?_
    split
    · rw [Context.emptyParensSlots, danglingComments_eq hcontext]
      exact .cons (firm_symbol .rightParen (by simp))
    · exact .cons (.cons (.append (.cons (firm_symbol .rightParen (by simp)))))
  | member hshape _ ih =>
    refine firm_spell hcontext ?_
    simp only [coreSlots, hshape]
    exact .append (.cons (ih {}))
  | tableCall hshape _ ih | stringCall hshape _ ih =>
    refine firm_spell hcontext ?_
    simp only [coreSlots, hshape]
    exact .append (ih {})
  | unary hshape _ ih =>
    refine firm_spell hcontext ?_
    simp only [coreSlots, hshape]
    exact .cons (.append (ih {}))
  | binary hshape _ ih =>
    refine firm_spell hcontext ?_
    simp only [coreSlots, hshape]
    exact .append (.cons (.cons (.cons (ih _))))
  | keyField hshape _ ih | nameField hshape _ ih =>
    refine firm_spell hcontext ?_
    simp only [coreSlots, hshape]
    exact .append (.cons (.cons (.cons (ih _))))
  | valueField hshape _ ih =>
    refine firm_spell hcontext ?_
    simp only [coreSlots, hshape]
    exact ih _

/-! ## Programs -/

/-- The names and literals of every source end firmly. Counterpart of `OperandsEndFirmly`. -/
theorem operandsEndFirmly_tokens (source : List Char) : OperandsEndFirmly (parse source).tokens :=
  fun _ hmem => Scan.endsFirmly_of_mem (List.mem_filter.1 hmem).1

/-- The spelling of a valid program without comments is neat. Counterpart of `Neat`. -/
theorem neat_of_isValid {source : List Char} (h : (parse source).isValid = true)
    (hcomments : (parse source).comments = []) (style : Style) :
    Neat (spell (.ofProgram (parse source) style) {} (parse source).root) := by
  have hcontext : (Context.ofProgram (parse source) style).attachments = [] :=
    attachments_eq_nil hcomments
  refine neat_spell hcontext {} ?_
  intro part fields hpart hshape place field hfield
  refine Node.Closes.firm hcontext ?_ place
  rcases derives_part h hpart with rfl | ⟨rule, first, front, us, back, htokens, -, -, hderives⟩
  · cases hshape
  · have hus : OperandsEndFirmly us := (operandsEndFirmly_tokens source).mono (by simp [htokens])
    exact hderives.closes_fields hus part.bare (by simp) fields (by simpa using hshape) field hfield

/-- Whatever the layout of a document is, it is squeezed to the characters of its slots. Counterpart
of `Doc.layout`. -/
theorem squeeze_layout {doc : Doc} {slots : List Slot} (hdoc : Implements doc slots)
    (hslots : Neat slots) (style : Style) :
    squeeze (doc.layout style) = dropLastCommas (slots.flatMap Slot.letters) := by
  obtain ⟨word, hword, hflushed⟩ := flushed_traceOf style doc
  obtain ⟨pieces, hpieces, rfl⟩ := hdoc .broken 0 word hword
  obtain ⟨text, ⟨inks, hinks, rfl⟩, htrimmed⟩ := hslots.trimmed hpieces
  rw [hinks] at hflushed
  rw [Doc.layout_eq_render, squeeze, letters_render, hflushed.eq_of_inks]
  exact htrimmed.dropLastCommas_eq

/-- The widths and the line ending of a style only move blanks: without blanks, line breaks and
commas before closing braces, the output for a program without comments is the same for all of them.
Counterpart of `format`. -/
theorem squeeze_format {source : List Char} (h : (parse source).isValid = true)
    (hcomments : (parse source).comments = []) (style : Style) (printWidth indentWidth : Nat)
    (useTabs : Bool) (lineEnding : LineEnding) :
    squeeze (format source { style with printWidth, indentWidth, useTabs, lineEnding }) =
      squeeze (format source style) := by
  have hdoc := implements_compile (.ofProgram (parse source) style) {} (parse source).root
  have hneat := neat_of_isValid h hcomments style
  have hsame : (parse source).toDoc { style with printWidth, indentWidth, useTabs, lineEnding } =
      (parse source).toDoc style := by
    rw [toDoc_eq_skeletonDoc h hcomments, toDoc_eq_skeletonDoc h hcomments]
    rfl
  calc squeeze (format source { style with printWidth, indentWidth, useTabs, lineEnding })
      = squeeze (((parse source).toDoc style).layout
          { style with printWidth, indentWidth, useTabs, lineEnding }) := by
        rw [format, Program.format, hsame]
    _ = dropLastCommas ((spell (.ofProgram (parse source) style) {} (parse source).root).flatMap
          Slot.letters) := squeeze_layout hdoc hneat _
    _ = squeeze (format source style) := (squeeze_layout hdoc hneat style).symm

/-- A call with a table and a string with a line break in it, in narrow lines and with other line
endings. -/
theorem squeeze_format_narrow :
    let source := "f(\x7b1, \"a,\\\n\x7d\"\x7d, function() return x end)".toList
    ((parse source).isValid = true ∧ (parse source).comments = []) ∧
      squeeze (format source
        { printWidth := 8, indentWidth := 2, useTabs := false
          lineEnding := .carriageReturnLineFeed }) = squeeze (format source {}) :=
  ⟨by decide +kernel, squeeze_format (by decide +kernel) (by decide +kernel) {} 8 2 false
    .carriageReturnLineFeed⟩

end LuaFormatter
