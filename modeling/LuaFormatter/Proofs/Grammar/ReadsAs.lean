import LuaFormatter.Proofs.Grammar.KeepStatement
import LuaFormatter.Proofs.Tree.Normal

/-!
# Reading languages

What is written for a tree is a language of words, since separators may be there or not. `ReadsAs`
says that whatever tokens have words in a language, a rule reads them as nodes with certain normal
forms. There is one lemma for each form of the grammar: if the parts are read, then so is the whole,
from the language that is put together of theirs.
-/

namespace LuaFormatter

open Word

/-! ## Tokens of a language -/

/-- The word of a name. -/
def Word.name (text : String) : Language Word :=
  {[(.identifier, text.toList)]}

/-- The contents of the tokens are in a language. -/
def WrittenIn (tokens : List Token) (language : Language Word) : Prop :=
  tokens.map Token.content ∈ language

section
variable {tokens : List Token} {first second : Language Word} {kind : Kind} {word : Word}
  {text : String}

/-- Only the empty list of tokens is written in the language of the empty word. Counterpart of
`WrittenIn`. -/
theorem writtenIn_one : WrittenIn tokens 1 ↔ tokens = [] := by
  rw [WrittenIn, Language.mem_one, List.map_eq_nil_iff]

/-- One token is written in the language of its word. Counterpart of `WrittenIn`. -/
theorem writtenIn_word :
    WrittenIn tokens {[word]} ↔ ∃ t : Token, tokens = [t] ∧ t.content = word := by
  show tokens.map Token.content = [word] ↔ _
  simp [List.map_eq_cons_iff]

/-- One token is written in the language of a mark or a keyword. Counterpart of `fixed`. -/
theorem writtenIn_fixed :
    WrittenIn tokens (fixed kind) ↔ ∃ t : Token, tokens = [t] ∧ t.content = Word.ofKind kind :=
  writtenIn_word

/-- One token is written in the language of a name. Counterpart of `name`. -/
theorem writtenIn_name : WrittenIn tokens (name text) ↔
    ∃ t : Token, tokens = [t] ∧ t.content = (.identifier, text.toList) :=
  writtenIn_word

/-- Tokens are written in a product if a front and a back of them are in its factors. Counterpart of
`WrittenIn`. -/
theorem writtenIn_mul : WrittenIn tokens (first * second) ↔
    ∃ front back, tokens = front ++ back ∧ WrittenIn front first ∧ WrittenIn back second := by
  simp only [WrittenIn, Language.mem_mul]
  constructor
  · rintro ⟨words, hfirst, others, hsecond, heq⟩
    obtain ⟨front, back, rfl, rfl, rfl⟩ := List.map_eq_append_iff.1 heq.symm
    exact ⟨front, back, rfl, hfirst, hsecond⟩
  · rintro ⟨front, back, rfl, hfirst, hsecond⟩
    exact ⟨_, hfirst, _, hsecond, List.map_append.symm⟩

/-- Tokens that may be left out are none or in the language. Counterpart of `optional`. -/
theorem writtenIn_optional :
    WrittenIn tokens (optional first) ↔ tokens = [] ∨ WrittenIn tokens first := by
  rw [← writtenIn_one]
  rfl

end

/-- All tokens with words in a language are read as nodes with these normal forms. -/
def ReadsAs (view : View) (rule : Rule) (language : Language Word) (forms : List Node) : Prop :=
  ∀ stop start tokens, WrittenIn tokens language →
    ∃ next nodes, Derives true (rule.endingAt stop) start next tokens nodes ∧
      Node.listNormal view nodes = forms

/-- The keyword of the first branch is the same in the normal form. Counterpart of
`clauseKeyword?`. -/
theorem Node.clauseKeyword?_normal (view : View) (nodes : List Node) :
    clauseKeyword? (Node.listNormal view nodes) = clauseKeyword? nodes := by
  cases nodes with
  | nil => rfl
  | cons node rest =>
    simp only [clauseKeyword?, Node.listNormal, List.head?_cons, Option.bind_some,
      Node.shape_normal]
    cases node.shape with
    | keyField key value =>
      rcases Node.fieldShape_cases view (key.normal view) (value.normal view) with h | ⟨name, h⟩ <;>
        rw [Node.shapeNormal, h]
    | _ => rfl

namespace ReadsAs

open Node

variable {view : View} {rule : Rule} {first second third fourth : Language Word} {form other : Node}
  {forms others body : List Node} {text : String}

/-- Where the words of one node are read, one node is read. Counterpart of `ReadsAs`. -/
theorem single (h : ReadsAs view rule first [form]) (stop start : Nat) {tokens : List Token}
    (htokens : WrittenIn tokens first) :
    ∃ next node, Derives true (rule.endingAt stop) start next tokens [node] ∧
      node.normal view = form := by
  obtain ⟨next, nodes, hderives, hforms⟩ := h stop start tokens htokens
  match nodes, hforms with
  | [node], hforms => exact ⟨next, node, hderives, (List.cons.inj hforms).1⟩

/-- A name is in normal form what it says. Counterpart of `Node.normal`. -/
theorem normal_name {t : Token} (n : Nat) (h : t.content = (.identifier, text.toList)) :
    (nameOf n t).normal view = ofForm (.identifier text) := by
  rw [← textOf_eq h]
  rfl

/-- What is read as a single node is read by a rule that reads it too. Counterpart of
`Derives.lastExpression` and the other rules for single nodes. -/
theorem imp {one : Rule} (h : ReadsAs view one first [form])
    (hrule : ∀ {stop a b : Nat} {ts : List Token} {node : Node},
      Derives true (one.endingAt stop) a b ts [node] →
      Derives true (rule.endingAt stop) a b ts [node]) :
    ReadsAs view rule first [form] := by
  intro stop start tokens htokens
  obtain ⟨next, node, hderives, rfl⟩ := h.single stop start htokens
  exact ⟨next, [node], hrule hderives, rfl⟩

/-! ## Operands -/

/-- A word is read as a name, by each rule that reads names. Counterpart of `Derives.identifier`,
`Derives.lastName`, `Derives.lastParameter` and `Derives.nameStart`. -/
theorem ofName (hrule : ∀ stop n (t : Token), t.kind = .identifier →
      Derives true (rule.endingAt stop) n (n + 1) [t] [nameOf n t]) :
    ReadsAs view rule (name text) [ofForm (.identifier text)] := by
  intro stop start tokens h
  obtain ⟨t, rfl, ht⟩ := writtenIn_name.1 h
  exact ⟨_, _, hrule stop start t (Token.kind_eq ht), congrArg (· :: []) (normal_name _ ht)⟩

/-- A word is read as a literal. Counterpart of `Derives.literal`. -/
theorem literal {kind : LiteralKind} {word : Word} (hkind : Parser.literalKind? word.1 = some kind)
    (htext : view.text kind (String.ofList word.2) = text) :
    ReadsAs view .expression {[word]} [ofForm (.literal kind text)] := by
  intro stop start tokens h
  obtain ⟨t, rfl, rfl⟩ := writtenIn_word.1 h
  subst htext
  exact ⟨_, _, .literal hkind, rfl⟩

/-- Words in parentheses are read as an expression in parentheses. Counterpart of
`Derives.parens`. -/
theorem parens (h : ReadsAs view .expression first [form]) :
    ReadsAs view .expression (mark .leftParen * (first * mark .rightParen))
      [form.parenthesise] := by
  intro stop start tokens htokens
  simp only [writtenIn_mul, writtenIn_fixed] at htokens
  obtain ⟨_, _, rfl, ⟨l, rfl, hl⟩, ts, _, rfl, hts, r, rfl, hr⟩ := htokens
  obtain ⟨_, node, hnode, rfl⟩ := h.single 0 start hts
  refine ⟨_, _, .parens (Token.kind_eq hl) (Token.kind_eq hr) hnode, ?_⟩
  cases node
  rfl

/-- Fields in braces are read as a table. Counterpart of `Derives.table`. -/
theorem table (h : ReadsAs view .fields first forms) :
    ReadsAs view .expression (mark .leftCurly * (first * mark .rightCurly))
      [ofForm (.table forms)] := by
  intro stop start tokens htokens
  simp only [writtenIn_mul, writtenIn_fixed] at htokens
  obtain ⟨_, _, rfl, ⟨l, rfl, hl⟩, ts, _, rfl, hts, r, rfl, hr⟩ := htokens
  obtain ⟨_, fields, hfields, rfl⟩ := h 0 start ts hts
  exact ⟨_, _, .table (Token.kind_eq hl) (Token.kind_eq hr) hfields, rfl⟩

/-- Parameters and a body are read as a function. Counterpart of `Derives.function`. -/
theorem function (h : ReadsAs view .parameters first forms)
    (hbody : ReadsAs view .block second body) :
    ReadsAs view .expression
      (keyword
        .functionK * (mark .leftParen * (first * (mark .rightParen * (second * keyword .endK)))))
      [ofForm (.function false none forms body)] := by
  intro stop start tokens htokens
  simp only [writtenIn_mul, writtenIn_fixed] at htokens
  obtain ⟨_, _, rfl, ⟨f, rfl, hf⟩, _, _, rfl, ⟨l, rfl, hl⟩, ps, _, rfl, hps, _, _, rfl,
        ⟨r, rfl, hr⟩, bs, _,
    rfl, hbs, e, rfl, he⟩ := htokens
  obtain ⟨b, parameters, hparameters, rfl⟩ := h 0 start ps hps
  obtain ⟨_, body, hderives, rfl⟩ := hbody 0 b bs hbs
  exact ⟨_, _, .function (Token.kind_eq hf) (Token.kind_eq hl) (Token.kind_eq hr) (Token.kind_eq he)
    hparameters hderives, rfl⟩

/-! ## Accesses and calls -/

/-- A name after a dot is read as an access. Counterpart of `Derives.member`. -/
theorem member (h : ReadsAs view .expression first [form]) (hbase : form.canBeBase = true) :
    ReadsAs view .expression (first * (mark .dot * name text))
      [ofForm (.member .dot form (ofForm (.identifier text)))] := by
  intro stop start tokens htokens
  simp only [writtenIn_mul, writtenIn_fixed, writtenIn_name] at htokens
  obtain ⟨ts, _, rfl, hts, _, _, rfl, ⟨d, rfl, hd⟩, t, rfl, ht⟩ := htokens
  obtain ⟨_, base, hderives, rfl⟩ := h.single 0 start hts
  rw [canBeBase_normal] at hbase
  refine ⟨_, _, .member (Token.kind_eq hd) (Token.kind_eq ht) hbase hderives, ?_⟩
  rw [← textOf_eq ht]
  rfl

/-- A name after a colon is read as a method, which is called. Counterpart of
`Derives.method`. -/
theorem method (h : ReadsAs view .expression first [form]) (hbase : form.canBeBase = true) :
    ReadsAs view .callee (first * (mark .colon * name text))
      [ofForm (.member .colon form (ofForm (.identifier text)))] := by
  intro stop start tokens htokens
  simp only [writtenIn_mul, writtenIn_fixed, writtenIn_name] at htokens
  obtain ⟨ts, _, rfl, hts, _, _, rfl, ⟨d, rfl, hd⟩, t, rfl, ht⟩ := htokens
  obtain ⟨_, base, hderives, rfl⟩ := h.single 0 start hts
  rw [canBeBase_normal] at hbase
  refine ⟨_, _, .method (Token.kind_eq hd) (Token.kind_eq ht) hbase hderives, ?_⟩
  rw [← textOf_eq ht]
  rfl

/-- A key in brackets is read as an indexing. Counterpart of `Derives.index`. -/
theorem index (h : ReadsAs view .expression first [form]) (hbase : form.canBeBase = true)
    (hkey : ReadsAs view .expression second [other]) :
    ReadsAs view .expression (first * (mark .leftSquare * (second * mark .rightSquare)))
      [ofForm (.index form other)] := by
  intro stop start tokens htokens
  simp only [writtenIn_mul, writtenIn_fixed] at htokens
  obtain ⟨ts, _, rfl, hts, _, _, rfl, ⟨l, rfl, hl⟩, ks, _, rfl, hks, r, rfl, hr⟩ := htokens
  obtain ⟨b, base, hderives, rfl⟩ := h.single 0 start hts
  obtain ⟨_, key, hderives', rfl⟩ := hkey.single 0 b hks
  rw [canBeBase_normal] at hbase
  exact ⟨_, _, .index (Token.kind_eq hl) (Token.kind_eq hr) hbase hderives hderives', rfl⟩

/-- A base is read as what is called. Counterpart of `Derives.plain`. -/
theorem plain (h : ReadsAs view .expression first [form]) (hbase : form.canBeBase = true) :
    ReadsAs view .callee first [form] := by
  intro stop start tokens htokens
  obtain ⟨next, base, hderives, rfl⟩ := h.single 0 start htokens
  rw [canBeBase_normal] at hbase
  exact ⟨next, [base], .plain hbase hderives, rfl⟩

/-- Arguments in parentheses are read as a call. Counterpart of `Derives.call`. -/
theorem call (h : ReadsAs view .callee first [form])
    (harguments : ReadsAs view .arguments second forms) :
    ReadsAs view .expression (first * (mark .leftParen * (second * mark .rightParen)))
      [ofForm (.call form forms)] := by
  intro stop start tokens htokens
  simp only [writtenIn_mul, writtenIn_fixed] at htokens
  obtain ⟨ts, _, rfl, hts, _, _, rfl, ⟨l, rfl, hl⟩, us, _, rfl, hus, r, rfl, hr⟩ := htokens
  obtain ⟨b, base, hderives, rfl⟩ := h.single 0 start hts
  obtain ⟨_, arguments, hderives', rfl⟩ := harguments 0 b us hus
  exact ⟨_, _, .call (Token.kind_eq hl) (Token.kind_eq hr) hderives hderives', rfl⟩

/-- Fields in braces are read as a call with a table. Counterpart of `Derives.tableCall`. -/
theorem tableCall (h : ReadsAs view .callee first [form])
    (hfields : ReadsAs view .fields second forms) :
    ReadsAs view .expression (first * (mark .leftCurly * (second * mark .rightCurly)))
      [ofForm (.tableCall form (ofForm (.table forms)))] := by
  intro stop start tokens htokens
  simp only [writtenIn_mul, writtenIn_fixed] at htokens
  obtain ⟨ts, _, rfl, hts, _, _, rfl, ⟨l, rfl, hl⟩, us, _, rfl, hus, r, rfl, hr⟩ := htokens
  obtain ⟨b, base, hderives, rfl⟩ := h.single 0 start hts
  obtain ⟨_, fields, hderives', rfl⟩ := hfields 0 b us hus
  exact ⟨_, _, .tableCall (Token.kind_eq hl) (Token.kind_eq hr) hderives hderives', rfl⟩

/-- A string is read as a call with it. Counterpart of `Derives.stringCall`. -/
theorem stringCall (h : ReadsAs view .callee first [form]) {kind : LiteralKind} {word : Word}
    (hkind : Parser.literalKind? word.1 = some kind)
    (hstarts : Parser.startsArguments word.1 = true)
    (htext : view.text kind (String.ofList word.2) = text) :
    ReadsAs view .expression (first * {[word]})
      [ofForm (.stringCall form (ofForm (.literal kind text)))] := by
  intro stop start tokens htokens
  simp only [writtenIn_mul, writtenIn_word] at htokens
  obtain ⟨ts, _, rfl, hts, t, rfl, rfl⟩ := htokens
  obtain ⟨b, base, hderives, rfl⟩ := h.single 0 start hts
  subst htext
  exact ⟨_, _, .stringCall hkind hstarts hderives, rfl⟩

/-! ## Operations -/

/-- An operator is read before an operand that climbs above it. Counterpart of `Derives.unary`. -/
theorem unary {op : UnaryOp} (h : ReadsAs view .expression first [form])
    (habove : form.Above UnaryOp.priority) :
    ReadsAs view .expression (fixed op.kind * first) [ofForm (.unary op form)] := by
  intro stop start tokens htokens
  simp only [writtenIn_mul, writtenIn_fixed] at htokens
  obtain ⟨_, ts, rfl, ⟨t, rfl, ht⟩, hts⟩ := htokens
  obtain ⟨_, operand, hderives, rfl⟩ := h.single 0 start hts
  have hop : UnaryOp.ofKind? t.kind = some op := by
    rw [Token.kind_eq ht]
    exact op.ofKind?_kind
  exact ⟨_, _, .unary hop ((above_normal operand).1 habove) hderives, rfl⟩

/-- An operator is read between operands, since these bind strongly enough. Counterpart of
`Derives.binary`. -/
theorem binary {op : BinaryOp} (h : ReadsAs view .expression first [form])
    (hright : ReadsAs view .expression second [other]) (hbelow : form.Below op.leftPriority)
    (habove : other.Above op.rightPriority) :
    ReadsAs view .expression (first * (fixed op.kind * second))
      [ofForm (.binary op form other)] := by
  intro stop start tokens htokens
  simp only [writtenIn_mul, writtenIn_fixed] at htokens
  obtain ⟨ls, _, rfl, hls, _, rs, rfl, ⟨t, rfl, ht⟩, hrs⟩ := htokens
  obtain ⟨b, left, hderives, rfl⟩ := h.single 0 start hls
  obtain ⟨_, right, hderives', rfl⟩ := hright.single 0 b hrs
  have hop : BinaryOp.ofKind? t.kind = some op := by
    rw [Token.kind_eq ht]
    exact op.ofKind?_kind
  exact ⟨_, _, .binary hop ((below_normal left).1 hbelow)
    ((above_normal right).1 habove) hderives hderives',
    rfl⟩

/-! ## Lists -/

/-- Nothing is read as nothing. Counterpart of `Derives.noArguments` and the other rules that read
nothing. -/
theorem nil (hrule : ∀ stop n, Derives true (rule.endingAt stop) n n [] []) :
    ReadsAs view rule 1 [] := by
  intro stop start tokens htokens
  rw [writtenIn_one] at htokens
  subst htokens
  exact ⟨_, _, hrule stop start, rfl⟩

/-- A node, a comma and more nodes. Counterpart of `Derives.moreExpressions`. -/
theorem more {one : Rule}
    (hrule :
        ∀ {stop a b c : Nat} {comma : Token} {ts us : List Token} {node : Node} {nodes : List Node},
      comma.kind = .symbol .comma → Derives true (one.endingAt stop) a b ts [node] →
      Derives true (rule.endingAt stop) b c us nodes →
      Derives true (rule.endingAt stop) a c (ts ++ comma :: us) (node :: nodes))
    (h : ReadsAs view one first [form]) (hrest : ReadsAs view rule second forms) :
    ReadsAs view rule (first * (mark .comma * second)) (form :: forms) := by
  intro stop start tokens htokens
  simp only [writtenIn_mul, writtenIn_fixed] at htokens
  obtain ⟨ts, _, rfl, hts, _, us, rfl, ⟨c, rfl, hc⟩, hus⟩ := htokens
  obtain ⟨b, node, hderives, rfl⟩ := h.single stop start hts
  obtain ⟨_, nodes, hderives', rfl⟩ := hrest stop b us hus
  exact ⟨_, _, hrule (Token.kind_eq hc) hderives hderives', rfl⟩

/-- A name, a comma and more nodes. Counterpart of `Derives.moreNames` and
`Derives.moreParameters`. -/
theorem moreNames (hne : forms ≠ [])
    (hrule : ∀ {stop a b : Nat} {t comma : Token} {us : List Token} {nodes : List Node},
      t.kind = .identifier → comma.kind = .symbol .comma → nodes ≠ [] →
      Derives true (rule.endingAt stop) (a + 1) b us nodes →
      Derives true (rule.endingAt stop) a b (t :: comma :: us) (nameOf a t :: nodes))
    (hrest : ReadsAs view rule first forms) :
    ReadsAs view rule (name text * (mark .comma * first)) (ofForm (.identifier text) :: forms) := by
  intro stop start tokens htokens
  simp only [writtenIn_mul, writtenIn_fixed, writtenIn_name] at htokens
  obtain ⟨_, _, rfl, ⟨t, rfl, ht⟩, _, us, rfl, ⟨c, rfl, hc⟩, hus⟩ := htokens
  obtain ⟨next, nodes, hderives, rfl⟩ := hrest stop (start + 1) us hus
  have hnodes : nodes ≠ [] := by
    rintro rfl
    exact hne rfl
  exact ⟨next, _, hrule (Token.kind_eq ht) (Token.kind_eq hc) hnodes hderives,
    congrArg (· :: _) (normal_name _ ht)⟩

/-- Expressions are read as arguments. Counterpart of `Derives.someArguments`. -/
theorem someArguments (h : ReadsAs view .expressions first forms) :
    ReadsAs view .arguments first forms := by
  intro stop start tokens htokens
  obtain ⟨next, nodes, hderives, rfl⟩ := h stop start tokens htokens
  exact ⟨next, nodes, .someArguments hderives, rfl⟩

/-- Three dots are read as the last parameter. Counterpart of `Derives.varargs`. -/
theorem varargs {text : String} (htext : view.text .vararg (String.ofList "...".toList) = text) :
    ReadsAs view .parameters (mark .dotDotDot) [ofForm (.literal .vararg text)] := by
  intro stop start tokens htokens
  obtain ⟨t, rfl, ht⟩ := writtenIn_fixed.1 htokens
  refine ⟨_, _, .varargs (Token.kind_eq ht), ?_⟩
  have hlexeme : t.lexeme = "...".toList := congrArg Prod.snd ht
  subst htext
  rw [Parser.textOf, hlexeme]
  rfl

/-! ## Fields -/

/-- A key in brackets and a value are read as a field, in the form that the view gives it.
Counterpart of `Derives.keyField`. -/
theorem keyField (h : ReadsAs view .expression first [form])
    (hvalue : ReadsAs view .expression second [other]) :
    ReadsAs view .field (mark .leftSquare * (first * (mark .rightSquare * (mark .equal * second))))
      [ofForm (fieldShape view form other)] := by
  intro stop start tokens htokens
  simp only [writtenIn_mul, writtenIn_fixed] at htokens
  obtain ⟨_, _, rfl, ⟨l, rfl, hl⟩, ks, _, rfl, hks, _, _, rfl, ⟨r, rfl, hr⟩, _, vs, rfl,
        ⟨e, rfl, he⟩, hvs⟩ :=
    htokens
  obtain ⟨b, key, hderives, rfl⟩ := h.single 0 start hks
  obtain ⟨_, value, hderives', rfl⟩ := hvalue.single 0 b hvs
  exact ⟨_, _, .keyField (Token.kind_eq hl) (Token.kind_eq hr)
    (Token.kind_eq he) hderives hderives', rfl⟩

/-- A name and a value are read as a field. Counterpart of `Derives.nameField`. -/
theorem nameField (h : ReadsAs view .expression first [form]) :
    ReadsAs view .field (name text * (mark .equal * first))
      [ofForm (.nameField (ofForm (.identifier text)) form)] := by
  intro stop start tokens htokens
  simp only [writtenIn_mul, writtenIn_fixed, writtenIn_name] at htokens
  obtain ⟨_, _, rfl, ⟨t, rfl, ht⟩, _, vs, rfl, ⟨e, rfl, he⟩, hvs⟩ := htokens
  obtain ⟨_, value, hderives, rfl⟩ := h.single 0 (start + 1) hvs
  refine ⟨_, _, .nameField (Token.kind_eq ht) (Token.kind_eq he) hderives, ?_⟩
  rw [← textOf_eq ht]
  rfl

/-- A value is read as a field. Counterpart of `Derives.valueField`. -/
theorem valueField (h : ReadsAs view .expression first [form]) :
    ReadsAs view .field first [ofForm (.valueField form)] := by
  intro stop start tokens htokens
  obtain ⟨_, value, hderives, rfl⟩ := h.single 0 start htokens
  exact ⟨_, _, .valueField hderives, rfl⟩

/-- A comma may follow the last field. Counterpart of `Derives.lastField`. -/
theorem lastField (h : ReadsAs view .field first [form]) :
    ReadsAs view .fields (first * optional (mark .comma)) [form] := by
  intro stop start tokens htokens
  simp only [writtenIn_mul, writtenIn_optional, writtenIn_fixed] at htokens
  obtain ⟨ts, _, rfl, hts, rfl | ⟨c, rfl, hc⟩⟩ := htokens
  · obtain ⟨next, field, hderives, rfl⟩ := h.single 0 start hts
    rw [List.append_nil]
    exact ⟨next, [field], .lastField hderives, rfl⟩
  · obtain ⟨next, field, hderives, rfl⟩ := h.single 0 start hts
    exact ⟨next, [field], .moreFields (.inl (Token.kind_eq hc)) hderives .noFields, rfl⟩

/-! ## Names of functions -/

/-- A name after a dot is read as part of the name of a function. Counterpart of
`Derives.nameMember`. -/
theorem nameMember (h : ReadsAs view .dotted first [form]) :
    ReadsAs view .dotted (first * (mark .dot * name text))
      [ofForm (.member .dot form (ofForm (.identifier text)))] := by
  intro stop start tokens htokens
  simp only [writtenIn_mul, writtenIn_fixed, writtenIn_name] at htokens
  obtain ⟨ts, _, rfl, hts, _, _, rfl, ⟨d, rfl, hd⟩, t, rfl, ht⟩ := htokens
  obtain ⟨_, base, hderives, rfl⟩ := h.single 0 start hts
  refine ⟨_, _, .nameMember (Token.kind_eq hd) (Token.kind_eq ht) hderives, ?_⟩
  rw [← textOf_eq ht]
  rfl

/-- A name after a colon is read as the last part of the name of a function. Counterpart of
`Derives.nameMethod`. -/
theorem nameMethod (h : ReadsAs view .dotted first [form]) :
    ReadsAs view .name (first * (mark .colon * name text))
      [ofForm (.member .colon form (ofForm (.identifier text)))] := by
  intro stop start tokens htokens
  simp only [writtenIn_mul, writtenIn_fixed, writtenIn_name] at htokens
  obtain ⟨ts, _, rfl, hts, _, _, rfl, ⟨d, rfl, hd⟩, t, rfl, ht⟩ := htokens
  obtain ⟨_, base, hderives, rfl⟩ := h.single 0 start hts
  refine ⟨_, _, .nameMethod (Token.kind_eq hd) (Token.kind_eq ht) hderives, ?_⟩
  rw [← textOf_eq ht]
  rfl

/-! ## Statements -/

/-- Names are read as local variables. Counterpart of `Derives.declaration`. -/
theorem declaration (h : ReadsAs view .names first forms) :
    ReadsAs view .statement (keyword .localK * first) [ofForm (.localVariables forms [])] := by
  intro stop start tokens htokens
  simp only [writtenIn_mul, writtenIn_fixed] at htokens
  obtain ⟨_, ts, rfl, ⟨k, rfl, hk⟩, hts⟩ := htokens
  obtain ⟨_, names, hnames, rfl⟩ := h 0 start ts hts
  exact ⟨_, _, .declaration (Token.kind_eq hk) hnames, rfl⟩

/-- Names and values are read as local variables with values. Counterpart of
`Derives.definition`. -/
theorem definition (h : ReadsAs view .names first forms)
    (hvalues : ReadsAs view .expressions second others) :
    ReadsAs view .statement (keyword .localK * (first * (mark .equal * second)))
      [ofForm (.localVariables forms others)] := by
  intro stop start tokens htokens
  simp only [writtenIn_mul, writtenIn_fixed] at htokens
  obtain ⟨_, _, rfl, ⟨k, rfl, hk⟩, ts, _, rfl, hts, _, vs, rfl, ⟨e, rfl, he⟩, hvs⟩ := htokens
  obtain ⟨b, names, hnames, rfl⟩ := h 0 start ts hts
  obtain ⟨_, values, hderives, rfl⟩ := hvalues 0 b vs hvs
  exact ⟨_, _, .definition (Token.kind_eq hk) (Token.kind_eq he) hnames hderives, rfl⟩

/-- A name, parameters and a body are read as a local function. Counterpart of
`Derives.localFunction`. -/
theorem localFunction (h : ReadsAs view .parameters first forms)
    (hbody : ReadsAs view .block second body) :
    ReadsAs view .statement
      (keyword .localK * (keyword .functionK * (name text *
        (mark .leftParen * (first * (mark .rightParen * (second * keyword .endK)))))))
      [ofForm (.function true (some (ofForm (.identifier text))) forms body)] := by
  intro stop start tokens htokens
  simp only [writtenIn_mul, writtenIn_fixed, writtenIn_name] at htokens
  obtain ⟨_, _, rfl, ⟨k, rfl, hk⟩, _, _, rfl, ⟨f, rfl, hf⟩, _, _, rfl, ⟨t, rfl, ht⟩, _, _, rfl,
        ⟨l, rfl, hl⟩,
    ps, _, rfl, hps, _, _, rfl, ⟨r, rfl, hr⟩, bs, _, rfl, hbs, e, rfl, he⟩ := htokens
  obtain ⟨b, parameters, hparameters, rfl⟩ := h 0 (start + 1) ps hps
  obtain ⟨_, body, hderives, rfl⟩ := hbody 0 b bs hbs
  refine ⟨_, _, .localFunction (Token.kind_eq hk) (Token.kind_eq hf) (Token.kind_eq ht)
    (Token.kind_eq hl) (Token.kind_eq hr) (Token.kind_eq he) hparameters hderives, ?_⟩
  rw [← textOf_eq ht]
  rfl

/-- A dotted name, parameters and a body are read as a function. Counterpart of
`Derives.globalFunction`. -/
theorem globalFunction (hname : ReadsAs view .name third [form])
    (h : ReadsAs view .parameters first forms) (hbody : ReadsAs view .block second body) :
    ReadsAs view .statement
      (keyword .functionK * (third *
        (mark .leftParen * (first * (mark .rightParen * (second * keyword .endK))))))
      [ofForm (.function false (some form) forms body)] := by
  intro stop start tokens htokens
  simp only [writtenIn_mul, writtenIn_fixed] at htokens
  obtain ⟨_, _, rfl, ⟨f, rfl, hf⟩, ns, _, rfl, hns, _, _, rfl, ⟨l, rfl, hl⟩, ps, _, rfl, hps,
        _, _, rfl,
    ⟨r, rfl, hr⟩, bs, _, rfl, hbs, e, rfl, he⟩ := htokens
  obtain ⟨b, node, hnode, rfl⟩ := hname.single 0 start hns
  obtain ⟨c, parameters, hparameters, rfl⟩ := h 0 b ps hps
  obtain ⟨_, body, hderives, rfl⟩ := hbody 0 c bs hbs
  exact ⟨_, _, .globalFunction (Token.kind_eq hf) (Token.kind_eq hl) (Token.kind_eq hr)
    (Token.kind_eq he) hnode hparameters hderives, rfl⟩

/-- Targets and values are read as an assignment. Counterpart of `Derives.assignment`. -/
theorem assignment (h : ReadsAs view .expressions first forms)
    (hall : ∀ target ∈ forms, target.canBeBase = true ∧ Parser.isTarget target = true)
    (hvalues : ReadsAs view .expressions second others) :
    ReadsAs view .statement (first * (mark .equal * second))
      [ofForm (.assignment forms others)] := by
  intro stop start tokens htokens
  simp only [writtenIn_mul, writtenIn_fixed] at htokens
  obtain ⟨ts, _, rfl, hts, _, vs, rfl, ⟨e, rfl, he⟩, hvs⟩ := htokens
  obtain ⟨b, targets, htargets, rfl⟩ := h 0 start ts hts
  obtain ⟨_, values, hderives, rfl⟩ := hvalues 0 b vs hvs
  have hread : ∀ target ∈ targets, target.canBeBase = true ∧ Parser.isTarget target = true := by
    intro target hmem
    have htarget := hall _ (mem_listNormal view hmem)
    rwa [canBeBase_normal, isTarget_normal] at htarget
  exact ⟨_, _, .assignment (Token.kind_eq he) hread htargets hderives, rfl⟩

/-- A call is read as a statement. Counterpart of `Derives.callStatement`. -/
theorem callStatement (h : ReadsAs view .expression first [form])
    (hcall : form.shape.isCall = true) :
    ReadsAs view .statement first [ofForm (.callStatement form)] := by
  intro stop start tokens htokens
  obtain ⟨_, call, hderives, rfl⟩ := h.single 0 start htokens
  rw [shape_normal, isCall_normal] at hcall
  exact ⟨_, _, .callStatement hcall hderives, rfl⟩

/-- A condition and a body are read as a `while` loop. Counterpart of `Derives.whileLoop`. -/
theorem whileLoop (h : ReadsAs view .expression first [form])
    (hbody : ReadsAs view .block second body) :
    ReadsAs view .statement (keyword .whileK * (first * (keyword .doK * (second * keyword .endK))))
      [ofForm (.whileLoop form body)] := by
  intro stop start tokens htokens
  simp only [writtenIn_mul, writtenIn_fixed] at htokens
  obtain ⟨_, _, rfl, ⟨k, rfl, hk⟩, ts, _, rfl, hts, _, _, rfl, ⟨d, rfl, hd⟩, bs, _, rfl, hbs, e,
        rfl, he⟩ :=
    htokens
  obtain ⟨b, condition, hcondition, rfl⟩ := h.single 0 start hts
  obtain ⟨_, body, hderives, rfl⟩ := hbody 0 b bs hbs
  exact ⟨_, _, .whileLoop (Token.kind_eq hk) (Token.kind_eq hd)
    (Token.kind_eq he) hcondition hderives, rfl⟩

/-- A body is read as a block. Counterpart of `Derives.doBlock`. -/
theorem doBlock (hbody : ReadsAs view .block first body) :
    ReadsAs view .statement (keyword .doK * (first * keyword .endK)) [ofForm (.doBlock body)] := by
  intro stop start tokens htokens
  simp only [writtenIn_mul, writtenIn_fixed] at htokens
  obtain ⟨_, _, rfl, ⟨k, rfl, hk⟩, bs, _, rfl, hbs, e, rfl, he⟩ := htokens
  obtain ⟨_, body, hderives, rfl⟩ := hbody 0 start bs hbs
  exact ⟨_, _, .doBlock (Token.kind_eq hk) (Token.kind_eq he) hderives, rfl⟩

/-- A body and a condition are read as a `repeat` loop. Counterpart of `Derives.repeatLoop`. -/
theorem repeatLoop (hbody : ReadsAs view .block first body)
    (h : ReadsAs view .expression second [form]) :
    ReadsAs view .statement (keyword .repeatK * (first * (keyword .untilK * second)))
      [ofForm (.repeatLoop body form)] := by
  intro stop start tokens htokens
  simp only [writtenIn_mul, writtenIn_fixed] at htokens
  obtain ⟨_, _, rfl, ⟨k, rfl, hk⟩, bs, _, rfl, hbs, _, ts, rfl, ⟨u, rfl, hu⟩, hts⟩ := htokens
  obtain ⟨b, body, hderives, rfl⟩ := hbody 0 start bs hbs
  obtain ⟨_, condition, hcondition, rfl⟩ := h.single 0 b hts
  exact ⟨_, _, .repeatLoop (Token.kind_eq hk) (Token.kind_eq hu) hderives hcondition, rfl⟩

/-- A name, two bounds and a body are read as a loop over numbers. Counterpart of
`Derives.numericFor`. -/
theorem numericFor (h : ReadsAs view .expression first [form])
    (hlast : ReadsAs view .expression second [other]) (hbody : ReadsAs view .block third body) :
    ReadsAs view .statement
      (keyword .forK * (name text * (mark .equal * (first * (mark .comma * (second *
        (keyword .doK * (third * keyword .endK))))))))
      [ofForm (.numericFor (ofForm (.identifier text)) form other none body)] := by
  intro stop start tokens htokens
  simp only [writtenIn_mul, writtenIn_fixed, writtenIn_name] at htokens
  obtain ⟨_, _, rfl, ⟨k, rfl, hk⟩, _, _, rfl, ⟨t, rfl, ht⟩, _, _, rfl, ⟨e, rfl, he⟩, us, _, rfl,
        hus, _, _, rfl,
    ⟨m, rfl, hm⟩, vs, _, rfl, hvs, _, _, rfl, ⟨o, rfl, ho⟩, bs, _, rfl, hbs, f, rfl, hf⟩ := htokens
  obtain ⟨b, node, hnode, rfl⟩ := h.single 0 (start + 1) hus
  obtain ⟨c, last, hderives, rfl⟩ := hlast.single 0 b hvs
  obtain ⟨_, body, hderives', rfl⟩ := hbody 0 c bs hbs
  refine ⟨_, _, .numericFor (Token.kind_eq hk) (Token.kind_eq ht) (Token.kind_eq he)
    (Token.kind_eq hm) (Token.kind_eq ho) (Token.kind_eq hf) hnode hderives hderives', ?_⟩
  rw [← textOf_eq ht]
  rfl

/-- A name, two bounds, a step and a body are read as a loop over numbers. Counterpart of
`Derives.steppedFor`. -/
theorem steppedFor {step : Node} (h : ReadsAs view .expression first [form])
    (hlast : ReadsAs view .expression second [other])
    (hstep : ReadsAs view .expression third [step]) (hbody : ReadsAs view .block fourth body) :
    ReadsAs view .statement
      (keyword .forK *
        (name text * (mark .equal * (first * (mark .comma * (second * (mark .comma * (third *
        (keyword .doK * (fourth * keyword .endK))))))))))
      [ofForm (.numericFor (ofForm (.identifier text)) form other (some step) body)] := by
  intro stop start tokens htokens
  simp only [writtenIn_mul, writtenIn_fixed, writtenIn_name] at htokens
  obtain ⟨_, _, rfl, ⟨k, rfl, hk⟩, _, _, rfl, ⟨t, rfl, ht⟩, _, _, rfl, ⟨e, rfl, he⟩, us, _, rfl,
        hus, _, _, rfl,
    ⟨m, rfl, hm⟩, vs, _, rfl, hvs, _, _, rfl, ⟨p, rfl, hp⟩, ws, _, rfl, hws, _, _, rfl,
    ⟨o, rfl, ho⟩, bs, _, rfl, hbs, f, rfl, hf⟩ := htokens
  obtain ⟨b, node, hnode, rfl⟩ := h.single 0 (start + 1) hus
  obtain ⟨c, last, hderives, rfl⟩ := hlast.single 0 b hvs
  obtain ⟨d, stride, hstride, rfl⟩ := hstep.single 0 c hws
  obtain ⟨_, body, hderives', rfl⟩ := hbody 0 d bs hbs
  refine ⟨_, _, .steppedFor (Token.kind_eq hk) (Token.kind_eq ht) (Token.kind_eq he)
    (Token.kind_eq hm)
    (Token.kind_eq hp) (Token.kind_eq ho) (Token.kind_eq hf) hnode hderives hstride hderives', ?_⟩
  rw [← textOf_eq ht]
  rfl

/-- Names, values and a body are read as a loop over iterators. Counterpart of
`Derives.genericFor`. -/
theorem genericFor (h : ReadsAs view .names first forms)
    (hiterators : ReadsAs view .expressions second others)
    (hbody : ReadsAs view .block third body) :
    ReadsAs view .statement
      (keyword .forK *
        (first * (keyword .inK * (second * (keyword .doK * (third * keyword .endK))))))
      [ofForm (.genericFor forms others body)] := by
  intro stop start tokens htokens
  simp only [writtenIn_mul, writtenIn_fixed] at htokens
  obtain ⟨_, _, rfl, ⟨k, rfl, hk⟩, ts, _, rfl, hts, _, _, rfl, ⟨i, rfl, hi⟩, vs, _, rfl, hvs,
        _, _, rfl,
    ⟨o, rfl, ho⟩, bs, _, rfl, hbs, f, rfl, hf⟩ := htokens
  obtain ⟨b, names, hnames, rfl⟩ := h 0 start ts hts
  obtain ⟨c, iterators, hderives, rfl⟩ := hiterators 0 b vs hvs
  obtain ⟨_, body, hderives', rfl⟩ := hbody 0 c bs hbs
  exact ⟨_, _, .genericFor (Token.kind_eq hk) (Token.kind_eq hi) (Token.kind_eq ho)
    (Token.kind_eq hf) hnames hderives hderives', rfl⟩

/-- The keyword is read as a `break`. Counterpart of `Derives.breakStatement`. -/
theorem breakStatement : ReadsAs view .statement (keyword .breakK) [ofForm .breakStatement] := by
  intro stop start tokens htokens
  obtain ⟨k, rfl, hk⟩ := writtenIn_fixed.1 htokens
  exact ⟨_, _, .breakStatement (Token.kind_eq hk), rfl⟩

/-- A name after the keyword is read as a `goto`. Counterpart of `Derives.gotoStatement`. -/
theorem gotoStatement : ReadsAs view .statement (keyword .gotoK * name text)
    [ofForm (.gotoStatement (ofForm (.identifier text)))] := by
  intro stop start tokens htokens
  simp only [writtenIn_mul, writtenIn_fixed, writtenIn_name] at htokens
  obtain ⟨_, _, rfl, ⟨k, rfl, hk⟩, t, rfl, ht⟩ := htokens
  refine ⟨_, _, .gotoStatement (Token.kind_eq hk) (Token.kind_eq ht), ?_⟩
  rw [← textOf_eq ht]
  rfl

/-- A name between colons is read as a label. Counterpart of `Derives.labelStatement`. -/
theorem labelStatement : ReadsAs view .statement (mark .colonColon * (name text * mark .colonColon))
    [ofForm (.labelStatement (ofForm (.identifier text)))] := by
  intro stop start tokens htokens
  simp only [writtenIn_mul, writtenIn_fixed, writtenIn_name] at htokens
  obtain ⟨_, _, rfl, ⟨l, rfl, hl⟩, _, _, rfl, ⟨t, rfl, ht⟩, r, rfl, hr⟩ := htokens
  refine ⟨_, _, .labelStatement (Token.kind_eq hl) (Token.kind_eq ht) (Token.kind_eq hr), ?_⟩
  rw [← textOf_eq ht]
  rfl

/-! ## Blocks -/

/-- No parenthesis comes after a statement that it would call. Counterpart of
`Derives.moreStatements`. -/
theorem moreStatements (h : ReadsAs view .statement first [form])
    (hbody : ReadsAs view .block second body)
    (hapart : form.lastExpression?.any Node.isCallable = true →
      ∀ words ∈ second, words.head?.any (·.1 = .symbol .leftParen) = false) :
    ReadsAs view .block (first * second) (form :: body) := by
  intro stop start tokens htokens
  obtain ⟨ts, us, rfl, hts, hus⟩ := writtenIn_mul.1 htokens
  obtain ⟨b, statement, hderives, rfl⟩ := h.single 0 start hts
  obtain ⟨_, body, hderives', rfl⟩ := hbody 0 b us hus
  refine ⟨_, _, .moreStatements (fun _ hparen => ?_) hderives hderives', rfl⟩
  rw [isCallable_lastExpression?_normal] at hapart
  by_contra hcallable
  have hnone := hapart (Bool.eq_true_of_not_eq_false hcallable) _ hus
  rw [List.head?_map, Option.any_map] at hnone
  exact absurd hparen (Bool.eq_false_iff.1 hnone)

/-- A semicolon in front leaves a block as it is. Counterpart of `Derives.semicolon`. -/
theorem semicolon (hbody : ReadsAs view .block first body) :
    ReadsAs view .block (mark .semicolon * first) body := by
  intro stop start tokens htokens
  simp only [writtenIn_mul, writtenIn_fixed] at htokens
  obtain ⟨_, ts, rfl, ⟨t, rfl, ht⟩, hts⟩ := htokens
  obtain ⟨next, body, hderives, rfl⟩ := hbody 0 start ts hts
  exact ⟨next, body, .semicolon (Token.kind_eq ht) hderives, rfl⟩

/-- Arguments are read as a `return` that ends a block. Counterpart of `Derives.returnStatement`. -/
theorem returnStatement (h : ReadsAs view .arguments first forms) :
    ReadsAs view .block (keyword .returnK * first) [ofForm (.returnStatement forms)] := by
  intro stop start tokens htokens
  simp only [writtenIn_mul, writtenIn_fixed] at htokens
  obtain ⟨_, ts, rfl, ⟨k, rfl, hk⟩, hts⟩ := htokens
  obtain ⟨_, values, hderives, rfl⟩ := h 0 start ts hts
  have hreturn := Derives.returnStatement (Token.kind_eq hk) (.inl rfl) hderives
  rw [List.append_nil] at hreturn
  exact ⟨_, _, hreturn, rfl⟩

/-! ## Branches -/

/-- A condition and a body are read as a branch. Counterpart of `Derives.clause`. -/
theorem clause {kind : ClauseKind} {offset : Nat} (hkind : kind ≠ .elseClause)
    (h : ReadsAs view .expression first [form]) (hbody : ReadsAs view .block second body) :
    ReadsAs view (.clause offset) (keyword kind.keyword * (first * (keyword .thenK * second)))
      [ofForm (.clause kind (some form) body)] := by
  intro stop start tokens htokens
  simp only [writtenIn_mul, writtenIn_fixed] at htokens
  obtain ⟨_, _, rfl, ⟨k, rfl, hk⟩, ts, _, rfl, hts, _, bs, rfl, ⟨t, rfl, ht⟩, hbs⟩ := htokens
  obtain ⟨b, condition, hcondition, rfl⟩ := h.single 0 start hts
  obtain ⟨_, body, hderives, rfl⟩ := hbody 0 b bs hbs
  have hk := Token.kind_eq hk
  have hkeyword : (k.kind = .keyword .ifK ∨ k.kind = .keyword .elseifK) ∧
      Parser.clauseKind k.kind = kind := by
    cases kind with
    | ifClause => exact ⟨.inl hk, by rw [hk]; rfl⟩
    | elseifClause => exact ⟨.inr hk, by rw [hk]; rfl⟩
    | elseClause => exact absurd rfl hkind
  refine ⟨_, _, .clause hkeyword.1 (Token.kind_eq ht) hcondition hderives, ?_⟩
  rw [hkeyword.2]
  rfl

/-- A body is read as the last branch. Counterpart of `Derives.elseClause`. -/
theorem elseClause {offset : Nat} (hbody : ReadsAs view .block first body) :
    ReadsAs view (.clause offset) (keyword .elseK * first)
      [ofForm (.clause .elseClause none body)] := by
  intro stop start tokens htokens
  simp only [writtenIn_mul, writtenIn_fixed] at htokens
  obtain ⟨_, bs, rfl, ⟨k, rfl, hk⟩, hbs⟩ := htokens
  obtain ⟨_, body, hderives, rfl⟩ := hbody 0 start bs hbs
  exact ⟨_, _, .elseClause (Token.kind_eq hk) hderives, rfl⟩

/-- A branch in front is read as one more branch, unless it is the last. Counterpart of
`Derives.moreClauses`. -/
theorem moreClauses {offset offset' : Nat} (h : ReadsAs view (.clause offset) first [form])
    (hfirst : clauseKeyword? [form] ≠ some .elseK)
    (hrest : ReadsAs view (.clauses offset') second forms)
    (hsecond : clauseKeyword? forms = some .elseifK ∨ clauseKeyword? forms = some .elseK) :
    ReadsAs view (.clauses offset') (first * second) (form :: forms) := by
  intro stop start tokens htokens
  obtain ⟨ts, us, rfl, hts, hus⟩ := writtenIn_mul.1 htokens
  -- The first branch reaches up to the keyword of the second, whatever the nodes are numbered from.
  obtain ⟨_, _, hprobe, hprobed⟩ := hrest stop 0 us hus
  obtain ⟨word, k, vs, hword, rfl, hk⟩ := hprobe.exists_keyword rfl
  rw [← clauseKeyword?_normal view, hprobed] at hword
  obtain ⟨b, clause, hclause, rfl⟩ := h.single k.start start hts
  obtain ⟨_, clauses, hclauses, rfl⟩ := hrest stop b _ hus
  obtain ⟨word', l, ws, hword', rfl, hl⟩ := hclause.exists_keyword rfl
  refine ⟨_, _, .moreClauses ?_ ?_ hclause hclauses, rfl⟩
  · rw [hword] at hsecond
    rw [hk]
    exact hsecond.imp (fun h => by rw [Option.some.inj h]) fun h => by rw [Option.some.inj h]
  · have hsame : clauseKeyword? [clause.normal view] = some word' :=
      (clauseKeyword?_normal view [clause]).trans hword'
    rw [hsame] at hfirst
    have hne : word' ≠ .elseK := fun h => hfirst (congrArg some h)
    simpa [hl] using hne

/-- Branches are read as a conditional. Counterpart of `Derives.conditional`. -/
theorem conditional {offset : Nat} (h : ReadsAs view (.clauses offset) first forms)
    (hfirst : clauseKeyword? forms = some .ifK) :
    ReadsAs view .statement (first * keyword .endK) [ofForm (.conditional forms)] := by
  intro stop start tokens htokens
  simp only [writtenIn_mul, writtenIn_fixed] at htokens
  obtain ⟨ts, _, rfl, hts, e, rfl, he⟩ := htokens
  obtain ⟨_, clauses, hclauses, rfl⟩ := h e.start start ts hts
  obtain ⟨word, k, us, hword, rfl, hk⟩ := hclauses.exists_keyword rfl
  rw [clauseKeyword?_normal, hword] at hfirst
  cases hfirst
  exact ⟨_, _, .conditional hk (Token.kind_eq he) hclauses, rfl⟩

end ReadsAs

end LuaFormatter
