import LuaFormatter.Format.Boundary
import LuaFormatter.Parse.Statement

/-!
# Derivations

The grammar as a relation. `Derives rule first next tokens nodes` says that a rule reads tokens as
nodes, which get the numbers from `first` up to but not including `next`. There is one constructor
for each form of the grammar, and rules that read a single node give a list of one, so that a proof
about all rules is one induction.

How operators group is no part of the rules: `Above` and `Below` say which operators an operand
leaves to the operation around it, and the rule for operations asks for both. A derivation may also
be asked to keep statements apart: then no statement starts with a parenthesis after one that
would be called by it.
-/

open LuaFormatter.Parser

namespace LuaFormatter

/-- The span from the start of the first token to the end of the last one. -/
def tokensSpan (tokens : List Token) : Span :=
  match tokens.head?, tokens.getLast? with
  | some first, some last => ⟨first.start, max last.stop first.start⟩
  | _, _ => ⟨0, 0⟩

@[simp] theorem tokensSpan_start (first : Token) (rest : List Token) :
    (tokensSpan (first :: rest)).start = first.start := by
  simp [tokensSpan, List.getLast?_eq_some_getLast (List.cons_ne_nil first rest)]

/-- A node without parentheses around it that takes up all of its tokens. -/
abbrev nodeOf (number : Nat) (shape : Shape Node) (tokens : List Token) : Node :=
  ⟨number, shape, tokensSpan tokens, false⟩

/-- The node of a name. -/
abbrev nameOf (number : Nat) (token : Token) : Node :=
  nodeOf number (.identifier (Parser.textOf token)) [token]

namespace Node

/-- The node can be accessed or called as it stands. -/
def canBeBase (node : Node) : Bool :=
  node.inParens ||
    match node.shape with
    | .identifier _ | .member .dot _ _ | .index _ _ | .call _ _ | .tableCall _ _
    | .stringCall _ _ => true
    | _ => false

/-- All operators down the left side bind tighter than a limit. -/
def Above (limit : Nat) : Node → Prop
  | mk _ (.binary op left _) _ false => limit < op.leftPriority ∧ Above limit left
  | _ => True

/-- No operand down the right side takes an operator of a priority that follows. -/
def Below (priority : Nat) : Node → Prop
  | mk _ (.binary op _ right) _ false => priority ≤ op.rightPriority ∧ Below priority right
  | mk _ (.unary _ operand) _ false => priority ≤ UnaryOp.priority ∧ Below priority operand
  | _ => True

end Node

/-- The rules of the grammar. -/
inductive Rule where
  | expression
  /-- What is called: a value, or a value and the name of its method. -/
  | callee
  /-- Names with dots between them. -/
  | dotted
  /-- The name of a function, which may end in the name of a method. -/
  | name
  /-- At least one expression, with commas between them. -/
  | expressions
  /-- Expressions with commas between them, or none. -/
  | arguments
  /-- At least one name, with commas between them. -/
  | names
  /-- The parameters of a function. -/
  | parameters
  | field
  | fields
  | statement
  | block
  /-- A branch of a conditional that reaches up to an offset. -/
  | clause (stop : Nat)
  /-- Branches of a conditional, the last of which reaches up to an offset. -/
  | clauses (stop : Nat)

/-- The tokens of a function from its parameters on. -/
abbrev routine (left : Token) (parameters : List Token) (right : Token) (body : List Token)
    (last : Token) : List Token :=
  left :: (parameters ++ right :: (body ++ [last]))

/-- A rule reads tokens as nodes with the numbers from a first one up to a next one. -/
inductive Derives (isApart : Bool) : Rule → Nat → Nat → List Token → List Node → Prop
  -- Operands
  | identifier {n : Nat} {t : Token} : t.kind = .identifier →
    Derives isApart .expression n (n + 1) [t] [nameOf n t]
  | literal {n : Nat} {t : Token} {kind : LiteralKind} : literalKind? t.kind = some kind →
    Derives isApart .expression n (n + 1) [t] [nodeOf n (.literal kind (textOf t)) [t]]
  | parens {a b : Nat} {l r : Token} {ts : List Token} {node : Node} :
    l.kind = .symbol .leftParen → r.kind = .symbol .rightParen →
    Derives isApart .expression a b ts [node] →
    Derives isApart .expression a b (l :: (ts ++ [r])) [node.parenthesise]
  | table {a b : Nat} {l r : Token} {ts : List Token} {fields : List Node} :
    l.kind = .symbol .leftCurly → r.kind = .symbol .rightCurly →
    Derives isApart .fields a b ts fields →
    Derives isApart .expression a (b + 1) (l :: (ts ++ [r]))
      [nodeOf b (.table fields) (l :: (ts ++ [r]))]
  | function {a b c : Nat} {f l r e : Token} {ps bs : List Token} {parameters body : List Node} :
    f.kind = .keyword .functionK → l.kind = .symbol .leftParen → r.kind = .symbol .rightParen →
    e.kind = .keyword .endK →
    Derives isApart .parameters a b ps parameters → Derives isApart .block b c bs body →
    Derives isApart .expression a (c + 1) (f :: routine l ps r bs e)
      [nodeOf c (.function false none parameters body) (f :: routine l ps r bs e)]
  -- Accesses and calls
  | member {a b : Nat} {d t : Token} {ts : List Token} {base : Node} :
    d.kind = .symbol .dot → t.kind = .identifier → base.canBeBase = true →
    Derives isApart .expression a b ts [base] →
    Derives isApart .expression a (b + 2) (ts ++ [d, t])
      [nodeOf (b + 1) (.member .dot base (nameOf b t)) (ts ++ [d, t])]
  | index {a b c : Nat} {l r : Token} {ts ks : List Token} {base key : Node} :
    l.kind = .symbol .leftSquare → r.kind = .symbol .rightSquare → base.canBeBase = true →
    Derives isApart .expression a b ts [base] → Derives isApart .expression b c ks [key] →
    Derives isApart .expression a (c + 1) (ts ++ l :: (ks ++ [r]))
      [nodeOf c (.index base key) (ts ++ l :: (ks ++ [r]))]
  | call {a b c : Nat} {l r : Token} {ts us : List Token} {base : Node} {arguments : List Node} :
    l.kind = .symbol .leftParen → r.kind = .symbol .rightParen →
    Derives isApart .callee a b ts [base] → Derives isApart .arguments b c us arguments →
    Derives isApart .expression a (c + 1) (ts ++ l :: (us ++ [r]))
      [nodeOf c (.call base arguments) (ts ++ l :: (us ++ [r]))]
  | tableCall {a b c : Nat} {l r : Token} {ts us : List Token} {base : Node}
    {fields : List Node} :
    l.kind = .symbol .leftCurly → r.kind = .symbol .rightCurly →
    Derives isApart .callee a b ts [base] → Derives isApart .fields b c us fields →
    Derives isApart .expression a (c + 2) (ts ++ l :: (us ++ [r]))
      [nodeOf (c + 1) (.tableCall base (nodeOf c (.table fields) (l :: (us ++ [r]))))
        (ts ++ l :: (us ++ [r]))]
  | stringCall {a b : Nat} {t : Token} {ts : List Token} {base : Node} {kind : LiteralKind} :
    literalKind? t.kind = some kind → startsArguments t.kind = true →
    Derives isApart .callee a b ts [base] →
    Derives isApart .expression a (b + 2) (ts ++ [t])
      [nodeOf (b + 1) (.stringCall base (nodeOf b (.literal kind (textOf t)) [t])) (ts ++ [t])]
  | plain {a b : Nat} {ts : List Token} {base : Node} : base.canBeBase = true →
    Derives isApart .expression a b ts [base] → Derives isApart .callee a b ts [base]
  | method {a b : Nat} {d t : Token} {ts : List Token} {base : Node} :
    d.kind = .symbol .colon → t.kind = .identifier → base.canBeBase = true →
    Derives isApart .expression a b ts [base] →
    Derives isApart .callee a (b + 2) (ts ++ [d, t])
      [nodeOf (b + 1) (.member .colon base (nameOf b t)) (ts ++ [d, t])]
  -- Operations
  | unary {a b : Nat} {t : Token} {op : UnaryOp} {ts : List Token} {operand : Node} :
    UnaryOp.ofKind? t.kind = some op → operand.Above UnaryOp.priority →
    Derives isApart .expression a b ts [operand] →
    Derives isApart .expression a (b + 1) (t :: ts) [nodeOf b (.unary op operand) (t :: ts)]
  | binary {a b c : Nat} {t : Token} {op : BinaryOp} {ls rs : List Token} {left right : Node} :
    BinaryOp.ofKind? t.kind = some op → left.Below op.leftPriority →
    right.Above op.rightPriority →
    Derives isApart .expression a b ls [left] → Derives isApart .expression b c rs [right] →
    Derives isApart .expression a (c + 1) (ls ++ t :: rs)
      [nodeOf c (.binary op left right) (ls ++ t :: rs)]
  -- Lists
  | lastExpression {a b : Nat} {ts : List Token} {node : Node} :
    Derives isApart .expression a b ts [node] → Derives isApart .expressions a b ts [node]
  | moreExpressions {a b c : Nat} {t : Token} {ts us : List Token} {node : Node}
    {nodes : List Node} :
    t.kind = .symbol .comma →
    Derives isApart .expression a b ts [node] → Derives isApart .expressions b c us nodes →
    Derives isApart .expressions a c (ts ++ t :: us) (node :: nodes)
  | noArguments {n : Nat} : Derives isApart .arguments n n [] []
  | someArguments {a b : Nat} {ts : List Token} {nodes : List Node} :
    Derives isApart .expressions a b ts nodes → Derives isApart .arguments a b ts nodes
  | lastName {n : Nat} {t : Token} : t.kind = .identifier →
    Derives isApart .names n (n + 1) [t] [nameOf n t]
  | moreNames {n b : Nat} {t c : Token} {ts : List Token} {nodes : List Node} :
    t.kind = .identifier → c.kind = .symbol .comma →
    Derives isApart .names (n + 1) b ts nodes →
    Derives isApart .names n b (t :: c :: ts) (nameOf n t :: nodes)
  | noParameters {n : Nat} : Derives isApart .parameters n n [] []
  | lastParameter {n : Nat} {t : Token} : t.kind = .identifier →
    Derives isApart .parameters n (n + 1) [t] [nameOf n t]
  | varargs {n : Nat} {t : Token} : t.kind = .symbol .dotDotDot →
    Derives isApart .parameters n (n + 1) [t] [nodeOf n (.literal .vararg (textOf t)) [t]]
  | moreParameters {n b : Nat} {t c : Token} {ts : List Token} {nodes : List Node} :
    t.kind = .identifier → c.kind = .symbol .comma → nodes ≠ [] →
    Derives isApart .parameters (n + 1) b ts nodes →
    Derives isApart .parameters n b (t :: c :: ts) (nameOf n t :: nodes)
  -- Fields
  | keyField {a b c : Nat} {l r e : Token} {ks vs : List Token} {key value : Node} :
    l.kind = .symbol .leftSquare → r.kind = .symbol .rightSquare → e.kind = .symbol .equal →
    Derives isApart .expression a b ks [key] → Derives isApart .expression b c vs [value] →
    Derives isApart .field a (c + 1) (l :: (ks ++ r :: e :: vs))
      [nodeOf c (.keyField key value) (l :: (ks ++ r :: e :: vs))]
  | nameField {n b : Nat} {t e : Token} {vs : List Token} {value : Node} :
    t.kind = .identifier → e.kind = .symbol .equal →
    Derives isApart .expression (n + 1) b vs [value] →
    Derives isApart .field n (b + 1) (t :: e :: vs)
      [nodeOf b (.nameField (nameOf n t) value) (t :: e :: vs)]
  | valueField {a b : Nat} {vs : List Token} {value : Node} :
    Derives isApart .expression a b vs [value] →
    Derives isApart .field a (b + 1) vs [nodeOf b (.valueField value) vs]
  | noFields {n : Nat} : Derives isApart .fields n n [] []
  | lastField {a b : Nat} {ts : List Token} {field : Node} :
    Derives isApart .field a b ts [field] → Derives isApart .fields a b ts [field]
  | moreFields {a b c : Nat} {t : Token} {ts us : List Token} {field : Node}
    {fields : List Node} :
    t.kind = .symbol .comma ∨ t.kind = .symbol .semicolon →
    Derives isApart .field a b ts [field] → Derives isApart .fields b c us fields →
    Derives isApart .fields a c (ts ++ t :: us) (field :: fields)
  -- Names of functions
  | nameStart {n : Nat} {t : Token} : t.kind = .identifier →
    Derives isApart .dotted n (n + 1) [t] [nameOf n t]
  | nameMember {a b : Nat} {d t : Token} {ts : List Token} {base : Node} :
    d.kind = .symbol .dot → t.kind = .identifier → Derives isApart .dotted a b ts [base] →
    Derives isApart .dotted a (b + 2) (ts ++ [d, t])
      [nodeOf (b + 1) (.member .dot base (nameOf b t)) (ts ++ [d, t])]
  | nameDotted {a b : Nat} {ts : List Token} {base : Node} :
    Derives isApart .dotted a b ts [base] → Derives isApart .name a b ts [base]
  | nameMethod {a b : Nat} {d t : Token} {ts : List Token} {base : Node} :
    d.kind = .symbol .colon → t.kind = .identifier → Derives isApart .dotted a b ts [base] →
    Derives isApart .name a (b + 2) (ts ++ [d, t])
      [nodeOf (b + 1) (.member .colon base (nameOf b t)) (ts ++ [d, t])]
  -- Statements
  | declaration {a b : Nat} {k : Token} {ts : List Token} {names : List Node} :
    k.kind = .keyword .localK → Derives isApart .names a b ts names →
    Derives isApart .statement a (b + 1) (k :: ts) [nodeOf b (.localVariables names []) (k :: ts)]
  | definition {a b c : Nat} {k e : Token} {ts vs : List Token} {names values : List Node} :
    k.kind = .keyword .localK → e.kind = .symbol .equal →
    Derives isApart .names a b ts names → Derives isApart .expressions b c vs values →
    Derives isApart .statement a (c + 1) (k :: (ts ++ e :: vs))
      [nodeOf c (.localVariables names values) (k :: (ts ++ e :: vs))]
  | localFunction {n b c : Nat} {k f t l r e : Token} {ps bs : List Token}
    {parameters body : List Node} :
    k.kind = .keyword .localK → f.kind = .keyword .functionK → t.kind = .identifier →
    l.kind = .symbol .leftParen → r.kind = .symbol .rightParen → e.kind = .keyword .endK →
    Derives isApart .parameters (n + 1) b ps parameters → Derives isApart .block b c bs body →
    Derives isApart .statement n (c + 1) (k :: f :: t :: routine l ps r bs e)
      [nodeOf c (.function true (some (nameOf n t)) parameters body)
        (k :: f :: t :: routine l ps r bs e)]
  | globalFunction {a b c d : Nat} {f l r e : Token} {ns ps bs : List Token} {name : Node}
    {parameters body : List Node} :
    f.kind = .keyword .functionK → l.kind = .symbol .leftParen → r.kind = .symbol .rightParen →
    e.kind = .keyword .endK → Derives isApart .name a b ns [name] →
    Derives isApart .parameters b c ps parameters → Derives isApart .block c d bs body →
    Derives isApart .statement a (d + 1) (f :: (ns ++ routine l ps r bs e))
      [nodeOf d (.function false (some name) parameters body) (f :: (ns ++ routine l ps r bs e))]
  | assignment {a b c : Nat} {e : Token} {ts vs : List Token} {targets values : List Node} :
    e.kind = .symbol .equal →
    (∀ target ∈ targets, target.canBeBase = true ∧ isTarget target = true) →
    Derives isApart .expressions a b ts targets → Derives isApart .expressions b c vs values →
    Derives isApart .statement a (c + 1) (ts ++ e :: vs)
      [nodeOf c (.assignment targets values) (ts ++ e :: vs)]
  | callStatement {a b : Nat} {ts : List Token} {node : Node} : node.shape.isCall = true →
    Derives isApart .expression a b ts [node] →
    Derives isApart .statement a (b + 1) ts [nodeOf b (.callStatement node) ts]
  | conditional {a b : Nat} {k e : Token} {ts : List Token} {clauses : List Node} :
    k.kind = .keyword .ifK → e.kind = .keyword .endK →
    Derives isApart (.clauses e.start) a b (k :: ts) clauses →
    Derives isApart .statement a (b + 1) (k :: (ts ++ [e]))
      [nodeOf b (.conditional clauses) (k :: (ts ++ [e]))]
  | whileLoop {a b c : Nat} {k d e : Token} {ts bs : List Token} {condition : Node}
    {body : List Node} :
    k.kind = .keyword .whileK → d.kind = .keyword .doK → e.kind = .keyword .endK →
    Derives isApart .expression a b ts [condition] → Derives isApart .block b c bs body →
    Derives isApart .statement a (c + 1) (k :: (ts ++ d :: (bs ++ [e])))
      [nodeOf c (.whileLoop condition body) (k :: (ts ++ d :: (bs ++ [e])))]
  | doBlock {a b : Nat} {k e : Token} {bs : List Token} {body : List Node} :
    k.kind = .keyword .doK → e.kind = .keyword .endK → Derives isApart .block a b bs body →
    Derives isApart .statement a (b + 1) (k :: (bs ++ [e]))
      [nodeOf b (.doBlock body) (k :: (bs ++ [e]))]
  | repeatLoop {a b c : Nat} {k u : Token} {bs ts : List Token} {body : List Node}
    {condition : Node} :
    k.kind = .keyword .repeatK → u.kind = .keyword .untilK →
    Derives isApart .block a b bs body → Derives isApart .expression b c ts [condition] →
    Derives isApart .statement a (c + 1) (k :: (bs ++ u :: ts))
      [nodeOf c (.repeatLoop body condition) (k :: (bs ++ u :: ts))]
  | numericFor {n b c d : Nat} {k t e m o f : Token} {us vs bs : List Token} {first last : Node}
    {body : List Node} :
    k.kind = .keyword .forK → t.kind = .identifier → e.kind = .symbol .equal →
    m.kind = .symbol .comma → o.kind = .keyword .doK → f.kind = .keyword .endK →
    Derives isApart .expression (n + 1) b us [first] → Derives isApart .expression b c vs [last] →
    Derives isApart .block c d bs body →
    Derives isApart .statement n (d + 1) (k :: t :: e :: (us ++ m :: (vs ++ o :: (bs ++ [f]))))
      [nodeOf d (.numericFor (nameOf n t) first last none body)
        (k :: t :: e :: (us ++ m :: (vs ++ o :: (bs ++ [f]))))]
  | steppedFor {n b c d g : Nat} {k t e m p o f : Token} {us vs ws bs : List Token}
    {first last step : Node} {body : List Node} :
    k.kind = .keyword .forK → t.kind = .identifier → e.kind = .symbol .equal →
    m.kind = .symbol .comma → p.kind = .symbol .comma → o.kind = .keyword .doK →
    f.kind = .keyword .endK →
    Derives isApart .expression (n + 1) b us [first] → Derives isApart .expression b c vs [last] →
    Derives isApart .expression c d ws [step] → Derives isApart .block d g bs body →
    Derives isApart .statement n (g + 1)
      (k :: t :: e :: (us ++ m :: (vs ++ p :: (ws ++ o :: (bs ++ [f])))))
      [nodeOf g (.numericFor (nameOf n t) first last (some step) body)
        (k :: t :: e :: (us ++ m :: (vs ++ p :: (ws ++ o :: (bs ++ [f])))))]
  | genericFor {a b c d : Nat} {k i o f : Token} {ts vs bs : List Token}
    {names iterators body : List Node} :
    k.kind = .keyword .forK → i.kind = .keyword .inK → o.kind = .keyword .doK →
    f.kind = .keyword .endK → Derives isApart .names a b ts names →
    Derives isApart .expressions b c vs iterators → Derives isApart .block c d bs body →
    Derives isApart .statement a (d + 1) (k :: (ts ++ i :: (vs ++ o :: (bs ++ [f]))))
      [nodeOf d (.genericFor names iterators body)
        (k :: (ts ++ i :: (vs ++ o :: (bs ++ [f]))))]
  | breakStatement {n : Nat} {k : Token} : k.kind = .keyword .breakK →
    Derives isApart .statement n (n + 1) [k] [nodeOf n .breakStatement [k]]
  | gotoStatement {n : Nat} {k t : Token} : k.kind = .keyword .gotoK → t.kind = .identifier →
    Derives isApart .statement n (n + 2) [k, t]
      [nodeOf (n + 1) (.gotoStatement (nameOf n t)) [k, t]]
  | labelStatement {n : Nat} {l t r : Token} :
    l.kind = .symbol .colonColon → t.kind = .identifier → r.kind = .symbol .colonColon →
    Derives isApart .statement n (n + 2) [l, t, r]
      [nodeOf (n + 1) (.labelStatement (nameOf n t)) [l, t, r]]
  -- Blocks
  | emptyBlock {n : Nat} : Derives isApart .block n n [] []
  | semicolon {a b : Nat} {t : Token} {ts : List Token} {body : List Node} :
    t.kind = .symbol .semicolon → Derives isApart .block a b ts body →
    Derives isApart .block a b (t :: ts) body
  | moreStatements {a b c : Nat} {ts us : List Token} {statement : Node} {body : List Node} :
    (isApart = true → us.head?.any (·.kind = .symbol .leftParen) = true →
      statement.lastExpression?.any Node.isCallable = false) →
    Derives isApart .statement a b ts [statement] → Derives isApart .block b c us body →
    Derives isApart .block a c (ts ++ us) (statement :: body)
  | returnStatement {a b : Nat} {k : Token} {ts ends : List Token} {values : List Node} :
    k.kind = .keyword .returnK →
    ends = [] ∨ (∃ s : Token, s.kind = .symbol .semicolon ∧ ends = [s]) →
    Derives isApart .arguments a b ts values →
    Derives isApart .block a (b + 1) (k :: (ts ++ ends))
      [nodeOf b (.returnStatement values) (k :: (ts ++ ends))]
  -- Branches
  | clause {a b c stop : Nat} {k t : Token} {ts bs : List Token} {condition : Node}
    {body : List Node} :
    k.kind = .keyword .ifK ∨ k.kind = .keyword .elseifK → t.kind = .keyword .thenK →
    Derives isApart .expression a b ts [condition] → Derives isApart .block b c bs body →
    Derives isApart (.clause stop) a (c + 1) (k :: (ts ++ t :: bs))
      [⟨c, .clause (clauseKind k.kind) (some condition) body, ⟨k.start, max stop k.start⟩, false⟩]
  | elseClause {a b stop : Nat} {k : Token} {bs : List Token} {body : List Node} :
    k.kind = .keyword .elseK → Derives isApart .block a b bs body →
    Derives isApart (.clause stop) a (b + 1) (k :: bs)
      [⟨b, .clause .elseClause none body, ⟨k.start, max stop k.start⟩, false⟩]
  | lastClause {a b stop : Nat} {ts : List Token} {clause : Node} :
    Derives isApart (.clause stop) a b ts [clause] →
    Derives isApart (.clauses stop) a b ts [clause]
  | moreClauses {a b c stop : Nat} {k : Token} {ts us : List Token} {clause : Node}
    {clauses : List Node} :
    k.kind = .keyword .elseifK ∨ k.kind = .keyword .elseK →
    ts.head?.any (·.kind = .keyword .elseK) = false →
    Derives isApart (.clause k.start) a b ts [clause] →
    Derives isApart (.clauses stop) b c (k :: us) clauses →
    Derives isApart (.clauses stop) a c (ts ++ k :: us) (clause :: clauses)

/-- These rules read at least one token. -/
def Rule.isFilled : Rule → Bool
  | arguments | parameters | fields | block => false
  | _ => true

/-- Most rules read at least one token. Counterpart of `Rule.isFilled`. -/
theorem Derives.ne_nil {isApart : Bool} {rule : Rule} {a b : Nat} {tokens : List Token}
    {nodes : List Node} (h : Derives isApart rule a b tokens nodes)
    (hfilled : rule.isFilled = true) :
    tokens ≠ [] := by
  induction h <;> simp_all [Rule.isFilled]

end LuaFormatter
