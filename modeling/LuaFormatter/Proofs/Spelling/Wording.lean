import LuaFormatter.Proofs.Format.Separators
import LuaFormatter.Proofs.Grammar.ReadsAs

/-!
# The wording of slots

Slots leave open where there are blanks, which no token depends on, and whether a comma follows the
last field of a table. `wording` is the language of the tokens that are left, and every way of
filling slots in has its tokens in there (`content_mem_wording`). `Rule.slots` lists the slots of
the nodes that a rule reads, so that the wording of a construct can be put together from those of
its parts. Comments have no part in this: the equations of the parts of a spelling are those of
programs without comments.
-/

namespace LuaFormatter

open Word

namespace Slot

/-- The tokens that a slot may stand for. -/
def wording (style : Style) : Slot → Language Word
  | token kind text => {[(kind, kind.lexeme style text)]}
  | comma => optional (mark .comma)
  | _ => 1

end Slot

/-- The tokens that slots may stand for. -/
def wording (style : Style) (slots : List Slot) : Language Word :=
  (slots.map (Slot.wording style)).prod

section
variable {style : Style} {slots front back : List Slot} {slot : Slot}

@[simp] theorem wording_nil : wording style [] = 1 :=
  rfl

@[simp] theorem wording_cons :
    wording style (slot :: slots) = slot.wording style * wording style slots :=
  List.prod_cons

@[simp] theorem wording_append :
    wording style (front ++ back) = wording style front * wording style back := by
  rw [wording, List.map_append, List.prod_append]
  rfl

@[simp] theorem Slot.wording_space : Slot.space.wording style = 1 := rfl

@[simp] theorem Slot.wording_gap : Slot.gap.wording style = 1 := rfl

@[simp] theorem Slot.wording_soft : Slot.soft.wording style = 1 := rfl

@[simp] theorem Slot.wording_pad : Slot.pad.wording style = 1 := rfl

@[simp] theorem Slot.wording_hard : Slot.hard.wording style = 1 := rfl

@[simp] theorem Slot.wording_comma : Slot.comma.wording style = optional (mark .comma) := rfl

@[simp] theorem Slot.wording_symbol (symbol : Symbol) :
    (Slot.symbol symbol).wording style = mark symbol :=
  rfl

@[simp] theorem Slot.wording_keyword (word : Keyword) :
    (Slot.keyword word).wording style = Word.keyword word :=
  rfl

@[simp] theorem Slot.wording_binary (op : BinaryOp) :
    (Slot.fixed op.kind).wording style = Word.fixed op.kind := by
  cases op <;> rfl

@[simp] theorem Slot.wording_unary (op : UnaryOp) :
    (Slot.fixed op.kind).wording style = Word.fixed op.kind := by
  cases op <;> rfl

@[simp] theorem Slot.wording_name (text : String) : (nameSlot text).wording style = name text := rfl

/-- The tokens of one slot. Counterpart of `wording`. -/
theorem wording_single : wording style [slot] = slot.wording style :=
  mul_one _

/-- What a slot is filled in with has its tokens in the wording of the slot. Counterpart of
`Slot.wording`. -/
theorem Slot.Resolves.content_mem {pieces : List Piece} (h : slot.Resolves pieces) :
    pieces.filterMap (Piece.content? style) ∈ slot.wording style := by
  cases slot with
  | token kind text =>
    cases h
    exact Set.mem_singleton _
  | comma =>
    rcases h with rfl | rfl <;> [exact .inl (Set.mem_singleton _); exact .inr (Set.mem_singleton _)]
  | space =>
    cases h
    exact Set.mem_singleton _
  | gap => rcases h with rfl | ⟨_, rfl⟩ <;> exact Set.mem_singleton _
  | soft => rcases h with rfl | ⟨_, rfl⟩ <;> exact Set.mem_singleton _
  | pad => rcases h with rfl | rfl | ⟨_, rfl⟩ <;> exact Set.mem_singleton _
  | hard =>
    obtain ⟨_, rfl⟩ := h
    exact Set.mem_singleton _
  | later =>
    obtain ⟨_, -, rfl⟩ := h
    exact Set.mem_singleton _

/-- What slots are filled in with has its tokens in their wording. Counterpart of `wording`. -/
theorem content_mem_wording {pieces : List Piece} (h : Resolves slots pieces) :
    pieces.filterMap (Piece.content? style) ∈ wording style slots := by
  induction slots generalizing pieces with
  | nil =>
    cases h
    exact Set.mem_singleton _
  | cons slot slots ih =>
    obtain ⟨first, rest, rfl, hfirst, hrest⟩ := h
    rw [wording_cons, List.filterMap_append]
    exact Language.append_mem_mul hfirst.content_mem (ih hrest)

end

/-! ## Literals -/

/-- The token that a literal is written as. -/
def literalWord (style : Style) (kind : LiteralKind) (text : String) : Word :=
  match kind with
  | .string => (.string, style.written (verbatimText (requote style.quotes text.toList)))
  | .longString => (.longString, style.written (verbatimText text.toList))
  | _ => (kind.tokenKind text, text.toList)

/-- A literal is written as one token, whose word it is. Counterpart of `literalSlot`. -/
theorem literalSlot_eq (style : Style) (kind : LiteralKind) (text : String) :
    ∃ raw, literalSlot style kind text = .token (kind.tokenKind text) raw ∧
      literalWord style kind text = (kind.tokenKind text,
        (kind.tokenKind text).lexeme style raw) := by
  cases kind with
  | boolean =>
    exact ⟨text.toList, rfl, by simp only [literalWord, LiteralKind.tokenKind]; split <;> rfl⟩
  | _ => exact ⟨_, rfl, rfl⟩

@[simp] theorem wording_literal (style : Style) (kind : LiteralKind) (text : String) :
    (literalSlot style kind text).wording style = {[literalWord style kind text]} := by
  obtain ⟨raw, hslot, hword⟩ := literalSlot_eq style kind text
  rw [hslot, hword]
  rfl

/-- The value of a literal does not depend on the line breaks of a style: no string has line breaks
where they are not line feeds, and no long string a carriage return before a line break of two
characters where they are. -/
def Token.KeepsValue (style : Style) (token : Token) : Prop :=
  match token.kind with
  | .string => style.lineEnding.text = ['\n'] ∨ '\n' ∉ token.lexeme
  | .longString => style.lineEnding.text ≠ ['\n'] ∨ ¬['\r', '\r', '\n'] <:+: token.lexeme
  | _ => True

/-- What a literal is written as is read as a literal with the same meaning. -/
structure LiteralWritten (style : Style) (kind : LiteralKind) (text : String) : Prop where
  reads : Scan.Reads (literalWord style kind text).1 (literalWord style kind text).2
  text_eq : View.meaning.text kind (String.ofList (literalWord style kind text).2) =
    View.meaning.text kind text

section
variable {style : Style}

/-- A string is read back if no line break in it is rewritten. Counterpart of `Token.KeepsValue`. -/
theorem literalWritten_string {raw : List Char} (h : Scan.Reads .string raw)
    (hkeeps : style.lineEnding.text = ['\n'] ∨ '\n' ∉ raw) :
    LiteralWritten style .string (String.ofList raw) := by
  obtain ⟨quote, content, hquote, hrequote, hcontent, hvalue, hlines⟩ :=
    h.exists_requote style.quotes
  obtain ⟨first, inside, hfirst, rfl, hinside⟩ := h.exists_isContent
  have hwritten :=
    Scan.written_content hquote hcontent (hkeeps.imp id fun hmem hline => hmem (hlines hline))
  have hword : literalWord style .string (String.ofList (first :: (inside ++ [first]))) =
      (.string, quote :: (content ++ [quote])) := by
    rw [literalWord, String.toList_ofList, hrequote, hwritten]
  -- No line break of two characters is in a string.
  have hunify : ∀ {quote : Char} {content : List Char}, (quote = '"' ∨ quote = '\x27') →
      IsContent quote content →
      unifyBreaks (quote :: (content ++ [quote])) = quote :: (content ++ [quote]) :=
      fun hquote hcontent =>
    unifyBreaks_eq_self ⟨fun _ => head_content (ne_of_quote hquote).2 hcontent,
      noReturns_content (ne_of_quote hquote).2 hcontent⟩
  constructor
  · rw [hword]
    exact Scan.reads_content hquote hcontent
  · rw [hword]
    simp only [View.meaning, String.toList_ofList, hunify hquote hcontent, hunify hfirst hinside,
      ← hvalue]
    simp [literalContent]

/-- A long string is read back if its line breaks are read as before. Counterpart of
`Token.KeepsValue`. -/
theorem literalWritten_longString {raw : List Char} (h : Scan.Reads .longString raw)
    (hkeeps : style.lineEnding.text ≠ ['\n'] ∨ ¬['\r', '\r', '\n'] <:+: raw) :
    LiteralWritten style .longString (String.ofList raw) := by
  have hword : literalWord style .longString (String.ofList raw) =
      (.longString, style.rebreak raw) := by
    rw [literalWord, String.toList_ofList, h.written_longString]
  constructor
  · rw [hword]
    exact h.rebreak
  · rw [hword]
    simp only [View.meaning, String.toList_ofList, unifyBreaks_rebreak hkeeps]

/-- A literal that was read is written as it is, or with the same value. Counterpart of
`LiteralWritten`. -/
theorem Token.KeepsValue.literalWritten {token : Token} {kind : LiteralKind}
    (h : token.KeepsValue style) (hreads : Scan.Reads token.kind token.lexeme)
    (hkind : Parser.literalKind? token.kind = some kind) :
    LiteralWritten style kind (Parser.textOf token) := by
  have hplain : literalWord style kind (Parser.textOf token) = (token.kind, token.lexeme) →
      View.meaning.text kind = id → LiteralWritten style kind (Parser.textOf token) := by
    intro hword hview
    exact ⟨by rwa [hword], by rw [hword, hview]; rfl⟩
  obtain ⟨tokenKind, start, lexeme⟩ := token
  cases tokenKind with
  | string =>
    cases hkind
    exact literalWritten_string hreads h
  | longString =>
    cases hkind
    exact literalWritten_longString hreads h
  | number =>
    cases hkind
    exact hplain (by simp [literalWord, Parser.textOf, LiteralKind.tokenKind]) rfl
  | symbol mark =>
    cases mark <;> cases hkind
    exact hplain (by simp [literalWord, Parser.textOf, LiteralKind.tokenKind]) rfl
  | keyword word =>
    have hlexeme : lexeme = word.text.toList := hreads.lexeme_keyword
    subst hlexeme
    cases word <;> cases hkind <;>
      exact hplain (by simp [literalWord, Parser.textOf, LiteralKind.tokenKind, Keyword.text]) rfl
  | _ => cases hkind

end

/-! ## The slots of rules -/

/-- The slots of nodes, each at its place. -/
def nodeSlots (context : Context) (place : Nat → Place) (nodes : List Node) : List (List Slot) :=
  nodes.mapIdx fun index node => spell context (place index) node

/-- Nodes with their slots, each at its place. -/
def spelledAt (context : Context) (place : Nat → Place) (nodes : List Node) : List Spelled :=
  nodes.mapIdx fun index node => ⟨node, spell context (place index) node⟩

/-- The slots of the nodes that a rule reads, with what stands between them, each node at its
place. -/
def Rule.slots (context : Context) (rule : Rule) (place : Nat → Place) (nodes : List Node) :
    List Slot :=
  match rule with
  | block => [Slot.hard].intercalate (context.separatedSlots (spelledAt context place nodes))
  | clauses _ => [Slot.hard].intercalate (nodeSlots context place nodes)
  | fields => commaSlots (nodeSlots context place nodes) ++ if nodes.isEmpty then [] else [.comma]
  | _ => commaSlots (nodeSlots context place nodes)

section
variable {context : Context} {style : Style} {place : Nat → Place} {node next : Node}
  {nodes : List Node}

@[simp] theorem nodeSlots_nil : nodeSlots context place [] = [] :=
  rfl

@[simp] theorem nodeSlots_cons :
    nodeSlots context place (node :: nodes) =
      spell context (place 0) node :: nodeSlots context (fun index => place (index + 1)) nodes :=
  List.mapIdx_cons

/-- The spellings of nodes are their slots where all stand at the top. Counterpart of
`nodeSlots`. -/
theorem map_spell (nodes : List Node) :
    nodes.map (spell context {}) = nodeSlots context (fun _ => {}) nodes := by
  induction nodes with
  | nil => rfl
  | cons node rest ih => rw [List.map_cons, nodeSlots_cons, ih]

@[simp] theorem spelledAt_cons :
    spelledAt context place (node :: nodes) =
      ⟨node, spell context (place 0) node⟩ :: spelledAt context (fun index =>
        place (index + 1)) nodes :=
  List.mapIdx_cons

/-- The spelled nodes are the nodes with their slots where all stand at the top. Counterpart of
`spelledAt`. -/
theorem map_spelled (nodes : List Node) :
    nodes.map (fun child => (⟨child, spell context {} child⟩ : Spelled)) =
      spelledAt context (fun _ => {}) nodes := by
  induction nodes with
  | nil => rfl
  | cons node rest ih => rw [List.map_cons, spelledAt_cons, ih]

end

/-! ## Lists -/

section
variable {context : Context} {style : Style} {first : List Slot} {lists : List (List Slot)}

/-- A first list, a comma and a gap, and the others. Counterpart of `commaSlots`. -/
theorem commaSlots_cons (hne : lists ≠ []) :
    commaSlots (first :: lists) = first ++ .symbol .comma :: .gap :: commaSlots lists := by
  obtain ⟨second, rest, rfl⟩ := List.exists_cons_of_ne_nil hne
  rw [commaSlots, List.intercalate_cons_cons, List.append_assoc]
  rfl

/-- Arguments are written with blank lines between them, which are no words. Counterpart of
`Context.argumentSlots`. -/
theorem wording_argumentSlots (arguments : List Spelled) :
    wording style (context.argumentSlots arguments) =
      wording style (commaSlots (arguments.map Spelled.slots)) := by
  fun_induction Context.argumentSlots context arguments with
  | case1 => rfl
  | case2 last => rw [List.map_singleton, commaSlots, List.intercalate_singleton]
  | case3 argument next rest ih =>
    have hblank : ∀ isBlank : Bool,
        wording style (if isBlank then [.hard, .hard] else [.gap]) = 1 := by
      intro isBlank
      cases isBlank <;> simp
    rw [List.map_cons] at ih
    rw [List.map_cons, commaSlots_cons (by simp), List.map_cons]
    simp [ih, hblank]

/-- A statement, what divides it from the next one, and the rest of the block. Counterpart of
`Context.separatedSlots`. -/
theorem intercalate_separatedSlots (statement next : Spelled) (rest : List Spelled) :
    [Slot.hard].intercalate (context.separatedSlots (statement :: next :: rest)) =
      statement.slots ++ (context.separatorSlots statement.node next.node ++
        .hard :: [Slot.hard].intercalate (context.separatedSlots (next :: rest))) := by
  obtain ⟨more, lists, hlists⟩ := context.exists_separatedSlots next rest
  rw [Context.separatedSlots, hlists, List.intercalate_cons_cons, ← hlists]
  simp [Context.separatorSlots]

end

/-! ## Without comments -/

/-- All statements of a block were read. Counterpart of `Node.isUnreadStatement`. -/
theorem Derives.isUnreadStatement {isApart : Bool} {a b : Nat} {ts : List Token} {body : List Node}
    (h : Derives isApart .block a b ts body) :
    ∀ statement ∈ body, statement.isUnreadStatement = false := by
  intro statement hmem
  obtain ⟨front, back, hbody⟩ := List.append_of_mem hmem
  obtain ⟨_, _, _, hstatement⟩ | ⟨-, _, _, _, rfl⟩ := h.of_mem_block hbody
  · cases hstatement with
    | callStatement _ hcall => exact (hcall.isRead _ (List.mem_singleton_self _)).1
    | _ => rfl
  · rfl

section
variable {context : Context} {node : Node} {isApart : Bool} {a b : Nat} {ts : List Token}
  {body : List Node}

/-- The statements of a block have the slots of its rule. Counterpart of `Rule.slots`. -/
theorem statementSlots_eq (h : Derives isApart .block a b ts body) :
    context.statementSlots (body.map fun child => ⟨child, spell context {} child⟩) =
      Rule.block.slots context (fun _ => {}) body := by
  rw [Context.statementSlots, List.filter_eq_self.2 fun statement hmem => ?_, map_spelled]
  · rfl
  · obtain ⟨child, hchild, rfl⟩ := List.mem_map.1 hmem
    simpa using h.isUnreadStatement child hchild

variable (hcontext : context.attachments = [])
include hcontext

/-- Without comments a body is a line break and its statements. Counterpart of
`Context.bodySlots`. -/
theorem bodySlots_eq (h : Derives isApart .block a b ts body) :
    context.bodySlots node (body.map fun child => ⟨child, spell context {} child⟩) =
      if body.isEmpty then [] else .hard :: Rule.block.slots context (fun _ => {}) body := by
  rw [Context.bodySlots, danglingSlots_eq hcontext, statementSlots_eq h, List.isEmpty_map,
    List.nil_append]

/-- Without comments a body with its closing keyword is its statements between line breaks, or a
space. Counterpart of `Context.bodyEndSlots`. -/
theorem bodyEndSlots_eq (h : Derives isApart .block a b ts body) :
    context.bodyEndSlots node (body.map fun child => ⟨child, spell context {} child⟩) =
      (if body.isEmpty then [] else .hard :: Rule.block.slots context (fun _ => {}) body) ++
        [if body.isEmpty then .space else .hard, .keyword .endK] := by
  rw [Context.bodyEndSlots, bodySlots_eq hcontext h, Context.hasBody, danglingComments_eq hcontext,
    List.isEmpty_map]
  cases body <;> rfl

/-- Without comments empty parentheses are two symbols. Counterpart of
`Context.emptyParensSlots`. -/
theorem emptyParensSlots_eq :
    context.emptyParensSlots node = [.symbol .leftParen, .symbol .rightParen] := by
  rw [Context.emptyParensSlots, danglingComments_eq hcontext]

end

end LuaFormatter
