import LuaFormatter.Proofs.Format.Skeleton
import LuaFormatter.Proofs.Layout.Squeeze
import LuaFormatter.Proofs.Spelling.Implement

/-!
# Optional commas

The only slot that a layout may fill with a token is the comma after the last field of a table.
`Neat` says where such commas stand: before the brace that closes the table, and after a field that
ends in a token other than a comma. All ways to fill neat slots in give texts that differ by these
commas only (`Neat.trimmed`), and the spelling of a program without comments is neat (`neat_spell`).
-/

namespace LuaFormatter

open Layout

/-- The characters of a slot that every layout writes, without blanks. -/
def Slot.letters : Slot → List Char
  | token _ text => LuaFormatter.letters text
  | _ => []

/-- The slot is no comment that is put off and no comma that may be left out. -/
def Slot.isPlain : Slot → Bool
  | comma | later _ _ _ => false
  | _ => true

/-- The last character that the slots write is no comma. -/
def Firm (slots : List Slot) : Prop :=
  ∃ c, (slots.flatMap Slot.letters).getLast? = some c ∧ c ≠ ','

/-- Commas that may be left out stand between a field and a closing brace. -/
inductive Neat : List Slot → Prop
  | nil : Neat []
  | cons {slot : Slot} {slots : List Slot} : slot.isPlain = true → Neat slots → Neat (slot :: slots)
  | append {front back : List Slot} : Neat front → Neat back → Neat (front ++ back)
  | table {fields : List Slot} : Neat fields → Firm fields →
    Neat (fields ++ [.comma, .pad, .symbol .rightCurly])

section
variable {front back slots : List Slot} {slot : Slot} {pieces : List Piece}

/-- The end of slots says whether they are firm. Counterpart of `Firm`. -/
theorem Firm.append (h : Firm back) : Firm (front ++ back) := by
  obtain ⟨c, hlast, hc⟩ := h
  exact ⟨c, by rw [List.flatMap_append, List.getLast?_append, hlast]; rfl, hc⟩

/-- A slot in front does not change whether slots are firm. Counterpart of `Firm`. -/
theorem Firm.cons (h : Firm slots) : Firm (slot :: slots) :=
  @Firm.append [slot] slots h

/-- Neat lists with neat separators between them are neat. Counterpart of `List.intercalate` for
`Neat`. -/
theorem Neat.intercalate {separator : List Slot} {lists : List (List Slot)}
    (hseparator : Neat separator) (h : ∀ list ∈ lists, Neat list) :
    Neat (separator.intercalate lists) := by
  match lists with
  | [] => exact .nil
  | [last] => simpa using h last (by simp)
  | first :: second :: rest =>
    rw [List.intercalate_cons_cons, List.append_assoc]
    refine .append (h first (by simp)) (.append hseparator (hseparator.intercalate ?_))
    exact fun list hlist => h list (List.mem_cons_of_mem _ hlist)

/-- Firm lists with separators between them are firm, if there is one. Counterpart of
`List.intercalate` for `Firm`. -/
theorem Firm.intercalate {separator : List Slot} {lists : List (List Slot)} (hne : lists ≠ [])
    (h : ∀ list ∈ lists, Firm list) : Firm (separator.intercalate lists) := by
  match lists with
  | [] => exact absurd rfl hne
  | [last] => simpa using h last (by simp)
  | first :: second :: rest =>
    rw [List.intercalate_cons_cons]
    exact .append (Firm.intercalate (by simp) fun list hlist =>
        h list (List.mem_cons_of_mem _ hlist))

/-! ## Words of neat slots -/

/-- A word is written at once, and its characters are these. -/
def Writes (word : List Mark) (text : List Char) : Prop :=
  ∃ inks, word = Mark.ofInks inks ∧ inks.flatMap Ink.letters = text

/-- Words one after the other write their texts one after the other. Counterpart of `Writes`. -/
theorem Writes.append {first second : List Mark} {text more : List Char} (h : Writes first text)
    (hsecond : Writes second more) : Writes (first ++ second) (text ++ more) := by
  obtain ⟨inks, rfl, rfl⟩ := h
  obtain ⟨others, rfl, rfl⟩ := hsecond
  exact ⟨inks ++ others, by simp [Mark.ofInks], by simp⟩

/-- Without marks nothing is written. Counterpart of `Writes`. -/
theorem writes_nil : Writes [] [] :=
  ⟨[], rfl, rfl⟩

/-- A space writes no letters. Counterpart of `Writes`. -/
theorem writes_space : Writes Piece.space.marks [] :=
  ⟨[.char false ' '], rfl, rfl⟩

/-- A line break writes no letters. Counterpart of `Writes`. -/
theorem writes_newline (level : Nat) : Writes (Piece.newline level).marks [] :=
  ⟨[.newline level], rfl, rfl⟩

/-- A token is written with its characters. Counterpart of `Piece.token`. -/
theorem writes_token (kind : Kind) (text : List Char) :
    Writes (Piece.token kind text).marks (letters text) := by
  induction text with
  | nil => exact writes_nil
  | cons c rest ih =>
    have hc : Writes (kind.marks [c]) (letters [c]) := by
      by_cases hbreak : kind.isVerbatim ∧ c = '\n'
      · obtain ⟨-, rfl⟩ := id hbreak
        exact ⟨[.literal], by simp [Kind.marks, Mark.ofInks, hbreak.1], rfl⟩
      · exact ⟨[.char kind.isNote c], by simp [Kind.marks, Mark.ofInks, hbreak],
          by simp [Ink.letters]⟩
    rw [letters_cons]
    exact hc.append ih

/-- A single piece is written as itself. Counterpart of `Writes`. -/
theorem Writes.single {piece : Piece} {text : List Char} (h : Writes piece.marks text) :
    Writes ([piece].flatMap Piece.marks) text := by
  rwa [List.flatMap_singleton]

/-- A plain slot is always filled in with the same characters. Counterpart of `Slot.letters`. -/
theorem Slot.Resolves.writes (h : slot.Resolves pieces) (hplain : slot.isPlain = true) :
    Writes (pieces.flatMap Piece.marks) slot.letters := by
  cases slot with
  | token kind text =>
    cases h
    exact (writes_token kind text).single
  | space =>
    cases h
    exact writes_space.single
  | gap =>
    rcases h with rfl | ⟨level, rfl⟩
    · exact writes_space.single
    · exact (writes_newline level).single
  | soft =>
    rcases h with rfl | ⟨level, rfl⟩
    · exact writes_nil
    · exact (writes_newline level).single
  | pad =>
    rcases h with rfl | rfl | ⟨level, rfl⟩
    · exact writes_nil
    · exact writes_space.single
    · exact (writes_newline level).single
  | hard =>
    obtain ⟨level, rfl⟩ := h
    exact (writes_newline level).single
  | comma | later breaks kind text => cases hplain

/-- Neat slots are filled in with the same characters, up to commas before closing braces.
Counterpart of `Neat`. -/
theorem Neat.trimmed (h : Neat slots) (hpieces : LuaFormatter.Resolves slots pieces) :
    ∃ text, Writes (pieces.flatMap Piece.marks) text ∧
      Trimmed text (slots.flatMap Slot.letters) := by
  induction h generalizing pieces with
  | nil =>
    cases hpieces
    exact ⟨[], writes_nil, .nil⟩
  | cons hplain _ ih =>
    obtain ⟨first, rest, rfl, hfirst, hrest⟩ := hpieces
    obtain ⟨text, hwrites, htrimmed⟩ := ih hrest
    refine ⟨_, ?_, .append (.refl _) htrimmed⟩
    rw [List.flatMap_append]
    exact (hfirst.writes hplain).append hwrites
  | append _ _ ih ih' =>
    obtain ⟨first, second, rfl, hfirst, hsecond⟩ := resolves_append.1 hpieces
    obtain ⟨text, hwrites, htrimmed⟩ := ih hfirst
    obtain ⟨more, hmore, htrimmed'⟩ := ih' hsecond
    refine ⟨text ++ more, ?_, ?_⟩
    · rw [List.flatMap_append]
      exact hwrites.append hmore
    · rw [List.flatMap_append]
      exact htrimmed.append htrimmed'
  | @table fields _ hfirm ih =>
    obtain ⟨first, second, rfl, hfirst, hsecond⟩ := resolves_append.1 hpieces
    obtain ⟨text, hwrites, htrimmed⟩ := ih hfirst
    obtain ⟨comma, closing, rfl, hcomma, hclosing⟩ := hsecond
    obtain ⟨pad, brace, rfl, hpad, last, _, rfl, rfl, rfl⟩ := hclosing
    obtain ⟨c, hlast, hc⟩ := hfirm
    have hend : Writes ((pad ++ ([Piece.token (.symbol .rightCurly)
        (Kind.symbol .rightCurly).describe.toList] ++ [])).flatMap Piece.marks) ['\x7d'] := by
      rw [List.append_nil, List.flatMap_append]
      exact (@Slot.Resolves.writes .pad pad hpad rfl).append (writes_token _ _).single
    have hletters : (fields ++ [Slot.comma, .pad, .symbol .rightCurly]).flatMap Slot.letters =
        fields.flatMap Slot.letters ++ ['\x7d'] := by
      rw [List.flatMap_append]
      rfl
    rw [List.flatMap_append, List.flatMap_append, hletters]
    rcases hcomma with rfl | rfl
    · exact ⟨text ++ ['\x7d'], hwrites.append hend, htrimmed.append (.refl _)⟩
    · exact ⟨text ++ ([','] ++ ['\x7d']),
        hwrites.append ((writes_token _ [',']).single.append hend), htrimmed.close hlast hc⟩

end

/-! ## The parts of a spelling -/

section
variable {context : Context} {node : Node} {slots : List Slot} {body : List Spelled}

/-- Without comments nothing is put around a node. Counterpart of `Context.commented`. -/
theorem commented_eq (hcontext : context.attachments = []) :
    context.commented node slots = slots := by
  simp [Context.commented, Context.placed, owned_eq_nil hcontext]

/-- Without comments nothing stands inside a node. Counterpart of `Context.danglingSlots`. -/
theorem danglingSlots_eq (hcontext : context.attachments = []) :
    context.danglingSlots node = [] := by
  simp [Context.danglingSlots, danglingComments_eq hcontext]

/-- Empty parentheses are neat. Counterpart of `Context.emptyParensSlots`. -/
theorem neat_emptyParens (hcontext : context.attachments = []) :
    Neat (context.emptyParensSlots node) := by
  rw [Context.emptyParensSlots, danglingComments_eq hcontext]
  exact .cons rfl (.cons rfl .nil)

/-- A line break for a blank line is neat, if there is one. Counterpart of `Slot.hard`. -/
theorem neat_hard_if (blank : Bool) : Neat (if blank then [Slot.hard] else []) := by
  cases blank with
  | true => exact .cons rfl .nil
  | false => exact .nil

/-- Statements stay neat with the semicolons between them. Counterpart of
`Context.separatedSlots`. -/
theorem neat_separated (h : ∀ statement ∈ body, Neat statement.slots) :
    ∀ list ∈ context.separatedSlots body, Neat list := by
  fun_induction Context.separatedSlots context body with
  | case1 => nofun
  | case2 last => simpa using h last (by simp)
  | case3 statement next rest ih =>
    intro list hlist
    rcases List.mem_cons.1 hlist with rfl | hlist
    · refine .append (h statement (by simp)) (.append ?_ (neat_hard_if _))
      split
      · exact .cons rfl .nil
      · exact .nil
    · exact ih (fun other hother => h other (List.mem_cons_of_mem _ hother)) list hlist

/-- Statements one below the other are neat. Counterpart of `Context.statementSlots`. -/
theorem neat_statements (h : ∀ statement ∈ body, Neat statement.slots) :
    Neat (context.statementSlots body) := by
  refine .intercalate (.cons rfl .nil) (neat_separated ?_)
  intro statement hstatement
  exact h statement (List.mem_of_mem_filter hstatement)

/-- A body is neat. Counterpart of `Context.bodySlots`. -/
theorem neat_body (hcontext : context.attachments = [])
    (h : ∀ statement ∈ body, Neat statement.slots) :
    Neat (context.bodySlots node body) := by
  rw [Context.bodySlots, danglingSlots_eq hcontext, List.nil_append]
  split
  · exact .nil
  · exact .cons rfl (neat_statements h)

/-- A body is neat with what follows it on the next line. Counterpart of `Context.bodySlots`. -/
theorem neat_bodyThen (hcontext : context.attachments = [])
    (h : ∀ statement ∈ body, Neat statement.slots) (hslots : Neat slots) :
    Neat (context.bodySlots node body ++
      (if context.hasBody node body then .hard else .space) :: slots) := by
  refine .append (neat_body hcontext h) (.cons ?_ hslots)
  split <;> rfl

/-- A body with its closing keyword is neat. Counterpart of `Context.bodyEndSlots`. -/
theorem neat_bodyEnd (hcontext : context.attachments = [])
    (h : ∀ statement ∈ body, Neat statement.slots) : Neat (context.bodyEndSlots node body) :=
  neat_bodyThen hcontext h (.cons rfl .nil)

/-- Arguments with commas are neat: no comma stands before the parenthesis. Counterpart of
`Context.argumentSlots`. -/
theorem neat_arguments (h : ∀ argument ∈ body, Neat argument.slots) :
    Neat (context.argumentSlots body) := by
  fun_induction Context.argumentSlots context body with
  | case1 => exact .nil
  | case2 last => exact h last (by simp)
  | case3 argument next rest ih =>
    have hrest := ih fun other hother => h other (List.mem_cons_of_mem _ hother)
    refine .append (h argument (by simp)) (.cons rfl (.append ?_ hrest))
    split
    · exact .cons rfl (.cons rfl .nil)
    · exact .cons rfl .nil

/-- A whole file is neat. Counterpart of `Context.chunkSlots`. -/
theorem neat_chunk (hcontext : context.attachments = [])
    (h : ∀ statement ∈ body, Neat statement.slots) :
    Neat (context.chunkSlots node body) := by
  rw [Context.chunkSlots, danglingComments_eq hcontext]
  refine .append ?_ (.append ?_ .nil)
  · unfold Context.shebangSlots
    split
    · exact .append (.cons rfl (.cons rfl .nil)) (neat_hard_if _)
    · exact .nil
  · split
    · exact .nil
    · exact .append (neat_statements h) (.cons rfl .nil)

/-- Lists with commas between them are neat if each of them is. Counterpart of `commaSlots`. -/
theorem neat_commas {lists : List (List Slot)} (h : ∀ list ∈ lists, Neat list) :
    Neat (commaSlots lists) :=
  .intercalate (.cons rfl (.cons rfl .nil)) h

/-- A key between brackets is neat. Counterpart of `bracketSlots`. -/
theorem neat_brackets (key : Node) (h : Neat slots) : Neat (bracketSlots key slots) := by
  unfold bracketSlots
  split
  · exact .cons rfl (.cons rfl (.append h (.cons rfl (.cons rfl .nil))))
  · exact .cons rfl (.append h (.cons rfl .nil))

/-- The keyword of a branch is neat. Counterpart of `clauseKeyword`. -/
theorem neat_clauseKeyword (kind : ClauseKind) : Neat (clauseKeyword kind) := by
  cases kind with
  | ifClause | elseifClause => exact .cons rfl (.cons rfl .nil)
  | elseClause => exact .cons rfl .nil

end

/-- The core of a node is neat if its parts are, and if the fields of a table are firm. Counterpart
of `coreSlots`. -/
theorem neat_coreSlots {context : Context} {place : Place} {node : Node}
    {spell : Place → Node → List Slot} (hcontext : context.attachments = [])
    (h : ∀ place, ∀ child ∈ node.children, Neat (spell place child))
    (hfirm : ∀ fields, node.shape = .table fields → ∀ place, ∀ field ∈ fields,
      Firm (spell place field)) :
    Neat (coreSlots context place node spell) := by
  obtain ⟨number, shape, span, inParens⟩ := node
  have hone : ∀ place, ∀ child ∈ shape.children, Neat (spell place child) := h
  have heach : ∀ (nodes : List Node) (place : Place), nodes ⊆ shape.children →
      Neat (commaSlots (nodes.map (spell place))) := by
    intro nodes place hsub
    refine neat_commas fun list hlist => ?_
    obtain ⟨child, hchild, rfl⟩ := List.mem_map.1 hlist
    exact h place child (hsub hchild)
  have hindexed : ∀ (nodes : List Node) (place : Nat → Place), nodes ⊆ shape.children →
      Neat (commaSlots (nodes.mapIdx fun index child => spell (place index) child)) := by
    intro nodes place hsub
    refine neat_commas fun list hlist => ?_
    obtain ⟨index, hindex, rfl⟩ := List.mem_mapIdx.1 hlist
    exact h _ _ (hsub (List.getElem_mem hindex))
  have hblock : ∀ nodes : List Node, nodes ⊆ shape.children →
      ∀ statement ∈ nodes.map fun child => (⟨child, spell {} child⟩ : Spelled),
        Neat statement.slots := by
    intro nodes hsub statement hstatement
    obtain ⟨child, hchild, rfl⟩ := List.mem_map.1 hstatement
    exact h {} child (hsub hchild)
  cases shape with
  | chunk body => exact neat_chunk hcontext (hblock body fun _ h => h)
  | localVariables names initial =>
    have hnames := heach names {} (by simp [Shape.children])
    have hinitial := hindexed initial (Place.value initial.length) (by simp [Shape.children])
    refine .cons rfl (.cons rfl (.append hnames ?_))
    split
    · exact .nil
    · exact .cons rfl (.cons rfl (.cons rfl hinitial))
  | assignment targets assigned =>
    have htargets := heach targets {} (by simp [Shape.children])
    have hassigned := hindexed assigned (Place.value assigned.length) (by simp [Shape.children])
    exact .append htargets (.cons rfl (.cons rfl (.cons rfl hassigned)))
  | callStatement expression => exact hone {} expression (by simp [Shape.children])
  | function isLocal name parameters body =>
    have hparameters := heach parameters {} fun _ h => by simp [Shape.children, h]
    have hbody := hblock body fun _ h => by simp [Shape.children, h]
    refine .append ?_ (.cons rfl (.append ?_ (.append ?_ (neat_bodyEnd hcontext hbody))))
    · split
      · exact .cons rfl (.cons rfl .nil)
      · exact .nil
    · cases name with
      | none => exact .nil
      | some name => exact .cons rfl (hone {} name (by simp [Shape.children]))
    · split
      · exact neat_emptyParens hcontext
      · exact .cons rfl (.cons rfl (.append hparameters (.cons rfl (.cons rfl .nil))))
  | conditional clauses =>
    refine .append (.intercalate (.cons rfl .nil) fun list hlist => ?_) (.cons ?_ (.cons rfl .nil))
    · obtain ⟨clause, hclause, rfl⟩ := List.mem_map.1 hlist
      exact hone {} clause hclause
    · split <;> rfl
  | clause kind condition body =>
    have hbody := hblock body fun _ h => by simp [Shape.children, h]
    refine .append (neat_clauseKeyword kind) (.append ?_ (neat_body hcontext hbody))
    cases condition with
    | none => exact .nil
    | some condition =>
      exact .append (hone {} condition (by simp [Shape.children])) (.cons rfl (.cons rfl .nil))
  | whileLoop condition body =>
    have hcondition := hone {} condition (by simp [Shape.children])
    have hbody := hblock body fun _ h => by simp [Shape.children, h]
    exact .cons rfl (.cons rfl (.append hcondition
      (.cons rfl (.cons rfl (neat_bodyEnd hcontext hbody)))))
  | doBlock body => exact .cons rfl (neat_bodyEnd hcontext (hblock body fun _ h => h))
  | repeatLoop body condition =>
    have hcondition := hone {} condition (by simp [Shape.children])
    have hbody := hblock body fun _ h => by simp [Shape.children, h]
    exact .cons rfl (neat_bodyThen hcontext hbody (.cons rfl (.cons rfl hcondition)))
  | numericFor counter first last step body =>
    have hcounter := hone {} counter (by simp [Shape.children])
    have hfirst := hone {} first (by simp [Shape.children])
    have hlast := hone {} last (by simp [Shape.children])
    have hbody := hblock body fun _ h => by simp [Shape.children, h]
    refine .cons rfl (.cons rfl (.append hcounter (.cons rfl (.cons rfl (.cons rfl (.append hfirst
      (.cons rfl (.cons rfl (.append hlast (.append ?_
        (.cons rfl (.cons rfl (neat_bodyEnd hcontext hbody)))))))))))))
    cases step with
    | none => exact .nil
    | some step => exact .cons rfl (.cons rfl (hone {} step (by simp [Shape.children])))
  | genericFor names iterators body =>
    have hnames := heach names {} fun _ h => by simp [Shape.children, h]
    have hiterators := hindexed iterators (Place.argument iterators.length)
      fun _ h => by simp [Shape.children, h]
    have hbody := hblock body fun _ h => by simp [Shape.children, h]
    exact .cons rfl (.cons rfl (.append hnames (.cons rfl (.cons rfl (.cons rfl (.append hiterators
      (.cons rfl (.cons rfl (neat_bodyEnd hcontext hbody)))))))))
  | returnStatement returned =>
    have hreturned := hindexed returned (Place.value returned.length) (by simp [Shape.children])
    refine .cons rfl ?_
    split
    · exact .nil
    · exact .cons rfl hreturned
  | breakStatement => exact .cons rfl .nil
  | gotoStatement label => exact .cons rfl (.cons rfl (hone {} label (by simp [Shape.children])))
  | labelStatement label =>
    exact .cons rfl (.append (hone {} label (by simp [Shape.children])) (.cons rfl .nil))
  | identifier name => exact .cons rfl .nil
  | literal kind text => cases kind <;> exact .cons rfl .nil
  | table fields =>
    have hfields := hindexed fields (Place.argument fields.length) (by simp [Shape.children])
    simp only [coreSlots, Node.shape, danglingSlots_eq hcontext, danglingComments_eq hcontext]
    split
    · exact .cons rfl (.cons rfl (.cons rfl .nil))
    · rename_i hempty
      refine .cons rfl (.cons rfl (.table hfields (.intercalate ?_ fun list hlist => ?_)))
      · simpa using hempty
      · obtain ⟨index, hindex, rfl⟩ := List.mem_mapIdx.1 hlist
        exact hfirm fields rfl _ _ (List.getElem_mem hindex)
  | keyField key value =>
    have hvalue := hone Place.field value (by simp [Shape.children])
    refine .append ?_ (.cons rfl (.cons rfl (.cons rfl hvalue)))
    cases keyName? key with
    | none => exact neat_brackets key (hone Place.field key (by simp [Shape.children]))
    | some name =>
      dsimp only
      rw [commented_eq hcontext]
      exact .cons rfl .nil
  | nameField name value =>
    have hname := hone {} name (by simp [Shape.children])
    have hvalue := hone Place.field value (by simp [Shape.children])
    exact .append hname (.cons rfl (.cons rfl (.cons rfl hvalue)))
  | valueField value => exact hone _ value (by simp [Shape.children])
  | binary op left right =>
    have hleft := hone (Place.left op) left (by simp [Shape.children])
    have hright := hone (Place.right op) right (by simp [Shape.children])
    exact .append hleft (.cons rfl (.cons rfl (.cons rfl hright)))
  | unary op operand =>
    refine .cons rfl (.append ?_ (hone {} operand (by simp [Shape.children])))
    split
    · exact .cons rfl .nil
    · exact .nil
  | member indexer base name =>
    have hbase := hone Place.base base (by simp [Shape.children])
    have hname := hone {} name (by simp [Shape.children])
    refine .append hbase (.cons ?_ hname)
    cases indexer <;> rfl
  | index base key =>
    exact .append (hone Place.base base (by simp [Shape.children]))
      (neat_brackets key (hone {} key (by simp [Shape.children])))
  | call base arguments =>
    refine .append (hone Place.base base (by simp [Shape.children])) ?_
    split
    · exact neat_emptyParens hcontext
    · refine .cons rfl (.cons rfl (.append (neat_arguments fun argument hargument => ?_)
        (.cons rfl (.cons rfl .nil))))
      obtain ⟨index, hindex, rfl⟩ := List.mem_mapIdx.1 hargument
      exact hone _ _ (by simp [Shape.children])
  | tableCall base argument | stringCall base argument =>
    exact .append (hone Place.base base (by simp [Shape.children]))
      (hone {} argument (by simp [Shape.children]))
  | invalid => exact .nil

/-- The spelling of a node without comments is neat if the fields of all tables in it are firm.
Counterpart of `spell`. -/
theorem neat_spell {context : Context} (hcontext : context.attachments = []) {node : Node}
    (place : Place)
    (hfirm : ∀ (part : Node) (fields : List Node), part.Part node → part.shape = .table fields →
      ∀ place, ∀ field ∈ fields, Firm (spell context place field)) :
    Neat (spell context place node) := by
  induction hn : node.size using Nat.strongRecOn generalizing node place with
  | _ n ih =>
  have hcore : Neat (coreSlots context place node (spell context)) := by
    refine neat_coreSlots hcontext (fun place child hchild => ?_) fun fields =>
      hfirm node fields (.self node)
    refine ih child.size (hn ▸ Node.size_lt_of_mem_children hchild) place
      (fun part fields hpart => ?_) rfl
    exact hfirm part fields (.child hchild hpart)
  rw [spell_eq, commented_eq hcontext]
  split
  · exact .cons rfl (.cons rfl (.append hcore (.cons rfl (.cons rfl .nil))))
  · exact hcore

end LuaFormatter
