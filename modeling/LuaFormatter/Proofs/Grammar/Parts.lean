import LuaFormatter.Proofs.Comment.Owners

/-!
# The rules of parts

Every node of a valid program is read by some rule of the grammar (`derives_part`). For two kinds of
part the rule is known: the keys of indices and tables are expressions, and the statements of a body
are a block (`readsParts_of_part`).
-/

namespace LuaFormatter

/-- The key of an index or of a field. -/
def Shape.key? {α : Type} : Shape α → Option α
  | index _ key | keyField key _ => some key
  | _ => none

/-- Keys are read as expressions, and bodies as blocks. -/
structure Shape.ReadsParts (isApart : Bool) (shape : Shape Node) : Prop where
  key : ∀ key ∈ shape.key?, ∃ a b ts, Derives isApart .expression a b ts [key]
  body : ∀ body ∈ shape.body?, ∃ a b ts, Derives isApart .block a b ts body

/-- What a rule reads is read from its parts, at every node. Counterpart of `Shape.ReadsParts`. -/
theorem Derives.readsParts {isApart : Bool} {rule : Rule} {a b : Nat} {ts : List Token}
    {nodes : List Node} (h : Derives isApart rule a b ts nodes) :
    ∀ node ∈ nodes, node.shape.ReadsParts isApart := by
  induction h with
  | index _ _ _ _ hkey | keyField _ _ _ hkey =>
    intro node hmem
    cases List.mem_singleton.1 hmem
    refine ⟨?_, nofun⟩
    rintro _ ⟨⟩
    exact ⟨_, _, _, hkey⟩
  | function _ _ _ _ _ hbody | localFunction _ _ _ _ _ _ _ hbody | globalFunction _ _ _ _ _ _ hbody
  | whileLoop _ _ _ _ hbody | doBlock _ _ hbody | repeatLoop _ _ hbody
  | numericFor _ _ _ _ _ _ _ _ hbody | steppedFor _ _ _ _ _ _ _ _ _ _ hbody
  | genericFor _ _ _ _ _ _ hbody | clause _ _ _ hbody | elseClause _ hbody =>
    intro node hmem
    cases List.mem_singleton.1 hmem
    refine ⟨nofun, ?_⟩
    rintro _ ⟨⟩
    exact ⟨_, _, _, hbody⟩
  | parens _ _ _ ih =>
    intro node hmem
    rw [List.mem_singleton.1 hmem, Node.shape_parenthesise]
    exact ih _ (List.mem_singleton_self _)
  | lastExpression _ ih | someArguments _ ih | plain _ _ ih | lastField _ ih | nameDotted _ ih
  | lastClause _ ih | semicolon _ _ ih => exact ih
  | moreExpressions _ _ _ ih ihs | moreFields _ _ _ ih ihs | moreStatements _ _ _ ih ihs
  | moreClauses _ _ _ _ ih ihs =>
    intro node hmem
    rcases List.mem_cons.1 hmem with rfl | hmem
    · exact ih _ (List.mem_singleton_self _)
    · exact ihs node hmem
  | moreNames _ _ _ ih | moreParameters _ _ _ _ ih =>
    intro node hmem
    rcases List.mem_cons.1 hmem with rfl | hmem
    · exact ⟨nofun, nofun⟩
    · exact ih node hmem
  | noArguments | noParameters | noFields | emptyBlock => nofun
  | _ =>
    intro node hmem
    cases List.mem_singleton.1 hmem
    exact ⟨nofun, nofun⟩

/-- The keys and bodies of a valid program are read by their rules. Counterpart of
`Shape.ReadsParts`. -/
theorem readsParts_of_part {source : List Char} (h : (parse source).isValid = true) {part : Node}
    (hpart : part.Part (parse source).root) : part.shape.ReadsParts true := by
  rcases derives_part h hpart with rfl | ⟨_, _, _, _, _, -, -, -, hderives⟩
  · rw [root_parse]
    refine ⟨nofun, ?_⟩
    rintro _ ⟨⟩
    exact ⟨_, _, _, derives_of_isValid h⟩
  · simpa using hderives.readsParts _ (List.mem_singleton_self _)

end LuaFormatter
