import LuaFormatter.Proofs.Grammar.KeepStatement
import LuaFormatter.Proofs.Grammar.ReplayStatement

/-!
# Dropping parentheses is safe

The two things that parentheses are good for are not lost with those that are dropped: the words of
the tree that is written are read as this tree, and no call or `...` is left with all of its values
where the source cut them down to one.
-/

namespace LuaFormatter

/-- The words of the tree that is written are read as this tree, whatever their tokens' spans. And
an expression that gives any number of values keeps its parentheses where all of them would be used.
Counterpart of `Node.kept` and `needsParens`. -/
theorem kept_readsBack {source : List Char} (h : (parse source).isValid = true) :
    (∀ text tokens, tokens.map Token.content = ((parse source).root.kept {}).words →
      let run := Parser.chunk (.level (tokens.length + 1)) (Program.initialState text tokens)
      run.2.faults = [] ∧ run.2.rest = [] ∧
        SameForm ⟨0, .chunk run.1, ⟨0, byteLength text⟩, false⟩ ((parse source).root.kept {})) ∧
    ∀ node ∈ (parse source).root.preorder, ∀ written ∈ ((parse source).root.kept {}).preorder,
      written.number = node.number → node.shape.givesValues = true →
      node.inParens = true → written.inParens = false →
      ∀ parent ∈ (parse source).root.preorder, parent.shape.lastValue? ≠ some node := by
  constructor
  · intro text tokens htokens
    rw [root_parse, Node.kept_open, Node.words_open] at htokens
    obtain ⟨next, nodes, hderives, hforms⟩ :=
      (derives_of_isValid h).keeps (fun _ => {}) (.inl rfl) 0 1 tokens htokens
    have hrun := hderives.reads_chunk 0 (Program.initialState text tokens) (List.append_nil _).symm
      rfl rfl
    have hroot : SameShape (.chunk nodes) (Node.shapeKept {} (.chunk (chunkRun source).1)) :=
      congrArg Shape.chunk hforms
    dsimp only
    rw [hrun, root_parse, Node.kept_open]
    exact ⟨rfl, rfl, hroot.sameForm ..⟩
  · intro node _ written hwritten hnumber hvalues hparens hdropped parent hparent
    exact lastValue?_ne_of_dropped (Node.mem_preorder.1 hwritten) hnumber hvalues hparens hdropped
      (Node.mem_preorder.1 hparent)

/-- The first call is cut down to one value by its place, and loses its parentheses; the second
keeps them. -/
theorem kept_readsBack_calls :
    let source := "a = (f()), (f())".toList
    let other := "a = f(), (f())".toList
    let run := Parser.chunk (.level ((parse other).tokens.length + 1))
      (Program.initialState other (parse other).tokens)
    (parse source).isValid = true ∧
      (parse other).tokens.map Token.content = ((parse source).root.kept {}).words ∧
      SameForm ⟨0, .chunk run.1, ⟨0, byteLength other⟩, false⟩ ((parse source).root.kept {}) ∧
      ∃ node ∈ (parse source).root.preorder, ∃ written ∈ ((parse source).root.kept {}).preorder,
        written.number = node.number ∧ node.shape.givesValues = true ∧ node.inParens = true ∧
        written.inParens = false ∧
        ∀ parent ∈ (parse source).root.preorder, parent.shape.lastValue? ≠ some node := by
  intro source other run
  have hvalid : (parse source).isValid = true := by decide +kernel
  have hwords : (parse other).tokens.map Token.content = ((parse source).root.kept {}).words := by
    decide +kernel
  have hdropped : ∃ node ∈ (parse source).root.preorder,
      ∃ written ∈ ((parse source).root.kept {}).preorder, written.number = node.number ∧
        node.shape.givesValues = true ∧ node.inParens = true ∧ written.inParens = false := by
    decide +kernel
  obtain ⟨hreads, hvalues⟩ := kept_readsBack hvalid
  obtain ⟨node, hnode, written, hwritten, hnumber, hgives, hparens, hopen⟩ := hdropped
  exact ⟨hvalid, hwords, (hreads other _ hwords).2.2, node, hnode, written, hwritten,
    hnumber, hgives,
    hparens, hopen, hvalues node hnode written hwritten hnumber hgives hparens hopen⟩

/-- The value of the last field without a key in a table, whatever fields come after it. -/
def Shape.lastPositional? : Shape Node → Option Node
  | table fields =>
    (fields.filterMap fun field =>
      match field.shape with
      | .valueField value => some value
      | _ => none).getLast?
  | _ => none

/-- Before a field with a key, a call gives one value with or without parentheses: those of the last
value without a key are dropped. -/
theorem lastPositional_dropped :
    let source := "t = {(f()), x = 1}".toList
    (parse source).isValid = true ∧
      ∃ table ∈ (parse source).root.preorder, ∃ node ∈ table.shape.lastPositional?,
        node.shape.givesValues = true ∧ node.inParens = true ∧
          ∃ written ∈ ((parse source).root.kept {}).preorder,
            written.number = node.number ∧ written.inParens = false := by
  decide +kernel

end LuaFormatter
