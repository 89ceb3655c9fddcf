import LuaFormatter.Proofs.Comment.Owners
import LuaFormatter.Proofs.Format.Skeleton

/-!
# Programs without comments

The document of a program without comments depends on its shebang, on the skeletons of its
statements and on the wording of the style (`toDoc_eq_skeletonDoc`). So it is the same for sources
that differ only in places, and for styles that differ only in widths.
-/

namespace LuaFormatter

/-- A program without comments attaches none. Counterpart of `attachments`. -/
theorem attachments_eq_nil {program : Program} (h : program.comments = []) :
    attachments program = [] := by
  have hmap := map_comment_attachments program
  rw [h] at hmap
  exact List.map_eq_nil_iff.1 hmap

/-- Only the root of a valid program is a whole file. Counterpart of `Node.IsChunkless`. -/
theorem isChunkless_of_isValid {source : List Char} (h : (parse source).isValid = true) :
    ∀ statement ∈ (chunkRun source).1, statement.IsChunkless := by
  intro statement hmem part hpart
  have hyields : Yields true 0 1 (parse source).nodeCount (parse source).tokens
      (chunkRun source).1 := (derives_of_isValid h).yields
  obtain ⟨rule, first, front, us, back, -, -, -, -, -, hderives, -⟩ := hyields.part hmem hpart
  have hchunk := (hderives.isRead part.bare (by simp)).2
  unfold Shape.isChunk
  split
  · rename_i body hshape
    exact absurd (by simpa using hshape) (hchunk body)
  · rfl

/-- The shebang as it is printed, and whether a blank line follows it. -/
def Program.shebangLine (program : Program) : Option (List Char × Bool) :=
  program.shebang.map fun token =>
    (trimEnd token.lexeme,
      !program.root.children.isEmpty && Gap.isNextLineBlank (utf8 program.source) token.stop)

/-- The document of a whole file from its shebang and the skeletons of its statements. -/
def skeletonDoc (style : Style) (shebang : Option (List Char × Bool)) (body : List Node) : Doc :=
  let first : List Doc :=
    match shebang with
    | some (text, isBlankAfter) =>
      [.note (String.ofList text), .hardLine] ++ if isBlankAfter then [.hardLine] else []
    | none => []
  let statements := body.map fun child => ⟨child, compile (Context.bare style) {} child⟩
  .concat (first ++
    if body.isEmpty then [] else [(Context.bare style).statements statements, .hardLine])

/-- The document of a program without comments is that of its skeleton. Counterpart of
`Program.toDoc`. -/
theorem toDoc_eq_skeletonDoc {source : List Char} (h : (parse source).isValid = true)
    (hcomments : (parse source).comments = []) (style : Style) :
    (parse source).toDoc style =
      skeletonDoc style (parse source).shebangLine
        (Node.listSkeleton (Gap.isNextLineBlank (utf8 source)) (chunkRun source).1) := by
  have hcontext : (Context.ofProgram (parse source) style).attachments = [] :=
    attachments_eq_nil hcomments
  have hbody := statements_skeleton (@alike_each (Context.ofProgram (parse source) style) _
    (fun statement hmem => compile_skeleton hcontext (isChunkless_of_isValid h statement hmem)) {})
  have hempty : ∀ nodes : List Node, (nodes.map fun child : Node =>
      (⟨child, compile (.ofProgram (parse source) style) {} child⟩ : Printed)).isEmpty =
        nodes.isEmpty := fun nodes => by cases nodes <;> rfl
  rw [Program.toDoc, compile_eq, withComments_eq hcontext]
  show (Context.ofProgram (parse source) style).chunk (parse source).root
    ((chunkRun source).1.map fun child =>
      ⟨child, compile (.ofProgram (parse source) style) {} child⟩) = _
  have hshebang : (Context.ofProgram (parse source) style).shebang = (parse source).shebang := rfl
  unfold Context.chunk Context.danglingLines? skeletonDoc Program.shebangLine
  dsimp only
  rw [hempty, ← hbody, danglingComments_eq hcontext, Node.isEmpty_listSkeleton, List.append_nil,
    hshebang]
  cases (parse source).shebang <;> rfl

end LuaFormatter
