import LuaFormatter.Proofs.Format.Uncommented
import LuaFormatter.Proofs.Layout.Alongside
import LuaFormatter.Proofs.Layout.Cut

/-!
# The body of a hugged function

A function that is the only argument of a call stays on the line of the call if its first line fits,
and is then printed flat: its body is a block in flat content. `format_hugged` says that the body
has the same lines as it has between `do` and `end`, if they are steady. `format_hugged_wide` is a
body for which this fails: the first group of its line is measured and fits, the second one is not
measured and goes beyond the width.

The sources are compared by the skeletons of their statements, with which spaces, line breaks and
numbers of nodes are left out.
-/

namespace LuaFormatter

open Layout

/-- A node of a skeleton, without parentheses around it. -/
def Node.ofShape (shape : Shape Node) : Node :=
  ⟨0, shape, skeletonSpan false, false⟩

/-- The skeletons of the statements of a program. -/
def Program.skeletons (program : Program) : List Node :=
  Node.listSkeleton (Gap.isNextLineBlank (utf8 program.source)) program.root.children

/-- The skeletons of the statements of a program, for statements that have been found by running the
parser. Counterpart of `Program.skeletons`. -/
theorem skeletons_of_children {source : List Char} {nodes : List Node}
    (h : (parse source).root.children = nodes) :
    (parse source).skeletons = Node.listSkeleton (Gap.isNextLineBlank (utf8 source)) nodes := by
  rw [Program.skeletons, h]
  rfl

/-- A valid source without comments and a shebang, with the skeletons of its statements. -/
structure BareSource (source : List Char) (statements : List Node) : Prop where
  isValid : (parse source).isValid = true
  comments : (parse source).comments = []
  shebang : (parse source).shebang = none
  skeletons : (parse source).skeletons = statements

/-- The document of the statements of a block. -/
def blockDoc (style : Style) (body : List Node) : Doc :=
  (Context.bare style).statements (body.map fun child =>
    ⟨child, compile (Context.bare style) {} child⟩)

section
variable {style : Style} {body : List Node}

/-- A node of a skeleton is printed without comments and parentheses. Counterpart of `compile`. -/
theorem compile_ofShape (place : Place) (shape : Shape Node) :
    compile (Context.bare style) place (.ofShape shape) =
      coreDoc (Context.bare style) place (.ofShape shape) := by
  rw [compile_eq, withComments_eq rfl]
  rfl

/-- A body with statements is printed on lines of its own before its closing keyword. Counterpart of
`Context.bodyAndEnd`. -/
theorem bodyAndEnd_bare (hbody : body ≠ []) (node : Node) :
    (Context.bare style).bodyAndEnd node
      (body.map fun child => ⟨child, compile (Context.bare style) {} child⟩) =
      .concat [.indent (.concat [.hardLine, blockDoc style body]), .hardLine, .text "end"] := by
  cases body with
  | nil => exact absurd rfl hbody
  | cons first rest =>
    rw [Context.bodyAndEnd, Context.body?, danglingBlock?_eq rfl]
    rfl

/-- The document of a block with statements. Counterpart of `compile`. -/
theorem compile_doBlock (hbody : body ≠ []) (place : Place) :
    compile (Context.bare style) place (.ofShape (.doBlock body)) =
      .concat [.text "do", .concat [.indent (.concat [.hardLine, blockDoc style body]), .hardLine,
        .text "end"]] := by
  rw [compile_ofShape, coreDoc]
  exact congrArg (fun rest => Doc.cat [.text "do", rest]) (bodyAndEnd_bare hbody _)

/-- The document of a function without a name and parameters. -/
def functionDoc (style : Style) (body : List Node) : Doc :=
  .concat [.text "function", .empty, .text "()",
    .concat [.indent (.concat [.hardLine, blockDoc style body]), .hardLine, .text "end"]]

/-- The document of a function without a name and parameters. Counterpart of `compile`. -/
theorem compile_function (hbody : body ≠ []) (place : Place) :
    compile (Context.bare style) place (.ofShape (.function false none [] body)) =
      functionDoc style body := by
  let node : Node := .ofShape (.function false none [] body)
  have hparens : (Context.bare style).emptyParens node = .text "()" := emptyParens_eq rfl node
  rw [compile_ofShape]
  show Doc.cat [.text "function", .empty, (Context.bare style).emptyParens node,
      (Context.bare style).bodyAndEnd node
    (body.map fun child => ⟨child, compile (Context.bare style) {} child⟩)] = functionDoc style body
  rw [hparens, bodyAndEnd_bare hbody]
  rfl

/-- The document of a call of a name with a function for its only argument. Counterpart of
`compile`. -/
theorem compile_call (hbody : body ≠ []) (name : String) (place : Place) :
    compile (Context.bare style) place
      (.ofShape (.call (.ofShape (.identifier name)) [.ofShape (.function false none [] body)])) =
      .concat [.text name,
        huggedArguments false [functionDoc style body] [] [] (functionDoc style body) .last] := by
  have hname : compile (Context.bare style) Place.base (.ofShape (.identifier name)) = .text name :=
    compile_ofShape ..
  rw [compile_ofShape, coreDoc]
  show Doc.cat [_, (Context.bare style).arguments _ [{ node := _, doc := _, hugged := some _ }]] = _
  rw [hname, compile_function hbody, compile_function hbody]
  rfl

/-- A function that is the only argument of a call is printed flat if its first line fits.
Counterpart of `Context.arguments`. -/
theorem inksFrom_huggedArguments {column : Nat}
    (hwidth : column + "(function()".length ≤ style.printWidth) (remeasure : Bool)
    (rest : List Command) :
    inksFrom style (⟨0, .broken,
        huggedArguments false [functionDoc style body] [] [] (functionDoc style body) .last⟩ ::
      rest) column remeasure =
      Ink.ofText false "(function()".toList ++ .newline 1 ::
        inksFrom style (⟨1, .flat, blockDoc style body⟩ :: ⟨0, .flat, .hardLine⟩ ::
          ⟨0, .flat, .text "end"⟩ ::
          ⟨0, .flat, .softLine⟩ :: ⟨0, .flat, .text ")"⟩ :: rest) (1 * style.indentWidth) true := by
  let form : Doc :=
    .concat [.ifBreak (.indent (.concat [.text "(", .softLine, .concat [functionDoc style body]]))
    (.concat [.text "(", .concat [functionDoc style body]]), .softLine, .text ")"]
  have hforms : ∃ expanded broken,
      huggedArguments false [functionDoc style body] [] [] (functionDoc style body) .last =
        .concat [.breakParent, .alternatives false [form, expanded, broken]] := ⟨_, _, rfl⟩
  obtain ⟨expanded, broken, hforms⟩ := hforms
  have hfits : fits ((style.printWidth : Int) - column) (⟨0, .flat, form⟩ :: rest) = true := by
    have hline : fits ((style.printWidth : Int) - column) (⟨0, .flat, form⟩ :: rest) =
        decide
          ((0 : Int) ≤
            style.printWidth - column - "(".length - "function".length - "()".length) := by
      simp [form, functionDoc, commandsOf, Mode.pick, fits_lineBreak]
    have hlength : column + 11 ≤ style.printWidth := hwidth
    rw [hline, decide_eq_true_eq]
    change (0 : Int) ≤ style.printWidth - column - (1 : Nat) - (8 : Nat) - (2 : Nat)
    omega
  rw [hforms, inksFrom_concat]
  simp only [commandsOf, List.map_cons, List.map_nil, List.cons_append, List.nil_append,
    inksFrom_breakParent]
  rw [inksFrom_alternatives _ _ _ _ _ _ _ rfl rfl]
  simp only [List.find?_cons, hfits]
  simp [form, functionDoc, commandsOf, Mode.pick, Ink.ofText]

/-- A file of one statement prints the statement and ends the line. Counterpart of `skeletonDoc`. -/
theorem traceOf_skeletonDoc {statement : Node} (h : statement.isUnreadStatement = false) :
    traceOf style (skeletonDoc style none [statement]) =
      inksFrom style [⟨0, .broken, compile (Context.bare style) {} statement⟩,
        ⟨0, .broken, .hardLine⟩] 0 false := by
  have hdoc : skeletonDoc style none [statement] =
      .concat [.concat [compile (Context.bare style) {} statement], .hardLine] := by
    simp [skeletonDoc, Context.statements, h, Context.separated, Doc.join]
  rw [hdoc, traceOf_eq_inksFrom, inksFrom_concat]
  exact inksFrom_concat ..

/-- The inks of a block: its statements stand in broken mode between two lines. Counterpart of
`traceOf`. -/
theorem traceOf_doBlock (hbody : body ≠ []) :
    traceOf style (skeletonDoc style none [.ofShape (.doBlock body)]) =
      Ink.ofText false "do".toList ++ .newline 1 ::
        inksFrom style [⟨1, .broken, blockDoc style body⟩, ⟨0, .broken, .hardLine⟩,
          ⟨0, .broken, .text "end"⟩, ⟨0, .broken, .hardLine⟩] (1 * style.indentWidth) false := by
  have hflag : (Mode.broken == Mode.flat) = false := rfl
  rw [traceOf_skeletonDoc rfl, compile_doBlock hbody]
  simp [commandsOf, hflag]

/-- The inks of a call with a hugged function: its statements stand in flat mode between two lines.
Counterpart of `traceOf`. -/
theorem traceOf_callStatement (hbody : body ≠ []) {name : String}
    (hwidth : name.length + "(function()".length ≤ style.printWidth) :
    traceOf style (skeletonDoc style none [.ofShape (.callStatement (.ofShape
      (.call (.ofShape (.identifier name)) [.ofShape (.function false none [] body)])))]) =
      Ink.ofText false (name.toList ++ "(function()".toList) ++ .newline 1 ::
        inksFrom style [⟨1, .flat, blockDoc style body⟩, ⟨0, .flat, .hardLine⟩,
          ⟨0, .flat, .text "end"⟩, ⟨0, .flat, .softLine⟩, ⟨0, .flat, .text ")"⟩,
          ⟨0, .broken, .hardLine⟩] (1 * style.indentWidth) true := by
  have hcall : compile (Context.bare style) {} (.ofShape (.callStatement (.ofShape
      (.call (.ofShape (.identifier name)) [.ofShape (.function false none [] body)])))) =
      .concat [.text name,
        huggedArguments false [functionDoc style body] [] [] (functionDoc style body) .last] :=
    (compile_ofShape ..).trans (compile_call hbody name {})
  rw [traceOf_skeletonDoc rfl, hcall, inksFrom_concat, commandsOf, List.map_cons, List.map_cons,
    List.map_nil, List.cons_append, List.cons_append, List.nil_append, inksFrom_text,
    inksFrom_huggedArguments (by rwa [Nat.zero_add])]
  simp [Ink.ofText]

end

/-! ## The text of a block -/

namespace Layout

/-- The lines of inks that start a line, without blanks at the end. -/
def blockLines (style : Style) (inks : List Ink) : List Char :=
  ((inks.foldl (Ink.put style) (style.indentation 1)).dropWhile fun c =>
    c == ' ' || c == '\t').reverse

/-- A text that does not end with a blank is kept as it is. Counterpart of `render`. -/
theorem render_text {style : Style} {text : List Char} (inks : List Ink)
    (h : ∀ c ∈ text.getLast?, (c == ' ' || c == '\t') = false) :
    render style (Ink.ofText false text ++ inks) = text ++ render style inks := by
  have htext : render style (Ink.ofText false text) = text := by
    rw [render, Ink.foldl_put_ofText, List.append_nil, List.reverse_reverse]
  rw [render_append (by rwa [htext]), htext]

/-- Each line ending ends with a line feed. Counterpart of `LineEnding.text`. -/
theorem getLast?_lineEnding (style : Style) : style.lineEnding.text.getLast? = some '\n' := by
  cases style.lineEnding <;> rfl

/-- Inks between line breaks are written as lines of their own. Counterpart of `render`. -/
theorem render_lines (style : Style) (inks : List Ink) :
    render style (.newline 1 :: (inks ++ [.newline 0])) =
      style.lineEnding.text ++ blockLines style inks ++ style.lineEnding.text := by
  have hfirst : Ink.put style [] (.newline 1) =
      style.indentation 1 ++ style.lineEnding.text.reverse :=
    congrArg (style.indentation 1 ++ ·) (List.append_nil _)
  have hsolid : ∀ c ∈ style.lineEnding.text.reverse.head?, (c == ' ' || c == '\t') = false := by
    rw [List.head?_reverse, getLast?_lineEnding]
    rintro _ ⟨⟩
    rfl
  simp only [render, List.foldl_cons, List.foldl_append, List.foldl_nil, hfirst]
  rw [foldl_put_append hsolid, put_append hsolid]
  simp [Ink.put, blockLines]

/-- Inks between two texts, on lines of their own. Counterpart of `render`. -/
theorem render_block {style : Style} {opener closer : List Char} (inks : List Ink)
    (hopener : ∀ c ∈ opener.getLast?, (c == ' ' || c == '\t') = false)
    (hcloser : ∀ c ∈ closer.getLast?, (c == ' ' || c == '\t') = false) :
    render style (Ink.ofText false opener ++ .newline 1 ::
      (inks ++ .newline 0 :: (Ink.ofText false closer ++ [.newline 0]))) =
      opener ++ style.lineEnding.text ++ blockLines style inks ++ style.lineEnding.text ++ closer ++
        style.lineEnding.text := by
  have hlines : ∀ c ∈ (render style (.newline 1 :: (inks ++ [.newline 0]))).getLast?,
      (c == ' ' || c == '\t') = false := by
    rw [render_lines, List.getLast?_append, getLast?_lineEnding]
    rintro _ ⟨⟩
    rfl
  have hend : render style [.newline 0] = style.lineEnding.text := by
    simp [render, Ink.put]
  rw [render_text _ hopener, List.append_cons inks, ← List.cons_append, render_append hlines,
    render_lines, render_text _ hcloser, hend]
  simp

end Layout

section
variable {style : Style} {body : List Node} {name : String}

/-- The statements of a block and those of a hugged function are laid out as the same lines, if they
are steady. Counterpart of `alongside_of_isSteady` for whole files. -/
theorem exists_lines_hugged (hbody : body ≠ [])
    (hwidth : name.length + "(function()".length ≤ style.printWidth)
    (hsteady : (blockDoc style body).isSteady style 1 = true) :
    ∃ lines,
      (skeletonDoc style none [.ofShape (.doBlock body)]).layout style =
        "do".toList ++ style.lineEnding.text ++ lines ++ style.lineEnding.text ++ "end".toList ++
          style.lineEnding.text ∧
      (skeletonDoc style none [.ofShape (.callStatement (.ofShape
        (.call (.ofShape (.identifier name))
          [.ofShape (.function false none [] body)])))]).layout style =
        (name.toList ++ "(function()".toList) ++ style.lineEnding.text ++ lines ++
          style.lineEnding.text ++ "end)".toList ++ style.lineEnding.text := by
  have hlines : ∀ (mode : Mode) (rest : List Command), StartsLine (⟨0, mode, .hardLine⟩ :: rest) :=
    fun mode rest width => fits_lineBreak width 0 mode rest (.inl rfl)
  obtain ⟨shared, column, measured, measured', hbroken, hflat⟩ :=
    alongside_of_isSteady (hlines .broken [⟨0, .broken, .text "end"⟩, ⟨0, .broken, .hardLine⟩])
      (hlines .flat [⟨0, .flat, .text "end"⟩, ⟨0, .flat, .softLine⟩, ⟨0, .flat, .text ")"⟩,
        ⟨0, .broken, .hardLine⟩]) hsteady false
  refine ⟨blockLines style shared, ?_, ?_⟩
  · rw [Doc.layout_eq_render, traceOf_doBlock hbody, hbroken]
    simp only [inksFrom_hardLine, inksFrom_text, inksFrom_nil]
    exact render_block shared (by simp) (by simp)
  · have hcloser : Ink.ofText false "end".toList ++ (Ink.ofText false ")".toList ++ [.newline 0]) =
        Ink.ofText false "end)".toList ++ [.newline 0] := rfl
    rw [Doc.layout_eq_render, traceOf_callStatement hbody hwidth, hflat]
    simp only [inksFrom_hardLine, inksFrom_text, inksFrom_flatSoftLine, inksFrom_nil, hcloser]
    exact render_block shared (by simp) (by simp)

/-- A source is printed as the skeletons of its statements say. Counterpart of
`toDoc_eq_skeletonDoc`. -/
theorem BareSource.format_eq {source : List Char} {statements : List Node}
    (h : BareSource source statements) :
    format source style = (skeletonDoc style none statements).layout style := by
  rw [format, Program.format, toDoc_eq_skeletonDoc h.isValid h.comments, Program.shebangLine,
    h.shebang]
  exact congrArg (fun nodes => (skeletonDoc style none nodes).layout style) h.skeletons

end

/-- A hugged function prints the lines of its body like a block does, if they are steady. For two
sources without comments, one of which is a block and the other a call with a function that has the
same statements, and a call whose first line fits, the same lines are printed between `do` and `end`
as between the first and the last line of the call. Counterpart of `format`. -/
theorem format_hugged {style : Style} {source hugged : List Char} {name : String} {body : List Node}
    (hvalid : (parse source).isValid = true) (hvalid' : (parse hugged).isValid = true)
    (hcomments : (parse source).comments = []) (hcomments' : (parse hugged).comments = [])
    (hshebang : (parse source).shebang = none) (hshebang' : (parse hugged).shebang = none)
    (hblock : (parse source).skeletons = [.ofShape (.doBlock body)])
    (hcall : (parse hugged).skeletons = [.ofShape (.callStatement (.ofShape
      (.call (.ofShape (.identifier name)) [.ofShape (.function false none [] body)])))])
    (hbody : body ≠ []) (hwidth : name.length + "(function()".length ≤ style.printWidth)
    (hsteady : (blockDoc style body).isSteady style 1 = true) :
    ∃ lines,
      format source style = "do".toList ++ style.lineEnding.text ++ lines ++
      style.lineEnding.text ++ "end".toList ++ style.lineEnding.text ∧
      format hugged style =
      (name.toList ++ "(function()".toList) ++ style.lineEnding.text ++ lines ++
        style.lineEnding.text ++ "end)".toList ++ style.lineEnding.text := by
  have hsource : BareSource source _ := ⟨hvalid, hcomments, hshebang, hblock⟩
  have hhugged : BareSource hugged _ := ⟨hvalid', hcomments', hshebang', hcall⟩
  rw [hsource.format_eq, hhugged.format_eq]
  exact exists_lines_hugged hbody hwidth hsteady

/-- A body that does not fit on one line, as an instance. -/
theorem format_hugged_narrow :
    let style : Style := { printWidth := 12 }
    let source := "do g(aaa, b) end".toList
    let hugged := "f(function()g(aaa, b)end)".toList
    ((parse source).isValid = true ∧ (parse hugged).isValid = true) ∧
      ∃ lines,
        format source style = "do".toList ++ style.lineEnding.text ++ lines ++
        style.lineEnding.text ++ "end".toList ++ style.lineEnding.text ∧
        format hugged style =
        ("f".toList ++ "(function()".toList) ++ style.lineEnding.text ++ lines ++
          style.lineEnding.text ++ "end)".toList ++ style.lineEnding.text := by
  let body : List Node := [.ofShape (.callStatement (.ofShape (.call (.ofShape (.identifier "g"))
    [.ofShape (.identifier "aaa"), .ofShape (.identifier "b")])))]
  have hsource : (parse "do g(aaa, b) end".toList).isValid = true ∧
      (parse "do g(aaa, b) end".toList).comments = [] ∧
      (parse "do g(aaa, b) end".toList).shebang = none := by decide +kernel
  have hhugged : (parse "f(function()g(aaa, b)end)".toList).isValid = true ∧
      (parse "f(function()g(aaa, b)end)".toList).comments = [] ∧
      (parse "f(function()g(aaa, b)end)".toList).shebang = none := by decide +kernel
  have hblock : (parse "do g(aaa, b) end".toList).skeletons = [.ofShape (.doBlock body)] := by
    have hroot : (parse "do g(aaa, b) end".toList).root.children =
        [⟨6, .doBlock [⟨5, .callStatement ⟨4, .call ⟨1, .identifier "g", ⟨3, 4⟩, false⟩
          [⟨2, .identifier "aaa", ⟨5, 8⟩, false⟩, ⟨3, .identifier "b", ⟨10, 11⟩, false⟩],
          ⟨3, 12⟩, false⟩, ⟨3, 12⟩, false⟩], ⟨0, 16⟩, false⟩] := by
      with_unfolding_all rfl
    have hline : Gap.isNextLineBlank (utf8 "do g(aaa, b) end".toList) 8 = false := by
      decide +kernel
    simp only [skeletons_of_children hroot, Node.listSkeleton, Node.skeleton, Node.shapeSkeleton,
      Node.span, hline, Bool.and_false, List.isEmpty_nil, Bool.not_true, Bool.false_and]
    rfl
  have hcall : (parse "f(function()g(aaa, b)end)".toList).skeletons =
      [.ofShape (.callStatement (.ofShape
      (.call (.ofShape (.identifier "f")) [.ofShape (.function false none [] body)])))] := by
    have hroot : (parse "f(function()g(aaa, b)end)".toList).root.children =
        [⟨9, .callStatement ⟨8, .call ⟨1, .identifier "f", ⟨0, 1⟩, false⟩
          [⟨7, .function false none [] [⟨6, .callStatement ⟨5, .call
            ⟨2, .identifier "g", ⟨12, 13⟩, false⟩ [⟨3, .identifier "aaa", ⟨14, 17⟩, false⟩,
              ⟨4, .identifier "b", ⟨19, 20⟩, false⟩], ⟨12, 21⟩, false⟩, ⟨12, 21⟩, false⟩],
            ⟨2, 24⟩, false⟩], ⟨0, 25⟩, false⟩, ⟨0, 25⟩, false⟩] := by
      with_unfolding_all rfl
    have hline : Gap.isNextLineBlank (utf8 "f(function()g(aaa, b)end)".toList) 17 = false := by
      decide +kernel
    simp only [skeletons_of_children hroot, Node.listSkeleton, Node.skeleton, Node.shapeSkeleton,
      Node.optionSkeleton, Node.span, hline, Bool.and_false, List.isEmpty_nil, Bool.not_true,
      Bool.false_and]
    rfl
  have hsteady : (blockDoc { printWidth := 12 } body).isSteady { printWidth := 12 } 1 = true := by
    decide +kernel
  exact ⟨⟨hsource.1, hhugged.1⟩,
      format_hugged hsource.1 hhugged.1 hsource.2.1 hhugged.2.1 hsource.2.2
    hhugged.2.2 hblock hcall (List.cons_ne_nil _ _) (by decide) hsteady⟩

/-- A line with two groups that does not fit, so that the block and the hugged function differ. -/
theorem format_hugged_wide :
    let style : Style := { printWidth := 12 }
    let source := "do local a = b + c end".toList
    let hugged := "f(function() local a = b + c end)".toList
    ((parse source).isValid = true ∧ (parse hugged).isValid = true ∧ (parse source).comments = [] ∧
        (parse hugged).comments = []) ∧
      ¬∃ lines, format source style = "do\n".toList ++ lines ++ "\nend\n".toList ∧
        format hugged style = "f(function()\n".toList ++ lines ++ "\nend)\n".toList := by
  have hblock : format "do local a = b + c end".toList { printWidth := 12 } =
      "do\n".toList ++ "\tlocal a =\n\t\tb +\n\t\tc".toList ++ "\nend\n".toList := by decide +kernel
  have hcall : format "f(function() local a = b + c end)".toList { printWidth := 12 } =
      "f(function()\n".toList ++ "\tlocal a = b + c".toList ++ "\nend)\n".toList := by
      decide +kernel
  refine ⟨by decide +kernel, ?_⟩
  rintro ⟨lines, hlines, hlines'⟩
  rw [hblock, List.append_assoc, List.append_assoc] at hlines
  rw [hcall, List.append_assoc, List.append_assoc] at hlines'
  have hsame := List.append_cancel_right (List.append_cancel_left hlines)
  have hsame' := List.append_cancel_right (List.append_cancel_left hlines')
  exact absurd (hsame.trans hsame'.symm) (by decide)

end LuaFormatter
