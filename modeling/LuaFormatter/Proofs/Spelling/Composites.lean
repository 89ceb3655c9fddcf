import LuaFormatter.Proofs.Spelling.Parts

/-!
# Documents of tables, arguments and chains

The forms of a table, of a list of arguments and of a chain of operators differ in their line breaks
and in a comma at most, so each of them implements the same slots. A hugged argument is printed a
second time, and the second document implements the slots of the first.
-/

namespace LuaFormatter

open Layout

/-! ## Tables -/

section
variable {docs : List Doc} {slots back : List Slot} {slot : Slot}

/-- A slot that may stay empty can be put in anywhere. Counterpart of `ImplementAll`. -/
theorem ImplementAll.skip (hslot : slot.Resolves []) (h : ImplementAll docs slots) :
    ImplementAll docs (slot :: slots) := by
  intro mode level word hword
  obtain ⟨pieces, hpieces, rfl⟩ := h mode level word hword
  exact ⟨pieces, ⟨[], pieces, rfl, hslot, hpieces⟩, rfl⟩

/-- A line break, where there may also be something else. Counterpart of `Doc.hardLine`. -/
theorem implements_hardLine (hslot : ∀ level, slot.Resolves [.newline level]) :
    Implements .hardLine [slot] :=
  .single fun level _ _ hword => ⟨[.newline level], hslot level, hword⟩

/-- Nothing, where there may also be something else. Counterpart of `Doc.empty`. -/
theorem implements_empty (hslot : slot.Resolves []) : Implements .empty [slot] :=
  .single fun _ _ _ hword => ⟨[], hslot, hword⟩

/-- A table implements its braces with the fields between them. Counterpart of `Context.table`. -/
theorem implements_table (context : Context) (node : Node) {printed : List Printed}
    {spelled : List Spelled} (h : List.Forall₂ Prints printed spelled) :
    Implements (context.table node printed)
      (if spelled.isEmpty then
        .symbol .leftCurly :: (context.danglingSlots node ++
          [if (context.danglingComments node false).isEmpty then .pad else .hard,
            .symbol .rightCurly])
      else
        .symbol .leftCurly :: .pad :: (commaSlots (spelled.map Spelled.slots) ++
          [.comma, .pad, .symbol .rightCurly])) := by
  unfold Context.table
  cases h with
  | nil =>
    cases hblock : context.danglingBlock? node with
    | none =>
      have hcomments := danglingBlock_eq_none hblock
      have hdangling : context.danglingSlots node = [] := by
        simp [Context.danglingSlots, hcomments]
      simp only [List.isEmpty_nil, if_true, hdangling, hcomments, List.nil_append]
      exact .text [.token (.symbol .leftCurly) ['\x7b'], .token (.symbol .rightCurly) ['\x7d']]
        ⟨[_], [_], rfl, rfl, [], [_], rfl, .inl rfl, [_], [], rfl, rfl, rfl⟩ rfl
    | some block =>
      obtain ⟨himplements, hcomments⟩ := implements_danglingBlock hblock
      simp only [List.isEmpty_nil, if_true, List.isEmpty_eq_false_iff.2 hcomments]
      exact .cat (.slot (implements_symbol .leftCurly) (.cons himplements
        (.slot .hardLine (.one (implements_symbol .rightCurly)))))
  | @cons first firstSlots printed spelled hfirst hrest =>
    have hall := List.Forall₂.cons hfirst hrest
    have hdocs : List.Forall₂ Implements ((first :: printed).map Printed.doc)
        ((firstSlots :: spelled).map Spelled.slots) := by
      rw [List.forall₂_map_left_iff, List.forall₂_map_right_iff]
      exact hall.imp fun _ _ hprints => hprints.doc_implements
    simp only [List.isEmpty_cons, Bool.false_eq_true, if_false]
    have hseparator : Implements (Doc.cat [.text ",", .hardLine]) [.symbol .comma, .gap] :=
      .cat (.slot (implements_symbol .comma)
        (.one (implements_hardLine fun level => .inr ⟨level, rfl⟩)))
    have hcomma : Implements (if context.style.trailingComma = .never then .empty else .text ",")
        [.comma] := by
      split
      · exact implements_empty (.inl rfl)
      · exact .text [.token (.symbol .comma) [',']] ⟨[_], [], rfl, .inr rfl, rfl⟩ rfl
    have hbreak : Implements .hardLine [.pad] :=
      implements_hardLine fun level => .inr (.inr ⟨level, rfl⟩)
    have hinner := Implements.indented
      (.slot hbreak (.cons (implements_join hseparator hdocs) (.one hcomma)))
    have hbroken := Implements.cat <| ImplementAll.slot (implements_symbol .leftCurly) <|
      ImplementAll.cons hinner <| ImplementAll.slot hbreak (.one (implements_symbol .rightCurly))
    have hspace : Implements (if context.style.bracketSpacing then .text " " else .empty)
        [.pad] := by
      split
      · exact .text [.space] ⟨[_], [], rfl, .inr (.inl rfl), rfl⟩ rfl
      · exact implements_empty (.inl rfl)
    have hnone : Slot.comma.Resolves [] := .inl rfl
    have hflat := Implements.cat <| ImplementAll.slot (implements_symbol .leftCurly) <|
      ImplementAll.slot hspace <| ImplementAll.cons (implements_join implements_commaLine hdocs) <|
        ImplementAll.skip hnone <|
          ImplementAll.slot hspace (.one (implements_symbol .rightCurly))
    rw [List.cons_append, List.append_assoc] at hbroken
    split
    · refine .alternatives (by simp) fun option hmem => ?_
      rcases List.mem_cons.1 hmem with rfl | hmem
      · exact hflat
      · obtain rfl := List.mem_singleton.1 hmem
        exact hbroken
    · exact hbroken

/-- A key between brackets implements these, with a space where it is a long string. Counterpart of
`bracketed`. -/
theorem implements_bracketed (key : Printed) (h : Implements key.doc slots) :
    ImplementAll (bracketed key) (bracketSlots key.node slots) := by
  have hopen : Implements (.text "[ ") [.symbol .leftSquare, .space] :=
    .text [.token (.symbol .leftSquare) ['['], .space]
      ⟨[_], [_], rfl, rfl, [_], [], rfl, rfl, rfl⟩ rfl
  have hclose : Implements (.text " ]") [.space, .symbol .rightSquare] :=
    .text [.space, .token (.symbol .rightSquare) [']']]
      ⟨[_], [_], rfl, rfl, [_], [], rfl, rfl, rfl⟩ rfl
  have hplain : ImplementAll [.text "[", key.doc, .text "]"]
      (.symbol .leftSquare :: (slots ++ [.symbol .rightSquare])) :=
    .slot (implements_symbol .leftSquare) (.cons h (.one (implements_symbol .rightSquare)))
  unfold bracketed bracketSlots
  cases key.node.shape with
  | literal kind text =>
    cases kind with
    | longString => exact .cons hopen (.cons h (.one hclose))
    | _ => exact hplain
  | _ => exact hplain

/-- An equals sign with spaces around it. Counterpart of `Symbol.equal`. -/
theorem implements_equals : Implements (.text " = ") [.space, .symbol .equal, .space] :=
  .text [.space, .token (.symbol .equal) ['='], .space]
    ⟨[_], [_, _], rfl, rfl, [_], [_], rfl, rfl, [_], [], rfl, rfl, rfl⟩ rfl

/-- A field with a key implements the key, which may be a plain name, and the value. Counterpart of
`Context.keyField`. -/
theorem implements_keyField {context : Context} (key value : Printed) {valueSlots : List Slot}
    (hkey : Implements key.doc slots) (hvalue : Implements value.doc valueSlots) :
    Implements (context.keyField key value)
      ((match keyName? key.node with
        | some name => context.commented key.node [nameSlot name]
        | none => bracketSlots key.node slots) ++
        .space :: .symbol .equal :: .space :: valueSlots) := by
  have hend : ImplementAll [.text " = ", value.doc]
      (.space :: .symbol .equal :: .space :: valueSlots) :=
    .cons implements_equals (.one hvalue)
  change Implements (match keyName? key.node with
    | some name => Doc.cat [context.withComments key.node (.text name), .text " = ", value.doc]
    | none => Doc.cat (bracketed key ++ [.text " = ", value.doc])) _
  split
  · exact .cat (.cons (implements_withComments (.token rfl rfl)) hend)
  · exact .cat (.append (implements_bracketed key hkey) hend)

end

/-! ## Arguments -/

/-- What is printed for an argument, hugged or not, implements its slots. -/
structure PrintsArgument (argument : Argument) (spelled : Spelled) : Prop extends
    Prints argument.toPrinted spelled where
  hugged_implements : ∀ hugged ∈ argument.hugged, Implements hugged spelled.slots

section
variable {context : Context} {arguments : List Argument} {spelled : List Spelled}

/-- An argument with the comma after it, hugged or not. Counterpart of `Context.withComma`. -/
theorem implements_withComma (context : Context) {argument : Argument} {slots : Spelled}
    (h : PrintsArgument argument slots) :
    Implements
      (if context.endsParagraph argument then
        Doc.cat [argument.doc, .text ",", .hardLine, .hardLine]
      else Doc.cat [argument.doc, Doc.commaLine])
      (slots.slots ++ (.symbol .comma ::
        if Gap.isNextLineBlank context.source slots.node.span.stop then [.hard, .hard]
        else [.gap])) := by
  unfold Context.endsParagraph
  rw [h.node_eq]
  split
  · exact .cat (.cons h.doc_implements
      (.slot (implements_symbol .comma) (.slot .hardLine (.one .hardLine))))
  · exact .cat (.cons h.doc_implements (.one implements_commaLine))

/-- Arguments of which the first is hugged implement their slots. Counterpart of
`Context.huggedFirst`. -/
theorem implements_huggedFirst {argument : Argument} {slots : Spelled} {hugged : Doc}
    (h : PrintsArgument argument slots) (hhugged : argument.hugged = some hugged) :
    Implements (context.huggedFirst argument hugged)
      (slots.slots ++ (.symbol .comma ::
        if Gap.isNextLineBlank context.source slots.node.span.stop then [.hard, .hard]
        else [.gap])) := by
  unfold Context.huggedFirst Context.endsParagraph
  rw [h.node_eq]
  refine .cat (.cons (h.hugged_implements hugged hhugged)
    (.slot (implements_symbol .comma) (.one ?_)))
  split
  · exact .cat (.slot .hardLine (.one .hardLine))
  · exact .line

/-- The slots of a first argument, of what separates it, and of the others. Counterpart of
`Context.argumentSlots`. -/
theorem argumentSlots_cons_cons (first second : Spelled) (rest : List Spelled) :
    context.argumentSlots (first :: second :: rest) =
      first.slots ++ (.symbol .comma ::
        if Gap.isNextLineBlank context.source first.node.span.stop then [.hard, .hard]
        else [.gap]) ++ context.argumentSlots (second :: rest) := by
  simp [Context.argumentSlots]

/-- Arguments with commas between them implement their slots. Counterpart of
`Context.commaSeparated`. -/
theorem implements_commaSeparated (context : Context)
    (h : List.Forall₂ PrintsArgument arguments spelled) :
    ImplementAll (context.commaSeparated arguments) (context.argumentSlots spelled) := by
  induction h with
  | nil => exact .nil
  | cons hfirst hrest ih =>
    cases hrest with
    | nil => exact .one hfirst.doc_implements
    | cons hnext hothers =>
      rw [argumentSlots_cons_cons]
      exact .cons (implements_withComma context hfirst) ih

/-- Arguments in parentheses, with the slots where a broken list has line breaks. Counterpart of
`Context.arguments`. -/
theorem implements_parenthesised {breaks : Bool} {docs : List Doc} {slots : List Slot}
    (h : ImplementAll docs slots) :
    Implements (Context.parenthesised breaks docs)
      (.symbol .leftParen :: .soft :: (slots ++ [.soft, .symbol .rightParen])) :=
  .groupedIf (.slot (implements_symbol .leftParen) (.lead
    (.indented (.slot .softLine (.one (.concat h))))
    (.slot .softLine (.one (implements_symbol .rightParen)))))

/-- The three forms of a list with a hugged argument spell the same arguments. Counterpart of
`Context.arguments`. -/
theorem implements_huggedArguments {breaks : Bool} {all before after : List Doc} {hugged : Doc}
    {hug : Hug} {front middle back : List Slot} (hall : ImplementAll all (front ++ middle ++ back))
    (hbefore : ImplementAll before front) (hhugged : Implements hugged middle)
    (hafter : ImplementAll after back)
    (hhug : match hug with | .first => front = [] | .last => back = []) :
    Implements (huggedArguments breaks all before after hugged hug)
      (.symbol .leftParen :: .soft ::
        (front ++ middle ++ back ++ [.soft, .symbol .rightParen])) := by
  have harguments : ImplementAll (before ++ hugged :: after) (front ++ middle ++ back) := by
    rw [List.append_assoc]
    exact .append hbefore (.cons hhugged hafter)
  have hgroup : Implements (Doc.groupedIf true [hugged]) middle := .groupedIf (.one hhugged)
  have hclose : ImplementAll [.text ")"] [.soft, .symbol .rightParen] :=
    .skip (.inl rfl) (.one (implements_symbol .rightParen))
  have hflat : Implements (.ifBreak
      (Doc.indented [.text "(", .softLine, .concat (before ++ hugged :: after)])
      (Doc.cat [.text "(", .concat (before ++ hugged :: after)]))
      (.symbol .leftParen :: .soft :: (front ++ middle ++ back)) :=
    .ifBreak
      (.indented (.slot (implements_symbol .leftParen)
        (.slot .softLine (.one (.concat harguments)))))
      (.cat (.slot (implements_symbol .leftParen) (.skip (.inl rfl) (.one (.concat harguments)))))
  unfold huggedArguments
  dsimp only
  refine .cat (.none ?_ (.one (.alternatives (by simp) fun option hmem => ?_)))
  · split
    · exact .breakParent
    · exact .empty
  · simp only [List.mem_cons, List.not_mem_nil, or_false] at hmem
    rcases hmem with rfl | rfl | rfl
    · refine .cat (.cons hflat ?_)
      split
      · exact .slot .softLine (.one (implements_symbol .rightParen))
      · exact .none .empty hclose
    · cases hug with
      | first =>
        obtain rfl := hhug
        rw [List.nil_append, List.append_assoc]
        exact .cat (.slot (implements_symbol .leftParen)
          (.skip (.inl rfl) (.cons hgroup (.cons (.concat hafter) hclose))))
      | last =>
        obtain rfl := hhug
        rw [List.append_nil, List.append_assoc]
        exact .cat (.slot (implements_symbol .leftParen)
          (.skip (.inl rfl) (.cons (.concat hbefore) (.cons hgroup hclose))))
    · exact implements_parenthesised hall

/-- Only two arguments have the first one hugged. Counterpart of `hugsFirst`. -/
theorem hugsFirst_eq_true {nodes : List Node} (h : hugsFirst nodes = true) :
    ∃ first second, nodes = [first, second] := by
  unfold hugsFirst at h
  split at h
  · exact ⟨_, _, rfl⟩
  · cases h

/-- Only two arguments have the first one hugged. Counterpart of `hug?`. -/
theorem hug?_eq_first {nodes : List Node} (h : hug? nodes = some .first) :
    ∃ first second, nodes = [first, second] := by
  unfold hug? at h
  split at h
  · exact hugsFirst_eq_true ‹_›
  · split at h <;> cases h

/-- The slots of arguments are those of the ones before the last, and of the last. Counterpart of
`Context.commaSeparated`. -/
theorem implements_dropLast_commaSeparated (context : Context) {front : List Argument}
    {last : Argument} (h : List.Forall₂ PrintsArgument (front ++ [last]) spelled) :
    ∃ slots final, context.argumentSlots spelled = slots ++ final.slots ∧
      PrintsArgument last final ∧
      ImplementAll (context.commaSeparated (front ++ [last])).dropLast slots := by
  induction front generalizing spelled with
  | nil =>
    cases h with
    | cons hlast hnil =>
    cases hnil
    exact ⟨[], _, rfl, hlast, .nil⟩
  | cons first front ih =>
    rw [List.cons_append] at h
    cases h with
    | @cons _ firstSlots _ spelled hfirst hrest =>
    obtain ⟨slots, final, hslots, hfinal, himplements⟩ := ih hrest
    cases hfront : front ++ [last] with
    | nil => simp at hfront
    | cons second others =>
      rw [hfront] at hrest himplements
      cases hrest with
      | @cons _ secondSlots _ otherSlots hsecond hothers =>
      have hne : context.commaSeparated (second :: others) ≠ [] := by
        cases others <;> simp [Context.commaSeparated]
      have hdocs := ImplementAll.cons (implements_withComma context hfirst) himplements
      rw [← List.dropLast_cons_of_ne_nil hne] at hdocs
      rw [List.cons_append, hfront]
      refine ⟨_, final, ?_, hfinal, hdocs⟩
      rw [argumentSlots_cons_cons, hslots, ← List.append_assoc]

/-- The argument of a list that is hugged. -/
def huggedOf (arguments : List Argument) : Hug → Option Argument
  | .first => arguments.head?
  | .last => arguments.getLast?

/-- Only the argument that is hugged is also printed hugged. Counterpart of `printArguments`. -/
theorem hugged_mapIdx {nodes : List Node} {hug : Hug} (hhug : hug? nodes = some hug)
    (print hugged : Nat → Node → Doc) :
    let arguments : List Argument := nodes.mapIdx fun index node =>
      { node, doc := print index node
        hugged :=
          if (hug? nodes).any (·.isAt nodes.length index) then some (hugged index node) else none }
    arguments.findSome? (·.hugged) = (huggedOf arguments hug).bind (·.hugged) := by
  intro arguments
  cases hug with
  | first =>
    obtain ⟨first, second, rfl⟩ := hug?_eq_first hhug
    simp [arguments, hhug, huggedOf, Hug.isAt]
  | last =>
    have hlist : ∀ front last, nodes = front ++ [last] →
        arguments.findSome? (·.hugged) = (huggedOf arguments .last).bind (·.hugged) := by
      rintro front last rfl
      have hfront : ∀ argument ∈ (front.mapIdx fun index node =>
          ({ node, doc := print index node
             hugged :=
               if (hug? (front ++ [last])).any (·.isAt (front ++ [last]).length index) then
                 some (hugged index node)
               else none } : Argument)), argument.hugged = none := by
        intro argument hmem
        obtain ⟨index, hindex, rfl⟩ := List.mem_mapIdx.1 hmem
        simp [hhug, Hug.isAt]
        omega
      simp only [arguments, huggedOf, List.mapIdx_append, List.findSome?_append,
        List.findSome?_eq_none_iff.2 hfront]
      simp
    rcases List.eq_nil_or_concat nodes with rfl | ⟨front, last, rfl⟩
    · simp [hug?, hugsFirst, hugsLast] at hhug
    · exact hlist front last (by simp)

/-- Arguments implement the same slots, hugged or not. Counterpart of `Context.arguments`. -/
theorem implements_arguments (context : Context) (node : Node)
    (h : List.Forall₂ PrintsArgument arguments spelled)
    (hhug : ∀ hug, hug? (arguments.map (·.node)) = some hug →
      arguments.findSome? (·.hugged) = (huggedOf arguments hug).bind (·.hugged)) :
    Implements (context.arguments node arguments)
      (if spelled.isEmpty then context.emptyParensSlots node
      else
        .symbol .leftParen :: .soft ::
          (context.argumentSlots spelled ++ [.soft, .symbol .rightParen])) := by
  have hdocs := implements_commaSeparated context h
  unfold Context.arguments
  cases harguments : arguments with
  | nil =>
    subst harguments
    cases h
    exact implements_emptyParens context node
  | cons first rest =>
    have hspelled : spelled.isEmpty = false := by
      rw [harguments] at h
      cases h
      rfl
    rw [← harguments, hspelled]
    simp only [harguments, List.isEmpty_cons, Bool.false_eq_true, if_false]
    rw [← harguments]
    split
    · rename_i hugged found hfirst hfind hhead
      obtain ⟨_, _, hnodes⟩ := hug?_eq_first hfirst
      obtain ⟨second, rfl⟩ : ∃ second, arguments = [first, second] := by
        rw [harguments] at hnodes ⊢
        match rest, hnodes with
        | [second], _ => exact ⟨second, rfl⟩
      cases hhead
      cases h with
      | cons hfound hrest =>
      cases hrest with
      | cons hsecond hnil =>
      cases hnil
      have hhugged : first.hugged = some hugged := by
        simpa [hhug .first hfirst, huggedOf] using hfind
      rw [argumentSlots_cons_cons] at hdocs ⊢
      exact @implements_huggedArguments _ _ _ _ _ .first [] _ _ hdocs .nil
        (implements_huggedFirst hfound hhugged) (.one hsecond.doc_implements) rfl
    · rename_i hugged hlast hfind
      rcases List.eq_nil_or_concat arguments with hnil | ⟨front, last, hconcat⟩
      · rw [hnil] at harguments
        cases harguments
      · rw [List.concat_eq_append] at hconcat
        rw [hhug .last hlast, huggedOf, hconcat] at hfind
        rw [hconcat] at h hdocs ⊢
        obtain ⟨slots, final, hslots, hfinal, hfront⟩ :=
          implements_dropLast_commaSeparated context h
        have hhugged := hfinal.hugged_implements hugged (by simpa using hfind)
        rw [hslots, ← List.append_nil (slots ++ final.slots)] at hdocs ⊢
        exact implements_huggedArguments hdocs hfront hhugged .nil rfl
    · exact implements_parenthesised hdocs

end

/-! ## Chains of operators -/

/-- Every one of the documents implements its share of the slots, also where their levels of
indentation or their modes differ. -/
inductive ImplementEach : List Doc → List Slot → Prop
  | nil : ImplementEach [] []
  | cons {doc : Doc} {docs : List Doc} {slots back : List Slot} :
    Implements doc slots → ImplementEach docs back → ImplementEach (doc :: docs) (slots ++ back)

section
variable {doc : Doc} {docs others : List Doc} {slots back : List Slot}

/-- Documents that implement their shares implement the slots one after the other. Counterpart of
`ImplementEach`. -/
theorem ImplementEach.all (h : ImplementEach docs slots) : ImplementAll docs slots := by
  induction h with
  | nil => exact .nil
  | cons hdoc _ ih => exact .cons hdoc ih

/-- One document implements all slots. Counterpart of `ImplementEach`. -/
theorem ImplementEach.one (h : Implements doc slots) : ImplementEach [doc] slots := by
  rw [← List.append_nil slots]
  exact .cons h .nil

/-- A first document implements one slot, and the others the rest. Counterpart of
`ImplementEach`. -/
theorem ImplementEach.slot {slot : Slot} (h : Implements doc [slot])
    (hrest : ImplementEach docs back) : ImplementEach (doc :: docs) (slot :: back) :=
  .cons h hrest

/-- Documents one after the other implement slots one after the other. Counterpart of
`ImplementEach`. -/
theorem ImplementEach.append (h : ImplementEach docs slots) (hback : ImplementEach others back) :
    ImplementEach (docs ++ others) (slots ++ back) := by
  induction h with
  | nil => exact hback
  | cons hdoc _ ih =>
    rw [List.cons_append, List.append_assoc]
    exact .cons hdoc ih

end

section
variable {context : Context} {node : Node} {op : BinaryOp} {left right : Node}

/-- An operator implements its token. Counterpart of `BinaryOp.text`. -/
theorem implements_operator (op : BinaryOp) : Implements (.text op.text) [.fixed op.kind] := by
  cases op <;> exact .token rfl rfl

/-- A node without comments has the slots of its core. Counterpart of `Context.commented`. -/
theorem commented_of_not_hasComments (h : context.hasComments node = false) (slots : List Slot) :
    context.commented node slots = slots := by
  have howned : context.owned node = [] := by simpa [Context.hasComments] using h
  simp [Context.commented, Context.placed, howned]

/-- What continues a chain is an operation without parentheses. Counterpart of `continuesChain`. -/
theorem binary_of_continuesChain (h : continuesChain op left = true) :
    left.inParens = false ∧ ∃ child first second, left.shape = .binary child first second := by
  unfold continuesChain at h
  obtain ⟨hflag, hshape⟩ := Bool.and_eq_true_iff.1 h
  refine ⟨by simpa using hflag, ?_⟩
  split at hshape
  · exact ⟨_, _, _, ‹_›⟩
  · cases hshape

/-- Operands are smaller than their operation. Counterpart of `Node.size`. -/
theorem Node.size_operands_lt (hshape : node.shape = .binary op left right) :
    left.size < node.size ∧ right.size < node.size :=
  ⟨Node.size_lt_of_mem_children (by simp [Node.children, hshape, Shape.children]),
    Node.size_lt_of_mem_children (by simp [Node.children, hshape, Shape.children])⟩

/-- An operator and the operand after it, which may be a group of their own. -/
def operationDoc (isOwn : Bool) (op : BinaryOp) (last : Doc) : Doc :=
  if isOwn then Doc.grouped [.text op.text, .line, last] else Doc.cat [.text op.text, .line, last]

/-- The parts of a chain are those of the left operand and the last operation, and for `..` the
operations on the right of it between them. Counterpart of `chain`. -/
theorem chain_binary (parentLogical : Option Bool) (hshape : node.shape = .binary op left right) :
    chain context parentLogical node =
      (if continuesChain op left then
        if context.hasComments left then
          [context.withComments left (.concat (chain context (some op.isLogical) left))]
        else chain context (some op.isLogical) left
      else [compile context (Place.left op) left]) ++
        if op = .concat then
          (concatTail context right).1 ++ [.text " ",
            operationDoc (isOwnGroup op node.inParens parentLogical left right) op
            (concatTail context right).2]
        else [.text " ", operationDoc (isOwnGroup op node.inParens parentLogical left right) op
          (compile context (Place.right op) right)] := by
  rw [chain]
  split
  · rename_i op' left' right' hshape'
    obtain ⟨rfl, rfl, rfl⟩ : op = op' ∧ left = left' ∧ right = right' := by
      simpa [hshape] using hshape'
    dsimp only
    rw [List.append_assoc]
    by_cases hconcat : op = .concat
    · rw [if_pos hconcat, if_pos hconcat]
      rfl
    · rw [if_neg hconcat, if_neg hconcat]
      rfl
  · rename_i hother
    exact absurd hshape (hother op left right)

/-- An operator and its operand implement the token and the slots of the operand. Counterpart of
`operationDoc`. -/
theorem implements_operation {last : Doc} {slots : List Slot} (isOwn : Bool) (op : BinaryOp)
    (hlast : Implements last slots) :
    Implements (operationDoc isOwn op last) (.fixed op.kind :: .gap :: slots) := by
  have hparts := ImplementAll.slot (implements_operator op) (.slot .line (.one hlast))
  cases isOwn with
  | true => exact .grouped hparts
  | false => exact .cat hparts

/-- The operands of `..` down the right side, from the operator before the first of them on.
Counterpart of `concatTail`. -/
theorem implements_concatTail (isOwn : Bool)
    (ih : ∀ place child, child.size ≤ node.size →
      Implements (compile context place child) (spell context place child)) :
    ImplementEach
      ((concatTail context node).1 ++
        [.text " ", operationDoc isOwn .concat (concatTail context node).2])
      (.space :: .fixed BinaryOp.concat.kind :: .gap ::
        spell context (Place.right .concat) node) := by
  have hwhole : ImplementEach
      [.text " ", operationDoc isOwn .concat (compile context (Place.right .concat) node)]
      (.space :: .fixed BinaryOp.concat.kind :: .gap :: spell context (Place.right .concat) node) :=
    .slot implements_space (.one (implements_operation isOwn .concat (ih _ node (Nat.le_refl _))))
  induction hn : node.size using Nat.strongRecOn generalizing node with
  | _ n hrec =>
  rw [concatTail]
  split
  · rename_i left right hshape
    split
    · exact hwhole
    · rename_i hplain
      simp only [Bool.or_eq_true, not_or, Bool.not_eq_true] at hplain
      obtain ⟨hleft, hright⟩ := Node.size_operands_lt hshape
      have hlast := implements_operation isOwn .concat (ih (Place.right .concat) right (by omega))
      have htail := hrec right.size (hn ▸ hright)
        (fun place child hchild => ih place child (by omega))
        (.slot implements_space (.one hlast)) rfl
      have hspell : spell context (Place.right .concat) node =
          spell context (Place.left .concat) left ++ .space ::
          .fixed BinaryOp.concat.kind :: .gap :: spell context (Place.right .concat) right := by
        rw [spell_eq, commented_of_not_hasComments hplain.2]
        simp [needsParens, hplain.1, coreSlots, hshape]
      rw [hspell]
      have hoperand := implements_operation false .concat (ih (Place.left .concat) left (by omega))
      exact .slot implements_space (.cons hoperand htail)
  · exact hwhole

/-- The parts of a chain spell the operation. Counterpart of `chain`. -/
theorem implements_chain (place : Place) (parentLogical : Option Bool)
    (hshape : node.shape = .binary op left right)
    (ih : ∀ place child, child.size < node.size →
      Implements (compile context place child) (spell context place child)) :
    ImplementEach (chain context parentLogical node)
      (coreSlots context place node (spell context)) := by
  induction hn : node.size using Nat.strongRecOn generalizing node op left
    right place parentLogical with
  | _ n hrec =>
  obtain ⟨hleft, hright⟩ := Node.size_operands_lt hshape
  have hcore : coreSlots context place node (spell context) =
      spell context (Place.left op) left ++ .space :: .fixed op.kind :: .gap ::
        spell context (Place.right op) right := by
    simp [coreSlots, hshape]
  rw [hcore, chain_binary parentLogical hshape]
  refine .append ?_ ?_
  · split
    · rename_i hcontinues
      obtain ⟨hflag, child, first, second, hchild⟩ := binary_of_continuesChain hcontinues
      have hparts := hrec left.size (hn ▸ hleft) (Place.left op) (some op.isLogical) hchild
        (fun place child hchild => ih place child (by omega)) rfl
      have hspell : spell context (Place.left op) left =
          context.commented left (coreSlots context (Place.left op) left (spell context)) := by
        rw [spell_eq]
        simp [needsParens, hflag]
      rw [hspell]
      split
      · exact .one (implements_withComments (.concat hparts.all))
      · rename_i hcomments
        rwa [commented_of_not_hasComments (by simpa using hcomments)]
    · exact .one (ih _ left hleft)
  · split
    · rename_i hconcat
      subst hconcat
      exact implements_concatTail _ fun place child hchild => ih place child (by omega)
    · exact .slot implements_space (.one (implements_operation _ op (ih _ right hright)))

end

end LuaFormatter
