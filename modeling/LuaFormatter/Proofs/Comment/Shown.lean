import LuaFormatter.Proofs.Layout.Resolution
import LuaFormatter.Proofs.Spelling.Implement
import Mathlib.Algebra.Order.Group.Multiset

/-!
# The comments that a document shows

`Doc.commentDocs` finds the documents of comments in a document without choices. `Doc.Shows` says
that every resolution of a document has the same ones, up to their order; its rules follow the
builders of documents, so that the comments of a document are read off it part by part.
-/

namespace LuaFormatter

namespace Doc

/-- The document is a line break as it stands. -/
def isLiteralLine : Doc → Bool
  | literalLine => true
  | _ => false

/-- The text starts with the two dashes of a comment. -/
def opensComment (content : String) : Bool :=
  ['-', '-'].isPrefixOf content.toList

/-- The first line of a text over several lines. -/
def firstLine? : List Doc → Option String
  | text content :: _ => some content
  | _ => none

mutual

/-- The documents of comments in a document without choices. A list with literal line breaks is one
text over several lines, and its first line says whether it is a comment. -/
def commentDocs : Doc → List Doc
  | text content => if opensComment content then [text content] else []
  | note content => if opensComment content then [note content] else []
  | concat items =>
    if items.any isLiteralLine then
      if (firstLine? items).any opensComment then [concat items] else []
    else
      commentDocsOf items
  | indent contents | group _ contents | suffix contents => contents.commentDocs
  | empty | softLine | line | hardLine | literalLine | alternatives _ _ | ifBreak _ _
  | breakParent => []

/-- The documents of comments in documents without choices. -/
def commentDocsOf : List Doc → List Doc
  | [] => []
  | doc :: rest => doc.commentDocs ++ commentDocsOf rest

end

/-- Every resolution of the document has these documents of comments, in some order. It is no line
break as it stands. -/
def Shows (doc : Doc) (shown : Multiset Doc) : Prop :=
  ∀ plain, doc.Resolves plain →
    plain.isLiteralLine = false ∧ (plain.commentDocs : Multiset Doc) = shown

/-- Each of the documents shows its share of the documents of comments. -/
inductive ShowAll : List Doc → Multiset Doc → Prop
  | nil : ShowAll [] 0
  | cons {doc : Doc} {docs : List Doc} {shown more : Multiset Doc} :
    doc.Shows shown → ShowAll docs more → ShowAll (doc :: docs) (shown + more)

section
variable {doc other : Doc} {docs others : List Doc} {shown more : Multiset Doc}

/-- The same documents of comments, written in another way. Counterpart of `Shows` for an equation
of multisets. -/
theorem Shows.congr (h : doc.Shows shown) (heq : shown = more) : doc.Shows more :=
  heq ▸ h

/-! ## Lists -/

/-- A document without comments in front. Counterpart of `ShowAll`. -/
theorem ShowAll.skip (h : doc.Shows 0) (hrest : ShowAll docs shown) :
    ShowAll (doc :: docs) shown := by
  rw [← zero_add shown]
  exact .cons h hrest

/-- A document before others without comments. Counterpart of `ShowAll`. -/
theorem ShowAll.only (h : doc.Shows shown) (hrest : ShowAll docs 0) :
    ShowAll (doc :: docs) shown := by
  rw [← add_zero shown]
  exact .cons h hrest

/-- A single document shows what its list does. Counterpart of `ShowAll`. -/
theorem ShowAll.one (h : doc.Shows shown) : ShowAll [doc] shown :=
  .only h .nil

/-- Documents one after the other show what both parts do. Counterpart of `List.append` for
`ShowAll`. -/
theorem ShowAll.append (h : ShowAll docs shown) (h' : ShowAll others more) :
    ShowAll (docs ++ others) (shown + more) := by
  induction h with
  | nil =>
    rw [zero_add]
    exact h'
  | cons hdoc _ ih =>
    rw [List.cons_append, add_assoc]
    exact .cons hdoc ih

/-- A document for each item shows what the items show together. Counterpart of `List.map` for
`ShowAll`. -/
theorem ShowAll.map {α : Type} {items : List α} {docs : α → Doc} {shown : α → Multiset Doc}
    (h : ∀ item ∈ items, (docs item).Shows (shown item)) :
    ShowAll (items.map docs) (items.map shown).sum := by
  induction items with
  | nil => exact .nil
  | cons item items ih =>
    rw [List.forall_mem_cons] at h
    rw [List.map_cons, List.map_cons, List.sum_cons]
    exact .cons h.1 (ih h.2)

/-- Documents for each item show what the items show together. Counterpart of `List.flatMap` for
`ShowAll`. -/
theorem ShowAll.flatMap {α : Type} {items : List α} {docs : α → List Doc}
    {shown : α → Multiset Doc} (h : ∀ item ∈ items, ShowAll (docs item) (shown item)) :
    ShowAll (items.flatMap docs) (items.map shown).sum := by
  induction items with
  | nil => exact .nil
  | cons item items ih =>
    rw [List.forall_mem_cons] at h
    rw [List.flatMap_cons, List.map_cons, List.sum_cons]
    exact .append h.1 (ih h.2)

/-- Separators that show no comments change nothing. Counterpart of `List.intersperse` for
`ShowAll`. -/
theorem ShowAll.intersperse {separator : Doc} (hseparator : separator.Shows 0)
    (h : ShowAll docs shown) : ShowAll (docs.intersperse separator) shown := by
  induction h with
  | nil => exact .nil
  | cons hdoc hrest ih =>
    cases hrest with
    | nil => exact .cons hdoc .nil
    | cons hnext hothers => exact .cons hdoc (.skip hseparator ih)

/-- The resolutions of the documents have their comments together. Counterpart of
`Doc.allResolve`. -/
theorem ShowAll.of_allResolve (h : ShowAll docs shown) {parts : List Doc}
    (hparts : allResolve docs parts) :
    parts.any isLiteralLine = false ∧ (commentDocsOf parts : Multiset Doc) = shown := by
  induction h generalizing parts with
  | nil =>
    obtain rfl : parts = [] := hparts
    exact ⟨rfl, rfl⟩
  | cons hdoc _ ih =>
    obtain ⟨first, others, rfl, hfirst, hothers⟩ := hparts
    obtain ⟨hline, rfl⟩ := hdoc first hfirst
    obtain ⟨hlines, rfl⟩ := ih hothers
    refine ⟨by rw [List.any_cons, hline, hlines, Bool.or_self], ?_⟩
    rw [commentDocsOf, Multiset.coe_add]

/-! ## Builders -/

/-- The case of the empty document in `Shows`: it shows no comment. Counterpart of `Doc.empty`. -/
theorem Shows.empty : Doc.empty.Shows 0 := by
  rintro plain rfl
  exact ⟨rfl, rfl⟩

/-- The case of a line break that is nothing when flat in `Shows`: it shows no comment. Counterpart
of `Doc.softLine`. -/
theorem Shows.softLine : Doc.softLine.Shows 0 := by
  rintro plain rfl
  exact ⟨rfl, rfl⟩

/-- The case of a line break that is a space when flat in `Shows`: it shows no comment. Counterpart
of `Doc.line`. -/
theorem Shows.line : Doc.line.Shows 0 := by
  rintro plain rfl
  exact ⟨rfl, rfl⟩

/-- The case of a line break that is always one in `Shows`: it shows no comment. Counterpart of
`Doc.hardLine`. -/
theorem Shows.hardLine : Doc.hardLine.Shows 0 := by
  rintro plain rfl
  exact ⟨rfl, rfl⟩

/-- The case of the mark that breaks the groups around it in `Shows`: it shows no comment.
Counterpart of `Doc.breakParent`. -/
theorem Shows.breakParent : Doc.breakParent.Shows 0 := by
  rintro plain rfl
  exact ⟨rfl, rfl⟩

/-- A text is no comment if it does not start like one. Counterpart of `Doc.text`. -/
theorem Shows.text {content : String} (h : opensComment content = false) :
    (Doc.text content).Shows 0 := by
  rintro plain rfl
  refine ⟨rfl, ?_⟩
  rw [commentDocs, h]
  rfl

/-- The case of a note in `Shows`: a text that does not start with two dashes, such as a shebang, is
no comment. Counterpart of `Doc.note`. -/
theorem Shows.note {content : String} (h : opensComment content = false) :
    (Doc.note content).Shows 0 := by
  rintro plain rfl
  refine ⟨rfl, ?_⟩
  rw [commentDocs, h]
  rfl

/-- The case of a list of documents in `Shows`, which is no text over several lines. Counterpart of
`Doc.concat`. -/
theorem Shows.concat (h : ShowAll docs shown) : (Doc.concat docs).Shows shown := by
  rintro plain ⟨parts, rfl, hparts⟩
  obtain ⟨hlines, hshown⟩ := h.of_allResolve hparts
  refine ⟨rfl, ?_⟩
  rw [commentDocs, hlines]
  exact hshown

/-- A list of documents, in its short form, shows what its members do. Counterpart of `Doc.cat`. -/
theorem Shows.cat (h : ShowAll docs shown) : (Doc.cat docs).Shows shown := by
  unfold Doc.cat
  split
  · cases h
    exact .empty
  · cases h with
    | cons hdoc hrest =>
      cases hrest
      rw [add_zero]
      exact hdoc
  · exact .concat h

/-- Documents with separators between them show what they do. Counterpart of `Doc.join`. -/
theorem Shows.join {separator : Doc} (hseparator : separator.Shows 0) (h : ShowAll docs shown) :
    (Doc.join separator docs).Shows shown :=
  .concat (h.intersperse hseparator)

/-- The case of an indented document in `Shows`: the level changes no comment. Counterpart of
`Doc.indent`. -/
theorem Shows.indent (h : doc.Shows shown) : (Doc.indent doc).Shows shown := by
  rintro plain ⟨inner, rfl, hinner⟩
  exact ⟨rfl, (h inner hinner).2⟩

/-- An indented list of documents shows what its members do. Counterpart of `Doc.indented`. -/
theorem Shows.indented (h : ShowAll docs shown) : (Doc.indented docs).Shows shown :=
  .indent (.cat h)

/-- The case of a group in `Shows`: both modes show the same comments. Counterpart of
`Doc.group`. -/
theorem Shows.group {breaks : Bool} (h : doc.Shows shown) : (Doc.group breaks doc).Shows shown := by
  rintro plain ⟨inner, rfl, hinner⟩
  exact ⟨rfl, (h inner hinner).2⟩

/-- A group that may be broken from the start shows what its members do. Counterpart of
`Doc.groupedIf`. -/
theorem Shows.groupedIf {breaks : Bool} (h : ShowAll docs shown) :
    (Doc.groupedIf breaks docs).Shows shown :=
  .group (.cat h)

/-- A group of a list of documents shows what its members do. Counterpart of `Doc.grouped`. -/
theorem Shows.grouped (h : ShowAll docs shown) : (Doc.grouped docs).Shows shown :=
  .groupedIf h

/-- The case of a document that is put off in `Shows`: it is shown later, but once. Counterpart of
`Doc.suffix`. -/
theorem Shows.suffix (h : doc.Shows shown) : (Doc.suffix doc).Shows shown := by
  rintro plain ⟨inner, rfl, hinner⟩
  exact ⟨rfl, (h inner hinner).2⟩

/-- The case of a choice by the mode in `Shows`: both forms have to show the same comments.
Counterpart of `Doc.ifBreak`. -/
theorem Shows.ifBreak (h : doc.Shows shown) (h' : other.Shows shown) :
    (Doc.ifBreak doc other).Shows shown := by
  rintro plain (hplain | hplain)
  · exact h plain hplain
  · exact h' plain hplain

/-- Each resolution of some option shows the comments if all options do. Counterpart of
`anyResolves`. -/
theorem Shows.of_anyResolves (h : ∀ option ∈ docs, option.Shows shown) {plain : Doc}
    (hplain : anyResolves docs plain) :
    plain.isLiteralLine = false ∧ (plain.commentDocs : Multiset Doc) = shown := by
  induction docs with
  | nil => cases hplain
  | cons doc docs ih =>
    rw [List.forall_mem_cons] at h
    rcases hplain with hplain | hplain
    · exact h.1 plain hplain
    · exact ih h.2 hplain

/-- Every form shows the same comments. Counterpart of `Doc.alternatives`. -/
theorem Shows.alternatives {breaks : Bool} (hne : docs ≠ [])
    (h : ∀ option ∈ docs, option.Shows shown) : (Doc.alternatives breaks docs).Shows shown := by
  rintro plain (⟨hnil, -⟩ | hplain)
  · exact absurd hnil hne
  · exact Shows.of_anyResolves h hplain

/-- A comma with a line break shows no comment. Counterpart of `Doc.commaLine`. -/
theorem Shows.commaLine : Doc.commaLine.Shows 0 :=
  .cat (.skip (.text rfl) (.one .line))

end

/-! ## Texts over several lines -/

/-- A text over several lines leaves nothing open. Counterpart of `Doc.literalLine`. -/
theorem eq_of_resolves_lines {lines : List String} {plain : Doc}
    (h : (Doc.join literalLine (lines.map text)).Resolves plain) :
    plain = Doc.join literalLine (lines.map text) := by
  obtain ⟨parts, rfl, hparts⟩ := h
  suffices hlist : parts = (lines.map text).intersperse literalLine by rw [hlist, Doc.join]
  induction lines generalizing parts with
  | nil => exact hparts
  | cons line lines ih =>
    cases lines with
    | nil =>
      obtain ⟨_, _, rfl, rfl, rfl⟩ := hparts
      rfl
    | cons next lines =>
      obtain ⟨_, _, rfl, rfl, _, others, rfl, rfl, hothers⟩ := hparts
      rw [ih others hothers]
      rfl

/-- A text over several lines is one comment if its first line starts with two dashes, and none
otherwise. Counterpart of `commentDocs`. -/
theorem commentDocs_lines {first second : String} (lines : List String) :
    (Doc.join literalLine ((first :: second :: lines).map text)).commentDocs =
      if opensComment first then [Doc.join literalLine ((first :: second :: lines).map text)]
      else [] :=
  rfl

/-- The first line of a text starts with two dashes if the text does. Counterpart of
`stripReturn`. -/
theorem isPrefixOf_stripReturn (line back : List Char) :
    ['-', '-'].isPrefixOf (stripReturn line) = ['-', '-'].isPrefixOf (line ++ '\n' :: back) := by
  unfold stripReturn
  match line with
  | [] => simp [List.isPrefixOf]
  | [a] => by_cases ha : a = '\r' <;> simp [List.isPrefixOf, ha]
  | [a, b] => by_cases hb : b = '\r' <;> simp [List.isPrefixOf, hb]
  | a :: b :: c :: rest => split <;> simp [List.isPrefixOf]

/-- A text with line breaks has at least two lines. Counterpart of `List.splitOn`. -/
theorem exists_splitOn {content : List Char} (h : '\n' ∈ content) :
    ∃ first second lines back, content.splitOn '\n' = first :: second :: lines ∧
      content = first ++ '\n' :: back := by
  have hcontent := @List.intercalate_splitOn _ content _ _ '\n'
  match hsplit : content.splitOn '\n' with
  | [] =>
    rw [hsplit] at hcontent
    rw [← hcontent] at h
    cases h
  | [single] =>
    rw [hsplit, List.intercalate_singleton] at hcontent
    exact absurd (hcontent ▸ h) (not_mem_of_mem_splitOn (hsplit ▸ List.mem_singleton_self single))
  | first :: second :: lines =>
    rw [hsplit] at hcontent
    refine ⟨first, second, lines, ['\n'].intercalate (second :: lines), rfl, ?_⟩
    simpa [List.intercalate] using hcontent.symm

/-- A text that is printed as it is is a comment if it starts like one. Counterpart of
`Doc.verbatim`. -/
theorem shows_verbatim (content : List Char) :
    (Doc.verbatim content).Shows
      (if ['-', '-'].isPrefixOf content then {Doc.verbatim content} else 0) := by
  unfold Doc.verbatim
  split
  · rename_i hbreak
    obtain ⟨first, second, lines, back, hsplit, hcontent⟩ :=
      exists_splitOn (by simpa using hbreak)
    have hlines : ((content.splitOn '\n').map fun line => Doc.text (String.ofList
        (if line.getLast? = some '\r' then line.dropLast else line))) =
        (String.ofList (stripReturn first) :: String.ofList (stripReturn second) ::
          lines.map fun line => String.ofList (stripReturn line)).map text := by
      rw [hsplit, List.map_cons, List.map_cons, List.map_cons, List.map_cons, List.map_map]
      rfl
    rw [hlines]
    intro plain hplain
    obtain rfl := eq_of_resolves_lines hplain
    refine ⟨rfl, ?_⟩
    rw [commentDocs_lines, opensComment, String.toList_ofList, isPrefixOf_stripReturn first back,
      ← hcontent]
    split <;> rfl
  · rintro plain rfl
    refine ⟨rfl, ?_⟩
    rw [commentDocs, opensComment, String.toList_ofList]
    split <;> rfl

end Doc

end LuaFormatter
