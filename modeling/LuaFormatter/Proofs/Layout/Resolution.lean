import LuaFormatter.Doc.Basic

/-!
# Resolutions of a document

A document leaves choices open. `Doc.Resolves` relates it to its resolutions: the documents in which
one form stands for every choice, and everything else is kept. `Doc.texts` are the texts of a
document from left to right, and `Doc.outerTexts` those of them that are not put off until a line
break. `Doc.firstForms` is one resolution, so that every document has one
(`Doc.resolves_firstForms`).
-/

namespace LuaFormatter.Doc

mutual

/-- The second document is the first one with one form for each of its choices. A choice between no
forms is resolved to nothing. -/
def Resolves : Doc → Doc → Prop
  | empty, plain => plain = empty
  | text content, plain => plain = text content
  | note content, plain => plain = note content
  | softLine, plain => plain = softLine
  | line, plain => plain = line
  | hardLine, plain => plain = hardLine
  | literalLine, plain => plain = literalLine
  | breakParent, plain => plain = breakParent
  | concat items, plain => ∃ parts, plain = concat parts ∧ allResolve items parts
  | indent contents, plain => ∃ inner, plain = indent inner ∧ contents.Resolves inner
  | group breaks contents, plain => ∃ inner, plain = group breaks inner ∧ contents.Resolves inner
  | suffix contents, plain => ∃ inner, plain = suffix inner ∧ contents.Resolves inner
  | alternatives _ options, plain => (options = [] ∧ plain = empty) ∨ anyResolves options plain
  | ifBreak broken flat, plain => broken.Resolves plain ∨ flat.Resolves plain

/-- Documents are resolved one by one. -/
def allResolve : List Doc → List Doc → Prop
  | [], parts => parts = []
  | doc :: rest, parts =>
    ∃ first others, parts = first :: others ∧ doc.Resolves first ∧ allResolve rest others

/-- One of the documents is resolved. -/
def anyResolves : List Doc → Doc → Prop
  | [], _ => False
  | doc :: rest, plain => doc.Resolves plain ∨ anyResolves rest plain

end

mutual

/-- The texts of a document, from left to right, with those of all forms of a choice. -/
def texts : Doc → List String
  | text content | note content => [content]
  | concat items | alternatives _ items => textsOf items
  | indent contents | group _ contents | suffix contents => contents.texts
  | ifBreak broken flat => broken.texts ++ flat.texts
  | empty | softLine | line | hardLine | literalLine | breakParent => []

/-- The texts of documents. -/
def textsOf : List Doc → List String
  | [] => []
  | doc :: rest => doc.texts ++ textsOf rest

end

mutual

/-- The texts of a document that are not put off until a line break. -/
def outerTexts : Doc → List String
  | text content | note content => [content]
  | concat items | alternatives _ items => outerTextsOf items
  | indent contents | group _ contents => contents.outerTexts
  | ifBreak broken flat => broken.outerTexts ++ flat.outerTexts
  | empty | softLine | line | hardLine | literalLine | suffix _ | breakParent => []

/-- The texts of documents that are not put off. -/
def outerTextsOf : List Doc → List String
  | [] => []
  | doc :: rest => doc.outerTexts ++ outerTextsOf rest

end

mutual

/-- The document with the first form for each of its choices. -/
def firstForms : Doc → Doc
  | concat items => concat (firstFormsOf items)
  | indent contents => indent contents.firstForms
  | group breaks contents => group breaks contents.firstForms
  | suffix contents => suffix contents.firstForms
  | alternatives _ [] => empty
  | alternatives _ (option :: _) => option.firstForms
  | ifBreak broken _ => broken.firstForms
  | plain => plain

/-- The documents with the first form for each of their choices. -/
def firstFormsOf : List Doc → List Doc
  | [] => []
  | doc :: rest => doc.firstForms :: firstFormsOf rest

end

mutual

/-- Every document has a resolution. Counterpart of `Doc.Resolves`. -/
theorem resolves_firstForms : ∀ doc : Doc, doc.Resolves doc.firstForms
  | concat items => ⟨_, rfl, allResolve_firstFormsOf items⟩
  | indent contents | group _ contents | suffix contents =>
    ⟨_, rfl, contents.resolves_firstForms⟩
  | alternatives _ [] => .inl ⟨rfl, rfl⟩
  | alternatives _ (option :: _) => .inr (.inl option.resolves_firstForms)
  | ifBreak broken _ => .inl broken.resolves_firstForms
  | empty | text _ | note _ | softLine | line | hardLine | literalLine | breakParent => rfl

/-- The first forms of documents resolve them. Counterpart of `firstFormsOf`. -/
theorem allResolve_firstFormsOf : ∀ docs : List Doc, allResolve docs (firstFormsOf docs)
  | [] => rfl
  | doc :: rest => ⟨_, _, rfl, doc.resolves_firstForms, allResolve_firstFormsOf rest⟩

end

end LuaFormatter.Doc
