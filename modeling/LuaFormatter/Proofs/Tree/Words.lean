import LuaFormatter.Proofs.Grammar.Positions
import LuaFormatter.Proofs.Tree.Language

/-!
# The words of a tree

One way to write a tree down: the words of its nodes in their order, with one pair of parentheses
around each node that has them, a comma between the items of a list, and a semicolon between
statements. Nothing else is added, so that the tree alone fixes its words.
-/

namespace LuaFormatter

/-- The word of a symbol. -/
def Symbol.word (mark : Symbol) : Word :=
  .ofKind (.symbol mark)

/-- The word of a keyword. -/
def Keyword.word (word : Keyword) : Word :=
  .ofKind (.keyword word)

/-- The kind of the token of a literal. -/
def LiteralKind.tokenKind (text : String) : LiteralKind → Kind
  | string => .string
  | longString => .longString
  | number => .number
  | boolean => .keyword (if text = "true" then .trueK else .falseK)
  | nil => .keyword .nilK
  | vararg => .symbol .dotDotDot

/-- The token of a literal is read as that literal. Counterpart of `Parser.literalKind?`. -/
theorem LiteralKind.literalKind?_tokenKind (kind : LiteralKind) (text : String) :
    Parser.literalKind? (kind.tokenKind text) = some kind := by
  cases kind with
  | boolean =>
    rw [tokenKind]
    split <;> rfl
  | _ => rfl

namespace Node

mutual

/-- The words of a node, in parentheses if it has them. -/
def words : Node → List Word
  | mk _ shape _ inParens =>
    if inParens then Symbol.leftParen.word :: (shapeWords shape ++ [Symbol.rightParen.word])
    else shapeWords shape

/-- The words of a shape. -/
@[simp] def shapeWords : Shape Node → List Word
  | .chunk body => listWords [Symbol.semicolon.word] body
  | .localVariables names values =>
    Keyword.localK.word :: (listWords [Symbol.comma.word] names ++
      if values.isEmpty then []
      else Symbol.equal.word :: listWords [Symbol.comma.word] values)
  | .assignment targets values =>
    listWords [Symbol.comma.word] targets ++
      Symbol.equal.word :: listWords [Symbol.comma.word] values
  | .callStatement expression => words expression
  | .function isLocal name parameters body =>
    (if isLocal then [Keyword.localK.word] else []) ++
      Keyword.functionK.word :: (optionWords [] [] name ++
        Symbol.leftParen.word :: (listWords [Symbol.comma.word] parameters ++
          Symbol.rightParen.word :: (listWords [Symbol.semicolon.word] body ++
            [Keyword.endK.word])))
  | .conditional clauses => listWords [] clauses ++ [Keyword.endK.word]
  | .clause kind condition body =>
    kind.keyword.word :: (optionWords [] [Keyword.thenK.word] condition ++
      listWords [Symbol.semicolon.word] body)
  | .whileLoop condition body =>
    Keyword.whileK.word :: (words condition ++
      Keyword.doK.word :: (listWords [Symbol.semicolon.word] body ++ [Keyword.endK.word]))
  | .doBlock body =>
    Keyword.doK.word :: (listWords [Symbol.semicolon.word] body ++ [Keyword.endK.word])
  | .repeatLoop body condition =>
    Keyword.repeatK.word :: (listWords [Symbol.semicolon.word] body ++
      Keyword.untilK.word :: words condition)
  | .numericFor counter first last step body =>
    Keyword.forK.word :: (words counter ++
      Symbol.equal.word :: (words first ++
        Symbol.comma.word :: (words last ++
          (optionWords [Symbol.comma.word] [] step ++
            Keyword.doK.word :: (listWords [Symbol.semicolon.word] body ++
              [Keyword.endK.word])))))
  | .genericFor names iterators body =>
    Keyword.forK.word :: (listWords [Symbol.comma.word] names ++
      Keyword.inK.word :: (listWords [Symbol.comma.word] iterators ++
        Keyword.doK.word :: (listWords [Symbol.semicolon.word] body ++ [Keyword.endK.word])))
  | .returnStatement values =>
    Keyword.returnK.word :: listWords [Symbol.comma.word] values
  | .breakStatement => [Keyword.breakK.word]
  | .gotoStatement label => Keyword.gotoK.word :: words label
  | .labelStatement label =>
    Symbol.colonColon.word :: (words label ++ [Symbol.colonColon.word])
  | .identifier name => [(.identifier, name.toList)]
  | .literal kind text => [(kind.tokenKind text, text.toList)]
  | .table fields =>
    Symbol.leftCurly.word :: (listWords [Symbol.comma.word] fields ++ [Symbol.rightCurly.word])
  | .keyField key value =>
    Symbol.leftSquare.word :: (words key ++
      Symbol.rightSquare.word :: Symbol.equal.word :: words value)
  | .nameField name value => words name ++ Symbol.equal.word :: words value
  | .valueField value => words value
  | .binary op left right => words left ++ .ofKind op.kind :: words right
  | .unary op operand => .ofKind op.kind :: words operand
  | .member indexer base name => words base ++ indexer.symbol.word :: words name
  | .index base key =>
    words base ++ Symbol.leftSquare.word :: (words key ++ [Symbol.rightSquare.word])
  | .call base arguments =>
    words base ++ Symbol.leftParen.word :: (listWords [Symbol.comma.word] arguments ++
      [Symbol.rightParen.word])
  | .tableCall base argument | .stringCall base argument => words base ++ words argument
  | .invalid => []

/-- The words of nodes with a separator between them. -/
def listWords (separator : List Word) : List Node → List Word
  | [] => []
  | node :: rest =>
    words node ++ ((if rest.isEmpty then [] else separator) ++ listWords separator rest)

/-- The words of a node that may be missing, with what stands before and after it. -/
@[simp] def optionWords (before after : List Word) : Option Node → List Word
  | none => []
  | some node => before ++ (words node ++ after)

end

@[simp] theorem words_open (number : Nat) (shape : Shape Node) (span : Span) :
    (mk number shape span false).words = shapeWords shape :=
  rfl

@[simp] theorem words_parenthesised (number : Nat) (shape : Shape Node) (span : Span) :
    (mk number shape span true).words =
      Symbol.leftParen.word :: (shapeWords shape ++ [Symbol.rightParen.word]) :=
  rfl

section
variable (separator : List Word) (node : Node)

@[simp] theorem listWords_nil : listWords separator [] = [] := by
  rw [listWords]

@[simp] theorem listWords_single : listWords separator [node] = node.words := by
  rw [listWords, listWords]
  simp

/-- The words of a first node, the separator, and those of the others. Counterpart of
`listWords`. -/
theorem listWords_cons {nodes : List Node} (hne : nodes ≠ []) :
    listWords separator (node :: nodes) =
      node.words ++ (separator ++ listWords separator nodes) := by
  rw [listWords, if_neg (by simpa using hne)]

end

end Node

/-! ## Tokens of words -/

section
variable {t : Token}

/-- A token has the kind of its word. Counterpart of `Token.content`. -/
theorem Token.kind_eq {word : Word} (h : t.content = word) : t.kind = word.1 :=
  congrArg Prod.fst h

/-- The text of a token that has a content. Counterpart of `Parser.textOf`. -/
theorem textOf_eq {kind : Kind} {text : String} (h : t.content = (kind, text.toList)) :
    Parser.textOf t = text := by
  have hlexeme : t.lexeme = text.toList := congrArg Prod.snd h
  rw [Parser.textOf, hlexeme, String.ofList_toList]

end

end LuaFormatter
