import LuaFormatter.Proofs.Comment.Once
import LuaFormatter.Proofs.Grammar.Parts
import LuaFormatter.Proofs.Spelling.Start
import LuaFormatter.Proofs.Spelling.Texts
import LuaFormatter.Proofs.Spelling.Within

/-!
# Brackets around keys

A bracket with another bracket directly after it opens a long string. So a key that is a long string
is written with blanks around it. A key that only starts with a long string is not, and its bracket
is read as the start of a long string unless a comment is in between (`bracket_format`). No other
key starts with a character that a long bracket has.
-/

namespace LuaFormatter

open Layout

/-! ## First characters -/

/-- Of the tokens that an expression starts with and of comments, only long strings start with a
bracket, and none starts with an equals sign. -/
def Kind.Heads (kind : Kind) (text : List Char) : Prop :=
  kind.startsExpression = true ∨ kind.isComment = true →
    ∃ c rest, text = c :: rest ∧ Scan.isSkipped c = false ∧ c ≠ '=' ∧ (c = '[' ↔ kind = .longString)

/-- A token that an expression starts with is no blank and no equals sign, and starts with a bracket
only if it is a long string. Counterpart of `Kind.startsExpression`. -/
theorem Scan.Reads.heads {kind : Kind} {text : List Char} (h : Reads kind text)
    (hkind : kind.startsExpression = true) :
    ∃ c rest, text = c :: rest ∧ isSkipped c = false ∧ c ≠ '=' ∧
      (c = '[' ↔ kind = .longString) := by
  obtain ⟨c, rest, rfl, hskipped, -⟩ := id h
  obtain ⟨hequal, -, -, hbracket, -⟩ := h.head_expression hkind
  refine ⟨c, rest, rfl, hskipped, hequal, hbracket, ?_⟩
  rintro rfl
  obtain ⟨_, _, htext, -⟩ := h.exists_longString
  exact (List.cons.inj htext).1

/-- A text that is read as a token starts as the tokens of its kind do. Counterpart of
`Kind.Heads`. -/
theorem Kind.heads_of_reads {kind : Kind} {text : List Char} (h : Scan.Reads kind text)
    (hkind : kind.isComment = false) : kind.Heads text := by
  rintro (hstarts | hcomment)
  · exact h.heads hstarts
  · rw [hkind] at hcomment
    cases hcomment

/-- The first character stays when the ends of lines are stripped. Counterpart of `verbatimText`. -/
theorem exists_verbatimText {c : Char} {rest : List Char} (hc : Scan.isSkipped c = false) :
    ∃ others, verbatimText (c :: rest) = c :: others := by
  have hline : c ≠ '\n' := by rintro rfl; cases hc
  have hreturn : c ≠ '\r' := by rintro rfl; cases hc
  unfold verbatimText
  split
  · exact ⟨_, stripLines_cons hline fun heq => absurd heq hreturn⟩
  · exact ⟨rest, rfl⟩

/-- Cutting the ends of lines does not change how a token starts. Counterpart of `verbatimText`. -/
theorem Kind.heads_verbatimText {kind : Kind} {text : List Char} (h : Scan.Reads kind text)
    (hkind : kind.isComment = false) : kind.Heads (verbatimText text) := by
  intro hstarts
  obtain ⟨c, rest, rfl, hc⟩ := heads_of_reads h hkind hstarts
  obtain ⟨others, hothers⟩ := exists_verbatimText hc.1
  exact ⟨c, others, hothers, hc⟩

section
variable {source : List Char} {style : Style}

/-- An attached comment starts with a dash. Counterpart of `Kind.Heads`. -/
theorem heads_comment {attachment : Attachment}
    (h : attachment ∈ (Context.ofProgram (parse source) style).attachments) :
    attachment.comment.kind.Heads attachment.comment.written := by
  have hmarked : ['-', '-'].isPrefixOf attachment.comment.text = true :=
    isMarked_ofProgram source style attachment h
  have hhead : ∃ rest, attachment.comment.written = '-' :: rest := by
    unfold Comment.written
    split
    · obtain ⟨rest, hrest⟩ := List.isPrefixOf_iff_prefix.1 hmarked
      rw [← hrest]
      exact exists_verbatimText rfl
    · obtain ⟨rest, hrest⟩ := List.isPrefixOf_iff_prefix.1 (isPrefixOf_trimEnd hmarked)
      exact ⟨'-' :: rest, hrest.symm⟩
  obtain ⟨rest, hrest⟩ := hhead
  intro _
  refine ⟨'-', rest, hrest, rfl, by decide, nofun, fun heq => ?_⟩
  unfold Comment.kind at heq
  split at heq <;> cases heq

/-- Everything that a program writes besides its tree starts as its kind does. Counterpart of
`Context.Writes`. -/
theorem writes_heads : (Context.ofProgram (parse source) style).Writes Kind.Heads where
  fixed kind hkind := by
    cases kind with
    | symbol mark => exact Kind.heads_of_reads (Scan.reads_symbol mark) rfl
    | keyword word => exact Kind.heads_of_reads (Scan.reads_keyword word) rfl
    | _ => cases hkind
  name name hname _ := by
    unfold isName at hname
    split at hname
    · cases hname
    · rename_i c rest htext
      simp only [Bool.and_eq_true] at hname
      obtain ⟨_, _, heq, hskipped, -⟩ := Scan.reads_word hname.1.1 (List.all_eq_true.1 hname.1.2)
      obtain ⟨rfl, rfl⟩ := List.cons.inj heq
      have hne := @Scan.ne_of_isWordStart c hname.1.1
      exact ⟨c, rest, htext, hskipped, hne '=' rfl, iff_of_false (hne '[' rfl) (by decide)⟩
  comment _ hmem := heads_comment hmem
  shebang _ _ hstarts := by rcases hstarts with hstarts | hstarts <;> cases hstarts

/-- A token of a source is read again from its text. Counterpart of `Program.HasToken`. -/
theorem reads_of_hasToken {token : Token} (h : (parse source).HasToken token)
    (hword : token.kind.isWord = true) :
    Scan.Reads token.kind (Parser.textOf token).toList := by
  rcases h with hmem | rfl
  · rw [Parser.textOf, String.toList_ofList]
    exact Scan.reads_of_mem (List.mem_filter.1 hmem).1 hword
  · cases hword

/-- The texts of the leaves of a tree start as their kinds do, also after requoting. Counterpart of
`Shape.HasText`. -/
theorem heads_leaf {part : Node} (hpart : part.Part (parse source).root) :
    part.shape.HasText style Kind.Heads := by
  have hread := isReadFrom_of_part hpart
  cases hshape : part.shape with
  | identifier name =>
    rw [hshape] at hread
    obtain ⟨token, htoken, hkind, rfl⟩ := hread
    have htext := reads_of_hasToken htoken (by rw [hkind]; rfl)
    rw [hkind] at htext
    exact Kind.heads_of_reads htext rfl
  | literal kind text =>
    rw [hshape] at hread
    obtain ⟨token, htoken, hkind, rfl⟩ := hread
    have hstarts : token.kind.startsExpression = true := by simp [Kind.startsExpression, hkind]
    have htext := reads_of_hasToken htoken (Kind.isWord_of_literalKind? hkind)
    -- Literals of other kinds are no long strings, before and after.
    have hplain : ∀ other : Kind, kind ≠ .longString → other ≠ .longString →
        other.Heads (Parser.textOf token).toList := by
      intro other hlong hother _
      obtain ⟨c, rest, heq, hskipped, hequal, hbracket⟩ := htext.heads hstarts
      refine ⟨c, rest, heq, hskipped, hequal, fun hc => ?_, fun heq => absurd heq hother⟩
      rw [hbracket.1 hc] at hkind
      cases hkind
      exact absurd rfl hlong
    cases kind with
    | string =>
      have hstring : token.kind = .string := by
        unfold Parser.literalKind? at hkind
        split at hkind <;> simp_all
      rw [hstring] at htext
      obtain ⟨quote, content, hquote, hrequote, hcontent, -⟩ := htext.exists_requote style.quotes
      refine Kind.heads_verbatimText ?_ rfl
      rw [hrequote]
      exact Scan.reads_content hquote hcontent
    | longString =>
      have hlong : token.kind = .longString := by
        unfold Parser.literalKind? at hkind
        split at hkind <;> simp_all
      rw [hlong] at htext
      exact Kind.heads_verbatimText htext rfl
    | number | boolean | nil | vararg => exact hplain _ (by simp) (by simp)
  | _ => trivial

/-- The first characters of what is written for a source. Counterpart of `Kind.Heads`. -/
theorem hasTexts_heads (source : List Char) (style : Style) :
    HasTexts Kind.Heads (spell (.ofProgram (parse source) style) {} (parse source).root) :=
  hasTexts_spell writes_heads {} _ fun _ hpart => heads_leaf hpart

end

/-! ## Keys -/

/-- The key that a node writes between brackets, and the place of the key. -/
def Node.bracketedKey? (node : Node) : Option (Place × Node) :=
  match node.shape with
  | .index _ key => some ({}, key)
  | .keyField key _ => if (keyName? key).isSome then none else some (Place.field, key)
  | _ => none

section
variable {context : Context} {place spot : Place} {node key : Node}

/-- The key is that of an index, or a computed one of a table. Counterpart of `bracketedKey?`. -/
theorem bracketedKey?_cases (h : node.bracketedKey? = some (spot, key)) :
    (spot = {} ∧ ∃ base, node.shape = .index base key) ∨
      (spot = Place.field ∧ keyName? key = none ∧ ∃ value, node.shape = .keyField key value) := by
  unfold Node.bracketedKey? at h
  split at h
  · rename_i base key hshape
    cases h
    exact .inl ⟨rfl, base, hshape⟩
  · rename_i key value hshape
    split at h
    · cases h
    · rename_i hname
      cases h
      exact .inr ⟨rfl, Option.not_isSome_iff_eq_none.1 hname, value, hshape⟩
  · cases h

/-- The slots of a bracketed key stand among those of its node. Counterpart of `bracketSlots`. -/
theorem infix_bracketSlots (h : node.bracketedKey? = some (spot, key)) :
    bracketSlots key (spell context spot key) <:+: coreSlots context place node
      (spell context) := by
  rcases bracketedKey?_cases h with ⟨rfl, base, hshape⟩ | ⟨rfl, hname, value, hshape⟩
  · simp only [coreSlots, hshape]
    exact infix_right List.infix_rfl
  · simp only [coreSlots, hshape, hname]
    exact infix_left List.infix_rfl

/-- A key between brackets is the key of its node. Counterpart of `Shape.key?`. -/
theorem key?_of_bracketedKey? (h : node.bracketedKey? = some (spot, key)) :
    node.shape.key? = some key := by
  rcases bracketedKey?_cases h with ⟨-, base, hshape⟩ | ⟨-, -, value, hshape⟩ <;>
    rw [hshape, Shape.key?]

/-- A node with a key between brackets is no string that could become a name. Counterpart of
`keyName?`. -/
theorem keyName?_of_bracketedKey? (h : node.bracketedKey? = some (spot, key)) :
    keyName? node = none := by
  rcases bracketedKey?_cases h with ⟨-, base, hshape⟩ | ⟨-, -, value, hshape⟩ <;>
    simp [keyName?, hshape]

/-- A key between brackets is not accessed or called. Counterpart of `Place.isBase`. -/
theorem isBase_of_bracketedKey? (h : node.bracketedKey? = some (spot, key)) :
    spot.isBase = false := by
  rcases bracketedKey?_cases h with ⟨rfl, -⟩ | ⟨rfl, -⟩ <;> rfl

/-- A bracket is hidden by a key that is an operation and starts with a long string. Counterpart of
`Node.hidesBracket`. -/
theorem hidesBracket_eq (h : node.bracketedKey? = some (spot, key)) :
    node.hidesBracket = (key.shape.isBinary && key.startsWithLongString) := by
  unfold Node.hidesBracket
  rcases bracketedKey?_cases h with ⟨-, base, hshape⟩ | ⟨-, -, value, hshape⟩ <;> simp only [hshape]

/-- What a key starts with decides whether its bracket is hidden, unless it is a long string.
Counterpart of `hidesBracket`. -/
theorem hidesBracket_iff (h : node.bracketedKey? = some (spot, key))
    (hlong : ∀ text, key.shape ≠ .literal .longString text) :
    node.hidesBracket = true ↔ key.startsWithLongString = true := by
  rw [hidesBracket_eq h, Bool.and_eq_true]
  refine ⟨And.right, fun hstarts => ⟨?_, hstarts⟩⟩
  unfold Node.startsWithLongString at hstarts
  split at hstarts
  · exact absurd rfl (hlong _)
  · rfl
  · cases hstarts

end

/-! ## Reading a bracket -/

/-- A bracket is read as such unless another one follows. Counterpart of `Scan.nextToken`. -/
theorem nextToken_leftSquare (atStart : Bool) {c : Char} {rest : List Char} (hc : c ≠ '=') :
    Scan.nextToken atStart '[' (c :: rest) = (.symbol .leftSquare, 0) ↔ c ≠ '[' := by
  constructor
  · rintro hnext rfl
    have hlong : Scan.nextToken atStart '[' ('[' :: rest) = Scan.longString 0 ('[' :: rest) := by
      simp [Scan.nextToken, Scan.bracketLevel?]
    rw [hlong, Scan.longString] at hnext
    split at hnext <;> cases hnext
  · intro hne
    obtain ⟨_, _, heq, -, hread⟩ := Scan.reads_symbol .leftSquare
    obtain ⟨rfl, rfl⟩ := List.cons.inj heq
    refine hread atStart (c :: rest) ?_
    rintro _ ⟨⟩
    have hgoes : Symbol.leftSquare.goesOn c = false :=
      @Symbol.goesOn_eq_false .leftSquare c []
      (Symbol.followers_eq _ (Symbol.mem_all _)) List.not_mem_nil
    simp [Kind.endsBefore, hgoes, hne, hc]

section
variable {queue word : List Mark} {inks : List Ink} {kind : Kind} {c : Char} {text : List Char}

/-- The first character of a token is written before the others. Counterpart of `Flushed`. -/
theorem Flushed.exists_token (hc : c ≠ '\n')
    (h : Flushed queue (kind.marks (c :: text) ++ word) inks) :
    ∃ rest, inks = .char kind.isNote c :: rest ∧ Flushed queue (kind.marks text ++ word) rest := by
  have hmark : kind.marks (c :: text) = .ink (.char kind.isNote c) :: kind.marks text := by
    simp [Kind.marks, hc]
  rw [hmark] at h
  cases h with
  | char _ _ h => exact ⟨_, rfl, h⟩
  | break_ hbreak => cases hbreak
  | flush hbreak => cases hbreak

/-- The first character after a bracket, or after the blank that keeps a long string apart from it.
Counterpart of `bracketSlots`. -/
theorem exists_bracket {key : Node} {slots rest more : List Slot} {pieces : List Piece}
    (hslots : slots = .token kind (c :: text) :: rest) (hc : c ≠ '\n')
    (hpieces : Resolves (bracketSlots key slots ++ more) pieces)
    (h : Flushed queue (pieces.flatMap Piece.marks) inks) :
    ∃ gap after, inks = .char false '[' :: (gap ++ .char kind.isNote c :: after) ∧
      ((gap = [.char false ' '] ∧ key.shape.isBinary = false) ∨
        (gap = [] ∧ ∀ text, key.shape ≠ .literal .longString text)) := by
  subst hslots
  unfold bracketSlots at hpieces
  split at hpieces
  · rename_i hshape
    obtain ⟨_, _, rfl, rfl, _, _, rfl, rfl, _, _, rfl, rfl, -⟩ := hpieces
    obtain ⟨_, rfl, hspace⟩ :=
      @Flushed.exists_token _ _ _ (.symbol .leftSquare) '[' [] (by decide) h
    obtain ⟨_, rfl, hslots⟩ := @Flushed.exists_ofText _ _ _ false [' '] hspace
    obtain ⟨after, rfl, -⟩ := Flushed.exists_token hc hslots
    exact ⟨[.char false ' '], after, rfl, .inl ⟨rfl, by rw [hshape]; rfl⟩⟩
  · rename_i hshape
    obtain ⟨_, _, rfl, rfl, _, _, rfl, rfl, -⟩ := hpieces
    obtain ⟨_, rfl, hslots⟩ :=
      @Flushed.exists_token _ _ _ (.symbol .leftSquare) '[' [] (by decide) h
    obtain ⟨after, rfl, -⟩ := Flushed.exists_token hc hslots
    exact ⟨[], after, rfl, .inr ⟨rfl, hshape⟩⟩

end

/-- Where the brackets around a key are in the output of a source: pieces from a place on fill them
in, and so the text from there on is that of a bracket. -/
structure Bracketed (source : List Char) (style : Style) (place : Place) (key : Node)
    (front back : List Piece) (before after : List Ink) : Prop where
  filledIn : FilledIn (spell (.ofProgram (parse source) style) {} (parse source).root)
    (bracketSlots key (spell (.ofProgram (parse source) style) place key)) front back
  laid : ∃ pending, Laid [] (front.flatMap Piece.marks) before (Mark.ofInks pending) ∧
    Flushed (Mark.ofInks pending) (back.flatMap Piece.marks) (.char false '[' :: after)
  format_eq : format source style = render style before ++ '[' :: render style after

/-- A key starts with a token that no long bracket goes on with, unless the key starts with a long
string and no comment comes first. Counterpart of `bracketSlots`. -/
theorem exists_head_key {source : List Char} (h : (parse source).isValid = true) {style : Style}
    {place : Place} {part key : Node} (hpart : part.Part (parse source).root)
    (hkey : part.bracketedKey? = some (place, key))
    (hwhole : spell (.ofProgram (parse source) style) place key <:+:
      spell (.ofProgram (parse source) style) {} (parse source).root) :
    ∃ kind c text rest,
      spell (.ofProgram (parse source) style) place key = .token kind (c :: text) :: rest ∧
        Scan.isSkipped c = false ∧ c ≠ '=' ∧
        (c = '[' ↔ key.startsWithLongString = true ∧
          (Context.ofProgram (parse source) style).commentsBefore (key.starters place) = []) := by
  obtain ⟨_, _, _, hderives⟩ := (readsParts_of_part h hpart).key key (key?_of_bracketedKey? hkey)
  obtain ⟨kind, text, rest, hslots, hkind⟩ :=
    (hderives.starts (.inl rfl) rfl (.ofProgram (parse source) style) place).spell.exists_token
  have hheads : kind.Heads text :=
    hasTexts_heads source style (.token kind text) (hwhole.subset (hslots ▸ List.mem_cons_self))
  obtain ⟨hstarts, hlong⟩ := hderives.startKind place
  have hplace := isBase_of_bracketedKey? hkey
  rcases hkind with ⟨hnone, rfl⟩ | ⟨hsome, hcomment⟩
  · obtain ⟨c, others, rfl, hskipped, hequal, hbracket⟩ := hheads (.inl hstarts)
    refine ⟨_, c, others, rest, hslots, hskipped, hequal,
      hbracket.trans ⟨fun hkind => ?_, fun hboth => ?_⟩⟩
    · exact ⟨hlong hkind, hnone⟩
    · exact Node.startKind_of_startsWithLongString hboth.1 hplace
  · obtain ⟨c, others, rfl, hskipped, hequal, hbracket⟩ := hheads (.inr hcomment)
    refine ⟨_, c, others, rest, hslots, hskipped, hequal, hbracket.trans (iff_of_false ?_ ?_)⟩
    · rintro rfl
      cases hcomment
    · exact fun hboth => hsome hboth.2

/-- The bracket before a key is read as a bracket, unless the key is an operation that starts with a
long string and no comment stands in between. Counterpart of `bracketed` and `Shape.index`. -/
theorem bracket_format {source : List Char} (h : (parse source).isValid = true) (style : Style)
    {part : Node} (hpart : part.Part (parse source).root) {place : Place} {key : Node}
    (hkey : part.bracketedKey? = some (place, key)) :
    ∃ front back before after, Bracketed source style place key front back before after ∧
      (Scan.nextToken false '[' (render style after) = (.symbol .leftSquare, 0) ↔
        (part.hidesBracket = true →
          (Context.ofProgram (parse source) style).commentsBefore (key.starters place) ≠ [])) := by
  obtain ⟨pieces, inks, hwritten⟩ := exists_written source style
  obtain ⟨spot, hwhole⟩ := exists_infix_root h style hpart (keyName?_of_bracketedKey? hkey)
  have hbrackets := (infix_bracketSlots hkey).trans hwhole
  obtain ⟨kind, c, text, rest, hslots, hskipped, hequal, hbracket⟩ :=
    exists_head_key h hpart hkey ((infix_brackets key _).trans hbrackets)
  -- The pieces and the inks from the bracket on.
  obtain ⟨front, back, rfl, hfilled⟩ := exists_filledIn hbrackets hwritten.resolves
  obtain ⟨before, pending, tail, rfl, hlaid, htail⟩ := hwritten.cut
  obtain ⟨_, _, -, -, hback⟩ := id hfilled
  have hline : c ≠ '\n' := by rintro rfl; cases hskipped
  obtain ⟨gap, after, rfl, hgap⟩ := exists_bracket hslots hline hback htail
  have hblank : (c == ' ' || c == '\t') = false := by
    rw [Bool.eq_false_iff]
    intro hc
    rcases Bool.or_eq_true_iff.1 hc with hc | hc <;> (obtain rfl := eq_of_beq hc; cases hskipped)
  refine ⟨front, back, before, gap ++ .char kind.isNote c :: after,
    ⟨hfilled, ⟨pending, hlaid, htail⟩, ?_⟩, ?_⟩
  · rw [hwritten.format_eq, render_char rfl]
  rw [render_char hblank]
  rcases hgap with ⟨rfl, hbinary⟩ | ⟨rfl, hlong⟩
  · -- A blank comes first.
    have hrender : render style [.char false ' '] = [' '] := by simp [render, Ink.put]
    rw [hrender, hidesBracket_eq hkey, hbinary]
    exact iff_of_true ((@nextToken_leftSquare false ' ' _ (by decide)).2 (by decide))
      fun hhides => absurd hhides Bool.false_ne_true
  · have hrender : render style [] = [] := rfl
    rw [hrender, List.nil_append, nextToken_leftSquare false hequal, hidesBracket_iff hkey hlong,
      ne_eq, hbracket, not_and]

/-- The bracket of a computed key that starts with a long string is not read as a bracket. -/
theorem bracket_format_hidden :
    let source := "t = { [ [[k]] .. s ] = 1 }".toList
    ∃ (part : Node) (place : Place) (key : Node), part.Part (parse source).root ∧
      part.bracketedKey? = some (place, key) ∧
      ∃ front back before after, Bracketed source {} place key front back before after ∧
        Scan.nextToken false '[' (render {} after) ≠ (.symbol .leftSquare, 0) := by
  intro source
  have hfacts : (parse source).isValid = true ∧ (parse source).comments = [] ∧
      (parse source).root.preorder.any (fun part =>
        part.bracketedKey?.isSome && part.hidesBracket) = true := by
    decide +kernel
  obtain ⟨hvalid, hcomments, hkeys⟩ := hfacts
  obtain ⟨part, hmem, hfound⟩ := List.any_eq_true.1 hkeys
  have hpart := Node.mem_preorder.1 hmem
  obtain ⟨hsome, hhides⟩ := Bool.and_eq_true_iff.1 hfound
  obtain ⟨⟨place, key⟩, hkey⟩ := Option.isSome_iff_exists.1 hsome
  obtain ⟨front, back, before, after, hbracketed, hread⟩ := bracket_format hvalid {} hpart hkey
  refine ⟨part, place, key, hpart, hkey, front, back, before, after, hbracketed, ?_⟩
  have hcontext : (Context.ofProgram (parse source) {}).attachments = [] :=
    List.map_eq_nil_iff.1 ((map_comment_attachments _).trans hcomments)
  rw [ne_eq, hread]
  intro himp
  exact himp hhides (by simp [Context.commentsBefore, Context.placed, owned_eq_nil hcontext])

/-- No bracket is left in what is written for it. -/
theorem leftSquare_notMem_format :
    let source := "t = { [ [[k]] .. s ] = 1 }".toList
    (parse source).isValid = true ∧
    .symbol .leftSquare ∉ (tokenise (format source {})).map Token.kind := by
  decide +kernel

end LuaFormatter
