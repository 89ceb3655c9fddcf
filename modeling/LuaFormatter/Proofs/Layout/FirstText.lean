import LuaFormatter.Proofs.Comment.Shown
import LuaFormatter.Proofs.Layout.Proceeds

/-!
# The text that a document starts with

`Doc.firstText?` looks at a document without laying it out: into lists and groups, and at the first
form of a choice. `Doc.Opens` is the case that it is right about: the text that it finds is not
empty, and it is the first that is printed of the document, in any mode and any state. A document
opens with a text if its first part does, and a choice if all of its forms open with the same text.
-/

namespace LuaFormatter

open Layout

namespace Doc

/-- The document starts with a text. It is what `firstText?` finds, and in any mode and any state it
is printed first, before anything that comes after the document. -/
structure Opens (doc : Doc) (text : String) : Prop where
  first : doc.firstText? = some text
  filled : text ≠ ""
  printed : ∀ (style : Style) (level : Nat) (mode : Mode) (state : State) (rest : List Command),
    state.commands = ⟨level, mode, doc⟩ :: rest →
    ∃ isNote front later, Proceeds style state (Ink.ofText isNote text.toList) later ∧
      later.commands = front ++ rest ∧ later.suffixes = state.suffixes

namespace Opens

variable {doc part first contents : Doc} {others options : List Doc} {content : String}

/-- A text opens with itself. Counterpart of `Doc.text`. -/
theorem text (h : content ≠ "") : (Doc.text content).Opens content where
  first := if_neg (by simpa using h)
  filled := h
  printed style _ _ _ _ hcommands := ⟨false, [], _, .one style hcommands, rfl, rfl⟩

/-- A note opens with itself. Counterpart of `Doc.note`. -/
theorem note (h : content ≠ "") : (Doc.note content).Opens content where
  first := if_neg (by simpa using h)
  filled := h
  printed style _ _ _ _ hcommands := ⟨true, [], _, .one style hcommands, rfl, rfl⟩

/-- A document opens with a text if it writes nothing itself and what is printed next opens with it,
whatever the state. Counterpart of `Doc.firstText?`. -/
theorem of_next (hfirst : doc.firstText? = some content) (hfilled : content ≠ "")
    (hnext : ∀ (style : Style) (level : Nat) (mode : Mode) (state : State),
      commandInks ⟨level, mode, doc⟩ state = [] ∧
      ∃ part inner inside front, part.Opens content ∧
        (perform style ⟨level, mode, doc⟩ state).commands =
          ⟨inner, inside, part⟩ :: (front ++ state.commands) ∧
        (perform style ⟨level, mode, doc⟩ state).suffixes = state.suffixes) :
    doc.Opens content where
  first := hfirst
  filled := hfilled
  printed style level mode state rest hcommands := by
    obtain ⟨part, inner, inside, front, hopens, hparts, hkept⟩ :=
      (hnext style level mode { state with commands := rest }).2
    obtain ⟨isNote, back, later, hlater, hlast, hsuffixes⟩ :=
      hopens.printed style inner inside _ _ hparts
    have hwritten := Proceeds.performed hcommands hlater
    rw [(hnext style level mode state).1, List.nil_append] at hwritten
    exact ⟨isNote, back ++ front, later,
      hwritten, by rw [hlast, List.append_assoc], hsuffixes.trans hkept⟩

/-- A concatenation opens with what its first part opens with. Counterpart of `Doc.concat`. -/
theorem concat (h : first.Opens content) (others : List Doc) :
    (Doc.concat (first :: others)).Opens content := by
  refine of_next ?_ h.filled fun style level mode state =>
    ⟨rfl, first, level, mode, commandsOf level mode others, h, rfl, rfl⟩
  rw [firstText?, firstTextOf?, h.first, Option.some_or]

/-- Parts one after the other open with what the first part opens with. Counterpart of `Doc.cat`. -/
theorem cat (h : first.Opens content) (others : List Doc) :
    (Doc.cat (first :: others)).Opens content := by
  cases others with
  | nil => exact h
  | cons second others => exact h.concat (second :: others)

/-- A group opens with what its contents open with. Counterpart of `Doc.group`. -/
theorem group (h : contents.Opens content) (breaks : Bool) :
    (Doc.group breaks contents).Opens content := by
  refine of_next h.first h.filled fun style level mode state => ⟨rfl, ?_⟩
  have hinside : ∃ inside, (performGroup style level mode breaks contents state).commands =
      ⟨level, inside, contents⟩ :: state.commands ∧
      (performGroup style level mode breaks contents state).suffixes = state.suffixes := by
    unfold performGroup
    split
    · exact ⟨_, rfl, rfl⟩
    · dsimp only
      split <;> exact ⟨_, rfl, rfl⟩
  obtain ⟨inside, hcommands, hkept⟩ := hinside
  exact ⟨contents, level, inside, [], h, hcommands, hkept⟩

/-- A group of parts opens with what the first one opens with. Counterpart of `Doc.grouped`. -/
theorem grouped (h : first.Opens content) (others : List Doc) :
    (Doc.grouped (first :: others)).Opens content :=
  (h.cat others).group _

/-- Whichever form of a choice is printed, it opens with the same text. Counterpart of
`Doc.alternatives`. -/
theorem alternatives (h : ∀ option ∈ first :: options, option.Opens content) (breaks : Bool) :
    (Doc.alternatives breaks (first :: options)).Opens content := by
  have hfirst := h first List.mem_cons_self
  refine of_next hfirst.first hfirst.filled fun style level mode state => ⟨rfl, ?_⟩
  obtain ⟨last, hlast⟩ : ∃ last, (first :: options).getLast? = some last := ⟨_, List.getLast?_cons⟩
  have hform : ∃ form ∈ first :: options, ∃ inside,
      (performAlternatives style level mode breaks (first :: options) state).commands =
        ⟨level, inside, form⟩ :: state.commands ∧
      (performAlternatives style level mode breaks (first :: options) state).suffixes =
      state.suffixes := by
    have hmem := List.mem_of_getLast? hlast
    simp only [performAlternatives, List.head?_cons, hlast]
    split
    · exact ⟨first, List.mem_cons_self, _, rfl, rfl⟩
    · split
      · exact ⟨last, hmem, _, rfl, rfl⟩
      · split
        · rename_i form hfind
          exact ⟨form, List.mem_of_find?_eq_some hfind, _, rfl, rfl⟩
        · exact ⟨last, hmem, _, rfl, rfl⟩
  obtain ⟨form, hmem, inside, hcommands, hkept⟩ := hform
  exact ⟨form, level, inside, [], h form hmem, hcommands, hkept⟩

end Opens

/-- A text that does not start with a blank is the first that is printed, or its first line is.
Counterpart of `Doc.verbatim`. -/
theorem opens_verbatim {content : List Char} (h : ∃ c ∈ content.head?, isBlank c = false) :
    ∃ text, (Doc.verbatim content).Opens text := by
  obtain ⟨c, hhead, hblank⟩ := h
  unfold Doc.verbatim
  split
  · rename_i hbreak
    obtain ⟨line, second, lines, back, hsplit, hcontent⟩ :=
      @exists_splitOn content (by simpa using hbreak)
    have hline : stripReturn line ≠ [] := by
      rw [hcontent] at hhead
      match line with
      | [] =>
        cases hhead
        cases hblank
      | [d] =>
        cases hhead
        have hreturn : c ≠ '\r' := fun heq => by
          rw [heq] at hblank
          cases hblank
        simp [stripReturn, hreturn]
      | d :: e :: rest =>
        unfold stripReturn
        split <;> simp
    rw [hsplit]
    refine ⟨_, Opens.concat (@Opens.text (String.ofList (stripReturn line)) ?_) _⟩
    simpa using hline
  · refine ⟨_, @Opens.text (String.ofList content) ?_⟩
    have hne : content ≠ [] := by
      rintro rfl
      cases hhead
    simpa using hne

end Doc

end LuaFormatter
