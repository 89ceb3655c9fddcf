import LuaFormatter.Proofs.Layout.Cosmetic
import LuaFormatter.Proofs.Layout.Proceeds

/-!
# Flat groups

A group that need not break may be printed flat, and then what is in it must not break the line:
`fits` has measured it up to the end of the group. `Doc.staysFlat` says that flat printing meets no
line break, nothing that asks for one and nothing that is put off, and `StaysOnLine.of_staysFlat`
follows the steps of the layout over such a document. Whether a document breaks is only known from
what it says of itself (`Doc.willBreak`), and a choice between forms hides what is in them.
`Doc.Announces` is what a builder of documents has to keep: no break is hidden in a form that flat
printing takes.
-/

namespace LuaFormatter

namespace Doc

/-- The document is a part of another one, in whichever of its forms, or is all of it. -/
inductive Within (part : Doc) : Doc → Prop
  | self : Within part part
  | item {items : List Doc} {item : Doc} : item ∈ items → Within part item →
      Within part (concat items)
  | indent {contents : Doc} : Within part contents → Within part (indent contents)
  | group {breaks : Bool} {contents : Doc} :
      Within part contents → Within part (group breaks contents)
  | option {breaks : Bool} {options : List Doc} {option : Doc} :
    option ∈ options → Within part option → Within part (alternatives breaks options)
  | broken {broken flat : Doc} : Within part broken → Within part (ifBreak broken flat)
  | flat {broken flat : Doc} : Within part flat → Within part (ifBreak broken flat)
  | suffix {contents : Doc} : Within part contents → Within part (suffix contents)

/-- A part of a part is a part. Counterpart of `Within`. -/
theorem Within.trans {inner part doc : Doc} (h : Within inner part) (hpart : Within part doc) :
    Within inner doc := by
  induction hpart with
  | self => exact h
  | item hitem _ ih => exact .item hitem ih
  | indent _ ih => exact .indent ih
  | group _ ih => exact .group ih
  | option hoption _ ih => exact .option hoption ih
  | broken _ ih => exact .broken ih
  | flat _ ih => exact .flat ih
  | suffix _ ih => exact .suffix ih

mutual

/-- Flat printing takes no line break, nothing that forces one and nothing that is put off. It takes
the first form of a choice. -/
def staysFlat : Doc → Bool
  | empty | text _ | note _ | softLine | line => true
  | hardLine | literalLine | breakParent | suffix _ | group true _ | alternatives true _ => false
  | concat items => allStayFlat items
  | indent contents | group false contents | ifBreak _ contents => staysFlat contents
  | alternatives false [] => true
  | alternatives false (first :: _) => staysFlat first

/-- All of the documents stay flat. -/
def allStayFlat : List Doc → Bool
  | [] => true
  | doc :: rest => staysFlat doc && allStayFlat rest

end

/-- Documents stay flat if each of them does. Counterpart of `allStayFlat`. -/
theorem allStayFlat_eq (docs : List Doc) : allStayFlat docs = docs.all staysFlat := by
  induction docs with
  | nil => rfl
  | cons doc rest ih => rw [allStayFlat, ih, List.all_cons]

@[simp] theorem willBreak_concat (docs : List Doc) :
    (concat docs).willBreak = docs.any willBreak := by
  rw [willBreak, anyWillBreak_eq]

@[simp] theorem willBreak_cat (docs : List Doc) : (cat docs).willBreak = docs.any willBreak := by
  match docs with
  | [] => rfl
  | [doc] => rw [cat, List.any_cons, List.any_nil, Bool.or_false]
  | _ :: _ :: _ => exact willBreak_concat _

/-- Documents with a separator between them break if one of them does. Counterpart of `Doc.join`. -/
theorem willBreak_join {separator : Doc} (hseparator : separator.willBreak = false)
    (docs : List Doc) :
    (join separator docs).willBreak = docs.any willBreak := by
  rw [join, willBreak_concat]
  match docs with
  | [] | [_] => rfl
  | first :: second :: rest =>
    have hrest := willBreak_join hseparator (second :: rest)
    rw [join, willBreak_concat] at hrest
    rw [List.intersperse_cons_cons, List.any_cons, List.any_cons, hrest, hseparator, Bool.false_or,
      List.any_cons (a := first)]

/-- What a part of a document must be: a text holds no line break, and what is in a group that need
not break stays flat. -/
def IsSafe : Doc → Prop
  | text content | note content => '\n' ∉ content.toList
  | group false contents => contents.staysFlat = true
  | _ => True

/-- No break is hidden: the parts of the document are safe, and if it says that it does not break,
it stays flat. -/
structure Announces (doc : Doc) : Prop where
  parts : ∀ part, Within part doc → part.IsSafe
  whole : doc.willBreak = false → doc.staysFlat = true

namespace Announces

variable {doc contents broken flat first separator : Doc} {docs items options : List Doc}
  {content : String}
  {breaks : Bool}

/-- A document without parts hides no break if it says of itself whether it breaks. Counterpart of
`Announces`. -/
theorem of_leaf (hsafe : doc.IsSafe) (hparts : ∀ part, Within part doc → part = doc)
    (hwhole : doc.willBreak = false → doc.staysFlat = true) : doc.Announces where
  parts part hpart := (hparts part hpart).symm ▸ hsafe
  whole := hwhole

@[simp] theorem empty : Doc.empty.Announces :=
  of_leaf trivial (fun _ hpart => by cases hpart; rfl) fun _ => rfl

@[simp] theorem softLine : Doc.softLine.Announces :=
  of_leaf trivial (fun _ hpart => by cases hpart; rfl) fun _ => rfl

@[simp] theorem line : Doc.line.Announces :=
  of_leaf trivial (fun _ hpart => by cases hpart; rfl) fun _ => rfl

@[simp] theorem hardLine : Doc.hardLine.Announces :=
  of_leaf trivial (fun _ hpart => by cases hpart; rfl) nofun

@[simp] theorem literalLine : Doc.literalLine.Announces :=
  of_leaf trivial (fun _ hpart => by cases hpart; rfl) nofun

@[simp] theorem breakParent : Doc.breakParent.Announces :=
  of_leaf trivial (fun _ hpart => by cases hpart; rfl) nofun

@[simp] theorem text_iff : (Doc.text content).Announces ↔ '\n' ∉ content.toList where
  mp h := h.parts _ .self
  mpr h := of_leaf h (fun _ hpart => by cases hpart; rfl) fun _ => rfl

@[simp] theorem note_iff : (Doc.note content).Announces ↔ '\n' ∉ content.toList where
  mp h := h.parts _ .self
  mpr h := of_leaf h (fun _ hpart => by cases hpart; rfl) fun _ => rfl

/-- A concatenation hides no break if its parts do not. Counterpart of `Doc.concat`. -/
theorem concat (h : ∀ item ∈ items, item.Announces) : (Doc.concat items).Announces where
  parts part hpart := by
    cases hpart with
    | self => trivial
    | item hitem hpart => exact (h _ hitem).parts part hpart
  whole hbreak := by
    rw [willBreak, anyWillBreak_eq, List.any_eq_false] at hbreak
    rw [staysFlat, allStayFlat_eq, List.all_eq_true]
    exact fun item hitem => (h item hitem).whole (by simpa using hbreak item hitem)

/-- Parts one after the other hide no break if each of them does not. Counterpart of `Doc.cat`. -/
theorem cat (h : ∀ item ∈ items, item.Announces) : (Doc.cat items).Announces := by
  match items with
  | [] => exact empty
  | [item] => exact h item (List.mem_singleton_self item)
  | _ :: _ :: _ => exact concat h

/-- An indentation hides no break if what is in it does not. Counterpart of `Doc.indent`. -/
theorem indent (h : contents.Announces) : (Doc.indent contents).Announces where
  parts part hpart := by
    cases hpart with
    | self => trivial
    | indent hpart => exact h.parts part hpart
  whole := h.whole

/-- An indentation of parts hides no break if they do not. Counterpart of `Doc.indented`. -/
theorem indented (h : ∀ item ∈ items, item.Announces) : (Doc.indented items).Announces :=
  indent (cat h)

/-- A group breaks if its contents say that they do. Counterpart of `Doc.groupedIf`. -/
theorem groupedIf (breaks : Bool) (h : ∀ item ∈ items, item.Announces) :
    (Doc.groupedIf breaks items).Announces where
  parts part hpart := by
    unfold Doc.groupedIf at hpart
    cases hpart with
    | self =>
      cases hbreaks : breaks || (Doc.cat items).willBreak with
      | true =>
        dsimp only
        rw [hbreaks]
        trivial
      | false =>
        dsimp only
        rw [hbreaks]
        exact (cat h).whole (Bool.or_eq_false_iff.1 hbreaks).2
    | group hpart => exact (cat h).parts part hpart
  whole hbreak := by
    simp only [Doc.groupedIf, willBreak] at hbreak
    simp only [Doc.groupedIf, hbreak]
    exact (cat h).whole (Bool.or_eq_false_iff.1 hbreak).2

/-- A group of parts hides no break if they do not. Counterpart of `Doc.grouped`. -/
theorem grouped (h : ∀ item ∈ items, item.Announces) : (Doc.grouped items).Announces :=
  groupedIf false h

/-- A choice by the mode of its group hides no break if its forms do not. Counterpart of
`Doc.ifBreak`. -/
theorem ifBreak (hbroken : broken.Announces) (hflat : flat.Announces) :
    (Doc.ifBreak broken flat).Announces where
  parts part hpart := by
    cases hpart with
    | self => trivial
    | broken hpart => exact hbroken.parts part hpart
    | flat hpart => exact hflat.parts part hpart
  whole hbreak := hflat.whole (Bool.or_eq_false_iff.1 hbreak).1

/-- A part that is put off says that it breaks. Counterpart of `Doc.suffix`. -/
theorem suffix (h : contents.Announces) (hbreak : contents.willBreak = true) :
    (Doc.suffix contents).Announces where
  parts part hpart := by
    cases hpart with
    | self => trivial
    | suffix hpart => exact h.parts part hpart
  whole hflat := absurd (hbreak.symm.trans hflat) nofun

/-- A part that is put off may say nothing when what stands next to it says that it breaks.
Counterpart of `Doc.suffix` beside `Doc.breakParent`. -/
theorem suffix_breakParent (h : contents.Announces) :
    (Doc.concat [.suffix contents, .breakParent]).Announces where
  parts part hpart := by
    cases hpart with
    | self => trivial
    | item hitem hpart =>
      simp only [List.mem_cons, List.not_mem_nil, or_false] at hitem
      obtain rfl | rfl := hitem
      · cases hpart with
        | self => trivial
        | suffix hpart => exact h.parts part hpart
      · exact breakParent.parts part hpart
  whole hflat := by simp [willBreak, anyWillBreak] at hflat

/-- A choice hides what its forms say, so it must say itself that the first of them breaks.
Counterpart of `Doc.alternatives`. -/
theorem alternatives (h : ∀ option ∈ first :: options, option.Announces)
    (hfirst : breaks = false → first.willBreak = false) :
    (Doc.alternatives breaks (first :: options)).Announces where
  parts part hpart := by
    cases hpart with
    | self => trivial
    | option hoption hpart => exact (h _ hoption).parts part hpart
  whole hbreak := by
    obtain rfl : breaks = false := hbreak
    exact (h first List.mem_cons_self).whole (hfirst rfl)

/-- A choice need say nothing when what stands before it says that it breaks. Counterpart of
`Doc.alternatives` behind `Doc.breakParent`. -/
theorem breakParent_cat (h : ∀ option ∈ options, option.Announces) :
    (Doc.cat [.breakParent, .alternatives breaks options]).Announces where
  parts part hpart := by
    cases hpart with
    | self => trivial
    | item hitem hpart =>
      simp only [List.mem_cons, List.not_mem_nil, or_false] at hitem
      obtain rfl | rfl := hitem
      · exact breakParent.parts part hpart
      · cases hpart with
        | self => trivial
        | option hoption hpart => exact (h _ hoption).parts part hpart
  whole hflat := by simp [Doc.cat, willBreak] at hflat

/-- Documents with a separator between them hide no break. Counterpart of `List.intersperse`. -/
theorem intersperse (hseparator : separator.Announces) :
    ∀ {docs : List Doc}, (∀ doc ∈ docs, doc.Announces) → ∀ item ∈ docs.intersperse separator,
      item.Announces
  | [], _ => nofun
  | [last], h => by simpa using h last (List.mem_singleton_self last)
  | first :: second :: rest, h => by
    rw [List.intersperse_cons_cons, List.forall_mem_cons, List.forall_mem_cons]
    exact ⟨h first List.mem_cons_self, hseparator,
      intersperse hseparator fun doc hdoc => h doc (List.mem_cons_of_mem _ hdoc)⟩

/-- Documents joined with a separator hide no break. Counterpart of `Doc.join`. -/
theorem join (hseparator : separator.Announces) (h : ∀ doc ∈ docs, doc.Announces) :
    (Doc.join separator docs).Announces :=
  concat (intersperse hseparator h)

end Announces

end Doc

namespace Layout

/-- The ink does not leave the line. -/
def Ink.IsInLine (ink : Ink) : Prop :=
  ink.isBreak = false ∧ ink.IsPlain

section
variable {style : Style} {state next : State} {parts front back rest : List Command} {level : Nat}
  {mode : Mode}
  {doc : Doc}

/-- Commands that come next, when nothing is to be measured again, are printed without leaving the
line and without putting anything off. -/
def StaysOnLine (style : Style) (commands : List Command) : Prop :=
  ∀ state rest, state.commands = commands ++ rest → state.remeasure = false →
    ∃ inks later, Proceeds style state inks later ∧ later.commands = rest ∧
      later.suffixes = state.suffixes ∧ later.remeasure = false ∧ ∀ ink ∈ inks, ink.IsInLine

/-- The empty list of commands stays on the line. Counterpart of `StaysOnLine`. -/
theorem StaysOnLine.nil : StaysOnLine style [] :=
  fun state _ hcommands hmeasured => ⟨[], state, .refl state, hcommands, rfl, hmeasured, nofun⟩

/-- Commands one after the other stay on the line if both do. Counterpart of `StaysOnLine`. -/
theorem StaysOnLine.append (hfront : StaysOnLine style front) (hback : StaysOnLine style back) :
    StaysOnLine style (front ++ back) := by
  intro state rest hcommands hmeasured
  obtain ⟨inks, between, hbetween, hnext, hkept, hmeasured, hinks⟩ :=
    hfront state (back ++ rest) (hcommands.trans (List.append_assoc ..)) hmeasured
  obtain ⟨others, later, hlater, hlast, hkept', hmeasured, hothers⟩ :=
    hback between rest hnext hmeasured
  exact ⟨inks ++ others, later, hbetween.trans hlater, hlast, hkept'.trans hkept, hmeasured,
    List.forall_mem_append.2 ⟨hinks, hothers⟩⟩

/-- A command stays on the line if what it is replaced with does, and if what it writes itself does.
Counterpart of `step`. -/
theorem StaysOnLine.of_step (h : StaysOnLine style parts)
    (hperform : ∀ state : State, state.remeasure = false →
      (perform style ⟨level, .flat, doc⟩ state).commands = parts ++ state.commands ∧
      (perform style ⟨level, .flat, doc⟩ state).suffixes = state.suffixes ∧
      (perform style ⟨level, .flat, doc⟩ state).remeasure = false ∧
      ∀ ink ∈ commandInks ⟨level, .flat, doc⟩ state, ink.IsInLine) :
    StaysOnLine style [⟨level, .flat, doc⟩] := by
  intro state rest hcommands hmeasured
  obtain ⟨hnext, hkept, hstill, -⟩ := hperform { state with commands := rest } hmeasured
  obtain ⟨inks, later, hlater, hlast, hkept', hmeasured', hline⟩ := h _ rest hnext hstill
  exact ⟨_, later, .performed hcommands hlater, hlast, hkept'.trans hkept, hmeasured',
    List.forall_mem_append.2 ⟨(hperform state hmeasured).2.2.2, hline⟩⟩

/-- A text without line feeds stays on the line. Counterpart of `Ink.ofText`. -/
theorem isInLine_ofText {isNote : Bool} {content : List Char} (h : '\n' ∉ content) :
    ∀ ink ∈ Ink.ofText isNote content, ink.IsInLine := by
  intro ink hink
  obtain ⟨c, hc, rfl⟩ := List.mem_map.1 hink
  refine ⟨rfl, fun _ heq => h ?_⟩
  cases heq
  exact hc

mutual

/-- A document that stays flat is printed flat without leaving the line. Counterpart of
`Doc.staysFlat`. -/
theorem StaysOnLine.of_staysFlat (level : Nat) :
    ∀ {doc : Doc}, doc.staysFlat = true → (∀ part : Doc, part.Within doc → part.IsSafe) →
      StaysOnLine style [⟨level, .flat, doc⟩]
  | .empty, _, _ | .softLine, _, _ => .of_step .nil fun _ h => ⟨rfl, rfl, h, nofun⟩
  | .line, _, _ => .of_step .nil fun _ h => ⟨rfl, rfl, h, @isInLine_ofText false [' '] (by decide)⟩
  | .text _, _, hsafe | .note _, _, hsafe =>
    .of_step .nil fun _ h => ⟨rfl, rfl, h, isInLine_ofText (hsafe _ .self)⟩
  | .concat items, h, hsafe =>
    .of_step (StaysOnLine.of_allStayFlat level h fun item hitem part hpart =>
      hsafe part (.item hitem hpart)) fun _ h => ⟨rfl, rfl, h, nofun⟩
  | .indent contents, h, hsafe => by
    refine @StaysOnLine.of_step _ [⟨deeper level, .flat, contents⟩] _ _ ?_ fun _ h =>
      ⟨rfl, rfl, h, nofun⟩
    exact StaysOnLine.of_staysFlat (deeper level) h fun part hpart => hsafe part (.indent hpart)
  | .ifBreak broken flat, h, hsafe => by
    refine @StaysOnLine.of_step _ [⟨level, .flat, flat⟩] _ _ ?_ fun _ h => ⟨rfl, rfl, h, nofun⟩
    exact StaysOnLine.of_staysFlat level h fun part hpart => hsafe part (.flat hpart)
  | .group false contents, h, hsafe => by
    refine @StaysOnLine.of_step _ [⟨level, .flat, contents⟩] _ _ ?_ fun state h => ?_
    · exact StaysOnLine.of_staysFlat level h fun part hpart => hsafe part (.group hpart)
    · simp [perform, performGroup, h, State.push, Mode.inside, commandInks]
  | .alternatives false [], _, _ =>
    .of_step .nil fun _ h => ⟨rfl, rfl, h, nofun⟩
  | .alternatives false (first :: options), h, hsafe => by
    refine @StaysOnLine.of_step _ [⟨level, .flat, first⟩] _ _ ?_ fun state h => ?_
    · exact StaysOnLine.of_staysFlat level h fun part hpart =>
        hsafe part (.option List.mem_cons_self hpart)
    · obtain ⟨last, hlast⟩ : ∃ last, (first :: options).getLast? = some last :=
        ⟨_, List.getLast?_cons⟩
      simp [perform, performAlternatives, hlast, h, State.push, Mode.inside, commandInks]

/-- Documents that stay flat are printed flat without leaving the line. Counterpart of
`Doc.allStayFlat`. -/
theorem StaysOnLine.of_allStayFlat (level : Nat) :
    ∀ {docs : List Doc}, Doc.allStayFlat docs = true →
      (∀ doc ∈ docs, ∀ part : Doc, part.Within doc → part.IsSafe) →
      StaysOnLine style (commandsOf level .flat docs)
  | [], _, _ => .nil
  | doc :: rest, h, hsafe => by
    rw [Doc.allStayFlat, Bool.and_eq_true] at h
    have hrest : ∀ other ∈ rest, ∀ part : Doc, part.Within other → part.IsSafe :=
      fun other hother => hsafe other (List.mem_cons_of_mem _ hother)
    exact @StaysOnLine.append _ [⟨level, .flat, doc⟩] _
      (StaysOnLine.of_staysFlat level h.1 (hsafe doc List.mem_cons_self))
      (StaysOnLine.of_allStayFlat level h.2 hrest)

end

/-- A group that is printed flat stays on its line: what comes after it is next, nothing has been
put off, and no line was broken. Counterpart of `performGroup`. -/
theorem proceeds_group {contents : Doc} (hflat : contents.staysFlat = true)
    (hsafe : ∀ part : Doc, part.Within contents → part.IsSafe)
    (hcommands : state.commands = ⟨level, mode, .group false contents⟩ :: rest)
    (hstep : Layout.step style state = some next)
    (hnext : next.commands = ⟨level, .flat, contents⟩ :: rest) :
    ∃ inks later, Proceeds style state inks later ∧ later.commands = rest ∧
      later.suffixes = state.suffixes ∧ ∀ ink ∈ inks, ink.IsInLine := by
  have hperform : next = performGroup style level mode false contents
      { state with commands := rest } := by
    rw [Layout.step, hcommands] at hstep
    exact (Option.some.inj hstep).symm
  have hkept : next.suffixes = state.suffixes ∧ next.remeasure = false := by
    unfold performGroup at hperform
    split at hperform
    · rename_i hmeasured
      have hstill : state.remeasure = false := by simpa using hmeasured.2
      rw [hperform]
      exact ⟨rfl, hstill⟩
    · dsimp only at hperform
      split at hperform <;> rw [hperform] <;> exact ⟨rfl, rfl⟩
  obtain ⟨inks, later, hlater, hlast, hsuffixes, -, hline⟩ :=
    StaysOnLine.of_staysFlat level hflat hsafe next rest hnext hkept.2
  rw [hperform] at hlater
  exact ⟨inks, later, .performed hcommands hlater, hlast, hsuffixes.trans hkept.1, hline⟩

end

end Layout

end LuaFormatter
