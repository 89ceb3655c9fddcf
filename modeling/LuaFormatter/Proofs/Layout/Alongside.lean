import LuaFormatter.Proofs.Layout.Measure

/-!
# A block in flat content

The lines of a block are broken whatever mode the block is in, but a group in it is always measured
in broken content, and in flat content only if it is the first one after a line break.
`Doc.isSteady` is the condition under which this makes no difference: each line of the block holds
at most one group or choice, or each of its groups fits flat. Then the block prints the same inks in
both modes (`alongside_of_isSteady`).

Two runs that have the same commands next, and then others that fit alike, print the same up to
these (`alongside_append`). This is what a group in the block comes to, once both runs have entered
it in the same mode.
-/

namespace LuaFormatter

open Layout

namespace Doc

mutual

/-- Nothing in the document is put off. -/
def isPrompt : Doc → Bool
  | concat items | alternatives _ items => allPrompt items
  | indent contents | group _ contents => contents.isPrompt
  | ifBreak broken flat => broken.isPrompt && flat.isPrompt
  | suffix _ => false
  | empty | text _ | note _ | softLine | line | hardLine | literalLine | breakParent => true

/-- Nothing in the documents is put off. -/
def allPrompt : List Doc → Bool
  | [] => true
  | doc :: rest => doc.isPrompt && allPrompt rest

end

/-- To ask whether documents put something off is to ask each of them. Counterpart of
`allPrompt`. -/
theorem allPrompt_eq (docs : List Doc) : allPrompt docs = docs.all isPrompt := by
  induction docs with
  | nil => rfl
  | cons doc rest ih => rw [allPrompt, ih, List.all_cons]

mutual

/-- The width of a document that is printed flat, if nothing in it breaks a line, is put off or must
be broken. -/
def flatSize? : Doc → Option Nat
  | empty | softLine | breakParent => some 0
  | line => some 1
  | text content | note content => some content.length
  | concat items => flatSizeOf? items
  | indent contents | group false contents => contents.flatSize?
  | alternatives false (first :: _) => first.flatSize?
  | ifBreak _ flat => flat.flatSize?
  | hardLine | literalLine | suffix _ | group true _ | alternatives true _
  | alternatives false [] => none

/-- The width of documents that are printed flat. -/
def flatSizeOf? : List Doc → Option Nat
  | [] => some 0
  | doc :: rest =>
    match doc.flatSize?, flatSizeOf? rest with
    | some size, some others => some (size + others)
    | _, _ => none

end

end Doc

namespace Layout

/-! ## Two runs with the same commands next -/

/-- Two runs have printed the same when they come to the commands `rest` and `other`, in the same
column. -/
def Alongside (style : Style) (rest other : List Command) (inks others : List Ink) : Prop :=
  ∃ shared column measured measured', inks = shared ++ inksFrom style rest column measured ∧
    others = shared ++ inksFrom style other column measured'

section
variable {style : Style} {rest other : List Command}

/-- Two runs that print the same inks first stay alongside. Counterpart of `Alongside`. -/
theorem Alongside.append {inks others : List Ink} (front : List Ink)
    (h : Alongside style rest other inks others) :
    Alongside style rest other (front ++ inks) (front ++ others) := by
  obtain ⟨shared, column, measured, measured', rfl, rfl⟩ := h
  exact ⟨front ++ shared, column, measured, measured', (List.append_assoc ..).symm,
    (List.append_assoc ..).symm⟩

/-- Commands print the same before others that fit alike. Counterpart of `Alongside`. -/
theorem alongside_append (hfits : ∀ width, fits width rest = fits width other)
    {front : List Command} (hprompt : ∀ command ∈ front, command.doc.isPrompt = true) (column : Nat)
    (remeasure : Bool) :
    Alongside style rest other (inksFrom style (front ++ rest) column remeasure)
      (inksFrom style (front ++ other) column remeasure) := by
  induction hn : commandsWeight front using Nat.strongRecOn generalizing front column remeasure with
  | _ n ih =>
  subst hn
  cases front with
  | nil => exact ⟨[], column, remeasure, remeasure, rfl, rfl⟩
  | cons command front =>
    obtain ⟨level, mode, doc⟩ := command
    obtain ⟨hdoc, hfront⟩ := List.forall_mem_cons.1 hprompt
    have hskip := ih (commandsWeight front) (Nat.lt_add_of_pos_left doc.weight_pos) hfront
    have hpart : ∀ (level : Nat) (mode : Mode) (part : Doc), part.isPrompt = true →
        part.weight < doc.weight →
        ∀ column remeasure, Alongside style rest other
          (inksFrom style (⟨level, mode, part⟩ :: (front ++ rest)) column remeasure)
          (inksFrom style (⟨level, mode, part⟩ :: (front ++ other)) column remeasure) :=
      fun level mode part hpart hlt column remeasure =>
        ih (commandsWeight (⟨level, mode, part⟩ :: front)) (Nat.add_lt_add_right hlt _)
          (List.forall_mem_cons.2 ⟨hpart, hfront⟩) column remeasure rfl
    rw [List.cons_append, List.cons_append]
    cases doc with
    | empty => simpa using hskip column remeasure rfl
    | breakParent => simpa using hskip column remeasure rfl
    | text content => simpa using (hskip _ remeasure rfl).append _
    | note content => simpa using (hskip _ remeasure rfl).append _
    | hardLine => simpa using (hskip _ _ rfl).append [_]
    | literalLine => simpa using (hskip _ _ rfl).append [_]
    | softLine =>
      cases mode with
      | flat => simpa using hskip column remeasure rfl
      | broken =>
        rw [inksFrom_brokenLine _ _ _ _ _ (.inl rfl), inksFrom_brokenLine _ _ _ _ _ (.inl rfl)]
        exact (hskip _ remeasure rfl).append [_]
    | line =>
      cases mode with
      | flat => simpa using (hskip _ remeasure rfl).append [_]
      | broken =>
        rw [inksFrom_brokenLine _ _ _ _ _ (.inr rfl), inksFrom_brokenLine _ _ _ _ _ (.inr rfl)]
        exact (hskip _ remeasure rfl).append [_]
    | concat items =>
      have hitems : ∀ part ∈ commandsOf level mode items, part.doc.isPrompt = true := by
        intro part hmem
        obtain ⟨item, hitem, rfl⟩ := List.mem_map.1 hmem
        rw [Doc.isPrompt, Doc.allPrompt_eq] at hdoc
        exact List.all_eq_true.1 hdoc item hitem
      rw [inksFrom_concat, inksFrom_concat, ← List.append_assoc, ← List.append_assoc]
      refine ih _ ?_ (List.forall_mem_append.2 ⟨hitems, hfront⟩) column remeasure rfl
      rw [commandsWeight_append, commandsWeight_commandsOf, commandsWeight, Doc.weight]
      omega
    | indent contents =>
      rw [inksFrom_indent, inksFrom_indent]
      exact hpart _ mode contents hdoc (by rw [Doc.weight]; omega) column remeasure
    | ifBreak broken flat =>
      obtain ⟨hbroken, hflat⟩ := Bool.and_eq_true_iff.1 hdoc
      rw [inksFrom_ifBreak, inksFrom_ifBreak]
      cases mode with
      | flat => exact hpart _ _ flat hflat (by rw [Doc.weight]; omega) column remeasure
      | broken => exact hpart _ _ broken hbroken (by rw [Doc.weight]; omega) column remeasure
    | group breaks contents =>
      have hcontents : contents.weight < (Doc.group breaks contents).weight := by
        rw [Doc.weight]; omega
      have hflat := fits_append_congr hfits (⟨level, .flat, contents⟩ :: front)
      simp only [List.cons_append] at hflat
      rw [inksFrom_group, inksFrom_group, hflat]
      split
      · exact hpart _ _ contents hdoc hcontents column remeasure
      · split
        · exact hpart _ _ contents hdoc hcontents column false
        · exact hpart _ _ contents hdoc hcontents column false
    | alternatives breaks options =>
      have hoption : ∀ option ∈ options, ∀ (mode : Mode) column remeasure,
          Alongside style rest other
          (inksFrom style (⟨level, mode, option⟩ :: (front ++ rest)) column remeasure)
          (inksFrom style (⟨level, mode, option⟩ :: (front ++ other)) column remeasure) := by
        intro option hmem mode
        rw [Doc.isPrompt, Doc.allPrompt_eq] at hdoc
        refine hpart level mode option (List.all_eq_true.1 hdoc option hmem) ?_
        have hweight := Doc.weight_le_listWeight hmem
        rw [Doc.weight]
        omega
      cases hlast : options.getLast? with
      | none =>
        obtain rfl := List.getLast?_eq_none_iff.1 hlast
        rw [inksFrom_alternatives_nil, inksFrom_alternatives_nil]
        exact hskip column remeasure rfl
      | some last =>
        obtain ⟨first, hfirst⟩ := exists_first hlast
        have hflat : ∀ option : Doc,
            fits ((style.printWidth : Int) - column) (⟨level, .flat, option⟩ :: (front ++ rest)) =
              fits ((style.printWidth : Int) - column)
              (⟨level, .flat, option⟩ :: (front ++ other)) :=
          fun option => fits_append_congr hfits (⟨level, .flat, option⟩ :: front) _
        rw [inksFrom_alternatives _ _ _ _ _ _ _ hfirst hlast,
          inksFrom_alternatives _ _ _ _ _ _ _ hfirst hlast]
        simp only [hflat]
        split
        · exact hoption first (List.mem_of_head? hfirst) _ column remeasure
        · split
          · exact hoption last (List.mem_of_getLast? hlast) _ column false
          · split
            · rename_i option hfind
              exact hoption option (List.mem_of_find?_eq_some hfind) _ column false
            · exact hoption last (List.mem_of_getLast? hlast) _ column false
    | suffix contents => cases hdoc

end

/-! ## Documents printed flat -/

/-- Printed flat where nothing is measured again, commands take a width and write the same inks,
whatever comes after them. -/
structure PrintFlat (style : Style) (commands : List Command) (size : Nat) : Prop where
  fits : ∀ (width : Int) rest, Layout.fits width (commands ++ rest) =
    Layout.fits (width - size) rest
  inks : ∃ inks, ∀ rest column, inksFrom style (commands ++ rest) column false =
    inks ++ inksFrom style rest (column + size) false

section
variable {style : Style}

/-- Flat commands one after the other take their widths together. Counterpart of `PrintFlat`. -/
theorem PrintFlat.append {front back : List Command} {size others : Nat}
    (hfront : PrintFlat style front size) (hback : PrintFlat style back others) :
    PrintFlat style (front ++ back) (size + others) := by
  constructor
  · intro width rest
    rw [List.append_assoc, hfront.fits, hback.fits, Int.sub_sub, Int.natCast_add]
  · obtain ⟨inks, hinks⟩ := hfront.inks
    obtain ⟨more, hmore⟩ := hback.inks
    refine ⟨inks ++ more, fun rest column => ?_⟩
    rw [List.append_assoc, hinks, hmore, List.append_assoc, Nat.add_assoc]

/-- A command prints flat if what it is replaced with does. Counterpart of `PrintFlat`. -/
theorem PrintFlat.of_eq {command : Command} {parts : List Command} {size : Nat}
    (h : PrintFlat style parts size)
    (hfits : ∀ width rest, Layout.fits width (command :: rest) = Layout.fits width (parts ++ rest))
    (hinks : ∀ rest column, inksFrom style (command :: rest) column false =
      inksFrom style (parts ++ rest) column false) : PrintFlat style [command] size := by
  constructor
  · intro width rest
    rw [List.singleton_append, hfits, h.fits]
  · obtain ⟨inks, heq⟩ := h.inks
    exact ⟨inks, fun rest column => by rw [List.singleton_append, hinks, heq]⟩

mutual

/-- A document with a flat size prints flat. Counterpart of `Doc.flatSize?`. -/
theorem printFlat_of_flatSize? (level : Nat) :
    ∀ {doc : Doc} {size : Nat}, doc.flatSize? = some size →
      PrintFlat style [⟨level, .flat, doc⟩] size
  | .empty, _, rfl | .softLine, _, rfl | .breakParent, _, rfl =>
    ⟨fun _ _ => by simp, [], fun _ _ => by simp⟩
  | .line, _, rfl => ⟨fun _ _ => by simp, [.char false ' '], fun _ _ => by simp⟩
  | .text content, _, rfl =>
    ⟨fun _ _ => by simp, Ink.ofText false content.toList, fun _ _ => by simp⟩
  | .note content, _, rfl =>
    ⟨fun _ _ => by simp, Ink.ofText true content.toList, fun _ _ => by simp⟩
  | .concat items, size, h => by
    rw [Doc.flatSize?] at h
    exact .of_eq (printFlat_of_flatSizeOf? level h) (fun _ _ => fits_concat ..) fun _ _ =>
      inksFrom_concat ..
  | .indent contents, size, h => by
    rw [Doc.flatSize?] at h
    exact .of_eq (printFlat_of_flatSize? (deeper level) h) (fun _ _ => fits_indent ..) fun _ _ =>
      inksFrom_indent ..
  | .ifBreak broken flat, size, h => by
    rw [Doc.flatSize?] at h
    exact .of_eq (printFlat_of_flatSize? level h) (fun _ _ => fits_ifBreak ..) fun _ _ =>
      inksFrom_ifBreak ..
  | .group false contents, size, h => by
    rw [Doc.flatSize?] at h
    refine .of_eq (printFlat_of_flatSize? level h) (fun _ _ => fits_group ..) fun rest column => ?_
    exact (inksFrom_group ..).trans (if_pos ⟨rfl, Bool.false_ne_true⟩)
  | .alternatives false (first :: others), size, h => by
    rw [Doc.flatSize?] at h
    refine .of_eq (printFlat_of_flatSize? level h)
      (fun _ _ => fits_alternatives ..) fun rest column => ?_
    exact (inksFrom_alternatives _ _ _ _ _ _ _ rfl List.getLast?_cons).trans
      (if_pos ⟨rfl, Bool.false_ne_true⟩)

/-- Documents with a flat size print flat. Counterpart of `Doc.flatSizeOf?`. -/
theorem printFlat_of_flatSizeOf? (level : Nat) :
    ∀ {docs : List Doc} {size : Nat}, Doc.flatSizeOf? docs = some size →
      PrintFlat style (commandsOf level .flat docs) size
  | [], _, rfl => ⟨fun _ _ => by simp [commandsOf], [], fun _ _ => rfl⟩
  | doc :: rest, size, h => by
    rw [Doc.flatSizeOf?] at h
    split at h
    · rename_i first others hfirst hothers
      obtain rfl := Option.some.inj h
      exact (printFlat_of_flatSize? level hfirst).append (printFlat_of_flatSizeOf? level hothers)
    · cases h

end

end

/-! ## Blocks that are laid out alike in both modes -/

end Layout

namespace Doc

mutual

/-- The parts of a document that stand one after the other, with their levels. -/
def parts (level : Nat) : Doc → List (Nat × Doc)
  | concat items => partsOf level items
  | indent contents => contents.parts (deeper level)
  | doc => [(level, doc)]

/-- The parts of documents. -/
def partsOf (level : Nat) : List Doc → List (Nat × Doc)
  | [] => []
  | doc :: rest => doc.parts level ++ partsOf level rest

end

/-- A group or a choice between forms, which is decided where it stands. -/
inductive IsDecided : Doc → Prop
  | group (breaks : Bool) (contents : Doc) : IsDecided (.group breaks contents)
  | alternatives (breaks : Bool) (options : List Doc) : IsDecided (.alternatives breaks options)

/-- What a group or a choice is replaced with if it is found to fit. A choice that must be its most
expanded form is not. -/
def entered? (level : Nat) : Doc → Option Command
  | group breaks contents => some ⟨level, Mode.flat.inside breaks, contents⟩
  | alternatives false (first :: _) => some ⟨level, .flat, first⟩
  | _ => none

end Doc

namespace Layout

/-- Parts of a document as commands of one mode. -/
def commandsIn (mode : Mode) (parts : List (Nat × Doc)) : List Command :=
  parts.map fun part => ⟨part.1, mode, part.2⟩

/-- Nothing but texts stands before the next line break. -/
def endsLine : List (Nat × Doc) → Bool
  | [] => true
  | (_, doc) :: rest =>
    match doc with
    | .hardLine | .literalLine => true
    | .empty | .breakParent | .text _ | .note _ => endsLine rest
    | _ => false

/-- Each line of the parts holds at most one group or choice, or each of its groups and choices fits
flat where the ones before it are flat, and all but the last can be flat throughout. The first line
goes on in a column, and there may have been a group on it. -/
def areSteady (style : Style) : (isFirst : Bool) → (column : Nat) → List (Nat × Doc) → Bool
  | _, _, [] => true
  | isFirst, column, (level, doc) :: rest =>
    match doc with
    | .hardLine => areSteady style true (level * style.indentWidth) rest
    | .literalLine => areSteady style true 0 rest
    | .empty | .breakParent => areSteady style isFirst column rest
    | .text content | .note content => areSteady style isFirst (column + content.length) rest
    | .group _ _ | .alternatives _ _ =>
      let fitsFlat := (doc.entered? level).any fun command =>
        fits ((style.printWidth : Int) - column) (command :: commandsIn .broken rest)
      doc.isPrompt && (isFirst && endsLine rest || fitsFlat &&
        (endsLine rest || doc.flatSize?.isSome)) &&
        areSteady style false (column + doc.flatSize?.getD 0) rest
    | _ => false

end Layout

/-- The document, which starts a line, is made of steady lines: on each of them there is at most one
group or choice, or they all fit flat. -/
def Doc.isSteady (style : Style) (level : Nat) (doc : Doc) : Bool :=
  areSteady style true (level * style.indentWidth) (doc.parts level)

namespace Layout

section
variable {style : Style}

/-- The commands for parts one after the other. Counterpart of `commandsIn`. -/
theorem commandsIn_append (mode : Mode) (parts others : List (Nat × Doc)) :
    commandsIn mode (parts ++ others) = commandsIn mode parts ++ commandsIn mode others :=
  List.map_append

mutual

/-- A document is measured as its parts are. Counterpart of `Doc.parts`. -/
theorem fits_parts (level : Nat) (mode : Mode) (width : Int) (rest : List Command) :
    ∀ doc : Doc, fits width (⟨level, mode, doc⟩ :: rest) =
      fits width (commandsIn mode (doc.parts level) ++ rest)
  | .concat items => by
    rw [Doc.parts, fits_concat, fits_partsOf]
  | .indent contents => by
    rw [Doc.parts, fits_indent, fits_parts (deeper level) mode width rest contents]
  | .empty | .text _ | .note _ | .softLine | .line | .hardLine | .literalLine | .group _ _
  | .alternatives _ _ | .ifBreak _ _ | .suffix _ | .breakParent =>
    rfl

/-- Documents are measured as their parts are. Counterpart of `Doc.partsOf`. -/
theorem fits_partsOf (level : Nat) (mode : Mode) (width : Int) (rest : List Command) :
    ∀ docs : List Doc, fits width (commandsOf level mode docs ++ rest) =
      fits width (commandsIn mode (Doc.partsOf level docs) ++ rest)
  | [] => rfl
  | doc :: docs => by
    rw [Doc.partsOf, commandsIn_append, List.append_assoc,
      ← fits_append_congr (fun width => fits_partsOf level mode width rest docs)]
    exact fits_parts level mode width (commandsOf level mode docs ++ rest) doc

end

/-- The parts of documents that have levels of their own. -/
def partsOfAll (docs : List (Nat × Doc)) : List (Nat × Doc) :=
  docs.flatMap fun doc => doc.2.parts doc.1

/-- The parts of a first document, and those of the others. Counterpart of `partsOfAll`. -/
theorem partsOfAll_cons (level : Nat) (doc : Doc) (docs : List (Nat × Doc)) :
    partsOfAll ((level, doc) :: docs) = doc.parts level ++ partsOfAll docs :=
  List.flatMap_cons

/-- The parts of documents on one level, and those of the others. Counterpart of `partsOfAll`. -/
theorem partsOfAll_items (level : Nat) (items : List Doc) (docs : List (Nat × Doc)) :
    partsOfAll (items.map (Prod.mk level) ++ docs) =
      Doc.partsOf level items ++ partsOfAll docs := by
  induction items with
  | nil => rfl
  | cons item items ih =>
    rw [List.map_cons, List.cons_append, partsOfAll_cons, ih, Doc.partsOf, List.append_assoc]

/-- The commands for documents on one level are those of a concatenation. Counterpart of
`commandsOf`. -/
theorem commandsIn_items (mode : Mode) (level : Nat) (items : List Doc) :
    commandsIn mode (items.map (Prod.mk level)) = commandsOf level mode items :=
  List.map_map

/-- The weight of documents on one level, and that of the others. Counterpart of
`Doc.listWeight`. -/
theorem listWeight_items (level : Nat) (items : List Doc) (docs : List (Nat × Doc)) :
    Doc.listWeight ((items.map (Prod.mk level) ++ docs).map Prod.snd) =
      Doc.listWeight items + Doc.listWeight (docs.map Prod.snd) := by
  induction items with
  | nil => exact (Nat.zero_add _).symm
  | cons item items ih =>
    rw [List.map_cons, List.cons_append, List.map_cons, Doc.listWeight, ih, Doc.listWeight,
      Nat.add_assoc]

/-- To measure documents is to measure their parts. Counterpart of `fits`. -/
theorem fits_partsOfAll (mode : Mode) (width : Int) (rest : List Command)
    (docs : List (Nat × Doc)) :
    fits width (commandsIn mode docs ++ rest) =
      fits width (commandsIn mode (partsOfAll docs) ++ rest) := by
  induction docs generalizing width with
  | nil => rfl
  | cons doc docs ih =>
    rw [partsOfAll, List.flatMap_cons, ← partsOfAll, commandsIn_append, List.append_assoc,
      ← fits_append_congr ih]
    exact fits_parts doc.1 mode width (commandsIn mode docs ++ rest) doc.2

/-- To measure a group that is flat is to measure what it is replaced with. Counterpart of
`fits`. -/
theorem fits_entered {level : Nat} {doc : Doc} {command : Command}
    (h : doc.entered? level = some command) (width : Int) (rest : List Command) :
    fits width (⟨level, .flat, doc⟩ :: rest) = fits width (command :: rest) := by
  unfold Doc.entered? at h
  split at h
  · obtain rfl := Option.some.inj h
    exact fits_group ..
  · obtain rfl := Option.some.inj h
    exact fits_alternatives ..
  · cases h

/-- A group or choice that fits flat is entered flat, whether it is measured or not. Counterpart of
`Doc.entered?`. -/
theorem inksFrom_entered {level : Nat} {doc : Doc} {command : Command}
    (h : doc.entered? level = some command) (mode : Mode) {rest : List Command} {column : Nat}
    (remeasure : Bool) (hfits : fits ((style.printWidth : Int) - column) (command :: rest) = true) :
    inksFrom style (⟨level, mode, doc⟩ :: rest) column remeasure =
      inksFrom style (command :: rest) column false := by
  unfold Doc.entered? at h
  split at h
  · rename_i breaks contents
    obtain rfl := Option.some.inj h
    rw [inksFrom_group]
    split
    · rename_i hflat
      obtain ⟨rfl, hmeasured⟩ := hflat
      rw [Bool.not_eq_true] at hmeasured
      rw [hmeasured]
    · cases breaks with
      | true => rfl
      | false => exact if_pos ⟨nofun, hfits⟩
  · rename_i first others
    obtain rfl := Option.some.inj h
    rw [inksFrom_alternatives _ _ _ _ _ _ _ rfl List.getLast?_cons]
    split
    · rename_i hflat
      obtain ⟨rfl, hmeasured⟩ := hflat
      rw [Bool.not_eq_true] at hmeasured
      rw [hmeasured]
      rfl
    · simp only [List.find?_cons, hfits, Bool.false_eq_true, if_false]
  · cases h

/-- The first group or choice of a line is decided alike in both modes. Counterpart of
`performGroup` and `performAlternatives`. -/
theorem alongside_measured (level : Nat) {doc : Doc} {rest other : List Command}
    (hdoc : doc.IsDecided)
    (hprompt : doc.isPrompt = true) (hfits : ∀ width, fits width rest = fits width other)
    (column : Nat) (remeasure : Bool) :
    Alongside style rest other (inksFrom style (⟨level, .broken, doc⟩ :: rest) column remeasure)
      (inksFrom style (⟨level, .flat, doc⟩ :: other) column true) := by
  have hpart : ∀ (mode : Mode) (part : Doc), part.isPrompt = true → Alongside style rest other
      (inksFrom style (⟨level, mode, part⟩ :: rest) column false)
      (inksFrom style (⟨level, mode, part⟩ :: other) column false) := fun mode part hpart =>
    alongside_append hfits (List.forall_mem_singleton.2 hpart) column false
  have hflat : ∀ part : Doc,
      fits ((style.printWidth : Int) - column) (⟨level, .flat, part⟩ :: rest) =
        fits ((style.printWidth : Int) - column) (⟨level, .flat, part⟩ :: other) :=
    fun part => fits_append_congr hfits [⟨level, .flat, part⟩] _
  have hbroken : ¬(Mode.broken = .flat ∧ ¬remeasure = true) := nofun
  have hmeasured : ¬(Mode.flat = .flat ∧ ¬true = true) := fun h => h.2 rfl
  cases hdoc with
  | group breaks contents =>
    rw [inksFrom_group, inksFrom_group, if_neg hbroken, if_neg hmeasured, hflat]
    split
    · exact hpart .flat contents hprompt
    · exact hpart .broken contents hprompt
  | alternatives breaks options =>
    rw [Doc.isPrompt, Doc.allPrompt_eq, List.all_eq_true] at hprompt
    cases hlast : options.getLast? with
    | none =>
      obtain rfl := List.getLast?_eq_none_iff.1 hlast
      rw [inksFrom_alternatives_nil, inksFrom_alternatives_nil]
      exact ⟨[], column, remeasure, true, rfl, rfl⟩
    | some last =>
      obtain ⟨first, hfirst⟩ := exists_first hlast
      rw [inksFrom_alternatives _ _ _ _ _ _ _ hfirst hlast,
        inksFrom_alternatives _ _ _ _ _ _ _ hfirst hlast, if_neg hbroken, if_neg hmeasured]
      simp only [hflat]
      split
      · exact hpart .broken last (hprompt last (List.mem_of_getLast? hlast))
      · split
        · rename_i option hfind
          exact hpart .flat option (hprompt option (List.mem_of_find?_eq_some hfind))
        · exact hpart .broken last (hprompt last (List.mem_of_getLast? hlast))

end

/-! ## Lines -/

/-- The commands start with a line break, or there are none. -/
def StartsLine (rest : List Command) : Prop :=
  ∀ width, fits width rest = decide (0 ≤ width)

section
variable {style : Style} {rest other : List Command} (hrest : StartsLine rest)
  (hother : StartsLine other)
include hrest hother

/-- Up to the next line break, texts fit alike in both modes. Counterpart of `endsLine`. -/
theorem fits_of_endsLine {parts : List (Nat × Doc)} (h : endsLine parts = true) (width : Int) :
    fits width (commandsIn .broken parts ++ rest) =
      fits width (commandsIn .flat parts ++ other) := by
  induction parts generalizing width with
  | nil => exact (hrest width).trans (hother width).symm
  | cons part parts ih =>
    obtain ⟨level, doc⟩ := part
    simp only [commandsIn, List.map_cons, List.cons_append] at ih ⊢
    cases doc with
    | empty | breakParent | text content | note content => simpa using ih h _
    | hardLine => rw [fits_lineBreak _ _ _ _ (.inl rfl), fits_lineBreak _ _ _ _ (.inl rfl)]
    | literalLine => rw [fits_lineBreak _ _ _ _ (.inr rfl), fits_lineBreak _ _ _ _ (.inr rfl)]
    | softLine | line | concat _ | indent _ | group _ _ | alternatives _ _ | ifBreak _ _
    | suffix _ => cases h

end

/-- What a steady line says of a group or choice on it. Counterpart of `areSteady`. -/
theorem areSteady_choice {style : Style} {isFirst : Bool} {column level : Nat} {doc : Doc}
    {parts : List (Nat × Doc)}
    (hdoc : doc.IsDecided)
    (h : areSteady style isFirst column ((level, doc) :: parts) = true) :
    doc.isPrompt = true ∧ areSteady style false (column + doc.flatSize?.getD 0) parts = true ∧
      ((isFirst = true ∧ endsLine parts = true) ∨
        ∃ command, doc.entered? level = some command ∧
          fits ((style.printWidth : Int) - column) (command :: commandsIn .broken parts) = true ∧
          (endsLine parts = true ∨ ∃ size, doc.flatSize? = some size)) := by
  have hsteady :
      (doc.isPrompt && (isFirst && endsLine parts || ((doc.entered? level).any fun command =>
      fits ((style.printWidth : Int) - column) (command :: commandsIn .broken parts)) &&
        (endsLine parts || doc.flatSize?.isSome)) &&
      areSteady style false (column + doc.flatSize?.getD 0) parts) = true := by
    cases hdoc <;> exact h
  simp only [Bool.and_eq_true, Bool.or_eq_true, Option.any_eq_true,
    Option.isSome_iff_exists] at hsteady
  obtain ⟨⟨hprompt, hline⟩, hrest⟩ := hsteady
  refine ⟨hprompt, hrest, hline.imp_right ?_⟩
  rintro ⟨⟨command, hentered, hfits⟩, hlast⟩
  exact ⟨command, hentered, hfits, hlast⟩

/-- What a group is replaced with puts nothing off if the group does not. Counterpart of
`entered?`. -/
theorem isPrompt_entered {level : Nat} {doc : Doc} {command : Command}
    (h : doc.entered? level = some command) (hprompt : doc.isPrompt = true) :
    command.doc.isPrompt = true := by
  unfold Doc.entered? at h
  split at h
  · obtain rfl := Option.some.inj h
    exact hprompt
  · obtain rfl := Option.some.inj h
    exact (Bool.and_eq_true_iff.1 hprompt).1
  · cases h

/-- A group or choice with a flat size prints flat once it is entered. Counterpart of
`Doc.entered?`. -/
theorem printFlat_entered {style : Style} {level : Nat} {doc : Doc} {command : Command} {size : Nat}
    (h : doc.entered? level = some command) (hsize : doc.flatSize? = some size) :
    PrintFlat style [command] size := by
  unfold Doc.entered? at h
  split at h
  · rename_i breaks contents
    obtain rfl := Option.some.inj h
    cases breaks with
    | true => simp [Doc.flatSize?] at hsize
    | false =>
      rw [Doc.flatSize?] at hsize
      exact printFlat_of_flatSize? level hsize
  · obtain rfl := Option.some.inj h
    rw [Doc.flatSize?] at hsize
    exact printFlat_of_flatSize? level hsize
  · cases h

/-- The end of a document is the end of a line. Counterpart of `StartsLine`. -/
theorem startsLine_nil : StartsLine [] :=
  fits_nil

section
variable {style : Style} {rest other : List Command} (hrest : StartsLine rest)
  (hother : StartsLine other)
include hother

/-- If a steady line fits in broken content, it fits in flat content. Counterpart of `areSteady`. -/
theorem fits_of_areSteady {parts : List (Nat × Doc)} {column : Nat}
    (h : areSteady style false column parts = true)
    (hfits : fits ((style.printWidth : Int) - column) (commandsIn .broken parts) = true) :
    fits ((style.printWidth : Int) - column) (commandsIn .flat parts ++ other) = true := by
  induction parts generalizing column with
  | nil => rwa [commandsIn, List.map_nil, List.nil_append, hother, ← fits_nil]
  | cons part parts ih =>
    obtain ⟨level, doc⟩ := part
    have hchoice : doc.IsDecided →
        fits ((style.printWidth : Int) - column)
        (⟨level, .flat, doc⟩ :: (commandsIn .flat parts ++ other)) =
          true := by
      intro hdoc
      obtain ⟨-, hsteady, ⟨hfirst, -⟩ | ⟨command, hentered, hfit, hlast | ⟨size, hsize⟩⟩⟩ :=
        areSteady_choice hdoc h
      · cases hfirst
      · rw [fits_entered hentered, ← hfit, ← List.append_nil (commandsIn .broken parts)]
        exact (fits_append_congr (fits_of_endsLine startsLine_nil hother hlast) [command] _).symm
      · have hflat : PrintFlat style [command] size := printFlat_entered hentered hsize
        rw [hsize, Option.getD_some] at hsteady
        have hbroken := hflat.fits ((style.printWidth : Int) - column) (commandsIn .broken parts)
        rw [List.singleton_append, hfit, Int.sub_sub, ← Int.natCast_add] at hbroken
        rw [fits_entered hentered, ← List.singleton_append, hflat.fits, Int.sub_sub,
          ← Int.natCast_add]
        exact ih hsteady hbroken.symm
    simp only [commandsIn, List.map_cons, List.cons_append] at ih hfits hchoice ⊢
    cases doc with
    | empty | breakParent => simpa using ih h (by simpa using hfits)
    | text content =>
      rw [fits_text, Int.sub_sub, ← Int.natCast_add] at hfits ⊢
      exact ih h hfits
    | note content =>
      rw [fits_note, Int.sub_sub, ← Int.natCast_add] at hfits ⊢
      exact ih h hfits
    | hardLine => rwa [fits_lineBreak _ _ _ _ (.inl rfl)] at hfits ⊢
    | literalLine => rwa [fits_lineBreak _ _ _ _ (.inr rfl)] at hfits ⊢
    | group breaks contents => exact hchoice (.group breaks contents)
    | alternatives breaks options => exact hchoice (.alternatives breaks options)
    | softLine | line | concat _ | indent _ | ifBreak _ _ | suffix _ => cases h

include hrest

/-- A group or choice on a steady line prints the same in both modes. The column after it is known,
unless only texts follow on the line. Counterpart of `areSteady`. -/
theorem exists_after_choice {docs : List (Nat × Doc)} {isFirst measured' : Bool}
    {column level : Nat} {doc : Doc} (hdoc : doc.IsDecided)
    (h : areSteady style isFirst column ((level, doc) :: partsOfAll docs) = true)
    (hmeasured : isFirst = true → measured' = true) (measured : Bool) :
    ∃ shared after measuredAfter measuredAfter',
      inksFrom style (⟨level, .broken, doc⟩ :: (commandsIn .broken docs ++ rest)) column measured =
        shared ++ inksFrom style (commandsIn .broken docs ++ rest) after measuredAfter ∧
      inksFrom style (⟨level, .flat, doc⟩ :: (commandsIn .flat docs ++ other)) column measured' =
        shared ++ inksFrom style (commandsIn .flat docs ++ other) after measuredAfter' ∧
      (endsLine (partsOfAll docs) = true ∨ column + doc.flatSize?.getD 0 = after) := by
  have hline : endsLine (partsOfAll docs) = true → ∀ width,
      fits width (commandsIn .broken docs ++ rest) =
      fits width (commandsIn .flat docs ++ other) := by
    intro hlast width
    rw [fits_partsOfAll, fits_of_endsLine hrest hother hlast, ← fits_partsOfAll]
  obtain ⟨hprompt, hsteady, ⟨hfirst, hlast⟩ | ⟨command, hentered, hfit, hlast⟩⟩ :=
    areSteady_choice hdoc h
  · have halong : Alongside style _ _ _ _ :=
      alongside_measured level hdoc hprompt (hline hlast) column measured
    obtain ⟨shared, after, marked, marked', hinks, hothers⟩ := halong
    rw [hmeasured hfirst]
    exact ⟨shared, after, marked, marked', hinks, hothers, .inl hlast⟩
  · have hbroken : fits ((style.printWidth : Int) - column)
        (command :: (commandsIn .broken docs ++ rest)) = true := by
      have hparts := fun width => fits_partsOfAll .broken width rest docs
      have hend := fits_append_congr (fun width => (hrest width).trans (fits_nil width).symm)
        (commandsIn .broken (partsOfAll docs))
      rw [List.append_nil] at hend
      rw [← hfit]
      exact fits_append_congr (fun width => (hparts width).trans (hend width)) [command] _
    rcases hlast with hlast | ⟨size, hsize⟩
    · have hflat := hbroken
      rw [← List.singleton_append, fits_append_congr (hline hlast), List.singleton_append] at hflat
      have halong : Alongside style _ _ _ _ := alongside_append (hline hlast)
        (List.forall_mem_singleton.2 (isPrompt_entered hentered hprompt)) column false
      obtain ⟨shared, after, marked, marked', hinks, hothers⟩ := halong
      rw [inksFrom_entered hentered _ _ hbroken, inksFrom_entered hentered _ _ hflat]
      exact ⟨shared, after, marked, marked', hinks, hothers, .inl hlast⟩
    · have hprint : PrintFlat style [command] size := printFlat_entered hentered hsize
      rw [hsize, Option.getD_some] at hsteady ⊢
      have hflat : fits ((style.printWidth : Int) - column)
          (command :: (commandsIn .flat docs ++ other)) = true := by
        rw [← List.singleton_append, hprint.fits, Int.sub_sub, ← Int.natCast_add] at hfit ⊢
        rw [fits_partsOfAll]
        exact fits_of_areSteady hother hsteady hfit
      obtain ⟨inks, hinks⟩ := hprint.inks
      rw [inksFrom_entered hentered _ _ hbroken, inksFrom_entered hentered _ _ hflat]
      exact ⟨inks, column + size, false, false, hinks _ column, hinks _ column, .inr rfl⟩

/-- Steady documents print the same in both modes, if in flat mode the first group of a line is
measured. Counterpart of `areSteady`. -/
theorem alongside_of_areSteady {docs : List (Nat × Doc)} {isFirst measured measured' : Bool}
    {guessed column : Nat} (h : areSteady style isFirst guessed (partsOfAll docs) = true)
    (hcolumn : endsLine (partsOfAll docs) = true ∨ guessed = column)
    (hmeasured : isFirst = true → measured' = true) :
    Alongside style rest other (inksFrom style (commandsIn .broken docs ++ rest) column measured)
      (inksFrom style (commandsIn .flat docs ++ other) column measured') := by
  induction hn : Doc.listWeight (docs.map Prod.snd) using Nat.strongRecOn
    generalizing docs isFirst measured measured' guessed column with
  | _ n ih =>
  subst hn
  cases docs with
  | nil => exact ⟨[], column, measured, measured', rfl, rfl⟩
  | cons first docs =>
    obtain ⟨level, doc⟩ := first
    have hnext : ∀ next : List (Nat × Doc), Doc.listWeight (next.map Prod.snd) <
        doc.weight + Doc.listWeight (docs.map Prod.snd) →
        ∀ {isFirst measured measured' : Bool} {guessed column : Nat},
          areSteady style isFirst guessed (partsOfAll next) = true →
          endsLine (partsOfAll next) = true ∨ guessed = column →
          (isFirst = true → measured' = true) →
          Alongside style rest other (inksFrom style (commandsIn .broken next ++ rest) column
            measured) (inksFrom style (commandsIn .flat next ++ other) column measured') :=
      fun _ hlt _ _ _ _ _ h hcolumn hmeasured => ih _ hlt h hcolumn hmeasured rfl
    have hskip := @hnext docs (Nat.lt_add_of_pos_left doc.weight_pos)
    have hchoice : doc.IsDecided →
        areSteady style isFirst guessed ((level, doc) :: partsOfAll docs) = true →
        guessed = column →
        Alongside style rest other
          (inksFrom style (⟨level, .broken, doc⟩ :: (commandsIn .broken docs ++ rest)) column
            measured)
          (inksFrom style (⟨level, .flat, doc⟩ :: (commandsIn .flat docs ++ other)) column
            measured') := by
      rintro hdoc h rfl
      obtain ⟨shared, after, marked, marked', hinks, hothers, hafter⟩ :=
        exists_after_choice hrest hother hdoc h hmeasured measured
      rw [hinks, hothers]
      exact (hskip (areSteady_choice hdoc h).2.1 hafter (absurd · Bool.false_ne_true)).append shared
    rw [partsOfAll_cons] at h hcolumn
    rw [commandsIn, commandsIn, List.map_cons, List.map_cons, ← commandsIn, ← commandsIn,
      List.cons_append, List.cons_append]
    cases doc with
    | empty => simpa using hskip h hcolumn hmeasured
    | breakParent => simpa using hskip h hcolumn hmeasured
    | text content =>
      rw [inksFrom_text, inksFrom_text]
      exact (hskip h (hcolumn.imp_right (congrArg (· + _))) hmeasured).append _
    | note content =>
      rw [inksFrom_note, inksFrom_note]
      exact (hskip h (hcolumn.imp_right (congrArg (· + _))) hmeasured).append _
    | hardLine =>
      rw [inksFrom_hardLine, inksFrom_hardLine]
      exact (hskip h (.inr rfl) fun _ => Bool.or_true _).append [_]
    | literalLine =>
      rw [inksFrom_literalLine, inksFrom_literalLine]
      exact (hskip h (.inr rfl) fun _ => Bool.or_true _).append [_]
    | concat items =>
      have hsteady : areSteady style isFirst guessed
          (partsOfAll (items.map (Prod.mk level) ++ docs)) = true := by
        rwa [partsOfAll_items]
      rw [inksFrom_concat, inksFrom_concat, ← commandsIn_items, ← commandsIn_items,
        ← List.append_assoc, ← List.append_assoc, ← commandsIn_append, ← commandsIn_append]
      refine hnext _ ?_ hsteady (by rwa [partsOfAll_items]) hmeasured
      rw [listWeight_items, Doc.weight]
      omega
    | indent contents =>
      rw [inksFrom_indent, inksFrom_indent]
      refine hnext ((deeper level, contents) :: docs) ?_ h hcolumn hmeasured
      exact Nat.add_lt_add_right (by rw [Doc.weight]; exact Nat.lt_add_of_pos_left Nat.one_pos) _
    | group breaks contents =>
      exact hchoice (.group breaks contents) h (hcolumn.resolve_left Bool.false_ne_true)
    | alternatives breaks options =>
      exact hchoice (.alternatives breaks options) h (hcolumn.resolve_left Bool.false_ne_true)
    | softLine | line | ifBreak _ _ | suffix _ => cases h

/-- A steady document prints the same in both modes at the start of a line. Counterpart of
`Doc.isSteady`. -/
theorem alongside_of_isSteady {level : Nat} {doc : Doc} (h : doc.isSteady style level = true)
    (measured : Bool) :
    Alongside style rest other
      (inksFrom style (⟨level, .broken, doc⟩ :: rest) (level * style.indentWidth) measured)
      (inksFrom style (⟨level, .flat, doc⟩ :: other) (level * style.indentWidth) true) := by
  have hparts : partsOfAll [(level, doc)] = doc.parts level := List.append_nil _
  have hsteady : areSteady style true (level * style.indentWidth)
      (partsOfAll [(level, doc)]) = true := by
    rwa [hparts]
  exact alongside_of_areSteady hrest hother hsteady (.inr rfl) fun _ => rfl

end

end Layout

end LuaFormatter
