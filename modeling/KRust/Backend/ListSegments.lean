import KRust.Backend.ListImplication
import KRust.Lib.Segments

/-!
What a list term denotes: its items and opaque parts in order. Reading a list into runs and
building one from runs keep them, and under an interpretation they give its elements.
-/

set_option linter.unusedSectionVars false

namespace KRust.Backend.ListImplication

open KRust.Kore Lib

abbrev ListSegment : Type := Segment Term Term

section Segments

/-- The items and parts of a list term in order. -/
def segments (definition : ListDefinition) : Term → List ListSegment
  | .list found heads rest =>
    if found = definition then
      match rest with
      | some (middle, tails) =>
        heads.map .item ++ segments definition middle ++ tails.map .item
      | none => heads.map .item
    else [.part (.list found heads rest)]
  | .application symbol sortArguments [left, right] =>
    if symbol.name = definition.symbols.concat then
      segments definition left ++ segments definition right
    else [.part (.application symbol sortArguments [left, right])]
  | term => [.part term]

/-- A term that no list of the definition opens. -/
def IsOpaque (definition : ListDefinition) : Term → Prop
  | .list found _ _ => found ≠ definition
  | .application symbol _ [_, _] => symbol.name ≠ definition.symbols.concat
  | _ => True

/-- Terms built from items and opaque parts by the constructors of a list. -/
inductive Listed (definition : ListDefinition) : Term → Prop where
  | items (heads : List Term) : Listed definition (.list definition heads none)
  | middle (heads tails : List Term) {term : Term} (h : Listed definition term) :
    Listed definition (.list definition heads (some (term, tails)))
  | concat {symbol : TermSymbol} (sortArguments : List KoreSort) {left right : Term}
    (hname : symbol.name = definition.symbols.concat)
    (hsymbol : symbol.attributes.collection = some (.list definition))
    (hleft : Listed definition left) (hright : Listed definition right) :
    Listed definition (.application symbol sortArguments [left, right])
  | part {term : Term} (hpart : IsOpaque definition term)
    (hsort : term.sort = Term.simpleSort definition.listSort) : Listed definition term

variable {d : ListDefinition}

attribute [local grind =] segments

theorem segments_part {t : Term} (h : IsOpaque d t) : segments d t = [.part t] := by
  unfold segments
  split
  · exact if_neg h
  · exact if_neg h
  · rfl

theorem segments_list (heads : List Term) :
    segments d (.list d heads none) = heads.map .item := by
  simp [segments]

theorem segments_middle (heads tails : List Term) (t : Term) :
    segments d (.list d heads (some (t, tails))) =
      heads.map .item ++ segments d t ++ tails.map .item := by
  simp [segments]

theorem segments_concat {symbol : TermSymbol} (sortArguments : List KoreSort) (left right : Term)
    (hname : symbol.name = d.symbols.concat) :
    segments d (.application symbol sortArguments [left, right]) =
      segments d left ++ segments d right := by
  simp [segments, hname]

end Segments

section Flatten

variable {d : ListDefinition}

def ListRun.segments : ListRun → List ListSegment
  | .items run => run.map .item
  | .part term => [.part term]

/-- A run whose part, if it is one, is opaque and of the list's sort. -/
def ListRun.Listed (d : ListDefinition) : ListRun → Prop
  | .items _ => True
  | .part term => IsOpaque d term ∧ term.sort = Term.simpleSort d.listSort

/-- A head that joins lists of the definition. -/
def Joins (d : ListDefinition) (head : Option ConcatHead) : Prop :=
  ∀ entry ∈ head, entry.1.name = d.symbols.concat ∧
    entry.1.attributes.collection = some (.list d)

attribute [local grind =] flattenListRuns

theorem flatten_list (heads : List Term) (runs : List ListRun) (head : Option ConcatHead) :
    flattenListRuns d (.list d heads none) (runs, head) = (pushItems runs heads, head) := by
  simp [flattenListRuns]

theorem flatten_middle (heads tails : List Term) (t : Term) (runs : List ListRun)
    (head : Option ConcatHead) :
    flattenListRuns d (.list d heads (some (t, tails))) (runs, head) =
      (pushItems (flattenListRuns d t (pushItems runs heads, head)).1 tails,
        (flattenListRuns d t (pushItems runs heads, head)).2) := by
  simp [flattenListRuns]

theorem flatten_concat {symbol : TermSymbol} (sortArguments : List KoreSort) (left right : Term)
    (hname : symbol.name = d.symbols.concat) (runs : List ListRun) (head : Option ConcatHead) :
    flattenListRuns d (.application symbol sortArguments [left, right]) (runs, head) =
      flattenListRuns d right
        (flattenListRuns d left (runs, head.or (some (symbol, sortArguments)))) := by
  simp [flattenListRuns, hname]

theorem flatten_part {t : Term} (h : IsOpaque d t) (runs : List ListRun)
    (head : Option ConcatHead) :
    flattenListRuns d t (runs, head) = (runs ++ [ListRun.part t], head) := by
  unfold flattenListRuns
  split
  · rename_i hpair
    cases hpair
    exact if_neg h
  · rename_i hpair
    cases hpair
    exact if_neg h
  · rename_i hpair
    cases hpair
    rfl

theorem pushItems_segments (runs : List ListRun) (heads : List Term) :
    (pushItems runs heads).flatMap ListRun.segments =
      runs.flatMap ListRun.segments ++ heads.map .item := by
  unfold pushItems
  split
  · rename_i h
    simp [List.isEmpty_iff.mp h]
  · split
    · rename_i last hlast
      obtain ⟨before, rfl⟩ := List.getLast?_eq_some_iff.mp hlast
      simp [ListRun.segments]
    · simp [ListRun.segments]

theorem pushItems_listed {runs : List ListRun} (heads : List Term)
    (h : ∀ run ∈ runs, run.Listed d) : ∀ run ∈ pushItems runs heads, run.Listed d := by
  unfold pushItems
  split
  · exact h
  · split
    · intro run hrun
      cases List.mem_append.mp hrun with
      | inl hbefore => exact h run (List.dropLast_subset _ hbefore)
      | inr hlast =>
        cases List.mem_singleton.mp hlast
        trivial
    · intro run hrun
      cases List.mem_append.mp hrun with
      | inl hbefore => exact h run hbefore
      | inr hlast =>
        cases List.mem_singleton.mp hlast
        trivial

/-- Reading a list keeps its segments. -/
theorem flatten_segments {t : Term} (h : Listed d t) (runs : List ListRun)
    (head : Option ConcatHead) :
    (flattenListRuns d t (runs, head)).1.flatMap ListRun.segments =
      runs.flatMap ListRun.segments ++ segments d t := by
  induction h generalizing runs head with
  | items heads => rw [flatten_list, segments_list, pushItems_segments]
  | middle heads tails h ih =>
    rw [flatten_middle, segments_middle, pushItems_segments, ih, pushItems_segments]
    simp
  | concat sortArguments hname hsymbol hleft hright ihl ihr =>
    rw [flatten_concat _ _ _ hname, segments_concat _ _ _ hname, ihr, ihl, List.append_assoc]
  | part hpart hsort =>
    rw [flatten_part hpart, segments_part hpart]
    simp [ListRun.segments]

theorem flatten_listed {t : Term} (h : Listed d t) {runs : List ListRun}
    (head : Option ConcatHead) (hruns : ∀ run ∈ runs, run.Listed d) :
    ∀ run ∈ (flattenListRuns d t (runs, head)).1, run.Listed d := by
  induction h generalizing runs head with
  | items heads =>
    rw [flatten_list]
    exact pushItems_listed heads hruns
  | middle heads tails h ih =>
    rw [flatten_middle]
    exact pushItems_listed tails (ih head (pushItems_listed heads hruns))
  | concat sortArguments hname hsymbol hleft hright ihl ihr =>
    rw [flatten_concat _ _ _ hname]
    exact ihr _ (ihl _ hruns)
  | part hpart hsort =>
    rw [flatten_part hpart]
    intro run hrun
    cases List.mem_append.mp hrun with
    | inl h => exact hruns run h
    | inr h =>
      cases List.mem_singleton.mp h
      exact ⟨hpart, hsort⟩

theorem flatten_joins {t : Term} (h : Listed d t) (runs : List ListRun)
    {head : Option ConcatHead} (hhead : Joins d head) :
    Joins d (flattenListRuns d t (runs, head)).2 := by
  induction h generalizing runs head with
  | items heads =>
    rw [flatten_list]
    exact hhead
  | middle heads tails h ih =>
    rw [flatten_middle]
    exact ih _ hhead
  | @concat symbol sortArguments left right hname hsymbol hleft hright ihl ihr =>
    rw [flatten_concat _ _ _ hname]
    have hjoins : Joins d (head.or (some (symbol, sortArguments))) := by
      cases head with
      | none =>
        rintro entry ⟨⟩
        exact ⟨hname, hsymbol⟩
      | some entry => exact hhead
    exact ihr _ (ihl _ hjoins)
  | part hpart hsort =>
    rw [flatten_part hpart]
    exact hhead

theorem flatten_head_isSome {t : Term} (h : Listed d t) (runs : List ListRun)
    {head : Option ConcatHead} (hhead : head.isSome) :
    (flattenListRuns d t (runs, head)).2.isSome := by
  induction h generalizing runs head with
  | items heads =>
    rw [flatten_list]
    exact hhead
  | middle heads tails h ih =>
    rw [flatten_middle]
    exact ih _ hhead
  | concat sortArguments hname hsymbol hleft hright ihl ihr =>
    rw [flatten_concat _ _ _ hname]
    exact ihr _ (ihl _ (by simp))
  | part hpart hsort =>
    rw [flatten_part hpart]
    exact hhead

/-- Two parts of a list come from a concatenation. -/
theorem flatten_head_of_parts {t : Term} (h : Listed d t) (runs : List ListRun)
    (head : Option ConcatHead) (hparts : 2 ≤ (Segment.parts (segments d t)).length) :
    (flattenListRuns d t (runs, head)).2.isSome := by
  induction h generalizing runs head with
  | items heads => simp [segments_list] at hparts
  | middle heads tails h ih =>
    rw [flatten_middle]
    rw [segments_middle] at hparts
    exact ih _ _ (by simpa using hparts)
  | concat sortArguments hname hsymbol hleft hright ihl ihr =>
    rw [flatten_concat _ _ _ hname]
    exact flatten_head_isSome hright _ (flatten_head_isSome hleft _ (by simp))
  | part hpart hsort => simp [segments_part hpart] at hparts

end Flatten

section Concat

variable {d : ListDefinition}

/-- The segments of a middle with the tails after it. -/
def restSegments (d : ListDefinition) : Option (Term × List Term) → List ListSegment
  | none => []
  | some (middle, tails) => segments d middle ++ tails.map .item

theorem segments_rest (heads : List Term) (rest : Option (Term × List Term)) :
    segments d (.list d heads rest) = heads.map .item ++ restSegments d rest := by
  cases rest with
  | none => simp [segments_list, restSegments]
  | some rest =>
    obtain ⟨t, tails⟩ := rest
    simp [segments_middle, restSegments]

theorem Listed.rest {heads : List Term} {rest : Option (Term × List Term)}
    (h : ∀ entry ∈ rest, Listed d entry.1) : Listed d (.list d heads rest) := by
  cases rest with
  | none => exact .items heads
  | some rest => exact .middle heads rest.2 (h rest rfl)

/-- The middle of a list term of the definition is a list itself. -/
theorem Listed.of_middle {heads tails : List Term} {t : Term}
    (h : Listed d (.list d heads (some (t, tails)))) : Listed d t := by
  cases h with
  | middle _ _ h => exact h
  | part hpart => exact absurd rfl hpart

attribute [local grind =] Term.listNode Term.listOfItems Term.itemsOnly Term.combineLists

theorem segments_listOfItems (heads : List Term) (rest : Option (Term × List Term)) :
    segments d (Term.listOfItems d heads rest) = heads.map .item ++ restSegments d rest := by
  have hbuild : ∀ heads rest, segments d (Term.listNode d (heads, rest)) =
      heads.map .item ++ restSegments d rest := by
    intro heads rest
    unfold Term.listNode
    split
    · rename_i hpair
      cases hpair
      simp [restSegments]
    · rename_i hpair
      cases hpair
      exact segments_rest heads rest
  unfold Term.listOfItems
  split
  · split
    · rename_i hnested
      cases hnested
      split
      · apply (hbuild _ _).trans
        simp [restSegments, segments_middle]
      · apply (hbuild _ _).trans
        simp [restSegments, segments_list]
    · exact hbuild _ _
  · exact hbuild _ _

theorem Listed.listOfItems (heads : List Term) {rest : Option (Term × List Term)}
    (h : ∀ entry ∈ rest, Listed d entry.1) : Listed d (Term.listOfItems d heads rest) := by
  have hbuild : ∀ heads rest, (∀ entry ∈ rest, Listed d entry.1) →
      Listed d (Term.listNode d (heads, rest)) := by
    intro heads rest h
    unfold Term.listNode
    split
    · rename_i hpair
      cases hpair
      exact h _ rfl
    · rename_i hpair
      cases hpair
      exact Listed.rest h
  unfold Term.listOfItems
  split
  · split
    · rename_i hnested
      cases hnested
      split
      · apply hbuild
        rintro entry ⟨⟩
        exact (h _ rfl).of_middle
      · exact hbuild _ _ (by rintro entry ⟨⟩)
    · exact hbuild _ _ h
  · exact hbuild _ _ h

theorem itemsOnly_eq_some {t : Term} {xs : List Term} (h : Term.itemsOnly d t = some xs) :
    t = .list d xs none := by
  unfold Term.itemsOnly at h
  split at h
  · split at h
    · rename_i hfound
      cases h
      rw [hfound]
    · cases h
  · cases h

/-- Joining two lists keeps their segments. -/
theorem segments_combineLists {symbol : TermSymbol} (sortArguments : List KoreSort)
    (left right : Term) (hname : symbol.name = d.symbols.concat) :
    segments d (Term.combineLists d symbol sortArguments left right) =
      segments d left ++ segments d right := by
  unfold Term.combineLists
  split
  · rename_i heads tails hleft hright
    rw [itemsOnly_eq_some hleft, itemsOnly_eq_some hright, segments_listOfItems, segments_list,
      segments_list]
    simp [restSegments]
  · rename_i heads hleft hright
    rw [itemsOnly_eq_some hleft, segments_list]
    split
    · split
      · rename_i hfound
        cases hfound
        rw [segments_listOfItems, segments_rest]
        simp
      · rw [segments_listOfItems]
        simp [restSegments]
    · rw [segments_listOfItems]
      simp [restSegments]
  · rename_i tails hleft hright
    rw [itemsOnly_eq_some hright, segments_list]
    split
    · split
      · rename_i hfound
        cases hfound
        rw [segments_listOfItems, segments_middle]
        simp [restSegments]
      · rw [segments_listOfItems]
        simp [restSegments]
    · rw [segments_listOfItems]
      simp [restSegments]
  · exact segments_concat _ _ _ hname

theorem Listed.combineLists {symbol : TermSymbol} (sortArguments : List KoreSort)
    {left right : Term} (hname : symbol.name = d.symbols.concat)
    (hsymbol : symbol.attributes.collection = some (.list d)) (hleft : Listed d left)
    (hright : Listed d right) :
    Listed d (Term.combineLists d symbol sortArguments left right) := by
  have hmiddle : ∀ {t : Term} {tails : List Term}, Listed d t →
      ∀ entry ∈ some (t, tails), Listed d entry.1 := by
    rintro t tails h entry ⟨⟩
    exact h
  unfold Term.combineLists
  split
  · exact Listed.listOfItems _ (by rintro entry ⟨⟩)
  · split
    · split
      · rename_i rest _ hfound
        cases hfound
        apply Listed.listOfItems
        rintro ⟨t, tails⟩ hentry
        cases rest with
        | none => cases hentry
        | some rest =>
          cases hentry
          exact hright.of_middle
      · exact Listed.listOfItems _ (hmiddle hright)
    · exact Listed.listOfItems _ (hmiddle hright)
  · split
    · split
      · rename_i hfound
        cases hfound
        exact Listed.listOfItems _ (hmiddle hleft.of_middle)
      · exact Listed.listOfItems _ (hmiddle hleft)
    · exact Listed.listOfItems _ (hmiddle hleft)
  · exact .concat _ hname hsymbol hleft hright

variable [CollectionOrder]

theorem mkApplication_concat {symbol : TermSymbol} (sortArguments : List KoreSort)
    (left right : Term) (hname : symbol.name = d.symbols.concat)
    (hsymbol : symbol.attributes.collection = some (.list d)) :
    Term.mkApplication symbol sortArguments [left, right] =
      Term.combineLists d symbol sortArguments left right := by
  simp [Term.mkApplication, hsymbol, Term.collectionApplication, hname]

/-- A term denotes the segments of some runs. -/
structure Denotes (d : ListDefinition) (t : Term) (segs : List ListSegment) : Prop where
  listed : Listed d t
  segments_eq : segments d t = segs

theorem ListRun.denotes {run : ListRun} (h : run.Listed d) :
    Denotes d (run.toTerm d) run.segments := by
  cases run with
  | items run =>
    constructor
    · exact @Listed.listOfItems d run none fun entry h => nomatch h
    · simp [ListRun.toTerm, segments_listOfItems, restSegments, ListRun.segments]
  | part t =>
    constructor
    · exact .part h.1 h.2
    · exact segments_part h.1

theorem foldl_denotes {symbol : TermSymbol} (sortArguments : List KoreSort)
    (hname : symbol.name = d.symbols.concat)
    (hsymbol : symbol.attributes.collection = some (.list d)) (runs : List ListRun)
    (hruns : ∀ run ∈ runs, run.Listed d) {t : Term} {segs : List ListSegment}
    (h : Denotes d t segs) :
    Denotes d
      ((runs.map (ListRun.toTerm d)).foldl
        (fun left right => Term.mkApplication symbol sortArguments [left, right]) t)
      (segs ++ runs.flatMap ListRun.segments) := by
  induction runs generalizing t segs with
  | nil => simpa using h
  | cons run runs ih =>
    have hrun := ListRun.denotes (hruns run List.mem_cons_self)
    have hstep : Denotes d (Term.mkApplication symbol sortArguments [t, run.toTerm d])
        (segs ++ run.segments) := by
      rw [mkApplication_concat _ _ _ hname hsymbol]
      constructor
      · exact Listed.combineLists _ hname hsymbol h.listed hrun.listed
      · rw [segments_combineLists _ _ _ hname, h.segments_eq, hrun.segments_eq]
    have htail := ih (fun run hrun => hruns run (List.mem_cons_of_mem _ hrun)) hstep
    simpa using htail

theorem concatItems_segments {runs : List ListRun}
    (hruns : ∀ run ∈ runs, run.Listed d) (hparts : (runs.filter ListRun.isPart).length ≤ 1) :
    (concatItems runs).1.map .item ++ restSegments d (concatItems runs).2 =
        runs.flatMap ListRun.segments ∧
      ∀ entry ∈ (concatItems runs).2, Listed d entry.1 := by
  induction runs with
  | nil => simp [concatItems, restSegments]
  | cons run runs ih =>
    have hrest : ∀ run ∈ runs, run.Listed d := fun run h =>
      hruns run (List.mem_cons_of_mem _ h)
    cases run with
    | items xs =>
      obtain ⟨heq, hlisted⟩ := ih hrest (by simpa [ListRun.isPart] using hparts)
      simp only [concatItems, List.flatMap_cons, ListRun.segments]
      constructor
      · rw [← heq]
        simp
      · exact hlisted
    | part t =>
      have ht : ListRun.Listed d (.part t) := hruns _ List.mem_cons_self
      have hzero : runs.filter ListRun.isPart = [] := by
        rw [List.filter_cons_of_pos rfl, List.length_cons] at hparts
        exact List.length_eq_zero_iff.mp (by omega)
      have hnone : ∀ run ∈ runs, ¬ run.isPart = true := List.filter_eq_nil_iff.mp hzero
      have htails : (runs.flatMap fun
          | .items xs => xs
          | .part _ => []).map .item = runs.flatMap ListRun.segments := by
        rw [List.map_flatMap]
        apply List.flatMap_congr
        intro run hrun
        cases run with
        | items xs => rfl
        | part t => exact absurd rfl (hnone _ hrun)
      simp only [concatItems, List.flatMap_cons, ListRun.segments]
      constructor
      · simp only [restSegments, List.map_nil, List.nil_append]
        exact congrArg₂ (· ++ ·) (segments_part ht.1) htails
      · rintro entry ⟨⟩
        exact .part ht.1 ht.2

/-- The concatenation of runs denotes their segments. -/
theorem concatListRuns_denotes {head : Option ConcatHead} {runs : List ListRun}
    (hhead : Joins d head) (hsome : head.isSome) (hruns : ∀ run ∈ runs, run.Listed d) :
    Denotes d (concatListRuns d head runs) (runs.flatMap ListRun.segments) := by
  unfold concatListRuns
  split
  · rename_i hparts
    obtain ⟨heq, hlisted⟩ := concatItems_segments hruns hparts
    constructor
    · exact Listed.listOfItems _ hlisted
    · rw [segments_listOfItems, heq]
  · rename_i hparts
    obtain ⟨⟨symbol, sortArguments⟩, rfl⟩ := Option.isSome_iff_exists.mp hsome
    obtain ⟨hname, hsymbol⟩ := hhead _ rfl
    cases runs with
    | nil => simp at hparts
    | cons run runs =>
      have h := foldl_denotes sortArguments hname hsymbol runs
        (fun run hrun => hruns run (List.mem_cons_of_mem _ hrun))
        (ListRun.denotes (hruns run List.mem_cons_self))
      simpa using h

end Concat

section Interpretation

/-- The items of a list as values and its parts as sequences of values. A list term has the
value that stands for the sequence of its elements. -/
structure Interpretation (d : ListDefinition) (V : Type) where
  value : Term → V
  elements : Term → List V
  sequence : List V → V
  sequence_injective : Function.Injective sequence
  value_listed : ∀ t, Listed d t → value t = sequence (elements t)
  elements_list : ∀ heads, elements (.list d heads none) = heads.map value
  elements_middle : ∀ heads t tails, elements (.list d heads (some (t, tails))) =
    heads.map value ++ elements t ++ tails.map value
  elements_concat : ∀ symbol sortArguments left right, symbol.name = d.symbols.concat →
    elements (.application symbol sortArguments [left, right]) = elements left ++ elements right

variable {d : ListDefinition} {V : Type} (I : Interpretation d V)

namespace Interpretation

def read : ListSegment → List V
  | .item t => [I.value t]
  | .part t => I.elements t

def readAll (segs : List ListSegment) : List V := segs.flatMap I.read

@[simp] theorem readAll_nil : I.readAll [] = [] := rfl

@[simp] theorem readAll_append (first second : List ListSegment) :
    I.readAll (first ++ second) = I.readAll first ++ I.readAll second := by
  simp [readAll]

@[simp] theorem readAll_map_item (xs : List Term) : I.readAll (xs.map .item) = xs.map I.value := by
  induction xs with
  | nil => rfl
  | cons x xs ih =>
    rw [List.map_cons, List.map_cons, ← ih]
    rfl

/-- The elements of a list are those of its segments. -/
theorem elements_eq {t : Term} (h : Listed d t) : I.elements t = I.readAll (segments d t) := by
  induction h with
  | items heads => rw [I.elements_list, segments_list, readAll_map_item]
  | middle heads tails h ih =>
    rw [I.elements_middle, segments_middle, readAll_append, readAll_append, ih, readAll_map_item,
      readAll_map_item]
  | concat sortArguments hname hsymbol hleft hright ihl ihr =>
    rw [I.elements_concat _ _ _ _ hname, segments_concat _ _ _ hname, readAll_append, ihl, ihr]
  | part hpart hsort =>
    rw [segments_part hpart]
    exact (List.append_nil _).symm

/-- Two lists have one value exactly when they have the same elements. -/
theorem value_eq_iff {s t : Term} (hs : Listed d s) (ht : Listed d t) :
    I.value s = I.value t ↔ I.elements s = I.elements t := by
  rw [I.value_listed s hs, I.value_listed t ht, I.sequence_injective.eq_iff]

theorem Denotes.value_eq_iff {s t : Term} {left right : List ListSegment}
    (hs : Denotes d s left) (ht : Denotes d t right) :
    I.value s = I.value t ↔ I.readAll left = I.readAll right := by
  rw [I.value_eq_iff hs.listed ht.listed, I.elements_eq hs.listed, I.elements_eq ht.listed,
    hs.segments_eq, ht.segments_eq]

section Valuation

open Classical in
/-- The elements of a term under a valuation of the items and of the opaque parts; a list among
the items has the value that stands for its own elements. -/
noncomputable def elementsUnder (d : ListDefinition) (items : Term → V) (parts : Term → List V)
    (sequence : List V → V) : Term → List V
  | .list found heads rest =>
    if found = d then
      (heads.attach.map fun t =>
          if Listed d t.1 then sequence (elementsUnder d items parts sequence t.1)
          else items t.1) ++
        match rest with
        | some (middle, tails) =>
          elementsUnder d items parts sequence middle ++ tails.attach.map fun t =>
            if Listed d t.1 then sequence (elementsUnder d items parts sequence t.1)
            else items t.1
        | none => []
    else parts (.list found heads rest)
  | .application symbol sortArguments [left, right] =>
    if symbol.name = d.symbols.concat then
      elementsUnder d items parts sequence left ++ elementsUnder d items parts sequence right
    else parts (.application symbol sortArguments [left, right])
  | t => parts t
termination_by t => sizeOf t
decreasing_by
  all_goals simp_wf
  all_goals try have := List.sizeOf_lt_of_mem t.2
  all_goals omega

open Classical in
noncomputable def valueUnder (d : ListDefinition) (items : Term → V) (parts : Term → List V)
    (sequence : List V → V) (t : Term) : V :=
  if Listed d t then sequence (elementsUnder d items parts sequence t) else items t

/-- Every valuation of the items as values and of the opaque parts as sequences gives an
interpretation. -/
noncomputable def ofValuation (d : ListDefinition) (items : Term → V) (parts : Term → List V)
    (sequence : List V → V) (hsequence : Function.Injective sequence) : Interpretation d V where
  value := valueUnder d items parts sequence
  elements := elementsUnder d items parts sequence
  sequence := sequence
  sequence_injective := hsequence
  value_listed t h := if_pos h
  elements_list heads := by
    rw [elementsUnder, if_pos rfl, List.append_nil]
    exact List.attach_map_val (f := valueUnder d items parts sequence)
  elements_middle heads t tails := by
    rw [elementsUnder, if_pos rfl, List.append_assoc]
    exact congrArg₂ (· ++ ·) (List.attach_map_val (f := valueUnder d items parts sequence))
      (congrArg (elementsUnder d items parts sequence t ++ ·)
        (List.attach_map_val (f := valueUnder d items parts sequence)))
  elements_concat symbol sortArguments left right hname := by
    rw [elementsUnder, if_pos hname]

variable (items : Term → V) (parts : Term → List V) {sequence : List V → V}
  (hsequence : Function.Injective sequence)

theorem ofValuation_item {t : Term} (h : ¬ Listed d t) :
    (ofValuation d items parts sequence hsequence).value t = items t := if_neg h

theorem ofValuation_part {t : Term} (h : IsOpaque d t) :
    (ofValuation d items parts sequence hsequence).elements t = parts t := by
  simp only [ofValuation]
  unfold elementsUnder
  split
  · exact if_neg h
  · exact if_neg h
  · rfl

end Valuation

end Interpretation

end Interpretation

end KRust.Backend.ListImplication
