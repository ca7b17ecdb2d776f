import KRust.Backend.ApartSearch
import KRust.Backend.SortOrder
import Mathlib.Data.Finset.Preimage
import Mathlib.Order.Preorder.Finite

/-!
The answers of the subsort order against the reflexive-transitive closure of the declared pairs,
on every instance of the sorts asked about, and what they say of the injections of a model.
-/

namespace KRust.Backend

open KRust.Kore KRust.Lib
open Relation (ReflTransGen)

section Instances

/-- A sort with closed sorts for its variables. -/
def instanceAt (σ : String → ClosedSort) : KoreSort → KoreSort := assign fun name => (σ name).val

theorem instanceAt_application (σ : String → ClosedSort) (head : String)
    (arguments : List KoreSort) : instanceAt σ (.application head arguments) =
      .application head (assign.assignAll (fun name => (σ name).val) arguments) := rfl

mutual

theorem instanceAt_closed (σ : String → ClosedSort) :
    (sort : KoreSort) → firstSortVariable sort = none → instanceAt σ sort = sort
  | .var name, h => by simp [firstSortVariable] at h
  | .application name arguments, h => by
    rw [firstSortVariable] at h
    rw [instanceAt_application, assignAll_closed σ arguments h]

theorem assignAll_closed (σ : String → ClosedSort) :
    (sorts : List KoreSort) → firstSortVariable.firstOf sorts = none →
      assign.assignAll (fun name => (σ name).val) sorts = sorts
  | [], _ => rfl
  | sort :: sorts, h => by
    rw [firstSortVariable.firstOf, Option.or_eq_none_iff] at h
    rw [assign.assignAll, assignAll_closed σ sorts h.2]
    exact congrArg (· :: sorts) (instanceAt_closed σ sort h.1)

end

end Instances

section Closure

/-- A declared pair: the first sort is a subsort of the second. -/
def DeclaredBelow (pairs : List (ClosedSort × ClosedSort)) (sub sup : KoreSort) : Prop :=
  ∃ pair ∈ pairs, pair.1.val = sub ∧ pair.2.val = sup

def Below (pairs : List (ClosedSort × ClosedSort)) : KoreSort → KoreSort → Prop :=
  ReflTransGen (DeclaredBelow pairs)

/-- A closure of declared pairs: each supersort is a node, and each node has exactly the sorts
below it. -/
structure SubsortClosure (pairs : List (ClosedSort × ClosedSort)) where
  rows : List (ClosedSort × List ClosedSort)
  nodup : (rows.map Prod.fst).Nodup
  node : ∀ pair ∈ pairs, pair.2 ∈ rows.map Prod.fst
  mem_iff : ∀ sup subs, (sup, subs) ∈ rows → ∀ sub, sub ∈ subs ↔ Below pairs sub.val sup.val

variable {pairs : List (ClosedSort × ClosedSort)}

theorem Below.closed {sub sup : KoreSort} (h : Below pairs sub sup) (hne : sub ≠ sup) :
    firstSortVariable sub = none ∧ firstSortVariable sup = none := by
  constructor
  · rcases ReflTransGen.cases_head h with heq | ⟨_, ⟨pair, _, rfl, _⟩, _⟩
    · exact absurd heq hne
    · exact pair.1.property
  · rcases ReflTransGen.cases_tail h with heq | ⟨_, _, ⟨pair, _, _, rfl⟩⟩
    · exact absurd heq.symm hne
    · exact pair.2.property

namespace SubsortClosure

variable (closure : SubsortClosure pairs) (ids : SortIds) (constructors : List String)

/-- The graph that is built from the closure. -/
def graph : IndexedSortGraph := .fromClosure ids constructors closure.rows

theorem below_eq : (closure.graph ids constructors).below =
    closure.rows.map fun (sup, subs) => (sup.val, subs.map Subtype.val) := rfl

theorem keys_nodup : ((closure.graph ids constructors).below.map Prod.fst).Nodup := by
  have hkeys : (closure.graph ids constructors).below.map Prod.fst =
      (closure.rows.map Prod.fst).map Subtype.val := by
    rw [below_eq, List.map_map, List.map_map]
    rfl
  rw [hkeys]
  exact closure.nodup.map Subtype.val_injective

theorem mem_of_lookup {α β : Type} [BEq α] [LawfulBEq α] {key : α} {value : β}
    {entries : List (α × β)} (h : entries.lookup key = some value) : (key, value) ∈ entries := by
  obtain ⟨before, after, rfl, _⟩ := List.lookup_eq_some_iff.mp h
  simp

/-- A node has exactly the sorts below it. -/
theorem mem_lookup_iff {sup : KoreSort} {subs : List KoreSort}
    (h : (closure.graph ids constructors).below.lookup sup = some subs) (sub : KoreSort) :
    sub ∈ subs ↔ Below pairs sub sup := by
  have hmem := mem_of_lookup h
  rw [below_eq, List.mem_map] at hmem
  obtain ⟨⟨node, nodes⟩, hrow, heq⟩ := hmem
  obtain ⟨rfl, rfl⟩ := Prod.mk.inj heq
  have hiff := closure.mem_iff node nodes hrow
  rw [List.mem_map]
  constructor
  · rintro ⟨sort, hsort, rfl⟩
    exact (hiff sort).mp hsort
  · intro hbelow
    by_cases hsame : sub = node.val
    · exact ⟨node, (hiff node).mpr .refl, hsame.symm⟩
    · have hclosed := (Below.closed hbelow hsame).1
      exact ⟨⟨sub, hclosed⟩, (hiff ⟨sub, hclosed⟩).mpr hbelow, rfl⟩

theorem closed_of_lookup {sup : KoreSort} {subs : List KoreSort}
    (h : (closure.graph ids constructors).below.lookup sup = some subs) :
    firstSortVariable sup = none := by
  have hmem := mem_of_lookup h
  rw [below_eq, List.mem_map] at hmem
  obtain ⟨⟨node, nodes⟩, _, heq⟩ := hmem
  obtain ⟨rfl, rfl⟩ := Prod.mk.inj heq
  exact node.property

/-- Nothing else is below a sort that is no node. -/
theorem eq_of_lookup_none {sub sup : KoreSort}
    (h : (closure.graph ids constructors).below.lookup sup = none) (hbelow : Below pairs sub sup) :
    sub = sup := by
  rcases ReflTransGen.cases_tail hbelow with heq | ⟨_, _, ⟨pair, hpair, _, rfl⟩⟩
  · exact heq.symm
  · obtain ⟨⟨node, subs⟩, hrow, heq⟩ := List.mem_map.mp (closure.node pair hpair)
    rw [List.lookup_eq_none_iff] at h
    have hne := h (node.val, subs.map Subtype.val) (List.mem_map.mpr ⟨_, hrow, rfl⟩)
    rw [show node = pair.2 from heq] at hne
    simp at hne

/-- The row of a sort that is a node stands for the sorts below it. -/
theorem row_cases (sup : KoreSort) :
    ((closure.graph ids constructors).dense.rowOf ids sup = none ∧
        ∀ sub, Below pairs sub sup ↔ sub = sup) ∨
      ∃ row subs, (closure.graph ids constructors).dense.rowOf ids sup = some row ∧
        (closure.graph ids constructors).below.lookup sup = some subs ∧
        DenseBelow.Stands ids (closure.graph ids constructors).below row subs ∧
        firstSortVariable sup = none ∧ ∀ sub, sub ∈ subs ↔ Below pairs sub sup := by
  rcases DenseBelow.rowOf_of ids (closure.keys_nodup ids constructors) sup with
    ⟨hlookup, hdense⟩ | ⟨subs, row, hlookup, hdense, hrow⟩
  · refine .inl ⟨hdense, fun sub => ⟨closure.eq_of_lookup_none ids constructors hlookup, ?_⟩⟩
    rintro rfl
    exact .refl
  · exact .inr ⟨row, subs, hdense, hlookup, hrow, closure.closed_of_lookup ids constructors hlookup,
      closure.mem_lookup_iff ids constructors hlookup⟩

theorem holds_iff {row : List BitRows.Word} {subs : List KoreSort}
    (h : DenseBelow.Stands ids (closure.graph ids constructors).below row subs) (sort : KoreSort) :
    (closure.graph ids constructors).dense.holds ids row sort = true ↔ sort ∈ subs := h.holds_iff sort

/-- The rows answer as the closure that they are built from. -/
theorem rows_answer (sup : KoreSort) :
    match (closure.graph ids constructors).below.lookup sup,
      (closure.graph ids constructors).dense.rowOf ids sup with
    | none, none => True
    | some subs, some row =>
      ∀ sub, (closure.graph ids constructors).dense.holds ids row sub = true ↔ sub ∈ subs
    | _, _ => False := by
  rcases DenseBelow.rowOf_of ids (closure.keys_nodup ids constructors) sup with
    ⟨hlookup, hdense⟩ | ⟨subs, row, hlookup, hdense, hrow⟩
  · have hnone : (closure.graph ids constructors).dense.rowOf ids sup = none := hdense
    rw [hlookup, hnone]
    trivial
  · have hsome : (closure.graph ids constructors).dense.rowOf ids sup = some row := hdense
    rw [hlookup, hsome]
    exact closure.holds_iff ids constructors hrow

/-- The question asked of the rows is the question asked of the closure. -/
theorem checkSubsort_eq (sub sup : KoreSort) :
    (closure.graph ids constructors).checkSubsort ids sub sup =
      (closure.graph ids constructors).toSortGraph.checkSubsort sub sup := by
  have hrow := closure.rows_answer ids constructors sup
  cases hlookup : (closure.graph ids constructors).below.lookup sup with
  | none =>
    cases hdense : (closure.graph ids constructors).dense.rowOf ids sup with
    | none =>
      rw [IndexedSortGraph.checkSubsort.eq_def, SortGraph.checkSubsort.eq_def, hlookup, hdense]
      rfl
    | some row =>
      rw [hlookup, hdense] at hrow
      exact hrow.elim
  | some subs =>
    cases hdense : (closure.graph ids constructors).dense.rowOf ids sup with
    | none =>
      rw [hlookup, hdense] at hrow
      exact hrow.elim
    | some row =>
      rw [hlookup, hdense] at hrow
      have hcontains : (closure.graph ids constructors).dense.holds ids row sub =
          subs.contains sub := by
        rw [Bool.eq_iff_iff, hrow, List.contains_iff_mem]
      rw [IndexedSortGraph.checkSubsort.eq_def, SortGraph.checkSubsort.eq_def, hlookup, hdense]
      simp only [Option.any_some, hcontains]
      rfl

end SubsortClosure

end Closure

section Heads

open IndexedSortGraph (addHeads)

theorem lookup_addHeads (head other : String) (heads : List String)
    (headsBelow : List (String × List String)) :
    (addHeads head heads headsBelow).lookup other =
      if other = head then some ((headsBelow.lookup head).getD [] ++ heads)
      else headsBelow.lookup other := by
  induction headsBelow with
  | nil =>
    by_cases h : other = head
    · simp [addHeads, h]
    · simp [addHeads, List.lookup_cons, h, beq_false_of_ne h]
  | cons entry headsBelow ih =>
    obtain ⟨name, others⟩ := entry
    rw [addHeads]
    by_cases hname : name = head
    · subst hname
      by_cases h : other = name
      · simp [h]
      · simp [List.lookup_cons, h, beq_false_of_ne h]
    · rw [if_neg hname, List.lookup_cons, ih, List.lookup_cons, List.lookup_cons]
      by_cases h : other = name
      · subst h
        simp [hname]
      · simp [beq_false_of_ne h, beq_false_of_ne (Ne.symm hname)]

/-- The heads added stay, and those added before them. -/
theorem lookup_foldl_addHeads {α : Type} (key : α → String) (heads : α → List String)
    (entries : List α) (headsBelow : List (String × List String)) (head name : String)
    (h : (∃ entry ∈ entries, key entry = head ∧ name ∈ heads entry) ∨
      ∃ found, headsBelow.lookup head = some found ∧ name ∈ found) :
    ∃ found, (entries.foldl (fun headsBelow entry =>
      addHeads (key entry) (heads entry) headsBelow) headsBelow).lookup head = some found ∧
        name ∈ found := by
  induction entries generalizing headsBelow with
  | nil => exact h.elim (fun ⟨_, hmem, _⟩ => (List.not_mem_nil hmem).elim) id
  | cons entry entries ih =>
    rw [List.foldl_cons]
    refine ih _ ?_
    rcases h with ⟨other, hother, hkey, hname⟩ | ⟨found, hfound, hname⟩
    · rcases List.mem_cons.mp hother with rfl | hother
      · refine .inr ⟨_, by rw [lookup_addHeads, if_pos hkey.symm], ?_⟩
        exact List.mem_append_right _ hname
      · exact .inl ⟨other, hother, hkey, hname⟩
    · refine .inr ?_
      rw [lookup_addHeads]
      by_cases hkey : head = key entry
      · rw [if_pos hkey, ← hkey, hfound]
        exact ⟨_, rfl, List.mem_append_left _ hname⟩
      · rw [if_neg hkey]
        exact ⟨found, hfound, hname⟩

variable {pairs : List (ClosedSort × ClosedSort)} (closure : SubsortClosure pairs) (ids : SortIds)
  (constructors : List String)

/-- The heads below the head of a node. -/
theorem SubsortClosure.head_below {sub sup : KoreSort} {subs : List KoreSort}
    (h : (closure.graph ids constructors).below.lookup sup = some subs)
    (hsub : sub = sup ∨ sub ∈ subs) :
    ∃ heads, (closure.graph ids constructors).headsBelow.lookup (sortHead sup) = some heads ∧
      sortHead sub ∈ heads := by
  have hmem := mem_of_lookup h
  have hfold := lookup_foldl_addHeads
    (fun entry : KoreSort × List KoreSort => sortHead entry.1)
    (fun entry => sortHead entry.1 :: entry.2.map sortHead)
    (closure.graph ids constructors).below (constructors.map fun name => (name, [name]))
    (sortHead sup) (sortHead sub)
  refine hfold (.inl ⟨(sup, subs), hmem, rfl, ?_⟩)
  rcases hsub with rfl | hsub
  · exact List.mem_cons_self
  · exact List.mem_cons_of_mem _ (List.mem_map.mpr ⟨sub, hsub, rfl⟩)

theorem SubsortClosure.declares_node {sup : KoreSort} {subs : List KoreSort}
    (h : (closure.graph ids constructors).below.lookup sup = some subs) :
    (closure.graph ids constructors).declares (sortHead sup) = true := by
  obtain ⟨heads, hheads, _⟩ := closure.head_below ids constructors h (.inl rfl)
  rw [SortGraph.declares, hheads, Option.isSome_some, Bool.or_true]

end Heads

section Questions

variable {pairs : List (ClosedSort × ClosedSort)} (closure : SubsortClosure pairs) (ids : SortIds)
  (constructors : List String)

namespace SubsortClosure

/-- A sort with another head than any below the head of a sort is below no instance of it. -/
theorem not_below_of_heads {sub sup : KoreSort} {subHead supHead : String}
    {subArguments supArguments : List KoreSort}
    (hsub : sub = .application subHead subArguments)
    (hsup : sup = .application supHead supArguments) (hhead : subHead ≠ supHead)
    (hheads : ((closure.graph ids constructors).headsBelow.lookup supHead).any
      (·.contains subHead) = false) : ¬ Below pairs sub sup := by
  intro hbelow
  have hne : sub ≠ sup := by
    rintro rfl
    rw [hsub, KoreSort.application.injEq] at hsup
    exact hhead hsup.1
  cases hlookup : (closure.graph ids constructors).below.lookup sup with
  | none => exact hne (closure.eq_of_lookup_none ids constructors hlookup hbelow)
  | some subs =>
    have hmem := (closure.mem_lookup_iff ids constructors hlookup sub).mpr hbelow
    obtain ⟨heads, hfound, hin⟩ := closure.head_below ids constructors hlookup (.inr hmem)
    rw [hsup] at hfound
    rw [hsub] at hin
    change (closure.graph ids constructors).headsBelow.lookup supHead = some heads at hfound
    change subHead ∈ heads at hin
    rw [hfound, Option.any_some, List.contains_eq_mem, decide_eq_false_iff_not] at hheads
    exact hheads hin

/-- Every closed instance answers as the question about the sorts does. -/
theorem checkSubsort_sound {sub sup : KoreSort} {answer : Bool}
    (h : (closure.graph ids constructors).checkSubsort ids sub sup = .ok answer)
    (σ : String → ClosedSort) :
    answer = true ↔ Below pairs (instanceAt σ sub) (instanceAt σ sup) := by
  rw [IndexedSortGraph.checkSubsort.eq_def] at h
  split at h
  · rename_i hsame
    cases h
    rw [hsame]
    exact iff_of_true rfl .refl
  · rename_i hne
    split at h
    · cases h
    · cases h
    · rename_i subHead subArguments supHead supArguments
      have hrefute : (subHead ≠ supHead &&
          !((closure.graph ids constructors).headsBelow.lookup supHead).any
            (·.contains subHead)) = true →
          ¬ Below pairs (instanceAt σ (.application subHead subArguments))
            (instanceAt σ (.application supHead supArguments)) := by
        intro hheads
        rw [Bool.and_eq_true, decide_eq_true_iff, Bool.not_eq_true'] at hheads
        exact closure.not_below_of_heads ids constructors (instanceAt_application σ _ _)
          (instanceAt_application σ _ _)
          hheads.1 hheads.2
      rcases closure.row_cases ids constructors (.application supHead supArguments) with
        ⟨hrow, hbelow⟩ | ⟨row, subs, hrow, _, hstands, hclosed, hbelow⟩
      · simp only [hrow, Option.any_none, Option.isSome_none, Bool.false_and,
          Bool.false_eq_true, ↓reduceIte] at h
        split at h
        · cases h
        · split at h
          · rename_i hnone
            cases h
            rw [Option.or_eq_none_iff] at hnone
            rw [instanceAt_closed σ _ hnone.1, instanceAt_closed σ _ hnone.2, hbelow]
            exact iff_of_false nofun hne
          · split at h
            · rename_i hheads
              cases h
              exact iff_of_false nofun (hrefute hheads)
            · cases h
      · have hin_iff := (closure.holds_iff ids constructors hstands
          (.application subHead subArguments)).trans (hbelow _)
        simp only [hrow, Option.any_some, Option.isSome_some, Bool.true_and] at h
        split at h
        · rename_i hin
          cases h
          rw [hin_iff] at hin
          rw [instanceAt_closed σ _ (Below.closed hin hne).1, instanceAt_closed σ _ hclosed]
          exact iff_of_true rfl hin
        · rename_i hout
          rw [hin_iff] at hout
          split at h
          · rename_i hsub
            cases h
            rw [Option.isNone_iff_eq_none] at hsub
            rw [instanceAt_closed σ _ hsub, instanceAt_closed σ _ hclosed]
            exact iff_of_false nofun hout
          · rename_i hopen
            split at h
            · cases h
            · split at h
              · rename_i hnone
                rw [Option.or_eq_none_iff] at hnone
                exact absurd (Option.isNone_iff_eq_none.mpr hnone.1) hopen
              · split at h
                · rename_i hheads
                  cases h
                  exact iff_of_false nofun (hrefute hheads)
                · cases h

/-- Two closed sorts are answered true just when one is below the other. -/
theorem checkSubsort_true_iff {sub sup : KoreSort} (hsub : firstSortVariable sub = none)
    (hsup : firstSortVariable sup = none) :
    (closure.graph ids constructors).checkSubsort ids sub sup = .ok true ↔
      Below pairs sub sup := by
  obtain ⟨σ⟩ : Nonempty (String → ClosedSort) := ⟨fun _ => ⟨sub, hsub⟩⟩
  constructor
  · intro h
    have hsound := (closure.checkSubsort_sound ids constructors h σ).mp rfl
    rwa [instanceAt_closed σ _ hsub, instanceAt_closed σ _ hsup] at hsound
  · intro h
    rw [IndexedSortGraph.checkSubsort.eq_def]
    split
    · rfl
    · rename_i hne
      split
      · simp [firstSortVariable] at hsub
      · simp [firstSortVariable] at hsup
      · rcases closure.row_cases ids constructors (.application _ _) with
          ⟨_, hbelow⟩ | ⟨row, subs, hrow, _, hstands, _, hbelow⟩
        · exact absurd ((hbelow _).mp h) hne
        · have hin := ((closure.holds_iff ids constructors hstands _).trans (hbelow _)).mpr h
          simp only [hrow, Option.any_some, hin, if_true]

/-- The question about two closed sorts has an answer where the head of the greater is declared. -/
theorem checkSubsort_closed {sub sup : KoreSort} (hsub : firstSortVariable sub = none)
    (hsup : firstSortVariable sup = none)
    (hdeclared : (closure.graph ids constructors).declares (sortHead sup) = true) :
    ∃ answer, (closure.graph ids constructors).checkSubsort ids sub sup = .ok answer := by
  rw [IndexedSortGraph.checkSubsort.eq_def]
  split
  · exact ⟨_, rfl⟩
  · split
    · simp [firstSortVariable] at hsub
    · simp [firstSortVariable] at hsup
    · rw [sortHead] at hdeclared
      simp only [hsub, hsup, hdeclared, Option.or_none, Bool.not_true, Bool.false_eq_true, if_false]
      split
      · exact ⟨_, rfl⟩
      · split <;> exact ⟨_, rfl⟩

/-- What an answer of `order` says of every closed instance. -/
def OrderHolds (pairs : List (ClosedSort × ClosedSort)) (left right : KoreSort)
    (answer : SortOrder) : Prop :=
  ∀ σ : String → ClosedSort,
    match answer with
    | .below => Below pairs (instanceAt σ left) (instanceAt σ right)
    | .above => Below pairs (instanceAt σ right) (instanceAt σ left)
    | .incomparable => ¬ Below pairs (instanceAt σ left) (instanceAt σ right) ∧
        ¬ Below pairs (instanceAt σ right) (instanceAt σ left)
    | .undecided _ => True

theorem order_holds (left right : KoreSort) :
    OrderHolds pairs left right ((closure.graph ids constructors).order ids left right) := by
  intro σ
  have hbelow : ∀ answer, (closure.graph ids constructors).checkSubsort ids left right = .ok answer →
      (answer = true ↔ Below pairs (instanceAt σ left) (instanceAt σ right)) :=
    fun _ h => closure.checkSubsort_sound ids constructors h σ
  have habove : ∀ answer, (closure.graph ids constructors).checkSubsort ids right left = .ok answer →
      (answer = true ↔ Below pairs (instanceAt σ right) (instanceAt σ left)) :=
    fun _ h => closure.checkSubsort_sound ids constructors h σ
  rw [IndexedSortGraph.order]
  cases hleft : (closure.graph ids constructors).checkSubsort ids left right with
  | ok below =>
    cases below with
    | true => exact (hbelow true hleft).mp rfl
    | false =>
      have hnot := (hbelow false hleft).not.mp nofun
      cases hright : (closure.graph ids constructors).checkSubsort ids right left with
      | ok above =>
        cases above with
        | true => exact (habove true hright).mp rfl
        | false => exact ⟨hnot, (habove false hright).not.mp nofun⟩
      | error error => trivial
  | error error =>
    cases hright : (closure.graph ids constructors).checkSubsort ids right left with
    | ok above =>
      cases above with
      | true => exact (habove true hright).mp rfl
      | false => trivial
    | error error => trivial

/-- Two closed sorts of declared heads are never left undecided. -/
theorem order_closed {left right : KoreSort} (hleft : firstSortVariable left = none)
    (hright : firstSortVariable right = none)
    (hdeclared : (closure.graph ids constructors).declares (sortHead left) = true)
    (hdeclared' : (closure.graph ids constructors).declares (sortHead right) = true)
    (error : SortError) :
    (closure.graph ids constructors).order ids left right ≠ .undecided error := by
  obtain ⟨below, hbelow⟩ := closure.checkSubsort_closed ids constructors hleft hright hdeclared'
  obtain ⟨above, habove⟩ := closure.checkSubsort_closed ids constructors hright hleft hdeclared
  rw [IndexedSortGraph.order, hbelow, habove]
  cases below <;> cases above <;> simp

/-- The rows of two nodes meet where the nodes have a common subsort. -/
theorem meets_iff {left right : List BitRows.Word} {lefts rights : List KoreSort}
    (hleft : DenseBelow.Stands ids (closure.graph ids constructors).below left lefts)
    (hright : DenseBelow.Stands ids (closure.graph ids constructors).below right rights) :
    BitRows.meets left right = true ↔ ∃ sort ∈ lefts, sort ∈ rights := hleft.meets_iff hright

/-- Where the overlap of two sorts is known, they are closed and it is the overlap of what is
below them. -/
theorem knownOverlap_sound {left right : KoreSort} {answer : Bool}
    (h : (closure.graph ids constructors).knownOverlap ids left right = some answer) :
    (firstSortVariable left = none ∧ firstSortVariable right = none) ∧
      (answer = true ↔ ∃ sort, Below pairs sort left ∧ Below pairs sort right) := by
  rw [IndexedSortGraph.knownOverlap.eq_def] at h
  rcases closure.row_cases ids constructors left with
    ⟨hleft, hbelow⟩ | ⟨row, subs, hleft, _, hstands, hclosed, hbelow⟩
  · rcases closure.row_cases ids constructors right with
      ⟨hright, hbelow'⟩ | ⟨row', subs', hright, _, hstands', hclosed', hbelow'⟩
    · rw [hleft, hright] at h
      simp only at h
      split at h
      · split at h
        · cases h
        · rename_i hknown
          cases h
          simp only [Bool.or_eq_true, not_or, Option.not_isSome_iff_eq_none] at hknown
          refine ⟨hknown.1.1, ?_⟩
          simp only [hbelow, hbelow', decide_eq_true_iff, exists_eq_left]
      · cases h
    · rw [hleft, hright] at h
      simp only at h
      split at h
      · split at h
        · cases h
        · rename_i hknown
          cases h
          simp only [Bool.or_eq_true, not_or, Option.not_isSome_iff_eq_none] at hknown
          refine ⟨hknown.1.1, ?_⟩
          rw [closure.holds_iff ids constructors hstands', hbelow']
          simp only [hbelow, exists_eq_left]
      · cases h
  · rcases closure.row_cases ids constructors right with
      ⟨hright, hbelow'⟩ | ⟨row', subs', hright, _, hstands', hclosed', hbelow'⟩
    · rw [hleft, hright] at h
      simp only at h
      split at h
      · split at h
        · cases h
        · rename_i hknown
          cases h
          simp only [Bool.or_eq_true, not_or, Option.not_isSome_iff_eq_none] at hknown
          refine ⟨hknown.1.1, ?_⟩
          rw [closure.holds_iff ids constructors hstands, hbelow]
          simp only [hbelow', exists_eq_right]
      · cases h
    · rw [hleft, hright] at h
      cases h
      refine ⟨⟨hclosed, hclosed'⟩, ?_⟩
      rw [closure.meets_iff ids constructors hstands hstands']
      simp only [hbelow, hbelow']

theorem knownOverlap_closed {left right : KoreSort} (hleft : firstSortVariable left = none)
    (hright : firstSortVariable right = none)
    (hdeclared : (closure.graph ids constructors).declares (sortHead left) = true)
    (hdeclared' : (closure.graph ids constructors).declares (sortHead right) = true) :
    ∃ answer, (closure.graph ids constructors).knownOverlap ids left right = some answer := by
  rw [IndexedSortGraph.knownOverlap.eq_def]
  split
  · exact ⟨_, rfl⟩
  · split
    · rw [sortHead] at hdeclared hdeclared'
      simp [hleft, hright, hdeclared, hdeclared']
    · rename_i hnot
      cases left with
      | var => simp [firstSortVariable] at hleft
      | application => cases right with
        | var => simp [firstSortVariable] at hright
        | application => exact absurd rfl (hnot _ _ _ _ rfl)

theorem mem_down_iff {sort : KoreSort} (sub : KoreSort) :
    sub ∈ (closure.graph ids constructors).down sort ↔ Below pairs sub sort := by
  rw [IndexedSortGraph.down]
  cases hlookup : (closure.graph ids constructors).below.lookup sort with
  | none =>
    rw [Option.getD_none, List.mem_singleton]
    refine ⟨?_, closure.eq_of_lookup_none ids constructors hlookup⟩
    rintro rfl
    exact .refl
  | some subs => exact closure.mem_lookup_iff ids constructors hlookup sub

/-- The common subsorts that are kept: those with no other common subsort above them. -/
theorem mem_maximalCommonSubsorts {left right : KoreSort} {kept : List KoreSort}
    (h : (closure.graph ids constructors).maximalCommonSubsorts ids left right = some kept)
    (sort : KoreSort) :
    sort ∈ kept ↔ (Below pairs sort left ∧ Below pairs sort right) ∧
      ∀ other, Below pairs other left → Below pairs other right → other ≠ sort →
        ¬ Below pairs sort other := by
  rw [IndexedSortGraph.maximalCommonSubsorts, Option.bind_eq_bind, Option.bind_eq_some_iff] at h
  obtain ⟨answer, hknown, hkept⟩ := h
  obtain ⟨⟨hleft, hright⟩, _⟩ := closure.knownOverlap_sound ids constructors hknown
  cases hkept
  have hclosed : ∀ other, Below pairs other left → firstSortVariable other = none := by
    intro other hother
    by_cases hsame : other = left
    · rw [hsame, hleft]
    · exact (Below.closed hother hsame).1
  rw [List.mem_filter, List.mem_filter, decide_eq_true_iff, closure.mem_down_iff,
    closure.mem_down_iff, Bool.not_eq_true', List.any_eq_false]
  refine and_congr_right fun hcommon => ?_
  constructor
  · intro hall other hl hr hne hbelow
    refine hall other ?_ ?_
    · rw [List.mem_filter, decide_eq_true_iff, closure.mem_down_iff, closure.mem_down_iff]
      exact ⟨hl, hr⟩
    · rw [Bool.and_eq_true, decide_eq_true_iff, decide_eq_true_iff]
      exact ⟨hne, (closure.checkSubsort_true_iff ids constructors (hclosed _ hcommon.1)
        (hclosed _ hl)).mpr hbelow⟩
  · intro hall other hother hkept
    rw [List.mem_filter, decide_eq_true_iff, closure.mem_down_iff, closure.mem_down_iff] at hother
    rw [Bool.and_eq_true, decide_eq_true_iff, decide_eq_true_iff] at hkept
    exact hall other hother.1 hother.2 hkept.1 ((closure.checkSubsort_true_iff ids constructors
      (hclosed _ hcommon.1) (hclosed _ hother.1)).mp hkept.2)

theorem maximalCommonSubsorts_isSome {left right : KoreSort} {answer : Bool}
    (h : (closure.graph ids constructors).knownOverlap ids left right = some answer) :
    ∃ kept, (closure.graph ids constructors).maximalCommonSubsorts ids left right = some kept := by
  rw [IndexedSortGraph.maximalCommonSubsorts, h]
  exact ⟨_, rfl⟩

end SubsortClosure

/-- No two different sorts are below each other. -/
def Acyclic (pairs : List (ClosedSort × ClosedSort)) : Prop :=
  ∀ left right, Below pairs left right → Below pairs right left → left = right

/-- The sorts that are maximal below both of two sorts. -/
def IsMaximalCommon (pairs : List (ClosedSort × ClosedSort)) (left right sort : KoreSort) : Prop :=
  (Below pairs sort left ∧ Below pairs sort right) ∧
    ∀ other, Below pairs other left → Below pairs other right → Below pairs sort other →
      Below pairs other sort

namespace SubsortClosure

/-- Without cycles, what is kept is what is maximal. -/
theorem mem_maximal_iff (hacyclic : Acyclic pairs) {left right : KoreSort} {kept : List KoreSort}
    (h : (closure.graph ids constructors).maximalCommonSubsorts ids left right = some kept)
    (sort : KoreSort) : sort ∈ kept ↔ IsMaximalCommon pairs left right sort := by
  rw [closure.mem_maximalCommonSubsorts ids constructors h]
  refine and_congr_right fun _ => ⟨fun hall other hl hr hbelow => ?_, fun hall other hl hr hne
    hbelow => hne (hacyclic other sort (hall other hl hr hbelow) hbelow)⟩
  by_cases hsame : other = sort
  · rw [hsame]
    exact .refl
  · exact absurd hbelow (hall other hl hr hsame)

include closure ids constructors in
/-- Without cycles, each common subsort is below one that is maximal. -/
theorem exists_maximal (hacyclic : Acyclic pairs) {left right sort : KoreSort}
    (hleft : Below pairs sort left) (hright : Below pairs sort right) :
    ∃ top, IsMaximalCommon pairs left right top ∧ Below pairs sort top := by
  let order : PartialOrder KoreSort :=
    { le := Below pairs, le_refl := fun _ => .refl, le_trans := fun _ _ _ => .trans
      le_antisymm := hacyclic }
  let common : Finset KoreSort := ((closure.graph ids constructors).down left).toFinset.filter
    fun sort => sort ∈ (closure.graph ids constructors).down right
  have hmem : ∀ other, other ∈ common ↔ Below pairs other left ∧ Below pairs other right := by
    intro other
    rw [Finset.mem_filter, List.mem_toFinset, closure.mem_down_iff, closure.mem_down_iff]
  obtain ⟨top, htop, hmaximal⟩ :=
    Finset.exists_le_maximal common ((hmem sort).mpr ⟨hleft, hright⟩)
  refine ⟨top, ⟨(hmem top).mp hmaximal.prop, fun other hl hr hbelow => ?_⟩, htop⟩
  exact hmaximal.le_of_ge ((hmem other).mpr ⟨hl, hr⟩) hbelow

end SubsortClosure

end Questions

section Injections

/-- The values of a definition: each has one sort, and an injection takes the values of a sort to
those of a sort above it. -/
structure InjectionModel (pairs : List (ClosedSort × ClosedSort)) where
  Value : Type
  sortOf : Value → KoreSort
  inj : KoreSort → Value → Value
  sortOf_inj : ∀ v target, Below pairs (sortOf v) target → sortOf (inj target v) = target
  injective : ∀ v w target, sortOf v = sortOf w → Below pairs (sortOf v) target →
    inj target v = inj target w → v = w
  inj_inj : ∀ v middle target, Below pairs (sortOf v) middle → Below pairs middle target →
    inj target (inj middle v) = inj target v
  /-- One value that is injected from two sorts, neither below the other, is one of a common
  subsort. -/
  common : ∀ v w target, Below pairs (sortOf v) target → Below pairs (sortOf w) target →
    ¬ Below pairs (sortOf v) (sortOf w) → ¬ Below pairs (sortOf w) (sortOf v) →
    inj target v = inj target w →
    ∃ u, Below pairs (sortOf u) (sortOf v) ∧ Below pairs (sortOf u) (sortOf w) ∧
      inj (sortOf v) u = v ∧ inj (sortOf w) u = w
  /-- The values that a constructor of their own sort builds. -/
  Built : Value → Prop
  built_inj : ∀ v target, Below pairs (sortOf v) target → Built (inj target v) → sortOf v = target

/-- What terms denote in a model, under a valuation that also gives sorts to the sort variables. -/
structure TermMeaning {pairs : List (ClosedSort × ClosedSort)} (model : InjectionModel pairs) where
  Valuation : Type
  sorts : Valuation → String → ClosedSort
  eval : Valuation → Term → Option model.Value
  sortOf_eval : ∀ ρ term v, eval ρ term = some v →
    model.sortOf v = instanceAt (sorts ρ) term.sort
  eval_injection : ∀ ρ source target term, term.sort = source →
    Below pairs (instanceAt (sorts ρ) source) (instanceAt (sorts ρ) target) →
    eval ρ (.injection source target term) =
      (eval ρ term).map (model.inj (instanceAt (sorts ρ) target))
  built : ∀ ρ term v, term.hasConstructorLikeTop = true →
    (∀ source target inner, term ≠ .injection source target inner) → eval ρ term = some v →
    model.Built v

/-- An injection as `Term::injection` builds it, of a term of its source into a sort above. -/
def WellSorted (pairs : List (ClosedSort × ClosedSort)) : Term → Prop
  | .injection source target term =>
    term.sort = source ∧ (∀ s t inner, term ≠ .injection s t inner) ∧
      ∀ σ, Below pairs (instanceAt σ source) (instanceAt σ target)
  | _ => True

variable {pairs : List (ClosedSort × ClosedSort)} {model : InjectionModel pairs}
  (meaning : TermMeaning model)

/-- What the comparison of two injections says of their values. -/
def InjectionEquality.Holds (left right : Term) : InjectionEquality → Prop
  | .direct a b | .split a b => ∀ ρ, meaning.eval ρ left = meaning.eval ρ right ↔
      meaning.eval ρ a = meaning.eval ρ b
  | .distinct => ∀ ρ v, meaning.eval ρ left = some v → meaning.eval ρ right ≠ some v
  | .unknown => True

namespace TermMeaning

theorem map_inj_eq_iff {target : KoreSort} {a b : Option model.Value}
    (hsort : ∀ v ∈ a, ∀ w ∈ b, model.sortOf v = model.sortOf w)
    (hbelow : ∀ v ∈ a, Below pairs (model.sortOf v) target) :
    a.map (model.inj target) = b.map (model.inj target) ↔ a = b := by
  refine ⟨fun h => ?_, congrArg _⟩
  cases a with
  | none => cases b with
    | none => rfl
    | some w => cases h
  | some v => cases b with
    | none => cases h
    | some w =>
      exact congrArg some (model.injective v w target (hsort v rfl w rfl) (hbelow v rfl)
        (Option.some.inj h))

/-- Values of injections into one sort agree where the split pair does. -/
theorem eval_split {ρ : meaning.Valuation} {leftSource rightSource target : KoreSort}
    {left right : Term} (hleft : WellSorted pairs (.injection leftSource target left))
    (hright : WellSorted pairs (.injection rightSource target right))
    (hbelow : Below pairs (instanceAt (meaning.sorts ρ) leftSource)
      (instanceAt (meaning.sorts ρ) rightSource)) :
    meaning.eval ρ (.injection leftSource target left) =
        meaning.eval ρ (.injection rightSource target right) ↔
      meaning.eval ρ (.injection leftSource rightSource left) = meaning.eval ρ right := by
  obtain ⟨hsort, _, htarget⟩ := hleft
  obtain ⟨hsort', _, htarget'⟩ := hright
  have hchain : (meaning.eval ρ left).map
      (model.inj (instanceAt (meaning.sorts ρ) target)) =
      ((meaning.eval ρ left).map
        (model.inj (instanceAt (meaning.sorts ρ) rightSource))).map
          (model.inj (instanceAt (meaning.sorts ρ) target)) := by
    cases heval : meaning.eval ρ left with
    | none => rfl
    | some v =>
      have hv := meaning.sortOf_eval ρ left v heval
      rw [hsort] at hv
      exact congrArg some (model.inj_inj v _ _ (by rwa [hv]) (htarget' _)).symm
  rw [meaning.eval_injection ρ _ _ _ hsort (htarget _),
    meaning.eval_injection ρ _ _ _ hsort' (htarget' _),
    meaning.eval_injection ρ _ _ _ hsort hbelow, hchain]
  have hsorts : ∀ v ∈ (meaning.eval ρ left).map
      (model.inj (instanceAt (meaning.sorts ρ) rightSource)),
      model.sortOf v = instanceAt (meaning.sorts ρ) rightSource := by
    intro v hv
    obtain ⟨u, hu, rfl⟩ := Option.map_eq_some_iff.mp hv
    have hsortOf := meaning.sortOf_eval ρ left u hu
    rw [hsort] at hsortOf
    exact model.sortOf_inj u _ (by rwa [hsortOf])
  refine map_inj_eq_iff (fun v hv w hw => ?_) fun v hv => ?_
  · rw [hsorts v hv, meaning.sortOf_eval ρ right w hw, hsort']
  · rw [hsorts v hv]
    exact htarget' _

/-- A value of two injections whose sources are not below each other is one of a common subsort,
and neither operand is built in its own sort. -/
theorem not_built_of_incomparable {ρ : meaning.Valuation}
    {leftSource rightSource target : KoreSort} {left right : Term} {v : model.Value}
    (hleft : WellSorted pairs (.injection leftSource target left))
    (hright : WellSorted pairs (.injection rightSource target right))
    (hbelow : ¬ Below pairs (instanceAt (meaning.sorts ρ) leftSource)
      (instanceAt (meaning.sorts ρ) rightSource))
    (habove : ¬ Below pairs (instanceAt (meaning.sorts ρ) rightSource)
      (instanceAt (meaning.sorts ρ) leftSource))
    (hv : meaning.eval ρ (.injection leftSource target left) = some v)
    (hv' : meaning.eval ρ (.injection rightSource target right) = some v) :
    left.hasConstructorLikeTop = false ∧ right.hasConstructorLikeTop = false ∧
      ∃ sort, Below pairs sort (instanceAt (meaning.sorts ρ) leftSource) ∧
        Below pairs sort (instanceAt (meaning.sorts ρ) rightSource) := by
  obtain ⟨hsort, hflat, htarget⟩ := hleft
  obtain ⟨hsort', hflat', htarget'⟩ := hright
  rw [meaning.eval_injection ρ _ _ _ hsort (htarget _)] at hv
  rw [meaning.eval_injection ρ _ _ _ hsort' (htarget' _)] at hv'
  obtain ⟨a, ha, hinj⟩ := Option.map_eq_some_iff.mp hv
  obtain ⟨b, hb, hinj'⟩ := Option.map_eq_some_iff.mp hv'
  have hsa := meaning.sortOf_eval ρ left a ha
  have hsb := meaning.sortOf_eval ρ right b hb
  rw [hsort] at hsa
  rw [hsort'] at hsb
  rw [← hsa] at hbelow habove ⊢
  rw [← hsb] at hbelow habove ⊢
  have hatarget : Below pairs (model.sortOf a) (instanceAt (meaning.sorts ρ) target) := by
    rw [hsa]
    exact htarget _
  have hbtarget : Below pairs (model.sortOf b) (instanceAt (meaning.sorts ρ) target) := by
    rw [hsb]
    exact htarget' _
  obtain ⟨u, hua, hub, hau, hbu⟩ :=
    model.common a b _ hatarget hbtarget hbelow habove (hinj.trans hinj'.symm)
  refine ⟨?_, ?_, model.sortOf u, hua, hub⟩
  · by_contra htop
    have hbuilt := meaning.built ρ left a (Bool.not_eq_false _ ▸ htop) hflat ha
    rw [← hau] at hbuilt
    have hsame := model.built_inj u _ hua hbuilt
    exact hbelow (hsame ▸ hub)
  · by_contra htop
    have hbuilt := meaning.built ρ right b (Bool.not_eq_false _ ▸ htop) hflat' hb
    rw [← hbu] at hbuilt
    have hsame := model.built_inj u _ hub hbuilt
    exact habove (hsame ▸ hua)

end TermMeaning

variable (closure : SubsortClosure pairs) (ids : SortIds) (constructors : List String)

theorem mkInjection_flat {source target : KoreSort} {term : Term}
    (h : ∀ s t inner, term ≠ .injection s t inner) :
    Term.mkInjection source target term = .injection source target term := by
  cases term with
  | injection s t inner => exact absurd rfl (h s t inner)
  | _ => rfl

/-- The comparison of two injections, with the order of the closure or with none. -/
theorem matchInjectionEquality_holds {sorts : Option IndexedSortGraph}
    (hsorts : ∀ graph ∈ sorts, graph = closure.graph ids constructors) {left right : Term}
    (hleft : WellSorted pairs left) (hright : WellSorted pairs right)
    {answer : InjectionEquality} (h : matchInjectionEquality ids sorts left right = some answer) :
    answer.Holds meaning left right := by
  unfold matchInjectionEquality at h
  split at h
  · rename_i leftSource leftTarget left rightSource rightTarget right
    cases hrelation : sortRelation leftTarget rightTarget with
    | unsettled =>
      rw [hrelation] at h
      cases h
      trivial
    | distinct =>
      rw [hrelation] at h
      cases h
      intro ρ v hv hv'
      refine assign_ne hrelation (fun name => (meaning.sorts ρ name).val) ?_
      have hsort := meaning.sortOf_eval ρ _ v hv
      have hsort' := meaning.sortOf_eval ρ _ v hv'
      exact hsort.symm.trans hsort'
    | equal =>
      rw [hrelation] at h
      obtain rfl := eq_of_sortRelation hrelation
      simp only at h
      split at h
      · rename_i hsource
        cases h
        subst hsource
        intro ρ
        obtain ⟨hsort, _, htarget⟩ := hleft
        obtain ⟨hsort', _, _⟩ := hright
        rw [meaning.eval_injection ρ _ _ _ hsort (htarget _),
          meaning.eval_injection ρ _ _ _ hsort' (htarget _)]
        refine TermMeaning.map_inj_eq_iff (fun v hv w hw => ?_) fun v hv => ?_
        · rw [meaning.sortOf_eval ρ left v hv, meaning.sortOf_eval ρ right w hw, hsort,
            hsort']
        · rw [meaning.sortOf_eval ρ left v hv, hsort]
          exact htarget _
      · split at h
        · cases h
          trivial
        · rename_i graph
          obtain rfl := hsorts graph rfl
          have horder := closure.order_holds ids constructors leftSource rightSource
          cases hanswer : (closure.graph ids constructors).order ids leftSource rightSource with
          | below =>
            rw [hanswer] at h horder
            cases h
            intro ρ
            rw [mkInjection_flat hleft.2.1]
            exact meaning.eval_split hleft hright (horder _)
          | above =>
            rw [hanswer] at h horder
            cases h
            intro ρ
            rw [mkInjection_flat hright.2.1, eq_comm,
              meaning.eval_split hright hleft (horder _), eq_comm]
          | incomparable =>
            rw [hanswer] at h horder
            simp only at h
            split at h
            · rename_i happart
              cases h
              intro ρ v hv hv'
              obtain ⟨hbelow, habove⟩ := horder (meaning.sorts ρ)
              obtain ⟨htop, htop', sort, hsort, hsort'⟩ :=
                meaning.not_built_of_incomparable hleft hright hbelow habove hv hv'
              rw [htop, htop', Bool.false_or, Bool.false_or, decide_eq_true_iff] at happart
              obtain ⟨⟨hclosed, hclosed'⟩, hmeet⟩ :=
                closure.knownOverlap_sound ids constructors happart
              rw [instanceAt_closed _ _ hclosed] at hsort
              rw [instanceAt_closed _ _ hclosed'] at hsort'
              exact absurd (hmeet.mpr ⟨sort, hsort, hsort'⟩) nofun
            · cases h
              trivial
          | undecided error =>
            rw [hanswer] at h
            cases h
            trivial
  · cases h

end Injections

section Answers

variable {pairs : List (ClosedSort × ClosedSort)} (closure : SubsortClosure pairs) (ids : SortIds)
  (constructors : List String)

/-- The answers of the graph of a closure are right for every instance of the sorts asked about. -/
structure SortAnswers : Prop where
  check : ∀ sub sup answer,
    (closure.graph ids constructors).checkSubsort ids sub sup = .ok answer →
    ∀ σ, answer = true ↔ Below pairs (instanceAt σ sub) (instanceAt σ sup)
  order : ∀ left right,
    SubsortClosure.OrderHolds pairs left right
      ((closure.graph ids constructors).order ids left right)
  orderClosed : ∀ left right, firstSortVariable left = none → firstSortVariable right = none →
    (closure.graph ids constructors).declares (sortHead left) = true →
    (closure.graph ids constructors).declares (sortHead right) = true →
    ∀ error, (closure.graph ids constructors).order ids left right ≠ .undecided error
  overlap : ∀ left right answer,
    (closure.graph ids constructors).knownOverlap ids left right = some answer →
    (answer = true ↔ ∃ sort, Below pairs sort left ∧ Below pairs sort right)
  overlapClosed : ∀ left right, firstSortVariable left = none → firstSortVariable right = none →
    (closure.graph ids constructors).declares (sortHead left) = true →
    (closure.graph ids constructors).declares (sortHead right) = true →
    ∃ answer, (closure.graph ids constructors).knownOverlap ids left right = some answer
  maximal : ∀ left right, firstSortVariable left = none → firstSortVariable right = none →
    (closure.graph ids constructors).declares (sortHead left) = true →
    (closure.graph ids constructors).declares (sortHead right) = true →
    ∃ kept, (closure.graph ids constructors).maximalCommonSubsorts ids left right = some kept ∧
      (∀ sort, sort ∈ kept ↔ IsMaximalCommon pairs left right sort) ∧
      ∀ sort, Below pairs sort left → Below pairs sort right → ∃ top ∈ kept, Below pairs sort top
  rows : ∀ sup,
    match (closure.graph ids constructors).below.lookup sup,
      (closure.graph ids constructors).dense.rowOf ids sup with
    | none, none => True
    | some subs, some row =>
      ∀ sub, (closure.graph ids constructors).dense.holds ids row sub = true ↔ sub ∈ subs
    | _, _ => False
  injections : ∀ (model : InjectionModel pairs) (meaning : TermMeaning model)
    (sorts : Option IndexedSortGraph), (∀ graph ∈ sorts, graph = closure.graph ids constructors) →
    ∀ left right, WellSorted pairs left → WellSorted pairs right →
    ∀ answer, matchInjectionEquality ids sorts left right = some answer →
      answer.Holds meaning left right

namespace SubsortClosure

theorem lookup_of_below {sub sup : KoreSort} (h : Below pairs sub sup) (hne : sub ≠ sup) :
    ∃ subs, (closure.graph ids constructors).below.lookup sup = some subs := by
  cases hlookup : (closure.graph ids constructors).below.lookup sup with
  | none => exact absurd (closure.eq_of_lookup_none ids constructors hlookup h) hne
  | some subs => exact ⟨subs, rfl⟩

/-- Two sorts below each other keep each other out of their greatest common subsorts. -/
theorem acyclic_of_maximal (h : SortAnswers closure ids constructors) : Acyclic pairs := by
  intro left right hle hge
  by_contra hne
  obtain ⟨_, hright⟩ := closure.lookup_of_below ids constructors hle hne
  obtain ⟨_, hleft⟩ := closure.lookup_of_below ids constructors hge (Ne.symm hne)
  obtain ⟨kept, hkept, _, habove⟩ := h.maximal left right (Below.closed hle hne).1
    (Below.closed hle hne).2 (closure.declares_node ids constructors hleft)
    (closure.declares_node ids constructors hright)
  obtain ⟨top, htop, hbelow⟩ := habove left .refl hle
  obtain ⟨hcommon, hnone⟩ := (closure.mem_maximalCommonSubsorts ids constructors hkept top).mp htop
  by_cases hsame : left = top
  · exact hnone right hge .refl (fun heq => hne (hsame.trans heq.symm)) (hsame ▸ hle)
  · exact hnone left .refl hle hsame hcommon.1

theorem answers_of_acyclic (hacyclic : Acyclic pairs) : SortAnswers closure ids constructors where
  check _ _ _ h := closure.checkSubsort_sound ids constructors h
  order := closure.order_holds ids constructors
  orderClosed _ _ := closure.order_closed ids constructors
  overlap _ _ _ h := (closure.knownOverlap_sound ids constructors h).2
  overlapClosed _ _ := closure.knownOverlap_closed ids constructors
  maximal left right hleft hright hdeclared hdeclared' := by
    obtain ⟨answer, hanswer⟩ :=
      closure.knownOverlap_closed ids constructors hleft hright hdeclared hdeclared'
    obtain ⟨kept, hkept⟩ := closure.maximalCommonSubsorts_isSome ids constructors hanswer
    refine ⟨kept, hkept, closure.mem_maximal_iff ids constructors hacyclic hkept, ?_⟩
    intro sort hl hr
    obtain ⟨top, htop, hbelow⟩ := closure.exists_maximal ids constructors hacyclic hl hr
    exact ⟨top, (closure.mem_maximal_iff ids constructors hacyclic hkept top).mpr htop, hbelow⟩
  rows := closure.rows_answer ids constructors
  injections _ meaning _ hsorts _ _ hleft hright _ h :=
    matchInjectionEquality_holds meaning closure ids constructors hsorts hleft hright h

end SubsortClosure

end Answers

section Cycle

mutual

/-- A numbering of all sorts. -/
def sortNumber : KoreSort → Nat
  | .var name => 2 * Encodable.encode (name.toList.map Char.toNat)
  | .application name arguments =>
    2 * Nat.pair (Encodable.encode (name.toList.map Char.toNat)) (sortNumbers arguments) + 1

def sortNumbers : List KoreSort → Nat
  | [] => 0
  | sort :: sorts => Nat.pair (sortNumber sort) (sortNumbers sorts) + 1

end

theorem name_inj {name other : String} (h : Encodable.encode (name.toList.map Char.toNat) =
    Encodable.encode (other.toList.map Char.toNat)) : name = other := by
  have hinj : Function.Injective Char.toNat := fun a b hab => Char.toNat_inj.mp hab
  exact String.toList_injective (List.map_injective_iff.mpr hinj (Encodable.encode_injective h))

mutual

theorem sortNumber_inj : (sort other : KoreSort) → sortNumber sort = sortNumber other →
    sort = other
  | .var name, .var other, h => by
    rw [sortNumber, sortNumber] at h
    rw [name_inj (Nat.eq_of_mul_eq_mul_left Nat.two_pos h)]
  | .var name, .application other arguments, h => by
    rw [sortNumber, sortNumber] at h
    omega
  | .application name arguments, .var other, h => by
    rw [sortNumber, sortNumber] at h
    omega
  | .application name arguments, .application other others, h => by
    rw [sortNumber, sortNumber] at h
    have hpair := Nat.eq_of_mul_eq_mul_left Nat.two_pos (Nat.succ.inj h)
    rw [Nat.pair_eq_pair] at hpair
    rw [name_inj hpair.1, sortNumbers_inj arguments others hpair.2]

theorem sortNumbers_inj : (sorts others : List KoreSort) → sortNumbers sorts = sortNumbers others →
    sorts = others
  | [], [], _ => rfl
  | [], other :: others, h => by
    rw [sortNumbers, sortNumbers] at h
    omega
  | sort :: sorts, [], h => by
    rw [sortNumbers, sortNumbers] at h
    omega
  | sort :: sorts, other :: others, h => by
    rw [sortNumbers, sortNumbers] at h
    have hpair := Nat.succ.inj h
    rw [Nat.pair_eq_pair] at hpair
    rw [sortNumber_inj sort other hpair.1, sortNumbers_inj sorts others hpair.2]

end

def SortIds.numbered : SortIds := ⟨sortNumber, fun sort other => sortNumber_inj sort other⟩

def sortA : ClosedSort := ⟨.application "SortA" [], rfl⟩

def sortB : ClosedSort := ⟨.application "SortB" [], rfl⟩

/-- Two sorts that are declared below each other. -/
def cyclicPairs : List (ClosedSort × ClosedSort) := [(sortA, sortB), (sortB, sortA)]

theorem cyclic_below {sort : ClosedSort} (h : sort = sortA ∨ sort = sortB) :
    Below cyclicPairs sort.val sortA.val ∧ Below cyclicPairs sort.val sortB.val := by
  have hup : Below cyclicPairs sortA.val sortB.val :=
    .single ⟨(sortA, sortB), by simp [cyclicPairs], rfl, rfl⟩
  have hdown : Below cyclicPairs sortB.val sortA.val :=
    .single ⟨(sortB, sortA), by simp [cyclicPairs], rfl, rfl⟩
  rcases h with rfl | rfl
  · exact ⟨.refl, hup⟩
  · exact ⟨hdown, .refl⟩

theorem of_cyclic_below {sub sup : KoreSort} (h : Below cyclicPairs sub sup)
    (hsup : sup = sortA.val ∨ sup = sortB.val) : sub = sortA.val ∨ sub = sortB.val := by
  rcases ReflTransGen.cases_head h with rfl | ⟨_, ⟨pair, hpair, rfl, _⟩, _⟩
  · exact hsup
  · simp only [cyclicPairs, List.mem_cons, List.not_mem_nil, or_false] at hpair
    rcases hpair with rfl | rfl
    · exact .inl rfl
    · exact .inr rfl

def cyclicClosure : SubsortClosure cyclicPairs where
  rows := [(sortA, [sortA, sortB]), (sortB, [sortA, sortB])]
  nodup := by decide
  node := by decide
  mem_iff sup subs hrow sub := by
    simp only [List.mem_cons, Prod.mk.injEq, List.not_mem_nil, or_false] at hrow
    have hmem : subs = [sortA, sortB] := hrow.elim And.right And.right
    have hsup : sup = sortA ∨ sup = sortB := hrow.imp And.left And.left
    rw [hmem, List.mem_cons, List.mem_singleton]
    constructor
    · intro h
      rcases hsup with rfl | rfl
      · exact (cyclic_below h).1
      · exact (cyclic_below h).2
    · intro h
      have hsub := of_cyclic_below h (hsup.imp (congrArg _) (congrArg _))
      exact hsub.imp (fun h => Subtype.ext h) fun h => Subtype.ext h

end Cycle

end KRust.Backend
