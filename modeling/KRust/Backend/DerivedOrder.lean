import KRust.Backend.Order

/-!
The derived order of terms by recursion: the variants by position, then the fields one by one, a
sequence item by item with its end below any further item. It is the order of the spellings.
-/

namespace KRust.Backend

open KRust.Kore Lib Lib.Spelling

namespace Term

/-- `variant_rank` -/
def variantRank : Term → Nat
  | .and _ _ => 0
  | .application _ _ _ => 1
  | .domainValue _ _ => 2
  | .var _ => 3
  | .injection _ _ _ => 4
  | .map _ _ _ => 5
  | .list _ _ _ => 6
  | .set _ _ _ => 7

/-- The derived order of `TermKind`. -/
def cmp : Term → Term → Ordering
  | .and left right, .and left' right' => (cmp left left').then (cmp right right')
  | .application symbol sortArguments arguments,
      .application symbol' sortArguments' arguments' =>
    ((compareBy spellSymbol symbol symbol').then
      (List.compareLex (compareBy spellSort) sortArguments sortArguments')).then
        (cmpTerms arguments arguments')
  | .domainValue sort value, .domainValue sort' value' =>
    (compareBy spellSort sort sort').then (compareBy spellString value value')
  | .var v, .var v' => compareBy spellVariable v v'
  | .injection source target term, .injection source' target' term' =>
    ((compareBy spellSort source source').then (compareBy spellSort target target')).then
      (cmp term term')
  | .map d entries rest, .map d' entries' rest' =>
    ((compareBy spellMapDefinition d d').then (cmpEntries entries entries')).then
      (cmpRest rest rest')
  | .list d heads rest, .list d' heads' rest' =>
    ((compareBy spellListDefinition d d').then (cmpTerms heads heads')).then
      (cmpMiddle rest rest')
  | .set d elements rest, .set d' elements' rest' =>
    ((compareBy spellListDefinition d d').then (cmpTerms elements elements')).then
      (cmpRest rest rest')
  | a, b => compare a.variantRank b.variantRank
termination_by structural a => a
where
  cmpTerms : List Term → List Term → Ordering
  | [], [] => .eq
  | [], _ :: _ => .lt
  | _ :: _, [] => .gt
  | a :: as, b :: bs => (cmp a b).then (cmpTerms as bs)
  termination_by structural as => as
  cmpEntries : List (Term × Term) → List (Term × Term) → Ordering
  | [], [] => .eq
  | [], _ :: _ => .lt
  | _ :: _, [] => .gt
  | (key, value) :: as, (key', value') :: bs =>
    ((cmp key key').then (cmp value value')).then (cmpEntries as bs)
  termination_by structural as => as
  cmpRest : Option Term → Option Term → Ordering
  | none, none => .eq
  | none, some _ => .lt
  | some _, none => .gt
  | some rest, some rest' => cmp rest rest'
  termination_by structural as => as
  cmpMiddle : Option (Term × List Term) → Option (Term × List Term) → Ordering
  | none, none => .eq
  | none, some _ => .lt
  | some _, none => .gt
  | some (middle, tails), some (middle', tails') => (cmp middle middle').then (cmpTerms tails tails')
  termination_by structural rest => rest

theorem cmpTerms_eq (as bs : List Term) : cmp.cmpTerms as bs = List.compareLex cmp as bs := by
  induction as generalizing bs with
  | nil => cases bs <;> rfl
  | cons a as ih =>
    cases bs with
    | nil => rfl
    | cons b bs => rw [cmp.cmpTerms, ih, List.compareLex_cons_cons]

/-- Two entries by their keys, then by their values. -/
def cmpEntry (entry entry' : Term × Term) : Ordering :=
  (cmp entry.1 entry'.1).then (cmp entry.2 entry'.2)

theorem cmpEntries_eq (as bs : List (Term × Term)) :
    cmp.cmpEntries as bs = List.compareLex cmpEntry as bs := by
  induction as generalizing bs with
  | nil => cases bs <;> rfl
  | cons a as ih =>
    cases bs with
    | nil => rfl
    | cons b bs => rw [cmp.cmpEntries, ih, List.compareLex_cons_cons, cmpEntry]

/-- Items are compared alike by comparisons that agree on the items of one side. -/
theorem compareLex_congr {α : Type} {f g : α → α → Ordering} {as : List α}
    (h : ∀ a ∈ as, ∀ b, f a b = g a b) (bs : List α) :
    List.compareLex f as bs = List.compareLex g as bs := by
  induction as generalizing bs with
  | nil => cases bs <;> rfl
  | cons a as ih =>
    cases bs with
    | nil => rfl
    | cons b bs =>
      obtain ⟨ha, has⟩ := List.forall_mem_cons.mp h
      rw [List.compareLex_cons_cons, List.compareLex_cons_cons, ha b, ih has bs]

theorem spellTerm_head (t : Term) : ∃ r, spellTerm t = .mark t.variantRank :: r := by
  cases t <;> exact ⟨_, rfl⟩

/-- Terms of different variants are ordered by the positions of the variants. -/
theorem compareBy_of_rank_ne {a b : Term} (h : a.variantRank ≠ b.variantRank) :
    compareBy spellTerm a b = compare a.variantRank b.variantRank := by
  obtain ⟨r, hr⟩ := spellTerm_head a
  obtain ⟨s, hs⟩ := spellTerm_head b
  rw [compareBy, hr, hs, compare_marks]
  cases hrank : compare a.variantRank b.variantRank with
  | eq => exact absurd (compare_eq_iff_eq.mp hrank) h
  | lt => rfl
  | gt => rfl

/-- Of two terms of one variant the fields decide. -/
theorem compare_fields (m : ℕ) (r s : List Token) :
    compare (Token.mark m :: r) (Token.mark m :: s) = compare r s := by
  rw [compare_marks, compare_eq_iff_eq.mpr rfl]
  rfl

theorem cmpRest_eq {rest : Option Term} (h : ∀ r ∈ rest, ∀ t, cmp r t = compareBy spellTerm r t)
    (rest' : Option Term) :
    cmp.cmpRest rest rest' = compareBy (Spelling.optional spellTerm) rest rest' := by
  rw [compareBy_optional]
  cases rest with
  | none => cases rest' <;> rfl
  | some r =>
    cases rest' with
    | none => rfl
    | some t => exact h r rfl t

theorem cmpMiddle_eq {rest : Option (Term × List Term)}
    (h : ∀ e ∈ rest, (∀ t, cmp e.1 t = compareBy spellTerm e.1 t) ∧
      ∀ a ∈ e.2, ∀ t, cmp a t = compareBy spellTerm a t) (rest' : Option (Term × List Term)) :
    cmp.cmpMiddle rest rest' =
      compareBy (Spelling.optional (pair spellTerm (items spellTerm))) rest rest' := by
  rw [compareBy_optional]
  cases rest with
  | none => cases rest' <;> rfl
  | some entry =>
    cases rest' with
    | none => rfl
    | some entry' =>
      obtain ⟨middle, tails⟩ := entry
      obtain ⟨middle', tails'⟩ := entry'
      obtain ⟨hmiddle, htails⟩ := h _ rfl
      rw [cmp.cmpMiddle, cmpTerms_eq, hmiddle, compareLex_congr htails,
        ← compareBy_items fun t _ => unique_spellTerm t]
      exact (compareBy_pair (unique_spellTerm middle) tails middle' tails').symm

/-- The recursion compares two terms as their spellings are compared. -/
theorem cmp_eq_compareBy (a b : Term) : cmp a b = compareBy spellTerm a b := by
  have hsorts : ∀ sorts sorts' : List KoreSort, List.compareLex (compareBy spellSort) sorts sorts' =
      compareBy (items spellSort) sorts sorts' :=
    fun sorts sorts' => (compareBy_items (fun s _ => unique_spellSort s) sorts').symm
  have hterms : ∀ {terms : List Term}, (∀ t ∈ terms, ∀ u, cmp t u = compareBy spellTerm t u) →
      ∀ terms', cmp.cmpTerms terms terms' = compareBy (items spellTerm) terms terms' := by
    intro terms ih terms'
    rw [cmpTerms_eq, compareLex_congr ih, compareBy_items fun t _ => unique_spellTerm t]
  induction a generalizing b with
  | and left right ihl ihr =>
    cases b with
    | and left' right' =>
      rw [cmp, ihl, ihr, ← compareBy_pair (unique_spellTerm left)]
      exact (compare_fields 0 _ _).symm
    | _ => exact (compareBy_of_rank_ne (by simp [variantRank])).symm
  | application symbol sortArguments arguments ih =>
    cases b with
    | application symbol' sortArguments' arguments' =>
      rw [cmp, hsorts, hterms ih, Ordering.then_assoc,
        ← compareBy_pair (Unique.items fun s _ => unique_spellSort s),
        ← compareBy_pair (unique_spellSymbol symbol), ← funext spellTerms_eq]
      exact (compare_fields 1 _ _).symm
    | _ => exact (compareBy_of_rank_ne (by simp [variantRank])).symm
  | domainValue sort value =>
    cases b with
    | domainValue sort' value' =>
      rw [cmp, ← compareBy_pair (unique_spellSort sort)]
      exact (compare_fields 2 _ _).symm
    | _ => exact (compareBy_of_rank_ne (by simp [variantRank])).symm
  | var v =>
    cases b with
    | var v' => exact (compare_fields 3 _ _).symm
    | _ => exact (compareBy_of_rank_ne (by simp [variantRank])).symm
  | injection source target term ih =>
    cases b with
    | injection source' target' term' =>
      rw [cmp, ih, Ordering.then_assoc, ← compareBy_pair (unique_spellSort target),
        ← compareBy_pair (unique_spellSort source)]
      exact (compare_fields 4 _ _).symm
    | _ => exact (compareBy_of_rank_ne (by simp [variantRank])).symm
  | map d entries rest ihe ihr =>
    cases b with
    | map d' entries' rest' =>
      have hpair : ∀ e ∈ entries, ∀ e', cmpEntry e e' = compareBy (pair spellTerm spellTerm) e e' := by
        intro e he e'
        rw [cmpEntry, (ihe e he).1, (ihe e he).2]
        exact (compareBy_pair (unique_spellTerm e.1) e.2 e'.1 e'.2).symm
      have hunique : ∀ e ∈ entries, Unique (pair spellTerm spellTerm) e :=
        fun e _ => .pair (unique_spellTerm e.1) (unique_spellTerm e.2)
      rw [cmp, cmpEntries_eq, compareLex_congr hpair, ← compareBy_items hunique, cmpRest_eq ihr,
        Ordering.then_assoc, ← compareBy_pair (Unique.items hunique),
        ← compareBy_pair (unique_spellMapDefinition d), ← funext spellEntries_eq,
        ← funext spellRest_eq]
      exact (compare_fields 5 _ _).symm
    | _ => exact (compareBy_of_rank_ne (by simp [variantRank])).symm
  | list d heads rest ihh ihr =>
    cases b with
    | list d' heads' rest' =>
      rw [cmp, hterms ihh, cmpMiddle_eq ihr, Ordering.then_assoc,
        ← compareBy_pair (Unique.items fun t _ => unique_spellTerm t),
        ← compareBy_pair (unique_spellListDefinition d), ← funext spellMiddle_eq,
        ← funext spellTerms_eq]
      exact (compare_fields 6 _ _).symm
    | _ => exact (compareBy_of_rank_ne (by simp [variantRank])).symm
  | set d elements rest ihe ihr =>
    cases b with
    | set d' elements' rest' =>
      rw [cmp, hterms ihe, cmpRest_eq ihr, Ordering.then_assoc,
        ← compareBy_pair (Unique.items fun t _ => unique_spellTerm t),
        ← compareBy_pair (unique_spellListDefinition d), ← funext spellTerms_eq,
        ← funext spellRest_eq]
      exact (compare_fields 7 _ _).symm
    | _ => exact (compareBy_of_rank_ne (by simp [variantRank])).symm

/-- The derived order is the order that collections keep their items in. -/
theorem cmp_eq_compare (a b : Term) : cmp a b = compare a b := by
  rw [cmp_eq_compareBy]
  exact compareBy_eq_compare unique_spellTerm a b

end Term

end KRust.Backend
