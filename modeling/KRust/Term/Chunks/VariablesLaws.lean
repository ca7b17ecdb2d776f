import KRust.Term.Chunks.Variables

/-!
Whatever history built it, a set of variables is the set that its history says, its backing is the
one of its size, and two are equal when they are the same set.
-/

set_option linter.unusedSectionVars false

namespace KRust.Term.Chunks.Variables

open KRust.Lib KRust.Lib.Partial

variable {E : Type} [LinearOrder E] [FxHash E] {B : Branching}

section Canonical

/-- The variables, in order. -/
def elements : Variables E B → List E
  | .empty => []
  | .slice vs => vs
  | .tree entries => entries.items.map Occurrences.element

/-- The backing is the one of the size. -/
def Backed : Variables E B → Prop
  | .empty => True
  | .slice vs => vs ≠ [] ∧ vs.length ≤ B.factor
  | .tree entries => entries.Valid ∧ B.factor < entries.items.length

structure Canonical (vs : Variables E B) : Prop where
  ordered : vs.elements.Pairwise (· < ·)
  backed : vs.Backed

variable {vs : Variables E B}

theorem keyOrdered_iff (items : List (Occurrences E)) :
    KeyOrdered items ↔ (items.map Occurrences.element).Pairwise (· < ·) :=
  List.pairwise_map.symm

/-- The entries that a set adds itself. -/
theorem element_once (vs : List E) :
    (vs.map fun element => (⟨element, 1⟩ : Occurrences E)).map Occurrences.element = vs := by
  rw [List.map_map]
  exact List.map_id vs

theorem fits_entries {items : List (Occurrences E)} (hlen : items.length ≤ usizeMax) :
    Fits items := ⟨hlen, trivial, trivial⟩

theorem toVec_of_valid {entries : Chunked (Occurrences E) Unit Unit B} (hvalid : entries.Valid) :
    toVec entries = some entries.items := by
  obtain ⟨h, hwithin⟩ := hvalid.within
  exact toVec_eq hwithin

theorem Canonical.iter_eq (h : vs.Canonical) : vs.iter = some vs.elements := by
  cases vs with
  | empty => rfl
  | slice vs => rfl
  | tree entries =>
    rw [iter, toVec_of_valid h.backed.1]
    rfl

theorem Canonical.len_eq (h : vs.Canonical) : vs.len = vs.elements.length := by
  cases vs with
  | empty => rfl
  | slice vs => rfl
  | tree entries =>
    rw [len, h.backed.1.len_eq, elements, List.length_map]

theorem Canonical.contains_eq (h : vs.Canonical) (v : E) :
    vs.contains v = some (decide (v ∈ vs.elements)) := by
  cases vs with
  | empty => simp [contains, elements]
  | slice vs => rfl
  | tree entries =>
    have hordered : KeyOrdered entries.items := (keyOrdered_iff _).mpr h.ordered
    rw [contains, search_eq h.backed.1 hordered]
    exact congrArg some (searchList_isOk hordered 0)

/-- The backing follows from the size. -/
theorem Canonical.backing (h : vs.Canonical) :
    (vs = .empty ↔ vs.elements.length = 0) ∧
      ((∃ xs, vs = .slice xs) ↔ 0 < vs.elements.length ∧ vs.elements.length ≤ B.factor) ∧
      ((∃ entries, vs = .tree entries) ↔ B.factor < vs.elements.length) := by
  have hfactor := B.five_le
  cases vs with
  | empty => simp [elements]
  | slice vs =>
    have hlen := List.length_pos_iff.mpr h.backed.1
    have hle := h.backed.2
    simp only [elements, reduceCtorEq, false_iff, Variables.slice.injEq, exists_eq', true_iff,
      exists_false]
    omega
  | tree entries =>
    have hlt := h.backed.2
    simp only [elements, List.length_map, reduceCtorEq, false_iff, Variables.tree.injEq,
      exists_eq', true_iff, exists_false]
    omega

theorem Canonical.eq_eq {slices : List E → List E → Bool}
    {nodes : Nat → Node (Occurrences E) Unit Unit → Node (Occurrences E) Unit Unit → Bool}
    (hslices : ∀ left right, slices left right = true → left = right)
    (hnodes : ∀ clock one two, nodes clock one two = true → one = two)
    {left right : Variables E B} (hleft : left.Canonical) (hright : right.Canonical) :
    eq slices nodes left right = some (decide (left.elements = right.elements)) := by
  -- Sets of different backings have different sizes.
  have hdiffer : ∀ xs ys : List E, xs.length ≠ ys.length → decide (xs = ys) = false :=
    fun xs ys hne => decide_eq_false fun heq => hne (congrArg List.length heq)
  have hle := hleft.backing
  have hri := hright.backing
  cases left with
  | empty =>
    cases right with
    | empty => simp [eq, elements]
    | slice ys => rw [eq, hdiffer _ _ (by simp at hle hri ⊢; omega)] <;> simp
    | tree ys => rw [eq, hdiffer _ _ (by simp at hle hri ⊢; omega)] <;> simp
  | slice xs =>
    cases right with
    | empty => rw [eq, hdiffer _ _ (by simp at hle hri ⊢; omega)] <;> simp
    | slice ys =>
      rw [eq, elements, elements, Option.some.injEq, Bool.or_eq_right_iff_imp]
      exact fun h => decide_eq_true (hslices xs ys h)
    | tree ys => rw [eq, hdiffer _ _ (by simp at hle hri ⊢; omega)] <;> simp
  | tree xs =>
    cases right with
    | empty => rw [eq, hdiffer _ _ (by simp at hle hri ⊢; omega)] <;> simp
    | slice ys => rw [eq, hdiffer _ _ (by simp at hle hri ⊢; omega)] <;> simp
    | tree ys =>
      exact Chunked.eqBy_map_eq Occurrences.element nodes hnodes hleft.backed.1 hright.backed.1

end Canonical

section Constructors

theorem canonical_empty : (.empty : Variables E B).Canonical := ⟨List.Pairwise.nil, trivial⟩

theorem canonical_singleton (v : E) : (singleton v : Variables E B).Canonical where
  ordered := List.pairwise_singleton _ v
  backed := by
    have := B.five_le
    exact ⟨List.cons_ne_nil _ _, by simp; omega⟩

theorem ofOrdered_yields {vs : List E} (hordered : vs.Pairwise (· < ·)) :
    Yields (vs.length ≤ usizeMax) (ofOrdered vs : Option (Variables E B))
      (fun result => result.Canonical ∧ result.elements = vs) := by
  unfold ofOrdered
  split
  · next hempty =>
    obtain rfl : vs = [] := by simpa using hempty
    exact ⟨canonical_empty, rfl⟩
  · next hne =>
    split
    · next hle => exact ⟨⟨hordered, by simpa using hne, hle⟩, rfl⟩
    · next hlt =>
      refine ((fromVec_yields B _).mono (fun hlen => fits_entries (by simpa using hlen))
        fun _ h => h).bind fun tree htree => ?_
      obtain ⟨hvalid, hitems⟩ := htree
      have helements : (Variables.tree tree).elements = vs := by
        rw [elements, hitems, element_once]
      refine ⟨⟨helements ▸ hordered, hvalid, ?_⟩, helements⟩
      rw [hitems, List.length_map]
      omega

/-- Sorted and without repetition. -/
theorem dedup_sorted (vs : List E) :
    (dedup (vs.mergeSort fun v w => decide (v ≤ w))).Pairwise (· < ·) ∧
      ∀ v, v ∈ dedup (vs.mergeSort fun v w => decide (v ≤ w)) ↔ v ∈ vs := by
  constructor
  · refine dedup_ordered ?_
    have hsorted : (vs.mergeSort fun v w => decide (v ≤ w)).Pairwise
        fun v w => decide (v ≤ w) = true :=
      List.pairwise_mergeSort (by simpa using fun _ _ _ => le_trans) (by simpa using le_total) vs
    exact hsorted.imp fun h => of_decide_eq_true h
  · intro v
    rw [mem_dedup]
    exact List.mem_mergeSort

end Constructors

section Unions

/-- A batch of keys that the list lacks, whose merge is never asked for. -/
theorem addedList_apart (xs ys : List (Occurrences E))
    (hapart : ∀ x ∈ xs, ∀ y ∈ ys, x.element ≠ y.element) :
    ∃ ws, addedList (fun _ _ => none) xs ys = some ws ∧ ws.Perm (xs ++ ys) := by
  unfold addedList
  induction xs, ys using keyedEdit.induct with
  | case1 xs => exact ⟨xs, keyedEdit_nil_right _, by rw [List.append_nil]⟩
  | case2 y ys ih =>
    obtain ⟨ws, hws, hperm⟩ := ih fun x hx z hz => hapart x hx z (List.mem_cons_of_mem _ hz)
    refine ⟨y :: ws, ?_, hperm.cons y⟩
    rw [keyedEdit, hws]
    rfl
  | case3 x xs y ys hlt ih =>
    obtain ⟨ws, hws, hperm⟩ := ih fun z hz w hw => hapart z (List.mem_cons_of_mem _ hz) w hw
    refine ⟨x :: ws, ?_, hperm.cons x⟩
    rw [keyedEdit, if_pos hlt, hws]
    rfl
  | case4 x xs y ys hlt heq ih =>
    exact absurd heq (hapart x List.mem_cons_self y List.mem_cons_self)
  | case5 x xs y ys hlt hne ih =>
    obtain ⟨ws, hws, hperm⟩ := ih fun z hz w hw => hapart z hz w (List.mem_cons_of_mem _ hw)
    refine ⟨y :: ws, ?_, (hperm.cons y).trans List.perm_middle.symm⟩
    rw [keyedEdit, if_neg hlt, if_neg hne, hws]
    rfl

/-- Variables that the tree lacks, inserted in one batch. -/
theorem addByKey_apart_yields {entries : Chunked (Occurrences E) Unit Unit B}
    (hentries : (Variables.tree entries).Canonical) {vs : List E} (hvs : vs.Pairwise (· < ·))
    (hapart : ∀ v ∈ vs, v ∉ (Variables.tree entries).elements) :
    Yields (((Variables.tree entries).elements ++ vs).length ≤ usizeMax)
      (addByKey entries (vs.map fun element => ⟨element, 1⟩) fun _ _ => none)
      (fun result => (Variables.tree result).Canonical ∧
        (Variables.tree result).elements.Perm ((Variables.tree entries).elements ++ vs)) := by
  have hxs : KeyOrdered entries.items := (keyOrdered_iff _).mpr hentries.ordered
  have hys : KeyOrdered (vs.map fun element => (⟨element, 1⟩ : Occurrences E)) :=
    (keyOrdered_iff _).mpr (by rwa [element_once])
  obtain ⟨ws, hws, hperm⟩ := addedList_apart entries.items
    (vs.map fun element => (⟨element, 1⟩ : Occurrences E)) (by
      intro x hx y hy heq
      obtain ⟨v, hv, rfl⟩ := List.mem_map.mp hy
      exact hapart v hv (List.mem_map.mpr ⟨x, hx, heq⟩))
  have hkeys := hperm.map Occurrences.element
  rw [List.map_append, element_once] at hkeys
  refine (addByKey_yields hentries.backed.1 hxs _ hys).mono (fun hlen => ?_) fun result hresult => ?_
  · refine ⟨ws, hws, fits_entries ?_⟩
    have hsame := hkeys.length_eq
    rw [List.length_map] at hsame
    rw [hsame]
    exact hlen
  · obtain ⟨hvalid, hitems⟩ := hresult
    obtain rfl := Option.some.inj (hws.symm.trans hitems)
    have hordered := (keyedEdit_ordered (fun x y zs _ hzs => by simp at hzs) (fun y zs hzs => by
      obtain rfl := Option.some.inj hzs
      simp) hxs hys hws).1
    refine ⟨⟨(keyOrdered_iff _).mp hordered, hvalid, ?_⟩, hkeys⟩
    have hlt := hentries.backed.2
    rw [hperm.length_eq, List.length_append]
    omega

namespace Union

/-- What a union stands for: the variables of the operands given so far. -/
structure Stands (union : Union E B) (set : Finset E) : Prop where
  largest : ∀ largest ∈ union.largest, largest.Canonical
  set_eq : set = (union.largest.elim [] elements).toFinset ∪ union.others.toFinset

variable {union : Union E B} {set : Finset E}

theorem stands_new : (new : Union E B).Stands ∅ := ⟨by simp [new], by simp [new]⟩

theorem Stands.addAll (h : union.Stands set) (vs : List E) :
    (union.addAll vs).Stands (set ∪ vs.toFinset) where
  largest := h.largest
  set_eq := by rw [h.set_eq, Union.addAll, List.toFinset_append, Finset.union_assoc]

theorem Stands.add {shares : Variables E B → Variables E B → Bool}
    (hshares : ∀ left right, shares left right = true → left = right) (h : union.Stands set)
    {operand : Variables E B} (hoperand : operand.Canonical) :
    ∃ result, union.add shares operand = some result ∧
      result.Stands (set ∪ operand.elements.toFinset) := by
  obtain ⟨hlargest, rfl⟩ := h
  obtain ⟨largest, others⟩ := union
  unfold Union.add
  split
  · next hempty =>
    cases operand with
    | empty => exact ⟨_, rfl, hlargest, by simp [elements]⟩
    | slice vs => cases hempty
    | tree entries => cases hempty
  · cases largest with
    | none =>
      refine ⟨_, rfl, fun l hl => ?_, ?_⟩
      · obtain rfl : operand = l := Option.some.inj hl
        exact hoperand
      · simp [Finset.union_comm]
    | some largest =>
      have hlargest := hlargest largest rfl
      dsimp only
      split
      · next hsame =>
        obtain rfl := hshares largest operand hsame
        refine ⟨_, rfl, fun l hl => ?_, ?_⟩
        · obtain rfl : largest = l := Option.some.inj hl
          exact hlargest
        · ext v
          simp only [Finset.mem_union]
          tauto
      · split
        · rw [hlargest.iter_eq]
          refine ⟨_, rfl, fun l hl => ?_, ?_⟩
          · obtain rfl : operand = l := Option.some.inj hl
            exact hoperand
          · ext v
            simp only [Finset.mem_union, List.toFinset_append, Option.elim_some]
            tauto
        · rw [hoperand.iter_eq]
          refine ⟨_, rfl, fun l hl => ?_, ?_⟩
          · obtain rfl : largest = l := Option.some.inj hl
            exact hlargest
          · ext v
            simp only [Finset.mem_union, List.toFinset_append, Option.elim_some]
            tauto

theorem retain_eq {largest : Variables E B} (hlargest : largest.Canonical) (vs : List E) :
    retain largest vs = some (vs.filter fun v => !decide (v ∈ largest.elements)) := by
  induction vs with
  | nil => rfl
  | cons v vs ih =>
    rw [retain, hlargest.contains_eq, ih]
    by_cases hv : v ∈ largest.elements
    · simp [hv]
    · simp [hv]

theorem card_toFinset {vs : List E} (hordered : vs.Pairwise (· < ·)) :
    vs.toFinset.card = vs.length := List.toFinset_card_of_nodup hordered.nodup

/-- The end of `finish`: new variables, in order, are put into the largest operand. -/
theorem insertAll_yields {largest : Variables E B} (hlargest : largest.Canonical) {added : List E}
    (hadded : added.Pairwise (· < ·)) (hapart : ∀ v ∈ added, v ∉ largest.elements) :
    Yields ((largest.elements ++ added).toFinset.card ≤ usizeMax)
      (match largest with
      | .tree entries => do
        return .tree (← addByKey entries (added.map fun element => ⟨element, 1⟩) fun _ _ => none)
      | largest => do ofOrdered (merge (← largest.iter) added) : Option (Variables E B))
      (fun result => result.Canonical ∧
        result.elements.toFinset = (largest.elements ++ added).toFinset) := by
  have hcard : (largest.elements ++ added).toFinset.card = (largest.elements ++ added).length := by
    refine List.toFinset_card_of_nodup (List.nodup_append'.mpr
      ⟨hlargest.ordered.nodup, hadded.nodup, fun v hv hv' => hapart v hv' hv⟩)
  rw [hcard]
  have hslice : ∀ vs : List E, vs.Pairwise (· < ·) → (∀ v ∈ added, v ∉ vs) →
      Yields ((vs ++ added).length ≤ usizeMax) (ofOrdered (merge vs added) : Option (Variables E B))
        (fun result => result.Canonical ∧ result.elements.toFinset = (vs ++ added).toFinset) := by
    intro vs hvs hapart
    refine (ofOrdered_yields (merge_ordered hvs hadded hapart)).mono (fun hlen => ?_)
      fun result hresult => ⟨hresult.1, ?_⟩
    · rwa [(merge_perm vs added).length_eq]
    · rw [hresult.2]
      exact List.toFinset_eq_of_perm _ _ (merge_perm vs added)
  cases largest with
  | empty => exact hslice [] hlargest.ordered hapart
  | slice vs => exact hslice vs hlargest.ordered hapart
  | tree entries =>
    refine (addByKey_apart_yields hlargest hadded hapart).bind fun result hresult => ?_
    exact ⟨hresult.1, List.toFinset_eq_of_perm _ _ hresult.2⟩

/-- A union ends with the set it stands for, whatever its largest operand. -/
theorem Stands.finish_yields (h : union.Stands set) :
    Yields (set.card ≤ usizeMax) union.finish
      (fun result => result.Canonical ∧ result.elements.toFinset = set) := by
  obtain ⟨hlargest, rfl⟩ := h
  obtain ⟨largest, others⟩ := union
  cases largest with
  | none =>
    obtain ⟨hordered, hmem⟩ := dedup_sorted others
    have hset : (dedup (others.mergeSort fun v w => decide (v ≤ w))).toFinset = others.toFinset := by
      ext v
      rw [List.mem_toFinset, List.mem_toFinset, hmem]
    simp only [Option.elim_none, List.toFinset_nil, Finset.empty_union]
    refine (ofOrdered_yields hordered).mono (fun hcard => ?_) fun result hresult => ?_
    · rwa [← card_toFinset hordered, hset]
    · exact ⟨hresult.1, by rw [hresult.2, hset]⟩
  | some largest =>
    have hlargest := hlargest largest rfl
    simp only [finish, retain_eq hlargest, Option.bind_eq_bind, Option.bind_some, Option.elim_some]
    obtain ⟨hordered, hmem⟩ :=
      dedup_sorted (others.filter fun v => !decide (v ∈ largest.elements))
    have hset : largest.elements.toFinset ∪ others.toFinset = largest.elements.toFinset ∪
        (others.filter fun v => !decide (v ∈ largest.elements)).toFinset := by
      ext v
      simp only [Finset.mem_union, List.mem_toFinset, List.mem_filter, Bool.not_eq_true',
        decide_eq_false_iff_not]
      tauto
    have hapart : ∀ v ∈ others.filter fun v => !decide (v ∈ largest.elements),
        v ∉ largest.elements := by
      intro v hv
      simpa using (List.mem_filter.mp hv).2
    rw [hset]
    generalize (others.filter fun v => !decide (v ∈ largest.elements)) = lacked at *
    split
    · next hempty =>
      obtain rfl : lacked = [] := by simpa using hempty
      exact ⟨hlargest, by simp⟩
    · have hset : lacked.toFinset = (dedup (lacked.mergeSort fun v w => decide (v ≤ w))).toFinset := by
        ext v
        rw [List.mem_toFinset, List.mem_toFinset, hmem]
      have happart : ∀ v ∈ dedup (lacked.mergeSort fun v w => decide (v ≤ w)),
          v ∉ largest.elements := fun v hv => hapart v ((hmem v).mp hv)
      rw [hset, ← List.toFinset_append]
      generalize dedup (lacked.mergeSort fun v w => decide (v ≤ w)) = added at *
      exact insertAll_yields hlargest hordered happart

end Union

end Unions

section Histories

/-- The answers to the question whether two sets are one handle: of one handle only. -/
def Sound (shares : Nat → Variables E B → Variables E B → Bool) : Prop :=
  ∀ clock left right, shares clock left right = true → left = right

/-- The union of the sets that the operands stand for. -/
def unite (operands : List (Variables E B × Finset E)) : Finset E :=
  operands.foldr (fun operand set => operand.2 ∪ set) ∅

/-- A value that a history builds, and the set that the history says. The union of two is that of
a list of them. -/
inductive Built : Variables E B → Finset E → Prop
  | new : Built .empty ∅
  | singleton (v : E) : Built (singleton v) {v}
  | of {vs : List E} {result} (run : of vs = some result) : Built result vs.toFinset
  | support {multiset : Multiset E B} (canonical : multiset.Canonical) {set : Finset E}
      (support : ∀ v, v ∈ set ↔ 0 < multiset.occurrences v) {result}
      (run : ofMultiset multiset = some result) : Built result set
  | insert {vs : Variables E B} {set : Finset E} (built : Built vs set) (v : E) {result}
      (run : vs.insert v = some result) : Built result (set ∪ {v})
  | unionAll {operands : List (Variables E B × Finset E)}
      (built : ∀ operand ∈ operands, Built operand.1 operand.2)
      {shares : Nat → Variables E B → Variables E B → Bool} (sound : Sound shares) {result}
      (run : unionAll shares (operands.map Prod.fst) = some result) : Built result (unite operands)

theorem of_yields (vs : List E) : Yields (vs.toFinset.card ≤ usizeMax)
    (of vs : Option (Variables E B))
    (fun result => result.Canonical ∧ result.elements.toFinset = vs.toFinset) := by
  have hstands := Union.stands_new.addAll vs (B := B)
  rw [Finset.empty_union] at hstands
  exact hstands.finish_yields

theorem ofMultiset_eq {multiset : Multiset E B} (hmultiset : multiset.Canonical) {set : Finset E}
    (hset : ∀ v, v ∈ set ↔ 0 < multiset.occurrences v) :
    ∃ result, ofMultiset multiset = some result ∧ result.Canonical ∧
      result.elements.toFinset = set := by
  obtain ⟨hvalid, hentries⟩ := hmultiset
  have hordered := (keyOrdered_iff _).mp hentries.ordered
  have hsupport : (multiset.entries.items.map Occurrences.element).toFinset = set := by
    ext v
    rw [List.mem_toFinset, hset, List.mem_map]
    exact (hentries.canonical.counts_pos_iff v).symm
  have hlen := hvalid.len_eq
  unfold ofMultiset
  split
  · next hle =>
    rw [toVec_of_valid hvalid]
    obtain ⟨result, hrun, hcanonical, helements⟩ := (ofOrdered_yields (B := B) hordered).total (by
      rw [List.length_map]
      obtain ⟨h, hwithin⟩ := hvalid.within
      exact hwithin.fits.count)
    exact ⟨result, hrun, hcanonical, by rw [helements, hsupport]⟩
  · next hlt =>
    refine ⟨_, rfl, ⟨hordered, hvalid, ?_⟩, hsupport⟩
    rw [Multiset.len, hlen] at hlt
    exact not_le.mp hlt

theorem insert_yields {vs : Variables E B} (hvs : vs.Canonical) (v : E) :
    Yields ((vs.elements.toFinset ∪ {v}).card ≤ usizeMax) (vs.insert v)
      (fun result => result.Canonical ∧
        result.elements.toFinset = vs.elements.toFinset ∪ {v}) := by
  have hnew : ∃ union, Union.new.add (fun _ _ => false) vs = some union ∧
      union.Stands (∅ ∪ vs.elements.toFinset) :=
    Union.stands_new.add (fun _ _ h => by cases h) hvs
  obtain ⟨union, hadd, hunion⟩ := hnew
  rw [Finset.empty_union] at hunion
  have hinsert := (hunion.addAll [v]).finish_yields
  rw [insert, hadd]
  exact hinsert

/-- The loop of `union_all`. -/
theorem foldlM_add {shares : Nat → Variables E B → Variables E B → Bool} (hshares : Sound shares)
    (operands : List (Variables E B × Finset E))
    (hoperands : ∀ operand ∈ operands,
      operand.1.Canonical ∧ operand.1.elements.toFinset = operand.2)
    (clock : Nat) {union : Union E B} {set : Finset E} (hunion : union.Stands set) :
    ∃ result, ((operands.map Prod.fst).zipIdx clock).foldlM (fun (union : Union E B) entry =>
      union.add (shares entry.2) entry.1) union = some result ∧ result.Stands (set ∪ unite operands) := by
  induction operands generalizing clock union set with
  | nil => exact ⟨union, rfl, by rwa [unite, List.foldr_nil, Finset.union_empty]⟩
  | cons operand operands ih =>
    obtain ⟨hcanonical, hset⟩ := hoperands operand List.mem_cons_self
    obtain ⟨added, hadd, hadded⟩ := hunion.add (hshares clock) hcanonical
    obtain ⟨result, hrun, hresult⟩ := ih
      (fun other hother => hoperands other (List.mem_cons_of_mem _ hother)) (clock + 1) hadded
    refine ⟨result, ?_, ?_⟩
    · rw [List.map_cons, List.zipIdx_cons, List.foldlM_cons, hadd]
      exact hrun
    · rwa [hset, Finset.union_assoc] at hresult

theorem unionAll_yields {shares : Nat → Variables E B → Variables E B → Bool}
    (hshares : Sound shares) {operands : List (Variables E B × Finset E)}
    (hoperands : ∀ operand ∈ operands,
      operand.1.Canonical ∧ operand.1.elements.toFinset = operand.2) :
    Yields ((unite operands).card ≤ usizeMax) (unionAll shares (operands.map Prod.fst))
      (fun result => result.Canonical ∧ result.elements.toFinset = unite operands) := by
  obtain ⟨union, hrun, hunion⟩ := foldlM_add hshares operands hoperands 0 Union.stands_new
  rw [Finset.empty_union] at hunion
  rw [unionAll, hrun]
  exact hunion.finish_yields

/-- What a history builds is canonical and holds the set that the history says. -/
theorem Built.canonical {vs : Variables E B} {set : Finset E} (h : Built vs set) :
    vs.Canonical ∧ vs.elements.toFinset = set := by
  induction h with
  | new => exact ⟨canonical_empty, rfl⟩
  | singleton v => exact ⟨canonical_singleton v, rfl⟩
  | of run => exact (of_yields _).of_eq_some run
  | support canonical support run =>
    obtain ⟨result, hrun, hresult⟩ := ofMultiset_eq canonical support
    rwa [Option.some.inj (run.symm.trans hrun)]
  | insert built v run ih =>
    obtain ⟨hcanonical, rfl⟩ := ih
    exact (insert_yields hcanonical v).of_eq_some run
  | unionAll built sound run ih => exact (unionAll_yields sound ih).of_eq_some run

theorem elements_eq_iff {left right : Variables E B} (hleft : left.Canonical)
    (hright : right.Canonical) :
    left.elements = right.elements ↔ left.elements.toFinset = right.elements.toFinset := by
  refine ⟨fun h => by rw [h], fun h => ?_⟩
  exact (List.perm_of_nodup_nodup_toFinset_eq hleft.ordered.nodup hright.ordered.nodup
    h).eq_of_pairwise' (hleft.ordered.imp le_of_lt) (hright.ordered.imp le_of_lt)

/-- Whatever its history, a value holds the set that the history says, in order; its backing is
the one of the set's size; two values are equal when they are one set; and no operation stops, as
long as the number of variables is a machine number, so that the branch of `finish` for a variable
that the tree already has is not reached. -/
theorem variables_of_histories :
    (∀ (vs : Variables E B) (set : Finset E), Built vs set →
      vs.iter = some vs.elements ∧ vs.elements.Pairwise (· < ·) ∧ vs.elements.toFinset = set ∧
        (vs = .empty ↔ set.card = 0) ∧
        ((∃ xs, vs = .slice xs) ↔ 0 < set.card ∧ set.card ≤ B.factor) ∧
        ((∃ entries, vs = .tree entries) ↔ B.factor < set.card)) ∧
      (∀ (slices : List E → List E → Bool)
          (nodes : Nat → Node (Occurrences E) Unit Unit → Node (Occurrences E) Unit Unit → Bool),
        (∀ left right, slices left right = true → left = right) →
        (∀ clock one two, nodes clock one two = true → one = two) →
        ∀ (left right : Variables E B) (set other : Finset E), Built left set → Built right other →
          eq slices nodes left right = some (decide (set = other))) ∧
      (∀ vs : List E, vs.toFinset.card ≤ usizeMax →
        ∃ result : Variables E B, of vs = some result) ∧
      (∀ multiset : Multiset E B, multiset.Canonical →
        ∃ result set, ofMultiset multiset = some result ∧ Built result set) ∧
      (∀ (vs : Variables E B) (set : Finset E) (v : E), Built vs set →
        (set ∪ {v}).card ≤ usizeMax → ∃ result, vs.insert v = some result) ∧
      (∀ (shares : Nat → Variables E B → Variables E B → Bool)
          (operands : List (Variables E B × Finset E)), Sound shares →
        (∀ operand ∈ operands, Built operand.1 operand.2) → (unite operands).card ≤ usizeMax →
          ∃ result, unionAll shares (operands.map Prod.fst) = some result) ∧
      (∀ (union : Union E B) (set : Finset E), union.Stands set → set.card ≤ usizeMax →
        ∃ result, union.finish = some result) := by
  refine ⟨fun vs set h => ?_, fun slices nodes hslices hnodes left right set other hl hr => ?_,
    fun vs hcard => ?_, fun multiset hmultiset => ?_, fun vs set v h hcard => ?_,
    fun shares operands hshares h hcard => ?_, fun union set h hcard => ?_⟩
  · obtain ⟨hcanonical, rfl⟩ := h.canonical
    rw [Union.card_toFinset hcanonical.ordered]
    exact ⟨hcanonical.iter_eq, hcanonical.ordered, rfl, hcanonical.backing⟩
  · obtain ⟨hleft, rfl⟩ := hl.canonical
    obtain ⟨hright, rfl⟩ := hr.canonical
    rw [hleft.eq_eq hslices hnodes hright]
    simp only [elements_eq_iff hleft hright]
  · obtain ⟨result, hrun, _⟩ := (of_yields (B := B) vs).total hcard
    exact ⟨result, hrun⟩
  · have hset : ∀ v, v ∈ (multiset.entries.items.map Occurrences.element).toFinset ↔
        0 < multiset.occurrences v := by
      intro v
      rw [List.mem_toFinset, List.mem_map]
      exact (hmultiset.entries.canonical.counts_pos_iff v).symm
    obtain ⟨result, hrun, _⟩ := ofMultiset_eq hmultiset hset
    exact ⟨result, _, hrun, .support hmultiset hset hrun⟩
  · obtain ⟨hcanonical, rfl⟩ := h.canonical
    obtain ⟨result, hrun, _⟩ := (insert_yields hcanonical v).total hcard
    exact ⟨result, hrun⟩
  · obtain ⟨result, hrun, _⟩ := (unionAll_yields hshares fun operand hoperand =>
      (h operand hoperand).canonical).total hcard
    exact ⟨result, hrun⟩
  · obtain ⟨result, hrun, _⟩ := h.finish_yields.total hcard
    exact ⟨result, hrun⟩

/-- Two slices of numbers have a tree for their union, equal to the six numbers given at once. -/
theorem variables_of_histories_numbers :
    ∃ left right all result : Variables Nat ⟨5, by decide⟩,
      of [1, 2, 5] = some left ∧ of [2, 3, 4, 6] = some right ∧ of [6, 5, 4, 3, 2, 1] = some all ∧
        union (fun _ _ _ => false) left right = some result ∧
        (∃ entries, result = .tree entries) ∧
        eq (fun _ _ => false) (fun _ _ _ => false) result all = some true := by
  obtain ⟨hbuilt, heq, hof, _, _, hunion, _⟩ :=
    variables_of_histories (E := Nat) (B := ⟨5, by decide⟩)
  obtain ⟨left, hleft⟩ := hof [1, 2, 5] (by decide)
  obtain ⟨right, hright⟩ := hof [2, 3, 4, 6] (by decide)
  obtain ⟨all, hall⟩ := hof [6, 5, 4, 3, 2, 1] (by decide)
  have hsound : Sound fun (_ : Nat) (_ _ : Variables Nat ⟨5, by decide⟩) => false :=
    fun _ _ _ h => by cases h
  have hoperands : ∀ operand ∈ [(left, [1, 2, 5].toFinset), (right, [2, 3, 4, 6].toFinset)],
      Built operand.1 operand.2 := by
    simp only [List.forall_mem_cons, List.not_mem_nil, false_imp_iff, implies_true, and_true]
    exact ⟨.of hleft, .of hright⟩
  have hset : unite [(left, [1, 2, 5].toFinset), (right, [2, 3, 4, 6].toFinset)] =
      {1, 2, 3, 4, 5, 6} := by
    simp only [unite, List.foldr_cons, List.foldr_nil]
    decide
  obtain ⟨result, hresult⟩ := hunion _ _ hsound hoperands (by rw [hset]; decide)
  have hunited := Built.unionAll hoperands hsound hresult
  rw [hset] at hunited
  refine ⟨left, right, all, result, hleft, hright, hall, hresult, ?_, ?_⟩
  · exact (hbuilt _ _ hunited).2.2.2.2.2.mpr (by decide)
  · refine (heq _ _ (fun _ _ h => by cases h) (fun _ _ _ h => by cases h) _ _ _ _ hunited
      (.of hall)).trans ?_
    exact congrArg some (decide_eq_true (by decide))

end Histories

end KRust.Term.Chunks.Variables
