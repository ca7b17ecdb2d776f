import KRust.Term.Chunks.Summary

/-!
Every way the code computes a node's summary gives the summary from scratch:
folded over the items, folded over the children, or derived from the summary of
the leaf that an edit of one run replaces.
-/

set_option linter.unusedSectionVars false

namespace KRust.Term.Chunks

open KRust.Lib KRust.Lib.Partial

variable {I K S G M A : Type} [Item I K S G] [LinearOrder K] [Summary S] [Group G]
  [AddMonoid M] [AddCancelCommMonoid A] [LawfulSummary S M] [LawfulGroup G A]

theorem foldGroups_yields (groups : List G) :
    Yields (LawfulSummary.Representable G (groups.map LawfulSummary.value).sum)
      (foldGroups groups)
      (fun group => LawfulSummary.value group = (groups.map LawfulSummary.value).sum) := by
  refine yields_foldlM
    (fun seen (group : G) => LawfulSummary.value group = (seen.map LawfulSummary.value).sum) ?_ ?_
  · exact LawfulSummary.value_identity
  · intro seen x rest acc hgroups hacc
    refine (LawfulSummary.combine_yields acc x).mono ?_ ?_
    · intro hrep
      have hdrop := LawfulSummary.representable_drop (S := G)
        (LawfulSummary.value acc + LawfulSummary.value x)
        (rest.map LawfulSummary.value).sum 0
      rw [add_zero, add_zero] at hdrop
      apply hdrop
      simpa [hgroups, hacc, add_assoc] using hrep
    · intro result hresult
      simp [hresult, hacc]

/-- A group summary given as a fold is the group summary of the items. -/
theorem foldGroups_items_yields (items : List I) :
    Yields (LawfulSummary.Representable G (groupValue items : A))
      (foldGroups (items.map Item.group))
      (fun group => LawfulSummary.value group = (groupValue items : A)) := by
  have h := foldGroups_yields (items.map (Item.group : I → G))
  simpa [groupValue, Function.comp_def] using h

/-- The replaced run with the item on either side of it. -/
theorem slice_junctions {α : Type} (keep added tail : List α) :
    slice (keep ++ added ++ tail) (keep.length - 1)
      (min (keep.length + added.length + 1) (keep ++ added ++ tail).length) =
        some (keep.getLast?.toList ++ added ++ tail.head?.toList) := by
  have hkeep : keep = keep.dropLast ++ keep.getLast?.toList := by
    cases keep using List.reverseRecOn <;> simp
  have htail : tail = tail.head?.toList ++ tail.tail := by
    cases tail <;> rfl
  have hlist : keep ++ added ++ tail =
      keep.dropLast ++ (keep.getLast?.toList ++ added ++ tail.head?.toList) ++ tail.tail := by
    conv_lhs => rw [hkeep, htail]
    simp
  have hstart : keep.length - 1 = keep.dropLast.length := by simp
  have hstop : min (keep.length + added.length + 1) (keep ++ added ++ tail).length =
      keep.dropLast.length +
        (keep.getLast?.toList ++ added ++ tail.head?.toList).length := by
    cases keep using List.reverseRecOn <;> cases tail <;> simp <;> omega
  rw [hstop, hstart, hlist, slice_append]

/-- The digits of items in the field. -/
def itemDigits (items : List I) : List (ZMod modulus) :=
  SequenceHash.digits (items.map Item.hash64)

theorem itemDigits_append (xs ys : List I) :
    itemDigits (xs ++ ys) = itemDigits xs ++ itemDigits ys := by
  simp [itemDigits, SequenceHash.digits]

theorem length_itemDigits (xs : List I) : (itemDigits xs).length = xs.length := by
  simp [itemDigits, SequenceHash.digits]

theorem reduced_hashOf (xs : List I) : (hashOf xs).Reduced := SequenceHash.reduced_ofItems _

theorem toPoly_hashOf (xs : List I) :
    (hashOf xs).toPoly = PolyHash.ofDigits (radix : ZMod modulus) (itemDigits xs) :=
  SequenceHash.toPoly_ofItems _

theorem cast_hashOf_value (xs : List I) :
    ((hashOf xs).value : ZMod modulus) =
      (PolyHash.ofDigits (radix : ZMod modulus) (itemDigits xs)).value :=
  congrArg PolyHash.value (toPoly_hashOf xs)

theorem cast_hashOf_power (xs : List I) :
    ((hashOf xs).power : ZMod modulus) = (radix : ZMod modulus) ^ xs.length := by
  rw [← length_itemDigits, ← PolyHash.ofDigits_power]
  exact congrArg PolyHash.power (toPoly_hashOf xs)

/-- The value of the kept suffix is the old value less that of the part before
it, shifted by the suffix. -/
theorem ofValue_suffix (head tail : List I) :
    SequenceHash.ofValue
      (difference (hashOf (head ++ tail)).value
        (multiply (hashOf head).value (power radix tail.length)))
      tail.length = hashOf tail := by
  apply SequenceHash.toPoly_inj
    ⟨difference_lt _ _ (reduced_hashOf _).value_lt (multiply_lt _ _), power_lt _ _⟩
    (reduced_hashOf tail)
  ext
  · simp only [SequenceHash.toPoly, SequenceHash.ofValue]
    rw [cast_difference _ _ (multiply_lt _ _),
      cast_multiply _ _ (reduced_hashOf head).value_lt (power_lt _ _),
      cast_power _ _ radix_lt, cast_hashOf_value, cast_hashOf_value, cast_hashOf_value,
      itemDigits_append, PolyHash.ofDigits_value_append, length_itemDigits]
    ring
  · simp only [SequenceHash.toPoly, SequenceHash.ofValue]
    rw [cast_power _ _ radix_lt, cast_hashOf_power]

/-- The kept prefix is not hashed: its share is that in the old value, shifted by
the change of length. -/
theorem value_replace (keep removed added tail : List I) :
    ({ value := add
        (multiply
          (multiply
            (difference (hashOf (keep ++ (removed ++ tail))).value (hashOf (removed ++ tail)).value)
            (power radix added.length))
          (power inverseRadix removed.length))
        (hashOf (added ++ tail)).value,
       power := power radix (keep ++ (added ++ tail)).length } : SequenceHash) =
      hashOf (keep ++ (added ++ tail)) := by
  have hdiff := difference_lt _ _ (reduced_hashOf (keep ++ (removed ++ tail))).value_lt
    (reduced_hashOf (removed ++ tail)).value_lt
  have hrest := (reduced_hashOf (added ++ tail)).value_lt
  have hinverse : inverseRadix < modulus := power_lt _ _
  apply SequenceHash.toPoly_inj ⟨add_lt _ _ (multiply_lt _ _) hrest, power_lt _ _⟩
    (reduced_hashOf _)
  ext
  · simp only [SequenceHash.toPoly]
    rw [cast_add _ _ (multiply_lt _ _) hrest, cast_multiply _ _ (multiply_lt _ _) (power_lt _ _),
      cast_multiply _ _ hdiff (power_lt _ _),
      cast_difference _ _ (reduced_hashOf (removed ++ tail)).value_lt,
      cast_power _ _ radix_lt, cast_power _ _ hinverse]
    simp only [cast_hashOf_value, itemDigits_append]
    rw [PolyHash.ofDigits_value_replace (radix : ZMod modulus) inverseRadix cast_inverseRadix_mul
      (itemDigits keep) (itemDigits removed) (itemDigits added) (itemDigits tail)]
    simp only [length_itemDigits]
  · simp only [SequenceHash.toPoly]
    rw [cast_power _ _ radix_lt, cast_hashOf_power]

/-- Only the replaced run and its two junctions can put two items of one key
side by side when the old leaf has no such pair. -/
theorem hasCollision_replace (keep removed added tail : List I)
    (hold : hasCollision (keep ++ removed ++ tail) = false) :
    hasCollision (keep.getLast?.toList ++ added ++ tail.head?.toList) =
      hasCollision (keep ++ added ++ tail) := by
  simp only [hasCollision_append, Bool.or_eq_false_iff] at hold
  obtain ⟨⟨⟨⟨hkeep, _⟩, _⟩, htail⟩, _⟩ := hold
  have hsingle : ∀ x : Option I, hasCollision x.toList = false := by
    intro x
    cases x <;> rfl
  have hlast : keep.getLast?.toList.getLast? = keep.getLast? := by
    cases keep.getLast? <;> rfl
  have hhead : tail.head?.toList.head? = tail.head? := by
    cases tail.head? <;> rfl
  simp only [hasCollision_append, hsingle, hkeep, htail, hlast, hhead]
  simp [List.getLast?_append, hlast]

namespace NodeSummary

theorem ofItemsWith_yields (items : List I) (group : G)
    (hgroup : LawfulSummary.value group = (groupValue items : A)) :
    Yields (Fits items) (ofItemsWith items group) (fun summary => Summarizes summary items) := by
  unfold ofItemsWith
  refine ((vecLen_yields items).mono Fits.count fun _ h => h).bind fun count hcount => ?_
  refine ((foldExtra_yields items).mono Fits.extra fun _ h => h).bind fun extra hextra => ?_
  exact {
    count := hcount.1, count_le := hcount.2, first := rfl, last := rfl, collision := rfl, hash := rfl,
    extra := hextra, group := hgroup }

theorem ofItems_yields (items : List I) :
    Yields (Fits items) (ofItems items) (fun summary => Summarizes summary items) := by
  unfold ofItems
  refine ((foldGroups_items_yields items).mono Fits.group fun _ h => h).bind
    fun group hgroup => ?_
  exact ofItemsWith_yields items group hgroup

/-- The hash of an edited leaf, of whose kept runs the shorter one is hashed. -/
theorem hashOf_edited (keep removed added tail : List I) :
    (if keep.length ≤ tail.length then
      let head := hashOf ((keep ++ added ++ tail).take keep.length)
      let rest := SequenceHash.ofValue
        (difference (hashOf (keep ++ removed ++ tail)).value
          (multiply (head.combine (hashOf removed)).value (power radix tail.length)))
        tail.length
      (head.combine (hashOf added)).combine rest
    else
      let rest := hashOf ((keep ++ added ++ tail).drop (keep.length + added.length))
      let head := multiply
        (multiply (difference (hashOf (keep ++ removed ++ tail)).value
          ((hashOf removed).combine rest).value) (power radix added.length))
        (power inverseRadix removed.length)
      { value := Chunks.add head ((hashOf added).combine rest).value,
        power := Chunks.power radix (keep ++ added ++ tail).length }) =
      hashOf (keep ++ added ++ tail) := by
  have htake : (keep ++ added ++ tail).take keep.length = keep := by simp
  have hdrop : (keep ++ added ++ tail).drop (keep.length + added.length) = tail := by
    rw [← List.length_append, List.drop_left]
  dsimp only
  split
  · rw [htake, ← hashOf_append, ← hashOf_append, ofValue_suffix, ← hashOf_append]
  · have hreplace := value_replace keep removed added tail
    simp only [← List.append_assoc] at hreplace
    rw [hdrop, ← hashOf_append, ← hashOf_append, ← hreplace]

/-- A leaf edited in one run: `keep` and `tail` are kept, `removed` is replaced by
`added`. -/
theorem ofEditedItems_yields (keep removed added tail : List I)
    (summary : NodeSummary I S G) (hsummary : Summarizes summary (keep ++ removed ++ tail))
    (group : G) (hgroup : LawfulSummary.value group = (groupValue (keep ++ added ++ tail) : A)) :
    Yields (Fits (keep ++ added ++ tail))
      (ofEditedItems (keep ++ removed ++ tail) summary (keep ++ added ++ tail)
        (keep.length, tail.length) group)
      (fun result => Summarizes result (keep ++ added ++ tail)) := by
  have hslice : ∀ mid : List I, checkedSub (keep ++ mid ++ tail).length tail.length =
      some (keep.length + mid.length) := by
    intro mid
    rw [checkedSub_of_le (by simp; omega)]
    simp
    omega
  have hextra : Summary.constant S = true → ∀ items : List I, (extraValue items : M) = 0 := by
    intro hconstant items
    exact List.sum_eq_zero (by simp [LawfulSummary.value_constant hconstant])
  unfold ofEditedItems
  refine ((vecLen_yields _).mono Fits.count fun _ h => h).bind fun count hcount => ?_
  simp only [hslice, slice_append, Option.bind_eq_bind, Option.bind_some]
  split
  · exact ofItemsWith_yields _ group hgroup
  · next hderive =>
    simp only [Bool.or_eq_true, not_or, Bool.not_eq_true', Bool.not_eq_true,
      Bool.not_eq_false, decide_eq_true_eq, not_le] at hderive
    obtain ⟨⟨hconstant, hcollision⟩, _⟩ := hderive
    rw [hsummary.collision] at hcollision
    rw [slice_junctions keep added tail, Option.bind_some]
    refine {
      count := hcount.1, count_le := hcount.2, first := rfl, last := rfl,
      collision := hasCollision_replace keep removed added tail hcollision
      hash := ?_
      extra := LawfulSummary.value_identity.trans (hextra hconstant _).symm
      group := hgroup }
    rw [hsummary.hash]
    exact hashOf_edited keep removed added tail

section Children

variable {N : Type} (summaryOf : N → NodeSummary I S G) (run : N → List I) (nodes : List N)

theorem head?_flatMap_of_ne_nil (hrun : ∀ n ∈ nodes, run n ≠ []) :
    (nodes.flatMap run).head? = nodes.head?.bind fun n => (run n).head? := by
  cases nodes with
  | nil => rfl
  | cons n rest =>
    obtain ⟨x, xs, hx⟩ := List.exists_cons_of_ne_nil (hrun n (by simp))
    simp [hx]

theorem getLast?_flatMap_of_ne_nil (hrun : ∀ n ∈ nodes, run n ≠ []) :
    (nodes.flatMap run).getLast? = nodes.getLast?.bind fun n => (run n).getLast? := by
  cases nodes using List.reverseRecOn with
  | nil => rfl
  | append_singleton rest n =>
    have hn := hrun n (by simp)
    simp [List.getLast?_append, List.getLast?_eq_some_getLast hn]

/-- The junctions of the children are those of the runs below them. -/
theorem collision_children
    (hnodes : ∀ n ∈ nodes, Summarizes (summaryOf n) (run n) ∧ run n ≠ []) :
    ((nodes.map summaryOf).any (·.collision) ||
      anyAdjacent (fun left right => collides left.last right.first) (nodes.map summaryOf)) =
        hasCollision (nodes.flatMap run) := by
  induction nodes with
  | nil => rfl
  | cons n rest ih =>
    have hn := hnodes n (by simp)
    have hrest := ih fun m hm => hnodes m (by simp [hm])
    have hhead := head?_flatMap_of_ne_nil run rest fun m hm => (hnodes m (by simp [hm])).2
    rw [List.flatMap_cons, hasCollision_append, ← hrest, hhead]
    cases rest with
    | nil => simp [anyAdjacent, hn.1.collision, collides]
    | cons m rest =>
      have hm := hnodes m (by simp)
      simp only [List.map_cons, List.any_cons, anyAdjacent, hn.1.collision, hn.1.last,
        hm.1.first, List.head?_cons, Option.bind_some]
      cases hasCollision (run n) <;> simp [Bool.or_comm, Bool.or_left_comm]

/-- The summary of a node above its children, whose items are nonempty runs. -/
theorem ofChildrenWith_yields
    (hnodes : ∀ n ∈ nodes, Summarizes (summaryOf n) (run n) ∧ run n ≠ [])
    (group : G) (hgroup : LawfulSummary.value group = (groupValue (nodes.flatMap run) : A)) :
    Yields (Fits (nodes.flatMap run)) (ofChildrenWith (nodes.map summaryOf) group)
      (fun summary => Summarizes summary (nodes.flatMap run)) := by
  have hcount : Yields ((nodes.flatMap run).length ≤ usizeMax)
      ((nodes.map summaryOf).foldlM (fun count child => checkedAdd count child.count) 0)
      (fun count => count = (nodes.flatMap run).length ∧
        (nodes.flatMap run).length ≤ usizeMax) := by
    rw [List.foldlM_map]
    refine yields_foldlM (fun seen (count : Nat) =>
      count = (seen.flatMap run).length ∧ (seen.flatMap run).length ≤ usizeMax) (by simp) ?_
    intro seen n rest acc hsplit hacc
    have hn := hnodes n (by simp [hsplit])
    refine (checkedAdd_yields acc (summaryOf n).count).mono ?_ ?_
    · intro hle
      rw [hacc.1, hn.1.count]
      simp only [hsplit, List.flatMap_append, List.flatMap_cons, List.length_append] at hle
      omega
    · intro sum hsum
      rw [hacc.1, hn.1.count] at hsum
      simp only [List.flatMap_append, List.flatMap_cons, List.flatMap_nil, List.append_nil,
        List.length_append]
      exact hsum
  have hextra : Yields (LawfulSummary.Representable S (extraValue (nodes.flatMap run) : M))
      ((nodes.map summaryOf).foldlM (fun extra child => Summary.combine extra child.extra)
        Summary.identity)
      (fun extra => LawfulSummary.value extra = (extraValue (nodes.flatMap run) : M)) := by
    rw [List.foldlM_map]
    refine yields_foldlM (fun seen (extra : S) =>
      LawfulSummary.value extra = (extraValue (seen.flatMap run) : M)) ?_ ?_
    · exact LawfulSummary.value_identity
    intro seen n rest acc hsplit hacc
    have hn := hnodes n (by simp [hsplit])
    refine (LawfulSummary.combine_yields acc (summaryOf n).extra).mono ?_ ?_
    · intro hrep
      have hdrop := LawfulSummary.representable_drop (S := S)
        (LawfulSummary.value acc + LawfulSummary.value (summaryOf n).extra)
        (extraValue (rest.flatMap run)) 0
      rw [add_zero, add_zero] at hdrop
      apply hdrop
      simpa [hsplit, hacc, hn.1.extra, add_assoc] using hrep
    · intro result hresult
      simp [hresult, hacc, hn.1.extra]
  have hfirst : ((nodes.map summaryOf).head?.bind (·.first)) = (nodes.flatMap run).head? := by
    rw [head?_flatMap_of_ne_nil run nodes fun n hn => (hnodes n hn).2]
    cases nodes with
    | nil => rfl
    | cons n rest => exact (hnodes n (by simp)).1.first
  have hlast : ((nodes.map summaryOf).getLast?.bind (·.last)) = (nodes.flatMap run).getLast? := by
    rw [getLast?_flatMap_of_ne_nil run nodes fun n hn => (hnodes n hn).2]
    cases nodes using List.reverseRecOn with
    | nil => rfl
    | append_singleton rest n => simpa using (hnodes n (by simp)).1.last
  have hhash : (nodes.map summaryOf).foldl (fun hash child => hash.combine child.hash)
      SequenceHash.empty = hashOf (nodes.flatMap run) := by
    have hfold := SequenceHash.foldl_combine_ofItems
      (nodes.map fun n => (run n).map Item.hash64)
    rw [List.foldl_map] at hfold
    rw [List.foldl_map, hashOf, List.map_flatMap, List.flatMap, ← hfold]
    apply List.foldl_ext
    intro hash n hn
    rw [(hnodes n hn).1.hash]
    rfl
  unfold ofChildrenWith
  refine (hcount.mono Fits.count fun _ h => h).bind fun count hcount => ?_
  refine (hextra.mono Fits.extra fun _ h => h).bind fun extra hextra => ?_
  exact {
    count := hcount.1, count_le := hcount.2, first := hfirst, last := hlast
    collision := collision_children summaryOf run nodes hnodes
    hash := hhash, extra := hextra, group := hgroup }

end Children

end NodeSummary

end KRust.Term.Chunks
