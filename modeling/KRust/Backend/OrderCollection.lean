import KRust.Lib.StableSort

/-!
The ordering of a collection's items: two ordered runs one of which is short are joined by
rotations, at places found by bisection; any other shape is sorted.
-/

namespace KRust.Backend.OrderCollection

open KRust.Lib

variable {T : Type}

section Definitions

/-- `SHORT_RUN` -/
def shortRun : Nat := 8

/-- The first adjacent pair that is out of order. -/
def firstDescent (le : T → T → Bool) : List T → Option Nat
  | x :: y :: items =>
    if !le x y then some 0 else (firstDescent le (y :: items)).map (· + 1)
  | _ => none

/-- Whether every adjacent pair is in order. -/
def adjacentOrdered (le : T → T → Bool) : List T → Bool
  | x :: y :: items => le x y && adjacentOrdered le (y :: items)
  | _ => true

/-- `items[first..=last]` rotated; no such slice where `last` is not the position of an item. -/
def rotateSlice (rotate : List T → List T) (items : List T) (first last : Nat) :
    Option (List T) :=
  if first ≤ last + 1 ∧ last < items.length then
    some (items.take first ++ rotate ((items.take (last + 1)).drop first) ++ items.drop (last + 1))
  else none

/-- `rotate_left(1)` -/
def rotateLeft (items : List T) : List T := items.tail ++ items.head?.toList

/-- `rotate_right(1)` -/
def rotateRight (items : List T) : List T := items.getLast?.toList ++ items.dropLast

/-- One item of the first run moves in front of the first item it precedes behind it. -/
def moveFront (le : T → T → Bool) (items : List T) (index : Nat) : Option (List T) := do
  let item ← items[index]?
  let position := Slice.partitionPoint (fun other => !le item other) (items.drop (index + 1))
  rotateSlice rotateLeft items index (index + position)

/-- One item of the second run moves behind the last item it does not precede before it. -/
def moveBehind (le : T → T → Bool) (items : List T) (index : Nat) : Option (List T) := do
  let item ← items[index]?
  let position := Slice.partitionPoint (fun other => le other item) (items.take index)
  rotateSlice rotateRight items position index

/-- The loop over the indices below `split`, last first, after a number of rounds. -/
def moveFronts (le : T → T → Bool) (split : Nat) (items : List T) : Nat → Option (List T)
  | 0 => some items
  | rounds + 1 => do moveFront le (← moveFronts le split items rounds) (split - (rounds + 1))

/-- The loop over the indices from `split` on, after a number of rounds. -/
def moveBehinds (le : T → T → Bool) (split : Nat) (items : List T) : Nat → Option (List T)
  | 0 => some items
  | rounds + 1 => do moveBehind le (← moveBehinds le split items rounds) (split + rounds)

/-- `order_collection` -/
def orderCollection (le : T → T → Bool) (items : List T) : Option (List T) :=
  match firstDescent le items with
  | none => some items
  | some descent =>
    let split := descent + 1
    let length := items.length
    if (split ≤ shortRun || length - split ≤ shortRun) && adjacentOrdered le (items.drop split) then
      if split ≤ shortRun then moveFronts le split items split
      else moveBehinds le split items (length - split)
    else some (items.mergeSort le)

end Definitions

section Laws

variable {le : T → T → Bool} (hle : TotalPreorder le)

/-- The items are in order. -/
def Ordered (le : T → T → Bool) (items : List T) : Prop := items.Pairwise fun x y => le x y = true

include hle

theorem ordered_mergeSort (items : List T) : Ordered le (items.mergeSort le) :=
  pairwise_mergeSort_of hle items

theorem adjacentOrdered_iff (items : List T) :
    adjacentOrdered le items = true ↔ Ordered le items := by
  induction items with
  | nil => simp [adjacentOrdered, Ordered]
  | cons x items ih =>
    cases items with
    | nil => simp [adjacentOrdered, Ordered]
    | cons y items =>
      rw [adjacentOrdered, Bool.and_eq_true, ih, Ordered, Ordered, List.pairwise_cons (a := x)]
      refine ⟨fun ⟨hxy, hrest⟩ => ⟨fun z hz => ?_, hrest⟩, fun ⟨hx, hrest⟩ =>
        ⟨hx y List.mem_cons_self, hrest⟩⟩
      rcases List.mem_cons.mp hz with rfl | hz
      · exact hxy
      · exact hle.trans x y z hxy ((List.pairwise_cons.mp hrest).1 z hz)

/-- Items without a descent are in order; those up to the first descent are. -/
theorem firstDescent_spec (items : List T) :
    (firstDescent le items = none → Ordered le items) ∧
      ∀ descent, firstDescent le items = some descent →
        descent + 1 < items.length ∧ Ordered le (items.take (descent + 1)) := by
  induction items with
  | nil => exact ⟨fun _ => List.Pairwise.nil, by simp [firstDescent]⟩
  | cons x items ih =>
    cases items with
    | nil => exact ⟨fun _ => List.pairwise_singleton _ x, by simp [firstDescent]⟩
    | cons y items =>
      rw [firstDescent]
      by_cases hxy : le x y = true
      · simp only [hxy, Bool.not_true, Bool.false_eq_true, if_false, Option.map_eq_none_iff,
          Option.map_eq_some_iff]
        have hput : ∀ ys, Ordered le (y :: ys) → Ordered le (x :: y :: ys) := by
          intro ys hys
          rw [← adjacentOrdered_iff hle, adjacentOrdered, hxy, Bool.true_and]
          exact (adjacentOrdered_iff hle _).mpr hys
        refine ⟨fun hnone => hput items (ih.1 hnone), ?_⟩
        rintro _ ⟨descent, hdescent, rfl⟩
        obtain ⟨hlt, hordered⟩ := ih.2 descent hdescent
        exact ⟨by simpa using hlt, hput _ hordered⟩
      · simp only [hxy, Bool.not_false, if_true, reduceCtorEq, false_imp_iff, true_and,
          Option.some.injEq, forall_eq']
        exact ⟨by simp, List.pairwise_singleton _ x⟩

/-- One rotation to the left puts the item in its place in the ordered items behind it. -/
theorem moveFront_eq (front : List T) (item : T) {rest : List T} (hrest : Ordered le rest) :
    moveFront le (front ++ item :: rest) front.length =
      some (front ++ insertBefore le item rest) := by
  have hpartitioned : Slice.Partitioned (fun other => !le item other) rest := by
    refine hrest.imp fun {x y} hxy hy => ?_
    simp only [Bool.not_eq_true', Bool.eq_false_iff] at hy ⊢
    exact fun hx => hy (hle.trans item x y hx hxy)
  have hdrop : (front ++ item :: rest).drop (front.length + 1) = rest := by simp
  have hitem : (front ++ item :: rest)[front.length]? = some item := by simp
  have hsplit : rest.takeWhile (fun other => !le item other) ++
      rest.dropWhile (fun other => !le item other) = rest := List.takeWhile_append_dropWhile
  simp only [moveFront, hitem, Option.bind_eq_bind, Option.bind_some, hdrop,
    Slice.partitionPoint_eq hpartitioned, insertBefore]
  generalize rest.takeWhile (fun other => !le item other) = low at *
  generalize rest.dropWhile (fun other => !le item other) = high at *
  subst hsplit
  have htake : (front ++ item :: (low ++ high)).take (front.length + low.length + 1) =
      front ++ item :: low := by
    rw [← List.cons_append, ← List.append_assoc, List.take_left']
    simp
    omega
  have hrestDrop : (front ++ item :: (low ++ high)).drop (front.length + low.length + 1) = high := by
    rw [← List.cons_append, ← List.append_assoc, List.drop_left']
    simp
    omega
  rw [rotateSlice, if_pos (by simp; omega), htake, hrestDrop, List.take_left, List.drop_left]
  simp [rotateLeft]

/-- One rotation to the right puts the item in its place in the ordered items before it. -/
theorem moveBehind_eq {front : List T} (hfront : Ordered le front) (item : T) (rest : List T) :
    moveBehind le (front ++ item :: rest) front.length =
      some (insertBehind le item front ++ rest) := by
  have hpartitioned : Slice.Partitioned (fun other => le other item) front :=
    hfront.imp fun {x y} hxy hy => hle.trans x y item hxy hy
  have hitem : (front ++ item :: rest)[front.length]? = some item := by simp
  have hsplit : front.takeWhile (fun other => le other item) ++
      front.dropWhile (fun other => le other item) = front := List.takeWhile_append_dropWhile
  simp only [moveBehind, hitem, Option.bind_eq_bind, Option.bind_some, List.take_left,
    Slice.partitionPoint_eq hpartitioned, insertBehind]
  generalize front.takeWhile (fun other => le other item) = low at *
  generalize front.dropWhile (fun other => le other item) = high at *
  subst hsplit
  have htake : (low ++ high ++ item :: rest).take ((low ++ high).length + 1) =
      low ++ (high ++ [item]) := by
    have happend : low ++ high ++ item :: rest = (low ++ (high ++ [item])) ++ rest := by simp
    rw [happend, List.take_left']
    simp
    omega
  have hdrop : (low ++ high ++ item :: rest).drop ((low ++ high).length + 1) = rest := by
    rw [List.drop_append, List.drop_eq_nil_of_le (by omega), List.nil_append, Nat.add_sub_cancel_left]
    rfl
  have hlow : (low ++ high ++ item :: rest).take low.length = low := by simp
  rw [rotateSlice, if_pos (by simp; omega), htake, hdrop, hlow, List.drop_left]
  simp [rotateRight]

/-- Before each round of the first loop the items from the last index on are sorted, and those
before it are as they were. -/
theorem moveFronts_eq {split : Nat} {items : List T} (hsplit : split ≤ items.length)
    (hrest : Ordered le (items.drop split)) {rounds : Nat} (hrounds : rounds ≤ split) :
    moveFronts le split items rounds =
      some (items.take (split - rounds) ++ (items.drop (split - rounds)).mergeSort le) := by
  induction rounds with
  | zero =>
    rw [moveFronts, Nat.sub_zero, List.mergeSort_of_pairwise hrest, List.take_append_drop]
  | succ rounds ih =>
    have hindex : split - (rounds + 1) < items.length := by omega
    have hnext : split - rounds = split - (rounds + 1) + 1 := by omega
    have hlength : (items.take (split - (rounds + 1))).length = split - (rounds + 1) := by
      rw [List.length_take]
      omega
    have hmove := moveFront_eq hle (items.take (split - (rounds + 1)))
      items[split - (rounds + 1)] (ordered_mergeSort hle (items.drop (split - (rounds + 1) + 1)))
    rw [hlength, ← mergeSort_cons_eq hle, List.getElem_cons_drop] at hmove
    rw [moveFronts, ih (by omega), hnext, List.take_succ_eq_append_getElem hindex,
      List.append_assoc, List.singleton_append]
    exact hmove

/-- Before each round of the second loop the items before the index are sorted, and those from it
on are as they were. -/
theorem moveBehinds_eq {split : Nat} {items : List T} (hfront : Ordered le (items.take split))
    {rounds : Nat} (hrounds : split + rounds ≤ items.length) :
    moveBehinds le split items rounds =
      some ((items.take (split + rounds)).mergeSort le ++ items.drop (split + rounds)) := by
  induction rounds with
  | zero =>
    rw [moveBehinds, Nat.add_zero, List.mergeSort_of_pairwise hfront, List.take_append_drop]
  | succ rounds ih =>
    have hindex : split + rounds < items.length := by omega
    have hlength : ((items.take (split + rounds)).mergeSort le).length = split + rounds := by
      rw [List.length_mergeSort, List.length_take]
      omega
    have hmove := moveBehind_eq hle (ordered_mergeSort hle (items.take (split + rounds)))
      items[split + rounds] (items.drop (split + rounds + 1))
    rw [hlength, ← mergeSort_concat_eq hle, ← List.take_succ_eq_append_getElem hindex] at hmove
    rw [moveBehinds, ih (by omega), List.drop_eq_getElem_cons hindex]
    exact hmove

/-- Whatever their shape, the items come out as a stable sort leaves them; and before every round
of the two loops what the loop has passed is in order and the rest is untouched. -/
theorem orderCollection_sorts (items : List T) :
    orderCollection le items = some (items.mergeSort le) ∧
      ∀ split, split ≤ items.length →
        (Ordered le (items.drop split) → ∀ rounds, rounds ≤ split →
          ∃ state, moveFronts le split items rounds = some state ∧ state.Perm items ∧
            Ordered le (state.drop (split - rounds)) ∧
            state.take (split - rounds) = items.take (split - rounds)) ∧
        (Ordered le (items.take split) → ∀ rounds, split + rounds ≤ items.length →
          ∃ state, moveBehinds le split items rounds = some state ∧ state.Perm items ∧
            Ordered le (state.take (split + rounds)) ∧
            state.drop (split + rounds) = items.drop (split + rounds)) := by
  refine ⟨?_, fun split hsplit => ⟨fun hrest rounds hrounds => ?_, fun hfront rounds hrounds => ?_⟩⟩
  · obtain ⟨hnone, hsome⟩ := firstDescent_spec hle items
    unfold orderCollection
    split
    · next hdescent => rw [List.mergeSort_of_pairwise (hnone hdescent)]
    · next descent hdescent =>
      obtain ⟨hlt, hfront⟩ := hsome descent hdescent
      dsimp only
      split
      · next hshort =>
        have hrest := (adjacentOrdered_iff hle _).mp (Bool.and_eq_true_iff.mp hshort).2
        split
        · rw [moveFronts_eq hle hlt.le hrest le_rfl]
          simp
        · rw [moveBehinds_eq hle hfront (by omega), Nat.add_sub_cancel' hlt.le]
          simp
      · rfl
  · have hlength : (items.take (split - rounds)).length = split - rounds := by
      rw [List.length_take]
      omega
    refine ⟨_, moveFronts_eq hle hsplit hrest hrounds, ?_, ?_, List.take_left' hlength⟩
    · have hperm := (List.mergeSort_perm (items.drop (split - rounds)) le).append_left
        (items.take (split - rounds))
      rwa [List.take_append_drop] at hperm
    · rw [List.drop_left' hlength]
      exact ordered_mergeSort hle _
  · have hlength : ((items.take (split + rounds)).mergeSort le).length = split + rounds := by
      rw [List.length_mergeSort, List.length_take]
      omega
    refine ⟨_, moveBehinds_eq hle hfront hrounds, ?_, ?_, List.drop_left' hlength⟩
    · have hperm := (List.mergeSort_perm (items.take (split + rounds)) le).append_right
        (items.drop (split + rounds))
      rwa [List.take_append_drop] at hperm
    · rw [List.take_left' hlength]
      exact ordered_mergeSort hle _

end Laws

/-- Numbers in their order. -/
theorem orderCollection_sorts_numbers :
    orderCollection (fun x y : Nat => decide (x ≤ y)) [1, 2, 3, 5, 8, 9, 12, 13, 15, 16, 4, 8, 14] =
      some ([1, 2, 3, 5, 8, 9, 12, 13, 15, 16, 4, 8, 14].mergeSort fun x y => decide (x ≤ y)) := by
  have hle : TotalPreorder fun x y : Nat => decide (x ≤ y) :=
    ⟨fun x y z hxy hyz => by simp at *; omega, fun x y => by simp; omega⟩
  exact (orderCollection_sorts hle _).1

end KRust.Backend.OrderCollection
