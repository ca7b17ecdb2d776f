import Mathlib.Data.List.Sort

/-!
Stable sorting by a total preorder, one item at a time: before the items that are not below it, or
behind those that are not above it. The place of an item is found by bisection.
-/

namespace KRust.Lib

variable {ι : Type}

/-- The documented laws of an order: any two items compare, and items may compare equal. -/
structure TotalPreorder (le : ι → ι → Bool) : Prop where
  trans : ∀ x y z, le x y = true → le y z = true → le x z = true
  total : ∀ x y, (le x y || le y x) = true

section Insert

/-- An item put before the first that is not below it. -/
def insertBefore (le : ι → ι → Bool) (x : ι) (xs : List ι) : List ι :=
  xs.takeWhile (fun y => !le x y) ++ x :: xs.dropWhile fun y => !le x y

/-- An item put behind the last that is not above it. -/
def insertBehind (le : ι → ι → Bool) (x : ι) (xs : List ι) : List ι :=
  xs.takeWhile (fun y => le y x) ++ x :: xs.dropWhile fun y => le y x

variable {le : ι → ι → Bool}

theorem insertBefore_cons (x y : ι) (xs : List ι) :
    insertBefore le x (y :: xs) = if le x y then x :: y :: xs else y :: insertBefore le x xs := by
  unfold insertBefore
  by_cases h : le x y = true
  · simp [h]
  · simp [h]

theorem insertBehind_cons (x y : ι) (xs : List ι) :
    insertBehind le x (y :: xs) = if le y x then y :: insertBehind le x xs else x :: y :: xs := by
  unfold insertBehind
  by_cases h : le y x = true
  · simp [h]
  · simp [h]

variable (hle : TotalPreorder le)
include hle

theorem TotalPreorder.of_not {x y : ι} (h : ¬ le x y = true) : le y x = true := by
  have := hle.total x y
  rw [Bool.or_eq_true] at this
  exact this.resolve_left h

/-- An item put in front and one put behind do not disturb each other. -/
theorem insertBefore_insertBehind (x y : ι) (xs : List ι) :
    insertBefore le x (insertBehind le y xs) = insertBehind le y (insertBefore le x xs) := by
  induction xs with
  | nil =>
    have hx : insertBefore le x [] = [x] := rfl
    have hy : insertBehind le y [] = [y] := rfl
    rw [hx, hy, insertBefore_cons, insertBehind_cons, hx, hy]
  | cons z zs ih =>
    by_cases hzy : le z y = true
    · by_cases hxz : le x z = true
      · have hxy := hle.trans x z y hxz hzy
        rw [insertBehind_cons, if_pos hzy, insertBefore_cons, if_pos hxz, insertBefore_cons,
          if_pos hxz, insertBehind_cons, if_pos hxy, insertBehind_cons, if_pos hzy]
      · rw [insertBehind_cons, if_pos hzy, insertBefore_cons, if_neg hxz, insertBefore_cons,
          if_neg hxz, insertBehind_cons, if_pos hzy, ih]
    · have hyz := hle.of_not hzy
      rw [insertBehind_cons, if_neg hzy, insertBefore_cons]
      by_cases hxy : le x y = true
      · have hxz := hle.trans x y z hxy hyz
        rw [if_pos hxy, insertBefore_cons, if_pos hxz, insertBehind_cons, if_pos hxy,
          insertBehind_cons, if_neg hzy]
      · rw [if_neg hxy, insertBefore_cons]
        by_cases hxz : le x z = true
        · rw [if_pos hxz, insertBehind_cons, if_neg hxy]
        · rw [if_neg hxz, insertBehind_cons, if_neg hzy]

theorem pairwise_mergeSort_of (xs : List ι) : (xs.mergeSort le).Pairwise fun x y => le x y = true :=
  List.pairwise_mergeSort hle.trans hle.total xs

/-- The stable sort puts the first item before those that are not below it. -/
theorem mergeSort_cons_eq (x : ι) (xs : List ι) :
    (x :: xs).mergeSort le = insertBefore le x (xs.mergeSort le) := by
  obtain ⟨low, high, hsort, hrest, hlow⟩ := List.mergeSort_cons hle.trans hle.total x xs
  have hsorted := pairwise_mergeSort_of hle (x :: xs)
  rw [hsort] at hsorted
  have hhigh : ∀ y ∈ high, (!le x y) = false := by
    intro y hy
    simpa using (List.pairwise_cons.mp (List.pairwise_append.mp hsorted).2.1).1 y hy
  rw [hsort, hrest, insertBefore, List.takeWhile_append_of_pos hlow,
    List.dropWhile_append_of_pos hlow]
  cases high with
  | nil => simp
  | cons y high =>
    have hy := hhigh y List.mem_cons_self
    rw [List.takeWhile_cons_of_neg (by simp [hy]), List.dropWhile_cons_of_neg (by simp [hy]),
      List.append_nil]

/-- The stable sort puts the last item behind those that are not above it. -/
theorem mergeSort_concat_eq (xs : List ι) (x : ι) :
    (xs ++ [x]).mergeSort le = insertBehind le x (xs.mergeSort le) := by
  induction xs with
  | nil => simp [insertBehind]
  | cons y xs ih =>
    rw [List.cons_append, mergeSort_cons_eq hle, ih, mergeSort_cons_eq hle,
      insertBefore_insertBehind hle]

end Insert

/-! The partition point of a slice, by bisection. -/

namespace Slice

/-- The loop of a binary search: `size` items from `base` on are left. -/
def bisect (before : ι → Bool) (xs : List ι) (base size : Nat) : Nat :=
  if size ≤ 1 then if xs[base]?.any before then base + 1 else base
  else
    let half := size / 2
    let base := if xs[base + half]?.any before then base + half else base
    bisect before xs base (size - half)
termination_by size

/-- `slice::partition_point` -/
def partitionPoint (before : ι → Bool) (xs : List ι) : Nat :=
  if xs.isEmpty then 0 else bisect before xs 0 xs.length

variable {before : ι → Bool} {xs : List ι}

/-- The test holds of a prefix of the slice and of nothing after it. -/
def Partitioned (before : ι → Bool) (xs : List ι) : Prop :=
  xs.Pairwise fun x y => before y = true → before x = true

theorem Partitioned.before_iff (h : Partitioned before xs) (index : Nat) :
    xs[index]?.any before = decide (index < (xs.takeWhile before).length) := by
  induction xs generalizing index with
  | nil => simp
  | cons x xs ih =>
    obtain ⟨hhead, htail⟩ := List.pairwise_cons.mp h
    cases index with
    | zero =>
      cases hx : before x with
      | true => simp [hx]
      | false => simp [hx]
    | succ index =>
      rw [List.getElem?_cons_succ, ih htail]
      cases hx : before x with
      | true => simp [hx]
      | false =>
        have hnone : xs.takeWhile before = [] := by
          cases xs with
          | nil => rfl
          | cons y xs =>
            have hy : before y ≠ true := fun hy => by
              have := hhead y List.mem_cons_self hy
              rw [hx] at this
              cases this
            exact List.takeWhile_cons_of_neg hy
        simp [hx, hnone]

theorem bisect_eq (h : Partitioned before xs) (base size : Nat) (hpos : 1 ≤ size)
    (hbase : base < (xs.takeWhile before).length ∨ base = 0)
    (hstop : (xs.takeWhile before).length ≤ base + size) :
    bisect before xs base size = (xs.takeWhile before).length := by
  induction size using Nat.strong_induction_on generalizing base with
  | h size ih =>
    unfold bisect
    simp only [h.before_iff, decide_eq_true_eq]
    split
    · split
      · omega
      · omega
    · split
      · exact ih _ (by omega) _ (by omega) (by omega) (by omega)
      · exact ih _ (by omega) _ (by omega) hbase (by omega)

/-- The partition point is the number of items before it. -/
theorem partitionPoint_eq (h : Partitioned before xs) :
    partitionPoint before xs = (xs.takeWhile before).length := by
  unfold partitionPoint
  split
  · next hempty =>
    obtain rfl : xs = [] := by simpa using hempty
    rfl
  · next hne =>
    have hlength : 1 ≤ xs.length := List.length_pos_iff.mpr (by simpa using hne)
    refine bisect_eq h 0 xs.length hlength (.inr rfl) ?_
    rw [Nat.zero_add]
    exact (List.takeWhile_sublist before).length_le

end Slice

end KRust.Lib
