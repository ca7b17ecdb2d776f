import Mathlib.Algebra.Group.Pi.Basic
import Mathlib.Algebra.Notation.Support
import Mathlib.Data.List.Basic
import Mathlib.Data.Set.Card
import Mathlib.Order.Basic

/-!
Sorted lists of entries, each a key with an amount, as functions from keys to
amounts. A list with one entry per key and no zero amount is determined by its
function.
-/

namespace KRust.Lib.KeyedCounts

variable {α K : Type} [LinearOrder K] (key : α → K) (amount : α → ℕ)

/-- What a list holds of each key. -/
def counts : List α → K → ℕ
  | [] => 0
  | x :: xs => fun k => (if key x = k then amount x else 0) + counts xs k

/-- Ordered, one entry per key, and no zero amount. -/
structure Canonical (xs : List α) : Prop where
  ordered : xs.Pairwise fun x y => key x < key y
  positive : ∀ x ∈ xs, 1 ≤ amount x

variable {key amount}

@[simp] theorem counts_nil : counts key amount [] = 0 := rfl

theorem counts_cons (x : α) (xs : List α) (k : K) :
    counts key amount (x :: xs) k = (if key x = k then amount x else 0) + counts key amount xs k :=
  rfl

theorem Canonical.tail {x : α} {xs : List α} (h : Canonical key amount (x :: xs)) :
    Canonical key amount xs :=
  ⟨h.ordered.of_cons, fun y hy => h.positive y (by simp [hy])⟩

/-- A list holds nothing of the keys below its own. -/
theorem counts_of_below {xs : List α} {k : K} (h : ∀ x ∈ xs, k < key x) :
    counts key amount xs k = 0 := by
  induction xs with
  | nil => rfl
  | cons x xs ih =>
    have hx := h x (by simp)
    rw [counts_cons, if_neg hx.ne', ih fun y hy => h y (by simp [hy])]

theorem counts_head {x : α} {xs : List α} (h : (x :: xs).Pairwise fun x y => key x < key y) :
    counts key amount (x :: xs) (key x) = amount x := by
  have hbelow : ∀ y ∈ xs, key x < key y := fun y hy => List.rel_of_pairwise_cons h hy
  rw [counts_cons, if_pos rfl, counts_of_below hbelow, Nat.add_zero]

/-- The keys a canonical list holds something of are those of its entries. -/
theorem Canonical.counts_pos_iff {xs : List α} (h : Canonical key amount xs) (k : K) :
    0 < counts key amount xs k ↔ ∃ x ∈ xs, key x = k := by
  induction xs with
  | nil => simp
  | cons x xs ih =>
    have hpos := h.positive x (by simp)
    rw [counts_cons]
    constructor
    · intro hcount
      by_cases hx : key x = k
      · exact ⟨x, by simp, hx⟩
      · rw [if_neg hx, Nat.zero_add] at hcount
        obtain ⟨y, hy, hkey⟩ := (ih h.tail).mp hcount
        exact ⟨y, by simp [hy], hkey⟩
    · rintro ⟨y, hy, hkey⟩
      rcases List.mem_cons.mp hy with rfl | hy
      · rw [if_pos hkey]
        omega
      · have := (ih h.tail).mpr ⟨y, hy, hkey⟩
        omega

/-- The amount of each entry. -/
theorem Canonical.counts_mem {xs : List α} (h : Canonical key amount xs) {x : α} (hx : x ∈ xs) :
    counts key amount xs (key x) = amount x := by
  induction xs with
  | nil => cases hx
  | cons y ys ih =>
    rcases List.mem_cons.mp hx with rfl | hx
    · exact counts_head h.ordered
    · have hlt : key y < key x := List.rel_of_pairwise_cons h.ordered hx
      rw [counts_cons, if_neg hlt.ne, Nat.zero_add]
      exact ih h.tail hx

theorem Canonical.counts_eq_zero {xs : List α} (h : Canonical key amount xs)
    (hzero : counts key amount xs = 0) : xs = [] := by
  cases xs with
  | nil => rfl
  | cons x xs =>
    have hpos := h.positive x (by simp)
    have hhead := congrFun hzero (key x)
    rw [counts_head h.ordered, Pi.zero_apply] at hhead
    omega

/-- The least key held is the first entry's. -/
theorem Canonical.head_le {x y : α} {xs ys : List α} (hx : Canonical key amount (x :: xs))
    (hy : Canonical key amount (y :: ys))
    (heq : counts key amount (x :: xs) = counts key amount (y :: ys)) : key x ≤ key y := by
  by_contra hlt
  have hyx : key y < key x := not_le.mp hlt
  have hpos := hy.positive y (by simp)
  have hhead := congrFun heq (key y)
  rw [counts_head hy.ordered, counts_of_below] at hhead
  · omega
  · intro z hz
    rcases List.mem_cons.mp hz with rfl | hz
    · exact hyx
    · exact hyx.trans (List.rel_of_pairwise_cons hx.ordered hz)

/-- Canonical lists that hold the same are equal. -/
theorem Canonical.eq_of_counts_eq (hfaithful : ∀ x y, key x = key y → amount x = amount y → x = y)
    {xs ys : List α} (hxs : Canonical key amount xs) (hys : Canonical key amount ys)
    (heq : counts key amount xs = counts key amount ys) : xs = ys := by
  induction xs generalizing ys with
  | nil => exact (hys.counts_eq_zero heq.symm).symm
  | cons x xs ih =>
    cases ys with
    | nil => exact hxs.counts_eq_zero heq
    | cons y ys =>
      have hkey : key x = key y := le_antisymm (hxs.head_le hys heq) (hys.head_le hxs heq.symm)
      have hamount : amount x = amount y := by
        have hhead := congrFun heq (key x)
        rw [counts_head hxs.ordered, hkey, counts_head hys.ordered] at hhead
        exact hhead
      obtain rfl := hfaithful x y hkey hamount
      rw [ih hxs.tail hys.tail]
      funext k
      have hk := congrFun heq k
      rw [counts_cons, counts_cons] at hk
      omega

/-- As many entries as keys held. -/
theorem Canonical.encard_support {xs : List α} (h : Canonical key amount xs) :
    (Function.support (counts key amount xs)).encard = xs.length := by
  have hset : Function.support (counts key amount xs) = ((xs.map key).toFinset : Set K) := by
    ext k
    rw [Function.mem_support, ← Nat.pos_iff_ne_zero, h.counts_pos_iff]
    simp
  have hnodup : (xs.map key).Nodup := by
    rw [List.Nodup, List.pairwise_map]
    exact h.ordered.imp fun hlt => hlt.ne
  rw [hset, Set.encard_coe_eq_coe_finsetCard, List.toFinset_card_of_nodup hnodup, List.length_map]

end KRust.Lib.KeyedCounts
