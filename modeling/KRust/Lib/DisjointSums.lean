import Mathlib.Algebra.BigOperators.Group.Finset.Basic
import Mathlib.Algebra.Order.BigOperators.Group.List
import Mathlib.Algebra.Order.Group.Multiset
import Mathlib.Data.Multiset.Fold

/-!
Sums of collections whose items have keys of their own. Where no key occurs twice in a sum, a
summand that occurs twice is empty, and the summands two sums have in common cancel.
-/

namespace KRust.Lib.DisjointSums

variable {τ ι κ : Type} (f : τ → Multiset ι) (key : ι → κ)

/-- The items of the summands. -/
def total (ts : List τ) : Multiset ι := (ts.map f).sum

@[simp] theorem total_nil : total f [] = 0 := rfl

@[simp] theorem total_cons (t : τ) (ts : List τ) : total f (t :: ts) = f t + total f ts := by
  simp [total]

@[simp] theorem total_append (xs ys : List τ) : total f (xs ++ ys) = total f xs + total f ys := by
  simp [total]

theorem total_perm {xs ys : List τ} (h : xs.Perm ys) : total f xs = total f ys :=
  (h.map f).sum_eq

theorem total_congr {g : τ → Multiset ι} {ts : List τ} (h : ∀ t ∈ ts, f t = g t) :
    total f ts = total g ts := by
  rw [total, total, List.map_congr_left h]

theorem total_filter_add (p : τ → Bool) (ts : List τ) :
    total f (ts.filter p) + total f (ts.filter fun t => !p t) = total f ts := by
  rw [← total_append]
  exact total_perm f (List.filter_append_perm p ts)

/-- Where `pick` takes a summand for another with the same items, the summands it takes and those
it refuses make the sum. -/
theorem total_filterMap {σ : Type} (g : σ → Multiset ι) (pick : τ → Option σ) {ts : List τ}
    (h : ∀ t ∈ ts, ∀ s ∈ pick t, f t = g s) :
    total f ts = total g (ts.filterMap pick) + total f (ts.filter fun t => (pick t).isNone) := by
  induction ts with
  | nil => rfl
  | cons t ts ih =>
    rw [List.forall_mem_cons] at h
    rw [total_cons, ih h.2]
    cases hpick : pick t with
    | none => simp [hpick, add_left_comm]
    | some s =>
      rw [h.1 s hpick]
      simp [hpick, add_assoc]

theorem total_sublist {xs ys : List τ} (h : xs.Sublist ys) : total f xs ≤ total f ys :=
  (h.map f).sum_le_sum fun _ _ => Multiset.zero_le _

/-- The keys of the items are distinct. -/
def Distinct (m : Multiset ι) : Prop := (m.map key).Nodup

variable {key}

theorem Distinct.mono {m n : Multiset ι} (h : Distinct key n) (hle : m ≤ n) : Distinct key m :=
  Multiset.nodup_of_le (Multiset.map_le_map hle) h

theorem Distinct.zero : Distinct key (0 : Multiset ι) := Multiset.nodup_zero

/-- Items that occur twice have no keys of their own. -/
theorem Distinct.eq_zero_of_twice {m : Multiset ι} (h : Distinct key (m + m)) : m = 0 := by
  rw [Distinct, Multiset.map_add, Multiset.nodup_add] at h
  obtain ⟨-, -, hdisjoint⟩ := h
  refine Multiset.eq_zero_of_forall_notMem fun x hx => ?_
  exact Multiset.disjoint_left.mp hdisjoint (Multiset.mem_map_of_mem key hx)
    (Multiset.mem_map_of_mem key hx)

/-- Each summand counts once. -/
theorem Distinct.total_eq_sum [DecidableEq τ] {ts : List τ} (h : Distinct key (total f ts)) :
    total f ts = ∑ t ∈ ts.toFinset, f t := by
  rw [total, Finset.sum_list_map_count]
  refine Finset.sum_congr rfl fun t ht => ?_
  rcases Nat.lt_or_ge 1 (ts.count t) with htwice | honce
  · -- A summand that occurs twice is empty.
    have htwo : Distinct key (total f (List.replicate 2 t)) :=
      h.mono (total_sublist f (List.replicate_sublist_iff.mpr htwice))
    have hempty : f t = 0 := by
      refine @Distinct.eq_zero_of_twice ι κ key (f t) ?_
      simpa [List.replicate] using htwo
    rw [hempty, nsmul_zero]
  · have hcount : ts.count t = 1 :=
      le_antisymm honce (List.count_pos_iff.mpr (List.mem_toFinset.mp ht))
    rw [hcount, one_nsmul]

/-- Summands that two sums have in common cancel. -/
theorem total_eq_iff_of_common [DecidableEq τ] {left right : List τ}
    (hleft : Distinct key (total f left)) (hright : Distinct key (total f right)) :
    total f left = total f right ↔
      total f (left.filter fun t => !decide (t ∈ right)) =
        total f (right.filter fun t => !decide (t ∈ left)) := by
  have hcommon : total f (left.filter fun t => decide (t ∈ right)) =
      total f (right.filter fun t => decide (t ∈ left)) := by
    rw [(hleft.mono (total_sublist f List.filter_sublist)).total_eq_sum,
      (hright.mono (total_sublist f List.filter_sublist)).total_eq_sum]
    refine Finset.sum_congr ?_ fun _ _ => rfl
    ext t
    simp [and_comm]
  rw [← total_filter_add f (fun t => decide (t ∈ right)) left,
    ← total_filter_add f (fun t => decide (t ∈ left)) right, hcommon]
  exact add_right_inj _

end KRust.Lib.DisjointSums
