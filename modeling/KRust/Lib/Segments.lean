import Mathlib.Data.List.Basic

/-!
A sequence of known items and opaque parts by position. The items stand at positions `0, 1, …`
and each part at the cut point between the items around it: item `i` comes at time `2i + 1` and
a part at cut point `c` at time `2c`, so that the times of the segments never fall.
-/

namespace KRust.Lib

inductive Segment (α β : Type) where
  | item (a : α)
  | part (b : β)

namespace Segment

variable {α β : Type}

/-- The items in order. -/
def items (segments : List (Segment α β)) : List α :=
  segments.filterMap fun
    | item a => some a
    | part _ => none

/-- The parts in order. -/
def parts (segments : List (Segment α β)) : List β :=
  segments.filterMap fun
    | item _ => none
    | part b => some b

/-- The cut points of the parts, the first item standing at a position. -/
def points : Nat → List (Segment α β) → List Nat
  | _, [] => []
  | p, item _ :: segments => points (p + 1) segments
  | p, part _ :: segments => p :: points p segments

/-- The segments at times from `a` on and before `b`. -/
def window (a b : Nat) : Nat → List (Segment α β) → List (Segment α β)
  | _, [] => []
  | p, item x :: segments =>
    if a ≤ 2 * p + 1 ∧ 2 * p + 1 < b then item x :: window a b (p + 1) segments
    else window a b (p + 1) segments
  | p, part x :: segments =>
    if a ≤ 2 * p ∧ 2 * p < b then part x :: window a b p segments else window a b p segments

@[simp] theorem items_nil : items ([] : List (Segment α β)) = [] := rfl

@[simp] theorem items_item (a : α) (segments : List (Segment α β)) :
    items (item a :: segments) = a :: items segments := rfl

@[simp] theorem items_part (b : β) (segments : List (Segment α β)) :
    items (part b :: segments) = items segments := rfl

@[simp] theorem items_append (first second : List (Segment α β)) :
    items (first ++ second) = items first ++ items second := by
  simp [items]

@[simp] theorem items_map_item (xs : List α) : items (xs.map (item : α → Segment α β)) = xs := by
  induction xs with
  | nil => rfl
  | cons x xs ih => simp [ih]

@[simp] theorem parts_nil : parts ([] : List (Segment α β)) = [] := rfl

@[simp] theorem parts_item (a : α) (segments : List (Segment α β)) :
    parts (item a :: segments) = parts segments := rfl

@[simp] theorem parts_part (b : β) (segments : List (Segment α β)) :
    parts (part b :: segments) = b :: parts segments := rfl

@[simp] theorem parts_append (first second : List (Segment α β)) :
    parts (first ++ second) = parts first ++ parts second := by
  simp [parts]

@[simp] theorem parts_map_item (xs : List α) : parts (xs.map (item : α → Segment α β)) = [] := by
  induction xs with
  | nil => rfl
  | cons x xs ih => exact ih

/-- Each part has a cut point. -/
theorem length_points (segments : List (Segment α β)) (p : Nat) :
    (points p segments).length = (parts segments).length := by
  induction segments generalizing p with
  | nil => rfl
  | cons segment segments ih =>
    cases segment with
    | item a => exact ih (p + 1)
    | part b => exact congrArg (· + 1) (ih p)

theorem points_append (first second : List (Segment α β)) (p : Nat) :
    points p (first ++ second) = points p first ++ points (p + (items first).length) second := by
  induction first generalizing p with
  | nil => rfl
  | cons segment first ih =>
    cases segment with
    | item a => simp [points, ih, Nat.add_assoc, Nat.add_comm 1]
    | part b => simp [points, ih]

@[simp] theorem points_map_item (xs : List α) (p : Nat) :
    points p (xs.map (item : α → Segment α β)) = [] := by
  induction xs generalizing p with
  | nil => rfl
  | cons x xs ih => exact ih (p + 1)

theorem points_le (segments : List (Segment α β)) (p : Nat) :
    ∀ c ∈ points p segments, p ≤ c := by
  induction segments generalizing p with
  | nil => simp [points]
  | cons segment segments ih =>
    cases segment with
    | item a =>
      intro c hc
      have h := ih (p + 1) c hc
      omega
    | part b =>
      intro c hc
      cases List.mem_cons.mp hc with
      | inl h => omega
      | inr h => exact ih p c h

theorem points_sorted (segments : List (Segment α β)) (p : Nat) :
    (points p segments).Pairwise (· ≤ ·) := by
  induction segments generalizing p with
  | nil => exact List.Pairwise.nil
  | cons segment segments ih =>
    cases segment with
    | item a => exact ih (p + 1)
    | part b => exact List.pairwise_cons.mpr ⟨points_le segments p, ih p⟩

theorem points_le_length (segments : List (Segment α β)) (p : Nat) :
    ∀ c ∈ points p segments, c ≤ p + (items segments).length := by
  induction segments generalizing p with
  | nil => simp [points]
  | cons segment segments ih =>
    cases segment with
    | item a =>
      intro c hc
      have h := ih (p + 1) c hc
      simp only [items_item, List.length_cons]
      omega
    | part b =>
      intro c hc
      cases List.mem_cons.mp hc with
      | inl h => omega
      | inr h => exact ih p c h

/-- Segments before whose first time the window ends leave it empty. -/
theorem window_of_end_le {a b p : Nat} (segments : List (Segment α β)) (h : b ≤ 2 * p) :
    window a b p segments = [] := by
  induction segments generalizing p with
  | nil => rfl
  | cons segment segments ih =>
    cases segment with
    | item x =>
      simp only [window]
      rw [if_neg (by omega)]
      exact ih (by omega)
    | part x =>
      simp only [window]
      rw [if_neg (by omega)]
      exact ih h

theorem window_append_segments {a b : Nat} (first second : List (Segment α β)) (p : Nat) :
    window a b p (first ++ second) =
      window a b p first ++ window a b (p + (items first).length) second := by
  induction first generalizing p with
  | nil => rfl
  | cons segment first ih =>
    cases segment with
    | item x =>
      simp only [List.cons_append, window, ih (p + 1), items_item, List.length_cons,
        Nat.add_assoc, Nat.add_comm 1]
      split <;> rfl
    | part x =>
      simp only [List.cons_append, window, ih p, items_part]
      split <;> rfl

/-- A window is cut in two at any time within it. -/
theorem window_append {a m b : Nat} (segments : List (Segment α β)) (p : Nat) (ha : a ≤ m)
    (hb : m ≤ b) :
    window a m p segments ++ window m b p segments = window a b p segments := by
  induction segments generalizing p with
  | nil => rfl
  | cons segment segments ih =>
    cases segment with
    | item x =>
      simp only [window]
      by_cases hm : 2 * p + 1 < m
      · simp only [show ¬ m ≤ 2 * p + 1 by omega, if_false, hm, and_true,
          show 2 * p + 1 < b by omega, ← ih (p + 1)]
        split <;> simp
      · rw [if_neg (by omega), ← ih (p + 1), window_of_end_le (a := a) segments (by omega)]
        simp only [List.nil_append, show m ≤ 2 * p + 1 by omega, show a ≤ 2 * p + 1 by omega,
          true_and]
    | part x =>
      simp only [window]
      by_cases hm : 2 * p < m
      · simp only [show ¬ m ≤ 2 * p by omega, if_false, hm, and_true,
          show 2 * p < b by omega, ← ih p]
        split <;> simp
      · rw [if_neg (by omega), ← ih p, window_of_end_le (a := a) segments (by omega)]
        simp only [List.nil_append, show m ≤ 2 * p by omega, show a ≤ 2 * p by omega, true_and]

/-- A window from the first time to past the last one leaves nothing out. -/
theorem window_whole {a b : Nat} (segments : List (Segment α β)) (p : Nat) (ha : a ≤ 2 * p)
    (hb : 2 * (p + (items segments).length) < b) : window a b p segments = segments := by
  induction segments generalizing p with
  | nil => rfl
  | cons segment segments ih =>
    cases segment with
    | item x =>
      simp only [items_item, List.length_cons] at hb
      simp only [window]
      rw [if_pos (by omega), ih (p + 1) (by omega) (by omega)]
    | part x =>
      simp only [items_part] at hb
      simp only [window]
      rw [if_pos (by omega), ih p ha hb]

/-- A window with no part is the items at its positions. -/
theorem window_of_no_part {a b : Nat} (segments : List (Segment α β)) (p : Nat)
    (h : ∀ c ∈ points p segments, ¬ (a ≤ 2 * c ∧ 2 * c < b)) :
    window a b p segments =
      (((items segments).take (b / 2 - p)).drop (a / 2 - p)).map item := by
  induction segments generalizing p with
  | nil => simp [window]
  | cons segment segments ih =>
    cases segment with
    | item x =>
      simp only [window, items_item]
      rw [ih (p + 1) h]
      by_cases hb : 2 * p + 1 < b
      · obtain ⟨n, hn⟩ : ∃ n, b / 2 - p = n + 1 := ⟨b / 2 - p - 1, by omega⟩
        rw [hn, show b / 2 - (p + 1) = n by omega, List.take_succ_cons]
        by_cases ha : a ≤ 2 * p + 1
        · rw [if_pos ⟨ha, hb⟩, show a / 2 - p = 0 by omega, show a / 2 - (p + 1) = 0 by omega]
          rfl
        · rw [if_neg (by omega), show a / 2 - p = (a / 2 - (p + 1)) + 1 by omega,
            List.drop_succ_cons]
      · rw [if_neg (by omega), show b / 2 - p = 0 by omega, show b / 2 - (p + 1) = 0 by omega]
        simp
    | part x =>
      simp only [window, items_part]
      rw [if_neg (h p List.mem_cons_self)]
      exact ih p fun c hc => h c (List.mem_cons_of_mem _ hc)

theorem window_map_item {a b : Nat} (xs : List α) (p : Nat) :
    window a b p (xs.map (item : α → Segment α β)) =
      ((xs.take (b / 2 - p)).drop (a / 2 - p)).map item := by
  rw [window_of_no_part, items_map_item]
  simp

end Segment

end KRust.Lib
