import Mathlib.Algebra.BigOperators.Group.Finset.Basic
import Mathlib.Data.Fintype.Basic
import Mathlib.Logic.Relation

/-!
Searches that mark what they reach. A search keeps the marked elements whose successors it still
has to mark; when none is left, it has marked what its seeds reach.
-/

namespace KRust.Lib

open Relation (ReflTransGen)

section Reached

variable {α : Type} {R : α → α → Prop}

/-- What a search has marked, and the marked elements that wait to be expanded. -/
structure Frontier (R : α → α → Prop) (seeds marked waiting : α → Prop) : Prop where
  seeded : ∀ a, seeds a → marked a
  reached : ∀ a, marked a → ∃ s, seeds s ∧ ReflTransGen R s a
  waits : ∀ a, waiting a → marked a
  expanded : ∀ a, marked a → ¬ waiting a → ∀ b, R a b → marked b

variable {seeds marked waiting : α → Prop}

theorem Frontier.congr (h : Frontier R seeds marked waiting) {marked' waiting' : α → Prop}
    (hmarked : ∀ a, marked a ↔ marked' a) (hwaits : ∀ a, waiting a ↔ waiting' a) :
    Frontier R seeds marked' waiting' := by
  rw [← funext fun a => propext (hmarked a), ← funext fun a => propext (hwaits a)]
  exact h

/-- Once nothing waits, the marked elements are those that the seeds reach. -/
theorem Frontier.marked_iff (h : Frontier R seeds marked waiting) (hdone : ∀ a, ¬ waiting a)
    (a : α) : marked a ↔ ∃ s, seeds s ∧ ReflTransGen R s a := by
  constructor
  · exact h.reached a
  · rintro ⟨s, hs, hreach⟩
    induction hreach with
    | refl => exact h.seeded s hs
    | tail _ hstep ih => exact h.expanded _ ih (hdone _) _ hstep

/-- The seeds are the first to wait; what was marked before is closed. -/
theorem Frontier.start {before first : α → Prop}
    (hclosed : ∀ a, before a → ∀ b, R a b → before b)
    (hmarked : ∀ a, marked a ↔ before a ∨ first a) (hwaits : ∀ a, waiting a ↔ first a) :
    Frontier R (fun a => before a ∨ first a) marked waiting where
  seeded a h := (hmarked a).mpr h
  reached a h := ⟨a, (hmarked a).mp h, .refl⟩
  waits a h := (hmarked a).mpr (.inr ((hwaits a).mp h))
  expanded a ha hwait b hstep := by
    have hbefore := ((hmarked a).mp ha).resolve_right fun hfirst => hwait ((hwaits a).mpr hfirst)
    exact (hmarked b).mpr (.inl (hclosed a hbefore b hstep))

/-- An element is expanded: its successors are marked, and those that were not marked wait. -/
theorem Frontier.expand (h : Frontier R seeds marked waiting) {a : α} (ha : waiting a)
    {marked' waiting' : α → Prop} (hmarked : ∀ b, marked' b ↔ marked b ∨ R a b)
    (hwaits : ∀ b, waiting' b → waiting b ∨ R a b)
    (hkept : ∀ b, waiting b → b ≠ a → waiting' b)
    (hnew : ∀ b, R a b → ¬ marked b → waiting' b) : Frontier R seeds marked' waiting' where
  seeded b hb := (hmarked b).mpr (.inl (h.seeded b hb))
  reached b hb := by
    rcases (hmarked b).mp hb with hold | hstep
    · exact h.reached b hold
    · obtain ⟨s, hs, hreach⟩ := h.reached a (h.waits a ha)
      exact ⟨s, hs, hreach.tail hstep⟩
  waits b hb := by
    rcases hwaits b hb with hold | hstep
    · exact (hmarked b).mpr (.inl (h.waits b hold))
    · exact (hmarked b).mpr (.inr hstep)
  expanded b hb hnot c hstep := by
    by_cases hba : b = a
    · subst hba
      exact (hmarked c).mpr (.inr hstep)
    · have hold : marked b := by
        by_contra hfresh
        exact hnot (hnew b (((hmarked b).mp hb).resolve_left hfresh) hfresh)
      exact (hmarked c).mpr (.inl (h.expanded b hold (fun hw => hnot (hkept b hw hba)) c hstep))

end Reached

section Marks

variable {α : Type} [DecidableEq α]

/-- An element is marked beside those that were. -/
theorem mark_iff {marked : α → Bool} {a b : α} :
    Function.update marked a true b = true ↔ b = a ∨ marked b = true := by
  by_cases hb : b = a
  · simp [hb]
  · simp [hb]

variable [Fintype α]

/-- One entry of a sum is replaced. -/
theorem sum_update {β : Type} (weight : α → β → Nat) (entries : α → β) (a : α) (b : β) :
    (∑ c, weight c (Function.update entries a b c)) + weight a (entries a) =
      (∑ c, weight c (entries c)) + weight a b := by
  have hrest : ∀ c ∈ Finset.univ.erase a,
      weight c (Function.update entries a b c) = weight c (entries c) := by
    intro c hc
    rw [Function.update_of_ne (Finset.ne_of_mem_erase hc)]
  rw [← Finset.add_sum_erase _ _ (Finset.mem_univ a),
    ← Finset.add_sum_erase Finset.univ (fun c => weight c (entries c)) (Finset.mem_univ a),
    Finset.sum_congr rfl hrest, Function.update_self]
  omega

/-- What the unmarked elements weigh. -/
def unmarkedWeight (weight : α → Nat) (marked : α → Bool) : Nat :=
  ∑ a, if marked a then 0 else weight a

/-- Marking an element takes its weight off. -/
theorem unmarkedWeight_mark (weight : α → Nat) (marked : α → Bool) {a : α}
    (h : marked a = false) :
    unmarkedWeight weight (Function.update marked a true) + weight a =
      unmarkedWeight weight marked := by
  have hsum := sum_update (fun a mark => if mark then 0 else weight a) marked a true
  simp only [h, if_true, Bool.false_eq_true, if_false, add_zero] at hsum
  exact hsum

end Marks

end KRust.Lib
