import KRust.Lib.Clauses
import KRust.Lib.Frontier
import KRust.Lib.Worklist
import Mathlib.Data.List.Count

/-!
Counting worklists: each clause counts the occurrences among its premises that are not yet
proved, and concludes when none is left. An element that is proved waits in a queue for its
occurrences to be taken off.
-/

namespace KRust.Lib

/-- The elements proved, the occurrences each clause still waits for, and the queue. -/
structure Counting (ι α : Type) where
  proved : α → Bool
  remaining : ι → Option Nat
  pending : List α

namespace Counting

variable {ι α : Type} [DecidableEq ι] [DecidableEq α]

section Turns

variable (conclusion : ι → α) (callers : α → List ι)

/-- One occurrence fewer of a clause is left; with none left it concludes. -/
def discharge (state : Counting ι α) (caller : ι) : Counting ι α :=
  let left := (state.remaining caller).map (· - 1)
  let remaining := Function.update state.remaining caller left
  let result := conclusion caller
  if left = some 0 && !state.proved result then
    ⟨Function.update state.proved result true, remaining, state.pending ++ [result]⟩
  else { state with remaining := remaining }

/-- The element at the front of the queue is taken off its callers. -/
def turn (state : Counting ι α) : (α → Bool) ⊕ Counting ι α :=
  match state.pending with
  | [] => .inl state.proved
  | a :: pending =>
    .inr ((callers a).foldl (discharge conclusion) { state with pending := pending })

variable [Fintype α]

/-- Two for each element that is not proved yet, and one for each that is queued. -/
def weight (state : Counting ι α) : Nat :=
  unmarkedWeight (fun _ => 2) state.proved + state.pending.length

theorem weight_foldl_discharge (callers : List ι) (state : Counting ι α) :
    (callers.foldl (discharge conclusion) state).weight ≤ state.weight := by
  induction callers generalizing state with
  | nil => exact le_rfl
  | cons caller callers ih =>
    refine (ih _).trans ?_
    simp only [discharge]
    split
    · rename_i hproved
      have hfresh : state.proved (conclusion caller) = false := by
        simpa using (Bool.and_eq_true_iff.mp hproved).2
      have hmark := unmarkedWeight_mark (fun _ => 2) state.proved hfresh
      simp only [weight, List.length_append, List.length_singleton]
      omega
    · exact le_rfl

def loop : Loop (Counting ι α) (α → Bool) where
  turn := turn conclusion callers
  ends := by
    refine ⟨weight, fun state next hturn => ?_⟩
    unfold turn at hturn
    split at hturn
    · cases hturn
    · rename_i a pending hpending
      cases hturn
      refine (weight_foldl_discharge conclusion _ _).trans_lt ?_
      simp only [weight, hpending, List.length_cons]
      omega

end Turns

section Laws

variable {conclusion : ι → α} {callers : α → List ι}

theorem discharge_remaining (conclusion : ι → α) (state : Counting ι α) (caller i : ι) :
    (discharge conclusion state caller).remaining i =
      (state.remaining i).map (· - if i = caller then 1 else 0) := by
  have hupdate : (discharge conclusion state caller).remaining =
      Function.update state.remaining caller ((state.remaining caller).map (· - 1)) := by
    simp only [discharge]
    split <;> rfl
  rw [hupdate]
  by_cases hi : i = caller
  · subst hi
    simp
  · simp [hi]

/-- A clause that waits for nothing more has concluded, and its conclusion is queued if it was not
proved before. -/
theorem discharge_spec (conclusion : ι → α) (state : Counting ι α) (caller : ι) :
    ((discharge conclusion state caller).remaining caller = some 0 →
        (discharge conclusion state caller).proved (conclusion caller) = true) ∧
      ∃ new, (discharge conclusion state caller).pending = state.pending ++ new ∧ new.Nodup ∧
        (∀ a, (discharge conclusion state caller).proved a = true ↔
          state.proved a = true ∨ a ∈ new) ∧
        ∀ a ∈ new, ¬ state.proved a = true ∧ conclusion caller = a ∧
          (discharge conclusion state caller).remaining caller = some 0 := by
  simp only [discharge]
  split
  · rename_i hconcluded
    simp only [Bool.and_eq_true, decide_eq_true_eq, Bool.not_eq_true'] at hconcluded
    refine ⟨fun _ => mark_iff.mpr (.inl rfl), [conclusion caller], rfl, List.nodup_singleton _,
      fun a => ?_, fun a ha => ?_⟩
    · rw [mark_iff, List.mem_singleton, or_comm]
    · rw [List.mem_singleton.mp ha]
      exact ⟨by simp [hconcluded.2], rfl, by simpa using hconcluded.1⟩
  · rename_i hkept
    refine ⟨fun hzero => ?_, [], by simp, .nil, by simp, by simp⟩
    simp only [Function.update_self] at hzero
    by_contra hfresh
    exact hkept (by rw [hzero]; simpa using hfresh)

/-- What taking occurrences off leads to: the counts fall, and new elements are queued, each the
conclusion of a clause that waits for nothing more. -/
theorem foldl_discharge (conclusion : ι → α) (callers : List ι) (state : Counting ι α) :
    (∀ i, (callers.foldl (discharge conclusion) state).remaining i =
        (state.remaining i).map (· - callers.count i)) ∧
      (∀ i ∈ callers, (callers.foldl (discharge conclusion) state).remaining i = some 0 →
        (callers.foldl (discharge conclusion) state).proved (conclusion i) = true) ∧
      ∃ new, (callers.foldl (discharge conclusion) state).pending = state.pending ++ new ∧
        new.Nodup ∧
        (∀ a, (callers.foldl (discharge conclusion) state).proved a = true ↔
          state.proved a = true ∨ a ∈ new) ∧
        ∀ a ∈ new, ¬ state.proved a = true ∧ ∃ i ∈ callers, conclusion i = a ∧
          (callers.foldl (discharge conclusion) state).remaining i = some 0 := by
  induction callers generalizing state with
  | nil => exact ⟨by simp, by simp, [], by simp, .nil, by simp, by simp⟩
  | cons caller callers ih =>
    obtain ⟨hremaining, hproved, new, hpending, hnodup, hiff, hnew⟩ :=
      ih (discharge conclusion state caller)
    obtain ⟨hconclude, first, hpending', hnodup', hiff', hfirst⟩ :=
      discharge_spec conclusion state caller
    have hzero : (discharge conclusion state caller).remaining caller = some 0 →
        (callers.foldl (discharge conclusion)
          (discharge conclusion state caller)).remaining caller = some 0 := by
      intro hzero
      rw [hremaining, hzero, Option.map_some, Nat.zero_sub]
    rw [List.foldl_cons]
    refine ⟨fun i => ?_, fun i hi hleft => ?_, first ++ new, ?_, ?_, fun a => ?_, fun a ha => ?_⟩
    · rw [hremaining, discharge_remaining, Option.map_map, List.count_cons]
      congr 1
      funext n
      simp only [Function.comp_apply, beq_iff_eq]
      by_cases hi : i = caller
      · rw [if_pos hi, if_pos hi.symm]
        omega
      · rw [if_neg hi, if_neg (Ne.symm hi)]
        omega
    · by_cases hmem : i ∈ callers
      · exact hproved i hmem hleft
      · rcases List.mem_cons.mp hi with rfl | hmem'
        · rw [hremaining, List.count_eq_zero_of_not_mem hmem] at hleft
          simp only [Nat.sub_zero, Option.map_id'] at hleft
          exact (hiff _).mpr (.inl (hconclude hleft))
        · exact absurd hmem' hmem
    · rw [hpending, hpending', List.append_assoc]
    · refine List.nodup_append'.mpr ⟨hnodup', hnodup, fun a ha ha' => ?_⟩
      exact (hnew a ha').1 ((hiff' a).mpr (.inr ha))
    · rw [hiff, hiff', List.mem_append, or_assoc]
    · rcases List.mem_append.mp ha with ha | ha
      · obtain ⟨hfresh, hconclusion, hleft⟩ := hfirst a ha
        exact ⟨hfresh, caller, List.mem_cons_self, hconclusion, hzero hleft⟩
      · obtain ⟨hfresh, i, hi, hconclusion⟩ := hnew a ha
        exact ⟨fun hold => hfresh ((hiff' a).mpr (.inl hold)), i, List.mem_cons_of_mem _ hi,
          hconclusion⟩

variable {clauses : ι → Prop} {premises : ι → List α}

/-- An occurrence of this element is still waited for. -/
def isOpen (state : Counting ι α) (a : α) : Bool := !(state.proved a && decide (a ∉ state.pending))

/-- What every turn keeps. -/
structure Counted (clauses : ι → Prop) (premises : ι → List α) (conclusion : ι → α)
    (state : Counting ι α) : Prop where
  remaining_eq : ∀ i, clauses i → state.remaining i = some ((premises i).countP state.isOpen)
  once : state.pending.Nodup
  queued : ∀ a ∈ state.pending, state.proved a = true
  derived : ∀ a, state.proved a = true → Derivable clauses premises conclusion a
  concluded : ∀ i, clauses i → state.remaining i = some 0 → state.proved (conclusion i) = true

/-- The callers of an element are the clauses with it as a premise, once for each occurrence. -/
structure Registers (clauses : ι → Prop) (premises : ι → List α) (callers : α → List ι) :
    Prop where
  count_eq : ∀ a i, clauses i → (callers a).count i = (premises i).count a
  mem : ∀ a, ∀ i ∈ callers a, clauses i

theorem countP_close {open_ open' : α → Bool} {a : α} (ha : open_ a = true)
    (h : ∀ b, open' b = (open_ b && decide (b ≠ a))) (l : List α) :
    l.countP open' = l.countP open_ - l.count a := by
  have hsum : l.countP open_ = l.countP open' + l.count a := by
    induction l with
    | nil => rfl
    | cons b l ih =>
      rw [List.countP_cons, List.countP_cons, List.count_cons, ih, h b]
      by_cases hb : b = a
      · subst hb
        simp [ha]
        omega
      · simp [hb]
        omega
  omega

theorem Counted.turn (hcallers : Registers clauses premises callers) {state next : Counting ι α}
    (h : Counted clauses premises conclusion state)
    (hturn : turn conclusion callers state = .inr next) :
    Counted clauses premises conclusion next := by
  unfold Counting.turn at hturn
  split at hturn
  · cases hturn
  · rename_i a pending hpending
    cases hturn
    obtain ⟨hremaining, hconcluded, new, hpending', hnodup, hiff, hnew⟩ :=
      foldl_discharge conclusion (callers a) { state with pending := pending }
    generalize (callers a).foldl (discharge conclusion) { state with pending := pending } =
      next at *
    have honce := h.once
    rw [hpending, List.nodup_cons] at honce
    have hproved : state.proved a = true := h.queued a (by simp [hpending])
    have hopen : ∀ b, next.isOpen b = (state.isOpen b && decide (b ≠ a)) := by
      intro b
      rw [Bool.eq_iff_iff]
      simp only [isOpen, Bool.not_eq_true', Bool.and_eq_true, decide_eq_true_eq,
        ← Bool.not_eq_true, hiff, hpending', hpending, List.mem_append, List.mem_cons]
      by_cases hb : b = a
      · subst hb
        have hfresh : b ∉ new := fun hb => (hnew b hb).1 hproved
        simp [hproved, honce.1, hfresh]
      · have hfresh : b ∈ new → ¬ state.proved b = true := fun hb => (hnew b hb).1
        tauto
    have hleft : ∀ i, clauses i → next.remaining i = some ((premises i).countP next.isOpen) := by
      intro i hi
      have hself : state.isOpen a = true := by simp [isOpen, hpending]
      rw [hremaining, countP_close hself hopen, ← hcallers.count_eq a i hi]
      exact congrArg (Option.map (· - (callers a).count i)) (h.remaining_eq i hi)
    refine ⟨hleft, ?_, ?_, ?_, ?_⟩
    · rw [hpending']
      refine List.nodup_append'.mpr ⟨honce.2, hnodup, fun b hb hb' => (hnew b hb').1 ?_⟩
      exact h.queued b (by simp [hpending, hb])
    · intro b hb
      rw [hpending'] at hb
      rw [hiff]
      refine (List.mem_append.mp hb).imp (fun hb => ?_) id
      exact h.queued b (by simp [hpending, hb])
    · intro b hb
      rcases (hiff b).mp hb with hold | hfresh
      · exact h.derived b hold
      · obtain ⟨-, i, hi, rfl, hzero⟩ := hnew b hfresh
        have hclause := hcallers.mem a i hi
        refine .of hclause fun c hc => h.derived c ?_
        rw [hleft i hclause, Option.some.injEq, List.countP_eq_zero] at hzero
        have hclosed := hzero c hc
        simp only [isOpen, Bool.not_eq_true', Bool.not_eq_false, Bool.and_eq_true,
          decide_eq_true_eq, hiff, hpending', List.mem_append, not_or] at hclosed
        exact hclosed.1.resolve_right hclosed.2.2
    · intro i hi hzero
      by_cases hmem : i ∈ callers a
      · exact hconcluded i hmem hzero
      · rw [hremaining, List.count_eq_zero_of_not_mem hmem] at hzero
        simp only [Nat.sub_zero, Option.map_id'] at hzero
        exact (hiff _).mpr (.inl (h.concluded i hi hzero))

variable [Fintype α]

/-- The loop proves what the clauses derive. -/
theorem run_iff (hcallers : Registers clauses premises callers) {state : Counting ι α}
    (h : Counted clauses premises conclusion state) (a : α) :
    (loop conclusion callers).run state a = true ↔ Derivable clauses premises conclusion a := by
  have hlast := (loop conclusion callers).run_spec (Q := fun state proved =>
    Counted clauses premises conclusion state →
      (∀ a, proved a = true → Derivable clauses premises conclusion a) ∧
        Closed clauses premises conclusion fun a => proved a = true) ?_
    (fun state next proved hturn hrest hstate => hrest (hstate.turn hcallers hturn)) state h
  · exact derivable_iff _ hlast.2 hlast.1 a
  · intro state proved hturn hstate
    simp only [loop, turn] at hturn
    split at hturn
    · rename_i hempty
      cases hturn
      refine ⟨hstate.derived, fun i hi hall => hstate.concluded i hi ?_⟩
      rw [hstate.remaining_eq i hi, Option.some.injEq, List.countP_eq_zero]
      intro b hb
      simp [isOpen, hempty, hall b hb]
    · cases hturn

end Laws

end Counting

end KRust.Lib
