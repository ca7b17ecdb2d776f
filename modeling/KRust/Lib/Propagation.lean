import KRust.Lib.Worklist
import Mathlib.Algebra.BigOperators.Group.Finset.Basic
import Mathlib.Algebra.Order.BigOperators.Group.Finset
import Mathlib.Data.Finset.Lattice.Union
import Mathlib.Data.Fintype.Basic
import Mathlib.Logic.Relation

/-!
Propagation of sets along the edges of a graph. A vertex that waits in the queue passes its set on
to its dependents, and those that grow wait in turn. In the end each set has what the vertices that
reach it began with.
-/

namespace KRust.Lib

open Relation (ReflTransGen)

/-- Sets that are united in place, and say whether they grew. -/
structure Uniting (S β : Type) [DecidableEq β] where
  unionWith : S → S → Bool × S
  elements : S → Finset β
  elements_union : ∀ s t, elements (unionWith s t).2 = elements s ∪ elements t
  grew_iff : ∀ s t, (unionWith s t).1 = true ↔ ¬ elements t ⊆ elements s

structure Propagating (α S : Type) where
  sets : α → S
  queued : α → Bool
  pending : List α

namespace Propagating

variable {α S β : Type} [DecidableEq α] [DecidableEq β] (uniting : Uniting S β)

section Turns

/-- A dependent takes a set in, and waits when it grows unless it waits already. -/
def absorb (tokens : S) (state : Propagating α S) (parent : α) : Propagating α S :=
  let (grew, set) := uniting.unionWith (state.sets parent) tokens
  let sets := Function.update state.sets parent set
  if grew && !state.queued parent then
    ⟨sets, Function.update state.queued parent true, state.pending ++ [parent]⟩
  else { state with sets := sets }

def turn (dependents : α → List α) (state : Propagating α S) : (α → S) ⊕ Propagating α S :=
  match state.pending with
  | [] => .inl state.sets
  | a :: pending =>
    .inr ((dependents a).foldl (absorb uniting (state.sets a))
      { state with queued := Function.update state.queued a false, pending := pending })

theorem elements_absorb (tokens : S) (state : Propagating α S) (parent a : α) :
    uniting.elements ((absorb uniting tokens state parent).sets a) =
      uniting.elements (state.sets a) ∪ if a = parent then uniting.elements tokens else ∅ := by
  have hsets : (absorb uniting tokens state parent).sets =
      Function.update state.sets parent (uniting.unionWith (state.sets parent) tokens).2 := by
    simp only [absorb]
    split <;> rfl
  rw [hsets]
  by_cases ha : a = parent
  · subst ha
    simp [uniting.elements_union]
  · simp [ha]

variable [Fintype α]

/-- Everything that is in one of the sets. -/
def total (state : Propagating α S) : Finset β :=
  Finset.univ.biUnion fun a => uniting.elements (state.sets a)

/-- Two for each element that a set still lacks, and one for each vertex that waits. -/
def weight (state : Propagating α S) : Nat :=
  2 * ∑ a, (total uniting state \ uniting.elements (state.sets a)).card + state.pending.length

variable {uniting}

omit [DecidableEq α] in
theorem elements_subset_total (state : Propagating α S) (a : α) :
    uniting.elements (state.sets a) ⊆ total uniting state :=
  Finset.subset_biUnion_of_mem (fun a => uniting.elements (state.sets a)) (Finset.mem_univ a)

theorem total_absorb {tokens : S} {state : Propagating α S} (parent : α)
    (htokens : uniting.elements tokens ⊆ total uniting state) :
    total uniting (absorb uniting tokens state parent) = total uniting state := by
  ext b
  simp only [total, Finset.mem_biUnion, Finset.mem_univ, true_and, elements_absorb,
    Finset.mem_union]
  constructor
  · rintro ⟨a, hold | hnew⟩
    · exact ⟨a, hold⟩
    · split at hnew
      · simpa [total] using htokens hnew
      · simp at hnew
  · rintro ⟨a, hold⟩
    exact ⟨a, .inl hold⟩

theorem weight_absorb {tokens : S} {state : Propagating α S} (parent : α)
    (htokens : uniting.elements tokens ⊆ total uniting state) :
    (absorb uniting tokens state parent).weight uniting ≤ state.weight uniting := by
  have hle : ∀ a ∈ Finset.univ,
      (total uniting state \
        uniting.elements ((absorb uniting tokens state parent).sets a)).card ≤
        (total uniting state \ uniting.elements (state.sets a)).card := by
    intro a _
    refine Finset.card_le_card (Finset.sdiff_subset_sdiff le_rfl ?_)
    rw [elements_absorb]
    exact Finset.subset_union_left
  simp only [weight, total_absorb parent htokens]
  by_cases hgrew : (uniting.unionWith (state.sets parent) tokens).1 = true
  · have hlt : (total uniting state \
        uniting.elements ((absorb uniting tokens state parent).sets parent)).card <
        (total uniting state \ uniting.elements (state.sets parent)).card := by
      obtain ⟨b, hb, hfresh⟩ := Finset.not_subset.mp ((uniting.grew_iff _ _).mp hgrew)
      refine Finset.card_lt_card (Finset.ssubset_iff_subset_ne.mpr
        ⟨Finset.sdiff_subset_sdiff le_rfl ?_, fun heq => ?_⟩)
      · rw [elements_absorb]
        exact Finset.subset_union_left
      · have hmem : b ∈ total uniting state \ uniting.elements (state.sets parent) :=
          Finset.mem_sdiff.mpr ⟨htokens hb, hfresh⟩
        rw [← heq, elements_absorb, if_pos rfl] at hmem
        exact (Finset.mem_sdiff.mp hmem).2 (Finset.mem_union_right _ hb)
    have hsum := Finset.sum_lt_sum hle ⟨parent, Finset.mem_univ _, hlt⟩
    have hlength : (absorb uniting tokens state parent).pending.length ≤
        state.pending.length + 1 := by
      simp only [absorb]
      split
      · exact (List.length_append).le
      · exact Nat.le_succ _
    omega
  · have hpending : (absorb uniting tokens state parent).pending = state.pending := by
      simp [absorb, hgrew]
    rw [hpending]
    have hsum := Finset.sum_le_sum hle
    omega

theorem weight_foldl_absorb {tokens : S} {state : Propagating α S} (parents : List α)
    (htokens : uniting.elements tokens ⊆ total uniting state) :
    (parents.foldl (absorb uniting tokens) state).weight uniting ≤ state.weight uniting := by
  induction parents generalizing state with
  | nil => exact le_rfl
  | cons parent parents ih =>
    refine (ih ?_).trans (weight_absorb parent htokens)
    rwa [total_absorb parent htokens]

variable (uniting)

def loop (dependents : α → List α) : Loop (Propagating α S) (α → S) where
  turn := turn uniting dependents
  ends := by
    refine ⟨weight uniting, fun state next hturn => ?_⟩
    unfold turn at hturn
    split at hturn
    · cases hturn
    · rename_i a pending hpending
      cases hturn
      have hsub : uniting.elements (state.sets a) ⊆ total uniting
          { state with queued := Function.update state.queued a false, pending := pending } :=
        elements_subset_total state a
      refine (weight_foldl_absorb (dependents a) hsub).trans_lt ?_
      simp only [weight, total, hpending, List.length_cons]
      omega

end Turns

section Laws

variable {uniting}

/-- A vertex that waits is in the queue, and one that has grown waits. -/
structure Grown (uniting : Uniting S β) (tokens : S) (parents : List α)
    (state next : Propagating α S) : Prop where
  elements_eq : ∀ a, uniting.elements (next.sets a) =
    uniting.elements (state.sets a) ∪ if a ∈ parents then uniting.elements tokens else ∅
  waits : ∀ a ∈ state.pending, a ∈ next.pending
  queued : ∀ a, next.queued a = true → a ∈ next.pending
  grown : ∀ a, uniting.elements (next.sets a) ≠ uniting.elements (state.sets a) →
    a ∈ next.pending

theorem foldl_absorb (tokens : S) (parents : List α) {state : Propagating α S}
    (hqueued : ∀ a, state.queued a = true → a ∈ state.pending) :
    Grown uniting tokens parents state (parents.foldl (absorb uniting tokens) state) := by
  induction parents generalizing state with
  | nil => exact ⟨by simp, fun a ha => ha, hqueued, fun a ha => (ha rfl).elim⟩
  | cons parent parents ih =>
    have hstep : (∀ a ∈ state.pending, a ∈ (absorb uniting tokens state parent).pending) ∧
        (∀ a, (absorb uniting tokens state parent).queued a = true →
          a ∈ (absorb uniting tokens state parent).pending) ∧
        (¬ uniting.elements tokens ⊆ uniting.elements (state.sets parent) →
          parent ∈ (absorb uniting tokens state parent).pending) := by
      rw [← uniting.grew_iff]
      simp only [absorb]
      split
      · refine ⟨fun a ha => List.mem_append_left _ ha, fun a ha => ?_, fun _ => by simp⟩
        by_cases hparent : a = parent
        · simp [hparent]
        · have hold : state.queued a = true := by simpa [hparent] using ha
          exact List.mem_append_left _ (hqueued a hold)
      · rename_i hkept
        refine ⟨fun a ha => ha, hqueued, fun hgrew => hqueued parent ?_⟩
        simpa [hgrew] using hkept
    obtain ⟨hwaits, hqueued', hgrown⟩ := hstep
    have hrest := ih hqueued'
    rw [List.foldl_cons]
    refine ⟨fun a => ?_, fun a ha => hrest.waits a (hwaits a ha), hrest.queued, fun a ha => ?_⟩
    · rw [hrest.elements_eq, elements_absorb]
      by_cases hparent : a = parent
      · subst hparent
        by_cases hmem : a ∈ parents <;> simp [hmem]
      · simp [hparent]
    · by_cases hlater : uniting.elements ((parents.foldl (absorb uniting tokens)
          (absorb uniting tokens state parent)).sets a) =
          uniting.elements ((absorb uniting tokens state parent).sets a)
      · rw [hlater, elements_absorb] at ha
        by_cases hparent : a = parent
        · subst hparent
          rw [if_pos rfl] at ha
          exact hrest.waits a (hgrown fun hsub => ha (Finset.union_eq_left.mpr hsub))
        · simp [hparent] at ha
      · exact hrest.grown a hlater

/-- What every turn keeps of a state that the loop began in. -/
structure Propagated (uniting : Uniting S β) (dependents : α → List α) (initial : α → S)
    (state : Propagating α S) : Prop where
  begun : ∀ a, uniting.elements (initial a) ⊆ uniting.elements (state.sets a)
  reached : ∀ a, ∀ b ∈ uniting.elements (state.sets a),
    ∃ m, ReflTransGen (fun m a => a ∈ dependents m) m a ∧ b ∈ uniting.elements (initial m)
  queued : ∀ a, state.queued a = true → a ∈ state.pending
  passed : ∀ a, a ∉ state.pending → ∀ parent ∈ dependents a,
    uniting.elements (state.sets a) ⊆ uniting.elements (state.sets parent)

variable {dependents : α → List α} {initial : α → S}

theorem Propagated.turn {state next : Propagating α S}
    (h : Propagated uniting dependents initial state)
    (hturn : turn uniting dependents state = .inr next) :
    Propagated uniting dependents initial next := by
  unfold Propagating.turn at hturn
  split at hturn
  · cases hturn
  · rename_i a pending hpending
    cases hturn
    have hqueued : ∀ b, Function.update state.queued a false b = true → b ∈ pending := by
      intro b hb
      by_cases hba : b = a
      · simp [hba] at hb
      · rw [Function.update_of_ne hba] at hb
        exact (List.mem_cons.mp (hpending ▸ h.queued b hb)).resolve_left hba
    have hgrown : Grown uniting (state.sets a) (dependents a)
        { state with queued := Function.update state.queued a false, pending := pending } _ :=
      foldl_absorb (state.sets a) (dependents a) hqueued
    generalize (dependents a).foldl (absorb uniting (state.sets a))
      { state with queued := Function.update state.queued a false, pending := pending } =
      next at hgrown ⊢
    refine ⟨fun b => ?_, fun b c hc => ?_, hgrown.queued, fun b hb parent hparent => ?_⟩
    · rw [hgrown.elements_eq]
      exact (h.begun b).trans Finset.subset_union_left
    · rw [hgrown.elements_eq, Finset.mem_union] at hc
      rcases hc with hold | hnew
      · exact h.reached b c hold
      · split at hnew
        · rename_i hdependent
          obtain ⟨m, hreach, hm⟩ := h.reached a c hnew
          exact ⟨m, hreach.tail hdependent, hm⟩
        · simp at hnew
    · -- a vertex that does not wait has not grown, and it has passed its set on
      have hsame := not_imp_comm.mp (hgrown.grown b) hb
      rw [hsame, hgrown.elements_eq parent]
      by_cases hba : b = a
      · subst hba
        rw [if_pos hparent]
        exact Finset.subset_union_right
      · have hwaited : b ∉ state.pending := by
          rw [hpending, List.mem_cons, not_or]
          exact ⟨hba, fun hmem => hb (hgrown.waits b hmem)⟩
        exact (h.passed b hwaited parent hparent).trans Finset.subset_union_left

variable [Fintype α] (uniting)

/-- Each set has in the end what the vertices that reach it began with. -/
theorem mem_run_iff {state : Propagating α S}
    (hqueued : ∀ a, state.queued a = true → a ∈ state.pending)
    (hwaits : ∀ a, uniting.elements (state.sets a) ≠ ∅ → a ∈ state.pending) (a : α) (b : β) :
    b ∈ uniting.elements ((loop uniting dependents).run state a) ↔
      ∃ m, ReflTransGen (fun m a => a ∈ dependents m) m a ∧
        b ∈ uniting.elements (state.sets m) := by
  have hstart : Propagated uniting dependents state.sets state := by
    refine ⟨fun a => Finset.Subset.refl _, fun a b hb => ⟨a, .refl, hb⟩, hqueued,
      fun a ha parent _ => ?_⟩
    rw [not_imp_comm.mp (hwaits a) ha]
    exact Finset.empty_subset _
  have hlast := (loop uniting dependents).run_spec (Q := fun current sets =>
    Propagated uniting dependents state.sets current →
      (∀ a, uniting.elements (state.sets a) ⊆ uniting.elements (sets a)) ∧
      (∀ a, ∀ b ∈ uniting.elements (sets a), ∃ m,
        ReflTransGen (fun m a => a ∈ dependents m) m a ∧
          b ∈ uniting.elements (state.sets m)) ∧
      ∀ a, ∀ parent ∈ dependents a, uniting.elements (sets a) ⊆ uniting.elements (sets parent))
    ?_ (fun current next sets hturn hrest hcurrent => hrest (hcurrent.turn hturn)) state hstart
  · obtain ⟨hbegun, hreached, hpassed⟩ := hlast
    refine ⟨hreached a b, ?_⟩
    rintro ⟨m, hreach, hm⟩
    induction hreach with
    | refl => exact hbegun m hm
    | tail _ hstep ih => exact hpassed _ _ hstep ih
  · intro current sets hturn hcurrent
    simp only [loop, turn] at hturn
    split at hturn
    · rename_i hempty
      cases hturn
      exact ⟨hcurrent.begun, hcurrent.reached, fun a => hcurrent.passed a (by simp [hempty])⟩
    · cases hturn

end Laws

end Propagating

end KRust.Lib
