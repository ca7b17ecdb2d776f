import Mathlib.Data.List.Basic

/-!
Clauses whose premises are lists, and the least set that they close: what a clause concludes
belongs to it once all its premises do.
-/

namespace KRust.Lib

variable {ι α : Type} {clauses : ι → Prop} {premises : ι → List α} {conclusion : ι → α}

/-- What the clauses derive. -/
inductive Derivable (clauses : ι → Prop) (premises : ι → List α) (conclusion : ι → α) : α → Prop
  | of {i : ι} (hi : clauses i) (h : ∀ a ∈ premises i, Derivable clauses premises conclusion a) :
    Derivable clauses premises conclusion (conclusion i)

/-- A set that the clauses close. -/
def Closed (clauses : ι → Prop) (premises : ι → List α) (conclusion : ι → α) (set : α → Prop) :
    Prop := ∀ i, clauses i → (∀ a ∈ premises i, set a) → set (conclusion i)

theorem Derivable.least (set : α → Prop) (hset : Closed clauses premises conclusion set) {a : α}
    (h : Derivable clauses premises conclusion a) : set a := by
  induction h with
  | of hi _ ih => exact hset _ hi ih

/-- A closed set of derived elements is all of them. -/
theorem derivable_iff (set : α → Prop) (hclosed : Closed clauses premises conclusion set)
    (hsound : ∀ a, set a → Derivable clauses premises conclusion a) (a : α) :
    set a ↔ Derivable clauses premises conclusion a :=
  ⟨hsound a, fun h => h.least set hclosed⟩

end KRust.Lib
