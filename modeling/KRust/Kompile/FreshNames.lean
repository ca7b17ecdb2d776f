import KRust.Kast.Ast
import KRust.Lib.Decimal

/-!
The names a compilation pass mints for one sentence: the counter goes on past the names that are
used, so each name minted is new.
-/

set_option linter.unusedSectionVars false

namespace KRust.Kompile

open KRust.Kast Lib

section Names

variable {μ : Type}

mutual

/-- The names of the variables of a term. -/
def variableNames : Term μ → List String
  | .injectedLabel _ | .token _ _ => []
  | .rewrite left right | .as left right => variableNames left ++ variableNames right
  | .var name _ => [name]
  | .sequence items | .apply _ items => variableNamesAll items
  | .annotated term _ => variableNames term

def variableNamesAll : List (Term μ) → List String
  | [] => []
  | t :: ts => variableNames t ++ variableNamesAll ts

end

theorem variableNamesAll_eq (ts : List (Term μ)) :
    variableNamesAll ts = ts.flatMap variableNames := by
  induction ts with
  | nil => rfl
  | cons t ts ih => rw [variableNamesAll, ih, List.flatMap_cons]

end Names

/-- `FreshNames` -/
structure FreshNames where
  used : List String
  counter : Nat

namespace FreshNames

/-- `for_terms` -/
def forTerms {μ : Type} (roots : List (Term μ)) : FreshNames := ⟨roots.flatMap variableNames, 0⟩

def candidate (base : String) (n : Nat) : String := base ++ toString n

theorem candidate_inj {base : String} {m n : Nat} (h : candidate base m = candidate base n) :
    m = n := by
  have hlist := congrArg String.toList h
  rw [candidate, candidate, String.toList_append, String.toList_append] at hlist
  have hdigits : Nat.toDigits 10 m = Nat.toDigits 10 n := by
    simpa [Nat.toList_repr] using List.append_cancel_left hlist
  rw [← Decimal.value_toDigits m, hdigits, Decimal.value_toDigits]

/-- The used names that a candidate can still be. -/
def ahead (base : String) (names : FreshNames) : List String :=
  names.used.filter fun name => decide (∀ n < names.counter, name ≠ candidate base n)

theorem ahead_lt {base : String} {names : FreshNames}
    (h : candidate base names.counter ∈ names.used) :
    (ahead base { names with counter := names.counter + 1 }).length <
      (ahead base names).length := by
  have hsub : ahead base { names with counter := names.counter + 1 } =
      (ahead base names).filter fun name => decide (name ≠ candidate base names.counter) := by
    rw [ahead, ahead, List.filter_filter]
    refine List.filter_congr fun name _ => ?_
    rw [Bool.eq_iff_iff, Bool.and_eq_true, decide_eq_true_eq, decide_eq_true_eq, decide_eq_true_eq]
    constructor
    · exact fun hall => ⟨hall _ (Nat.lt_succ_self _), fun n hn => hall n (Nat.lt_succ_of_lt hn)⟩
    · rintro ⟨hne, hall⟩ n hn
      rcases Nat.lt_succ_iff_lt_or_eq.mp hn with hlt | rfl
      · exact hall n hlt
      · exact hne
  rw [hsub]
  refine List.length_filter_lt_length_iff_exists.mpr
    ⟨candidate base names.counter, ?_, by simp⟩
  refine List.mem_filter.mpr ⟨h, decide_eq_true fun n hn heq => ?_⟩
  exact absurd (candidate_inj heq) (Nat.ne_of_gt hn)

/-- `mint` -/
def mint (base : String) (names : FreshNames) : String × FreshNames :=
  if candidate base names.counter ∈ names.used then
    mint base { names with counter := names.counter + 1 }
  else
    (candidate base names.counter,
      ⟨candidate base names.counter :: names.used, names.counter + 1⟩)
termination_by (ahead base names).length
decreasing_by exact ahead_lt ‹_›

/-- A minted name is new and is used from then on. -/
theorem mint_spec (base : String) (names : FreshNames) :
    (mint base names).1 ∉ names.used ∧
      (mint base names).2.used = (mint base names).1 :: names.used := by
  fun_induction mint base names with
  | case1 names h ih => exact ih
  | case2 names h => exact ⟨h, rfl⟩

end FreshNames

end KRust.Kompile
