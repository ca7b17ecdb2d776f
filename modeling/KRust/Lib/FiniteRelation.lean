import Mathlib.Data.Finset.Max
import Mathlib.Logic.Relation
import Mathlib.Order.WellFoundedSet

/-!
Relations without cycles: how to see that there is none, and the elements that come first.
-/

namespace KRust.Lib

open Relation (ReflTransGen TransGen EqvGen)

variable {α : Type} {R : α → α → Prop}

/-- No element is above itself. -/
def Acyclic (R : α → α → Prop) : Prop := ∀ a, ¬ TransGen R a a

/-- A path of the relation that comes back to where it starts. -/
def ClosedPath (R : α → α → Prop) (path : List α) : Prop :=
  ∃ a inner, path = a :: (inner ++ [a]) ∧ path.IsChain R

/-- A chain leads from its first element to its last one. -/
theorem transGen_of_chain {a b : α} {inner : List α} (h : (a :: (inner ++ [b])).IsChain R) :
    TransGen R a b := by
  induction inner generalizing a with
  | nil => exact .single (List.isChain_pair.mp h)
  | cons c inner ih =>
    rw [List.cons_append, List.isChain_cons_cons] at h
    exact .head h.1 (ih h.2)

theorem ClosedPath.not_acyclic {path : List α} (h : ClosedPath R path) : ¬ Acyclic R := by
  obtain ⟨a, inner, rfl, hchain⟩ := h
  exact fun hacyclic => hacyclic a (transGen_of_chain hchain)

/-- There is no cycle where every descent ends. -/
theorem acyclic_of_acc (h : ∀ a, Acc (fun b a => R a b) a) : Acyclic R := by
  intro a hcycle
  have hdescent : TransGen (fun b a => R a b) a a := Relation.transGen_swap.mpr hcycle
  have hacc := (h a).transGen
  induction hacc with
  | intro a _ ih => exact ih a hdescent hcycle hdescent

/-- Of finitely many elements of a relation without cycles, one comes before the others. -/
theorem Acyclic.exists_first (h : Acyclic R) {rest : Finset α} (hrest : rest.Nonempty) :
    ∃ a ∈ rest, ∀ b ∈ rest, ¬ R b a := by
  have : IsStrictOrder α (TransGen R) :=
    { irrefl := h, trans := fun _ _ _ => TransGen.trans }
  obtain ⟨a, ha⟩ := hrest
  obtain ⟨first, -, hfirst⟩ :=
    (rest.wellFoundedOn (r := TransGen R)).has_min Set.univ ⟨⟨a, ha⟩, trivial⟩
  exact ⟨first.1, first.2, fun b hb hstep => hfirst ⟨b, hb⟩ trivial (.single hstep)⟩

/-- There is no cycle where every step goes up in a rank. -/
theorem acyclic_of_rank (rank : α → ℕ) (h : ∀ a b, R a b → rank a < rank b) : Acyclic R := by
  have hup : ∀ {a b}, TransGen R a b → rank a < rank b := by
    intro a b hab
    induction hab with
    | single hstep => exact h _ _ hstep
    | tail _ hstep ih => exact ih.trans (h _ _ hstep)
  exact fun a hcycle => lt_irrefl _ (hup hcycle)

/-- An element of some pair is one of some pair of the closure. -/
theorem exists_related_iff {a : α} :
    (∃ b, R a b ∨ R b a) ↔ ∃ b, TransGen R a b ∨ TransGen R b a := by
  constructor
  · rintro ⟨b, hb⟩
    exact ⟨b, hb.imp .single .single⟩
  · rintro ⟨b, hab | hba⟩
    · obtain ⟨c, hc, -⟩ := Relation.TransGen.head'_iff.mp hab
      exact ⟨c, .inl hc⟩
    · obtain ⟨c, -, hc⟩ := Relation.TransGen.tail'_iff.mp hba
      exact ⟨c, .inr hc⟩

/-- What reaches an element through steps in both directions is connected to it. -/
theorem reach_iff_eqvGen {a b : α} :
    ReflTransGen (fun a b => TransGen R a b ∨ TransGen R b a) a b ↔ EqvGen R a b := by
  constructor
  · intro h
    have hsteps : ∀ {a b}, TransGen R a b → EqvGen R a b := by
      intro a b hab
      induction hab with
      | single hstep => exact .rel _ _ hstep
      | tail _ hstep ih => exact ih.trans _ _ _ (.rel _ _ hstep)
    induction h with
    | refl => exact .refl _
    | tail _ hstep ih =>
      rcases hstep with hup | hdown
      · exact ih.trans _ _ _ (hsteps hup)
      · exact ih.trans _ _ _ (hsteps hdown).symm
  · intro h
    induction h with
    | rel a b hstep => exact .single (.inl (.single hstep))
    | refl a => exact .refl
    | symm a b _ ih =>
      have : Std.Symm fun a b => TransGen R a b ∨ TransGen R b a := ⟨fun _ _ => Or.symm⟩
      exact Std.Symm.symm _ _ ih
    | trans a b c _ _ ihab ihbc => exact ihab.trans ihbc

end KRust.Lib
