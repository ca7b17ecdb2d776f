import KRust.Term.Chunks.CompareLaws

/-!
The pairs of items that the walk along two chunked sequences gives: those at one position, up to
the end of the shorter sequence, less those of the nodes the two share there.
-/

set_option linter.unusedSectionVars false

namespace KRust.Term.Chunks

variable {I S G : Type} {B : Branching}

/-- The pairs of items left to a walk. No turn of it is out of bounds (`turn_cases`). -/
def Aligned.pairs (shared : Nat → Node I S G → Node I S G → Bool) (clock : Nat)
    (walk : Aligned I S G) : List (I × I) :=
  match _hturn : walk.turn (shared clock) with
  | some (some (none, next)) => next.pairs shared (clock + 1)
  | some (some (some pair, next)) => pair :: next.pairs shared (clock + 1)
  | some none | none => []
termination_by walk.size
decreasing_by all_goals exact Aligned.turn_size _hturn

/-- The pairs are those at one position of the two sequences, up to the end of the shorter one,
but for runs of equal items. -/
inductive Skips : List (I × I) → List I → List I → Prop
  | left (ys : List I) : Skips [] [] ys
  | right (xs : List I) : Skips [] xs []
  | pair (x y : I) {pairs : List (I × I)} {xs ys : List I} (h : Skips pairs xs ys) :
      Skips ((x, y) :: pairs) (x :: xs) (y :: ys)
  | shared (zs : List I) {pairs : List (I × I)} {xs ys : List I} (h : Skips pairs xs ys) :
      Skips pairs (zs ++ xs) (zs ++ ys)

theorem Aligned.pairs_skips {shared : Nat → Node I S G → Node I S G → Bool}
    (hshared : ∀ clock one two, shared clock one two = true → one = two) (clock : Nat)
    (walk : Aligned I S G) : Skips (walk.pairs shared clock) walk.left.contents walk.right.contents := by
  induction hn : walk.size using Nat.strong_induction_on generalizing clock walk with
  | _ n ih =>
    subst hn
    rw [Aligned.pairs.eq_def]
    rcases walk.turn_cases (shared clock) with
      ⟨hend, hempty⟩ | ⟨l, r, next, hpair, hleft, hright, hlt⟩ | ⟨next, hstep, hsteps⟩
    · have hnone : Skips [] walk.left.contents walk.right.contents := by
        rcases hempty with hempty | hempty
        · rw [hempty]
          exact .left _
        · rw [hempty]
          exact .right _
      split <;> simp_all
    · have hrest := ih next.size hlt (clock + 1) next rfl
      rw [hleft, hright]
      split <;> simp_all [Skips.pair]
    · have hrest := ih next.size hsteps.size (clock + 1) next rfl
      have hnext : Skips (next.pairs shared (clock + 1)) walk.left.contents walk.right.contents := by
        rcases hsteps.contents with ⟨hleft, hright⟩ | ⟨one, two, hone, hleft, hright⟩
        · rwa [hleft, hright] at hrest
        · rw [hleft, hright, hshared clock one two hone]
          exact .shared _ hrest
      split <;> simp_all

/-- The pairs in which the walk of two sequences gives their items. -/
def Chunked.alignedPairs (shared : Nat → Node I S G → Node I S G → Bool)
    (left right : Chunked I S G B) : List (I × I) := (aligned left right).pairs shared 0

theorem Chunked.alignedPairs_skips {shared : Nat → Node I S G → Node I S G → Bool}
    (hshared : ∀ clock one two, shared clock one two = true → one = two)
    (left right : Chunked I S G B) : Skips (alignedPairs shared left right) left.items right.items := by
  have hcontents : ∀ tree : Chunked I S G B, (Cursor.new tree.root).contents = tree.items := by
    intro tree
    rw [cursor_new_contents]
    obtain ⟨root⟩ := tree
    cases root <;> simp
  have hskips := Aligned.pairs_skips hshared 0 (aligned left right)
  rwa [aligned, hcontents left, hcontents right] at hskips

namespace Skips

variable {pairs : List (I × I)} {xs ys : List I}

/-- A walk that skips nothing. -/
theorem zip (xs ys : List I) : Skips (xs.zip ys) xs ys := by
  induction xs generalizing ys with
  | nil => exact .left ys
  | cons x xs ih =>
    cases ys with
    | nil => exact .right _
    | cons y ys => exact .pair x y (ih ys)

/-- The first difference of the pairs is that of the sequences. -/
theorem firstDifference_eq (compare : I → I → Ordering) (hrefl : ∀ x, compare x x = .eq)
    (h : Skips pairs xs ys) :
    pairs.foldr (fun pair rest => (compare pair.1 pair.2).then rest) .eq =
      firstDifference compare xs ys := by
  induction h with
  | left ys => rfl
  | right xs => rw [firstDifference_nil_right]; rfl
  | pair x y _ ih => rw [List.foldr_cons, ih, firstDifference_cons]
  | shared zs _ ih => rw [ih, firstDifference_append hrefl]

/-- Sequences of one length are equal, up to what a function keeps of the items, where the pairs
are. -/
theorem map_eq_iff {J : Type} (f : I → J) (h : Skips pairs xs ys) (hlen : xs.length = ys.length) :
    (∀ pair ∈ pairs, f pair.1 = f pair.2) ↔ xs.map f = ys.map f := by
  induction h with
  | left ys =>
    obtain rfl := List.length_eq_zero_iff.mp hlen.symm
    simp
  | right xs =>
    obtain rfl := List.length_eq_zero_iff.mp hlen
    simp
  | pair x y _ ih =>
    rw [List.forall_mem_cons, ih (by simpa using hlen), List.map_cons, List.map_cons,
      List.cons.injEq]
  | shared zs _ ih =>
    rw [ih (by simpa using hlen), List.map_append, List.map_append, List.append_cancel_left_eq]

/-- The left sides of the pairs are items of the left sequence, in order. -/
theorem fst_sublist (h : Skips pairs xs ys) : (pairs.map Prod.fst).Sublist xs := by
  induction h with
  | left ys => exact List.nil_sublist _
  | right xs => exact List.nil_sublist _
  | pair x y _ ih => exact ih.cons_cons x
  | shared zs _ ih => exact ih.trans (List.sublist_append_right zs _)

end Skips

end KRust.Term.Chunks
