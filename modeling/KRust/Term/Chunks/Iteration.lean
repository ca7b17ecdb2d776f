import KRust.Term.Chunks.Positional

/-!
The iterator over a range of positions, read from both ends in any order: each call takes the next
item of its end until none is left.
-/

set_option linter.unusedSectionVars false

namespace KRust.Term.Chunks

open KRust.Lib KRust.Lib.Partial

section Ends

variable {α : Type}

/-- The items that the calls from one end gave, in the order of the calls. -/
def yielded (back : Bool) (calls : List Bool) (answers : List (Option α)) : List α :=
  ((calls.zip answers).filter fun call => call.1 == back).filterMap Prod.snd

theorem yielded_cons_same (back : Bool) (calls : List Bool) (answer : Option α)
    (answers : List (Option α)) :
    yielded back (back :: calls) (answer :: answers) =
      answer.toList ++ yielded back calls answers := by
  cases answer <;> simp [yielded]

theorem yielded_cons_other {back other : Bool} (h : other ≠ back) (calls : List Bool)
    (answer : Option α) (answers : List (Option α)) :
    yielded back (other :: calls) (answer :: answers) = yielded back calls answers := by
  simp [yielded, h]

/-- A run of calls takes items from the two ends and leaves those in the middle. -/
structure TakesEnds (calls : List Bool) (xs : List α) (answers : List (Option α)) : Prop where
  length : answers.length = calls.length
  items : ∃ middle, xs = yielded false calls answers ++ middle ++ (yielded true calls answers).reverse
    ∧ middle.length = xs.length - calls.length
  exhausted : ∀ i < calls.length, answers[i]? = some none ↔ xs.length ≤ i

theorem takesEnds_nil (xs : List α) : TakesEnds [] xs [] where
  length := rfl
  items := ⟨xs, by simp [yielded], rfl⟩
  exhausted i h := absurd h (Nat.not_lt_zero i)

theorem TakesEnds.none {calls : List Bool} {answers : List (Option α)} (back : Bool)
    (h : TakesEnds calls [] answers) : TakesEnds (back :: calls) [] (none :: answers) where
  length := congrArg Nat.succ h.length
  items := by
    obtain ⟨middle, hmiddle, hlen⟩ := h.items
    refine ⟨middle, ?_, by simpa using hlen⟩
    cases back with
    | false =>
      rw [yielded_cons_same, yielded_cons_other (by decide)]
      exact hmiddle
    | true =>
      rw [yielded_cons_same, yielded_cons_other (by decide)]
      exact hmiddle
  exhausted i hi := by
    cases i with
    | zero => simp
    | succ i => simpa using h.exhausted i (Nat.lt_of_succ_lt_succ hi)

theorem TakesEnds.front {calls : List Bool} {x : α} {rest : List α} {answers : List (Option α)}
    (h : TakesEnds calls rest answers) :
    TakesEnds (false :: calls) (x :: rest) (some x :: answers) where
  length := congrArg Nat.succ h.length
  items := by
    obtain ⟨middle, hmiddle, hlen⟩ := h.items
    refine ⟨middle, ?_, by simpa using hlen⟩
    rw [yielded_cons_same, yielded_cons_other (by decide)]
    simpa using hmiddle
  exhausted i hi := by
    cases i with
    | zero => simp
    | succ i => simpa using h.exhausted i (Nat.lt_of_succ_lt_succ hi)

theorem TakesEnds.back {calls : List Bool} {x : α} {rest : List α} {answers : List (Option α)}
    (h : TakesEnds calls rest answers) :
    TakesEnds (true :: calls) (rest ++ [x]) (some x :: answers) where
  length := congrArg Nat.succ h.length
  items := by
    obtain ⟨middle, hmiddle, hlen⟩ := h.items
    refine ⟨middle, ?_, by simpa using hlen⟩
    rw [yielded_cons_same, yielded_cons_other (by decide)]
    conv_lhs => rw [hmiddle]
    simp
  exhausted i hi := by
    cases i with
    | zero => simp
    | succ i => simpa using h.exhausted i (Nat.lt_of_succ_lt_succ hi)

theorem takesEnds_takeEnds (calls : List Bool) (xs : List α) :
    TakesEnds calls xs (takeEnds calls xs) := by
  induction calls generalizing xs with
  | nil => exact takesEnds_nil xs
  | cons back calls ih =>
    rw [takeEnds]
    cases htake : takeEnd back xs with
    | none =>
      obtain rfl := eq_nil_of_takeEnd htake
      exact (ih []).none back
    | some next =>
      obtain ⟨x, rest⟩ := next
      have horient := orient_eq_cons htake
      cases back with
      | false =>
        obtain rfl : xs = x :: rest := horient
        exact (ih rest).front
      | true =>
        obtain rfl : xs = rest ++ [x] := by
          rw [← List.reverse_inj]
          simpa [orient] using horient
        exact (ih rest).back

end Ends

section Iteration

variable {I K S G M A : Type} [Item I K S G] [LinearOrder K] [Summary S] [Group G]
  [AddMonoid M] [AddCancelCommMonoid A] [LawfulSummary S M] [LawfulGroup G A] {B : Branching}
  {tree : Chunked I S G B}

/-- The iterators over a range and over the whole sequence answer every interleaving of calls from
their two ends: the calls from the front give the items in order, those from the back in the
opposite order, each item once, and a call gives none exactly when no item is left. -/
theorem iteration_from_both_ends (hvalid : tree.Valid) (calls : List Bool) :
    (∀ start stop first last, start.start = some first →
      stop.stop tree.items.length = some last → first ≤ last → last ≤ tree.items.length →
        ∃ iter answers, range tree start stop = some iter ∧ iter.run calls = some answers ∧
          TakesEnds calls ((tree.items.take last).drop first) answers) ∧
      ∃ answers, (iter tree).run calls = some answers ∧ TakesEnds calls tree.items answers := by
  constructor
  · intro start stop first last hstart hstop horder hlast
    obtain ⟨iter, hrange, hleft⟩ := range_left hvalid start stop first last hstart hstop horder hlast
    exact ⟨iter, _, hrange, hleft.run_eq calls, takesEnds_takeEnds calls _⟩
  · obtain ⟨h, hwithin⟩ := hvalid.within
    exact ⟨_, (iter_left hwithin).run_eq calls, takesEnds_takeEnds calls _⟩

/-- The ends of a range of three numbers meet in the leaf of the middle one. -/
theorem iteration_from_both_ends_numbers :
    ∃ (tree : Chunked Nat Unit Unit ⟨5, by decide⟩) (iter : Iter Nat Unit Unit)
      (answers : List (Option Nat)), tree.items = [1, 2, 3, 4, 5, 6, 7] ∧
        range tree (.included 2) (.excluded 5) = some iter ∧
          iter.run [true, false, true, false] = some answers ∧
            TakesEnds [true, false, true, false] [3, 4, 5] answers := by
  have hfits : ∀ xs : List Nat, xs.length ≤ usizeMax → Fits xs := fun xs h => ⟨h, trivial, trivial⟩
  obtain ⟨tree, _, hvalid, hitems⟩ :=
    (fromVec_yields ⟨5, by decide⟩ [1, 2, 3, 4, 5, 6, 7]).total (hfits _ (by decide))
  have hrun := (iteration_from_both_ends hvalid [true, false, true, false]).1 (.included 2)
    (.excluded 5) 2 5 rfl rfl (by decide) (by simp [hitems])
  obtain ⟨iter, answers, hrange, hanswers, htakes⟩ := hrun
  rw [hitems] at htakes
  exact ⟨tree, iter, answers, hitems, hrange, hanswers, htakes⟩

end Iteration

end KRust.Term.Chunks
