import KRust.Term.Chunks.JoinLaws
import KRust.Term.Chunks.SeekLaws

/-!
The chunked sequence as a list: each positional operation does to the items what
the operation of its name does to a plain list.
-/

set_option linter.unusedSectionVars false

namespace KRust.Term.Chunks

open KRust.Lib KRust.Lib.Partial

variable {I K S G M A : Type} [Item I K S G] [LinearOrder K] [Summary S] [Group G]
  [AddMonoid M] [AddCancelCommMonoid A] [LawfulSummary S M] [LawfulGroup G A] {B : Branching}

/-- The tree stands for the list. -/
structure Denotes (tree : Chunked I S G B) (xs : List I) : Prop where
  valid : tree.Valid
  items : tree.items = xs

variable {tree other : Chunked I S G B} {xs ys : List I}

theorem Denotes.len (htree : Denotes tree xs) : tree.len = xs.length := by
  rw [htree.valid.len_eq, htree.items]

theorem Denotes.insertAt (htree : Denotes tree xs) (index : Nat) (item : I)
    (hindex : index ≤ xs.length) :
    Yields (Fits (xs.insertIdx index item)) (insertAt tree index item)
      (fun result => Denotes result (xs.insertIdx index item)) := by
  obtain ⟨hvalid, rfl⟩ := htree
  exact (insertAt_yields hvalid index item hindex).imp fun result h => ⟨h.1, h.2⟩

theorem Denotes.removeAt (htree : Denotes tree xs) (index : Nat) (hindex : index < xs.length) :
    ∃ result, removeAt tree index = some (result, xs[index]) ∧
      Denotes result (xs.eraseIdx index) := by
  obtain ⟨hvalid, rfl⟩ := htree
  have hsplit : tree.items = tree.items.take index ++ tree.items[index] ::
      tree.items.drop (index + 1) := by
    rw [← List.drop_eq_getElem_cons hindex, List.take_append_drop]
  have hlen : (tree.items.take index).length = index := by
    rw [List.length_take]
    omega
  obtain ⟨⟨result, item⟩, hrun, hresult, hitems, hitem⟩ :=
    (removeAt_yields hvalid _ _ _ hsplit).total trivial
  rw [hlen] at hrun
  refine ⟨result, by rw [hrun, ← hitem], hresult, ?_⟩
  rw [hitems, List.eraseIdx_eq_take_drop_succ]

theorem Denotes.join (htree : Denotes tree xs) (hother : Denotes other ys) :
    Yields (Fits (xs ++ ys)) (join tree other) (fun result => Denotes result (xs ++ ys)) := by
  obtain ⟨hvalid, rfl⟩ := htree
  obtain ⟨hotherValid, rfl⟩ := hother
  exact (join_yields hvalid hotherValid).imp fun result h => ⟨h.1, h.2⟩

theorem Denotes.splitAt (htree : Denotes tree xs) (index : Nat) (hindex : index ≤ xs.length) :
    ∃ left right, splitAt tree index = some (left, right) ∧ Denotes left (xs.take index) ∧
      Denotes right (xs.drop index) := by
  obtain ⟨hvalid, rfl⟩ := htree
  obtain ⟨h, hwithin⟩ := hvalid.within
  have hlen : (tree.items.take index).length = index := by
    rw [List.length_take]
    omega
  obtain ⟨⟨left, right⟩, hrun, hleft, hright⟩ := (splitAt_yields hwithin (tree.items.take index)
    (tree.items.drop index) (List.take_append_drop index _).symm).total trivial
  rw [hlen] at hrun
  exact ⟨left, right, hrun, ⟨hleft.valid hvalid, hleft.items⟩, ⟨hright.valid hvalid, hright.items⟩⟩

theorem Denotes.replaceAt (htree : Denotes tree xs) (index : Nat) (item : I)
    (hindex : index < xs.length) :
    Yields (Fits (xs.set index item) ∧ LawfulSummary.Representable G
        (groupValue xs + LawfulSummary.value (Item.group item) : A))
      (replaceAt tree index item) (fun result => Denotes result (xs.set index item)) := by
  obtain ⟨hvalid, rfl⟩ := htree
  have hsplit : tree.items = tree.items.take index ++ tree.items[index] ::
      tree.items.drop (index + 1) := by
    rw [← List.drop_eq_getElem_cons hindex, List.take_append_drop]
  have hlen : (tree.items.take index).length = index := by
    rw [List.length_take]
    omega
  have hset : tree.items.set index item = tree.items.take index ++ item ::
      tree.items.drop (index + 1) := by
    rw [List.set_eq_take_append_cons_drop, if_pos hindex]
  have hreplace := replaceAt_yields hvalid _ _ _ hsplit item
  rw [hlen] at hreplace
  rw [hset]
  exact hreplace.imp fun result h => ⟨h.1, h.2⟩

theorem Denotes.range (htree : Denotes tree xs) (start stop : Bound) (first last : Nat)
    (hstart : start.start = some first) (hstop : stop.stop xs.length = some last)
    (horder : first ≤ last) (hlast : last ≤ xs.length) :
    ∃ iter, range tree start stop = some iter ∧
      iter.collect = some ((xs.take last).drop first) ∧
      ∀ calls, iter.run calls = some (takeEnds calls ((xs.take last).drop first)) := by
  obtain ⟨hvalid, rfl⟩ := htree
  obtain ⟨iter, hrange, hleft⟩ := range_left hvalid start stop first last hstart hstop horder hlast
  exact ⟨iter, hrange, hleft.collect_eq, hleft.run_eq⟩

/-- The positional operations are those of the list: insertion, removal, join, split,
replacement, the rebuild of the items a seek wants, access, iteration from both ends
over any range, and the partition point of a test that holds of a prefix. The trees
operated on stand for the same lists afterwards, as values that no operation changes. -/
theorem positional_refinement (htree : Denotes tree xs) (hother : Denotes other ys) :
    (∀ index item, index ≤ xs.length →
      Yields (Fits (xs.insertIdx index item)) (insertAt tree index item)
        (fun result => Denotes result (xs.insertIdx index item))) ∧
    (∀ index, (hindex : index < xs.length) → ∃ result,
      removeAt tree index = some (result, xs[index]) ∧ Denotes result (xs.eraseIdx index)) ∧
    Yields (Fits (xs ++ ys)) (join tree other) (fun result => Denotes result (xs ++ ys)) ∧
    (∀ index, index ≤ xs.length → ∃ left right, splitAt tree index = some (left, right) ∧
      Denotes left (xs.take index) ∧ Denotes right (xs.drop index)) ∧
    (∀ index item, index < xs.length →
      Yields (Fits (xs.set index item) ∧ LawfulSummary.Representable G
          (groupValue xs + LawfulSummary.value (Item.group item) : A))
        (replaceAt tree index item) (fun result => Denotes result (xs.set index item))) ∧
    (∀ (σ : Type) (seek : Seek I S G) (change : σ → I → Option I × σ) (state : σ), seek.Lawful →
      Yields (FitsChange (marks seek change 0 state xs).1) (mapWhere tree seek change state)
        (fun result => Denotes result.1 (newItems (marks seek change 0 state xs).1) ∧
          result.2 = (marks seek change 0 state xs).2)) ∧
    (∀ index, get tree index = some xs[index]?) ∧
    (∀ start stop first last, start.start = some first → stop.stop xs.length = some last →
      first ≤ last → last ≤ xs.length → ∃ iter, range tree start stop = some iter ∧
        iter.collect = some ((xs.take last).drop first) ∧
        ∀ calls, iter.run calls = some (takeEnds calls ((xs.take last).drop first))) ∧
    (∀ before : I → Bool, (xs.Pairwise fun x y => before y → before x) →
      partitionPoint tree before = some (xs.takeWhile before).length) := by
  refine ⟨htree.insertAt, htree.removeAt, htree.join hother, htree.splitAt, htree.replaceAt, ?_, ?_,
    htree.range, ?_⟩
  · intro σ seek change state hseek
    obtain ⟨hvalid, rfl⟩ := htree
    exact (mapWhere_yields change hvalid hseek state).imp fun result h => ⟨⟨h.1, h.2.1⟩, h.2.2⟩
  · intro index
    obtain ⟨hvalid, rfl⟩ := htree
    exact get_eq hvalid index
  · intro before hmono
    obtain ⟨hvalid, rfl⟩ := htree
    obtain ⟨h, hwithin⟩ := hvalid.within
    exact partitionPoint_eq hwithin before hmono

/-- A tree of numbers two levels high, cut inside a leaf. -/
theorem positional_refinement_numbers :
    ∃ tree left right : Chunked Nat Unit Unit ⟨5, by decide⟩,
      tree.items = [1, 2, 3, 4, 5, 6, 7] ∧ splitAt tree 4 = some (left, right) ∧
      left.items = [1, 2, 3, 4] ∧ right.items = [5, 6, 7] ∧ get tree 6 = some (some 7) := by
  have hfits : ∀ xs : List Nat, xs.length ≤ usizeMax → Fits xs := fun xs h => ⟨h, trivial, trivial⟩
  obtain ⟨tree, _, hvalid, hitems⟩ :=
    (fromVec_yields ⟨5, by decide⟩ [1, 2, 3, 4, 5, 6, 7]).total (hfits _ (by decide))
  have htree : Denotes tree [1, 2, 3, 4, 5, 6, 7] := ⟨hvalid, hitems⟩
  obtain ⟨_, _, _, hsplit, _, _, hget, _⟩ := positional_refinement htree htree
  obtain ⟨left, right, hrun, hleft, hright⟩ := hsplit 4 (by decide)
  exact ⟨tree, left, right, hitems, hrun, hleft.items, hright.items, hget 6⟩

end KRust.Term.Chunks
