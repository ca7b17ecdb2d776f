import KRust.Term.Chunks.Rebuild
import KRust.Term.Chunks.Positional

/-!
Edits that reuse what a tree stores: the summary of an edited leaf is the one from scratch, and the
rebuild of an ordered sequence gives its changed items in order.
-/

set_option linter.unusedSectionVars false

namespace KRust.Term.Chunks

open KRust.Lib KRust.Lib.Partial

variable {I K S G M A σ : Type} [Item I K S G] [LinearOrder K] [Summary S] [Group G]
  [AddMonoid M] [AddCancelCommMonoid A] [LawfulSummary S M] [LawfulGroup G A] {B : Branching}

section EditedLeaf

/-- `CONSTANT`: every value of a constant summary is the identity. -/
def ConstantSummary (S : Type) [Summary S] : Prop :=
  Summary.constant S = true → ∀ s : S, s = Summary.identity

theorem foldExtra_constant {M : Type} [AddMonoid M] [LawfulSummary S M]
    (hcontract : ConstantSummary S) (hconstant : Summary.constant S = true) (items : List I) :
    items.foldlM (fun extra item => Summary.combine extra (Item.summary item))
      (Summary.identity : S) = some Summary.identity := by
  have hcombine : Summary.combine (Summary.identity : S) Summary.identity =
      some Summary.identity := by
    have hzero : LawfulSummary.Representable S
        (LawfulSummary.value (Summary.identity : S) + LawfulSummary.value (Summary.identity : S)) := by
      rw [LawfulSummary.value_identity, add_zero, ← LawfulSummary.value_identity (S := S)]
      exact LawfulSummary.representable_value _
    obtain ⟨result, hresult, _⟩ :=
      (LawfulSummary.combine_yields (Summary.identity : S) Summary.identity).total hzero
    rw [hresult, hcontract hconstant result]
  induction items with
  | nil => rfl
  | cons item items ih =>
    rw [List.foldlM_cons, hcontract hconstant (Item.summary item), hcombine]
    exact ih

/-- A leaf of `keep`, `removed` and `tail` whose run `removed` is replaced by `added`, in any way
the two runs and the two kept parts may be empty: its summary is the one that its items have from
scratch. -/
theorem editedLeaf_from_scratch (hcontract : ConstantSummary S) (keep removed added tail : List I)
    {summary : NodeSummary I S G}
    (hleaf : (Node.leaf (keep ++ removed ++ tail) summary).Shaped B 0) (group : G) :
    NodeSummary.ofEditedItems (keep ++ removed ++ tail) summary (keep ++ added ++ tail)
        (keep.length, tail.length) group =
      NodeSummary.ofItemsWith (keep ++ added ++ tail) group ∧
    Node.leafEdited (.leaf (keep ++ removed ++ tail) summary) (keep ++ added ++ tail)
        (keep.length, tail.length) group =
      Node.leafWith (keep ++ added ++ tail) group := by
  have hsummary : Summarizes summary (keep ++ removed ++ tail) := hleaf.summarizes
  have hslice : ∀ mid : List I, checkedSub (keep ++ mid ++ tail).length tail.length =
      some (keep.length + mid.length) := by
    intro mid
    rw [checkedSub_of_le (by simp; omega)]
    simp
    omega
  have hedited : NodeSummary.ofEditedItems (keep ++ removed ++ tail) summary
      (keep ++ added ++ tail) (keep.length, tail.length) group =
        NodeSummary.ofItemsWith (keep ++ added ++ tail) group := by
    rw [NodeSummary.ofEditedItems, NodeSummary.ofItemsWith]
    cases hcount : vecLen (keep ++ added ++ tail) with
    | none => rfl
    | some count =>
      simp only [hslice, slice_append, Option.bind_eq_bind, Option.bind_some]
      split
      · rfl
      · next hderive =>
        simp only [Bool.or_eq_true, not_or, Bool.not_eq_true', Bool.not_eq_true,
          Bool.not_eq_false, decide_eq_true_eq, not_le] at hderive
        obtain ⟨⟨hconstant, hcollision⟩, _⟩ := hderive
        rw [hsummary.collision] at hcollision
        rw [slice_junctions keep added tail, Option.bind_some,
          foldExtra_constant hcontract hconstant, Option.bind_some,
          hasCollision_replace keep removed added tail hcollision]
        have hhash := NodeSummary.hashOf_edited keep removed added tail
        dsimp only at hhash
        rw [hsummary.hash, hhash]
  refine ⟨hedited, ?_⟩
  rw [Node.leafEdited, Node.leafWith, hedited]

/-- Two of five numbers replaced by three. -/
theorem editedLeaf_from_scratch_numbers :
    ∃ summary : NodeSummary Nat Unit Unit,
      NodeSummary.ofItemsWith [1, 2, 3, 4, 5] () = some summary ∧
        NodeSummary.ofEditedItems [1, 2, 3, 4, 5] summary [1, 2, 6, 7, 8, 5] (2, 1) () =
          NodeSummary.ofItemsWith [1, 2, 6, 7, 8, 5] () := by
  obtain ⟨summary, hrun, hsummary⟩ :=
    (NodeSummary.ofItemsWith_yields [1, 2, 3, 4, 5] () rfl).total ⟨by decide, trivial, trivial⟩
  have hleaf : (Node.leaf [1, 2, 3, 4, 5] summary).Shaped ⟨5, by decide⟩ 0 :=
    ⟨by decide, hsummary⟩
  exact ⟨summary, hrun,
    (editedLeaf_from_scratch (fun _ _ => rfl) [1, 2] [3, 4] [6, 7, 8] [5] hleaf ()).1⟩

end EditedLeaf

section Ordered

variable [LinearOrder I] {tree : Chunked I S G B}

theorem takenFrom_sublist (position : Nat) (low : Option I) (ms : List (I × Option I)) :
    (takenFrom position (stays low ms)).Sublist (changedFrom position ms) := by
  induction ms generalizing position low with
  | nil => exact .slnil
  | cons m ms ih =>
    obtain ⟨x, new⟩ := m
    cases new with
    | none => exact ih (position + 1) (some x)
    | some y =>
      simp only [stays, changedFrom]
      split
      · exact (ih (position + 1) (some y)).cons position
      · exact (ih (position + 1) low).cons_cons position

theorem unchangedItems_sublist (low : Option I) (ms : List (I × Option I)) :
    (unchangedItems ms).Sublist (kept (newItems ms) (stays low ms)) := by
  induction ms generalizing low with
  | nil => exact .slnil
  | cons m ms ih =>
    obtain ⟨x, new⟩ := m
    cases new with
    | none =>
      have hkept : kept (newItems ((x, none) :: ms)) (stays low ((x, none) :: ms)) =
          x :: kept (newItems ms) (stays (some x) ms) := by
        simp [kept, newItems, stays]
      rw [hkept]
      exact (ih (some x)).cons_cons x
    | some y =>
      have hrest : unchangedItems ((x, some y) :: ms) = unchangedItems ms := by
        simp [unchangedItems]
      rw [hrest]
      simp only [stays]
      split
      · simpa [kept, newItems] using (ih (some y)).cons y
      · simpa [kept, newItems] using ih low

theorem kept_sublist {α : Type} (xs : List α) (flags : List Bool) : (kept xs flags).Sublist xs := by
  induction xs generalizing flags with
  | nil => simp [kept]
  | cons x xs ih =>
    cases flags with
    | nil => simp [kept]
    | cons flag flags =>
      cases flag with
      | true => simpa [kept] using (ih flags).cons_cons x
      | false => simpa [kept] using (ih flags).cons x

/-- What a rebuild does with the items that `ms` gives: those at `out`, all of them changed, are
taken out of the tree `mapped` of the items after the change, which leaves `rest` in order with
every unchanged item in it, and each of them is inserted once. -/
structure Moves (ms : List (I × Option I)) (mapped : Chunked I S G B) (out : List Nat)
    (rest : Chunked I S G B) (moved : List I) (result : Chunked I S G B) : Prop where
  found : outOfOrder mapped (changedFrom 0 ms) = some out
  changed : out.Sublist (changedFrom 0 ms)
  taken : out.reverse.foldlM takeOut (mapped, []) = some (rest, moved)
  rest_sorted : rest.items.Pairwise (· ≤ ·)
  rest_sublist : rest.items.Sublist (newItems ms)
  unchanged : (unchangedItems ms).Sublist rest.items
  once : (rest.items ++ moved).Perm (newItems ms)
  inserted : moved.foldlM insert rest = some result

theorem rebuildWhere_moves {seek : Seek I S G} {change : σ → I → Option I × σ} {state : σ}
    (hvalid : tree.Valid) (hsorted : tree.items.Pairwise (· ≤ ·)) (hseek : seek.Lawful)
    {result : Chunked I S G B × σ} (hrun : rebuildWhere tree seek change state = some result) :
    ∃ mapped out rest moved,
      mapWhereRecording tree seek change state =
        some (mapped, result.2, changedFrom 0 (marks seek change 0 state tree.items).1) ∧
      mapped.items = newItems (marks seek change 0 state tree.items).1 ∧
      Moves (marks seek change 0 state tree.items).1 mapped out rest moved result.1 := by
  have hold := oldItems_marks seek change 0 state tree.items
  unfold rebuildWhere at hrun
  cases hmap : mapWhereRecording tree seek change state with
  | none => simp [hmap] at hrun
  | some recorded =>
    obtain ⟨hmapped, hitems, hrecord⟩ :=
      (mapWhereRecording_yields change hvalid hseek state).of_eq_some hmap
    obtain ⟨mapped, state', changed⟩ := recorded
    obtain ⟨rfl, rfl⟩ := Prod.mk.inj hrecord
    generalize (marks seek change 0 state tree.items).1 = ms at *
    have hout := outOfOrder_eq hmapped [] ms hitems
    have hlen : (stays none ms).length = (newItems ms).length := by
      rw [length_stays, length_newItems]
    simp only [List.getLast?_nil, List.length_nil] at hout
    simp only [hmap, hout, Option.bind_eq_bind, Option.bind_some] at hrun
    cases htake : (takenFrom 0 (stays none ms)).reverse.foldlM takeOut (mapped, []) with
    | none => simp [htake] at hrun
    | some removed =>
      obtain ⟨_, hrest, hmoved⟩ :=
        (takeOut_all_yields hmapped [] (newItems ms) (stays none ms) hlen hitems).of_eq_some htake
      obtain ⟨rest, moved⟩ := removed
      rw [List.nil_append] at hrest
      have hunchanged : (unchangedItems ms).Pairwise (· ≤ ·) := by
        refine hsorted.sublist ?_
        rw [← hold]
        exact List.filter_sublist.map _
      simp only [htake, Option.bind_some] at hrun
      obtain ⟨inserted, hinserted, hresult⟩ := Option.bind_eq_some_iff.mp hrun
      obtain rfl := Option.some.inj hresult
      refine ⟨mapped, takenFrom 0 (stays none ms), rest, moved, rfl, hitems, hout,
        takenFrom_sublist 0 none ms, htake, ?_, ?_, ?_, ?_, hinserted⟩
      · rw [hrest]
        exact (kept_sorted none ms hunchanged (by simp)).1
      · rw [hrest]
        exact kept_sublist _ _
      · rw [hrest]
        exact unchangedItems_sublist none ms
      · rw [hrest]
        exact (hmoved.append_left _).trans (kept_taken_perm (newItems ms) (stays none ms) hlen)

/-- A rebuild of an ordered sequence gives a valid tree of the sorted list of the items after the
change, by taking out the changed items that fall out of order and inserting each of them once. -/
theorem rebuild_ordered {seek : Seek I S G} (change : σ → I → Option I × σ) (state : σ)
    (hvalid : tree.Valid) (hsorted : tree.items.Pairwise (· ≤ ·)) (hseek : seek.Lawful) :
    Yields (FitsChange (marks seek change 0 state tree.items).1 ∧
        Fits ((newItems (marks seek change 0 state tree.items).1).insertionSort (· ≤ ·)))
      (rebuildWhere tree seek change state)
      (fun result => result.1.Valid ∧ result.1.items.Pairwise (· ≤ ·) ∧
        result.1.items =
          (newItems (marks seek change 0 state tree.items).1).insertionSort (· ≤ ·) ∧
        ∃ mapped out rest moved,
          mapWhereRecording tree seek change state =
            some (mapped, result.2, changedFrom 0 (marks seek change 0 state tree.items).1) ∧
          mapped.items = newItems (marks seek change 0 state tree.items).1 ∧
          Moves (marks seek change 0 state tree.items).1 mapped out rest moved result.1) := by
  have hyields : Yields _ (rebuildWhere tree seek change state) _ :=
    rebuildWhere_yields hvalid hsorted hseek state
  refine (yields_iff _ _ _).mpr ⟨fun result hresult => ?_, fun hfits => ?_⟩
  · obtain ⟨hresultValid, hitems, _⟩ := hyields.of_eq_some hresult
    refine ⟨hresultValid, ?_, hitems, rebuildWhere_moves hvalid hsorted hseek hresult⟩
    rw [hitems]
    exact List.pairwise_insertionSort _ _
  · obtain ⟨result, hresult, _⟩ := hyields.total hfits
    exact ⟨result, hresult⟩

/-- The second of seven numbers grows over the last one, and is moved behind it. -/
theorem rebuild_ordered_numbers :
    ∃ tree result : Chunked Nat Unit Unit ⟨5, by decide⟩, tree.items = [1, 2, 3, 4, 5, 6, 7] ∧
      rebuildWhere tree (.ofTests (fun _ => true) fun item => item == 2)
        (fun _ item => (some (item + 7), ())) () = some (result, ()) ∧
      result.items = [1, 3, 4, 5, 6, 7, 9] := by
  have hfits : ∀ xs : List Nat, xs.length ≤ usizeMax → Fits xs := fun xs h => ⟨h, trivial, trivial⟩
  obtain ⟨tree, _, hvalid, hitems⟩ :=
    (fromVec_yields ⟨5, by decide⟩ [1, 2, 3, 4, 5, 6, 7]).total (hfits _ (by decide))
  have hseek : (Seek.ofTests (fun _ => true) fun item => item == 2 : Seek Nat Unit Unit).Lawful :=
    ⟨fun _ _ _ _ _ _ _ _ => rfl⟩
  have hordered := rebuild_ordered (fun _ item => (some (item + 7), ())) () hvalid
    (by simp [hitems]) hseek
  rw [hitems] at hordered
  obtain ⟨result, hrun, _, _, hresult, _⟩ := hordered.total
    ⟨⟨hfits _ (by decide), trivial⟩, hfits _ (by decide)⟩
  exact ⟨tree, result.1, hitems, hrun, hresult⟩

end Ordered

end KRust.Term.Chunks
