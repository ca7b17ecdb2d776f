import Mathlib.Data.Bool.AllAny
import KRust.Term.Chunks.Sought
import KRust.Backend.ItemSummary

/-!
The queries of a collection's items that descend by the summaries of its tree: the items lacking a
flag, those whose key is not constructor-like, and the first that holds a `<k>` cell.
-/

namespace KRust.Backend.Items

open KRust.Term.Chunks (Seek Summarizes NodeSummary collect_seek next_seek)

variable {I : Type} [StoredItem I]

section Definitions

/-- `ItemTerms::every_term` -/
def everyTerm (test : StoredTerm → Bool) (item : I) : Bool := (StoredItem.terms item).all test

/-- `symbolic_keys` -/
def symbolicKeys (items : Items I) : Nat :=
  match items.tree.root with
  | none => 0
  | some root => root.summary.extra.symbolicKeys.count

def symbolicKeyedSeek : Seek I ItemSummary (Multiset TermVariable) :=
  .ofTests (fun summary => 0 < summary.extra.symbolicKeys.count)
    fun item => !(StoredItem.key item).attributes.constructorLike

/-- `symbolic_keyed_at` -/
def symbolicKeyedAt (items : Items I) : List (Nat × I) :=
  if 0 < items.symbolicKeys then (items.tree.seek symbolicKeyedSeek).collect else []

/-- `symbolic_keyed` -/
def symbolicKeyed (items : Items I) : List I := items.symbolicKeyedAt.map Prod.snd

/-- `lacking_seek` -/
def lackingSeek (flag : Flag) : Seek I ItemSummary (Multiset TermVariable) :=
  .ofTests (fun summary => !summary.extra.holds flag)
    fun item => !everyTerm (fun term => flag.holdsOf term) item

/-- `lacking` -/
def lacking (items : Items I) (flag : Flag) : List I :=
  if items.tree.root.any fun root => !root.summary.extra.holds flag then
    (items.tree.seek (lackingSeek flag)).collect.map Prod.snd
  else []

def kCellsSeek : Seek I ItemSummary (Multiset TermVariable) :=
  .ofTests (fun summary => 0 < summary.extra.kCells.count)
    fun item => !everyTerm (fun term => term.attributes.kCells == 0) item

/-- `first_with_k_cells` -/
def firstWithKCells (items : Items I) : Option I :=
  if items.tree.root.any fun root => 0 < root.summary.extra.kCells.count then
    (items.tree.seek kCellsSeek).next.1.map Prod.snd
  else none

end Definitions

section Laws

/-- The test of a summary says whether one of the items it summarizes passes the test of an item. -/
def Exact (admits : NodeSummary I ItemSummary (Multiset TermVariable) → Bool) (wants : I → Bool) :
    Prop :=
  ∀ summary (is : List I), Summarizes summary is → admits summary = is.any wants

theorem exact_symbolicKeys : Exact (I := I) (fun summary => 0 < summary.extra.symbolicKeys.count)
    fun item => !(StoredItem.key item).attributes.constructorLike := by
  intro summary is hsummary
  rw [Bool.eq_iff_iff, decide_eq_true_iff, symbolicKeys_of_summarizes hsummary,
    List.countP_pos_iff, List.any_eq_true]

theorem exact_lacking (flag : Flag) : Exact (I := I) (fun summary => !summary.extra.holds flag)
    fun item => !everyTerm (fun term => flag.holdsOf term) item := by
  intro summary is hsummary
  dsimp only
  rw [holds_of_summarizes hsummary, List.all_flatMap, List.not_all_eq_any_not]
  rfl

theorem exact_kCells : Exact (I := I) (fun summary => 0 < summary.extra.kCells.count)
    fun item => !everyTerm (fun term => term.attributes.kCells == 0) item := by
  intro summary is hsummary
  have hnone : (is.any fun item => !everyTerm (fun term => term.attributes.kCells == 0) item) =
      !((is.flatMap StoredItem.terms).all fun term => term.attributes.kCells == 0) := by
    rw [List.all_flatMap, List.not_all_eq_any_not]
    rfl
  have hpos : 0 < summary.extra.kCells.count ↔
      ((is.flatMap StoredItem.terms).map fun t => t.attributes.kCells).sum ≠ 0 := by
    rw [kCells_of_summarizes hsummary]
    omega
  rw [hnone, Bool.eq_iff_iff, decide_eq_true_iff, hpos, Ne, List.sum_eq_zero_iff,
    Bool.not_eq_true', ← Bool.not_eq_true, List.all_eq_true, List.forall_mem_map]
  simp only [beq_iff_eq]

variable {admits : NodeSummary I ItemSummary (Multiset TermVariable) → Bool} {wants : I → Bool}

theorem Exact.lawful (hexact : Exact admits wants) : (Seek.ofTests admits wants).Lawful where
  admits _ summary is hsummary _ item hitem hwants := by
    refine (hexact summary is hsummary).trans ?_
    exact List.any_of_mem (List.mem_of_getElem? hitem) hwants

/-- The items that pass the test, each with its position. -/
def filterAt (items : Items I) (wants : I → Bool) : List (Nat × I) :=
  (items.toList.zipIdx.filter fun entry => wants entry.1).map Prod.swap

theorem map_snd_filterAt (items : Items I) :
    (items.filterAt wants).map Prod.snd = items.toList.filter wants := by
  have hzip : ∀ (is : List I) (position : Nat),
      ((is.zipIdx position).filter fun entry => wants entry.1).map Prod.fst = is.filter wants := by
    intro is
    induction is with
    | nil => exact fun _ => rfl
    | cons i is ih =>
      intro position
      rw [List.zipIdx_cons, List.filter_cons, List.filter_cons]
      cases hi : wants i with
      | true => simp only [if_true, List.map_cons, ih]
      | false => simpa only [Bool.false_eq_true, if_false] using ih (position + 1)
  rw [filterAt, List.map_map]
  exact hzip items.toList 0

/-- Where the summary of the root admits no item, none passes the test. -/
theorem Exact.filterAt_eq_nil (hexact : Exact admits wants) {items : Items I}
    (hroot : items.tree.root.any (fun root => admits root.summary) ≠ true) :
    items.filterAt wants = [] := by
  have hnone : items.toList.any wants = false := by
    obtain ⟨⟨root⟩, hvalid⟩ := items
    cases root with
    | none => rfl
    | some root =>
      obtain ⟨h, hfull⟩ := hvalid root rfl
      refine (hexact root.summary _ hfull.shaped.summarizes).symm.trans ?_
      simpa using hroot
  rw [← List.map_eq_nil_iff (f := Prod.snd), map_snd_filterAt, List.filter_eq_nil_iff]
  intro i hi hwants
  have := List.any_of_mem hi hwants
  rw [hnone] at this
  cases this

theorem Exact.collect_eq (hexact : Exact admits wants) (items : Items I) :
    (if items.tree.root.any fun root => admits root.summary then
      (items.tree.seek (.ofTests admits wants)).collect else []) = items.filterAt wants := by
  split
  · exact collect_seek items.valid hexact.lawful
  · rename_i hroot
    exact (hexact.filterAt_eq_nil hroot).symm

theorem Exact.next_eq (hexact : Exact admits wants) (items : Items I) :
    (if items.tree.root.any fun root => admits root.summary then
      (items.tree.seek (.ofTests admits wants)).next.1 else none) =
        (items.filterAt wants).head? := by
  split
  · exact next_seek items.valid hexact.lawful
  · rename_i hroot
    rw [hexact.filterAt_eq_nil hroot]
    rfl

end Laws

/-- The queries that descend by the summaries give what filtering the items one by one would: in
order, with the positions, and the first. -/
theorem pruned_descents (items : Items I) :
    (∀ flag, items.lacking flag =
        items.toList.filter fun item => !everyTerm (fun term => flag.holdsOf term) item) ∧
      items.symbolicKeyedAt = (items.toList.zipIdx.filter fun entry =>
        !(StoredItem.key entry.1).attributes.constructorLike).map Prod.swap ∧
      items.symbolicKeyed =
        items.toList.filter (fun item => !(StoredItem.key item).attributes.constructorLike) ∧
      items.firstWithKCells = items.toList.find? fun item =>
        !everyTerm (fun term => term.attributes.kCells == 0) item := by
  have hkeyed : items.symbolicKeyedAt =
      items.filterAt fun item => !(StoredItem.key item).attributes.constructorLike := by
    refine Eq.trans ?_ (exact_symbolicKeys.collect_eq items)
    rw [symbolicKeyedAt, symbolicKeys]
    cases items.tree.root with
    | none => rfl
    | some root => simp [symbolicKeyedSeek]
  refine ⟨fun flag => ?_, hkeyed, ?_, ?_⟩
  · rw [← map_snd_filterAt, ← (exact_lacking flag).collect_eq items, lacking]
    split
    · rfl
    · rfl
  · rw [symbolicKeyed, hkeyed, map_snd_filterAt]
  · have hfirst : items.firstWithKCells = ((items.filterAt fun item =>
        !everyTerm (fun term => term.attributes.kCells == 0) item).head?).map Prod.snd := by
      rw [← exact_kCells.next_eq items, firstWithKCells]
      split
      · rfl
      · rfl
    rw [hfirst, ← List.head?_map, map_snd_filterAt, List.head?_filter]

end KRust.Backend.Items
