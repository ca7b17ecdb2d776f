import KRust.Backend.ListSegments
import Mathlib.Data.List.TakeWhile

/-!
The expansion of a list equation into branches is an equivalence. Each branch that holds gives
the equation, by cutting the current list at the placements of the blocks; and where the
current list has no part, the lengths of the parts' values give the placement of a branch that
holds.
-/

set_option linter.unusedSectionVars false

namespace KRust.Backend.ListImplication

open KRust.Kore Lib

section Blocks

variable {d : ListDefinition}

/-- The segments of the runs of parts with the block after each. -/
def restOfBlocks (rest : List (List ListRun × List Term)) : List ListSegment :=
  rest.flatMap fun entry => entry.1.flatMap ListRun.segments ++ entry.2.map .item

def Blocks.segments (blocks : Blocks) : List ListSegment :=
  blocks.first.map .item ++ restOfBlocks blocks.rest

/-- While blocks are built, the last first: an entry's runs are parts of the list, and only the
last block may be empty. -/
structure Blocks.Built (d : ListDefinition) (rest : List (List ListRun × List Term)) : Prop where
  listed : ∀ entry ∈ rest, ∀ run ∈ entry.1, run.Listed d ∧ run.isPart = true
  nonempty : ∀ entry ∈ rest.tail, entry.2 ≠ []

theorem Blocks.push_segments (blocks : Blocks) (run : ListRun) :
    (blocks.push run).first.map .item ++ restOfBlocks (blocks.push run).rest.reverse =
      (blocks.first.map .item ++ restOfBlocks blocks.rest.reverse) ++ run.segments := by
  obtain ⟨first, rest⟩ := blocks
  cases run with
  | items xs =>
    cases rest with
    | nil => simp [Blocks.push, restOfBlocks, ListRun.segments]
    | cons entry rest => simp [Blocks.push, restOfBlocks, ListRun.segments]
  | part t =>
    simp only [Blocks.push]
    split <;> simp [restOfBlocks, ListRun.segments]

theorem Blocks.Built.push {blocks : Blocks} (h : Blocks.Built d blocks.rest) {run : ListRun}
    (hrun : run.Listed d) : Blocks.Built d (blocks.push run).rest := by
  obtain ⟨first, rest⟩ := blocks
  cases run with
  | items xs =>
    cases rest with
    | nil => exact h
    | cons entry rest =>
      constructor
      · intro other hother
        cases List.mem_cons.mp hother with
        | inl heq =>
          rw [heq]
          exact h.listed entry List.mem_cons_self
        | inr htail => exact h.listed other (List.mem_cons_of_mem _ htail)
      · exact h.nonempty
  | part t =>
    simp only [Blocks.push]
    split
    · constructor
      · intro other hother
        cases List.mem_cons.mp hother with
        | inl heq =>
          rw [heq]
          intro run hmem
          cases List.mem_append.mp hmem with
          | inl hparts => exact h.listed _ List.mem_cons_self run hparts
          | inr hpart =>
            cases List.mem_singleton.mp hpart
            exact ⟨hrun, rfl⟩
        | inr htail => exact h.listed other (List.mem_cons_of_mem _ htail)
      · exact h.nonempty
    · rename_i hrest
      constructor
      · intro other hother
        cases List.mem_cons.mp hother with
        | inl heq =>
          rw [heq]
          intro run hmem
          cases List.mem_singleton.mp hmem
          exact ⟨hrun, rfl⟩
        | inr htail => exact h.listed other htail
      · intro entry hentry
        simp only [List.tail_cons] at hentry
        cases rest with
        | nil => cases hentry
        | cons top rest =>
          cases List.mem_cons.mp hentry with
          | inl heq =>
            obtain ⟨parts, block⟩ := top
            cases block with
            | nil => exact absurd rfl (hrest parts rest)
            | cons x block =>
              rw [heq]
              exact List.cons_ne_nil x block
          | inr htail => exact h.nonempty entry htail

theorem Blocks.foldl_spec (runs : List ListRun) (blocks : Blocks)
    (h : Blocks.Built d blocks.rest) (hruns : ∀ run ∈ runs, run.Listed d) :
    (runs.foldl Blocks.push blocks).first.map .item ++
          restOfBlocks (runs.foldl Blocks.push blocks).rest.reverse =
        (blocks.first.map .item ++ restOfBlocks blocks.rest.reverse) ++
          runs.flatMap ListRun.segments ∧
      Blocks.Built d (runs.foldl Blocks.push blocks).rest := by
  induction runs generalizing blocks with
  | nil => simpa using h
  | cons run runs ih =>
    obtain ⟨hsegments, hbuilt⟩ := ih _ (h.push (hruns run List.mem_cons_self))
      fun run hrun => hruns run (List.mem_cons_of_mem _ hrun)
    rw [List.foldl_cons]
    constructor
    · rw [hsegments, Blocks.push_segments]
      simp
    · exact hbuilt

/-- The blocks of runs have their segments. -/
theorem Blocks.ofRuns_segments {runs : List ListRun} (hruns : ∀ run ∈ runs, run.Listed d) :
    (Blocks.ofRuns runs).segments = runs.flatMap ListRun.segments := by
  have h := (Blocks.foldl_spec (d := d) runs ⟨[], []⟩ ⟨by simp, by simp⟩ hruns).1
  simpa [restOfBlocks, Blocks.segments, Blocks.ofRuns] using h

theorem Blocks.ofRuns_listed {runs : List ListRun} (hruns : ∀ run ∈ runs, run.Listed d) :
    ∀ entry ∈ (Blocks.ofRuns runs).rest, ∀ run ∈ entry.1, run.Listed d ∧ run.isPart = true := by
  have h := (Blocks.foldl_spec (d := d) runs ⟨[], []⟩ ⟨by simp, by simp⟩ hruns).2
  intro entry hentry
  exact h.listed entry (List.mem_reverse.mp hentry)

/-- Every block but the last has an item. -/
theorem Blocks.ofRuns_nonempty {runs : List ListRun} (hruns : ∀ run ∈ runs, run.Listed d) :
    ∀ entry ∈ (Blocks.ofRuns runs).rest.dropLast, entry.2 ≠ [] := by
  have h := (Blocks.foldl_spec (d := d) runs ⟨[], []⟩ ⟨by simp, by simp⟩ hruns).2
  intro entry hentry
  apply h.nonempty entry
  simpa [Blocks.ofRuns, List.dropLast_reverse] using hentry

/-- Blocks without an item leave a list without one. -/
theorem Blocks.ofRuns_items {runs : List ListRun} (hruns : ∀ run ∈ runs, run.Listed d)
    (hfirst : (Blocks.ofRuns runs).first = [])
    (hrest : ∀ entry ∈ (Blocks.ofRuns runs).rest, entry.2 = []) :
    Segment.items (runs.flatMap ListRun.segments) = [] := by
  have hentries : ∀ rest : List (List ListRun × List Term),
      (∀ entry ∈ rest, entry.2 = [] ∧ ∀ run ∈ entry.1, run.isPart = true) →
        Segment.items (restOfBlocks rest) = [] := by
    intro rest h
    apply List.filterMap_eq_nil_iff.mpr
    intro segment hsegment
    simp only [restOfBlocks, List.mem_flatMap, List.mem_append] at hsegment
    obtain ⟨entry, hentry, hin⟩ := hsegment
    obtain ⟨hblock, hparts⟩ := h entry hentry
    rw [hblock] at hin
    cases hin with
    | inl hin =>
      obtain ⟨run, hrun, hin⟩ := hin
      cases run with
      | items xs => cases hparts _ hrun
      | part t =>
        cases List.mem_singleton.mp hin
        rfl
    | inr hin => cases hin
  rw [← Blocks.ofRuns_segments hruns, Blocks.segments, hfirst]
  exact hentries _ fun entry hentry => ⟨hrest entry hentry, fun run hrun =>
    (Blocks.ofRuns_listed hruns entry hentry run hrun).2⟩

theorem parts_runs (runs : List ListRun) :
    (Segment.parts (runs.flatMap ListRun.segments)).length =
      (runs.filter ListRun.isPart).length := by
  induction runs with
  | nil => rfl
  | cons run runs ih =>
    cases run with
    | items xs => simpa [ListRun.segments, ListRun.isPart] using ih
    | part t =>
      rw [List.filter_cons_of_pos rfl, List.length_cons, ← ih]
      simp [ListRun.segments]

end Blocks

section Subject

namespace ListSubject

/-- The position of the first item of each run of items, with the run's index. -/
def starts : Nat → Nat → List ListRun → List (Nat × Nat)
  | _, _, [] => []
  | i, p, .items xs :: runs => (p, i) :: starts (i + 1) (p + xs.length) runs
  | i, p, .part _ :: runs => starts (i + 1) p runs

theorem index_spec (runs : List ListRun) (i : Nat) (subject : ListSubject) :
    index runs i subject =
      { subject with
        itemRuns := subject.itemRuns ++ starts i subject.len runs
        partPoints := subject.partPoints ++
          Segment.points subject.len (runs.flatMap ListRun.segments)
        len := subject.len + (Segment.items (runs.flatMap ListRun.segments)).length } := by
  induction runs generalizing i subject with
  | nil => simp [index, starts, Segment.points]
  | cons run runs ih =>
    cases run with
    | items xs =>
      simp [index, ih, starts, ListRun.segments, Segment.points_append, Nat.add_assoc]
    | part t => simp [index, ih, starts, ListRun.segments, Segment.points]

theorem new_runs (runs : List ListRun) : (new runs).runs = runs := by
  rw [new, index_spec]

theorem le_starts (runs : List ListRun) (i p : Nat) : ∀ entry ∈ starts i p runs, p ≤ entry.1 := by
  induction runs generalizing i p with
  | nil => simp [starts]
  | cons run runs ih =>
    cases run with
    | items xs =>
      intro entry hentry
      cases List.mem_cons.mp hentry with
      | inl heq => rw [heq]
      | inr htail =>
        have h := ih _ _ entry htail
        omega
    | part t => exact ih _ _

/-- The last start up to a position is the start of the run that holds it. -/
theorem starts_find (runs : List ListRun) {i p position : Nat} (hlow : p ≤ position)
    (hhigh : position < p + (Segment.items (runs.flatMap ListRun.segments)).length) :
    ∃ start j xs, ((starts i p runs).takeWhile (·.1 ≤ position)).getLast? = some (start, j) ∧
      i ≤ j ∧ runs[j - i]? = some (.items xs) ∧
      xs[position - start]? =
        (Segment.items (runs.flatMap ListRun.segments))[position - p]? := by
  induction runs generalizing i p with
  | nil =>
    simp at hhigh
    omega
  | cons run runs ih =>
    cases run with
    | items xs =>
      simp only [starts, List.takeWhile_cons, hlow, decide_true, if_true]
      simp only [List.flatMap_cons, ListRun.segments, Segment.items_append,
        Segment.items_map_item, List.length_append] at hhigh ⊢
      by_cases hhere : position < p + xs.length
      · have hnone : (starts (i + 1) (p + xs.length) runs).takeWhile (·.1 ≤ position) = [] := by
          apply List.takeWhile_eq_nil_iff.mpr
          intro hpos
          have h := le_starts runs (i + 1) (p + xs.length) _ (List.getElem_mem hpos)
          simpa using Nat.lt_of_lt_of_le hhere h
        rw [hnone]
        refine ⟨p, i, xs, rfl, le_rfl, by simp, ?_⟩
        rw [List.getElem?_append_left (by omega)]
      · obtain ⟨start, j, ys, hlast, hij, hrun, hitem⟩ :=
          ih (i := i + 1) (p := p + xs.length) (by omega) (by omega)
        refine ⟨start, j, ys, ?_, by omega, ?_, ?_⟩
        · rw [List.getLast?_cons, hlast]
          rfl
        · rw [show j - i = (j - (i + 1)) + 1 by omega, List.getElem?_cons_succ]
          exact hrun
        · rw [hitem, List.getElem?_append_right (by omega), Nat.sub_add_eq]
    | part t =>
      obtain ⟨start, j, ys, hlast, hij, hrun, hitem⟩ :=
        ih (i := i + 1) (p := p) hlow (by simpa [ListRun.segments] using hhigh)
      refine ⟨start, j, ys, hlast, by omega, ?_, ?_⟩
      · rw [show j - i = (j - (i + 1)) + 1 by omega, List.getElem?_cons_succ]
        exact hrun
      · simpa [ListRun.segments] using hitem

/-- The runs between two cut points have the segments of the window between them. -/
theorem cut_segments (low high p : Nat) (runs : List ListRun) :
    (cut low high p runs).flatMap ListRun.segments =
      Segment.window (2 * low) (2 * high + 1) p (runs.flatMap ListRun.segments) := by
  induction runs generalizing p with
  | nil => rfl
  | cons run runs ih =>
    cases run with
    | items xs =>
      rw [List.flatMap_cons, ListRun.segments, Segment.window_append_segments,
        Segment.window_map_item, Segment.items_map_item, ← ih]
      rw [show (2 * high + 1) / 2 = high by omega, show 2 * low / 2 = low by omega]
      simp only [cut]
      split
      · rename_i hcut
        have htake : xs.take (min high (p + xs.length) - p) = xs.take (high - p) := by
          rcases Nat.le_total high (p + xs.length) with h | h
          · rw [Nat.min_eq_left h]
          · rw [Nat.min_eq_right h, List.take_of_length_le (by omega),
              List.take_of_length_le (by omega)]
        rw [List.flatMap_cons, ListRun.segments, htake, show max low p - p = low - p by omega]
      · rename_i hcut
        have hnil : (xs.take (high - p)).drop (low - p) = [] := by
          apply List.drop_eq_nil_of_le
          rw [List.length_take]
          omega
        rw [hnil]
        rfl
    | part t =>
      simp only [cut, List.flatMap_cons, ListRun.segments, List.singleton_append,
        Segment.window]
      split
      · rename_i hcut
        rw [if_pos (by omega), List.flatMap_cons, ListRun.segments, ih]
        rfl
      · rename_i hcut
        rw [if_neg (by omega), ih]

/-- What a subject by position says of the segments of its runs. -/
structure Indexes (subject : ListSubject) (segs : List ListSegment) : Prop where
  runs_segments : subject.runs.flatMap ListRun.segments = segs
  len_eq : subject.len = (Segment.items segs).length
  points_eq : subject.partPoints = Segment.points 0 segs
  item_eq : ∀ position < subject.len, subject.item position = (Segment.items segs)[position]?

theorem new_indexes (runs : List ListRun) :
    Indexes (new runs) (runs.flatMap ListRun.segments) := by
  have hnew := index_spec runs 0 ⟨runs, [], [], 0⟩
  simp only [List.nil_append, Nat.zero_add] at hnew
  have hlen : (new runs).len = (Segment.items (runs.flatMap ListRun.segments)).length := by
    rw [new, hnew]
  constructor
  · rw [new, hnew]
  · exact hlen
  · rw [new, hnew]
  · intro position hposition
    rw [hlen] at hposition
    obtain ⟨start, j, xs, hlast, -, hrun, hitem⟩ :=
      starts_find runs (i := 0) (p := 0) (Nat.zero_le position) (by simpa using hposition)
    rw [item, new, hnew]
    simp only [hlast, Option.bind_eq_bind, Option.bind_some]
    rw [Nat.sub_zero] at hrun hitem
    rw [hrun]
    exact hitem

variable {subject : ListSubject} {segs : List ListSegment}

theorem Indexes.hasPart (h : Indexes subject segs) :
    subject.hasPart = true ↔ Segment.points 0 segs ≠ [] := by
  simp [ListSubject.hasPart, h.points_eq]

/-- A part lies between two cut points exactly when `part_within` finds one. -/
theorem Indexes.partWithin (h : Indexes subject segs) (low high : Nat) :
    subject.partWithin low high = true ↔
      ∃ c ∈ Segment.points 0 segs, low ≤ c ∧ c ≤ high := by
  rw [ListSubject.partWithin, h.points_eq]
  have hsorted := Segment.points_sorted segs 0
  generalize Segment.points 0 segs = points at hsorted
  induction points with
  | nil => simp
  | cons c points ih =>
    obtain ⟨hle, hsorted⟩ := List.pairwise_cons.mp hsorted
    rw [List.dropWhile_cons]
    by_cases hc : c < low
    · rw [if_pos (by simpa using hc)]
      apply (ih hsorted).trans
      constructor
      · rintro ⟨e, he, hrange⟩
        exact ⟨e, List.mem_cons_of_mem _ he, hrange⟩
      · rintro ⟨e, he, hrange⟩
        cases List.mem_cons.mp he with
        | inl heq => omega
        | inr he => exact ⟨e, he, hrange⟩
    · rw [if_neg (by simpa using hc)]
      simp only [List.head?_cons, Option.any_some, decide_eq_true_eq]
      constructor
      · intro hhigh
        exact ⟨c, List.mem_cons_self, by omega, hhigh⟩
      · rintro ⟨e, he, hrange⟩
        cases List.mem_cons.mp he with
        | inl heq => omega
        | inr he => exact (hle e he).trans hrange.2

end ListSubject

end Subject

section Problem

variable [CollectionOrder] {p : Problem} {segs : List ListSegment}

namespace Problem

theorem mem_itemEquations (block : List Term) (start : Nat) (left right : Term) :
    (left, right) ∈ p.itemEquations block start ↔
      ∃ k, block[k]? = some left ∧ p.subject.item (start + k) = some right := by
  simp only [itemEquations, List.mem_filterMap, Option.map_eq_some_iff]
  constructor
  · rintro ⟨⟨item, k⟩, hmem, found, hfound, heq⟩
    cases heq
    exact ⟨k, List.mem_zipIdx_iff_getElem?.mp hmem, hfound⟩
  · rintro ⟨k, hleft, hright⟩
    exact ⟨(left, k), List.mem_zipIdx_iff_getElem?.mpr hleft, right, hright, rfl⟩

variable {d : ListDefinition} {V : Type} (I : Interpretation d V)

/-- The equations hold under an interpretation. -/
def Holds (equations : List (Term × Term)) : Prop :=
  ∀ equation ∈ equations, I.value equation.1 = I.value equation.2

/-- The equations of a block say that its items are the subject's from a position on. -/
theorem itemEquations_hold (hindex : p.subject.Indexes segs) {block : List Term} {start : Nat}
    (hfit : start + block.length ≤ p.subject.len) :
    Holds I (p.itemEquations block start) ↔
      block.map I.value =
        (((Segment.items segs).take (start + block.length)).drop start).map I.value := by
  have hitem : ∀ k, k < block.length →
      p.subject.item (start + k) = (Segment.items segs)[start + k]? :=
    fun k hk => hindex.item_eq _ (by omega)
  have hlen := hindex.len_eq
  constructor
  · intro hholds
    apply List.ext_getElem
    · simp only [List.length_map, List.length_drop, List.length_take]
      omega
    · intro k hleft hright
      simp only [List.length_map] at hleft
      simp only [List.getElem_map, List.getElem_drop, List.getElem_take]
      have hbound : start + k < (Segment.items segs).length := by omega
      apply hholds (block[k], (Segment.items segs)[start + k])
      rw [mem_itemEquations]
      exact ⟨k, List.getElem?_eq_getElem hleft, by rw [hitem k hleft, List.getElem?_eq_getElem]⟩
  · rintro heq ⟨left, right⟩ hmem
    obtain ⟨k, hleft, hright⟩ := (mem_itemEquations block start left right).mp hmem
    obtain ⟨hk, rfl⟩ := List.getElem?_eq_some_iff.mp hleft
    rw [hitem k hk] at hright
    obtain ⟨hk', rfl⟩ := List.getElem?_eq_some_iff.mp hright
    have hat := congrArg (·[k]?) heq
    simpa [List.getElem?_take, List.getElem?_drop, hk, hk'] using hat

theorem blockFits_iff (hindex : p.subject.Indexes segs) (block : List Term) (start : Nat) :
    p.blockFits block start = true ↔
      start + block.length ≤ p.subject.len ∧
        (∀ c ∈ Segment.points 0 segs, ¬ (start < c ∧ c < start + block.length)) ∧
          ∀ equation ∈ p.itemEquations block start,
            p.itemMatches equation.1 equation.2 = true := by
  have hwithin : (1 < block.length &&
        p.subject.partWithin (start + 1) (start + block.length - 1)) = false ↔
      ∀ c ∈ Segment.points 0 segs, ¬ (start < c ∧ c < start + block.length) := by
    rw [Bool.and_eq_false_iff, Bool.eq_false_iff (b := p.subject.partWithin _ _), ne_eq,
      hindex.partWithin]
    constructor
    · intro h c hc hrange
      cases h with
      | inl h =>
        simp only [decide_eq_false_iff_not] at h
        omega
      | inr h => exact h ⟨c, hc, by omega, by omega⟩
    · intro h
      by_cases hlen : 1 < block.length
      · right
        rintro ⟨c, hc, hrange⟩
        exact h c hc (by omega)
      · left
        simpa using hlen
  simp only [blockFits, Bool.and_eq_true, decide_eq_true_eq, Bool.not_eq_true', hwithin,
    List.all_eq_true, and_assoc]

theorem mem_candidates_last (hindex : p.subject.Indexes segs) {earliest len later start : Nat} :
    start ∈ p.candidates earliest len later true ↔
      start + len = p.subject.len ∧ earliest ≤ start ∧
        (0 < len → ∀ c ∈ Segment.points 0 segs, c ≤ start) := by
  have hbound := Segment.points_le_length segs 0
  have hlen := hindex.len_eq
  have hwithin := hindex.partWithin (p.subject.len - len + 1) p.subject.len
  simp only [candidates, if_true]
  split
  · simp only [List.not_mem_nil, false_iff]
    omega
  · split
    · rename_i hcut
      simp only [List.not_mem_nil, false_iff]
      rintro ⟨hend, hearliest, hpoints⟩
      simp only [Bool.or_eq_true, Bool.and_eq_true, decide_eq_true_eq] at hcut
      rcases hcut with hcut | ⟨hpos, hpart⟩
      · omega
      · obtain ⟨c, hc, hrange⟩ := hwithin.mp hpart
        have := hpoints hpos c hc
        omega
    · rename_i hcut
      simp only [Bool.or_eq_true, Bool.and_eq_true, decide_eq_true_eq, not_or, not_and] at hcut
      rw [List.mem_singleton]
      constructor
      · rintro rfl
        refine ⟨by omega, by omega, fun hpos c hc => ?_⟩
        by_contra hlate
        apply hcut.2 hpos
        rw [hwithin]
        have := hbound c hc
        exact ⟨c, hc, by omega, by omega⟩
      · rintro ⟨hend, -, -⟩
        omega

theorem mem_candidates_inner {earliest len later start : Nat} :
    start ∈ p.candidates earliest len later false ↔
      earliest ≤ start ∧ start + len + later ≤ p.subject.len := by
  simp only [candidates, Bool.false_eq_true, if_false]
  split
  · simp only [List.not_mem_nil, false_iff]
    omega
  · rw [List.mem_range'_1]
    omega

theorem mem_placements {earliest : Nat} {parts : List ListRun} {block : List Term}
    {rest : List (List ListRun × List Term)} {starts : List Nat} :
    starts ∈ p.placements earliest ((parts, block) :: rest) ↔
      ∃ start tail, starts = start :: tail ∧
        start ∈ p.candidates earliest block.length
          (rest.map fun entry => entry.2.length).sum rest.isEmpty ∧
        p.blockFits block start = true ∧ tail ∈ p.placements (start + block.length) rest := by
  simp only [placements, List.mem_flatMap, List.mem_filter, List.mem_map]
  constructor
  · rintro ⟨start, ⟨hcandidate, hfits⟩, tail, htail, rfl⟩
    exact ⟨start, tail, rfl, hcandidate, hfits, htail⟩
  · rintro ⟨start, tail, rfl, hcandidate, hfits, htail⟩
    exact ⟨start, ⟨hcandidate, hfits⟩, tail, htail, rfl⟩

/-- A problem whose subject has these segments, and whose head joins lists. -/
structure WellFormed (p : Problem) (segs : List ListSegment) : Prop where
  indexes : p.subject.Indexes segs
  listed : ∀ run ∈ p.subject.runs, run.Listed p.list
  joins : Joins p.list p.head
  isSome : p.head.isSome

theorem cut_listed {low high start : Nat} {runs : List ListRun}
    (h : ∀ run ∈ runs, run.Listed d) :
    ∀ run ∈ ListSubject.cut low high start runs, run.Listed d := by
  induction runs generalizing start with
  | nil => exact h
  | cons run runs ih =>
    have htail : ∀ run ∈ runs, run.Listed d := fun run hrun => h run (List.mem_cons_of_mem _ hrun)
    cases run with
    | items xs =>
      simp only [ListSubject.cut]
      split
      · intro run hrun
        cases List.mem_cons.mp hrun with
        | inl heq =>
          rw [heq]
          trivial
        | inr hrun => exact ih htail run hrun
      · exact ih htail
    | part t =>
      simp only [ListSubject.cut]
      split
      · intro run hrun
        cases List.mem_cons.mp hrun with
        | inl heq =>
          rw [heq]
          exact h _ List.mem_cons_self
        | inr hrun => exact ih htail run hrun
      · exact ih htail

section Branches

variable (J : Interpretation p.list V) (hp : p.WellFormed segs)
include hp

/-- The equation of a run of parts says that it has the elements of the subject's cut. -/
theorem parts_equation {parts : List ListRun} (hparts : ∀ run ∈ parts, run.Listed p.list)
    (low high : Nat) :
    J.value (concatListRuns p.list p.head parts) =
        J.value (concatListRuns p.list p.head
          (ListSubject.cut low high 0 p.subject.runs)) ↔
      J.readAll (parts.flatMap ListRun.segments) =
        J.readAll (Segment.window (2 * low) (2 * high + 1) 0 segs) := by
  have hleft := concatListRuns_denotes hp.joins hp.isSome hparts
  have hcut : ∀ run ∈ ListSubject.cut low high 0 p.subject.runs, run.Listed p.list :=
    cut_listed hp.listed
  have hright := concatListRuns_denotes hp.joins hp.isSome hcut
  rw [ListSubject.cut_segments, hp.indexes.runs_segments] at hright
  exact Interpretation.Denotes.value_eq_iff J hleft hright

/-- Items with no part between them have the elements of the window that they fill. -/
theorem block_window {a b : Nat} {block : List Term} {start : Nat}
    (hfit : start + block.length ≤ p.subject.len)
    (hholds : Holds J (p.itemEquations block start)) (ha : a / 2 = start)
    (hb : b / 2 = start + block.length)
    (hpoints : ∀ c ∈ Segment.points 0 segs, ¬ (a ≤ 2 * c ∧ 2 * c < b)) :
    block.map J.value = J.readAll (Segment.window a b 0 segs) := by
  rw [(itemEquations_hold J hp.indexes hfit).mp hholds, Segment.window_of_no_part segs 0 hpoints,
    J.readAll_map_item, ha, hb]
  rfl

theorem placements_sound {rest : List (List ListRun × List Term)} (hne : rest ≠ [])
    (hlisted : ∀ entry ∈ rest, ∀ run ∈ entry.1, run.Listed p.list)
    (hnonempty : ∀ entry ∈ rest.dropLast, entry.2 ≠ []) {earliest : Nat} {starts : List Nat}
    (hstarts : starts ∈ p.placements earliest rest)
    (hholds : Holds J (p.branchRest earliest rest starts)) :
    J.readAll (restOfBlocks rest) =
      J.readAll (Segment.window (2 * earliest) (2 * p.subject.len + 1) 0 segs) := by
  induction rest generalizing earliest starts with
  | nil => exact absurd rfl hne
  | cons entry rest ih =>
    obtain ⟨parts, block⟩ := entry
    obtain ⟨start, tail, rfl, hcandidate, hfits, htail⟩ := mem_placements.mp hstarts
    obtain ⟨hfit, hpoints, -⟩ := (blockFits_iff hp.indexes block start).mp hfits
    simp only [branchRest, Holds, List.forall_mem_cons, List.forall_mem_append] at hholds
    obtain ⟨hparts, hitems, hrest⟩ := hholds
    rw [parts_equation J hp (hlisted _ List.mem_cons_self)] at hparts
    have hentry : J.readAll (restOfBlocks ((parts, block) :: rest)) =
        J.readAll (parts.flatMap ListRun.segments) ++ block.map J.value ++
          J.readAll (restOfBlocks rest) := by
      simp [restOfBlocks]
    cases rest with
    | nil =>
      -- The last block ends at the subject's last item, with no part after its first item.
      obtain ⟨hend, hearliest, hlate⟩ := (mem_candidates_last hp.indexes).mp hcandidate
      have hblock := block_window J hp (a := 2 * start + 1) (b := 2 * p.subject.len + 1) hfit
        hitems (by omega) (by omega) (by
          intro c hc hrange
          by_cases hlen : 0 < block.length
          · have := hlate hlen c hc
            omega
          · have := Segment.points_le_length segs 0 c hc
            have := hp.indexes.len_eq
            omega)
      rw [hentry, hparts, hblock, ← J.readAll_append,
        Segment.window_append segs 0 (by omega) (by omega)]
      exact List.append_nil _
    | cons next rest =>
      obtain ⟨hearliest, hlatest⟩ := mem_candidates_inner.mp hcandidate
      have hpos : 0 < block.length :=
        List.length_pos_iff.mpr (hnonempty (parts, block) (by simp))
      have hblock := block_window J hp (a := 2 * start + 1) (b := 2 * (start + block.length)) hfit
        hitems (by omega) (by omega) (by
          intro c hc hrange
          exact hpoints c hc ⟨by omega, by omega⟩)
      have hnext := ih (by simp)
        (fun entry hentry => hlisted entry (List.mem_cons_of_mem _ hentry))
        (fun entry hentry => hnonempty entry (by
          rw [List.dropLast_cons_of_ne_nil (by simp)]
          exact List.mem_cons_of_mem _ hentry)) htail hrest
      rw [hentry, hparts, hblock, hnext, ← J.readAll_append, ← J.readAll_append,
        Segment.window_append segs 0 (by omega) (by omega),
        Segment.window_append segs 0 (by omega) (by omega)]

/-- A branch that holds makes the elements of the two lists equal. -/
theorem enumerate_sound {blocks : Blocks} (hne : blocks.rest ≠ [])
    (hlisted : ∀ entry ∈ blocks.rest, ∀ run ∈ entry.1, run.Listed p.list)
    (hnonempty : ∀ entry ∈ blocks.rest.dropLast, entry.2 ≠ []) {starts : List Nat}
    (hstarts : starts ∈ p.enumerate blocks) (hholds : Holds J (p.branch blocks starts)) :
    J.readAll blocks.segments = J.readAll segs := by
  unfold enumerate at hstarts
  split at hstarts
  · cases hstarts
  · rename_i hahead
    split at hstarts
    · rename_i hfits
      obtain ⟨hfit, hpoints, -⟩ := (blockFits_iff hp.indexes _ _).mp hfits
      simp only [branch, Holds, List.forall_mem_append] at hholds
      have hrest := placements_sound J hp hne hlisted hnonempty hstarts hholds.2
      have hfirst := block_window J hp (a := 0) (b := 2 * blocks.first.length) hfit hholds.1
        rfl (by omega) (by
          intro c hc hrange
          by_cases hzero : c = 0
          · apply hahead
            rw [Bool.and_eq_true, hp.indexes.partWithin]
            exact ⟨by simp only [decide_eq_true_eq]; omega, c, hc, by omega, by omega⟩
          · exact hpoints c hc ⟨by omega, by omega⟩)
      rw [Blocks.segments, J.readAll_append, J.readAll_map_item, hfirst, hrest, ← J.readAll_append,
        Segment.window_append segs 0 (by omega) (by omega),
        Segment.window_whole segs 0 le_rfl]
      have := hp.indexes.len_eq
      omega
    · cases hstarts

/-- A subject without parts is its items. -/
theorem window_of_items (hnone : Segment.points 0 segs = []) (a b : Nat) :
    J.readAll (Segment.window a b 0 segs) =
      (((Segment.items segs).take (b / 2)).drop (a / 2)).map J.value := by
  rw [Segment.window_of_no_part segs 0 (by simp [hnone]), J.readAll_map_item]
  rfl

/-- A block fits where its items have the values of the subject's items, if the subject has no
part and a match that fails is of items that differ. -/
theorem blockFits_of_values (hnone : Segment.points 0 segs = [])
    (hfails : ∀ a b, p.itemMatches a b = false → J.value a ≠ J.value b) {block : List Term}
    {start : Nat} (hfit : start + block.length ≤ p.subject.len)
    (hholds : Holds J (p.itemEquations block start)) : p.blockFits block start = true := by
  rw [blockFits_iff hp.indexes]
  refine ⟨hfit, by simp [hnone], fun equation hequation => ?_⟩
  by_contra hmatch
  exact hfails _ _ (Bool.eq_false_iff.mpr hmatch) (hholds equation hequation)

theorem sum_le_readAll (rest : List (List ListRun × List Term)) :
    (rest.map fun entry => entry.2.length).sum ≤ (J.readAll (restOfBlocks rest)).length := by
  induction rest with
  | nil => exact Nat.zero_le _
  | cons entry rest ih =>
    have hentry : J.readAll (restOfBlocks (entry :: rest)) =
        J.readAll (entry.1.flatMap ListRun.segments) ++ entry.2.map J.value ++
          J.readAll (restOfBlocks rest) := by
      simp [restOfBlocks]
    rw [hentry]
    simp only [List.map_cons, List.sum_cons, List.length_append, List.length_map]
    omega

theorem placements_complete (hnone : Segment.points 0 segs = [])
    (hfails : ∀ a b, p.itemMatches a b = false → J.value a ≠ J.value b)
    {rest : List (List ListRun × List Term)}
    (hlisted : ∀ entry ∈ rest, ∀ run ∈ entry.1, run.Listed p.list) {earliest : Nat}
    (hearliest : earliest ≤ p.subject.len)
    (hvalues : J.readAll (restOfBlocks rest) =
      ((Segment.items segs).drop earliest).map J.value) :
    ∃ starts ∈ p.placements earliest rest, Holds J (p.branchRest earliest rest starts) := by
  induction rest generalizing earliest with
  | nil =>
    refine ⟨[], by simp [placements], ?_⟩
    intro equation hequation
    cases hequation
  | cons entry rest ih =>
    obtain ⟨parts, block⟩ := entry
    have hlen := hp.indexes.len_eq
    have hlater := sum_le_readAll J hp rest
    have hentry : J.readAll (restOfBlocks ((parts, block) :: rest)) =
        J.readAll (parts.flatMap ListRun.segments) ++
          (block.map J.value ++ J.readAll (restOfBlocks rest)) := by
      simp [restOfBlocks]
    rw [hentry] at hvalues
    generalize hk : (J.readAll (parts.flatMap ListRun.segments)).length = k at hvalues
    have htotal := congrArg List.length hvalues
    simp only [List.length_append, List.length_map, List.length_drop, hk] at htotal
    -- The block starts where the value of the parts ends.
    have hparts : J.readAll (parts.flatMap ListRun.segments) =
        (((Segment.items segs).take (earliest + k)).drop earliest).map J.value := by
      have h := congrArg (List.take k) hvalues
      rw [List.take_left' hk, ← List.map_take] at h
      rw [h, List.drop_take, Nat.add_sub_cancel_left]
    have htail : block.map J.value ++ J.readAll (restOfBlocks rest) =
        ((Segment.items segs).drop (earliest + k)).map J.value := by
      have h := congrArg (List.drop k) hvalues
      rw [List.drop_left' hk, ← List.map_drop, List.drop_drop] at h
      exact h
    have hblock : block.map J.value = (((Segment.items segs).take
        (earliest + k + block.length)).drop (earliest + k)).map J.value := by
      have h := congrArg (List.take block.length) htail
      rw [List.take_left' (List.length_map _), ← List.map_take] at h
      rw [h, List.drop_take, Nat.add_sub_cancel_left]
    have hrest : J.readAll (restOfBlocks rest) =
        ((Segment.items segs).drop (earliest + k + block.length)).map J.value := by
      have h := congrArg (List.drop block.length) htail
      rw [List.drop_left' (List.length_map _), ← List.map_drop, List.drop_drop] at h
      exact h
    have hfit : earliest + k + block.length ≤ p.subject.len := by omega
    have hitems := (itemEquations_hold J hp.indexes hfit).mpr hblock
    obtain ⟨tail, hstarts, hholds⟩ := ih
      (fun entry hentry => hlisted entry (List.mem_cons_of_mem _ hentry)) hfit hrest
    refine ⟨(earliest + k) :: tail, ?_, ?_⟩
    · refine mem_placements.mpr ⟨_, _, rfl, ?_, blockFits_of_values J hp hnone hfails hfit hitems,
        hstarts⟩
      cases rest with
      | nil =>
        rw [List.isEmpty_nil, mem_candidates_last hp.indexes]
        have hend : (J.readAll (restOfBlocks [])).length = 0 := rfl
        exact ⟨by omega, by omega, by simp [hnone]⟩
      | cons next rest =>
        rw [List.isEmpty_cons, mem_candidates_inner]
        omega
    · simp only [branchRest, Holds, List.forall_mem_cons, List.forall_mem_append]
      refine ⟨?_, hitems, hholds⟩
      rw [parts_equation J hp (hlisted _ List.mem_cons_self), window_of_items J hp hnone, hparts,
        show (2 * (earliest + k) + 1) / 2 = earliest + k by omega,
        show 2 * earliest / 2 = earliest by omega]

/-- Where the subject has no part, equal elements make a branch hold. -/
theorem enumerate_complete (hnone : Segment.points 0 segs = [])
    (hfails : ∀ a b, p.itemMatches a b = false → J.value a ≠ J.value b) {blocks : Blocks}
    (hlisted : ∀ entry ∈ blocks.rest, ∀ run ∈ entry.1, run.Listed p.list)
    (hvalues : J.readAll blocks.segments = J.readAll segs) :
    ∃ starts ∈ p.enumerate blocks, Holds J (p.branch blocks starts) := by
  have hlen := hp.indexes.len_eq
  have hsubject : J.readAll segs = (Segment.items segs).map J.value := by
    have h := window_of_items J hp hnone 0 (2 * (Segment.items segs).length + 1)
    rw [Segment.window_whole segs 0 le_rfl (by omega),
      show (2 * (Segment.items segs).length + 1) / 2 = (Segment.items segs).length by omega,
      List.take_length] at h
    exact h
  rw [hsubject, Blocks.segments, J.readAll_append, J.readAll_map_item] at hvalues
  have htotal := congrArg List.length hvalues
  simp only [List.length_append, List.length_map] at htotal
  have hfirst : blocks.first.map J.value =
      (((Segment.items segs).take (0 + blocks.first.length)).drop 0).map J.value := by
    have h := congrArg (List.take blocks.first.length) hvalues
    rw [List.take_left' (List.length_map _), ← List.map_take] at h
    rw [h, Nat.zero_add, List.drop_zero]
  have hrest : J.readAll (restOfBlocks blocks.rest) =
      ((Segment.items segs).drop blocks.first.length).map J.value := by
    have h := congrArg (List.drop blocks.first.length) hvalues
    rw [List.drop_left' (List.length_map _), ← List.map_drop] at h
    exact h
  have hfit : 0 + blocks.first.length ≤ p.subject.len := by omega
  have hitems := (itemEquations_hold J hp.indexes hfit).mpr hfirst
  have hearliest : blocks.first.length ≤ p.subject.len := by omega
  obtain ⟨starts, hstarts, hholds⟩ :=
    placements_complete J hp hnone hfails hlisted hearliest hrest
  refine ⟨starts, ?_, ?_⟩
  · have hahead : p.subject.partWithin 0 0 = false := by
      rw [Bool.eq_false_iff, ne_eq, hp.indexes.partWithin]
      simp [hnone]
    simp only [enumerate, hahead, Bool.and_false, Bool.false_eq_true, if_false]
    rw [if_pos (blockFits_of_values J hp hnone hfails hfit hitems)]
    exact hstarts
  · simp only [branch, Holds, List.forall_mem_append]
    exact ⟨hitems, hholds⟩

end Branches

end Problem

end Problem

section Expansion

variable [CollectionOrder] {d : ListDefinition}

theorem listDefinitionOf_of_parts {t : Term} (h : Listed d t)
    (hparts : 2 ≤ (Segment.parts (segments d t)).length) : listDefinitionOf t = some d := by
  cases h with
  | items heads => rfl
  | middle heads tails h => rfl
  | concat sortArguments hname hsymbol hleft hright => simp [listDefinitionOf, hsymbol, hname]
  | part hpart hsort => simp [segments_part hpart] at hparts

/-- The expansion of two lists: its branches are those of the problem that the two lists pose,
and the equation itself where the subject has a part. -/
theorem expansion_eq (itemMatches : Term → Term → Bool) {pattern subject : Term}
    (hpattern : Listed d pattern) (hsubject : Listed d subject)
    (hlist : listDefinitionOf subject = some d)
    (hparts : 2 ≤ (Segment.parts (segments d pattern)).length)
    (hitems : Segment.items (segments d pattern) ≠ []) :
    ∃ (p : Problem) (blocks : Blocks), p.list = d ∧ p.itemMatches = itemMatches ∧
      p.WellFormed (segments d subject) ∧ blocks.segments = segments d pattern ∧
      blocks.rest ≠ [] ∧ (∀ entry ∈ blocks.rest, ∀ run ∈ entry.1, run.Listed d) ∧
      (∀ entry ∈ blocks.rest.dropLast, entry.2 ≠ []) ∧
      listImplicationExpansion itemMatches pattern subject =
        some (if p.subject.hasPart then
          (p.enumerate blocks).map (p.branch blocks) ++ [[(pattern, subject)]]
        else (p.enumerate blocks).map (p.branch blocks)) := by
  have hruns := flatten_segments hpattern [] none
  have hempty : ∀ run ∈ ([] : List ListRun), run.Listed d := by simp
  have halone : Joins d none := by rintro entry ⟨⟩
  have hlisted := flatten_listed hpattern none hempty
  have hjoins := flatten_joins hpattern [] halone
  have hsome := flatten_head_of_parts hpattern [] none hparts
  have hsubjectRuns := flatten_segments hsubject [] (flattenListRuns d pattern ([], none)).2
  simp only [List.flatMap_nil, List.nil_append] at hruns hsubjectRuns
  have hblocks : (Blocks.ofRuns (flattenListRuns d pattern ([], none)).1).segments =
      segments d pattern := (Blocks.ofRuns_segments hlisted).trans hruns
  refine ⟨⟨d, (flattenListRuns d subject ([], (flattenListRuns d pattern ([], none)).2)).2,
      ListSubject.new
        (flattenListRuns d subject ([], (flattenListRuns d pattern ([], none)).2)).1,
      itemMatches⟩, Blocks.ofRuns (flattenListRuns d pattern ([], none)).1, rfl, rfl, ?_, hblocks,
    ?_, fun entry hentry run hrun => (Blocks.ofRuns_listed hlisted entry hentry run hrun).1,
    Blocks.ofRuns_nonempty hlisted, ?_⟩
  · constructor
    · rw [← hsubjectRuns]
      exact ListSubject.new_indexes _
    · rw [ListSubject.new_runs]
      exact flatten_listed hsubject _ hempty
    · exact flatten_joins hsubject [] hjoins
    · exact flatten_head_isSome hsubject [] hsome
  · intro hrest
    rw [← hblocks, Blocks.segments, hrest] at hparts
    simp [restOfBlocks] at hparts
  · have hcount : ¬ ((flattenListRuns d pattern ([], none)).1.filter ListRun.isPart).length < 2 := by
      rw [← parts_runs, hruns]
      omega
    have hblock : ¬ ((Blocks.ofRuns (flattenListRuns d pattern ([], none)).1).first = [] ∧
        ∀ entry ∈ (Blocks.ofRuns (flattenListRuns d pattern ([], none)).1).rest,
          entry.2 = []) := by
      rintro ⟨hfirst, hrest⟩
      apply hitems
      rw [← hruns]
      exact Blocks.ofRuns_items hlisted hfirst hrest
    simp only [listImplicationExpansion, listDefinitionOf_of_parts hpattern hparts, hlist,
      Option.bind_eq_bind, Option.bind_some, ne_eq, not_true_eq_false, if_false]
    rw [if_neg]
    simpa [hcount] using hblock

/-- For a destination list with two or more parts and an item, and any current list, some branch
of the expansion holds exactly when the two lists have the same elements, whatever values the
items have and whatever sequences the parts are, as long as a failed match is of items that
differ. Where the current list has no part, no branch at all means that they never do. -/
theorem listImplicationExpansion_iff (itemMatches : Term → Term → Bool) {pattern subject : Term}
    (hpattern : Listed d pattern) (hsubject : Listed d subject)
    (hlist : listDefinitionOf subject = some d)
    (hparts : 2 ≤ (Segment.parts (segments d pattern)).length)
    (hitems : Segment.items (segments d pattern) ≠ []) :
    ∃ branches, listImplicationExpansion itemMatches pattern subject = some branches ∧
      ∀ (V : Type) (I : Interpretation d V),
        (∀ a b, itemMatches a b = false → I.value a ≠ I.value b) →
        ((∃ branch ∈ branches, Problem.Holds I branch) ↔
          I.elements pattern = I.elements subject) ∧
        (Segment.parts (segments d subject) = [] → branches = [] →
          I.elements pattern ≠ I.elements subject) := by
  obtain ⟨p, blocks, rfl, rfl, hp, hblocks, hne, hlisted, hnonempty, hexpansion⟩ :=
    expansion_eq itemMatches hpattern hsubject hlist hparts hitems
  have hpart : p.subject.hasPart = true ↔ Segment.parts (segments p.list subject) ≠ [] := by
    rw [hp.indexes.hasPart, ← List.length_pos_iff, Segment.length_points, List.length_pos_iff]
  refine ⟨_, hexpansion, fun V I hfails => ?_⟩
  have helements : I.elements pattern = I.elements subject ↔
      I.readAll blocks.segments = I.readAll (segments p.list subject) := by
    rw [I.elements_eq hpattern, I.elements_eq hsubject, hblocks]
  have hsound : ∀ starts ∈ p.enumerate blocks, Problem.Holds I (p.branch blocks starts) →
      I.elements pattern = I.elements subject := fun starts hstarts hholds =>
    helements.mpr (Problem.enumerate_sound I hp hne hlisted hnonempty hstarts hholds)
  have hcomplete : Segment.parts (segments p.list subject) = [] →
      I.elements pattern = I.elements subject →
      ∃ starts ∈ p.enumerate blocks, Problem.Holds I (p.branch blocks starts) := by
    intro hnone hequal
    apply Problem.enumerate_complete I hp _ hfails hlisted (helements.mp hequal)
    rw [← List.length_eq_zero_iff, Segment.length_points, hnone]
    rfl
  have hequation : Problem.Holds I [(pattern, subject)] ↔
      I.elements pattern = I.elements subject := by
    simp [Problem.Holds, I.value_eq_iff hpattern hsubject]
  by_cases hnone : Segment.parts (segments p.list subject) = []
  · rw [if_neg (by simpa [hpart] using hnone)]
    simp only [List.mem_map, exists_exists_and_eq_and, List.map_eq_nil_iff]
    refine ⟨⟨?_, hcomplete hnone⟩, ?_⟩
    · rintro ⟨starts, hstarts, hholds⟩
      exact hsound starts hstarts hholds
    · intro _ hnil hequal
      obtain ⟨starts, hstarts, -⟩ := hcomplete hnone hequal
      rw [hnil] at hstarts
      cases hstarts
  · rw [if_pos (hpart.mpr hnone)]
    refine ⟨⟨?_, ?_⟩, fun h => absurd h hnone⟩
    · rintro ⟨branch, hbranch, hholds⟩
      cases List.mem_append.mp hbranch with
      | inl hplaced =>
        obtain ⟨starts, hstarts, rfl⟩ := List.mem_map.mp hplaced
        exact hsound starts hstarts hholds
      | inr hlast =>
        cases List.mem_singleton.mp hlast
        exact hequation.mp hholds
    · intro hequal
      exact ⟨[(pattern, subject)], List.mem_append_right _ (List.mem_singleton_self _),
        hequation.mpr hequal⟩

end Expansion

def sequences : ListDefinition :=
  ⟨⟨".List", "ListItem", "_List_"⟩, Term.simpleSort "SortKItem", "SortList"⟩

/-- An item between two variables of the list sort. -/
def itemBetween (item : Term) : Term :=
  .application ⟨"_List_", [], [Term.simpleSort "SortList", Term.simpleSort "SortList"],
    Term.simpleSort "SortList",
    { SymbolAttributes.ofConstructor with collection := some (.list sequences) }⟩ []
    [.list sequences [] (some (.var ⟨.element, Term.simpleSort "SortList", "X"⟩, [item])),
      .var ⟨.element, Term.simpleSort "SortList", "Y"⟩]

theorem listImplicationExpansion_iff_itemBetween :
    ∃ branches, @listImplicationExpansion ⟨fun _ _ => true, fun _ _ => true⟩ (fun _ _ => true)
        (itemBetween (.domainValue (Term.simpleSort "SortKItem") []))
        (.list sequences [.domainValue (Term.simpleSort "SortKItem") [1]] none) = some branches ∧
      ∀ (V : Type) (I : Interpretation sequences V),
        (∀ a b, (fun _ _ : Term => true) a b = false → I.value a ≠ I.value b) →
        ((∃ branch ∈ branches, Problem.Holds I branch) ↔
          I.elements (itemBetween (.domainValue (Term.simpleSort "SortKItem") [])) =
            I.elements
              (.list sequences [.domainValue (Term.simpleSort "SortKItem") [1]] none)) ∧
        (Segment.parts (segments sequences
            (.list sequences [.domainValue (Term.simpleSort "SortKItem") [1]] none)) = [] →
          branches = [] →
          I.elements (itemBetween (.domainValue (Term.simpleSort "SortKItem") [])) ≠
            I.elements
              (.list sequences [.domainValue (Term.simpleSort "SortKItem") [1]] none)) := by
  have hlisted : ∀ item, Listed sequences (itemBetween item) := fun item =>
    .concat [] rfl rfl (.middle [] _ (.part trivial rfl)) (.part trivial rfl)
  exact @listImplicationExpansion_iff ⟨fun _ _ => true, fun _ _ => true⟩ sequences
    (fun _ _ => true) _ _ (hlisted _) (.items _) rfl
    (by simp [itemBetween, segments, sequences]) (by simp [itemBetween, segments, sequences])

end KRust.Backend.ListImplication
