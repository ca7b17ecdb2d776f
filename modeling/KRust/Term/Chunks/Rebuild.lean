import KRust.Term.Chunks.SeekLaws
import Mathlib.Data.List.Sort

/-!
Edits of an ordered sequence: an item is inserted after those not above it, and a
rebuild takes out the changed items that are no longer in order and puts them back
where the order places them. A rebuild gives the sorted list of the changed items.
-/

set_option linter.unusedSectionVars false

namespace KRust.Term.Chunks

open KRust.Lib KRust.Lib.Partial

variable {I K S G σ : Type} {B : Branching}

section Definitions

variable [Item I K S G] [LinearOrder K] [LinearOrder I] [Summary S] [Group G]

/-- `insert`. -/
def insert (tree : Chunked I S G B) (item : I) : Option (Chunked I S G B) := do
  let position ← partitionPoint tree fun other => decide (other ≤ item)
  insertAt tree position item

/-- The positions after `last` that are adjacent to it and to one another, and the
positions after these. -/
def adjacentRun : Nat → List Nat → List Nat × List Nat
  | _, [] => ([], [])
  | last, next :: rest =>
    if next = last + 1 then
      let (run, rest) := adjacentRun next rest
      (next :: run, rest)
    else ([], next :: rest)

theorem adjacentRun_length (last : Nat) (positions : List Nat) :
    (adjacentRun last positions).2.length ≤ positions.length := by
  induction positions generalizing last with
  | nil => simp [adjacentRun]
  | cons next rest ih =>
    unfold adjacentRun
    split
    · have := ih next
      simp only [List.length_cons]
      omega
    · simp

/-- The positions of a run whose items do not stay between the last item kept before
them, at first `low`, and `high`. -/
def siftRun (tree : Chunked I S G B) (high : Option I) : Option I → List Nat → Option (List Nat)
  | _, [] => some []
  | low, position :: rest => do
    let item ← (← get tree position)
    if low.all (fun low => decide (low ≤ item)) && high.all (fun high => decide (item ≤ high)) then
      siftRun tree high (some item) rest
    else return position :: (← siftRun tree high low rest)

/-- `out_of_order`. -/
def outOfOrder (tree : Chunked I S G B) : List Nat → Option (List Nat)
  | [] => some []
  | first :: rest => do
    let run := adjacentRun first rest
    let low ← (if first = 0 then some none else get tree (first - 1) : Option _)
    let high ← get tree ((first :: run.1).getLast (by simp) + 1)
    let out ← siftRun tree high low (first :: run.1)
    return out ++ (← outOfOrder tree run.2)
termination_by positions => positions.length
decreasing_by
  have := adjacentRun_length first rest
  simp only [List.length_cons]
  omega

/-- The removals of `rebuild_where`: one more item taken out. -/
def takeOut (removed : Chunked I S G B × List I) (position : Nat) :
    Option (Chunked I S G B × List I) := do
  let (rest, item) ← removeAt removed.1 position
  return (rest, removed.2 ++ [item])

/-- `rebuild_where`, with the state the closure ends in. -/
def rebuildWhere (tree : Chunked I S G B) (seek : Seek I S G) (change : σ → I → Option I × σ)
    (state : σ) : Option (Chunked I S G B × σ) := do
  let (tree, state, changed) ← mapWhereRecording tree seek change state
  let out ← outOfOrder tree changed
  let (tree, moved) ← out.reverse.foldlM takeOut (tree, [])
  return (← moved.foldlM insert tree, state)

end Definitions

/-! The items that stay, on the list of the marks. -/

section Stay

variable [LinearOrder I]

/-- Whether each item stays, `low` being the last one that stayed before. -/
def stays : Option I → List (I × Option I) → List Bool
  | _, [] => []
  | _, (x, none) :: rest => true :: stays (some x) rest
  | low, (_, some y) :: rest =>
    if low.all (fun low => decide (low ≤ y)) &&
        ((rest.filter (·.2.isNone)).head?.map Prod.fst).all (fun high => decide (y ≤ high)) then
      true :: stays (some y) rest
    else false :: stays low rest

/-- The items flagged to stay. -/
def kept {α : Type} (xs : List α) (flags : List Bool) : List α :=
  ((xs.zip flags).filter Prod.snd).map Prod.fst

/-- The items flagged to be taken out. -/
def taken {α : Type} (xs : List α) (flags : List Bool) : List α :=
  ((xs.zip flags).filter fun entry => !entry.2).map Prod.fst

/-- The positions of the items taken out, the first flag being at `position`. -/
def takenFrom (position : Nat) : List Bool → List Nat
  | [] => []
  | true :: rest => takenFrom (position + 1) rest
  | false :: rest => position :: takenFrom (position + 1) rest

theorem length_stays (low : Option I) (ms : List (I × Option I)) :
    (stays low ms).length = ms.length := by
  induction ms generalizing low with
  | nil => rfl
  | cons m ms ih =>
    obtain ⟨x, new⟩ := m
    cases new with
    | none => simp [stays, ih]
    | some y =>
      simp only [stays]
      split <;> simp [ih]

theorem kept_taken_perm {α : Type} (xs : List α) (flags : List Bool) (hlen : flags.length = xs.length) :
    (kept xs flags ++ taken xs flags).Perm xs := by
  induction xs generalizing flags with
  | nil => simp [kept, taken]
  | cons x xs ih =>
    cases flags with
    | nil => simp at hlen
    | cons flag flags =>
      have hrest := ih flags (by simpa using hlen)
      cases flag with
      | true =>
        simp only [kept, taken] at hrest ⊢
        simpa using hrest
      | false =>
        simp only [kept, taken] at hrest ⊢
        simp only [List.zip_cons_cons, Bool.false_eq_true, not_false_eq_true,
          List.filter_cons_of_neg, Bool.not_false, List.filter_cons_of_pos, List.map_cons]
        exact List.perm_middle.trans (hrest.cons x)

/-- The unchanged items. -/
def unchangedItems (ms : List (I × Option I)) : List I := (ms.filter (·.2.isNone)).map Prod.fst

/-- What stays is sorted, from the last item that stayed before on, when the
unchanged items are. -/
theorem kept_sorted (low : Option I) (ms : List (I × Option I))
    (hsorted : (unchangedItems ms).Pairwise (· ≤ ·))
    (hlow : ∀ l ∈ low, ∀ x ∈ unchangedItems ms, l ≤ x) :
    (kept (newItems ms) (stays low ms)).Pairwise (· ≤ ·) ∧
      ∀ l ∈ low, ∀ x ∈ kept (newItems ms) (stays low ms), l ≤ x := by
  induction ms generalizing low with
  | nil => simp [stays, kept, newItems]
  | cons m ms ih =>
    obtain ⟨x, new⟩ := m
    cases new with
    | none =>
      simp only [unchangedItems, Option.isNone_none, List.filter_cons_of_pos, List.map_cons,
        List.pairwise_cons, List.mem_cons, forall_eq_or_imp] at hsorted hlow
      obtain ⟨hkept, hbelow⟩ := ih (some x) hsorted.2 (by
        rintro l hl y hy
        obtain rfl : x = l := by simpa using hl
        exact hsorted.1 y hy)
      have hcons : kept (newItems ((x, none) :: ms)) (stays low ((x, none) :: ms)) =
          x :: kept (newItems ms) (stays (some x) ms) := by
        simp [kept, newItems, stays]
      rw [hcons]
      refine ⟨List.pairwise_cons.mpr ⟨fun y hy => hbelow x rfl y hy, hkept⟩, ?_⟩
      intro l hl y hy
      have hlx := (hlow l hl).1
      rcases List.mem_cons.mp hy with rfl | hy
      · exact hlx
      · exact hlx.trans (hbelow x rfl y hy)
    | some y =>
      have hrest : unchangedItems ((x, some y) :: ms) = unchangedItems ms := by
        simp [unchangedItems]
      rw [hrest] at hsorted hlow
      by_cases hstay : low.all (fun low => decide (low ≤ y)) &&
          ((ms.filter (·.2.isNone)).head?.map Prod.fst).all (fun high => decide (y ≤ high))
      · have hcons : kept (newItems ((x, some y) :: ms)) (stays low ((x, some y) :: ms)) =
            y :: kept (newItems ms) (stays (some y) ms) := by
          simp only [stays, if_pos hstay]
          simp [kept, newItems]
        obtain ⟨hlowY, hhigh⟩ := Bool.and_eq_true_iff.mp hstay
        -- Not above the next unchanged item, so not above any after it.
        have hunder : ∀ z ∈ unchangedItems ms, y ≤ z := by
          intro z hz
          rw [← List.head?_map, ← unchangedItems] at hhigh
          cases hu : unchangedItems ms with
          | nil => simp [hu] at hz
          | cons u us =>
            rw [hu] at hz hhigh hsorted
            have hyu : y ≤ u := by simpa using hhigh
            rcases List.mem_cons.mp hz with rfl | hz
            · exact hyu
            · exact hyu.trans (List.rel_of_pairwise_cons hsorted hz)
        obtain ⟨hkept, hbelow⟩ := ih (some y) hsorted (by
          rintro l hl z hz
          obtain rfl : y = l := by simpa using hl
          exact hunder z hz)
        rw [hcons]
        refine ⟨List.pairwise_cons.mpr ⟨fun z hz => hbelow y rfl z hz, hkept⟩, ?_⟩
        intro l hl z hz
        have hly : l ≤ y := by
          obtain rfl : low = some l := hl
          simpa using hlowY
        rcases List.mem_cons.mp hz with rfl | hz
        · exact hly
        · exact hly.trans (hbelow y rfl z hz)
      · have hcons : kept (newItems ((x, some y) :: ms)) (stays low ((x, some y) :: ms)) =
            kept (newItems ms) (stays low ms) := by
          simp only [stays, if_neg hstay]
          simp [kept, newItems]
        rw [hcons]
        exact ih low hsorted hlow

end Stay

section Laws

variable {M A : Type} [Item I K S G] [LinearOrder K] [LinearOrder I] [Summary S] [Group G]
  [AddMonoid M] [AddCancelCommMonoid A] [LawfulSummary S M] [LawfulGroup G A]
  {tree : Chunked I S G B}

theorem le_of_mem_changedFrom (position : Nat) (ms : List (I × Option I)) :
    ∀ p ∈ changedFrom position ms, position ≤ p := by
  induction ms generalizing position with
  | nil => simp [changedFrom]
  | cons m ms ih =>
    obtain ⟨x, new⟩ := m
    intro p hp
    cases new with
    | none =>
      have := ih (position + 1) p hp
      omega
    | some y =>
      rcases List.mem_cons.mp hp with rfl | hp
      · exact le_rfl
      · have := ih (position + 1) p hp
        omega

/-- The replaced items of a run and what comes after it: nothing, or an unchanged
item. -/
structure IsRun (run rest : List (I × Option I)) : Prop where
  changed : ∀ m ∈ run, m.2 ≠ none
  stop : ∀ m ∈ rest.head?, m.2 = none

theorem exists_run (ms : List (I × Option I)) : ∃ run rest, ms = run ++ rest ∧ IsRun run rest := by
  refine ⟨ms.takeWhile (·.2.isSome), ms.dropWhile (·.2.isSome),
    List.takeWhile_append_dropWhile.symm, ⟨fun m hm => ?_, fun m hm => ?_⟩⟩
  · have := List.mem_takeWhile_imp hm
    rw [Option.isSome_iff_ne_none] at this
    exact this
  · have hnot := List.head?_dropWhile_not (fun m : I × Option I => m.2.isSome) ms
    rw [Option.mem_def.mp hm] at hnot
    simpa using hnot

variable {run rest : List (I × Option I)}

theorem IsRun.tail {m : I × Option I} (hrun : IsRun (m :: run) rest) : IsRun run rest :=
  ⟨fun m hm => hrun.changed m (by simp [hm]), hrun.stop⟩

theorem adjacentRun_eq (hrun : IsRun run rest) (last : Nat) :
    adjacentRun last (changedFrom (last + 1) (run ++ rest)) =
      (changedFrom (last + 1) run, changedFrom (last + 1 + run.length) rest) := by
  induction run generalizing last with
  | nil =>
    simp only [List.nil_append, List.length_nil, Nat.add_zero, changedFrom]
    cases hpositions : changedFrom (last + 1) rest with
    | nil => rfl
    | cons next more =>
      have hne : next ≠ last + 1 := by
        rintro rfl
        cases rest with
        | nil => simp [changedFrom] at hpositions
        | cons m rest =>
          obtain ⟨x, new⟩ := m
          obtain rfl : new = none := hrun.stop (x, new) rfl
          have := le_of_mem_changedFrom (last + 1 + 1) rest (last + 1) (by
            rw [changedFrom] at hpositions
            simp [hpositions])
          omega
      rw [adjacentRun, if_neg hne]
  | cons m run ih =>
    obtain ⟨x, new⟩ := m
    cases new with
    | none => exact absurd rfl (hrun.changed (x, none) (by simp))
    | some y =>
      simp only [List.cons_append, changedFrom, adjacentRun, if_true, ih hrun.tail (last + 1),
        List.length_cons]
      rw [Nat.add_assoc (last + 1) 1, Nat.add_comm 1]

/-- The next unchanged item after a run. -/
theorem IsRun.next_unchanged (hrun : IsRun run rest) :
    (((run ++ rest).filter (·.2.isNone)).head?.map Prod.fst) = (newItems rest).head? := by
  have hnone : run.filter (·.2.isNone) = [] :=
    List.filter_eq_nil_iff.mpr fun m hm => by simpa using hrun.changed m hm
  rw [List.filter_append, hnone, List.nil_append]
  cases rest with
  | nil => rfl
  | cons m rest =>
    obtain ⟨x, new⟩ := m
    obtain rfl : new = none := hrun.stop (x, new) rfl
    rfl

theorem stays_stop (hrun : IsRun run rest) (low : Option I) : stays low rest = stays none rest := by
  cases rest with
  | nil => rfl
  | cons m rest =>
    obtain ⟨x, new⟩ := m
    obtain rfl : new = none := hrun.stop (x, new) rfl
    rfl

theorem siftRun_eq (hvalid : tree.Valid) (hrun : IsRun run rest) (low : Option I) (pre : List I)
    (hitems : tree.items = pre ++ newItems (run ++ rest)) :
    ∃ flags, stays low (run ++ rest) = flags ++ stays none rest ∧ flags.length = run.length ∧
      siftRun tree (newItems rest).head? low (changedFrom pre.length run) =
        some (takenFrom pre.length flags) := by
  induction run generalizing low pre with
  | nil => exact ⟨[], stays_stop hrun low, rfl, rfl⟩
  | cons m run ih =>
    obtain ⟨x, new⟩ := m
    cases new with
    | none => exact absurd rfl (hrun.changed (x, none) (by simp))
    | some y =>
      have hget : get tree pre.length = some (some y) := by
        rw [get_eq hvalid, hitems, List.cons_append]
        simp [newItems]
      have hnext : tree.items = (pre ++ [y]) ++ newItems (run ++ rest) := by
        rw [hitems]
        simp [newItems]
      have hlen : pre.length + 1 = (pre ++ [y]).length := by simp
      simp only [List.cons_append, stays, hrun.tail.next_unchanged, changedFrom, siftRun, hget,
        Option.bind_eq_bind, Option.bind_some]
      split
      · obtain ⟨flags, hstays, hflags, hsift⟩ := ih hrun.tail (some y) (pre ++ [y]) hnext
        refine ⟨true :: flags, by rw [hstays]; rfl, by simp [hflags], ?_⟩
        rw [hlen, hsift, takenFrom, hlen]
      · obtain ⟨flags, hstays, hflags, hsift⟩ := ih hrun.tail low (pre ++ [y]) hnext
        refine ⟨false :: flags, by rw [hstays]; rfl, by simp [hflags], ?_⟩
        rw [hlen, hsift, takenFrom, hlen]
        rfl

theorem changedFrom_run_getLast (hchanged : ∀ m ∈ run, m.2 ≠ none) (position : Nat)
    (hne : changedFrom position run ≠ []) :
    (changedFrom position run).getLast hne = position + run.length - 1 := by
  rcases List.eq_nil_or_concat run with rfl | ⟨init, m, rfl⟩
  · exact absurd rfl hne
  · obtain ⟨x, new⟩ := m
    cases new with
    | none => exact absurd rfl (hchanged (x, none) (by simp))
    | some y => simp [changedFrom_append, changedFrom]

theorem takenFrom_append (position : Nat) (xs ys : List Bool) :
    takenFrom position (xs ++ ys) =
      takenFrom position xs ++ takenFrom (position + xs.length) ys := by
  induction xs generalizing position with
  | nil => rfl
  | cons flag xs ih => cases flag <;> simp [takenFrom, ih, Nat.add_assoc, Nat.add_comm 1]

/-- The positions the rebuild takes out are those of the items that do not stay. -/
theorem outOfOrder_eq (hvalid : tree.Valid) (pre : List I) (ms : List (I × Option I))
    (hitems : tree.items = pre ++ newItems ms) :
    outOfOrder tree (changedFrom pre.length ms) =
      some (takenFrom pre.length (stays pre.getLast? ms)) := by
  induction hn : ms.length using Nat.strong_induction_on generalizing pre ms with
  | _ n ih =>
    subst hn
    have hstep : ∀ (pre : List I) (x : I) (ms' : List (I × Option I)), ms'.length < ms.length →
        tree.items = pre ++ newItems ((x, none) :: ms') →
        outOfOrder tree (changedFrom pre.length ((x, none) :: ms')) =
          some (takenFrom pre.length (true :: stays (some x) ms')) := by
      intro pre x ms' hlt hitems
      have hrest := ih ms'.length hlt (pre ++ [x]) ms' (by rw [hitems]; simp [newItems]) rfl
      simpa [changedFrom, takenFrom] using hrest
    obtain ⟨run, rest, rfl, hrun⟩ := exists_run ms
    cases run with
    | nil =>
      rw [List.nil_append] at hitems hstep ⊢
      cases rest with
      | nil => simp [changedFrom, stays, takenFrom, outOfOrder]
      | cons m rest =>
        obtain ⟨x, new⟩ := m
        obtain rfl : new = none := hrun.stop (x, new) rfl
        exact hstep pre x rest (by simp) hitems
    | cons m run' =>
      obtain ⟨x, new⟩ := m
      cases new with
      | none => exact absurd rfl (hrun.changed (x, none) (by simp))
      | some y =>
        obtain ⟨flags, hstays, hflags, hsift⟩ := siftRun_eq hvalid hrun pre.getLast? pre hitems
        have hrunEq := adjacentRun_eq hrun.tail pre.length
        have hlow : (if pre.length = 0 then some none else get tree (pre.length - 1)) =
            some pre.getLast? := by
          rcases List.eq_nil_or_concat pre with rfl | ⟨init, z, rfl⟩
          · rfl
          · rw [List.concat_eq_append] at *
            rw [if_neg (by simp), get_eq hvalid, hitems]
            simp
        have hhigh : get tree (pre.length + (run'.length + 1)) = some (newItems rest).head? := by
          have hlen : pre.length + (run'.length + 1) =
              (pre ++ newItems ((x, some y) :: run')).length := by simp
          rw [get_eq hvalid, hitems, newItems_append, ← List.append_assoc, hlen,
            List.getElem?_append_right le_rfl, Nat.sub_self, List.head?_eq_getElem?]
        simp only [changedFrom] at hsift
        have hlast : (pre.length :: changedFrom (pre.length + 1) run').getLast (by simp) + 1 =
            pre.length + (run'.length + 1) := by
          have := changedFrom_run_getLast hrun.changed pre.length (by simp [changedFrom])
          simp only [changedFrom, List.length_cons] at this
          omega
        rw [List.cons_append, changedFrom, outOfOrder]
        simp only [hrunEq, hlow, hlast, hhigh, hsift, Option.bind_eq_bind, Option.bind_some]
        rw [← List.cons_append, hstays, takenFrom_append, hflags]
        -- What follows the run starts with an unchanged item, if anything.
        have hafter : outOfOrder tree (changedFrom (pre.length + 1 + run'.length) rest) =
            some (takenFrom (pre.length + (run'.length + 1)) (stays none rest)) := by
          cases rest with
          | nil => simp [changedFrom, stays, takenFrom, outOfOrder]
          | cons m rest =>
            obtain ⟨z, new⟩ := m
            obtain rfl : new = none := hrun.stop (z, new) rfl
            have hrest := hstep (pre ++ newItems ((x, some y) :: run')) z rest (by simp; omega)
              (by rw [hitems, newItems_append, List.append_assoc])
            simp only [List.length_append, length_newItems, List.length_cons] at hrest
            rw [Nat.add_assoc pre.length 1, Nat.add_comm 1]
            exact hrest
        rw [hafter]
        rfl

theorem takeOut_all_yields (hvalid : tree.Valid) (pre xs : List I) (flags : List Bool)
    (hlen : flags.length = xs.length) (hitems : tree.items = pre ++ xs) :
    Yields True ((takenFrom pre.length flags).reverse.foldlM takeOut (tree, []))
      (fun result => result.1.Valid ∧ result.1.items = pre ++ kept xs flags ∧
        result.2.Perm (taken xs flags)) := by
  rw [List.foldlM_reverse]
  induction flags generalizing pre xs with
  | nil =>
    obtain rfl := List.length_eq_zero_iff.mp hlen.symm
    exact ⟨hvalid, hitems, .nil⟩
  | cons flag flags ih =>
    cases xs with
    | nil => simp at hlen
    | cons x xs =>
      have hpre : pre.length + 1 = (pre ++ [x]).length := by simp
      have hrest := ih (pre ++ [x]) xs (by simpa using hlen) (by simpa using hitems)
      cases flag with
      | true =>
        rw [takenFrom, hpre]
        refine hrest.imp fun result hresult => ?_
        obtain ⟨hv, hi, hperm⟩ := hresult
        exact ⟨hv, by simpa [kept] using hi, by simpa [taken] using hperm⟩
      | false =>
        rw [takenFrom, hpre, List.foldrM_cons]
        refine hrest.bind fun result hresult => ?_
        obtain ⟨hv, hi, hperm⟩ := hresult
        have hsplit : result.1.items = pre ++ x :: kept xs flags := by simpa using hi
        refine (removeAt_yields hv pre x (kept xs flags) hsplit).bind fun removed hremoved => ?_
        obtain ⟨hrv, hri, rfl⟩ := hremoved
        refine ⟨hrv, by simpa [kept] using hri, ?_⟩
        have hcons : taken (removed.2 :: xs) (false :: flags) = removed.2 :: taken xs flags := by
          simp [taken]
        rw [hcons]
        exact (List.perm_append_singleton removed.2 result.2).trans (hperm.cons _)

theorem Fits.sublist {xs ys : List I} (hsub : xs.Sublist ys) (hfits : Fits ys) : Fits xs := by
  have hgen : ∀ pre : List I, Fits (pre ++ ys) → Fits (pre ++ xs) := by
    clear hfits
    induction hsub with
    | slnil => exact fun _ h => h
    | @cons xs ys y _ ih =>
      intro pre h
      have hsplit : Fits (pre ++ [y] ++ ys) := by simpa using h
      exact ih pre hsplit.drop_mid
    | cons_cons y _ ih =>
      intro pre h
      simpa using ih (pre ++ [y]) (by simpa using h)
  exact hgen [] hfits

theorem sorted_takeWhile_le {xs : List I} (hsorted : xs.Pairwise (· ≤ ·)) (item : I) :
    (xs.takeWhile (fun other => decide (other ≤ item)) ++ item ::
      xs.dropWhile fun other => decide (other ≤ item)).Pairwise (· ≤ ·) := by
  have hsplit : xs.takeWhile (fun other => decide (other ≤ item)) ++
      xs.dropWhile (fun other => decide (other ≤ item)) = xs := List.takeWhile_append_dropWhile
  have hbelow : ∀ x ∈ xs.takeWhile (fun other => decide (other ≤ item)), x ≤ item :=
    fun x hx => by simpa using List.mem_takeWhile_imp hx
  have hhead := List.head?_dropWhile_not (fun other => decide (other ≤ item)) xs
  rw [← hsplit] at hsorted
  generalize xs.takeWhile (fun other => decide (other ≤ item)) = low at *
  generalize xs.dropWhile (fun other => decide (other ≤ item)) = high at *
  obtain ⟨hlow, hhigh, hcross⟩ := List.pairwise_append.mp hsorted
  have habove : ∀ x ∈ high, item ≤ x := by
    intro x hx
    cases high with
    | nil => simp at hx
    | cons y high =>
      have hy : item ≤ y := by
        have : ¬ y ≤ item := by simpa using hhead
        exact le_of_not_ge this
      rcases List.mem_cons.mp hx with rfl | hx
      · exact hy
      · exact hy.trans (List.rel_of_pairwise_cons hhigh hx)
  refine List.pairwise_append.mpr ⟨hlow, List.pairwise_cons.mpr ⟨habove, hhigh⟩, ?_⟩
  intro x hx y hy
  rcases List.mem_cons.mp hy with rfl | hy
  · exact hbelow x hx
  · exact hcross x hx y hy

/-- An insertion in order. `whole` is a sorted list all of whose counts fit. -/
theorem insert_yields (hvalid : tree.Valid) (hsorted : tree.items.Pairwise (· ≤ ·)) (item : I)
    {whole : List I} (hwhole : whole.Pairwise (· ≤ ·)) (hsub : (item :: tree.items).Subperm whole) :
    Yields (Fits whole) (insert tree item)
      (fun result => result.Valid ∧ result.items.Pairwise (· ≤ ·) ∧
        result.items.Perm (item :: tree.items)) := by
  obtain ⟨h, hwithin⟩ := hvalid.within
  have hpoint := partitionPoint_eq hwithin (fun other => decide (other ≤ item))
    (hsorted.imp fun hxy hy => by simp only [decide_eq_true_eq] at hy ⊢; exact hxy.trans hy)
  have hinsert : tree.items.insertIdx
      (tree.items.takeWhile fun other => decide (other ≤ item)).length item =
      tree.items.takeWhile (fun other => decide (other ≤ item)) ++ item ::
        tree.items.dropWhile fun other => decide (other ≤ item) := by
    conv_lhs =>
      arg 1
      rw [← List.takeWhile_append_dropWhile (p := fun other => decide (other ≤ item))
        (l := tree.items)]
    rw [insertIdx_middle]
  have hresult := sorted_takeWhile_le hsorted item
  have hperm : (tree.items.takeWhile (fun other => decide (other ≤ item)) ++ item ::
      tree.items.dropWhile fun other => decide (other ≤ item)).Perm (item :: tree.items) := by
    refine List.perm_middle.trans (List.Perm.cons _ ?_)
    rw [List.takeWhile_append_dropWhile]
  unfold insert
  simp only [hpoint, Option.bind_eq_bind, Option.bind_some]
  refine (insertAt_yields hvalid _ item (List.takeWhile_prefix _).length_le).mono (fun hfits => ?_)
    fun result hr => ⟨hr.1, ?_, ?_⟩
  · rw [hinsert]
    exact hfits.sublist (List.sublist_of_subperm_of_pairwise (hperm.subperm.trans hsub) hresult
      hwhole)
  · rw [hr.2, hinsert]
    exact hresult
  · rw [hr.2, hinsert]
    exact hperm

/-- A rebuild of an ordered sequence gives the sorted list of the changed items. -/
theorem rebuildWhere_yields {seek : Seek I S G} {change : σ → I → Option I × σ}
    (hvalid : tree.Valid) (hsorted : tree.items.Pairwise (· ≤ ·)) (hseek : seek.Lawful) (state : σ) :
    Yields (FitsChange (marks seek change 0 state tree.items).1 ∧
        Fits ((newItems (marks seek change 0 state tree.items).1).insertionSort (· ≤ ·)))
      (rebuildWhere tree seek change state)
      (fun result => result.1.Valid ∧
        result.1.items =
          (newItems (marks seek change 0 state tree.items).1).insertionSort (· ≤ ·) ∧
        result.2 = (marks seek change 0 state tree.items).2) := by
  have hmap := mapWhereRecording_yields change hvalid hseek state
  have hold := oldItems_marks seek change 0 state tree.items
  unfold rebuildWhere
  generalize (marks seek change 0 state tree.items).1 = ms at *
  generalize (marks seek change 0 state tree.items).2 = state' at *
  refine (hmap.mono And.left fun _ hm => hm).bind fun mapped hmapped => ?_
  obtain ⟨changedTree, state'', changed⟩ := mapped
  obtain ⟨hchangedValid, hchangedItems, hrecord⟩ := hmapped
  obtain ⟨rfl, rfl⟩ := Prod.mk.inj hrecord
  have hout := outOfOrder_eq hchangedValid [] ms hchangedItems
  have hunchanged : (unchangedItems ms).Pairwise (· ≤ ·) := by
    refine hsorted.sublist ?_
    rw [← hold]
    exact List.filter_sublist.map _
  obtain ⟨hkeptSorted, _⟩ := kept_sorted none ms hunchanged (by simp)
  have hlen : (stays none ms).length = (newItems ms).length := by
    rw [length_stays, length_newItems]
  have hpartition := kept_taken_perm (newItems ms) (stays none ms) hlen
  simp only [List.getLast?_nil, List.length_nil] at hout
  simp only [hout, Option.bind_eq_bind, Option.bind_some]
  refine ((takeOut_all_yields hchangedValid [] (newItems ms) (stays none ms) hlen
    hchangedItems).mono (fun _ => trivial) fun _ hr => hr).bind fun removed hremoved => ?_
  obtain ⟨rest, moved⟩ := removed
  obtain ⟨hrestValid, hrestItems, hmoved⟩ := hremoved
  rw [List.nil_append] at hrestItems
  have hsortedWhole := List.pairwise_insertionSort (· ≤ ·) (newItems ms)
  have hpermWhole : (moved ++ rest.items).Perm ((newItems ms).insertionSort (· ≤ ·)) := by
    rw [hrestItems]
    refine List.perm_append_comm.trans ((List.Perm.append_left _ hmoved).trans ?_)
    exact hpartition.trans (List.perm_insertionSort _ _).symm
  have hinserts : Yields (Fits ((newItems ms).insertionSort (· ≤ ·))) (moved.foldlM insert rest)
      (fun result => result.Valid ∧ result.items.Pairwise (· ≤ ·) ∧
        result.items.Perm (moved ++ rest.items)) := by
    refine yields_foldlM (fun seen (result : Chunked I S G B) => result.Valid ∧ result.items.Pairwise (· ≤ ·) ∧
      result.items.Perm (seen ++ rest.items)) ⟨hrestValid, by rw [hrestItems]; exact hkeptSorted,
        .refl _⟩ ?_
    rintro seen item later acc hsplit ⟨haccValid, haccSorted, haccPerm⟩
    have hnext : (item :: acc.items).Perm (seen ++ [item] ++ rest.items) := by
      refine (haccPerm.cons item).trans ?_
      rw [List.append_assoc]
      exact List.perm_middle.symm
    have hsub : (item :: acc.items).Subperm ((newItems ms).insertionSort (· ≤ ·)) := by
      refine hnext.subperm.trans (List.Subperm.trans ?_ hpermWhole.subperm)
      rw [hsplit]
      have hsublist : (seen ++ [item] ++ rest.items).Sublist
          (seen ++ item :: later ++ rest.items) := by
        refine List.Sublist.append ?_ (List.Sublist.refl _)
        simp
      exact hsublist.subperm
    refine (insert_yields haccValid haccSorted item hsortedWhole hsub).imp fun result hresult => ?_
    exact ⟨hresult.1, hresult.2.1, hresult.2.2.trans hnext⟩
  refine (hinserts.mono And.right fun _ hr => hr).bind fun result hresult => ?_
  obtain ⟨hresultValid, hresultSorted, hresultPerm⟩ := hresult
  exact ⟨hresultValid, (hresultPerm.trans hpermWhole).eq_of_pairwise' hresultSorted hsortedWhole, rfl⟩

end Laws

/-- What a rebuild asks of an item: nothing of one that the seek does not want. -/
def Seek.apply (seek : Seek I S G) (change : σ → I → Option I × σ) (position : Nat) (state : σ)
    (item : I) : Option I × σ :=
  if seek.wants position item then change state item else (none, state)

section Same

variable [Item I K S G] [LinearOrder K] [Summary S] [Group G] {one two : Seek I S G}
  {change : σ → I → Option I × σ}
  (hadmits : one.admits = two.admits)
  (hchange : ∀ position state item,
    one.apply change position state item = two.apply change position state item)

include hchange

theorem mapItem_same (position : Nat) (items : List I) (run : LeafRun I G σ) (entry : I × Nat) :
    mapItem one change position items run entry = mapItem two change position items run entry := by
  obtain ⟨item, offset⟩ := entry
  have hsame := hchange (position + offset) run.state item
  simp only [Seek.apply] at hsame
  simp only [mapItem]
  by_cases hone : one.wants (position + offset) item = true <;>
    by_cases htwo : two.wants (position + offset) item = true <;>
    simp only [hone, htwo, if_true, if_false, Bool.false_eq_true] at hsame ⊢
  · rw [hsame]
  · rw [← hsame]

include hadmits

mutual
theorem mapNode_same (node : Node I S G) (position : Nat) (state : σ) (changed : List Nat) :
    mapNode one change node position state changed =
      mapNode two change node position state changed := by
  cases node with
  | leaf items summary =>
    have hitem : mapItem one change position items = mapItem two change position items :=
      funext fun run => funext fun entry => mapItem_same hchange position items run entry
    rw [mapNode, mapNode, hitem]
  | internal height children summary =>
    rw [mapNode, mapNode, mapChildren_same children children]
theorem mapChildren_same (whole children : List (Node I S G)) (slot start : Nat)
    (run : ChildRun I S G σ) :
    mapChildren one change whole children slot start run =
      mapChildren two change whole children slot start run := by
  cases children with
  | nil => rw [mapChildren, mapChildren]
  | cons child rest =>
    rw [mapChildren, mapChildren, hadmits, mapNode_same child]
    congr 1
    funext run
    exact mapChildren_same whole rest _ _ run
end

theorem mapWhereRecording_same (tree : Chunked I S G B) (state : σ) :
    mapWhereRecording tree one change state = mapWhereRecording tree two change state := by
  unfold mapWhereRecording
  split
  · rfl
  · rw [hadmits, mapNode_same hadmits hchange]

/-- Seeks that enter the same subtrees and ask the same of every item rebuild alike. -/
theorem rebuildWhere_same [LinearOrder I] (tree : Chunked I S G B) (state : σ) :
    rebuildWhere tree one change state = rebuildWhere tree two change state := by
  rw [rebuildWhere, rebuildWhere, mapWhereRecording_same hadmits hchange]

theorem mapWhere_same (tree : Chunked I S G B) (state : σ) :
    mapWhere tree one change state = mapWhere tree two change state := by
  rw [mapWhere, mapWhere, mapWhereRecording_same hadmits hchange]

end Same

end KRust.Term.Chunks
