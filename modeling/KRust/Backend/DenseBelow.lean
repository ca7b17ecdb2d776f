import KRust.Backend.SortGraph
import KRust.Lib.BitRows

/-!
The subsort closure as one bit row for each node, over dense indices of the sorts that it names,
and why the rows answer as the closure does.
-/

namespace KRust.Backend

open KRust.Kore KRust.Lib

/-- `Sort::id`: distinct sorts have distinct ids. -/
structure SortIds where
  id : KoreSort → Nat
  injective : Function.Injective id

/-- `none` is the source's `NONE`. -/
structure DenseBelow where
  /-- For the id of a sort, its index among the sorts named. -/
  index : List (Option Nat)
  /-- For an index, the row of the sort if it is a node. -/
  row : List (Option Nat)
  words : Nat
  bits : List BitRows.Word

namespace DenseBelow

section Definitions

variable (ids : SortIds)

/-- The index that a table gives to a sort. -/
def indexIn (index : List (Option Nat)) (sort : KoreSort) : Option Nat := index[ids.id sort]?.join

/-- Gives a sort the next index, unless it has one. -/
def assign (table : List (Option Nat) × Nat) (sort : KoreSort) : List (Option Nat) × Nat :=
  let (index, count) := table
  let index := index ++ List.replicate (ids.id sort + 1 - index.length) none
  if index[ids.id sort]? = some none then (index.set (ids.id sort) (some count), count + 1)
  else (index, count)

/-- Each node and then the sorts below it. -/
def named (below : List (KoreSort × List KoreSort)) : List KoreSort :=
  below.flatMap fun (sup, subs) => sup :: subs

/-- The indices of the sorts named, and how many there are. -/
def indices (below : List (KoreSort × List KoreSort)) : List (Option Nat) × Nat :=
  (named below).foldl (assign ids) ([], 0)

def number (below : List (KoreSort × List KoreSort)) (sort : KoreSort) : Nat :=
  (indexIn ids (indices ids below).1 sort).getD 0

def of (below : List (KoreSort × List KoreSort)) : DenseBelow :=
  let (index, count) := indices ids below
  let words := (count + 63) / 64
  let row := below.zipIdx.foldl
    (fun row ((sup, _), position) => row.set (number ids below sup) (some position))
    (List.replicate count none)
  let bits := below.zipIdx.foldl
    (fun bits ((_, subs), position) => subs.foldl
      (fun bits sub =>
        let bit := number ids below sub
        BitRows.set bits (position * words + bit / 64) (bit % 64)) bits)
    (List.replicate (below.length * words) 0#64)
  ⟨index, row, words, bits⟩

variable (dense : DenseBelow)

def indexOf (sort : KoreSort) : Option Nat := indexIn ids dense.index sort

/-- The row of the sorts below a node. -/
def rowOf (sort : KoreSort) : Option (List BitRows.Word) := do
  let index ← dense.indexOf ids sort
  let row ← dense.row[index]?.join
  return BitRows.row dense.bits dense.words row

def holds (row : List BitRows.Word) (sort : KoreSort) : Bool :=
  (dense.indexOf ids sort).any fun bit => BitRows.test row bit

end Definitions

variable {ids : SortIds} {below : List (KoreSort × List KoreSort)}

section Indices

theorem join_append_none {α : Type} (entries : List (Option α)) (n i : Nat) :
    (entries ++ List.replicate n none)[i]?.join = entries[i]?.join := by
  rw [List.getElem?_append]
  split
  · rfl
  · rename_i hge
    rw [List.getElem?_eq_none (Nat.le_of_not_lt hge), List.getElem?_replicate]
    split <;> rfl

/-- A sort that is assigned an index has one, and the other sorts keep theirs. -/
theorem indexIn_assign (table : List (Option Nat) × Nat) (sort other : KoreSort) :
    indexIn ids (assign ids table sort).1 other =
      if other = sort then some ((indexIn ids table.1 sort).getD table.2)
      else indexIn ids table.1 other := by
  obtain ⟨index, count⟩ := table
  let extended := index ++ List.replicate (ids.id sort + 1 - index.length) none
  have hkept : ∀ i, extended[i]?.join = index[i]?.join := join_append_none index _
  have hinside : ids.id sort < extended.length := by
    rw [List.length_append, List.length_replicate]
    omega
  obtain ⟨entry, hentry⟩ : ∃ entry, extended[ids.id sort]? = some entry :=
    ⟨_, List.getElem?_eq_getElem hinside⟩
  have hsort : indexIn ids index sort = entry := by
    rw [indexIn, ← hkept, hentry, Option.join_some]
  change indexIn ids (if extended[ids.id sort]? = some none then
    (extended.set (ids.id sort) (some count), count + 1) else (extended, count)).1 other = _
  rw [hentry, hsort]
  by_cases hother : other = sort
  · subst hother
    rw [if_pos rfl]
    cases entry with
    | none => rw [if_pos rfl, indexIn, List.getElem?_set_self hinside]; rfl
    | some number => rw [if_neg (by simp), indexIn, hentry]; rfl
  · have hid : ids.id sort ≠ ids.id other := fun h => hother (ids.injective h).symm
    rw [if_neg hother]
    split
    · rw [indexIn, List.getElem?_set_ne hid, hkept, indexIn]
    · rw [indexIn, hkept, indexIn]

variable (ids) in
theorem count_assign (table : List (Option Nat) × Nat) (sort : KoreSort) :
    (assign ids table sort).2 =
      if (indexIn ids table.1 sort).isSome then table.2 else table.2 + 1 := by
  obtain ⟨index, count⟩ := table
  let extended := index ++ List.replicate (ids.id sort + 1 - index.length) none
  have hinside : ids.id sort < extended.length := by
    rw [List.length_append, List.length_replicate]
    omega
  obtain ⟨entry, hentry⟩ : ∃ entry, extended[ids.id sort]? = some entry :=
    ⟨_, List.getElem?_eq_getElem hinside⟩
  have hsort : indexIn ids index sort = entry := by
    rw [indexIn, ← join_append_none index (ids.id sort + 1 - index.length), hentry,
      Option.join_some]
  change (if extended[ids.id sort]? = some none then
    (extended.set (ids.id sort) (some count), count + 1) else (extended, count)).2 = _
  rw [hentry, hsort]
  cases entry <;> simp

/-- A table that numbers the sorts seen, each with a number of its own. -/
structure Numbers (ids : SortIds) (seen : List KoreSort) (table : List (Option Nat) × Nat) :
    Prop where
  isSome_iff : ∀ sort, (indexIn ids table.1 sort).isSome ↔ sort ∈ seen
  lt : ∀ sort index, indexIn ids table.1 sort = some index → index < table.2
  unique : ∀ sort other index, indexIn ids table.1 sort = some index →
    indexIn ids table.1 other = some index → sort = other

theorem Numbers.assign {seen : List KoreSort} {table : List (Option Nat) × Nat}
    (h : Numbers ids seen table) (sort : KoreSort) :
    Numbers ids (sort :: seen) (assign ids table sort) := by
  have hcount := count_assign ids table sort
  cases hindex : indexIn ids table.1 sort with
  | some number =>
    have hsame : ∀ other, indexIn ids (DenseBelow.assign ids table sort).1 other =
        indexIn ids table.1 other := by
      intro other
      rw [indexIn_assign]
      split
      · rename_i heq
        rw [heq, hindex, Option.getD_some]
      · rfl
    rw [hindex, Option.isSome_some, if_pos rfl] at hcount
    refine ⟨fun other => ?_, fun other index hother => ?_, fun one other index hone hother => ?_⟩
    · rw [hsame, h.isSome_iff, List.mem_cons]
      refine ⟨.inr, fun hmem => hmem.elim (fun heq => ?_) id⟩
      rw [heq]
      exact (h.isSome_iff sort).mp (by rw [hindex]; rfl)
    · rw [hsame] at hother
      rw [hcount]
      exact h.lt other index hother
    · rw [hsame] at hone hother
      exact h.unique one other index hone hother
  | none =>
    have hnew : ∀ other, indexIn ids (DenseBelow.assign ids table sort).1 other =
        if other = sort then some table.2 else indexIn ids table.1 other := by
      intro other
      rw [indexIn_assign, hindex, Option.getD_none]
    rw [hindex, Option.isSome_none, if_neg (by simp)] at hcount
    refine ⟨fun other => ?_, fun other index hother => ?_, fun one other index hone hother => ?_⟩
    · rw [hnew, List.mem_cons]
      split
      · rename_i heq
        simp [heq]
      · rename_i hne
        rw [h.isSome_iff]
        simp [hne]
    · rw [hnew] at hother
      rw [hcount]
      split at hother
      · cases hother
        exact Nat.lt_succ_self _
      · exact Nat.lt_succ_of_lt (h.lt other index hother)
    · rw [hnew] at hone hother
      split at hone
      · cases hone
        split at hother
        · rename_i heq heq'
          rw [heq, heq']
        · exact absurd (h.lt other _ hother) (Nat.lt_irrefl _)
      · split at hother
        · cases hother
          exact absurd (h.lt one _ hone) (Nat.lt_irrefl _)
        · exact h.unique one other index hone hother

theorem numbers_indices (ids : SortIds) (below : List (KoreSort × List KoreSort)) :
    Numbers ids (named below) (indices ids below) := by
  have hfold : ∀ (sorts seen : List KoreSort) (table : List (Option Nat) × Nat),
      Numbers ids seen table → Numbers ids (sorts.reverse ++ seen) (sorts.foldl (assign ids) table)
      := by
    intro sorts
    induction sorts with
    | nil => exact fun seen table h => h
    | cons sort sorts ih =>
      intro seen table h
      have hrest := ih (sort :: seen) _ (h.assign sort)
      rwa [List.reverse_cons, List.append_assoc, List.singleton_append, List.foldl_cons]
  have hempty : Numbers ids [] ([], 0) :=
    ⟨fun sort => by simp [indexIn], fun sort index h => by simp [indexIn] at h,
      fun sort other index h => by simp [indexIn] at h⟩
  have hall := hfold (named below) [] _ hempty
  rw [List.append_nil] at hall
  exact ⟨fun sort => (hall.isSome_iff sort).trans List.mem_reverse, hall.lt, hall.unique⟩

theorem indexIn_indices {sort : KoreSort} (h : sort ∈ named below) :
    indexIn ids (indices ids below).1 sort = some (number ids below sort) := by
  obtain ⟨index, hindex⟩ := Option.isSome_iff_exists.mp
    (((numbers_indices ids below).isSome_iff sort).mpr h)
  rw [number, hindex, Option.getD_some]

theorem indexIn_eq_none {sort : KoreSort} (h : sort ∉ named below) :
    indexIn ids (indices ids below).1 sort = none := by
  rw [← Option.not_isSome_iff_eq_none, (numbers_indices ids below).isSome_iff]
  exact h

theorem number_lt {sort : KoreSort} (h : sort ∈ named below) :
    number ids below sort < (indices ids below).2 :=
  (numbers_indices ids below).lt sort _ (indexIn_indices h)

theorem number_inj {sort other : KoreSort} (h : sort ∈ named below) (h' : other ∈ named below)
    (heq : number ids below sort = number ids below other) : sort = other :=
  (numbers_indices ids below).unique sort other _ (indexIn_indices h)
    (by rw [indexIn_indices h', heq])

theorem word_lt {sort : KoreSort} (h : sort ∈ named below) :
    number ids below sort / 64 < ((indices ids below).2 + 63) / 64 := by
  have hlt : number ids below sort < (indices ids below).2 := number_lt h
  omega

end Indices

section Rows

/-- Writing the entries of a list leaves each at its place, where the places are different. -/
theorem getElem?_foldl_set {α β : Type} (place : α → Nat) (value : α → β) (entries : List α)
    (row : List (Option β)) (hplaces : (entries.map place).Nodup)
    (hinside : ∀ entry ∈ entries, place entry < row.length) (i : Nat) :
    (entries.foldl (fun row entry => row.set (place entry) (some (value entry))) row)[i]? =
      match entries.find? fun entry => place entry = i with
      | some entry => some (some (value entry))
      | none => row[i]? := by
  induction entries generalizing row with
  | nil => rfl
  | cons entry entries ih =>
    rw [List.map_cons, List.nodup_cons] at hplaces
    obtain ⟨hentry, hrest⟩ := List.forall_mem_cons.mp hinside
    rw [List.foldl_cons, ih _ hplaces.2 (by simpa using hrest), List.find?_cons]
    by_cases hi : place entry = i
    · have hnone : entries.find? (fun entry => place entry = i) = none := by
        rw [List.find?_eq_none]
        intro other hother heq
        refine hplaces.1 (List.mem_map.mpr ⟨other, hother, ?_⟩)
        rw [hi]
        exact of_decide_eq_true heq
      rw [hnone, decide_eq_true hi]
      subst hi
      exact List.getElem?_set_self hentry
    · rw [decide_eq_false hi]
      cases entries.find? fun entry => place entry = i with
      | none => exact List.getElem?_set_ne hi
      | some other => rfl

theorem mem_named {sup : KoreSort} {subs : List KoreSort} (h : (sup, subs) ∈ below) :
    sup ∈ named below ∧ ∀ sub ∈ subs, sub ∈ named below :=
  ⟨List.mem_flatMap.mpr ⟨_, h, List.mem_cons_self⟩,
    fun _ hsub => List.mem_flatMap.mpr ⟨_, h, List.mem_cons_of_mem _ hsub⟩⟩

/-- The bits that are set: for each row, the indices of the sorts of its node. -/
def marks (ids : SortIds) (below : List (KoreSort × List KoreSort)) : List (Nat × Nat) :=
  below.zipIdx.flatMap fun ((_, subs), position) =>
    subs.map fun sub => (position, number ids below sub)

theorem mem_marks {position bit : Nat} : (position, bit) ∈ marks ids below ↔
    ∃ sup subs, below[position]? = some (sup, subs) ∧ ∃ sub ∈ subs, number ids below sub = bit := by
  simp only [marks, List.mem_flatMap, List.mem_map, Prod.exists, List.mem_zipIdx_iff_getElem?,
    Prod.mk.injEq]
  constructor
  · rintro ⟨sup, subs, position', hentry, sub, hsub, rfl, rfl⟩
    exact ⟨sup, subs, hentry, sub, hsub, rfl⟩
  · rintro ⟨sup, subs, hentry, sub, hsub, rfl⟩
    exact ⟨sup, subs, position, hentry, sub, hsub, rfl, rfl⟩

theorem bits_of : (of ids below).bits = (marks ids below).foldl (fun bits mark =>
    BitRows.set bits (mark.1 * (of ids below).words + mark.2 / 64) (mark.2 % 64))
    (List.replicate (below.length * (of ids below).words) 0#64) := by
  rw [marks, List.foldl_flatMap]
  simp only [List.foldl_map]
  rfl

/-- The row at a position has the bits of the sorts below its node. -/
theorem test_row {position bit : Nat} {sup : KoreSort} {subs : List KoreSort}
    (hentry : below[position]? = some (sup, subs)) (hbit : bit / 64 < (of ids below).words) :
    BitRows.test (BitRows.row (of ids below).bits (of ids below).words position) bit = true ↔
      ∃ sub ∈ subs, number ids below sub = bit := by
  have hmarks : ∀ mark ∈ marks ids below,
      mark.1 < below.length ∧ mark.2 / 64 < (of ids below).words := by
    rintro ⟨row, column⟩ hmark
    obtain ⟨node, nodes, hnode, sub, hsub, rfl⟩ := mem_marks.mp hmark
    refine ⟨(List.getElem?_eq_some_iff.mp hnode).1, ?_⟩
    exact word_lt ((mem_named (List.mem_of_getElem? hnode)).2 sub hsub)
  rw [bits_of, BitRows.test_row_marks _ (List.length_replicate) hmarks hbit,
    BitRows.test_row_clear, Bool.false_or, decide_eq_true_iff, mem_marks, hentry]
  constructor
  · rintro ⟨_, _, heq, h⟩
    cases heq
    exact h
  · exact fun h => ⟨sup, subs, rfl, h⟩

variable (hkeys : (below.map Prod.fst).Nodup)
include hkeys

variable (ids) in
theorem row_of (i : Nat) : (of ids below).row[i]?.join =
    (below.zipIdx.find? fun entry => number ids below entry.1.1 = i).map Prod.snd := by
  have hplaces : (below.zipIdx.map fun entry => number ids below entry.1.1).Nodup := by
    have hfst : below.zipIdx.map (fun entry => number ids below entry.1.1) =
        (below.map Prod.fst).map (number ids below) := calc
      _ = (below.zipIdx.map Prod.fst).map fun entry => number ids below entry.1 := by
        rw [List.map_map]
        rfl
      _ = below.map fun entry => number ids below entry.1 := by rw [List.zipIdx_map_fst]
      _ = _ := by
        rw [List.map_map]
        rfl
    rw [hfst]
    refine hkeys.map_on ?_
    intro sup hsup other hother heq
    obtain ⟨⟨_, subs⟩, hmem, rfl⟩ := List.mem_map.mp hsup
    obtain ⟨⟨_, subs'⟩, hmem', rfl⟩ := List.mem_map.mp hother
    exact number_inj (mem_named hmem).1 (mem_named hmem').1 heq
  have hinside : ∀ entry ∈ below.zipIdx,
      number ids below entry.1.1 < (List.replicate (indices ids below).2 (none : Option Nat)).length
      := by
    rintro ⟨⟨sup, subs⟩, position⟩ hentry
    rw [List.length_replicate]
    rw [List.mem_zipIdx_iff_getElem?] at hentry
    exact number_lt (mem_named (List.mem_of_getElem? hentry)).1
  have hfold := getElem?_foldl_set
    (fun entry : (KoreSort × List KoreSort) × Nat => number ids below entry.1.1) (fun entry => entry.2)
    below.zipIdx (List.replicate (indices ids below).2 none) hplaces hinside i
  have hrow : (of ids below).row[i]? = _ := hfold
  rw [hrow]
  cases below.zipIdx.find? fun entry => number ids below entry.1.1 = i with
  | some entry => rfl
  | none =>
    change (List.replicate (indices ids below).2 (none : Option Nat))[i]?.join = none
    rw [List.getElem?_replicate]
    split <;> rfl

omit hkeys in
theorem lookup_eq (sup : KoreSort) : below.lookup sup =
    (below.zipIdx.find? fun entry => entry.1.1 = sup).map fun entry => entry.1.2 := by
  have hfind : ∀ start, below.lookup sup =
      ((below.zipIdx start).find? fun entry => entry.1.1 = sup).map fun entry => entry.1.2 := by
    induction below with
    | nil => exact fun _ => rfl
    | cons entry below ih =>
      intro start
      rw [List.zipIdx_cons, List.find?_cons, List.lookup_cons, BEq.comm]
      by_cases h : entry.1 = sup
      · simp [h]
      · simp [h, beq_false_of_ne h, ih (start + 1)]
  exact hfind 0

omit hkeys in
theorem find?_congr {α : Type} {p q : α → Bool} {xs : List α} (h : ∀ x ∈ xs, p x = q x) :
    xs.find? p = xs.find? q := by
  induction xs with
  | nil => rfl
  | cons x xs ih =>
    obtain ⟨hx, hxs⟩ := List.forall_mem_cons.mp h
    rw [List.find?_cons, List.find?_cons, hx, ih hxs]

/-- A row with the bits of the sorts of a node. -/
def Stands (ids : SortIds) (below : List (KoreSort × List KoreSort)) (row : List BitRows.Word)
    (subs : List KoreSort) : Prop :=
  (∀ sub ∈ subs, sub ∈ named below) ∧
    ∀ bit, BitRows.test row bit = true ↔ ∃ sub ∈ subs, number ids below sub = bit

variable (ids) in
/-- There is a row for a sort just when it is a node. -/
theorem rowOf_of (sup : KoreSort) :
    (below.lookup sup = none ∧ (of ids below).rowOf ids sup = none) ∨
      ∃ subs row, below.lookup sup = some subs ∧ (of ids below).rowOf ids sup = some row ∧
        Stands ids below row subs := by
  have hindex : (of ids below).indexOf ids sup = indexIn ids (indices ids below).1 sup := rfl
  have hfind : sup ∈ named below →
      below.zipIdx.find? (fun entry => number ids below entry.1.1 = number ids below sup) =
        below.zipIdx.find? fun entry => entry.1.1 = sup := by
    intro hsup
    refine find?_congr fun entry hentry => decide_eq_decide.mpr ⟨fun heq => ?_, congrArg _⟩
    rw [List.mem_zipIdx_iff_getElem?] at hentry
    exact number_inj (mem_named (List.mem_of_getElem? hentry)).1 hsup heq
  rw [lookup_eq, rowOf, hindex]
  cases hentry : below.zipIdx.find? fun entry => entry.1.1 = sup with
  | none =>
    by_cases hsup : sup ∈ named below
    · have hnone := row_of ids hkeys (number ids below sup)
      rw [hfind hsup, hentry] at hnone
      exact .inl ⟨rfl, by simp [indexIn_indices hsup, hnone]⟩
    · exact .inl ⟨rfl, by simp [indexIn_eq_none hsup]⟩
  | some entry =>
    obtain ⟨⟨node, subs⟩, position⟩ := entry
    have hnode : node = sup := by simpa using List.find?_some hentry
    have hmem := List.mem_zipIdx_iff_getElem?.mp (List.mem_of_find?_eq_some hentry)
    subst hnode
    have hnamed := mem_named (List.mem_of_getElem? hmem)
    have hrow := row_of ids hkeys (number ids below node)
    rw [hfind hnamed.1, hentry, Option.map_some] at hrow
    simp only [indexIn_indices hnamed.1, hrow, Option.map_some, Option.bind_eq_bind,
      Option.bind_some]
    refine .inr ⟨_, _, rfl, rfl, hnamed.2, fun bit => ?_⟩
    by_cases hbit : bit / 64 < (of ids below).words
    · exact test_row hmem hbit
    · refine iff_of_false (fun htest => ?_) fun ⟨sub, hsub, heq⟩ => hbit ?_
      · rw [BitRows.test_eq, BitRows.row, List.getElem?_eq_none] at htest
        · cases htest
        · rw [List.length_take]
          omega
      · rw [← heq]
        exact word_lt (hnamed.2 sub hsub)

omit hkeys in
theorem Stands.holds_iff {row : List BitRows.Word} {subs : List KoreSort}
    (h : Stands ids below row subs) (sort : KoreSort) :
    (of ids below).holds ids row sort = true ↔ sort ∈ subs := by
  rw [holds, Option.any_eq_true]
  constructor
  · rintro ⟨index, hindex, htest⟩
    obtain ⟨sub, hsub, hnumber⟩ := (h.2 index).mp htest
    have hsame := (numbers_indices ids below).unique sort sub index hindex
      (by rw [indexIn_indices (h.1 sub hsub), hnumber])
    rwa [hsame]
  · exact fun hsort => ⟨number ids below sort, indexIn_indices (h.1 sort hsort),
      (h.2 _).mpr ⟨sort, hsort, rfl⟩⟩

omit hkeys in
theorem Stands.meets_iff {left right : List BitRows.Word} {lefts rights : List KoreSort}
    (hleft : Stands ids below left lefts) (hright : Stands ids below right rights) :
    BitRows.meets left right = true ↔ ∃ sort ∈ lefts, sort ∈ rights := by
  rw [BitRows.meets_iff]
  constructor
  · rintro ⟨bit, hl, hr⟩
    obtain ⟨sort, hsort, hnumber⟩ := (hleft.2 bit).mp hl
    obtain ⟨other, hother, hnumber'⟩ := (hright.2 bit).mp hr
    have hsame := number_inj (hleft.1 sort hsort) (hright.1 other hother)
      (hnumber.trans hnumber'.symm)
    exact ⟨sort, hsort, hsame ▸ hother⟩
  · rintro ⟨sort, hl, hr⟩
    exact ⟨number ids below sort, (hleft.2 _).mpr ⟨sort, hl, rfl⟩, (hright.2 _).mpr ⟨sort, hr, rfl⟩⟩

end Rows

end DenseBelow

end KRust.Backend
