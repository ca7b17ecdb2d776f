import Mathlib.Algebra.BigOperators.Group.List.Basic
import Mathlib.Order.Basic
import Mathlib.Data.List.Perm.Subperm
import Mathlib.Order.Lattice

/-!
Maps as lists of entries in the order of their keys. The order is a field, so two maps that
find the same values are the same map.
-/

namespace KRust.Lib

/-- A map whose entries are in the order of their keys, each key once. -/
@[ext] structure SortedMap (K V : Type) [LinearOrder K] where
  entries : List (K × V)
  sorted : entries.Pairwise (fun first second => first.1 < second.1)

namespace SortedMap

variable {K V W : Type} [LinearOrder K]

instance [DecidableEq V] : DecidableEq (SortedMap K V) := fun first second =>
  decidable_of_iff (first.entries = second.entries) SortedMap.ext_iff.symm

def empty : SortedMap K V := ⟨[], List.Pairwise.nil⟩

def keys (m : SortedMap K V) : List K := m.entries.map Prod.fst

def size (m : SortedMap K V) : Nat := m.entries.length

/-- The value of a key. -/
def get (m : SortedMap K V) (k : K) : Option V := m.entries.lookup k

section Lookup

theorem lookup_eq_none {entries : List (K × V)} {k : K} (h : ∀ entry ∈ entries, k < entry.1) :
    entries.lookup k = none := by
  rw [List.lookup_eq_none_iff]
  intro entry hentry
  simpa using (h entry hentry).ne

theorem lookup_eq_some {entries : List (K × V)}
    (h : entries.Pairwise (fun first second => first.1 < second.1)) (k : K) (v : V) :
    entries.lookup k = some v ↔ (k, v) ∈ entries := by
  induction entries with
  | nil => simp
  | cons entry entries ih =>
    obtain ⟨hhead, htail⟩ := List.pairwise_cons.mp h
    rw [List.lookup_cons, List.mem_cons]
    by_cases hk : k = entry.1
    · subst hk
      simp only [BEq.rfl, Option.some.injEq]
      constructor
      · rintro rfl
        exact Or.inl rfl
      · rintro (heq | hmem)
        · rw [← heq]
        · exact absurd (hhead _ hmem) (lt_irrefl _)
    · simp only [beq_eq_false_iff_ne.mpr hk]
      rw [ih htail]
      constructor
      · exact Or.inr
      · rintro (heq | hmem)
        · exact absurd (congrArg Prod.fst heq) hk
        · exact hmem

theorem get_eq_some {m : SortedMap K V} {k : K} {v : V} :
    m.get k = some v ↔ (k, v) ∈ m.entries := lookup_eq_some m.sorted k v

theorem mem_keys {m : SortedMap K V} {k : K} : k ∈ m.keys ↔ ∃ v, m.get k = some v := by
  simp [keys, get_eq_some]

theorem not_mem_keys {m : SortedMap K V} {k : K} : k ∉ m.keys ↔ m.get k = none := by
  rw [mem_keys, Option.eq_none_iff_forall_ne_some]
  simp

theorem keys_sorted (m : SortedMap K V) : m.keys.Pairwise (· < ·) :=
  List.pairwise_map.mpr m.sorted

theorem keys_nodup (m : SortedMap K V) : m.keys.Nodup :=
  m.keys_sorted.imp fun h => h.ne

@[simp] theorem length_keys (m : SortedMap K V) : m.keys.length = m.size := List.length_map _

theorem entries_eq_of_mem {first second : List (K × V)}
    (hfirst : first.Pairwise (fun a b => a.1 < b.1))
    (hsecond : second.Pairwise (fun a b => a.1 < b.1))
    (h : ∀ entry, entry ∈ first ↔ entry ∈ second) : first = second := by
  apply @List.Perm.eq_of_pairwise _ fun a b : K × V => a.1 < b.1
  · intro a b _ _ hab hba
    exact absurd (hab.trans hba) (lt_irrefl _)
  · exact hfirst
  · exact hsecond
  · rw [List.perm_ext_iff_of_nodup (hfirst.imp fun h heq => absurd (congrArg Prod.fst heq) h.ne)
      (hsecond.imp fun h heq => absurd (congrArg Prod.fst heq) h.ne)]
    exact h

/-- Maps that find the same values are the same. -/
theorem ext_get {first second : SortedMap K V} (h : ∀ k, first.get k = second.get k) :
    first = second := by
  apply SortedMap.ext
  apply entries_eq_of_mem first.sorted second.sorted
  rintro ⟨k, v⟩
  rw [← get_eq_some, ← get_eq_some, h k]

@[simp] theorem get_empty (k : K) : (empty : SortedMap K V).get k = none := rfl

end Lookup

section Alter

/-- The entries with the value of a key replaced, in order. -/
def alterEntries (k : K) (change : Option V → V) : List (K × V) → List (K × V)
  | [] => [(k, change none)]
  | (found, v) :: entries =>
    if k < found then (k, change none) :: (found, v) :: entries
    else if k = found then (k, change (some v)) :: entries
    else (found, v) :: alterEntries k change entries

theorem mem_alterEntries {k : K} {change : Option V → V} {entries : List (K × V)} :
    ∀ entry ∈ alterEntries k change entries, entry.1 = k ∨ entry ∈ entries := by
  induction entries with
  | nil =>
    intro entry hentry
    cases List.mem_singleton.mp hentry
    exact Or.inl rfl
  | cons top entries ih =>
    obtain ⟨found, v⟩ := top
    intro entry hentry
    simp only [alterEntries] at hentry
    split at hentry
    · cases List.mem_cons.mp hentry with
      | inl heq => exact Or.inl (congrArg Prod.fst heq)
      | inr htail => exact Or.inr htail
    · split at hentry
      · cases List.mem_cons.mp hentry with
        | inl heq => exact Or.inl (congrArg Prod.fst heq)
        | inr htail => exact Or.inr (List.mem_cons_of_mem _ htail)
      · cases List.mem_cons.mp hentry with
        | inl heq => exact Or.inr (heq ▸ List.mem_cons_self)
        | inr htail => exact (ih entry htail).imp_right (List.mem_cons_of_mem _)

theorem alterEntries_sorted {k : K} {change : Option V → V} {entries : List (K × V)}
    (h : entries.Pairwise (fun first second => first.1 < second.1)) :
    (alterEntries k change entries).Pairwise (fun first second => first.1 < second.1) := by
  induction entries with
  | nil => exact List.pairwise_singleton _ _
  | cons top entries ih =>
    obtain ⟨found, v⟩ := top
    obtain ⟨hhead, htail⟩ := List.pairwise_cons.mp h
    simp only [alterEntries]
    split
    · rename_i hlt
      apply List.pairwise_cons.mpr
      refine ⟨fun entry hentry => ?_, h⟩
      cases List.mem_cons.mp hentry with
      | inl heq => exact heq ▸ hlt
      | inr hmem => exact hlt.trans (hhead entry hmem)
    · split
      · rename_i heq
        subst heq
        exact List.pairwise_cons.mpr ⟨hhead, htail⟩
      · rename_i hlt hne
        apply List.pairwise_cons.mpr
        refine ⟨fun entry hentry => ?_, ih htail⟩
        cases mem_alterEntries entry hentry with
        | inl heq => exact heq ▸ lt_of_le_of_ne (not_lt.mp hlt) (Ne.symm hne)
        | inr hmem => exact hhead entry hmem

theorem lookup_alterEntries {k : K} {change : Option V → V} {entries : List (K × V)}
    (h : entries.Pairwise (fun first second => first.1 < second.1)) (key : K) :
    (alterEntries k change entries).lookup key =
      if key = k then some (change (entries.lookup k)) else entries.lookup key := by
  induction entries with
  | nil => by_cases hk : key = k <;> simp [alterEntries, hk]
  | cons top entries ih =>
    obtain ⟨found, v⟩ := top
    obtain ⟨hhead, htail⟩ := List.pairwise_cons.mp h
    simp only [alterEntries]
    split
    · rename_i hlt
      have hnone : ((found, v) :: entries).lookup k = none := by
        apply lookup_eq_none
        intro entry hentry
        cases List.mem_cons.mp hentry with
        | inl heq => exact heq ▸ hlt
        | inr hmem => exact hlt.trans (hhead entry hmem)
      rw [hnone, List.lookup_cons]
      by_cases hk : key = k
      · simp [hk]
      · simp [hk, beq_eq_false_iff_ne.mpr hk]
    · split
      · rename_i heq
        subst heq
        by_cases hk : key = k
        · simp [hk]
        · simp [List.lookup_cons, hk, beq_eq_false_iff_ne.mpr hk]
      · rename_i hlt hne
        rw [List.lookup_cons, List.lookup_cons, List.lookup_cons, ih htail]
        by_cases hk : key = k
        · subst hk
          simp [beq_eq_false_iff_ne.mpr hne]
        · simp [hk]

/-- The map with the value of a key replaced. -/
def alter (m : SortedMap K V) (k : K) (change : Option V → V) : SortedMap K V :=
  ⟨alterEntries k change m.entries, alterEntries_sorted m.sorted⟩

def insert (m : SortedMap K V) (k : K) (v : V) : SortedMap K V := m.alter k fun _ => v

@[simp] theorem get_alter (m : SortedMap K V) (k : K) (change : Option V → V) (key : K) :
    (m.alter k change).get key = if key = k then some (change (m.get k)) else m.get key :=
  lookup_alterEntries m.sorted key

@[simp] theorem get_insert (m : SortedMap K V) (k : K) (v : V) (key : K) :
    (m.insert k v).get key = if key = k then some v else m.get key :=
  get_alter m k _ key

/-- `extend`: the entries of another map put in, which take priority. -/
def extend (m new : SortedMap K V) : SortedMap K V :=
  new.entries.foldl (fun result entry => result.insert entry.1 entry.2) m

theorem get_foldl_insert (entries : List (K × V))
    (hsorted : entries.Pairwise fun first second => first.1 < second.1) (m : SortedMap K V)
    (k : K) :
    (entries.foldl (fun result entry => result.insert entry.1 entry.2) m).get k =
      (entries.lookup k).or (m.get k) := by
  induction entries generalizing m with
  | nil => simp
  | cons entry entries ih =>
    obtain ⟨hhead, htail⟩ := List.pairwise_cons.mp hsorted
    rw [List.foldl_cons, ih htail, get_insert, List.lookup_cons]
    by_cases hk : k = entry.1
    · subst hk
      rw [lookup_eq_none hhead]
      simp
    · rw [if_neg hk, beq_eq_false_iff_ne.mpr hk]

@[simp] theorem get_extend (m new : SortedMap K V) (k : K) :
    (m.extend new).get k = (new.get k).or (m.get k) :=
  get_foldl_insert new.entries new.sorted m k

end Alter

section Change

/-- The map of the entries that `change` keeps, with the values that it gives them. -/
def filterMap (m : SortedMap K V) (change : K → V → Option W) : SortedMap K W where
  entries := m.entries.filterMap fun entry => (change entry.1 entry.2).map (entry.1, ·)
  sorted := by
    apply List.Pairwise.filterMap _ _ m.sorted
    intro first second hlt a ha b hb
    obtain ⟨_, _, rfl⟩ := Option.map_eq_some_iff.mp ha
    obtain ⟨_, _, rfl⟩ := Option.map_eq_some_iff.mp hb
    exact hlt

@[simp] theorem get_filterMap (m : SortedMap K V) (change : K → V → Option W) (k : K) :
    (m.filterMap change).get k = (m.get k).bind (change k) := by
  apply Option.ext
  intro w
  rw [get_eq_some, Option.bind_eq_some_iff]
  simp only [filterMap, List.mem_filterMap, Option.map_eq_some_iff, get_eq_some]
  constructor
  · rintro ⟨⟨key, v⟩, hmem, w', hchange, heq⟩
    cases heq
    exact ⟨v, hmem, hchange⟩
  · rintro ⟨v, hmem, hchange⟩
    exact ⟨(k, v), hmem, w, hchange, rfl⟩

/-- The map with each value replaced by one that may depend on the key. -/
def map (m : SortedMap K V) (change : K → V → W) : SortedMap K W :=
  m.filterMap fun k v => some (change k v)

@[simp] theorem get_map (m : SortedMap K V) (change : K → V → W) (k : K) :
    (m.map change).get k = (m.get k).map (change k) := by
  rw [map, get_filterMap]
  cases m.get k with
  | none => rfl
  | some v => rfl

/-- The map without the keys that `keep` refuses. -/
def retain (m : SortedMap K V) (keep : K → Bool) : SortedMap K V :=
  m.filterMap fun k v => if keep k then some v else none

@[simp] theorem get_retain (m : SortedMap K V) (keep : K → Bool) (k : K) :
    (m.retain keep).get k = if keep k then m.get k else none := by
  rw [retain, get_filterMap]
  cases m.get k with
  | none => simp
  | some v => rfl

theorem keys_retain (m : SortedMap K V) (keep : K → Bool) (k : K) :
    k ∈ (m.retain keep).keys ↔ k ∈ m.keys ∧ keep k = true := by
  rw [mem_keys, mem_keys]
  simp only [get_retain]
  cases keep k <;> simp

@[simp] theorem keys_map (m : SortedMap K V) (change : K → V → W) :
    (m.map change).keys = m.keys := by
  simp only [keys, map, filterMap, Option.map_some, List.filterMap_eq_map', List.map_map]
  rfl

@[simp] theorem size_map (m : SortedMap K V) (change : K → V → W) :
    (m.map change).size = m.size := by
  rw [← length_keys, keys_map, length_keys]

/-- Leaving a key out makes the map smaller. -/
theorem size_retain_lt {m : SortedMap K V} {keep : K → Bool} {k : K} (hk : k ∈ m.keys)
    (h : keep k = false) : (m.retain keep).size < m.size := by
  rw [← length_keys, ← length_keys]
  have hsub : (m.retain keep).keys ⊆ m.keys.erase k := by
    intro key hkey
    obtain ⟨hmem, hkeep⟩ := (keys_retain m keep key).mp hkey
    rw [m.keys_nodup.mem_erase_iff]
    refine ⟨?_, hmem⟩
    rintro rfl
    rw [h] at hkeep
    cases hkeep
  have hlen := (List.Nodup.subperm (keys_nodup _) hsub).length_le
  have hpos := List.length_pos_of_mem hk
  rw [List.length_erase_of_mem hk] at hlen
  omega

end Change

section Total

variable {M : Type} [AddCommMonoid M]

/-- What the entries of a map come to. -/
def total (m : SortedMap K V) (amount : K → V → M) : M :=
  (m.entries.map fun entry => amount entry.1 entry.2).sum

@[simp] theorem total_empty (amount : K → V → M) : (empty : SortedMap K V).total amount = 0 := rfl

/-- A changed entry counts in place of the one it was. -/
theorem total_alter (m : SortedMap K V) (k : K) (change : Option V → V) (amount : K → V → M) :
    (m.alter k change).total amount + ((m.get k).map (amount k)).getD 0 =
      m.total amount + amount k (change (m.get k)) := by
  obtain ⟨entries, hsorted⟩ := m
  simp only [total, alter, get]
  induction entries with
  | nil => simp [alterEntries]
  | cons top entries ih =>
    obtain ⟨found, v⟩ := top
    obtain ⟨hhead, htail⟩ := List.pairwise_cons.mp hsorted
    simp only [alterEntries]
    split
    · rename_i hlt
      have hnone : ((found, v) :: entries).lookup k = none :=
        lookup_eq_none (List.forall_mem_cons.mpr
          ⟨hlt, fun entry hentry => hlt.trans (hhead entry hentry)⟩)
      rw [hnone]
      simp [add_comm]
    · split
      · rename_i heq
        subst heq
        simp only [List.lookup_cons, BEq.rfl, List.map_cons, List.sum_cons, Option.map_some,
          Option.getD_some]
        rw [add_right_comm, add_comm (amount k (change (some v))), add_right_comm, add_assoc]
      · rename_i hne
        have hlookup : ((found, v) :: entries).lookup k = entries.lookup k := by
          rw [List.lookup_cons, beq_eq_false_iff_ne.mpr hne]
        rw [hlookup, List.map_cons, List.sum_cons, List.map_cons, List.sum_cons, add_assoc,
          add_assoc, ih htail]

/-- A map divides into the entries that a test keeps and those it refuses. -/
theorem total_retain (m : SortedMap K V) (keep : K → Bool) (amount : K → V → M) :
    (m.retain keep).total amount + (m.retain fun k => !keep k).total amount = m.total amount := by
  obtain ⟨entries, hsorted⟩ := m
  simp only [total, retain, filterMap]
  clear hsorted
  induction entries with
  | nil => simp
  | cons top entries ih =>
    rw [List.map_cons, List.sum_cons, ← ih]
    cases hkeep : keep top.1 with
    | true =>
      simp only [List.filterMap_cons, hkeep, Bool.not_true, Bool.false_eq_true, if_true, if_false,
        Option.map_some, Option.map_none, List.map_cons, List.sum_cons, add_assoc]
    | false =>
      simp only [List.filterMap_cons, hkeep, Bool.not_false, Bool.false_eq_true, if_true, if_false,
        Option.map_some, Option.map_none, List.map_cons, List.sum_cons]
      rw [add_left_comm]

end Total

end SortedMap

end KRust.Lib
