import KRust.Lib.KeyedCounts
import KRust.Term.Chunks.ReduceLaws

/-!
The multiset of `multiset.rs`: a chunked sequence of distinct elements, each with
its number of occurrences, ordered by element. A canonical one is determined by
how often it holds each element, whatever the shape of its tree.
-/

set_option linter.unusedSectionVars false

namespace KRust.Term.Chunks

open KRust.Lib KRust.Lib.Partial KRust.Lib.KeyedCounts

structure Occurrences (E : Type) where
  element : E
  count : Nat
deriving DecidableEq, Repr

/-- `FxBuildHasher.hash_one`, which agrees with equality. -/
class FxHash (E : Type) where
  hashOne : Occurrences E → UInt64

/-- `FxHasher` over two words, an element read as one and its count. -/
instance : FxHash Nat where
  hashOne entry :=
    let mixed := (UInt64.ofNat entry.element * 0xf1357aea2e62a9c5 + UInt64.ofNat entry.count) *
      0xf1357aea2e62a9c5
    mixed <<< 26 ||| mixed >>> 38

instance {E : Type} [FxHash E] : Item (Occurrences E) E Unit Unit where
  key := Occurrences.element
  hash64 := FxHash.hashOne
  summary _ := ()
  group _ := ()

structure Multiset (E : Type) (B : Branching) where
  entries : Chunked (Occurrences E) Unit Unit B

variable {E : Type} [LinearOrder E] [FxHash E] {B : Branching}

namespace Multiset

def new : Multiset E B := ⟨Chunked.new⟩

/-- The number of distinct elements. -/
def len (multiset : Multiset E B) : Nat := multiset.entries.len

def isEmpty (multiset : Multiset E B) : Bool := multiset.entries.isEmpty

def addOccurrences (held added : Occurrences E) : Option (Occurrences E) := do
  return { element := held.element, count := ← checkedAdd held.count added.count }

def removeOccurrences (held removed : Occurrences E) : Option (Option (Occurrences E)) := do
  let count ← checkedSub held.count removed.count
  return if 0 < count then some { element := held.element, count } else none

/-- The lighter multiset's entries added to the heavier one. -/
def combine (left right : Multiset E B) : Option (Multiset E B) :=
  let (heavier, lighter) := if left.len ≥ right.len then (left, right) else (right, left)
  if lighter.isEmpty then some heavier
  else do
    let added ← toVec lighter.entries
    return ⟨← addByKey heavier.entries added addOccurrences⟩

/-- `part`'s occurrences removed. -/
def subtract (whole part : Multiset E B) : Option (Multiset E B) :=
  if part.isEmpty then some whole
  else do
    let removed ← toVec part.entries
    return ⟨← reduceByKey whole.entries removed removeOccurrences⟩

def weight (multiset : Multiset E B) : Nat := multiset.len

end Multiset

/-- How often each element occurs in entries. -/
def occurrencesIn (entries : List (Occurrences E)) : E → Nat :=
  counts Occurrences.element Occurrences.count entries

@[simp] theorem occurrencesIn_nil : occurrencesIn ([] : List (Occurrences E)) = 0 := rfl

theorem occurrencesIn_cons (entry : Occurrences E) (entries : List (Occurrences E)) (e : E) :
    occurrencesIn (entry :: entries) e =
      (if entry.element = e then entry.count else 0) + occurrencesIn entries e := rfl

def Multiset.occurrences (multiset : Multiset E B) : E → Nat :=
  occurrencesIn multiset.entries.items

/-- An entry's count is a positive machine number. -/
def Occurrences.Counted (entry : Occurrences E) : Prop := 1 ≤ entry.count ∧ entry.count ≤ usizeMax

/-- Entries ordered by element, one for each, whose counts are positive machine
numbers. -/
structure CanonicalEntries (entries : List (Occurrences E)) : Prop where
  ordered : KeyOrdered entries
  counted : ∀ entry ∈ entries, entry.Counted

theorem CanonicalEntries.canonical {entries : List (Occurrences E)} (h : CanonicalEntries entries) :
    KeyedCounts.Canonical Occurrences.element Occurrences.count entries :=
  ⟨h.ordered, fun entry hentry => (h.counted entry hentry).1⟩

/-- Canonical entries are determined by how often they hold each element. -/
theorem CanonicalEntries.ext {xs ys : List (Occurrences E)} (hxs : CanonicalEntries xs)
    (hys : CanonicalEntries ys) (heq : occurrencesIn xs = occurrencesIn ys) : xs = ys := by
  refine hxs.canonical.eq_of_counts_eq ?_ hys.canonical heq
  rintro ⟨element, count⟩ ⟨element', count'⟩ rfl rfl
  rfl

structure Multiset.Canonical (multiset : Multiset E B) : Prop where
  valid : multiset.entries.Valid
  entries : CanonicalEntries multiset.entries.items

/-- The occurrences a multiset can hold: every count and the number of distinct
elements are machine numbers. -/
structure HeldByMachine (occurrences : E → Nat) : Prop where
  counts : ∀ e, occurrences e ≤ usizeMax
  distinct : (Function.support occurrences).encard ≤ usizeMax

theorem HeldByMachine.mono {more fewer : E → Nat} (h : HeldByMachine more) (hle : fewer ≤ more) :
    HeldByMachine fewer where
  counts e := (hle e).trans (h.counts e)
  distinct := by
    refine le_trans (Set.encard_le_encard ?_) h.distinct
    intro e he
    have hlt := hle e
    have hpos := Nat.pos_of_ne_zero he
    exact Nat.pos_iff_ne_zero.mp (lt_of_lt_of_le hpos hlt)

theorem CanonicalEntries.heldByMachine {entries : List (Occurrences E)}
    (h : CanonicalEntries entries) (hlen : entries.length ≤ usizeMax) :
    HeldByMachine (occurrencesIn entries) where
  counts e := by
    by_cases hpos : 0 < occurrencesIn entries e
    · obtain ⟨entry, hentry, rfl⟩ := (h.canonical.counts_pos_iff e).mp hpos
      rw [occurrencesIn, h.canonical.counts_mem hentry]
      exact (h.counted entry hentry).2
    · omega
  distinct := by
    rw [occurrencesIn, h.canonical.encard_support]
    exact_mod_cast hlen

theorem addOccurrences_yields (held added : Occurrences E) :
    Yields (held.count + added.count ≤ usizeMax) (Multiset.addOccurrences held added)
      (fun sum => sum = ⟨held.element, held.count + added.count⟩ ∧
        held.count + added.count ≤ usizeMax) := by
  unfold Multiset.addOccurrences
  refine (checkedAdd_yields held.count added.count).bind fun count hcount => ?_
  obtain ⟨rfl, hle⟩ := hcount
  exact ⟨rfl, hle⟩

theorem removeOccurrences_of_le {held removed : Occurrences E} (hle : removed.count ≤ held.count) :
    Multiset.removeOccurrences held removed =
      some (if removed.count < held.count then some ⟨held.element, held.count - removed.count⟩
        else none) := by
  unfold Multiset.removeOccurrences
  rw [checkedSub_of_le hle]
  have hpos : 0 < held.count - removed.count ↔ removed.count < held.count := by omega
  simp only [Option.bind_eq_bind, Option.bind_some, hpos, Option.pure_def]

section Lists

variable {xs ys : List (Occurrences E)}

/-- Adding the entries of one list to those of another adds their counts. -/
theorem addedList_counts (hxs : ∀ x ∈ xs, x.Counted) (hys : ∀ y ∈ ys, y.Counted) :
    Yields (∀ e, occurrencesIn xs e + occurrencesIn ys e ≤ usizeMax)
      (addedList Multiset.addOccurrences xs ys)
      (fun ws => (∀ w ∈ ws, w.Counted) ∧
        ∀ e, occurrencesIn ws e = occurrencesIn xs e + occurrencesIn ys e) := by
  unfold addedList
  induction xs, ys using keyedEdit.induct with
  | case1 xs =>
    rw [keyedEdit_nil_right]
    exact ⟨hxs, by simp⟩
  | case2 y ys ih =>
    rw [keyedEdit]
    refine ((ih hxs fun z hz => hys z (by simp [hz])).mono (fun hfits e => ?_) fun _ h => h).bind
      fun ws hws => ?_
    · have := hfits e
      rw [occurrencesIn_cons] at this
      omega
    · obtain ⟨hcounted, hcounts⟩ := hws
      refine ⟨by simpa using ⟨hys y (by simp), hcounted⟩, fun e => ?_⟩
      rw [List.singleton_append, occurrencesIn_cons, occurrencesIn_cons, hcounts e]
      omega
  | case3 x xs y ys hlt ih =>
    rw [keyedEdit, if_pos hlt]
    refine ((ih (fun z hz => hxs z (by simp [hz])) hys).mono (fun hfits e => ?_) fun _ h => h).bind
      fun ws hws => ?_
    · have := hfits e
      rw [occurrencesIn_cons x] at this
      omega
    · obtain ⟨hcounted, hcounts⟩ := hws
      refine ⟨by simpa using ⟨hxs x (by simp), hcounted⟩, fun e => ?_⟩
      rw [occurrencesIn_cons x ws, occurrencesIn_cons x xs, hcounts e]
      omega
  | case4 x xs y ys hlt heq ih =>
    have helement : x.element = y.element := heq
    have hx := hxs x (by simp)
    rw [keyedEdit, if_neg hlt, if_pos heq]
    have hsum : Yields (∀ e, occurrencesIn (x :: xs) e + occurrencesIn (y :: ys) e ≤ usizeMax)
        (do return [← Multiset.addOccurrences x y])
        (fun zs => zs = [⟨x.element, x.count + y.count⟩] ∧ x.count + y.count ≤ usizeMax) := by
      refine ((addOccurrences_yields x y).mono (fun hfits => ?_) fun _ h => h).bind
        fun sum hsum => ?_
      · have := hfits x.element
        rw [occurrencesIn_cons, occurrencesIn_cons, if_pos rfl, if_pos helement.symm] at this
        omega
      · obtain ⟨rfl, hle⟩ := hsum
        exact ⟨rfl, hle⟩
    refine hsum.bind ?_
    · rintro _ ⟨rfl, hle⟩
      refine ((ih (fun z hz => hxs z (by simp [hz])) fun z hz => hys z (by simp [hz])).mono
        (fun hfits e => ?_) fun _ h => h).bind fun ws hws => ?_
      · have := hfits e
        rw [occurrencesIn_cons, occurrencesIn_cons] at this
        omega
      · obtain ⟨hcounted, hcounts⟩ := hws
        have hsum : Occurrences.Counted ⟨x.element, x.count + y.count⟩ :=
          ⟨hx.1.trans (Nat.le_add_right _ _), hle⟩
        refine ⟨by simpa using ⟨hsum, hcounted⟩, fun e => ?_⟩
        rw [List.singleton_append, occurrencesIn_cons, occurrencesIn_cons x, occurrencesIn_cons y,
          hcounts e, ← helement]
        by_cases he : x.element = e
        · simp only [if_pos he]
          omega
        · simp only [if_neg he]
          omega
  | case5 x xs y ys hlt hne ih =>
    rw [keyedEdit, if_neg hlt, if_neg hne]
    refine ((ih hxs fun z hz => hys z (by simp [hz])).mono (fun hfits e => ?_) fun _ h => h).bind
      fun ws hws => ?_
    · have := hfits e
      rw [occurrencesIn_cons y] at this
      omega
    · obtain ⟨hcounted, hcounts⟩ := hws
      refine ⟨by simpa using ⟨hys y (by simp), hcounted⟩, fun e => ?_⟩
      rw [List.singleton_append, occurrencesIn_cons y ws, occurrencesIn_cons y ys, hcounts e]
      omega

/-- What a list ordered by element holds of a lower one. -/
theorem occurrencesIn_below {e : E} (h : ∀ x ∈ xs, e < x.element) : occurrencesIn xs e = 0 :=
  counts_of_below h

/-- Removing entries held often enough takes their counts away. -/
theorem reducedList_counts (hxsOrdered : KeyOrdered xs) (hysOrdered : KeyOrdered ys)
    (hxs : ∀ x ∈ xs, x.Counted) (hys : ∀ y ∈ ys, y.Counted)
    (hheld : ∀ e, occurrencesIn ys e ≤ occurrencesIn xs e) :
    Yields True (reducedList Multiset.removeOccurrences xs ys)
      (fun ws => (∀ w ∈ ws, w.Counted) ∧
        ∀ e, occurrencesIn ws e = occurrencesIn xs e - occurrencesIn ys e) := by
  unfold reducedList
  induction xs, ys using keyedEdit.induct with
  | case1 xs =>
    rw [keyedEdit_nil_right]
    exact ⟨hxs, by simp⟩
  | case2 y ys ih =>
    have hy := (hys y (by simp)).1
    have := hheld y.element
    rw [occurrencesIn_cons, if_pos rfl, occurrencesIn_nil, Pi.zero_apply] at this
    omega
  | case3 x xs y ys hlt ih =>
    have hbelow : ∀ z ∈ y :: ys, x.element < z.element := by
      intro z hz
      rcases List.mem_cons.mp hz with rfl | hz
      · exact hlt
      · exact lt_trans hlt (List.rel_of_pairwise_cons hysOrdered hz)
    have hzero := occurrencesIn_below hbelow
    rw [keyedEdit, if_pos hlt]
    refine (ih hxsOrdered.of_cons hysOrdered (fun z hz => hxs z (by simp [hz])) hys
      fun e => ?_).bind fun ws hws => ?_
    · by_cases he : x.element = e
      · rw [← he, hzero]
        exact Nat.zero_le _
      · have := hheld e
        rwa [occurrencesIn_cons x, if_neg he, Nat.zero_add] at this
    · obtain ⟨hcounted, hcounts⟩ := hws
      refine ⟨by simpa using ⟨hxs x (by simp), hcounted⟩, fun e => ?_⟩
      rw [occurrencesIn_cons x ws, occurrencesIn_cons x xs, hcounts e]
      by_cases he : x.element = e
      · rw [← he, hzero, Nat.sub_zero, Nat.sub_zero]
      · rw [if_neg he, Nat.zero_add, Nat.zero_add]
  | case4 x xs y ys hlt heq ih =>
    have helement : x.element = y.element := heq
    have hx := hxs x (by simp)
    have hy := hys y (by simp)
    have hxzero : occurrencesIn xs x.element = 0 :=
      occurrencesIn_below fun z hz => List.rel_of_pairwise_cons hxsOrdered hz
    have hyzero : occurrencesIn ys x.element = 0 := by
      rw [helement]
      exact occurrencesIn_below fun z hz => List.rel_of_pairwise_cons hysOrdered hz
    have hle : y.count ≤ x.count := by
      have := hheld x.element
      rwa [occurrencesIn_cons, occurrencesIn_cons, if_pos rfl, if_pos helement.symm, hxzero, hyzero,
        Nat.add_zero, Nat.add_zero] at this
    rw [keyedEdit, if_neg hlt, if_pos heq, removeOccurrences_of_le hle]
    simp only [Option.bind_eq_bind, Option.bind_some]
    refine (ih hxsOrdered.of_cons hysOrdered.of_cons (fun z hz => hxs z (by simp [hz]))
      (fun z hz => hys z (by simp [hz])) fun e => ?_).bind fun ws hws => ?_
    · by_cases he : x.element = e
      · rw [← he, hyzero]
        exact Nat.zero_le _
      · have := hheld e
        rwa [occurrencesIn_cons x, occurrencesIn_cons y, if_neg he, if_neg (helement ▸ he),
          Nat.zero_add, Nat.zero_add] at this
    · obtain ⟨hcounted, hcounts⟩ := hws
      have hrest : occurrencesIn ws x.element = 0 := by
        rw [hcounts, hxzero, hyzero]
      by_cases hleft : y.count < x.count
      · rw [if_pos hleft]
        have hpart : Occurrences.Counted ⟨x.element, x.count - y.count⟩ :=
          ⟨by simp only; omega, (Nat.sub_le _ _).trans hx.2⟩
        refine ⟨by simpa using ⟨hpart, hcounted⟩, fun e => ?_⟩
        simp only [Option.toList_some, List.singleton_append]
        rw [occurrencesIn_cons, occurrencesIn_cons x, occurrencesIn_cons y, ← helement]
        by_cases he : x.element = e
        · subst he
          simp only [if_pos, hrest, hxzero, hyzero, Nat.add_zero]
        · simp only [if_neg he, Nat.zero_add, hcounts e]
      · rw [if_neg hleft]
        refine ⟨by simpa using hcounted, fun e => ?_⟩
        simp only [Option.toList_none, List.nil_append]
        rw [occurrencesIn_cons x, occurrencesIn_cons y, ← helement]
        by_cases he : x.element = e
        · subst he
          simp only [if_pos, hrest, hxzero, hyzero, Nat.add_zero]
          omega
        · simp only [if_neg he, Nat.zero_add, hcounts e]
  | case5 x xs y ys hlt hne ih =>
    have hyx : y.element < x.element := lt_of_le_of_ne (not_lt.mp hlt) (Ne.symm hne)
    have hzero : occurrencesIn (x :: xs) y.element = 0 := by
      refine occurrencesIn_below fun z hz => ?_
      rcases List.mem_cons.mp hz with rfl | hz
      · exact hyx
      · exact hyx.trans (List.rel_of_pairwise_cons hxsOrdered hz)
    have hy := (hys y (by simp)).1
    have := hheld y.element
    rw [hzero, occurrencesIn_cons, if_pos rfl] at this
    omega

end Lists

namespace Multiset

variable {left right whole part : Multiset E B}

theorem addOccurrences_keeps (x y : Occurrences E) (zs : List (Occurrences E))
    (hzs : (do return [← addOccurrences x y]) = some zs) :
    zs.length ≤ 1 ∧ ∀ z ∈ zs, Item.key z = Item.key x := by
  obtain ⟨sum, hsum, hret⟩ := Option.bind_eq_some_iff.mp hzs
  obtain rfl := Option.some.inj hret
  obtain ⟨rfl, _⟩ := (addOccurrences_yields x y).of_eq_some hsum
  exact ⟨by simp, by simp [Item.key]⟩

theorem removeOccurrences_keeps (x y : Occurrences E) (zs : List (Occurrences E))
    (hzs : (do return (← removeOccurrences x y).toList) = some zs) :
    zs.length ≤ 1 ∧ ∀ z ∈ zs, Item.key z = Item.key x ∧ (x.Counted → z.Counted) := by
  obtain ⟨result, hresult, hret⟩ := Option.bind_eq_some_iff.mp hzs
  obtain rfl := Option.some.inj hret
  obtain ⟨count, hcount, hleft⟩ := Option.bind_eq_some_iff.mp hresult
  obtain rfl := Option.some.inj hleft
  split
  · next hpos =>
    have hle : count ≤ x.count := by
      unfold checkedSub at hcount
      split at hcount
      · exact (Option.some.inj hcount) ▸ Nat.sub_le _ _
      · cases hcount
    refine ⟨by simp, fun z hz => ?_⟩
    obtain rfl : z = ⟨x.element, count⟩ := by simpa using hz
    exact ⟨rfl, fun hx => ⟨hpos, hle.trans hx.2⟩⟩
  · simp

/-- The batch of a combination put into the heavier multiset. -/
theorem addEntries_yields {heavier lighter : Multiset E B} (hheavier : heavier.Canonical)
    (hlighter : lighter.Canonical) :
    Yields (HeldByMachine (heavier.occurrences + lighter.occurrences))
      (addByKey heavier.entries lighter.entries.items addOccurrences)
      (fun result => (⟨result⟩ : Multiset E B).Canonical ∧
        occurrencesIn result.items = heavier.occurrences + lighter.occurrences) := by
  have hxs := hheavier.entries
  have hys := hlighter.entries
  have hcounts := addedList_counts hxs.counted hys.counted
  -- The entries of a list edit that does not stop.
  have hentries : ∀ ws, addedList addOccurrences heavier.entries.items lighter.entries.items = some ws →
      CanonicalEntries ws ∧ occurrencesIn ws = heavier.occurrences + lighter.occurrences := by
    intro ws hws
    obtain ⟨hcounted, hsum⟩ := hcounts.of_eq_some hws
    have hordered := keyedEdit_ordered (fun x y zs _ hzs => addOccurrences_keeps x y zs hzs)
      (fun y zs hzs => by
        obtain rfl := Option.some.inj hzs
        simp) hxs.ordered hys.ordered hws
    exact ⟨⟨hordered.1, hcounted⟩, funext hsum⟩
  refine (addByKey_yields hheavier.valid hxs.ordered lighter.entries.items hys.ordered).mono
    (fun hheld => ?_) fun result hresult => ?_
  · obtain ⟨ws, hws, _⟩ := hcounts.total fun e => hheld.counts e
    obtain ⟨hcanonical, hsum⟩ := hentries ws hws
    refine ⟨ws, hws, ?_, trivial, trivial⟩
    have hdistinct := hheld.distinct
    rw [← hsum, occurrencesIn, hcanonical.canonical.encard_support] at hdistinct
    exact_mod_cast hdistinct
  · obtain ⟨hvalid, hitems⟩ := hresult
    obtain ⟨hcanonical, hsum⟩ := hentries _ hitems
    exact ⟨⟨hvalid, hcanonical⟩, hsum⟩

theorem isEmpty_iff (multiset : Multiset E B) (hcanonical : multiset.Canonical)
    (hempty : multiset.isEmpty = true) : multiset.occurrences = 0 := by
  obtain ⟨root⟩ := multiset
  obtain ⟨root⟩ := root
  cases root with
  | none => rfl
  | some root => cases hempty

/-- Combining adds the occurrences, and stops only where the machine cannot hold them. -/
theorem combine_yields (hleft : left.Canonical) (hright : right.Canonical) :
    Yields (HeldByMachine (left.occurrences + right.occurrences)) (combine left right)
      (fun result => result.Canonical ∧
        result.occurrences = left.occurrences + right.occurrences) := by
  -- Which of the two is the heavier does not matter to their sum.
  have hboth : ∀ heavier lighter : Multiset E B, heavier.Canonical → lighter.Canonical →
      Yields (HeldByMachine (heavier.occurrences + lighter.occurrences))
        (if lighter.isEmpty then some heavier
          else do
            let added ← toVec lighter.entries
            return ⟨← addByKey heavier.entries added addOccurrences⟩)
        (fun result => result.Canonical ∧
          result.occurrences = heavier.occurrences + lighter.occurrences) := by
    intro heavier lighter hheavier hlighter
    split
    · next hempty =>
      refine ⟨hheavier, ?_⟩
      rw [isEmpty_iff lighter hlighter hempty, add_zero]
    · obtain ⟨h, hwithin⟩ := hlighter.valid.within
      simp only [toVec_eq hwithin, Option.bind_eq_bind, Option.bind_some]
      exact (addEntries_yields hheavier hlighter).bind fun result hresult => hresult
  unfold combine
  by_cases hheavy : left.len ≥ right.len
  · rw [if_pos hheavy]
    exact hboth left right hleft hright
  · rw [if_neg hheavy, add_comm]
    exact hboth right left hright hleft

/-- What is left of canonical entries is canonical. -/
theorem reducedList_canonical {xs ys ws : List (Occurrences E)} (hxs : CanonicalEntries xs)
    (hys : CanonicalEntries ys) (hws : reducedList removeOccurrences xs ys = some ws) :
    CanonicalEntries ws where
  ordered := (keyedEdit_ordered
    (fun x y zs _ hzs => ⟨(removeOccurrences_keeps x y zs hzs).1,
      fun z hz => ((removeOccurrences_keeps x y zs hzs).2 z hz).1⟩)
    (by simp) hxs.ordered hys.ordered hws).1
  counted := keyedEdit_forall
    (fun x y zs hx hzs z hz => ((removeOccurrences_keeps x y zs hzs).2 z hz).2 hx)
    (by simp) hxs.counted hws

/-- Whatever a subtraction leaves is canonical. -/
theorem subtract_canonical (hwhole : whole.Canonical) (hpart : part.Canonical)
    {result : Multiset E B} (hresult : subtract whole part = some result) : result.Canonical := by
  unfold subtract at hresult
  split at hresult
  · obtain rfl := Option.some.inj hresult
    exact hwhole
  · obtain ⟨h, hwithin⟩ := hpart.valid.within
    rw [toVec_eq hwithin] at hresult
    simp only [Option.bind_eq_bind, Option.bind_some] at hresult
    obtain ⟨entries, hentries, hret⟩ := Option.bind_eq_some_iff.mp hresult
    obtain rfl := Option.some.inj hret
    obtain ⟨hvalid, hitems⟩ := (reduceByKey_yields hwhole.valid hwhole.entries.ordered
      part.entries.items hpart.entries.ordered).of_eq_some hentries
    exact ⟨hvalid, reducedList_canonical hwhole.entries hpart.entries hitems⟩

/-- Subtracting a multiset held takes its occurrences away and never stops. -/
theorem subtract_yields (hwhole : whole.Canonical) (hpart : part.Canonical)
    (hheld : part.occurrences ≤ whole.occurrences) :
    Yields True (subtract whole part)
      (fun result => result.Canonical ∧
        result.occurrences = fun e => whole.occurrences e - part.occurrences e) := by
  unfold subtract
  split
  · next hempty =>
    refine ⟨hwhole, ?_⟩
    rw [isEmpty_iff part hpart hempty]
    rfl
  · have hxs := hwhole.entries
    have hys := hpart.entries
    obtain ⟨h, hwithin⟩ := hpart.valid.within
    obtain ⟨ws, hws, hcounted, hrest⟩ := (reducedList_counts hxs.ordered hys.ordered hxs.counted
      hys.counted hheld).total trivial
    have hcanonical := reducedList_canonical hxs hys hws
    obtain ⟨h', hwithin'⟩ := hwhole.valid.within
    have hlen : ws.length ≤ usizeMax := (reducedList_length hws).trans (Chunked.Within.fits hwithin').count
    simp only [toVec_eq hwithin, Option.bind_eq_bind, Option.bind_some]
    refine ((reduceByKey_yields hwhole.valid hxs.ordered part.entries.items hys.ordered).mono
      (fun _ => ⟨ws, hws, hlen, trivial, trivial⟩) fun _ h => h).bind fun result hresult => ?_
    obtain ⟨hvalid, hitems⟩ := hresult
    rw [hws] at hitems
    obtain rfl := Option.some.inj hitems
    exact ⟨⟨hvalid, hcanonical⟩, funext hrest⟩

end Multiset

end KRust.Term.Chunks
