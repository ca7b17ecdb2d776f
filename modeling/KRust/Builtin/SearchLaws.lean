import KRust.Builtin.BigInts
import KRust.Builtin.Search

/-!
What the hooks that cut and search strings answer, in code points: slices start and end on them,
a search finds the first or the last occurrence within its bounds, and counting and replacing
follow the first occurrence and the rest after it.
-/

namespace KRust.Builtin.Search

open KRust.Backend KRust.Lib
open Occurrences (OccursAt)

section Offsets

/-- The byte at which a code point begins, or the end. -/
def byteOffset (text : List Char) (unit : Nat) : Nat := (Utf8.encode (text.take unit)).length

theorem length_codePointOffsets (offset : Nat) (text : List Char) :
    (codePointOffsets offset text).length = text.length := by
  induction text generalizing offset with
  | nil => rfl
  | cons c text ih => rw [codePointOffsets, List.length_cons, ih, List.length_cons]

theorem getElem?_codePointOffsets (offset : Nat) (text : List Char) (unit : Nat) :
    (codePointOffsets offset text ++ [offset + (Utf8.encode text).length])[unit]? =
      if unit ≤ text.length then some (offset + byteOffset text unit) else none := by
  induction text generalizing offset unit with
  | nil => cases unit <;> simp [codePointOffsets, byteOffset]
  | cons c text ih =>
    have hlen : (String.utf8EncodeChar c).length = c.utf8Size := String.length_utf8EncodeChar c
    cases unit with
    | zero => simp [codePointOffsets, byteOffset]
    | succ unit =>
      have hrest := ih (offset + c.utf8Size) unit
      rw [codePointOffsets, List.cons_append, List.getElem?_cons_succ, Utf8.encode_cons,
        List.length_append, hlen, ← Nat.add_assoc, hrest]
      simp only [List.length_cons, Nat.succ_le_succ_iff, byteOffset, List.take_succ_cons,
        Utf8.encode_cons, List.length_append, hlen, Nat.add_assoc]

/-- The offsets of the code points of a text, and its end. -/
theorem getElem?_starts (text : List Char) (unit : Nat) :
    (codePointOffsets 0 text ++ [(Utf8.encode text).length])[unit]? =
      if unit ≤ text.length then some (byteOffset text unit) else none := by
  have hget := getElem?_codePointOffsets 0 text unit
  rwa [Nat.zero_add, Nat.zero_add] at hget

theorem encode_split (text : List Char) (unit : Nat) :
    Utf8.encode text = Utf8.encode (text.take unit) ++ Utf8.encode (text.drop unit) := by
  rw [← Utf8.encode_append, List.take_append_drop]

/-- Code points begin on boundaries, and the end is one. -/
theorem isCharBoundary_byteOffset (text : List Char) (unit : Nat) :
    isCharBoundary (Utf8.encode text) (byteOffset text unit) = true := by
  unfold isCharBoundary
  cases hdrop : text.drop unit with
  | nil =>
    have hlength : byteOffset text unit = (Utf8.encode text).length := by
      rw [encode_split text unit, hdrop, Utf8.encode_nil, List.append_nil, byteOffset]
    simp [hlength]
  | cons c rest =>
    obtain ⟨first, later, hfirst, hstart, -⟩ := Occurrences.encodeChar_bytes c
    have hget : (Utf8.encode text)[byteOffset text unit]? = some first := by
      rw [encode_split text unit, hdrop, byteOffset, List.getElem?_append_right (Nat.le_refl _),
        Nat.sub_self, Utf8.encode_cons, hfirst]
      rfl
    simp [hget, hstart]

theorem byteOffset_mono {text : List Char} {i j : Nat} (h : i ≤ j) :
    byteOffset text i ≤ byteOffset text j := by
  have hsplit := encode_split (text.take j) i
  rw [List.take_take, Nat.min_eq_left h] at hsplit
  rw [byteOffset, byteOffset, hsplit, List.length_append]
  exact Nat.le_add_right _ _

/-- A slice between code points holds the code points between them. -/
theorem slice_byteOffset (text : List Char) {i j : Nat} (h : i ≤ j) :
    slice (Utf8.encode text) (byteOffset text i) (byteOffset text j) =
      .ok (Utf8.encode ((text.take j).drop i)) := by
  rw [slice, if_pos ⟨byteOffset_mono h, isCharBoundary_byteOffset text i,
    isCharBoundary_byteOffset text j⟩]
  have htake : (Utf8.encode text).take (byteOffset text j) = Utf8.encode (text.take j) := by
    rw [encode_split text j, byteOffset, List.take_left]
  have hdrop : (Utf8.encode (text.take j)).drop (byteOffset text i) =
      Utf8.encode ((text.take j).drop i) := by
    have hsplit := encode_split (text.take j) i
    rw [List.take_take, Nat.min_eq_left h] at hsplit
    rw [hsplit, byteOffset, List.drop_left]
  rw [htake, hdrop]

theorem byteOffset_length (text : List Char) :
    byteOffset text text.length = (Utf8.encode text).length := by
  rw [byteOffset, List.take_length]

theorem sliceFrom_byteOffset (text : List Char) {unit : Nat} (h : unit ≤ text.length) :
    sliceFrom (Utf8.encode text) (byteOffset text unit) = .ok (Utf8.encode (text.drop unit)) := by
  rw [sliceFrom, ← byteOffset_length, slice_byteOffset text h, List.take_length]

end Offsets

section Substring

theorem scanOffsets_after {start stop unit : Nat} (hstart : start < unit) (hstop : unit ≤ stop)
    (first : Option Nat) (offsets : List Nat) :
    scanOffsets start stop unit first offsets = (first, offsets[stop - unit]?) := by
  induction offsets generalizing unit with
  | nil => simp [scanOffsets]
  | cons offset offsets ih =>
    have hne : unit ≠ start := by omega
    simp only [scanOffsets, if_neg hne]
    by_cases hunit : unit = stop
    · simp [hunit]
    · have hsub : stop - unit = stop - (unit + 1) + 1 := by omega
      rw [if_neg hunit, ih (by omega) (by omega), hsub, List.getElem?_cons_succ]

/-- What is scanned are the offsets at two positions in order. -/
theorem scanOffsets_eq {start stop unit : Nat} (hunit : unit ≤ start) (hle : start ≤ stop)
    (offsets : List Nat) : scanOffsets start stop unit none offsets =
      (offsets[start - unit]?, offsets[stop - unit]?) := by
  induction offsets generalizing unit with
  | nil => simp [scanOffsets]
  | cons offset offsets ih =>
    simp only [scanOffsets]
    by_cases hstart : unit = start
    · rw [if_pos hstart]
      by_cases hstop : unit = stop
      · simp [hstop, ← hstart]
      · have hsub : stop - unit = stop - (unit + 1) + 1 := by omega
        rw [if_neg hstop, scanOffsets_after (by omega) (by omega), hsub, List.getElem?_cons_succ]
        simp [hstart]
    · have hsub : stop - unit = stop - (unit + 1) + 1 := by omega
      have hsub' : start - unit = start - (unit + 1) + 1 := by omega
      rw [if_neg hstart, if_neg (by omega), ih (by omega), hsub, hsub', List.getElem?_cons_succ,
        List.getElem?_cons_succ]

/-- A string that the target can hold: its bytes lie in one allocation with two counts. -/
def Held (env : Environment) (text : List Char) : Prop :=
  (Utf8.encode text).length + 2 * (env.pointerWidth.bits / 8) ≤ env.isizeMax

theorem length_le_encode (text : List Char) : text.length ≤ (Utf8.encode text).length := by
  induction text with
  | nil => exact Nat.le_refl 0
  | cons c text ih =>
    have hpos := List.length_pos_iff.mpr (Utf8.encodeChar_ne_nil c)
    rw [Utf8.encode_cons, List.length_append, List.length_cons]
    omega

theorem Held.length_lt {env : Environment} {text : List Char} (h : Held env text) :
    text.length < env.isizeMax := by
  have hlength := length_le_encode text
  have hcounts : 0 < env.pointerWidth.bits / 8 := by cases env.pointerWidth <;> decide
  unfold Held at h
  omega

variable {bigInts : BigInts} {env : Environment}

theorem toUsize_natCast {n : Nat} (h : n ≤ env.usizeMax) : toUsize env n = some n := by
  rw [toUsize, if_pos ⟨Int.natCast_nonneg n, by exact_mod_cast h⟩, Int.toNat_natCast]

theorem toUsize_eq_some {n : Int} {found : Nat} (h : toUsize env n = some found) :
    found = n.toNat := by
  unfold toUsize at h
  split at h <;> cases h
  rfl

theorem rangeOffsets_inside {text : List Char} (hheld : Held env text) {i j : Nat} (hle : i ≤ j)
    (hj : j ≤ text.length) :
    rangeOffsets env text i j = (some (byteOffset text i), some (byteOffset text j)) := by
  have hlength : text.length ≤ env.usizeMax := (hheld.length_lt.trans env.isizeMax_lt).le
  have hrange : 0 ≤ (i : Int) ∧ (i : Int) ≤ j := ⟨Int.natCast_nonneg i, by exact_mod_cast hle⟩
  simp only [rangeOffsets, toUsize_natCast (hle.trans (hj.trans hlength)),
    toUsize_natCast (hj.trans hlength), if_pos hrange, scanOffsets_eq (Nat.zero_le i) hle,
    Nat.sub_zero, getElem?_starts, if_pos (hle.trans hj), if_pos hj]

theorem rangeOffsets_outside (text : List Char) {i j : Int}
    (h : ¬ (0 ≤ i ∧ i ≤ j ∧ j ≤ text.length)) : (rangeOffsets env text i j).2 = none := by
  unfold rangeOffsets
  split
  · rename_i first last hfirst hlast
    obtain rfl := toUsize_eq_some hfirst
    obtain rfl := toUsize_eq_some hlast
    split
    · rename_i hrange
      have hj : ¬ j.toNat ≤ text.length := fun hj => h ⟨hrange.1, hrange.2, by omega⟩
      rw [scanOffsets_eq (Nat.zero_le i.toNat) (Int.toNat_le_toNat hrange.2), Nat.sub_zero,
        Nat.sub_zero, getElem?_starts, getElem?_starts, if_neg hj]
    · rfl
  · rfl

theorem substring_inside (hbig : bigInts.Documented) (hseed : env.samplingSeed = none)
    {text : List Char} (hheld : Held env text) {i j : Nat} (hle : i ≤ j) (hj : j ≤ text.length) :
    substring bigInts env [stringTerm text, intTerm i, intTerm j] =
      .ok (.value (stringTerm ((text.take j).drop i))) := by
  simp only [substring, readString_stringTerm, hbig.readInt_intTerm,
    rangeOffsets_inside hheld hle hj, sampledRange, hseed, slice_byteOffset text hle]
  rfl

theorem substring_outside (hbig : bigInts.Documented) (text : List Char) {i j : Int}
    (h : ¬ (0 ≤ i ∧ i ≤ j ∧ j ≤ text.length)) :
    ∃ detail, substring bigInts env [stringTerm text, intTerm i, intTerm j] =
      .ok (.unsupported (.unspecified detail false)) := by
  have hnone : (rangeOffsets env text i j).2 = none := rangeOffsets_outside text h
  simp only [substring, readString_stringTerm, hbig.readInt_intTerm]
  generalize rangeOffsets env text i j = offsets at hnone
  obtain ⟨first, last⟩ := offsets
  obtain rfl : last = none := hnone
  cases first with
  | none => exact ⟨_, rfl⟩
  | some first => exact ⟨_, rfl⟩

end Substring

section Searches

variable {bigInts : BigInts} {env : Environment}

/-- An answer, or a stop that was asked for. -/
def Answers {α : Type} (env : Environment) (outcome : HookResult α) (answer : α) : Prop :=
  outcome = .ok answer ∨ outcome = .error .stop ∧ ∃ index, env.stopped index = true

theorem Answers.map {α β : Type} {outcome : HookResult α} {answer : α} (f : α → β)
    (h : Answers env outcome answer) :
    Answers env (outcome.bind fun result => .ok (f result)) (f answer) := by
  rcases h with rfl | ⟨rfl, hstop⟩
  · exact Or.inl rfl
  · exact Or.inr ⟨rfl, hstop⟩

/-- The first position that is tried where the needle occurs. -/
theorem firstOccurrence_answers (env : Environment) (haystack needle : List Char) (step : Nat) {units : List Nat}
    (hunits : ∀ unit ∈ units, unit ≤ haystack.length) :
    Answers env
      (firstOccurrence env (Utf8.encode haystack) (Utf8.encode needle)
        (codePointOffsets 0 haystack ++ [(Utf8.encode haystack).length]) step units)
      (units.find? fun unit => decide (OccursAt needle haystack unit)) := by
  induction units generalizing step with
  | nil => exact Or.inl rfl
  | cons unit units ih =>
    obtain ⟨hunit, hrest⟩ := List.forall_mem_cons.mp hunits
    rw [firstOccurrence]
    by_cases hstop : step % 1024 = 0 ∧ env.stopped step = true
    · rw [if_pos hstop]
      exact Or.inr ⟨rfl, step, hstop.2⟩
    · rw [if_neg hstop, getElem?_starts, if_pos hunit]
      simp only [orPanic, bind, Except.bind, sliceFrom_byteOffset haystack hunit,
        Occurrences.encode_prefix_iff]
      by_cases hoccurs : needle <+: haystack.drop unit
      · have hfound : OccursAt needle haystack unit := ⟨hunit, hoccurs⟩
        rw [if_pos hoccurs, List.find?_cons, decide_eq_true hfound]
        exact Or.inl rfl
      · have hnot : ¬ OccursAt needle haystack unit := fun hfound => hoccurs hfound.2
        rw [if_neg hoccurs, List.find?_cons, decide_eq_false hnot]
        exact ih (step + 1) hrest

theorem startUnit_eq (env : Environment) (start : Int) :
    startUnit env start = min start.toNat (min i64Max env.usizeMax) := by
  unfold startUnit saturatingI64
  dsimp only
  split_ifs <;> omega

/-- The saturated start compares with the positions of a string as the start itself does. -/
theorem startUnit_compare {haystack : List Char} (hheld : Held env haystack) (start : Int)
    {p : Nat} (hp : p ≤ haystack.length) :
    (startUnit env start ≤ p ↔ start ≤ p) ∧ (0 ≤ start → (p ≤ startUnit env start ↔ p ≤ start)) := by
  have hlt := hheld.length_lt
  have hle := env.isizeMax_le
  have husize := env.isizeMax_lt
  rw [startUnit_eq]
  omega

theorem mem_candidates {units start p : Nat} {reverse : Bool} :
    p ∈ candidates units start reverse ↔
      p ≤ units ∧ if reverse then p ≤ start else start ≤ p := by
  unfold candidates
  cases reverse with
  | true =>
    simp only [if_true, List.mem_reverse, List.mem_range]
    omega
  | false =>
    simp only [Bool.false_eq_true, if_false, List.mem_range'_1]
    omega

/-- The positions are tried in order, upwards or downwards. -/
theorem candidates_ordered (units start : Nat) (reverse : Bool) :
    (candidates units start reverse).Pairwise fun p q => if reverse then q < p else p < q := by
  unfold candidates
  cases reverse with
  | true =>
    simp only [if_true, List.pairwise_reverse]
    exact List.pairwise_lt_range
  | false =>
    simp only [Bool.false_eq_true, if_false]
    exact List.pairwise_lt_range'

/-- Of items in an order the first that passes a test is before the others that do. -/
theorem find?_pairwise {α : Type} {R : α → α → Prop} {test : α → Bool} {items : List α} {a : α}
    (hitems : items.Pairwise R) (h : items.find? test = some a) :
    a ∈ items ∧ test a = true ∧ ∀ b ∈ items, test b = true → b = a ∨ R a b := by
  obtain ⟨ha, front, back, rfl, hfront⟩ := List.find?_eq_some_iff_append.mp h
  obtain ⟨-, hback, -⟩ := List.pairwise_append.mp hitems
  refine ⟨by simp, ha, ?_⟩
  intro b hb htest
  rcases List.mem_append.mp hb with hb | hb
  · have hnot := hfront b hb
    rw [htest] at hnot
    cases hnot
  · rcases List.mem_cons.mp hb with rfl | hb
    · exact Or.inl rfl
    · exact Or.inr ((List.pairwise_cons.mp hback).1 b hb)

/-- The least position from a start on where the needle occurs, or -1. -/
def FirstFrom (haystack needle : List Char) (start n : Int) : Prop :=
  (∃ p : Nat, n = p ∧ max start 0 ≤ p ∧ OccursAt needle haystack p ∧
    ∀ q : Nat, max start 0 ≤ q → OccursAt needle haystack q → p ≤ q) ∨
  (n = -1 ∧ ∀ q : Nat, max start 0 ≤ q → ¬ OccursAt needle haystack q)

/-- The greatest position up to a start where the needle occurs, or -1. -/
def LastUpTo (haystack needle : List Char) (start n : Int) : Prop :=
  (∃ p : Nat, n = p ∧ p ≤ min start haystack.length ∧ OccursAt needle haystack p ∧
    ∀ q : Nat, q ≤ min start haystack.length → OccursAt needle haystack q → q ≤ p) ∨
  (n = -1 ∧ ∀ q : Nat, q ≤ min start haystack.length → ¬ OccursAt needle haystack q)

theorem search_answers (haystack needle : List Char) {start : Int} {reverse : Bool}
    (hstart : ¬ (reverse = true ∧ start < 0)) :
    Answers env (search env haystack needle start reverse)
      (position ((candidates haystack.length (startUnit env start) reverse).find? fun unit =>
        decide (OccursAt needle haystack unit))) := by
  have hunits : ∀ unit ∈ candidates haystack.length (startUnit env start) reverse,
      unit ≤ haystack.length := fun unit hunit => (mem_candidates.mp hunit).1
  have hanswers := (firstOccurrence_answers env haystack needle 0 hunits).map position
  simp only [search, if_neg hstart, length_codePointOffsets]
  exact hanswers

theorem search_forward (env : Environment) {haystack : List Char} (hheld : Held env haystack) (needle : List Char)
    (start : Int) :
    ∃ n, FirstFrom haystack needle start n ∧ Answers env (search env haystack needle start false) n := by
  have hcompare := @startUnit_compare env haystack hheld start
  refine ⟨_, ?_, search_answers haystack needle (by simp)⟩
  cases hfind : (candidates haystack.length (startUnit env start) false).find? fun unit =>
      decide (OccursAt needle haystack unit) with
  | none =>
    right
    refine ⟨rfl, ?_⟩
    intro q hq hoccurs
    have hmem : q ∈ candidates haystack.length (startUnit env start) false :=
      mem_candidates.mpr ⟨hoccurs.1, (hcompare hoccurs.1).1.mpr (by omega)⟩
    exact absurd (decide_eq_true hoccurs) (List.find?_eq_none.mp hfind q hmem)
  | some p =>
    obtain ⟨hp, htest, hfirst⟩ := find?_pairwise (candidates_ordered _ _ _) hfind
    obtain ⟨hle, hfrom⟩ := mem_candidates.mp hp
    have hlt := hheld.length_lt
    have hi64 := env.isizeMax_le
    left
    refine ⟨p, if_pos (by omega), ?_, of_decide_eq_true htest, ?_⟩
    · have hstart := (hcompare hle).1.mp hfrom
      omega
    · intro q hq hoccurs
      have hmem : q ∈ candidates haystack.length (startUnit env start) false :=
        mem_candidates.mpr ⟨hoccurs.1, (hcompare hoccurs.1).1.mpr (by omega)⟩
      rcases hfirst q hmem (decide_eq_true hoccurs) with rfl | hlt
      · exact Nat.le_refl _
      · exact Nat.le_of_lt hlt

theorem search_reverse (env : Environment) {haystack : List Char} (hheld : Held env haystack) (needle : List Char)
    (start : Int) :
    ∃ n, LastUpTo haystack needle start n ∧ Answers env (search env haystack needle start true) n := by
  by_cases hneg : start < 0
  · refine ⟨-1, Or.inr ⟨rfl, ?_⟩, Or.inl ?_⟩
    · intro q hq
      omega
    · rw [search, if_pos ⟨rfl, hneg⟩]
  have hcompare := @startUnit_compare env haystack hheld start
  refine ⟨_, ?_, search_answers haystack needle (fun h => hneg h.2)⟩
  cases hfind : (candidates haystack.length (startUnit env start) true).find? fun unit =>
      decide (OccursAt needle haystack unit) with
  | none =>
    right
    refine ⟨rfl, ?_⟩
    intro q hq hoccurs
    have hmem : q ∈ candidates haystack.length (startUnit env start) true :=
      mem_candidates.mpr ⟨hoccurs.1, ((hcompare hoccurs.1).2 (by omega)).mpr (by omega)⟩
    exact absurd (decide_eq_true hoccurs) (List.find?_eq_none.mp hfind q hmem)
  | some p =>
    obtain ⟨hp, htest, hlast⟩ := find?_pairwise (candidates_ordered _ _ _) hfind
    obtain ⟨hle, hupto⟩ := mem_candidates.mp hp
    have hlt := hheld.length_lt
    have hi64 := env.isizeMax_le
    left
    refine ⟨p, if_pos (by omega), ?_, of_decide_eq_true htest, ?_⟩
    · have hstart := ((hcompare hle).2 (by omega)).mp hupto
      omega
    · intro q hq hoccurs
      have hmem : q ∈ candidates haystack.length (startUnit env start) true :=
        mem_candidates.mpr ⟨hoccurs.1, ((hcompare hoccurs.1).2 (by omega)).mpr (by omega)⟩
      rcases hlast q hmem (decide_eq_true hoccurs) with rfl | hlt
      · exact Nat.le_refl _
      · exact Nat.le_of_lt hlt

/-- The hook answers what the search answers, where no seed is sampled. -/
theorem find_answers (hbig : bigInts.Documented) (hseed : env.samplingSeed = none) {reverse : Bool}
    {haystack needle : List Char} {start n : Int}
    (h : Answers env (search env haystack needle start reverse) n) :
    Answers env (find bigInts env reverse
      [stringTerm haystack, stringTerm needle, intTerm start]) (.value (intTerm n)) := by
  have hmap := h.map fun position => BuiltinResult.value (intTerm position)
  simp only [find, readString_stringTerm, hbig.readInt_intTerm, hseed]
  exact hmap

end Searches

section Replacements

/-- Replacing the first occurrence and going on in the rest after it, with the number of the
occurrences that are replaced. -/
inductive Replaces (needle new : List Char) : List Char → Nat → List Char → Prop where
  | done {text : List Char} (hnone : ∀ p, ¬ OccursAt needle text p) : Replaces needle new text 0 text
  | first {text rest : List Char} {p count : Nat} (hp : OccursAt needle text p)
      (hfirst : ∀ q < p, ¬ OccursAt needle text q)
      (hrest : Replaces needle new (text.drop (p + needle.length)) count rest) :
      Replaces needle new text (1 + count) (text.take p ++ new ++ rest)

variable {needle : List Char} {env : Environment}

/-- The recursion gives one count and one text. -/
theorem Replaces.unique {new text result result' : List Char} {count count' : Nat}
    (h : Replaces needle new text count result) (h' : Replaces needle new text count' result') :
    count = count' ∧ result = result' := by
  induction h generalizing count' result' with
  | done hnone =>
    cases h' with
    | done => exact ⟨rfl, rfl⟩
    | first hp => exact absurd hp (hnone _)
  | @first text rest p count hp hfirst hrest ih =>
    cases h' with
    | done hnone => exact absurd hp (hnone p)
    | @first _ rest' p' count' hp' hfirst' hrest' =>
      obtain rfl : p = p' := by
        rcases Nat.lt_trichotomy p p' with hlt | heq | hgt
        · exact absurd hp (hfirst' p hlt)
        · exact heq
        · exact absurd hp' (hfirst p' hgt)
      obtain ⟨rfl, rfl⟩ := ih hrest'
      exact ⟨rfl, rfl⟩

theorem replaces_segments (hne : needle ≠ []) (new text : List Char) :
    Replaces needle new text (Occurrences.count needle text) (Occurrences.replace needle new text) := by
  induction hlength : text.length using Nat.strong_induction_on generalizing text with
  | h length ih =>
    by_cases hoccurs : ∃ p, OccursAt needle text p
    · obtain ⟨hp, hfirst⟩ := And.intro (Nat.find_spec hoccurs) (fun q => @Nat.find_min _ _ hoccurs q)
      have hpos := List.length_pos_iff.mpr hne
      have hle := hp.2.length_le
      rw [List.length_drop] at hle
      have hshort : (text.drop (Nat.find hoccurs + needle.length)).length < length := by
        rw [List.length_drop]
        omega
      rw [Occurrences.count_of_first hne hp hfirst, Occurrences.replace_of_first hne new hp hfirst]
      exact .first hp hfirst (ih _ hshort _ rfl)
    · have hnone : ∀ p, ¬ OccursAt needle text p := not_exists.mp hoccurs
      rw [Occurrences.count_of_none hnone, Occurrences.replace_of_none new hnone]
      exact .done hnone

theorem emptyNeedle_eq (operation : String) (hne : needle ≠ []) :
    emptyNeedle operation (stringTerm needle) = none := by
  rw [emptyNeedle, readString_stringTerm, Option.any_some, if_neg (by simpa using hne)]

theorem countAllOccurrences_eq (hne : needle ≠ []) (haystack : List Char) :
    countAllOccurrences [stringTerm haystack, stringTerm needle] =
      .ok (.value (intTerm (Occurrences.count needle haystack : Nat))) := by
  simp only [countAllOccurrences, emptyNeedle_eq _ hne, readString_stringTerm,
    Occurrences.count_encode hne]

/-- The replaced text, or a refusal for a caller who sets a bound. -/
theorem replaceAll_eq (hne : needle ≠ []) (haystack new : List Char) :
    replaceAll env [stringTerm haystack, stringTerm needle, stringTerm new] =
        .ok (.value (stringTerm (Occurrences.replace needle new haystack))) ∨
      env.resultBound ≠ none ∧ ∃ detail,
        replaceAll env [stringTerm haystack, stringTerm needle, stringTerm new] =
          .ok (tooLarge detail) := by
  simp only [replaceAll, emptyNeedle_eq _ hne, readString_stringTerm,
    Occurrences.replace_encode hne]
  cases hbound : exceededBytes env (Utf8.encode haystack) (Utf8.encode needle) (Utf8.encode new) with
  | none => exact Or.inl rfl
  | some exceeded =>
    refine Or.inr ⟨?_, _, rfl⟩
    intro hnone
    rw [exceededBytes, hnone] at hbound
    cases hbound

end Replacements

section Strings

/-- Searches find the first occurrence from a start and the last one up to it, cutting gives the
code points of the valid ranges and of no others, and counting and replacing follow the first
occurrence and the rest after it; a needle replaced by itself changes nothing. -/
theorem strings_searched {bigInts : BigInts} (hbig : bigInts.Documented) (env : Environment)
    (hseed : env.samplingSeed = none) (haystack : List Char) (hheld : Held env haystack) :
    (∀ (needle : List Char) (start : Int),
      (∃ n, FirstFrom haystack needle start n ∧ Answers env
        (find bigInts env false [stringTerm haystack, stringTerm needle, intTerm start])
        (.value (intTerm n))) ∧
      ∃ n, LastUpTo haystack needle start n ∧ Answers env
        (find bigInts env true [stringTerm haystack, stringTerm needle, intTerm start])
        (.value (intTerm n))) ∧
      (∀ i j : Nat, i ≤ j → j ≤ haystack.length →
        substring bigInts env [stringTerm haystack, intTerm i, intTerm j] =
          .ok (.value (stringTerm ((haystack.take j).drop i)))) ∧
      (∀ i j : Int, ¬ (0 ≤ i ∧ i ≤ j ∧ j ≤ haystack.length) → ∃ detail,
        substring bigInts env [stringTerm haystack, intTerm i, intTerm j] =
          .ok (.unsupported (.unspecified detail false))) ∧
      ∀ needle : List Char, needle ≠ [] → ∀ new : List Char,
        ∃ count result, Replaces needle new haystack count result ∧
          (new = needle → result = haystack) ∧
          countAllOccurrences [stringTerm haystack, stringTerm needle] =
            .ok (.value (intTerm (count : Nat))) ∧
          (replaceAll env [stringTerm haystack, stringTerm needle, stringTerm new] =
              .ok (.value (stringTerm result)) ∨
            env.resultBound ≠ none ∧ ∃ detail,
              replaceAll env [stringTerm haystack, stringTerm needle, stringTerm new] =
                .ok (tooLarge detail)) := by
  refine ⟨?_, ?_, ?_, ?_⟩
  · intro needle start
    obtain ⟨first, hfirst, hforward⟩ := search_forward env hheld needle start
    obtain ⟨last, hlast, hreverse⟩ := search_reverse env hheld needle start
    exact ⟨⟨first, hfirst, find_answers hbig hseed hforward⟩,
      ⟨last, hlast, find_answers hbig hseed hreverse⟩⟩
  · intro i j hle hj
    exact substring_inside hbig hseed hheld hle hj
  · intro i j houtside
    exact substring_outside hbig haystack houtside
  · intro needle hne new
    refine ⟨_, _, replaces_segments hne new haystack, ?_, countAllOccurrences_eq hne haystack,
      replaceAll_eq hne haystack new⟩
    rintro rfl
    exact Occurrences.replace_self new haystack

theorem strings_searched_unbounded :
    (∃ n, LastUpTo ['a', 'é', 'a', 'é'] ['é'] 2 n ∧ Answers unbounded
      (find schoolbook unbounded true
        [stringTerm ['a', 'é', 'a', 'é'], stringTerm ['é'], intTerm 2]) (.value (intTerm n))) ∧
      substring schoolbook unbounded
        [stringTerm ['a', 'é', 'a', 'é'], intTerm (1 : Nat), intTerm (3 : Nat)] =
          .ok (.value (stringTerm ['é', 'a'])) := by
  have hsearched := strings_searched schoolbook_documented unbounded rfl ['a', 'é', 'a', 'é']
    (by unfold Held; decide)
  exact ⟨(hsearched.1 ['é'] 2).2, hsearched.2.1 1 3 (by decide) (by decide)⟩

end Strings

end KRust.Builtin.Search
