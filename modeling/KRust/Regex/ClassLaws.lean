import KRust.Regex.ClassPrinter

/-!
What the printers write for a class stands for the characters of the class: the sequences of byte
ranges for exactly their encodings, each once, and the class for the Rust engine for exactly them.
-/

set_option linter.unusedSectionVars false

namespace KRust.Regex

open KRust.Lib KRust.Lib.Utf8

section Ranges

/-- A value is in one of the ranges. -/
def Holds (set : List (Nat × Nat)) (value : Nat) : Prop :=
  ∃ range ∈ set, range.1 ≤ value ∧ value ≤ range.2

/-- Ranges that are not empty, one after the other. -/
structure Sorted (set : List (Nat × Nat)) : Prop where
  apart : set.Pairwise fun r s => r.2 < s.1
  nonempty : ∀ r ∈ set, r.1 ≤ r.2

theorem holds_append (set set' : List (Nat × Nat)) (value : Nat) :
    Holds (set ++ set') value ↔ Holds set value ∨ Holds set' value := by
  simp only [Holds, List.mem_append, or_and_right, exists_or]

theorem holds_singleton (range : Nat × Nat) (value : Nat) :
    Holds [range] value ↔ range.1 ≤ value ∧ value ≤ range.2 := by
  simp [Holds]

theorem Sorted.append_singleton {set : List (Nat × Nat)} (h : Sorted set) {range : Nat × Nat}
    (hrange : range.1 ≤ range.2) (hbelow : ∀ r ∈ set, r.2 < range.1) :
    Sorted (set ++ [range]) where
  apart := List.pairwise_append.mpr ⟨h.apart, List.pairwise_singleton _ _, by simpa using hbelow⟩
  nonempty r hr := by
    rcases List.mem_append.mp hr with hr | hr
    · exact h.nonempty r hr
    · rw [List.mem_singleton.mp hr]
      exact hrange

theorem Sorted.of_append {set set' : List (Nat × Nat)} (h : Sorted (set ++ set')) : Sorted set where
  apart := (List.pairwise_append.mp h.apart).1
  nonempty r hr := h.nonempty r (List.mem_append_left _ hr)

/-- What a turn of the union keeps, for ranges that come in the order of their starts. -/
structure Merged (merged ranges : List (Nat × Nat)) : Prop where
  sorted : Sorted merged
  holds : ∀ value, Holds merged value ↔ Holds ranges value
  starts : ∀ r ∈ merged, ∃ s ∈ ranges, r.1 = s.1

theorem Merged.step {merged ranges : List (Nat × Nat)} (h : Merged merged ranges)
    {range : Nat × Nat} (hrange : range.1 ≤ range.2) (hmax : range.2 ≤ maxScalar)
    (hstarts : ∀ r ∈ ranges, r.1 ≤ range.1) : Merged (mergeStep merged range) (ranges ++ [range]) := by
  have hlater : ∀ r ∈ merged, r.1 ≤ range.1 := by
    intro r hr
    obtain ⟨s, hs, heq⟩ := h.starts r hr
    exact heq ▸ hstarts s hs
  rw [mergeStep]
  rcases List.eq_nil_or_concat merged with rfl | ⟨front, last, rfl⟩
  · refine ⟨?_, fun value => ?_, ?_⟩
    · exact Sorted.append_singleton ⟨.nil, by simp⟩ hrange (by simp)
    · rw [List.getLast?_nil, holds_append, holds_append, h.holds]
    · simp
  · rw [List.concat_eq_append] at h hlater ⊢
    rw [List.getLast?_concat, List.dropLast_concat]
    have hlast : last.1 ≤ last.2 := h.sorted.nonempty last (by simp)
    have hfront : ∀ r ∈ front, r.2 < last.1 := by
      simpa using (List.pairwise_append.mp h.sorted.apart).2.2
    have hstart : last.1 ≤ range.1 := hlater last (by simp)
    dsimp only
    split
    · rename_i hjoin
      have hsucc : range.1 ≤ last.2 + 1 := hjoin.trans (min_le_left _ _)
      refine ⟨?_, fun value => ?_, ?_⟩
      · exact h.sorted.of_append.append_singleton (hlast.trans (le_max_left _ _)) hfront
      · rw [holds_append, holds_append, holds_singleton, holds_singleton, ← h.holds, holds_append,
          holds_singleton, or_assoc]
        refine or_congr Iff.rfl ?_
        dsimp only
        omega
      · intro r hr
        rcases List.mem_append.mp hr with hr | hr
        · obtain ⟨s, hs, heq⟩ := h.starts r (List.mem_append_left _ hr)
          exact ⟨s, List.mem_append_left _ hs, heq⟩
        · obtain ⟨s, hs, heq⟩ := h.starts last (by simp)
          rw [List.mem_singleton.mp hr]
          exact ⟨s, List.mem_append_left _ hs, heq⟩
    · rename_i hapart
      have hgap : last.2 + 1 < range.1 := by
        rw [saturatingSucc, le_min_iff, not_and_or] at hapart
        simp only [maxScalar] at hmax
        omega
      refine ⟨?_, fun value => ?_, ?_⟩
      · refine h.sorted.append_singleton hrange fun r hr => ?_
        rcases List.mem_append.mp hr with hr | hr
        · exact (hfront r hr).trans (by omega)
        · rw [List.mem_singleton.mp hr]
          omega
      · rw [holds_append (front ++ [last]), holds_append ranges, h.holds]
      · intro r hr
        rcases List.mem_append.mp hr with hr | hr
        · obtain ⟨s, hs, heq⟩ := h.starts r hr
          exact ⟨s, List.mem_append_left _ hs, heq⟩
        · exact ⟨range, by simp, by rw [List.mem_singleton.mp hr]⟩

theorem Merged.foldl {merged ranges rest : List (Nat × Nat)} (h : Merged merged ranges)
    (hrest : ∀ r ∈ rest, r.1 ≤ r.2 ∧ r.2 ≤ maxScalar)
    (hsorted : (ranges ++ rest).Pairwise fun r s => r.1 ≤ s.1) :
    Merged (rest.foldl mergeStep merged) (ranges ++ rest) := by
  induction rest generalizing merged ranges with
  | nil => simpa using h
  | cons range rest ih =>
    rw [List.forall_mem_cons] at hrest
    have hstarts : ∀ r ∈ ranges, r.1 ≤ range.1 := fun r hr =>
      (List.pairwise_append.mp hsorted).2.2 r hr range List.mem_cons_self
    have hstep := ih (h.step hrest.1.1 hrest.1.2 hstarts) hrest.2 (by simpa using hsorted)
    rwa [List.append_assoc] at hstep

theorem rangeLe_trans (r s t : Nat × Nat) (h : rangeLe r s = true) (h' : rangeLe s t = true) :
    rangeLe r t = true := by
  simp only [rangeLe, Bool.or_eq_true, Bool.and_eq_true, decide_eq_true_iff] at h h' ⊢
  omega

theorem rangeLe_total (r s : Nat × Nat) : (rangeLe r s || rangeLe s r) = true := by
  simp only [rangeLe, Bool.or_eq_true, Bool.and_eq_true, decide_eq_true_iff]
  omega

/-- The union of some ranges. -/
theorem merged_mergeScalarRanges {ranges : List (Nat × Nat)}
    (hranges : ∀ r ∈ ranges, r.1 ≤ r.2 ∧ r.2 ≤ maxScalar) :
    Merged (mergeScalarRanges ranges) (ranges.mergeSort rangeLe) := by
  have hsorted : (ranges.mergeSort rangeLe).Pairwise fun r s => r.1 ≤ s.1 := by
    refine (List.pairwise_mergeSort rangeLe_trans rangeLe_total ranges).imp fun {r s} h => ?_
    simp only [rangeLe, Bool.or_eq_true, Bool.and_eq_true, decide_eq_true_iff] at h
    omega
  have hempty : Merged [] [] := ⟨⟨.nil, by simp⟩, fun _ => Iff.rfl, by simp⟩
  exact hempty.foldl (fun r hr => hranges r (List.mem_mergeSort.mp hr)) hsorted

/-- What a turn of the complement keeps. -/
structure Complemented (state : List (Nat × Nat) × Nat) (set : List (Nat × Nat)) : Prop where
  sorted : Sorted state.1
  below : ∀ r ∈ state.1, r.2 < state.2
  holds : ∀ value, Holds state.1 value ↔ value < state.2 ∧ ¬ Holds set value
  covers : ∀ r ∈ set, r.2 < state.2

theorem Complemented.step {state : List (Nat × Nat) × Nat} {set : List (Nat × Nat)}
    (h : Complemented state set) {range : Nat × Nat} (hrange : range.1 ≤ range.2)
    (hnext : state.2 ≤ range.1) : Complemented (complementStep state range) (set ++ [range]) := by
  have hset : ∀ value, state.2 ≤ value → ¬ Holds set value := by
    rintro value hle ⟨r, hr, -, hhigh⟩
    have := h.covers r hr
    omega
  have hcovers : ∀ r ∈ set ++ [range], r.2 < range.2 + 1 := by
    intro r hr
    rcases List.mem_append.mp hr with hr | hr
    · have := h.covers r hr
      omega
    · rw [List.mem_singleton.mp hr]
      omega
  rw [complementStep]
  split
  · rename_i hgap
    refine ⟨?_, ?_, fun value => ?_, hcovers⟩
    · refine h.sorted.append_singleton (by dsimp only; omega) fun r hr => ?_
      exact h.below r hr
    · intro r hr
      rcases List.mem_append.mp hr with hr | hr
      · have := h.below r hr
        dsimp only
        omega
      · rw [List.mem_singleton.mp hr]
        dsimp only
        omega
    · rw [holds_append, holds_singleton, h.holds, holds_append, holds_singleton]
      by_cases hold : Holds set value
      · have hlow : value < state.2 := not_le.mp fun hle => hset value hle hold
        simp only [hold, true_or, not_true_eq_false, and_false, false_or, iff_false]
        omega
      · simp only [hold, false_or, not_false_eq_true, and_true]
        omega
  · refine ⟨h.sorted, ?_, fun value => ?_, hcovers⟩
    · intro r hr
      have := h.below r hr
      dsimp only
      omega
    · rw [h.holds, holds_append, holds_singleton]
      by_cases hold : Holds set value
      · simp only [hold, not_true_eq_false, and_false, true_or]
      · simp only [hold, not_false_eq_true, and_true, false_or]
        omega

theorem Complemented.foldl {state : List (Nat × Nat) × Nat} {set rest : List (Nat × Nat)}
    (h : Complemented state set) (hrest : Sorted rest) (hnext : ∀ r ∈ rest, state.2 ≤ r.1) :
    Complemented (rest.foldl complementStep state) (set ++ rest) := by
  induction rest generalizing state set with
  | nil => simpa using h
  | cons range rest ih =>
    have hapart := List.pairwise_cons.mp hrest.apart
    have hstep := h.step (hrest.nonempty range List.mem_cons_self) (hnext range List.mem_cons_self)
    have hlater : ∀ r ∈ rest, (complementStep state range).2 ≤ r.1 := fun r hr => hapart.1 r hr
    have hrun := ih hstep ⟨hapart.2, fun r hr => hrest.nonempty r (List.mem_cons_of_mem _ hr)⟩ hlater
    rwa [List.append_assoc] at hrun

/-- The scalar values outside a set. -/
theorem complement_spec {set : List (Nat × Nat)} (h : Sorted set)
    (hmax : ∀ r ∈ set, r.2 ≤ maxScalar) : Sorted (complementScalarRanges set) ∧
      ∀ value, Holds (complementScalarRanges set) value ↔ value ≤ maxScalar ∧ ¬ Holds set value := by
  have hempty : Complemented ([], 0) [] := ⟨⟨.nil, by simp⟩, by simp, by simp [Holds], by simp⟩
  have hrun := hempty.foldl h fun _ _ => Nat.zero_le _
  rw [List.nil_append] at hrun
  have hset : ∀ value, Holds set value →
      value < (set.foldl complementStep ([], 0)).2 ∧ value ≤ maxScalar := by
    rintro value ⟨r, hr, -, hhigh⟩
    exact ⟨hhigh.trans_lt (hrun.covers r hr), hhigh.trans (hmax r hr)⟩
  have hbelow : (set.foldl complementStep ([], 0)).2 ≤ maxScalar + 1 := by
    rcases List.eq_nil_or_concat set with rfl | ⟨front, last, rfl⟩
    · exact Nat.zero_le _
    · rw [List.concat_eq_append] at hmax ⊢
      rw [List.foldl_append]
      exact Nat.succ_le_succ (hmax last (by simp))
  rw [complementScalarRanges]
  split
  · rename_i hroom
    refine ⟨hrun.sorted.append_singleton hroom hrun.below, fun value => ?_⟩
    rw [holds_append, holds_singleton, hrun.holds]
    by_cases hold : Holds set value
    · have hvalue := hset value hold
      simp only [hold, not_true_eq_false, and_false, false_or, iff_false]
      omega
    · simp only [hold, not_false_eq_true, and_true]
      omega
  · refine ⟨hrun.sorted, fun value => ?_⟩
    rw [hrun.holds]
    by_cases hold : Holds set value
    · simp only [hold, not_true_eq_false, and_false]
    · simp only [hold, not_false_eq_true, and_true]
      omega

theorem holds_memberRange (member : CharClass) (c : Char) :
    (∃ range ∈ memberRange member, range.1 ≤ c.toNat ∧ c.toNat ≤ range.2) ↔
      MemberContains member c := by
  cases member with
  | char d =>
    simp only [memberRange, Option.mem_some_iff, exists_eq_left', MemberContains]
    rw [← Char.toNat_inj]
    omega
  | range first last =>
    rw [memberRange, MemberContains]
    split
    · simp
    · simp only [Option.not_mem_none, false_and, exists_false, false_iff]
      omega

theorem memberRange_le {member : CharClass} {range : Nat × Nat}
    (h : memberRange member = some range) : range.1 ≤ range.2 ∧ range.2 ≤ maxScalar := by
  have hmax : ∀ c : Char, c.toNat ≤ maxScalar := by
    intro c
    have hvalid := c.valid
    simp only [UInt32.isValidChar, Nat.isValidChar] at hvalid
    change c.val.toNat ≤ _
    simp only [maxScalar]
    omega
  cases member with
  | char d =>
    cases h
    exact ⟨le_rfl, hmax d⟩
  | range first last =>
    rw [memberRange] at h
    split at h
    · cases h
      exact ⟨‹_›, hmax last⟩
    · cases h

/-- The ranges of a class hold its characters, and are apart. -/
theorem classScalarRanges_spec (negated : Bool) (members : List CharClass) :
    Sorted (classScalarRanges negated members) ∧
      (∀ c : Char, Holds (classScalarRanges negated members) c.toNat ↔ InClass negated members c) ∧
      ∀ r ∈ classScalarRanges negated members, r.2 ≤ maxScalar := by
  have hranges : ∀ r ∈ members.filterMap memberRange, r.1 ≤ r.2 ∧ r.2 ≤ maxScalar := by
    intro r hr
    obtain ⟨member, -, hmember⟩ := List.mem_filterMap.mp hr
    exact memberRange_le hmember
  have hmerged := merged_mergeScalarRanges hranges
  have hclass : ∀ c : Char, Holds (mergeScalarRanges (members.filterMap memberRange)) c.toNat ↔
      ∃ member ∈ members, MemberContains member c := by
    intro c
    rw [hmerged.holds]
    simp only [← holds_memberRange, Holds, List.mem_mergeSort, List.mem_filterMap, Option.mem_def]
    constructor
    · rintro ⟨range, ⟨member, hmember, hrange⟩, hvalue⟩
      exact ⟨member, hmember, range, hrange, hvalue⟩
    · rintro ⟨member, hmember, range, hrange, hvalue⟩
      exact ⟨range, ⟨member, hmember, hrange⟩, hvalue⟩
  have hmax : ∀ r ∈ mergeScalarRanges (members.filterMap memberRange), r.2 ≤ maxScalar := by
    intro r hr
    obtain ⟨s, hs, hvalue⟩ :=
      (hmerged.holds r.2).mp ⟨r, hr, hmerged.sorted.nonempty r hr, le_rfl⟩
    exact hvalue.2.trans (hranges s (List.mem_mergeSort.mp hs)).2
  rw [classScalarRanges]
  cases negated with
  | false =>
    refine ⟨hmerged.sorted, fun c => ?_, hmax⟩
    rw [InClass, iff_true_right rfl]
    exact hclass c
  | true =>
    obtain ⟨hsorted, hholds⟩ := complement_spec hmerged.sorted hmax
    refine ⟨hsorted, fun c => ?_, fun r hr =>
      ((hholds r.2).mp ⟨r, hr, hsorted.nonempty r hr, le_rfl⟩).1⟩
    have hrange : memberRange (.char c) = some (c.toNat, c.toNat) := rfl
    have hchar : c.toNat ≤ maxScalar := (memberRange_le hrange).2
    rw [if_pos rfl, hholds, hclass, InClass]
    simp [hchar]

end Ranges

section Sequences

/-- Sequences that stand for the encodings of the characters of a kind, each sequence for others. -/
structure Encodes (sequences : List (List (UInt8 × UInt8))) (kind : Nat → Prop) : Prop where
  exact : ∀ bytes, (∃ sequence ∈ sequences, Matches sequence bytes) ↔
    ∃ c : Char, kind c.toNat ∧ bytes = String.utf8EncodeChar c
  disjoint : sequences.Pairwise fun one other => ∀ bytes, Matches one bytes → ¬ Matches other bytes

theorem Encodes.nil {kind : Nat → Prop} (h : ∀ c : Char, ¬ kind c.toNat) : Encodes [] kind where
  exact bytes := by simp [h]
  disjoint := .nil

theorem Encodes.congr {sequences : List (List (UInt8 × UInt8))} {kind kind' : Nat → Prop}
    (h : Encodes sequences kind) (heq : ∀ c : Char, kind c.toNat ↔ kind' c.toNat) :
    Encodes sequences kind' where
  exact bytes := by simp only [h.exact, heq]
  disjoint := h.disjoint

theorem Encodes.append {sequences sequences' : List (List (UInt8 × UInt8))}
    {kind kind' : Nat → Prop} (h : Encodes sequences kind) (h' : Encodes sequences' kind')
    (hapart : ∀ c : Char, kind c.toNat → ¬ kind' c.toNat) :
    Encodes (sequences ++ sequences') fun value => kind value ∨ kind' value where
  exact bytes := by
    simp only [List.mem_append, or_and_right, exists_or, h.exact, h'.exact]
  disjoint := by
    refine List.pairwise_append.mpr ⟨h.disjoint, h'.disjoint, fun one hone other hother bytes => ?_⟩
    intro hmatch hmatch'
    obtain ⟨c, hc, hbytes⟩ := (h.exact bytes).mp ⟨one, hone, hmatch⟩
    obtain ⟨d, hd, hbytes'⟩ := (h'.exact bytes).mp ⟨other, hother, hmatch'⟩
    obtain rfl := encodeChar_injective (hbytes.symm.trans hbytes')
    exact hapart c hc hd

theorem Encodes.flatMap {I : Type} {items : List I} {f : I → List (List (UInt8 × UInt8))}
    {kind : I → Nat → Prop} (h : ∀ item ∈ items, Encodes (f item) (kind item))
    (hapart : items.Pairwise fun item other => ∀ c : Char, kind item c.toNat →
      ¬ kind other c.toNat) :
    Encodes (items.flatMap f) fun value => ∃ item ∈ items, kind item value := by
  induction items with
  | nil => exact .nil fun c => by simp
  | cons item items ih =>
    rw [List.forall_mem_cons] at h
    obtain ⟨hitem, hrest⟩ := List.pairwise_cons.mp hapart
    refine (h.1.append (ih h.2 hrest) ?_).congr fun c => ?_
    · rintro c hc ⟨other, hother, hkind⟩
      exact hitem other hother c hc hkind
    · rw [List.exists_mem_cons_iff]

/-- Where no number of low bytes fails, the ends are aligned. -/
theorem ScalarRange.aligned {r : ScalarRange} (h : r.unaligned = none) :
    Aligned ((Char.ofNat r.first).utf8Size - 1) r.first r.last := by
  intro trailing hpos hle
  rw [unaligned, List.find?_eq_none] at h
  have hnot := h trailing (List.mem_range'_1.mpr ⟨hpos, by omega⟩)
  rw [decide_eq_true_iff, not_and_or, not_not] at hnot
  rcases hnot with hsame | hends
  · rw [high_eq, high_eq] at hsame
    exact .inl (Nat.eq_of_mul_eq_mul_left (Nat.pow_pos (by decide)) hsame)
  · rw [not_or, not_not, not_not] at hends
    exact .inr hends

theorem oneLength_of_aligned {r : ScalarRange} (h : r.unaligned = none) :
    utf8SequencesOfOneLength r = [r.byteRanges] := by
  rw [utf8SequencesOfOneLength.eq_def]
  split
  · rfl
  · rename_i hsome
    rw [h] at hsome
    cases hsome

/-- A range that is not aligned is cut in two. -/
theorem oneLength_of_unaligned {r : ScalarRange} {trailing : Nat} (h : r.unaligned = some trailing) :
    ∃ value, ∃ (hlow : r.first < value) (hhigh : value ≤ r.last), utf8SequencesOfOneLength r =
      utf8SequencesOfOneLength (r.before value hlow hhigh) ++
        utf8SequencesOfOneLength (r.since value hlow hhigh) := by
  rw [utf8SequencesOfOneLength.eq_def]
  split
  · rename_i hnone
    rw [h] at hnone
    cases hnone
  · rename_i found hfound
    have hcut := ScalarRange.filled_lt_cleared (ScalarRange.unaligned_spec hfound).1
    have hfirst := ScalarRange.first_le_filled found r.first
    have hlast := ScalarRange.high_le found r.last
    dsimp only
    split
    · exact ⟨r.first - ScalarRange.low found r.first + ScalarRange.mask found + 1, by omega,
        by omega, rfl⟩
    · exact ⟨ScalarRange.high found r.last, by omega, by omega, rfl⟩

/-- The sequences of a range of one encoded length. -/
theorem encodes_oneLength (r : ScalarRange) :
    Encodes (utf8SequencesOfOneLength r) fun value => r.first ≤ value ∧ value ≤ r.last := by
  induction hsize : r.last - r.first using Nat.strong_induction_on generalizing r with
  | _ size ih =>
    cases h : r.unaligned with
    | none =>
      have hchar : ∀ value, r.first ≤ value → value ≤ r.last → (Char.ofNat value).toNat = value :=
        fun value h h' => toNat_ofNat (r.valid value h h')
      have hfirst := hchar r.first le_rfl r.le
      have hlast := hchar r.last r.le le_rfl
      rw [oneLength_of_aligned h]
      refine ⟨fun bytes => ?_, List.pairwise_singleton _ _⟩
      have hmatches : Matches r.byteRanges bytes ↔ _ :=
        matches_iff (by rw [hfirst, hlast]; exact r.le) r.sameLength
          (by rw [hfirst, hlast]; exact r.valid)
          (by rw [hfirst, hlast]; exact ScalarRange.aligned h) bytes
      rw [hfirst, hlast] at hmatches
      simp only [List.mem_singleton, exists_eq_left, hmatches, and_assoc]
    | some trailing =>
      obtain ⟨value, hlow, hhigh, hcut⟩ := oneLength_of_unaligned h
      have hbefore := ih (value - 1 - r.first) (by omega) (r.before value hlow hhigh) rfl
      have hsince := ih (r.last - value) (by omega) (r.since value hlow hhigh) rfl
      rw [hcut]
      refine (hbefore.append hsince fun c => ?_).congr fun c => ?_
      · simp only [ScalarRange.before, ScalarRange.since]
        omega
      · simp only [ScalarRange.before, ScalarRange.since]
        omega

/-- The sequences of any range of values, of which those that are surrogates have none. -/
theorem encodes_utf8Sequences (first last : Nat) :
    Encodes (utf8Sequences first last) fun value => first ≤ value ∧ value ≤ last := by
  have hchar : ∀ c : Char, c.toNat < surrogates.1 ∨ surrogates.2 < c.toNat ∧ c.toNat ≤ maxScalar := by
    intro c
    have hvalid := c.valid
    simp only [UInt32.isValidChar, Nat.isValidChar] at hvalid
    change c.val.toNat < _ ∨ _ < c.val.toNat ∧ c.val.toNat ≤ _
    simp only [surrogates, maxScalar]
    omega
  have hpart : ∀ bounds ∈ utf8Lengths.attach, Encodes
      (sequencesBelow first last bounds.2 ++ sequencesAbove first last bounds.2) fun value =>
        (first ≤ value ∧ value ≤ last) ∧ bounds.1.1 ≤ value ∧ value ≤ bounds.1.2 := by
    rintro ⟨bounds, hbounds⟩ -
    have hbelow : Encodes (sequencesBelow first last hbounds) fun value =>
        ((first ≤ value ∧ value ≤ last) ∧ bounds.1 ≤ value ∧ value ≤ bounds.2) ∧
          value < surrogates.1 := by
      rw [sequencesBelow]
      split
      · refine (encodes_oneLength _).congr fun c => ?_
        simp only [scalarRange, surrogates]
        omega
      · refine .nil fun c => ?_
        simp only [surrogates] at *
        omega
    have habove : Encodes (sequencesAbove first last hbounds) fun value =>
        ((first ≤ value ∧ value ≤ last) ∧ bounds.1 ≤ value ∧ value ≤ bounds.2) ∧
          surrogates.2 < value := by
      rw [sequencesAbove]
      split
      · refine (encodes_oneLength _).congr fun c => ?_
        simp only [scalarRange, surrogates]
        omega
      · refine .nil fun c => ?_
        simp only [surrogates] at *
        omega
    refine (hbelow.append habove fun c => ?_).congr fun c => ?_
    · simp only [surrogates]
      omega
    · have := hchar c
      simp only [surrogates] at this ⊢
      omega
  have hapart : utf8Lengths.attach.Pairwise fun one other => ∀ c : Char,
      ((first ≤ c.toNat ∧ c.toNat ≤ last) ∧ one.1.1 ≤ c.toNat ∧ c.toNat ≤ one.1.2) →
        ¬ ((first ≤ c.toNat ∧ c.toNat ≤ last) ∧ other.1.1 ≤ c.toNat ∧ c.toNat ≤ other.1.2) := by
    have hlengths : (utf8Lengths.attach.map Subtype.val).Pairwise fun one other : Nat × Nat =>
        one.2 < other.1 := by
      rw [List.attach_map_subtype_val]
      decide
    refine (List.pairwise_map.mp hlengths).imp fun {one other} h c => ?_
    omega
  refine (Encodes.flatMap hpart hapart).congr fun c => ?_
  constructor
  · rintro ⟨bounds, -, hrange, -⟩
    exact hrange
  · intro hrange
    have hbounds : ∃ bounds ∈ utf8Lengths, bounds.1 ≤ c.toNat ∧ c.toNat ≤ bounds.2 := by
      have := hchar c
      simp only [utf8Lengths, surrogates, maxScalar, List.mem_cons, List.not_mem_nil, or_false,
        exists_eq_or_imp, exists_eq_left] at this ⊢
      omega
    obtain ⟨bounds, hmem, hbounds⟩ := hbounds
    exact ⟨⟨bounds, hmem⟩, List.mem_attach _ _, hrange, hbounds⟩

end Sequences

section Flex

theorem encodes_longSequences {set : List (Nat × Nat)} (h : Sorted set) :
    Encodes (longSequences set) fun value => 0x80 ≤ value ∧ Holds set value := by
  have hpart : ∀ range ∈ set, Encodes
      (if max range.1 0x80 ≤ range.2 then utf8Sequences (max range.1 0x80) range.2 else [])
      fun value => 0x80 ≤ value ∧ range.1 ≤ value ∧ value ≤ range.2 := by
    intro range _
    split
    · refine (encodes_utf8Sequences _ _).congr fun c => ?_
      omega
    · refine .nil fun c => ?_
      omega
  have hapart : set.Pairwise fun one other => ∀ c : Char,
      (0x80 ≤ c.toNat ∧ one.1 ≤ c.toNat ∧ c.toNat ≤ one.2) →
        ¬ (0x80 ≤ c.toNat ∧ other.1 ≤ c.toNat ∧ c.toNat ≤ other.2) :=
    h.apart.imp fun {one other} h c => by omega
  refine (Encodes.flatMap hpart hapart).congr fun c => ?_
  constructor
  · rintro ⟨range, hrange, hlong, hvalue⟩
    exact ⟨hlong, range, hrange, hvalue⟩
  · rintro ⟨hlong, range, hrange, hvalue⟩
    exact ⟨range, hrange, hlong, hvalue⟩

theorem encodeChar_ascii {c : Char} (h : c.toNat ≤ 0x7F) :
    String.utf8EncodeChar c = [UInt8.ofNat c.toNat] := by
  have hval : c.val.toNat = c.toNat := rfl
  unfold String.utf8EncodeChar
  dsimp only
  rw [hval, if_pos h]

theorem takes_singleton {cls : List (UInt8 × UInt8)} {bytes : List UInt8} :
    Takes [cls] bytes ↔ ∃ byte, bytes = [byte] ∧ ∃ range ∈ cls, range.1 ≤ byte ∧ byte ≤ range.2 := by
  rw [Takes, List.forall₂_cons_left_iff]
  simp only [List.forall₂_nil_left_iff]
  constructor
  · rintro ⟨byte, _, hbyte, rfl, rfl⟩
    exact ⟨byte, rfl, hbyte⟩
  · rintro ⟨byte, rfl, hbyte⟩
    exact ⟨byte, [], hbyte, rfl, rfl⟩

theorem takes_sequence {sequence : List (UInt8 × UInt8)} {bytes : List UInt8} :
    Takes (sequence.map ([·])) bytes ↔ Matches sequence bytes := by
  rw [Takes, List.forall₂_map_left_iff]
  simp only [List.mem_singleton, exists_eq_left]
  rfl

/-- A class of bytes that holds one-byte characters stands for their encodings. -/
theorem takes_ascii {cls : List (UInt8 × UInt8)} {kind : Char → Prop}
    (hascii : ∀ c, kind c → c.toNat ≤ 0x7F)
    (h : ∀ byte : UInt8, (∃ range ∈ cls, range.1 ≤ byte ∧ byte ≤ range.2) ↔
      byte.toNat ≤ 0x7F ∧ kind (Char.ofNat byte.toNat)) (bytes : List UInt8) :
    Takes [cls] bytes ↔ ∃ c, kind c ∧ bytes = String.utf8EncodeChar c := by
  rw [takes_singleton]
  constructor
  · rintro ⟨byte, rfl, hbyte⟩
    obtain ⟨hlow, hkind⟩ := (h byte).mp hbyte
    have hchar : (Char.ofNat byte.toNat).toNat = byte.toNat := toNat_ofNat (.inl (by omega))
    refine ⟨_, hkind, ?_⟩
    rw [encodeChar_ascii (hascii _ hkind), hchar, UInt8.ofNat_toNat]
  · rintro ⟨c, hkind, rfl⟩
    have hlow := hascii c hkind
    have hbyte : (UInt8.ofNat c.toNat).toNat = c.toNat := by
      rw [UInt8.toNat_ofNat']
      omega
    refine ⟨UInt8.ofNat c.toNat, encodeChar_ascii hlow, (h _).mpr ⟨hbyte.symm ▸ hlow, ?_⟩⟩
    rw [hbyte, Char.ofNat_toNat]
    exact hkind

/-- A set of ranges is written as the encodings of its characters. -/
theorem flexUtf8Set_spec {set : List (Nat × Nat)} (h : Sorted set) :
    (∀ bytes, (flexUtf8Set set).Matches bytes ↔
      ∃ c : Char, Holds set c.toNat ∧ bytes = String.utf8EncodeChar c) ∧
      (flexUtf8Set set).Disjoint := by
  have hlong := encodes_longSequences h
  have hascii : ∀ bytes, Takes [asciiRanges set] bytes ↔
      ∃ c : Char, (c.toNat ≤ 0x7F ∧ Holds set c.toNat) ∧ bytes = String.utf8EncodeChar c := by
    refine takes_ascii (fun c hc => hc.1) fun byte => ?_
    have hrange : ∀ range : Nat × Nat, range.1 ≤ 0x7F →
        (UInt8.ofNat range.1 ≤ byte ∧ byte ≤ UInt8.ofNat (min range.2 0x7F) ↔
          byte.toNat ≤ 0x7F ∧ range.1 ≤ byte.toNat ∧ byte.toNat ≤ range.2) := by
      intro range hlow
      rw [UInt8.le_iff_toNat_le, UInt8.le_iff_toNat_le, UInt8.toNat_ofNat', UInt8.toNat_ofNat']
      omega
    simp only [asciiRanges, List.mem_map, List.mem_filter, decide_eq_true_iff]
    constructor
    · rintro ⟨_, ⟨range, ⟨hmem, hlow⟩, rfl⟩, hbyte⟩
      obtain ⟨hbyte, hvalue⟩ := (hrange range hlow).mp hbyte
      have hchar : (Char.ofNat byte.toNat).toNat = byte.toNat := toNat_ofNat (.inl (by omega))
      rw [hchar]
      exact ⟨hbyte, hbyte, range, hmem, hvalue⟩
    · rintro ⟨hbyte, -, range, hmem, hvalue⟩
      have hchar : (Char.ofNat byte.toNat).toNat = byte.toNat := toNat_ofNat (.inl (by omega))
      rw [hchar] at hvalue
      exact ⟨_, ⟨range, ⟨hmem, hvalue.1.trans hbyte⟩, rfl⟩,
        (hrange range (hvalue.1.trans hbyte)).mpr ⟨hbyte, hvalue⟩⟩
  have hshort : ∀ bytes, (∃ classes ∈ if (asciiRanges set).isEmpty then []
      else [[asciiRanges set]], Takes classes bytes) ↔ Takes [asciiRanges set] bytes := by
    intro bytes
    split
    · rename_i hempty
      rw [List.isEmpty_iff.mp hempty, takes_singleton]
      simp
    · simp
  constructor
  · intro bytes
    simp only [FlexClass.Matches, flexUtf8Set, FlexClass.alternatives, List.mem_append,
      or_and_right, exists_or, hshort, hascii, List.mem_map, exists_exists_and_eq_and,
      takes_sequence, hlong.exact]
    rw [← exists_or]
    refine exists_congr fun c => ?_
    rw [← or_and_right]
    refine and_congr_left fun _ => ?_
    constructor
    · rintro (hc | hc)
      · exact hc.2
      · exact hc.2
    · intro hc
      rcases Nat.lt_or_ge c.toNat 0x80 with hlow | hhigh
      · exact .inl ⟨by omega, hc⟩
      · exact .inr ⟨hhigh, hc⟩
  · refine List.pairwise_append.mpr ⟨?_, ?_, ?_⟩
    · split
      · exact .nil
      · exact List.pairwise_singleton _ _
    · refine List.pairwise_map.mpr (hlong.disjoint.imp fun {one other} h bytes => ?_)
      rw [takes_sequence, takes_sequence]
      exact h bytes
    · intro one hone other hother bytes hmatch hmatch'
      obtain ⟨c, hc, hbytes⟩ := (hascii bytes).mp ((hshort bytes).mp ⟨one, hone, hmatch⟩)
      obtain ⟨sequence, hsequence, rfl⟩ := List.mem_map.mp hother
      obtain ⟨d, hd, hbytes'⟩ := (hlong.exact bytes).mp ⟨sequence, hsequence, takes_sequence.mp hmatch'⟩
      obtain rfl := encodeChar_injective (hbytes.symm.trans hbytes')
      omega

/-- What is written for a class of characters, and for `.`. -/
theorem flexClass_spec (negated : Bool) (members : List CharClass) :
    (∀ bytes, (flexClass negated members).Matches bytes ↔
      ∃ c : Char, InClass negated members c ∧ bytes = String.utf8EncodeChar c) ∧
      (flexClass negated members).Disjoint := by
  rw [flexClass]
  split
  · rename_i h
    simp only [Bool.and_eq_true, Bool.not_eq_true', List.all_eq_true] at h
    obtain ⟨rfl, hascii⟩ := h
    have hmember : ∀ member ∈ members, ∀ c, MemberContains member c → c.toNat ≤ 0x7F := by
      intro member hmem c hc
      have hbound := hascii member hmem
      cases member with
      | char d =>
        rw [isAsciiMember, decide_eq_true_iff] at hbound
        obtain rfl : c = d := hc
        exact hbound
      | range first last =>
        rw [isAsciiMember, Bool.and_eq_true, decide_eq_true_iff, decide_eq_true_iff] at hbound
        exact hc.2.trans hbound.2
    have hbytes : ∀ member ∈ members, ∀ byte : UInt8,
        (memberBytes member).1 ≤ byte ∧ byte ≤ (memberBytes member).2 ↔
          byte.toNat ≤ 0x7F ∧ MemberContains member (Char.ofNat byte.toNat) := by
      intro member hmem byte
      have hbound := hascii member hmem
      have hchar : byte.toNat ≤ 0x7F → (Char.ofNat byte.toNat).toNat = byte.toNat :=
        fun h => toNat_ofNat (.inl (by omega))
      cases member with
      | char d =>
        rw [isAsciiMember, decide_eq_true_iff] at hbound
        rw [memberBytes, MemberContains, UInt8.le_iff_toNat_le, UInt8.le_iff_toNat_le,
          UInt8.toNat_ofNat', ← Char.toNat_inj]
        constructor
        · intro h
          rw [hchar (by omega)]
          omega
        · rintro ⟨hlow, heq⟩
          rw [hchar hlow] at heq
          omega
      | range first last =>
        rw [isAsciiMember, Bool.and_eq_true, decide_eq_true_iff, decide_eq_true_iff] at hbound
        rw [memberBytes, MemberContains, UInt8.le_iff_toNat_le, UInt8.le_iff_toNat_le,
          UInt8.toNat_ofNat', UInt8.toNat_ofNat']
        constructor
        · intro h
          rw [hchar (by omega)]
          omega
        · rintro ⟨hlow, heq⟩
          rw [hchar hlow] at heq
          omega
    have htakes : ∀ bytes, Takes [members.map memberBytes] bytes ↔
        ∃ c, (∃ member ∈ members, MemberContains member c) ∧ bytes = String.utf8EncodeChar c := by
      refine takes_ascii (fun c ⟨member, hmem, hc⟩ => hmember member hmem c hc) fun byte => ?_
      simp only [List.mem_map, exists_exists_and_eq_and]
      constructor
      · rintro ⟨member, hmem, hbyte⟩
        obtain ⟨hlow, hc⟩ := (hbytes member hmem byte).mp hbyte
        exact ⟨hlow, member, hmem, hc⟩
      · rintro ⟨hlow, member, hmem, hc⟩
        exact ⟨member, hmem, (hbytes member hmem byte).mpr ⟨hlow, hc⟩⟩
    refine ⟨fun bytes => ?_, List.pairwise_singleton _ _⟩
    simpa [FlexClass.Matches, FlexClass.alternatives, InClass] using htakes bytes
  · obtain ⟨hsorted, hholds, -⟩ := classScalarRanges_spec negated members
    obtain ⟨hmatches, hdisjoint⟩ := flexUtf8Set_spec hsorted
    refine ⟨fun bytes => ?_, hdisjoint⟩
    simp only [hmatches, hholds]

theorem flexAnyChar_spec :
    (∀ bytes, flexAnyChar.Matches bytes ↔
      ∃ c : Char, c ≠ '\n' ∧ bytes = String.utf8EncodeChar c) ∧ flexAnyChar.Disjoint := by
  have hnewline : classScalarRanges true [.char '\n'] =
      complementScalarRanges [('\n'.toNat, '\n'.toNat)] := by
    simp [classScalarRanges, memberRange, mergeScalarRanges, mergeStep]
  obtain ⟨hsorted, hholds, -⟩ := classScalarRanges_spec true [.char '\n']
  rw [hnewline] at hsorted hholds
  obtain ⟨hmatches, hdisjoint⟩ := flexUtf8Set_spec hsorted
  refine ⟨fun bytes => ?_, hdisjoint⟩
  rw [flexAnyChar, hmatches]
  refine exists_congr fun c => and_congr_left fun _ => ?_
  rw [hholds]
  simp [InClass, MemberContains]

end Flex

section Rust

theorem mapM_fromU32 {parts : List (Nat × Nat)}
    (h : ∀ part ∈ parts, part.1.isValidChar ∧ part.2.isValidChar) :
    parts.mapM (fun range => do return (← fromU32 range.1, ← fromU32 range.2)) =
      some (parts.map fun part => (Char.ofNat part.1, Char.ofNat part.2)) := by
  induction parts with
  | nil => rfl
  | cons part parts ih =>
    rw [List.forall_mem_cons] at h
    rw [List.mapM_cons, fromU32, fromU32, if_pos h.1.1, if_pos h.1.2, ih h.2]
    rfl

theorem withoutSurrogates_spec {range part : Nat × Nat} (hmax : range.2 ≤ maxScalar)
    (h : part ∈ withoutSurrogates range) : part.1.isValidChar ∧ part.2.isValidChar := by
  rw [withoutSurrogates, List.mem_filter, decide_eq_true_iff] at h
  obtain ⟨hmem, hle⟩ := h
  simp only [surrogates, List.mem_cons, List.not_mem_nil, or_false] at hmem
  simp only [maxScalar] at hmax
  simp only [Nat.isValidChar]
  rcases hmem with rfl | rfl
  · simp only [] at hle ⊢
    omega
  · simp only [] at hle ⊢
    omega

theorem holds_withoutSurrogates (range : Nat × Nat) (c : Char) :
    Holds (withoutSurrogates range) c.toNat ↔ range.1 ≤ c.toNat ∧ c.toNat ≤ range.2 := by
  have hvalid := c.valid
  simp only [UInt32.isValidChar, Nat.isValidChar] at hvalid
  have hchar : c.toNat < surrogates.1 ∨ surrogates.2 < c.toNat := by
    change c.val.toNat < _ ∨ _ < c.val.toNat
    simp only [surrogates]
    omega
  simp only [surrogates] at hchar
  simp only [Holds, withoutSurrogates, List.mem_filter, List.mem_cons, List.not_mem_nil, or_false,
    decide_eq_true_iff, surrogates]
  constructor
  · rintro ⟨part, ⟨rfl | rfl, -⟩, hlow, hhigh⟩
    · simp only [] at hlow hhigh
      omega
    · simp only [] at hlow hhigh
      omega
  · rintro ⟨hlow, hhigh⟩
    rcases hchar with hbelow | habove
    · exact ⟨_, ⟨.inl rfl, by simp only []; omega⟩, hlow, by simp only []; omega⟩
    · exact ⟨_, ⟨.inr rfl, by simp only []; omega⟩, by simp only []; omega, hhigh⟩

/-- What is written for the Rust engine. -/
theorem rustClass_spec (negated : Bool) (members : List CharClass) :
    ∃ cls, rustClass negated members = some cls ∧
      ∀ c, cls.Denotes c ↔ InClass negated members c := by
  cases negated with
  | false => exact ⟨.written members, rfl, fun c => Iff.rfl⟩
  | true =>
    obtain ⟨-, hholds, hmax⟩ := classScalarRanges_spec true members
    have hvalid : ∀ part ∈ (classScalarRanges true members).flatMap withoutSurrogates,
        part.1.isValidChar ∧ part.2.isValidChar := by
      intro part hpart
      obtain ⟨range, hrange, hmem⟩ := List.mem_flatMap.mp hpart
      exact withoutSurrogates_spec (hmax range hrange) hmem
    refine ⟨.ranges (((classScalarRanges true members).flatMap withoutSurrogates).map fun part =>
      (Char.ofNat part.1, Char.ofNat part.2)), ?_, fun c => ?_⟩
    · rw [rustClass, if_pos rfl, rustNegatedClass, mapM_fromU32 hvalid]
      rfl
    · rw [← hholds, RustClass.Denotes]
      simp only [Holds, List.mem_map, exists_exists_and_eq_and]
      constructor
      · rintro ⟨part, hpart, hvalue⟩
        obtain ⟨hfirst, hlast⟩ := hvalid part hpart
        rw [toNat_ofNat hfirst, toNat_ofNat hlast] at hvalue
        obtain ⟨range, hrange, hmem⟩ := List.mem_flatMap.mp hpart
        exact ⟨range, hrange, (holds_withoutSurrogates range c).mp ⟨part, hmem, hvalue⟩⟩
      · rintro ⟨range, hrange, hvalue⟩
        obtain ⟨part, hmem, hpart⟩ := (holds_withoutSurrogates range c).mpr hvalue
        have hpart' := List.mem_flatMap.mpr ⟨range, hrange, hmem⟩
        obtain ⟨hfirst, hlast⟩ := hvalid part hpart'
        refine ⟨part, hpart', ?_⟩
        rwa [toNat_ofNat hfirst, toNat_ofNat hlast]

end Rust

end KRust.Regex
