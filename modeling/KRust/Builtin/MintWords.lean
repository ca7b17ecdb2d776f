import KRust.Builtin.BigInts
import KRust.Builtin.Mint
import Mathlib.Data.Nat.Bitwise

/-!
Machine integers as bit vectors: the literals of a width are its patterns, read without a sign or
in two's complement, and a number reduced modulo `2 ^ W` is the pattern of that number.
-/

namespace KRust.Builtin.Mint

open KRust.Kore KRust.Backend KRust.Lib
open KRust.Domain (DomainSort mintWidth mintWidthDigits numeralSortDigits parseUnsigned_of_digits)
open Decimal (IsDigits isDigits_toDigits shortest_toDigits value_toDigits)

section Widths

/-- The machine-integer sort whose width the digits name. -/
def machineSort (digits : List Char) : KoreSort :=
  .application "SortMInt" [.application (String.ofList ("Sort".toList ++ digits)) []]

def HasWidth (sort : KoreSort) (width : Nat) : Prop :=
  ∃ digits, IsDigits digits ∧ Decimal.value digits = width ∧ sort = machineSort digits

variable {digits : List Char}

theorem numeralSortDigits_simple (h : IsDigits digits) :
    numeralSortDigits (KoreSort.application (String.ofList ("Sort".toList ++ digits)) []) =
      some digits := by
  obtain ⟨hne, hall⟩ := h
  have hstrip : "Sort".toList.isPrefixOf? ("Sort".toList ++ digits) = some digits := rfl
  simp only [numeralSortDigits, DomainSort.asApplication, String.toList_ofList, hstrip,
    Option.bind_eq_bind, Option.bind_some, List.isEmpty_nil, Bool.true_and]
  rw [if_pos (by simpa [hne] using hall)]

theorem mintWidthDigits_machineSort (h : IsDigits digits) :
    mintWidthDigits (machineSort digits) = some digits := by
  rw [← numeralSortDigits_simple h]
  rfl

theorem mintWidth_machineSort (h : IsDigits digits) :
    mintWidth (machineSort digits) =
      some (if Decimal.value digits < 2 ^ 64 then .bits (Decimal.value digits)
        else .unrepresentable) := by
  have hparse := parseUnsigned_of_digits h.1 h.2
  rw [← Decimal.value] at hparse
  have hvariable : DomainSort.hasVariable
      (KoreSort.application (String.ofList ("Sort".toList ++ digits)) []) = false := rfl
  have hname : ¬ ("SortMInt".toList ≠ Domain.mintSort ∨ false = true) := by decide
  simp only [mintWidth, machineSort, DomainSort.asApplication, numeralSortDigits_simple h, hparse,
    hvariable, if_neg hname]
  split
  · rename_i hcount
    split at hcount
    · cases hcount
      rename_i hsmall
      rw [if_pos hsmall]
    · cases hcount
  · rename_i hcount
    split at hcount
    · cases hcount
    · rename_i hlarge
      rw [if_neg hlarge]

theorem toU64_of_lt {n : Nat} (h : n < 2 ^ 64) : toU64 n = some n :=
  if_pos (Nat.le_sub_one_of_lt h)

theorem toU64_of_le {n : Nat} (h : 2 ^ 64 ≤ n) : toU64 n = none :=
  if_neg (not_le.mpr (Nat.lt_of_lt_of_le (by decide) h))

theorem literalWidth_machineSort (h : IsDigits digits) :
    literalWidth (machineSort digits) = some (toU64 (Decimal.value digits)) := by
  rw [literalWidth, mintWidth_machineSort h]
  by_cases hsmall : Decimal.value digits < 2 ^ 64
  · rw [if_pos hsmall, toU64_of_lt hsmall]
  · rw [if_neg hsmall, toU64_of_le (not_lt.mp hsmall)]

end Widths

section Literals

variable {bigInts : BigInts} {sort : KoreSort} {W : Nat}

theorem splitOnce_append {mark : Char} {front : List Char} (h : mark ∉ front) (back : List Char) :
    splitOnce mark (front ++ mark :: back) = some (front, back) := by
  induction front with
  | nil => simp [splitOnce]
  | cons c front ih =>
    obtain ⟨hc, hfront⟩ := List.ne_and_not_mem_of_not_mem_cons h
    rw [List.cons_append, splitOnce, if_neg (Ne.symm hc), ih hfront]
    rfl

/-- The literal of a pattern as the hooks read it. -/
def word (sort : KoreSort) (x : BitVec W) : Word := ⟨sort, toU64 W, x.toNat⟩

theorem size_toNat_le (x : BitVec W) : x.toNat.size ≤ W := Nat.size_le.mpr x.isLt

theorem readMint_mintTerm (hdoc : bigInts.Documented) (hsort : HasWidth sort W) (x : BitVec W) :
    readMint bigInts (mintTerm sort x.toNat) = some (word sort x) := by
  obtain ⟨digits, hdigits, hvalue, rfl⟩ := hsort
  have hnumber := isDigits_toDigits x.toNat
  have hmark : 'p' ∉ Nat.toDigits 10 x.toNat := fun hmem => absurd (hnumber.2 _ hmem) (by decide)
  have hfits : ¬ (toU64 W).any (fun width => decide (width < x.toNat.size)) = true := by
    have := size_toNat_le x
    unfold toU64
    split <;> simp [this]
  have hcanonical : ¬ (some digits ≠ mintWidthDigits (machineSort digits) ∨
      (Nat.toDigits 10 x.toNat).isEmpty ∨ ¬ (Nat.toDigits 10 x.toNat).all Char.isDigit ∨
      (1 < (Nat.toDigits 10 x.toNat).length ∧ (Nat.toDigits 10 x.toNat).head? = some '0')) := by
    rintro (hwidth | hempty | hall | ⟨hlong, hzero⟩)
    · exact hwidth (mintWidthDigits_machineSort hdigits).symm
    · exact hnumber.1 (List.isEmpty_iff.mp hempty)
    · exact hall (List.all_eq_true.mpr hnumber.2)
    · rcases shortest_toDigits x.toNat with hsingle | hhead
      · rw [hsingle] at hlong
        exact absurd hlong (by decide)
      · exact hhead hzero
  rw [mintTerm, mintWidthDigits_machineSort hdigits]
  simp only [readMint, literalWidth_machineSort hdigits, Utf8.decode_encode, Option.getD_some,
    splitOnce_append hmark, Option.bind_eq_bind, Option.bind_some, if_neg hcanonical,
    hdoc.parseNat _ hnumber, value_toDigits, hvalue]
  rw [if_neg hfits]
  rfl

end Literals

section Readings

variable {W : Nat}

/-- What memory grants numbers of a width that no word holds: a word counts their bits. -/
def Held (W bits : Nat) : Prop := 2 ^ 64 ≤ W → bits ≤ u64Max

theorem size_le_u64Max {x : BitVec W} (h : Held W x.toNat.size) : x.toNat.size ≤ u64Max := by
  rcases Nat.lt_or_ge W (2 ^ 64) with hsmall | hlarge
  · exact (size_toNat_le x).trans (Nat.le_sub_one_of_lt hsmall)
  · exact h hlarge

/-- The bit of the sign is the topmost one. -/
theorem top_bit_iff (x : BitVec W) :
    2 ^ W ≤ 2 * x.toNat ↔ 0 < W ∧ x.toNat.size = W := by
  have hsize := size_toNat_le x
  cases W with
  | zero =>
    have hx := x.isLt
    simp only [pow_zero] at hx
    simp [Nat.lt_one_iff.mp hx]
  | succ below =>
    have htop : below < x.toNat.size ↔ 2 ^ below ≤ x.toNat := Nat.lt_size
    have hdouble : 2 ^ (below + 1) = 2 * 2 ^ below := pow_succ' 2 below
    omega

theorem signed_word (sort : KoreSort) {x : BitVec W} (h : Held W x.toNat.size) :
    (word sort x).signed = x.toInt := by
  have htop := top_bit_iff x
  rw [BitVec.toInt_eq_toNat_cond]
  rcases Nat.lt_or_ge W (2 ^ 64) with hsmall | hlarge
  · simp only [Word.signed, word, toU64_of_lt hsmall]
    split
    · rename_i hset
      rw [if_neg (by have := htop.mpr hset; omega)]
      norm_cast
    · rename_i hclear
      rw [if_pos (not_le.mp (mt htop.mp hclear))]
  · have hfits : x.toNat.size ≠ W := ((h hlarge).trans_lt (Nat.lt_of_lt_of_le (by decide) hlarge)).ne
    simp only [Word.signed, word, toU64_of_le hlarge]
    rw [if_pos (not_le.mp fun hset => hfits (htop.mp hset).2)]

theorem natAbs_toInt_le (x : BitVec W) : x.toInt.natAbs ≤ x.toNat := by
  have hx := x.isLt
  rw [BitVec.toInt_eq_toNat_cond]
  split <;> omega

end Readings

section Meanings

/-- What an operation on the patterns of a width gives. -/
inductive Meaning (W : Nat) where
  | word (pattern : BitVec W)
  | int (number : Int)
  | bool (holds : Bool)
  | undefined

/-- A hook answers with what its operation gives, or refuses a pattern of more bits than the
bound on results. -/
def Gives (env : Environment) (sort : KoreSort) (bits : Nat) (outcome : HookResult BuiltinResult) :
    Meaning W → Prop
  | .word z => outcome = .ok (.value (mintTerm sort z.toNat)) ∨
      (limit env bits < z.toNat.size ∧ ∃ detail, outcome = .ok (tooLarge detail))
  | .int n => outcome = .ok (.value (intTerm n))
  | .bool holds => outcome = .ok (.value (boolTerm holds))
  | .undefined => outcome = .ok (.bottom .stated)

end Meanings

section Reductions

variable {W : Nat} {env : Environment}

theorem limit_le (env : Environment) (bits : Nat) : limit env bits ≤ u64Max := by
  have hfloor : env.boundedFloor maxIntResultBits ≤ maxIntResultBits := by
    unfold Environment.boundedFloor
    split
    · exact le_rfl
    · exact min_le_right _ _
  exact max_le (min_le_right _ _) (hfloor.trans (by decide))

/-- The operands of an operation are within its bound. -/
theorem le_limit {bits : Nat} (h : bits ≤ u64Max ∨ limit env bits < u64Max) :
    bits ≤ limit env bits := by
  have hleft : min (bits * 2) u64Max ≤ limit env bits := le_max_left _ _
  omega

theorem toNat_ofInt_of_nonneg {value : Int} (h : 0 ≤ value) :
    (BitVec.ofInt W value).toNat = value.natAbs % 2 ^ W := by
  obtain ⟨magnitude, rfl⟩ := Int.eq_ofNat_of_zero_le h
  rw [BitVec.toNat_ofInt, Int.natAbs_natCast, ← Int.natCast_emod, Int.toNat_natCast]

/-- The residue of a negative number is what its magnitude's lacks. -/
theorem toNat_ofInt_of_neg {value : Int} (h : value < 0) (hresidue : value.natAbs % 2 ^ W ≠ 0) :
    (BitVec.ofInt W value).toNat = 2 ^ W - value.natAbs % 2 ^ W := by
  have hpos : (0 : Int) < 2 ^ W := by positivity
  have hlt : value.natAbs % 2 ^ W < 2 ^ W := Nat.mod_lt _ (by positivity)
  have hsplit : (value.natAbs : Int) = 2 ^ W * (value.natAbs / 2 ^ W : Nat) +
      (value.natAbs % 2 ^ W : Nat) := by
    exact_mod_cast (Nat.div_add_mod value.natAbs (2 ^ W)).symm
  have hvalue : value = (2 ^ W - (value.natAbs % 2 ^ W : Nat) : Int) +
      2 ^ W * (-(value.natAbs / 2 ^ W : Nat) - 1) := by
    have hmagnitude : value = -(value.natAbs : Int) := by omega
    rw [hmagnitude, Int.natAbs_neg, Int.natAbs_natCast]
    linarith
  have hmod : value % 2 ^ W = 2 ^ W - (value.natAbs % 2 ^ W : Nat) := by
    have hcast : ((value.natAbs % 2 ^ W : Nat) : Int) < 2 ^ W := by exact_mod_cast hlt
    nth_rewrite 1 [hvalue]
    rw [Int.add_mul_emod_self_left, Int.emod_eq_of_lt (by omega) (by omega)]
  rw [BitVec.toNat_ofInt]
  push_cast
  rw [hmod]
  rw [← Int.toNat_natCast (2 ^ W - value.natAbs % 2 ^ W), Nat.cast_sub hlt.le]
  push_cast
  rfl

theorem reduced_eq {magnitude : Nat} (hheld : 2 ^ 64 ≤ W → magnitude.size ≤ W) :
    reduced magnitude (toU64 W) = magnitude % 2 ^ W := by
  rcases Nat.lt_or_ge W (2 ^ 64) with hsmall | hlarge
  · rw [toU64_of_lt hsmall, reduced]
    split
    · exact Nat.and_two_pow_sub_one_eq_mod _ _
    · rename_i hfits
      exact (Nat.mod_eq_of_lt (Nat.size_le.mp (not_lt.mp hfits))).symm
  · rw [toU64_of_le hlarge, reduced]
    exact (Nat.mod_eq_of_lt (Nat.size_le.mp (hheld hlarge))).symm

theorem wrap_eq {value : Int} {limit : Nat} (hlimit : limit ≤ u64Max)
    (hheld : 2 ^ 64 ≤ W → value.natAbs.size ≤ W) :
    wrap value (toU64 W) limit =
      if value < 0 ∧ value.natAbs % 2 ^ W ≠ 0 ∧ limit < W then none
      else some (BitVec.ofInt W value).toNat := by
  unfold wrap
  simp only [reduced_eq hheld]
  by_cases hneg : value < 0
  · by_cases hzero : value.natAbs % 2 ^ W = 0
    · have hresidue : (BitVec.ofInt W value).toNat = 0 := by
        have hdvd : ((2 ^ W : Nat) : Int) ∣ value :=
          Int.natCast_dvd.mpr (Nat.dvd_of_mod_eq_zero hzero)
        rw [BitVec.toNat_ofInt, Int.emod_eq_zero_of_dvd hdvd, Int.toNat_zero]
      rw [if_pos (.inr hzero), if_neg (by simp [hzero]), hresidue, hzero]
    · rw [if_neg (by simp [hneg, hzero]), toNat_ofInt_of_neg hneg hzero]
      have hfilter : (toU64 W).filter (fun width => decide (width ≤ limit)) =
          if limit < W then none else some W := by
        unfold toU64
        split
        · simp only [Option.filter_some, decide_eq_true_eq]
          split <;> split <;> first | rfl | omega
        · rw [if_pos (by omega)]
          rfl
      rw [hfilter]
      by_cases hwide : limit < W
      · rw [if_pos hwide, if_pos ⟨hneg, hzero, hwide⟩]
        rfl
      · rw [if_neg hwide, if_neg (by simp [hwide])]
        rfl
  · rw [if_pos (.inl hneg), if_neg (by simp [hneg]), toNat_ofInt_of_nonneg (not_lt.mp hneg)]

variable {sort : KoreSort}

/-- A number reduced: the pattern, or the refusal of one that is wider than the bound. -/
theorem wrapped_gives (operation : String) {value : Int} {bits : Nat}
    (hheld : 2 ^ 64 ≤ W → value.natAbs.size ≤ W)
    (hsmall : value < 0 → limit env bits < W → value.natAbs ≤ 2 ^ limit env bits) :
    Gives env sort bits (.ok (wrapped operation sort (toU64 W) value (limit env bits)))
      (.word (BitVec.ofInt W value)) := by
  rw [wrapped, wrap_eq (limit_le env bits) hheld]
  by_cases hwide : value < 0 ∧ value.natAbs % 2 ^ W ≠ 0 ∧ limit env bits < W
  · rw [if_pos hwide]
    obtain ⟨hneg, hresidue, hwidth⟩ := hwide
    refine .inr ⟨?_, _, rfl⟩
    have hle := hsmall hneg hwidth
    have hdouble : 2 * 2 ^ limit env bits ≤ 2 ^ W := by
      rw [← pow_succ']
      exact Nat.pow_le_pow_right (by decide) hwidth
    have hmod : value.natAbs % 2 ^ W ≤ value.natAbs := Nat.mod_le _ _
    rw [toNat_ofInt_of_neg hneg hresidue]
    exact Nat.lt_size.mpr (by omega)
  · rw [if_neg hwide]
    exact .inl rfl

theorem limit_saturating (env : Environment) (bits : Nat) :
    limit env (saturating bits) = limit env bits := by
  simp only [limit, resultSizeLimit, saturating]
  omega

/-- A number of no more bits than the operands have. -/
theorem wrapped_gives_of_le (operation : String) {value : Int} {bits : Nat}
    (hheld : Held W bits) (hvalue : value.natAbs ≤ 2 ^ bits) :
    Gives env sort bits (.ok (wrapped operation sort (toU64 W) value (limit env bits)))
      (.word (BitVec.ofInt W value)) := by
  apply wrapped_gives
  · intro hlarge
    have hbits : bits < W := (hheld hlarge).trans_lt (Nat.lt_of_lt_of_le (by decide) hlarge)
    exact Nat.size_le.mpr (hvalue.trans_lt (Nat.pow_lt_pow_right (by decide) hbits))
  · intro _ hwidth
    have hbits : bits ≤ limit env bits := by
      apply le_limit
      rcases Nat.lt_or_ge W (2 ^ 64) with hsmall | hlarge
      · exact .inr (hwidth.trans_le (Nat.le_sub_one_of_lt hsmall))
      · exact .inl (hheld hlarge)
    exact hvalue.trans (Nat.pow_le_pow_right (by decide) hbits)

end Reductions

end KRust.Builtin.Mint
