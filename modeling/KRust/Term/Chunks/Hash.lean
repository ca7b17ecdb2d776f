import Mathlib.NumberTheory.LucasLehmer
import KRust.Lib.PolyHash

/-!
The hash arithmetic of the chunked sequence: residues of the prime `2^61 - 1`
held in machine words, and the polynomial hash of an item sequence built from
them. Words are natural numbers; a cast to 64 bits is a residue of `2^64`.
-/

namespace KRust.Term.Chunks

open KRust.Lib

/-- `MODULUS`: the prime `2^61 - 1`. -/
def modulus : Nat := 2 ^ 61 - 1

/-- `RADIX`. -/
def radix : Nat := 0x1f3d5b79a2c4e681 % modulus

/-- `x` modulo `MODULUS`: the bits above position 61 are added to those below
it, twice, in 64-bit words. -/
def reduce (x : Nat) : Nat :=
  let folded := ((x &&& modulus) + (x >>> 61)) % 2 ^ 64
  let folded := (folded &&& modulus) + (folded >>> 61)
  if folded ≥ modulus then folded - modulus else folded

def multiply (left right : Nat) : Nat := reduce (left * right)

def add (left right : Nat) : Nat :=
  let sum := left + right
  if sum ≥ modulus then sum - modulus else sum

def difference (left right : Nat) : Nat :=
  if left ≥ right then left - right else left + modulus - right

/-- The squaring loop of `power`. -/
def powerLoop (result square exponent : Nat) : Nat :=
  if _h : exponent > 0 then
    powerLoop (if exponent % 2 = 1 then multiply result square else result)
      (multiply square square) (exponent / 2)
  else result
termination_by exponent
decreasing_by omega

def power (base exponent : Nat) : Nat := powerLoop 1 base exponent

/-- `INVERSE_RADIX`: the inverse of the radix, by Fermat's little theorem. -/
def inverseRadix : Nat := power radix (modulus - 2)

/-- The finalizer of SplitMix64, reduced. -/
def mix (hash : UInt64) : Nat :=
  let z := hash
  let z := (z ^^^ (z >>> 30)) * 0xbf58476d1ce4e5b9
  let z := (z ^^^ (z >>> 27)) * 0x94d049bb133111eb
  reduce (z ^^^ (z >>> 31)).toNat

@[ext] structure SequenceHash where
  value : Nat
  power : Nat
deriving DecidableEq, Repr

namespace SequenceHash

def empty : SequenceHash := ⟨0, 1⟩

def ofItem (hash : UInt64) : SequenceHash := ⟨mix hash, radix⟩

def combine (left right : SequenceHash) : SequenceHash :=
  ⟨add (multiply left.value right.power) right.value, multiply left.power right.power⟩

/-- The hash of items given by their own hashes. -/
def ofItems (hashes : List UInt64) : SequenceHash :=
  hashes.foldl (fun hash item => hash.combine (ofItem item)) empty

def ofValue (value length : Nat) : SequenceHash := ⟨value, Chunks.power radix length⟩

end SequenceHash

/-! The word arithmetic is arithmetic of residues. -/

theorem modulus_pos : 0 < modulus := by decide

theorem prime_modulus : modulus.Prime := by
  have h := lucas_lehmer_sufficiency 61 (by norm_num) (by norm_num)
  simpa [mersenne, modulus] using h

instance : Fact modulus.Prime := ⟨prime_modulus⟩

theorem and_modulus (x : Nat) : x &&& modulus = x % 2 ^ 61 :=
  Nat.and_two_pow_sub_one_eq_mod x 61

/-- Both folds keep the residue since `2^61` is one modulo the prime; the first
leaves less than `2^62`, which fits a word, and the second at most `2^61`. -/
theorem reduce_eq_mod (x : Nat) (hx : x < 2 ^ 122) : reduce x = x % modulus := by
  unfold reduce
  simp only [and_modulus, Nat.shiftRight_eq_div_pow]
  have hword : (x % 2 ^ 61 + x / 2 ^ 61) % 2 ^ 64 = x % 2 ^ 61 + x / 2 ^ 61 := by
    apply Nat.mod_eq_of_lt
    omega
  rw [hword]
  split <;> simp only [modulus] at * <;> omega

theorem reduce_lt (x : Nat) : reduce x < modulus := by
  unfold reduce
  simp only [and_modulus, Nat.shiftRight_eq_div_pow]
  split <;> simp only [modulus] at * <;> omega

theorem multiply_eq_mod (left right : Nat) (hleft : left < modulus) (hright : right < modulus) :
    multiply left right = left * right % modulus := by
  apply reduce_eq_mod
  calc
    left * right < modulus * modulus := Nat.mul_lt_mul'' hleft hright
    _ < 2 ^ 122 := by decide

theorem add_eq_mod (left right : Nat) (hleft : left < modulus) (hright : right < modulus) :
    add left right = (left + right) % modulus := by
  unfold add
  simp only []
  split <;> simp only [modulus] at * <;> omega

theorem multiply_lt (left right : Nat) : multiply left right < modulus := reduce_lt _

theorem add_lt (left right : Nat) (hleft : left < modulus) (hright : right < modulus) :
    add left right < modulus := by
  rw [add_eq_mod left right hleft hright]
  exact Nat.mod_lt _ modulus_pos

theorem difference_lt (left right : Nat) (hleft : left < modulus) (hright : right < modulus) :
    difference left right < modulus := by
  unfold difference
  split <;> omega

theorem radix_lt : radix < modulus := Nat.mod_lt _ modulus_pos

theorem mix_lt (hash : UInt64) : mix hash < modulus := reduce_lt _

theorem powerLoop_lt (result square exponent : Nat) (hresult : result < modulus) :
    powerLoop result square exponent < modulus := by
  induction exponent using Nat.strong_induction_on generalizing result square with
  | _ exponent ih =>
    rw [powerLoop]
    split
    · apply ih
      · omega
      · split
        · exact multiply_lt _ _
        · exact hresult
    · exact hresult

theorem power_lt (base exponent : Nat) : power base exponent < modulus :=
  powerLoop_lt 1 base exponent (by decide)

/-! Residues are read in the field of `2^61 - 1` elements, where the proofs
about hashes are done. -/

theorem cast_multiply (left right : Nat) (hleft : left < modulus) (hright : right < modulus) :
    (multiply left right : ZMod modulus) = left * right := by
  rw [multiply_eq_mod left right hleft hright, ZMod.natCast_mod, Nat.cast_mul]

theorem cast_add (left right : Nat) (hleft : left < modulus) (hright : right < modulus) :
    (add left right : ZMod modulus) = left + right := by
  rw [add_eq_mod left right hleft hright, ZMod.natCast_mod, Nat.cast_add]

theorem cast_difference (left right : Nat) (hright : right < modulus) :
    (difference left right : ZMod modulus) = left - right := by
  unfold difference
  split
  · next h => rw [Nat.cast_sub h]
  · rw [Nat.cast_sub (by omega), Nat.cast_add, ZMod.natCast_self, add_zero]

theorem cast_powerLoop (result square exponent : Nat) (hresult : result < modulus)
    (hsquare : square < modulus) :
    (powerLoop result square exponent : ZMod modulus) = result * square ^ exponent := by
  induction exponent using Nat.strong_induction_on generalizing result square with
  | _ exponent ih =>
    rw [powerLoop]
    split
    · next hpos =>
      have hnext : (if exponent % 2 = 1 then multiply result square else result) < modulus := by
        split
        · exact multiply_lt _ _
        · exact hresult
      rw [ih (exponent / 2) (by omega) _ _ hnext (multiply_lt _ _),
        cast_multiply _ _ hsquare hsquare]
      have hsplit := Nat.div_add_mod exponent 2
      rcases Nat.mod_two_eq_zero_or_one exponent with heven | hodd
      · have hexp : exponent = 2 * (exponent / 2) := by omega
        rw [if_neg (by omega), ← pow_two, ← pow_mul, ← hexp]
      · have hexp : exponent = 2 * (exponent / 2) + 1 := by omega
        rw [if_pos hodd, cast_multiply _ _ hresult hsquare, ← pow_two, ← pow_mul]
        conv_rhs => rw [hexp, pow_succ]
        ring
    · next hzero =>
      have hexp : exponent = 0 := by omega
      simp [hexp]

theorem cast_power (base exponent : Nat) (hbase : base < modulus) :
    (power base exponent : ZMod modulus) = base ^ exponent := by
  rw [power, cast_powerLoop 1 base exponent (by decide) hbase]
  simp

theorem cast_radix_ne_zero : (radix : ZMod modulus) ≠ 0 := by
  intro h
  have hdvd := (ZMod.natCast_eq_zero_iff radix modulus).mp h
  exact absurd (Nat.le_of_dvd (by decide) hdvd) (by decide)

theorem cast_inverseRadix_mul : (inverseRadix : ZMod modulus) * radix = 1 := by
  rw [inverseRadix, cast_power radix _ radix_lt, ← pow_succ]
  exact ZMod.pow_card_sub_one_eq_one cast_radix_ne_zero

theorem cast_inj {left right : Nat} (hleft : left < modulus) (hright : right < modulus)
    (h : (left : ZMod modulus) = right) : left = right := by
  have hmod := (ZMod.natCast_eq_natCast_iff left right modulus).mp h
  exact Nat.ModEq.eq_of_lt_of_lt hmod hleft hright

namespace SequenceHash

/-- Both words of the hash are residues. -/
structure Reduced (hash : SequenceHash) : Prop where
  value_lt : hash.value < modulus
  power_lt : hash.power < modulus

/-- The hash as a polynomial hash over the field. -/
def toPoly (hash : SequenceHash) : PolyHash (ZMod modulus) := ⟨hash.value, hash.power⟩

theorem toPoly_inj {left right : SequenceHash} (hleft : left.Reduced) (hright : right.Reduced)
    (h : left.toPoly = right.toPoly) : left = right := by
  obtain ⟨hvalue, hpower⟩ := PolyHash.ext_iff.mp h
  exact SequenceHash.ext (cast_inj hleft.value_lt hright.value_lt hvalue)
    (cast_inj hleft.power_lt hright.power_lt hpower)

theorem reduced_empty : empty.Reduced := ⟨by decide, by decide⟩

theorem reduced_ofItem (hash : UInt64) : (ofItem hash).Reduced := ⟨mix_lt hash, radix_lt⟩

theorem reduced_combine {left right : SequenceHash} (hright : right.Reduced) :
    (left.combine right).Reduced :=
  ⟨add_lt _ _ (multiply_lt _ _) hright.value_lt, multiply_lt _ _⟩

theorem toPoly_combine {left right : SequenceHash} (hleft : left.Reduced)
    (hright : right.Reduced) :
    (left.combine right).toPoly = left.toPoly * right.toPoly := by
  ext
  · simp [toPoly, combine, cast_add _ _ (multiply_lt _ _) hright.value_lt,
      cast_multiply _ _ hleft.value_lt hright.power_lt]
  · simp [toPoly, combine, cast_multiply _ _ hleft.power_lt hright.power_lt]

theorem toPoly_empty : empty.toPoly = 1 := by
  ext <;> simp [toPoly, empty]

/-- The digits of items in the field: their mixed hashes. -/
def digits (hashes : List UInt64) : List (ZMod modulus) :=
  hashes.map fun hash => (mix hash : ZMod modulus)

theorem reduced_foldl (hashes : List UInt64) {start : SequenceHash} (hstart : start.Reduced) :
    (hashes.foldl (fun hash item => hash.combine (ofItem item)) start).Reduced := by
  induction hashes generalizing start with
  | nil => exact hstart
  | cons item rest ih => exact ih (reduced_combine (reduced_ofItem item))

theorem reduced_ofItems (hashes : List UInt64) : (ofItems hashes).Reduced :=
  reduced_foldl hashes reduced_empty

theorem toPoly_foldl (hashes : List UInt64) {start : SequenceHash} (hstart : start.Reduced) :
    (hashes.foldl (fun hash item => hash.combine (ofItem item)) start).toPoly =
      start.toPoly * PolyHash.ofDigits (radix : ZMod modulus) (digits hashes) := by
  induction hashes generalizing start with
  | nil => simp [digits]
  | cons item rest ih =>
    rw [List.foldl_cons, ih (reduced_combine (reduced_ofItem item)),
      toPoly_combine hstart (reduced_ofItem item), mul_assoc]
    simp [digits, PolyHash.ofDigits, PolyHash.ofDigit, toPoly, ofItem]

theorem toPoly_ofItems (hashes : List UInt64) :
    (ofItems hashes).toPoly = PolyHash.ofDigits (radix : ZMod modulus) (digits hashes) := by
  rw [ofItems, toPoly_foldl hashes reduced_empty, toPoly_empty, one_mul]

/-- The hash of a concatenation follows from the hashes of its parts. -/
theorem ofItems_append (left right : List UInt64) :
    ofItems (left ++ right) = (ofItems left).combine (ofItems right) := by
  apply toPoly_inj (reduced_ofItems _) (reduced_combine (reduced_ofItems right))
  rw [toPoly_combine (reduced_ofItems left) (reduced_ofItems right), toPoly_ofItems,
    toPoly_ofItems, toPoly_ofItems, digits, List.map_append, PolyHash.ofDigits_append]
  rfl

/-- Folding the hashes of adjacent sequences gives the hash of their
concatenation, whatever the grouping. -/
theorem foldl_combine_ofItems (parts : List (List UInt64)) :
    parts.foldl (fun hash part => hash.combine (ofItems part)) empty = ofItems parts.flatten := by
  induction parts using List.reverseRecOn with
  | nil => rfl
  | append_singleton parts part ih =>
    rw [List.foldl_append, ih, List.foldl_cons, List.foldl_nil, ← ofItems_append]
    simp

end SequenceHash

end KRust.Term.Chunks
