import Mathlib.Algebra.Ring.Nat
import Mathlib.Algebra.Order.Ring.Int
import Mathlib.Data.Int.ModEq
import Mathlib.Tactic.Ring

/-!
Byte strings as numbers, least significant byte first, read without a sign and in two's
complement. The bytes of a fixed count hold a number modulo a power of 256, and cutting a byte
string short or extending it with its sign keeps the residue.
-/

namespace KRust.Lib.TwosComplement

section Definitions

/-- The number that bytes hold, least significant first. -/
def unsigned : List UInt8 → Nat
  | [] => 0
  | byte :: bytes => byte.toNat + 256 * unsigned bytes

/-- The low bytes of a number, least significant first. -/
def lowBytes : Nat → Nat → List UInt8
  | 0, _ => []
  | count + 1, n => UInt8.ofNat n :: lowBytes count (n / 256)

/-- The top bit of the last byte is set. -/
def isNegative (bytes : List UInt8) : Bool := bytes.getLast?.any fun byte => 0x80 ≤ byte.toNat

/-- The number that bytes hold in two's complement. -/
def signed (bytes : List UInt8) : Int :=
  unsigned bytes - if isNegative bytes then 256 ^ bytes.length else 0

end Definitions

section Unsigned

@[simp] theorem unsigned_nil : unsigned [] = 0 := rfl

@[simp] theorem length_lowBytes (count n : Nat) : (lowBytes count n).length = count := by
  induction count generalizing n with
  | zero => rfl
  | succ count ih => rw [lowBytes, List.length_cons, ih]

theorem unsigned_lt (bytes : List UInt8) : unsigned bytes < 256 ^ bytes.length := by
  induction bytes with
  | nil => exact Nat.one_pos
  | cons byte bytes ih =>
    have hbyte : byte.toNat < 256 := byte.toNat_lt
    rw [unsigned, List.length_cons, pow_succ]
    omega

theorem unsigned_append (low high : List UInt8) :
    unsigned (low ++ high) = unsigned low + 256 ^ low.length * unsigned high := by
  induction low with
  | nil => simp
  | cons byte low ih =>
    rw [List.cons_append, unsigned, unsigned, ih, List.length_cons, pow_succ]
    ring

theorem lowBytes_unsigned (bytes : List UInt8) :
    lowBytes bytes.length (unsigned bytes) = bytes := by
  induction bytes with
  | nil => rfl
  | cons byte bytes ih =>
    have hbyte : byte.toNat < 256 := byte.toNat_lt
    have hdiv : (byte.toNat + 256 * unsigned bytes) / 256 = unsigned bytes := by omega
    have hlow : UInt8.ofNat (byte.toNat + 256 * unsigned bytes) = byte := by
      apply UInt8.toNat_inj.mp
      rw [UInt8.toNat_ofNat']
      omega
    rw [List.length_cons, unsigned, lowBytes, hdiv, ih, hlow]

theorem unsigned_lowBytes (count n : Nat) : unsigned (lowBytes count n) = n % 256 ^ count := by
  induction count generalizing n with
  | zero => rw [lowBytes, unsigned, pow_zero, Nat.mod_one]
  | succ count ih =>
    have hbyte : (UInt8.ofNat n).toNat = n % 256 := UInt8.toNat_ofNat'
    rw [lowBytes, unsigned, ih, hbyte, pow_succ', Nat.mod_mul]

theorem unsigned_lowBytes_of_lt {count n : Nat} (h : n < 256 ^ count) :
    unsigned (lowBytes count n) = n := by
  rw [unsigned_lowBytes, Nat.mod_eq_of_lt h]

/-- Bytes of one length hold the same number only where they are the same. -/
theorem unsigned_injective {bytes bytes' : List UInt8} (hlength : bytes.length = bytes'.length)
    (h : unsigned bytes = unsigned bytes') : bytes = bytes' := by
  rw [← lowBytes_unsigned bytes, ← lowBytes_unsigned bytes', hlength, h]

theorem unsigned_take_modEq (count : Nat) (bytes : List UInt8) (h : count ≤ bytes.length) :
    (unsigned (bytes.take count) : Int) ≡ unsigned bytes [ZMOD 256 ^ count] := by
  have hsplit := unsigned_append (bytes.take count) (bytes.drop count)
  rw [List.take_append_drop, List.length_take_of_le h] at hsplit
  rw [hsplit]
  push_cast
  exact (Int.modEq_add_fac_self (n := 256 ^ count)).symm

theorem unsigned_replicate_zero (count : Nat) : unsigned (List.replicate count 0) = 0 := by
  induction count with
  | zero => rfl
  | succ count ih => rw [List.replicate_succ, unsigned, ih]; rfl

theorem unsigned_replicate_ones (count : Nat) :
    unsigned (List.replicate count 0xff) + 1 = 256 ^ count := by
  induction count with
  | zero => rfl
  | succ count ih =>
    have hbyte : (0xff : UInt8).toNat = 255 := rfl
    rw [List.replicate_succ, unsigned, hbyte, pow_succ]
    omega

end Unsigned

section Signed

/-- The sign is that of the top half of the range. -/
theorem isNegative_iff {bytes : List UInt8} (h : bytes ≠ []) :
    isNegative bytes = true ↔ 256 ^ bytes.length ≤ 2 * unsigned bytes := by
  obtain ⟨low, byte, rfl⟩ := (List.eq_nil_or_concat bytes).resolve_left h
  have hlow := unsigned_lt low
  have hnegative : isNegative (low ++ [byte]) = decide (0x80 ≤ byte.toNat) := by
    simp [isNegative]
  rw [List.concat_eq_append, hnegative, unsigned_append, List.length_append, List.length_singleton, pow_succ, unsigned,
    unsigned_nil, mul_zero, add_zero, decide_eq_true_iff]
  constructor
  · intro hbyte
    have := Nat.mul_le_mul_left (256 ^ low.length) hbyte
    omega
  · intro hle
    by_contra hbyte
    have := Nat.mul_le_mul_left (256 ^ low.length) (Nat.le_of_lt_succ (Nat.lt_of_not_le hbyte))
    omega

theorem signed_modEq (bytes : List UInt8) :
    signed bytes ≡ unsigned bytes [ZMOD 256 ^ bytes.length] := by
  unfold signed
  split
  · exact Int.modEq_iff_dvd.mpr ⟨1, by ring⟩
  · rw [sub_zero]

theorem signed_neg_iff (bytes : List UInt8) : signed bytes < 0 ↔ isNegative bytes = true := by
  have hlt : (unsigned bytes : Int) < 256 ^ bytes.length := by exact_mod_cast unsigned_lt bytes
  unfold signed
  split
  · rename_i hnegative
    simp only [hnegative, iff_true]
    omega
  · rename_i hnegative
    exact ⟨fun hneg => by omega, fun hpos => absurd hpos hnegative⟩

/-- The range of the numbers of a count of bytes. -/
theorem signed_range {bytes : List UInt8} (h : bytes ≠ []) :
    -(256 ^ bytes.length : Int) ≤ 2 * signed bytes ∧ 2 * signed bytes < 256 ^ bytes.length := by
  have hlt : (unsigned bytes : Int) < 256 ^ bytes.length := by exact_mod_cast unsigned_lt bytes
  have hiff : isNegative bytes = true ↔ (256 ^ bytes.length : Int) ≤ 2 * unsigned bytes := by
    rw [isNegative_iff h]
    exact_mod_cast Iff.rfl
  unfold signed
  split
  · rename_i hnegative
    have := hiff.mp hnegative
    omega
  · rename_i hnegative
    have := mt hiff.mpr hnegative
    omega

/-- Bytes cut short or extended with a number's sign hold the number's residue. -/
theorem unsigned_resize {bytes : List UInt8} {v : Int} (h : signed bytes = v) (count : Nat) :
    (unsigned (bytes.take count ++
      List.replicate (count - bytes.length) (if v < 0 then 0xff else 0)) : Int) ≡
        v [ZMOD 256 ^ count] := by
  rcases Nat.le_total count bytes.length with hle | hle
  · rw [Nat.sub_eq_zero_of_le hle, List.replicate_zero, List.append_nil]
    have hdvd : (256 ^ count : Int) ∣ 256 ^ bytes.length := pow_dvd_pow 256 hle
    exact (unsigned_take_modEq count bytes hle).trans
      (h ▸ ((signed_modEq bytes).of_dvd hdvd).symm)
  · obtain ⟨more, rfl⟩ := Nat.exists_eq_add_of_le hle
    rw [List.take_of_length_le hle, Nat.add_sub_cancel_left, unsigned_append]
    have hsign := signed_neg_iff bytes
    rw [h] at hsign
    split
    · rename_i hneg
      have hv : v = unsigned bytes - 256 ^ bytes.length := by
        rw [← h, signed, if_pos (hsign.mp hneg)]
      have hones : (unsigned (List.replicate more 0xff) : Int) = 256 ^ more - 1 := by
        have := unsigned_replicate_ones more
        have hcast : (unsigned (List.replicate more 0xff) : Int) + 1 = 256 ^ more := by
          exact_mod_cast this
        omega
      have hvalue : ((unsigned bytes + 256 ^ bytes.length * unsigned (List.replicate more 0xff) :
          Nat) : Int) = v + 256 ^ (bytes.length + more) := by
        push_cast
        rw [hones, hv, pow_add]
        ring
      rw [hvalue]
      exact Int.modEq_iff_dvd.mpr ⟨-1, by ring⟩
    · rename_i hneg
      have hv : v = unsigned bytes := by
        rw [← h, signed, if_neg (mt hsign.mpr hneg), sub_zero]
      rw [unsigned_replicate_zero, mul_zero, add_zero, hv]

theorem signed_cons (byte : UInt8) {bytes : List UInt8} (h : bytes ≠ []) :
    signed (byte :: bytes) = byte.toNat + 256 * signed bytes := by
  have hnegative : isNegative (byte :: bytes) = isNegative bytes := by
    rw [isNegative, isNegative, List.getLast?_cons_of_ne_nil h]
  rw [signed, signed, hnegative, unsigned, List.length_cons]
  push_cast
  split
  · ring
  · ring

/-- The shortest bytes that hold a number in two's complement, at least one. -/
def shortest (n : Int) : List UInt8 :=
  let low := UInt8.ofNat (n % 256).toNat
  if _h : -128 ≤ n ∧ n < 128 then [low] else low :: shortest (n / 256)
termination_by n.natAbs
decreasing_by omega

theorem shortest_ne_nil (n : Int) : shortest n ≠ [] := by
  rw [shortest]
  split <;> simp

theorem signed_shortest (n : Int) : signed (shortest n) = n := by
  have hlow : ∀ n : Int, ((UInt8.ofNat (n % 256).toNat).toNat : Int) = n % 256 := by
    intro n
    rw [UInt8.toNat_ofNat']
    omega
  fun_induction shortest n with
  | case1 n low h =>
    have hlow : (low.toNat : Int) = n % 256 := hlow n
    rw [signed, isNegative, unsigned, unsigned_nil]
    simp only [List.getLast?_singleton, Option.any_some, decide_eq_true_eq, List.length_singleton]
    split <;> omega
  | case2 n low h ih =>
    have hlow : (low.toNat : Int) = n % 256 := hlow n
    rw [signed_cons _ (shortest_ne_nil _), ih]
    omega

end Signed

end KRust.Lib.TwosComplement
