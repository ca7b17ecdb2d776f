import Mathlib.Data.Nat.Digits.Defs

/-!
Numbers in bytes of seven bits each, the lowest first: every byte but the last has the high bit,
which says that another follows.
-/

namespace KRust.Lib.Continuation

/-- The seven bits of a byte that count. -/
def chunk (b : UInt8) : Nat := (b &&& 0x7f).toNat

/-- The high bit of a byte is set. -/
def continues (b : UInt8) : Bool := b &&& 0x80 ≠ 0

/-- The sum of the chunks, each times the power of 128 at its place. -/
def value : List UInt8 → Nat
  | [] => 0
  | b :: bytes => chunk b + 128 * value bytes

/-- Bytes that say of themselves where they end. -/
inductive IsField : List UInt8 → Prop
  | last {b : UInt8} (h : continues b = false) : IsField [b]
  | more {b : UInt8} (h : continues b = true) {bytes : List UInt8} (hbytes : IsField bytes) :
    IsField (b :: bytes)

/-- The shortest bytes of a number. -/
def write (n : Nat) : List UInt8 :=
  if n / 128 = 0 then [UInt8.ofNat (n % 128)]
  else UInt8.ofNat (n % 128 + 128) :: write (n / 128)
termination_by n
decreasing_by omega

theorem chunk_eq (b : UInt8) : chunk b = b.toNat % 128 := by
  rw [chunk, UInt8.toNat_and]
  exact Nat.and_two_pow_sub_one_eq_mod b.toNat 7

theorem chunk_lt (b : UInt8) : chunk b < 128 := by
  rw [chunk_eq]
  exact Nat.mod_lt _ (by decide)

theorem highBit_all : ∀ n : Fin 256, n.val &&& 128 = n.val / 128 * 128 := by decide +kernel

theorem continues_iff (b : UInt8) : continues b = true ↔ 128 ≤ b.toNat := by
  have hbit : (b &&& 0x80).toNat = b.toNat / 128 * 128 := by
    rw [UInt8.toNat_and]
    exact highBit_all ⟨b.toNat, b.toNat_lt⟩
  have hzero : b &&& 0x80 = 0 ↔ b.toNat / 128 * 128 = 0 := by
    rw [← hbit]
    exact UInt8.toNat_inj.symm
  have hlt := b.toNat_lt
  rw [continues, decide_eq_true_eq, Ne, hzero]
  omega

theorem continues_eq_false_iff (b : UInt8) : continues b = false ↔ b.toNat < 128 := by
  rw [← Bool.not_eq_true, continues_iff, Nat.not_le]

theorem chunk_of_last {n : Nat} (h : n < 128) : chunk (UInt8.ofNat n) = n := by
  rw [chunk_eq, UInt8.toNat_ofNat']
  omega

theorem chunk_of_more {n : Nat} (h : n < 128) : chunk (UInt8.ofNat (n + 128)) = n := by
  rw [chunk_eq, UInt8.toNat_ofNat']
  omega

theorem value_eq_ofDigits (bytes : List UInt8) :
    value bytes = Nat.ofDigits 128 (bytes.map chunk) := by
  induction bytes with
  | nil => rfl
  | cons b bytes ih => rw [value, ih, List.map_cons, Nat.ofDigits_cons]

theorem value_append (xs ys : List UInt8) :
    value (xs ++ ys) = value xs + 128 ^ xs.length * value ys := by
  rw [value_eq_ofDigits, List.map_append, Nat.ofDigits_append, List.length_map,
    value_eq_ofDigits, value_eq_ofDigits]

theorem isField_write (n : Nat) : IsField (write n) := by
  fun_induction write n with
  | case1 n h =>
    apply IsField.last
    rw [continues_eq_false_iff, UInt8.toNat_ofNat']
    omega
  | case2 n h ih =>
    apply IsField.more _ ih
    rw [continues_iff, UInt8.toNat_ofNat']
    omega

theorem value_write (n : Nat) : value (write n) = n := by
  fun_induction write n with
  | case1 n h =>
    rw [value, value, chunk_of_last (by omega)]
    omega
  | case2 n h ih =>
    rw [value, ih, chunk_of_more (by omega)]
    omega

/-- A number below a power of 128 takes at most so many bytes. -/
theorem length_write_le {n count : Nat} (hcount : 0 < count) :
    (write n).length ≤ count ↔ n < 128 ^ count := by
  induction count generalizing n with
  | zero => omega
  | succ count ih =>
    rw [write]
    split
    · have : 128 ^ 1 ≤ 128 ^ (count + 1) := Nat.pow_le_pow_right (by decide) (by omega)
      simp only [List.length_singleton]
      omega
    · rename_i hlarge
      rw [List.length_cons, Nat.add_le_add_iff_right, Nat.pow_succ,
        ← Nat.div_lt_iff_lt_mul (by decide)]
      rcases Nat.eq_zero_or_pos count with rfl | hpos
      · have : (write (n / 128)).length ≠ 0 := by
          rw [write]
          split <;> simp
        simp only [Nat.pow_zero]
        omega
      · exact ih hpos

theorem IsField.ne_nil {bytes : List UInt8} (h : IsField bytes) : bytes ≠ [] := by
  cases h <;> simp

/-- Two fields that start one text are one. -/
theorem IsField.append_inj {xs ys us vs : List UInt8} (hx : IsField xs) (hy : IsField ys)
    (h : xs ++ us = ys ++ vs) : xs = ys ∧ us = vs := by
  induction hx generalizing ys with
  | @last b hb =>
    cases hy with
    | last hc =>
      obtain ⟨rfl, rfl⟩ := List.cons.inj h
      exact ⟨rfl, rfl⟩
    | more hc hbytes =>
      obtain ⟨rfl, -⟩ := List.cons.inj h
      rw [hb] at hc
      cases hc
  | @more b hb bytes _ ih =>
    cases hy with
    | last hc =>
      obtain ⟨rfl, -⟩ := List.cons.inj h
      rw [hb] at hc
      cases hc
    | more hc hbytes =>
      obtain ⟨rfl, htail⟩ := List.cons.inj h
      obtain ⟨rfl, rfl⟩ := ih hbytes htail
      exact ⟨rfl, rfl⟩

end KRust.Lib.Continuation
