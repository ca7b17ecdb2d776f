import Mathlib.Data.List.Basic
import Mathlib.Tactic.Ring

/-!
Numbers as digits in a radix of at most 36, with letters in either case from ten up. The digits
of a number are read back as it, and writing the letters in capitals changes nothing.
-/

namespace KRust.Lib.Radix

section Definitions

/-- `char::to_digit`, before the comparison with the radix. -/
def digitValue (c : Char) : Option Nat :=
  if '0'.toNat ≤ c.toNat ∧ c.toNat ≤ '9'.toNat then some (c.toNat - '0'.toNat)
  else if 'a'.toNat ≤ c.toNat ∧ c.toNat ≤ 'z'.toNat then some (c.toNat - 'a'.toNat + 10)
  else if 'A'.toNat ≤ c.toNat ∧ c.toNat ≤ 'Z'.toNat then some (c.toNat - 'A'.toNat + 10)
  else none

/-- `char::is_digit` -/
def isDigit (radix : Nat) (c : Char) : Bool := (digitValue c).any fun d => d < radix

/-- The number that digits name, the most significant first. -/
def value (radix : Nat) (digits : List Char) : Nat :=
  digits.foldl (fun n c => n * radix + (digitValue c).getD 0) 0

/-- A digit, with small letters from ten up. -/
def digitChar (d : Nat) : Char :=
  if d < 10 then Char.ofNat ('0'.toNat + d) else Char.ofNat ('a'.toNat + (d - 10))

/-- The digits of a number in a radix of at least two. -/
def digits (radix n : Nat) : List Char :=
  if _h : n < radix ∨ radix < 2 then [digitChar n]
  else digits radix (n / radix) ++ [digitChar (n % radix)]
termination_by n
decreasing_by exact Nat.div_lt_self (by omega) (by omega)

end Definitions

variable {radix : Nat}

theorem digitValue_digitChar {d : Nat} (h : d < 36) : digitValue (digitChar d) = some d := by
  have hall : ∀ d < 36, digitValue (digitChar d) = some d := by decide
  exact hall d h

theorem isDigit_digitChar {d : Nat} (hd : d < radix) (hradix : radix ≤ 36) :
    isDigit radix (digitChar d) = true := by
  rw [isDigit, digitValue_digitChar (by omega)]
  exact decide_eq_true hd

theorem value_append_singleton (text : List Char) (c : Char) :
    value radix (text ++ [c]) = value radix text * radix + (digitValue c).getD 0 := by
  rw [value, List.foldl_append]
  rfl

theorem value_digits (hradix : 2 ≤ radix) (hle : radix ≤ 36) (n : Nat) :
    value radix (digits radix n) = n := by
  fun_induction digits radix n with
  | case1 n h =>
    rw [value, List.foldl_cons, List.foldl_nil, digitValue_digitChar (by omega)]
    simp
  | case2 n h ih =>
    have hmod : n % radix < radix := Nat.mod_lt n (by omega)
    rw [value_append_singleton, ih, digitValue_digitChar (by omega), Option.getD_some,
      Nat.mul_comm, Nat.div_add_mod]

theorem digits_ne_nil (radix n : Nat) : digits radix n ≠ [] := by
  rw [digits]
  split <;> simp

theorem isDigit_digits (hradix : 2 ≤ radix) (hle : radix ≤ 36) (n : Nat) :
    ∀ c ∈ digits radix n, isDigit radix c = true := by
  fun_induction digits radix n with
  | case1 n h =>
    intro c hc
    rw [List.mem_singleton.mp hc]
    exact isDigit_digitChar (by omega) hle
  | case2 n h ih =>
    intro c hc
    rcases List.mem_append.mp hc with hc | hc
    · exact ih c hc
    · rw [List.mem_singleton.mp hc]
      exact isDigit_digitChar (Nat.mod_lt n (by omega)) hle

section Capitals

theorem toNat_toUpper (c : Char) :
    c.toUpper.toNat = if 97 ≤ c.toNat ∧ c.toNat ≤ 122 then c.toNat - 32 else c.toNat := by
  have hsmall : ('a'.val ≤ c.val ∧ c.val ≤ 'z'.val) ↔ 97 ≤ c.toNat ∧ c.toNat ≤ 122 :=
    and_congr UInt32.le_iff_toNat_le UInt32.le_iff_toNat_le
  unfold Char.toUpper
  by_cases h : 97 ≤ c.toNat ∧ c.toNat ≤ 122
  · rw [dif_pos (hsmall.mpr h), if_pos h]
    have hadd : (c.val + ('A'.val - 'a'.val)).toNat =
        (c.val.toNat + ('A'.val - 'a'.val).toNat) % 2 ^ 32 := UInt32.toNat_add _ _
    have hdiff : ('A'.val - 'a'.val).toNat = 2 ^ 32 - 32 := rfl
    have hval : c.toNat = c.val.toNat := rfl
    change (c.val + ('A'.val - 'a'.val)).toNat = _
    rw [hadd, hdiff]
    omega
  · rw [dif_neg (mt hsmall.mp h), if_neg h]

theorem digitValue_toUpper (c : Char) : digitValue c.toUpper = digitValue c := by
  have hmarks : '0'.toNat = 48 ∧ '9'.toNat = 57 ∧ 'a'.toNat = 97 ∧ 'z'.toNat = 122 ∧
      'A'.toNat = 65 ∧ 'Z'.toNat = 90 := ⟨rfl, rfl, rfl, rfl, rfl, rfl⟩
  obtain ⟨h0, h9, ha, hz, hA, hZ⟩ := hmarks
  simp only [digitValue, toNat_toUpper, h0, h9, ha, hz, hA, hZ]
  by_cases h : 97 ≤ c.toNat ∧ c.toNat ≤ 122
  · rw [if_pos h, if_neg (by omega), if_neg (by omega), if_pos (by omega), if_neg (by omega),
      if_pos h]
    simp only [Option.some.injEq]
    omega
  · rw [if_neg h]

theorem value_toUpper (text : List Char) : value radix (text.map Char.toUpper) = value radix text := by
  rw [value, List.foldl_map]
  simp only [digitValue_toUpper]
  rfl

theorem isDigit_toUpper (c : Char) : isDigit radix c.toUpper = isDigit radix c := by
  rw [isDigit, digitValue_toUpper, isDigit]

end Capitals

end KRust.Lib.Radix
