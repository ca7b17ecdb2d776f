import Mathlib.Data.List.Basic
import Mathlib.Tactic.IntervalCases

/-!
Decimal digits and the numbers that they name: every number has one text without a leading
zero, and a text without one is that text.
-/

namespace KRust.Lib.Decimal

/-- The digits of a number, at least one. -/
def IsDigits (text : List Char) : Prop := text ≠ [] ∧ ∀ c ∈ text, c.isDigit = true

instance (text : List Char) : Decidable (IsDigits text) :=
  decidable_of_iff (text ≠ [] ∧ text.all Char.isDigit = true) (by rw [List.all_eq_true]; rfl)

def value (digits : List Char) : Nat := Nat.ofDigitChars 10 digits 0

/-- No digit is a zero that could be left out. -/
def Shortest (digits : List Char) : Prop := digits = ['0'] ∨ digits.head? ≠ some '0'

theorem isDigits_toDigits (n : Nat) : IsDigits (Nat.toDigits 10 n) :=
  ⟨Nat.toDigits_ne_nil, fun _ hc => Nat.isDigit_of_mem_toDigits (by decide) (by decide) hc⟩

@[simp] theorem value_toDigits (n : Nat) : value (Nat.toDigits 10 n) = n :=
  Nat.ofDigitChars_ten_toDigits

theorem isDigit_bounds {c : Char} (h : c.isDigit = true) : 48 ≤ c.toNat ∧ c.toNat ≤ 57 := by
  simp only [Char.isDigit, Bool.and_eq_true, decide_eq_true_eq] at h
  obtain ⟨hlow, hhigh⟩ := h
  exact ⟨UInt32.le_iff_toNat_le.mp hlow, UInt32.le_iff_toNat_le.mp hhigh⟩

theorem digitChar_of_isDigit {c : Char} (h : c.isDigit = true) :
    Nat.digitChar (c.toNat - '0'.toNat) = c := by
  obtain ⟨hlow, hhigh⟩ := isDigit_bounds h
  have hzero : '0'.toNat = 48 := rfl
  apply Char.toNat_inj.mp
  rw [Nat.toNat_digitChar_of_lt_ten (by omega)]
  omega

/-- The digits after those of a positive number carry the number on. -/
theorem toDigits_append {acc : Nat} (hacc : 0 < acc) {digits : List Char}
    (hdigits : ∀ c ∈ digits, c.isDigit = true) :
    Nat.toDigits 10 acc ++ digits = Nat.toDigits 10 (Nat.ofDigitChars 10 digits acc) := by
  induction digits generalizing acc with
  | nil => simp
  | cons c digits ih =>
    obtain ⟨hc, hrest⟩ := List.forall_mem_cons.mp hdigits
    obtain ⟨hlow, hhigh⟩ := isDigit_bounds hc
    have hzero : '0'.toNat = 48 := rfl
    have hlt : c.toNat - '0'.toNat < 10 := by omega
    have hstep : Nat.toDigits 10 acc ++ [c] =
        Nat.toDigits 10 (10 * acc + (c.toNat - '0'.toNat)) := by
      rw [← Nat.toDigits_append_toDigits (by decide) hacc hlt, Nat.toDigits_of_lt_base hlt,
        digitChar_of_isDigit hc]
    have hpos : 0 < 10 * acc + (c.toNat - '0'.toNat) := by omega
    rw [Nat.ofDigitChars_cons, ← ih hpos hrest, ← hstep]
    simp

theorem toDigits_value {digits : List Char} (h : IsDigits digits) (hshort : Shortest digits) :
    Nat.toDigits 10 (value digits) = digits := by
  obtain ⟨hne, hdigits⟩ := h
  cases digits with
  | nil => exact absurd rfl hne
  | cons c digits =>
    rcases hshort with hzero | hhead
    · rw [hzero]
      rfl
    · obtain ⟨hc, hrest⟩ := List.forall_mem_cons.mp hdigits
      obtain ⟨hlow, hhigh⟩ := isDigit_bounds hc
      have hzero : '0'.toNat = 48 := rfl
      have hne : c.toNat ≠ '0'.toNat := fun heq => hhead (congrArg some (Char.toNat_inj.mp heq))
      have hlt : c.toNat - '0'.toNat < 10 := by omega
      rw [value, Nat.ofDigitChars_cons, Nat.mul_zero, Nat.zero_add,
        ← toDigits_append (by omega) hrest, Nat.toDigits_of_lt_base hlt, digitChar_of_isDigit hc]
      rfl

/-- A number has no more than one text without a leading zero. -/
theorem shortest_toDigits (n : Nat) : Shortest (Nat.toDigits 10 n) := by
  rcases Nat.eq_zero_or_pos n with rfl | hpos
  · exact .inl (Nat.toDigits_zero 10)
  · right
    induction n using Nat.strongRecOn with
    | ind n ih =>
      rw [Nat.toDigits_eq_if (by decide)]
      split
      · rename_i hlt
        have hdigit : n.digitChar ≠ '0' := by
          interval_cases n <;> decide
        simpa using hdigit
      · rename_i hge
        have hdiv : 0 < n / 10 := by omega
        have hhead := ih (n / 10) (by omega) hdiv
        rw [List.head?_append]
        cases hfirst : (Nat.toDigits 10 (n / 10)).head? with
        | none => exact absurd (List.head?_eq_none_iff.mp hfirst) Nat.toDigits_ne_nil
        | some c =>
          rw [hfirst] at hhead
          exact hhead

theorem value_dropZeros (digits : List Char) :
    value (digits.dropWhile fun c => c = '0') = value digits := by
  induction digits with
  | nil => rfl
  | cons c digits ih =>
    by_cases hc : c = '0'
    · subst hc
      rw [List.dropWhile_cons_of_pos (by decide), ih, value, value, Nat.ofDigitChars_cons]
      rfl
    · rw [List.dropWhile_cons_of_neg (by simpa using hc)]

/-- Digits without a leading zero name a positive number. -/
theorem value_pos {digits : List Char} (h : IsDigits digits) (hhead : digits.head? ≠ some '0') :
    0 < value digits := by
  apply Nat.pos_of_ne_zero
  intro hzero
  have htext := toDigits_value h (.inr hhead)
  rw [hzero] at htext
  rw [← htext] at hhead
  exact hhead rfl

/-- Digits name one number when they are alike once the leading zeros are gone. -/
theorem value_eq_iff {left right : List Char} (hleft : ∀ c ∈ left, c.isDigit = true)
    (hright : ∀ c ∈ right, c.isDigit = true) :
    value left = value right ↔
      (left.dropWhile fun c => c = '0') = right.dropWhile fun c => c = '0' := by
  have hhead (digits : List Char) : (digits.dropWhile fun c => c = '0').head? ≠ some '0' := by
    intro hhead
    have := List.head?_dropWhile_not (fun c => decide (c = '0')) digits
    rw [hhead] at this
    simp at this
  have hall {digits : List Char} (h : ∀ c ∈ digits, c.isDigit = true) :
      ∀ c ∈ digits.dropWhile fun c => c = '0', c.isDigit = true :=
    fun c hc => h c ((List.dropWhile_sublist _).mem hc)
  rw [← value_dropZeros left, ← value_dropZeros right]
  constructor
  · intro heq
    by_cases hl : (left.dropWhile fun c => c = '0') = []
    · by_cases hr : (right.dropWhile fun c => c = '0') = []
      · rw [hl, hr]
      · have := value_pos ⟨hr, hall hright⟩ (hhead right)
        rw [← heq, hl] at this
        exact absurd this (by decide)
    · by_cases hr : (right.dropWhile fun c => c = '0') = []
      · have := value_pos ⟨hl, hall hleft⟩ (hhead left)
        rw [heq, hr] at this
        exact absurd this (by decide)
      · calc left.dropWhile (fun c => c = '0')
            = Nat.toDigits 10 (value (left.dropWhile fun c => c = '0')) :=
              (toDigits_value ⟨hl, hall hleft⟩ (.inr (hhead left))).symm
          _ = Nat.toDigits 10 (value (right.dropWhile fun c => c = '0')) := by rw [heq]
          _ = right.dropWhile (fun c => c = '0') :=
              toDigits_value ⟨hr, hall hright⟩ (.inr (hhead right))
  · exact fun heq => by rw [heq]

end KRust.Lib.Decimal
