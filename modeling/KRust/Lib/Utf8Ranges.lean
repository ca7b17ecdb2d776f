import KRust.Lib.Utf8
import Mathlib.Data.List.Forall2
import Mathlib.Tactic.IntervalCases

/-!
Ranges of characters in UTF-8. The last byte of an encoding holds the low six bits of the value, the
byte before it the six bits above them. So the encodings of a range are all choices of one byte from
each of the byte ranges between the encodings of its ends, where at each number of low bytes the ends
agree above them, or these are least at the first and greatest at the last.
-/

namespace KRust.Lib.Utf8

section Digits

/-- The digits of a value to the base 64, the lowest first, marked as bytes of an encoding. -/
def digits (lead : ℕ) : ℕ → ℕ → List ℕ
  | 0, value => [lead + value]
  | trailing + 1, value => (128 + value % 64) :: digits lead trailing (value / 64)

theorem length_digits (lead trailing value : ℕ) :
    (digits lead trailing value).length = trailing + 1 := by
  induction trailing generalizing value with
  | zero => rfl
  | succ trailing ih => rw [digits, List.length_cons, ih]

/-- At every number of low digits the ends agree above them, or the low digits are least at the
first and greatest at the last. -/
def Aligned (trailing first last : ℕ) : Prop :=
  ∀ low, 0 < low → low ≤ trailing → first / 64 ^ low = last / 64 ^ low ∨
    first % 64 ^ low = 0 ∧ last % 64 ^ low = 64 ^ low - 1

theorem Aligned.lowest {trailing first last : ℕ} (h : Aligned (trailing + 1) first last) :
    first / 64 = last / 64 ∨ first % 64 = 0 ∧ last % 64 = 63 := h 1 (by omega) (by omega)

theorem mod_pow_succ (value low : ℕ) :
    value % 64 ^ (low + 1) = 64 * (value / 64 % 64 ^ low) + value % 64 := by
  rw [pow_succ', Nat.mod_mul]
  omega

theorem Aligned.above {trailing first last : ℕ} (h : Aligned (trailing + 1) first last) :
    Aligned trailing (first / 64) (last / 64) := by
  intro low hpos hle
  rw [Nat.div_div_eq_div_mul, Nat.div_div_eq_div_mul, ← pow_succ']
  refine (h (low + 1) (by omega) (by omega)).imp_right ?_
  rintro ⟨hfirst, hlast⟩
  rw [mod_pow_succ] at hfirst hlast
  have hpow : 0 < 64 ^ low := Nat.pos_of_ne_zero (by positivity)
  have hpow' : 64 ^ (low + 1) = 64 * 64 ^ low := pow_succ' 64 low
  omega

/-- A byte is in each range. -/
def Within (range : ℕ × ℕ) (byte : ℕ) : Prop := range.1 ≤ byte ∧ byte ≤ range.2

/-- The digits of the values of a range are all choices of one digit from each range. -/
theorem within_digits_iff {lead trailing first last : ℕ} (hle : first ≤ last)
    (h : Aligned trailing first last) (bytes : List ℕ) :
    List.Forall₂ Within ((digits lead trailing first).zip (digits lead trailing last)) bytes ↔
      ∃ value, first ≤ value ∧ value ≤ last ∧ bytes = digits lead trailing value := by
  induction trailing generalizing first last bytes with
  | zero =>
    simp only [digits, List.zip_cons_cons, List.zip_nil_left]
    constructor
    · intro hbytes
      obtain ⟨byte, rest, hbyte, hrest, rfl⟩ := List.forall₂_cons_left_iff.mp hbytes
      obtain rfl := List.forall₂_nil_left_iff.mp hrest
      obtain ⟨hlow, hhigh⟩ : lead + first ≤ byte ∧ byte ≤ lead + last := hbyte
      exact ⟨byte - lead, by omega, by omega, by rw [Nat.add_sub_cancel' (by omega)]⟩
    · rintro ⟨value, hlow, hhigh, rfl⟩
      exact .cons ⟨Nat.add_le_add_left hlow _, Nat.add_le_add_left hhigh _⟩ .nil
  | succ trailing ih =>
    have hlowest := h.lowest
    have hrest := ih (Nat.div_le_div_right hle) h.above
    simp only [digits, List.zip_cons_cons]
    constructor
    · intro hbytes
      obtain ⟨byte, rest, hbyte, hmatch, rfl⟩ := List.forall₂_cons_left_iff.mp hbytes
      obtain ⟨above, hlow, hhigh, rfl⟩ := (hrest rest).mp hmatch
      obtain ⟨hleast, hgreatest⟩ : 128 + first % 64 ≤ byte ∧ byte ≤ 128 + last % 64 := hbyte
      have hvalue : (64 * above + (byte - 128)) / 64 = above := by omega
      have hdigit : 128 + (64 * above + (byte - 128)) % 64 = byte := by omega
      exact ⟨64 * above + (byte - 128), by omega, by omega, by rw [hvalue, hdigit]⟩
    · rintro ⟨value, hlow, hhigh, rfl⟩
      have habove : first / 64 ≤ value / 64 ∧ value / 64 ≤ last / 64 :=
        ⟨Nat.div_le_div_right hlow, Nat.div_le_div_right hhigh⟩
      have hdigit : Within (128 + first % 64, 128 + last % 64) (128 + value % 64) := by
        constructor <;> (dsimp only; omega)
      exact .cons hdigit ((hrest _).mpr ⟨value / 64, habove.1, habove.2, rfl⟩)

end Digits

section Encodings

/-- What is added to the highest digit of an encoding with so many bytes after the first. -/
def lead : ℕ → ℕ
  | 0 => 0
  | 1 => 0xC0
  | 2 => 0xE0
  | _ => 0xF0

/-- The bytes of an encoding are the digits of the value. -/
theorem encodeChar_digits {c : Char} {trailing : ℕ} (h : c.utf8Size = trailing + 1) :
    (String.utf8EncodeChar c).map UInt8.toNat = (digits (lead trailing) trailing c.toNat).reverse := by
  have hlength : (String.utf8EncodeChar c).length = trailing + 1 := by
    rw [String.length_utf8EncodeChar, h]
  have hmax : c.toNat < 0x110000 := by
    have hvalid := c.valid
    simp only [UInt32.isValidChar, Nat.isValidChar] at hvalid
    change c.val.toNat < _
    omega
  have hval : c.val.toNat = c.toNat := rfl
  unfold String.utf8EncodeChar at hlength ⊢
  dsimp only at hlength ⊢
  rw [hval] at hlength ⊢
  by_cases hone : c.toNat ≤ 0x7f
  · rw [if_pos hone] at hlength ⊢
    obtain rfl : trailing = 0 := by simpa using hlength.symm
    simp [digits, lead]
    omega
  by_cases htwo : c.toNat ≤ 0x7ff
  · rw [if_neg hone, if_pos htwo] at hlength ⊢
    obtain rfl : trailing = 1 := by simpa using hlength.symm
    simp [digits, lead]
    omega
  by_cases hthree : c.toNat ≤ 0xffff
  · rw [if_neg hone, if_neg htwo, if_pos hthree] at hlength ⊢
    obtain rfl : trailing = 2 := by simpa using hlength.symm
    simp [digits, lead]
    omega
  · rw [if_neg hone, if_neg htwo, if_neg hthree] at hlength ⊢
    obtain rfl : trailing = 3 := by simpa using hlength.symm
    simp [digits, lead]
    omega

theorem toNat_ofNat {value : ℕ} (h : value.isValidChar) : (Char.ofNat value).toNat = value := by
  rw [Char.ofNat, dif_pos h]
  rfl

theorem utf8Size_mono {c d : Char} (h : c.toNat ≤ d.toNat) : c.utf8Size ≤ d.utf8Size := by
  have hle (n : UInt32) (e : Char) : e.val ≤ n ↔ e.toNat ≤ n.toNat := UInt32.le_iff_toNat_le
  unfold Char.utf8Size
  simp only [hle]
  split_ifs <;> omega

/-- The byte strings that a sequence of byte ranges stands for. -/
def Matches (ranges : List (UInt8 × UInt8)) (bytes : List UInt8) : Prop :=
  List.Forall₂ (fun range byte => range.1 ≤ byte ∧ byte ≤ range.2) ranges bytes

theorem matches_iff_within (firsts lasts bytes : List UInt8) :
    Matches (firsts.zip lasts) bytes ↔
      List.Forall₂ Within ((firsts.map UInt8.toNat).zip (lasts.map UInt8.toNat))
        (bytes.map UInt8.toNat) := by
  rw [List.zip_map, List.forall₂_map_left_iff, List.forall₂_map_right_iff]
  rfl

/-- The ranges between the encodings of the ends of a range stand for the encodings of its
characters. -/
theorem matches_iff {first last : Char} (hle : first.toNat ≤ last.toNat)
    (hsize : first.utf8Size = last.utf8Size)
    (hvalid : ∀ value, first.toNat ≤ value → value ≤ last.toNat → value.isValidChar)
    (haligned : Aligned (first.utf8Size - 1) first.toNat last.toNat) (bytes : List UInt8) :
    Matches ((String.utf8EncodeChar first).zip (String.utf8EncodeChar last)) bytes ↔
      ∃ c : Char, first.toNat ≤ c.toNat ∧ c.toNat ≤ last.toNat ∧
        bytes = String.utf8EncodeChar c := by
  obtain ⟨trailing, htrailing⟩ := Nat.exists_eq_succ_of_ne_zero first.utf8Size_pos.ne'
  have hlast : last.utf8Size = trailing + 1 := hsize ▸ htrailing
  rw [htrailing, Nat.succ_sub_one] at haligned
  have hreverse : ((digits (lead trailing) trailing first.toNat).reverse).zip
      ((digits (lead trailing) trailing last.toNat).reverse) =
        ((digits (lead trailing) trailing first.toNat).zip
          (digits (lead trailing) trailing last.toNat)).reverse := by
    rw [List.zip_eq_zipWith, List.zip_eq_zipWith, List.reverse_zipWith]
    rw [length_digits, length_digits]
  have hbytes : ∀ c : Char, first.toNat ≤ c.toNat → c.toNat ≤ last.toNat →
      (String.utf8EncodeChar c).map UInt8.toNat =
        (digits (lead trailing) trailing c.toNat).reverse := by
    intro c hlow hhigh
    have hbelow := utf8Size_mono hlow
    have habove := utf8Size_mono hhigh
    exact encodeChar_digits (by omega)
  rw [matches_iff_within, hbytes first le_rfl hle, hbytes last hle le_rfl, hreverse,
    ← List.reverse_reverse (bytes.map UInt8.toNat), List.forall₂_reverse_iff,
    within_digits_iff hle haligned]
  constructor
  · rintro ⟨value, hlow, hhigh, hdigits⟩
    have hchar : (Char.ofNat value).toNat = value := toNat_ofNat (hvalid value hlow hhigh)
    refine ⟨Char.ofNat value, hchar.symm ▸ hlow, hchar.symm ▸ hhigh, ?_⟩
    have hmap : bytes.map UInt8.toNat = (String.utf8EncodeChar (Char.ofNat value)).map UInt8.toNat := by
      rw [hbytes _ (hchar.symm ▸ hlow) (hchar.symm ▸ hhigh), hchar, ← hdigits, List.reverse_reverse]
    exact List.map_injective_iff.mpr (fun _ _ => UInt8.toNat_inj.mp) hmap
  · rintro ⟨c, hlow, hhigh, rfl⟩
    exact ⟨c.toNat, hlow, hhigh, by rw [hbytes c hlow hhigh, List.reverse_reverse]⟩

theorem encodeChar_injective : Function.Injective String.utf8EncodeChar := by
  intro c d h
  have hread := next_encodeChar c []
  rw [h, next_encodeChar] at hread
  cases hread
  rfl

end Encodings

end KRust.Lib.Utf8
