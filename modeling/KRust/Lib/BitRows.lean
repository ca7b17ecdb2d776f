import Mathlib.Data.List.Basic

/-!
Rows of bits kept in 64-bit words, one row after the other in one list.
-/

namespace KRust.Lib.BitRows

abbrev Word := BitVec 64

/-- `row[bit / 64] >> (bit % 64) & 1 == 1` -/
def test (row : List Word) (bit : Nat) : Bool :=
  row[bit / 64]?.any fun word : Word => word >>> (bit % 64) &&& 1#64 == 1#64

/-- `bits[word] |= 1 << bit` -/
def set (bits : List Word) (word bit : Nat) : List Word :=
  bits.modify word fun bits => bits ||| 1#64 <<< bit

/-- The row at a position, where every row has the same number of words. -/
def row (bits : List Word) (words position : Nat) : List Word :=
  (bits.drop (position * words)).take words

/-- Whether two rows have a bit in common. -/
def meets (left right : List Word) : Bool :=
  (left.zip right).any fun (left, right) => left &&& right != 0#64

theorem shifted_eq_one_iff (word : Word) (bit : Nat) :
    (word >>> bit &&& 1#64 == 1#64) = word.getLsbD bit := by
  rw [BitVec.and_one_eq_setWidth_ofBool_getLsbD, BitVec.getLsbD_ushiftRight, Nat.add_zero]
  cases word.getLsbD bit <;> decide

theorem test_eq (row : List Word) (bit : Nat) :
    test row bit = row[bit / 64]?.any fun word : Word => word.getLsbD (bit % 64) := by
  simp only [test, shifted_eq_one_iff]

theorem getLsbD_set_bit (word : Word) {bit other : Nat} (hother : other < 64) :
    (word ||| 1#64 <<< bit).getLsbD other = (word.getLsbD other || decide (bit = other)) := by
  rw [BitVec.getLsbD_or, BitVec.getLsbD_shiftLeft, BitVec.getLsbD_one]
  by_cases hbit : bit = other
  · simp [hbit, hother]
  · have hne : other < bit ∨ other - bit ≠ 0 := by omega
    rcases hne with hlt | hne
    · simp [hlt, hbit]
    · simp [hne, hbit]

@[simp] theorem length_set (bits : List Word) (word bit : Nat) :
    (set bits word bit).length = bits.length := by
  rw [set, List.length_modify]

theorem row_getElem? {words position word : Nat} (bits : List Word) (hword : word < words) :
    (row bits words position)[word]? = bits[position * words + word]? := by
  rw [row, List.getElem?_take_of_lt hword, List.getElem?_drop]

/-- The words of different rows are different words. -/
theorem word_eq_iff {words position position' word word' : Nat} (hword : word < words)
    (hword' : word' < words) :
    position * words + word = position' * words + word' ↔ position = position' ∧ word = word' := by
  constructor
  · intro h
    have hdiv : ∀ p w, w < words → (p * words + w) / words = p := fun p w hw => by
      rw [Nat.mul_comm, Nat.mul_add_div (by omega), Nat.div_eq_of_lt hw, Nat.add_zero]
    have hposition : position = position' := by
      rw [← hdiv position word hword, h, hdiv position' word' hword']
    subst hposition
    exact ⟨rfl, by omega⟩
  · rintro ⟨rfl, rfl⟩
    rfl

/-- A bit of a row after one bit is set. -/
theorem test_row_set {words position position' bit bit' : Nat} {bits : List Word}
    (hbit : bit / 64 < words) (hbit' : bit' / 64 < words)
    (hlength : position * words + bit / 64 < bits.length) :
    test (row (set bits (position * words + bit / 64) (bit % 64)) words position') bit' =
      (test (row bits words position') bit' ||
        decide (position = position' ∧ bit = bit')) := by
  rw [test_eq, test_eq, row_getElem? _ hbit', row_getElem? _ hbit', set, List.getElem?_modify]
  have hmod : bit' % 64 < 64 := Nat.mod_lt _ (by decide)
  by_cases hsame : position * words + bit / 64 = position' * words + bit' / 64
  · obtain ⟨rfl, hdiv⟩ := (word_eq_iff hbit hbit').mp hsame
    have heq : bit % 64 = bit' % 64 ↔ bit = bit' := by
      constructor
      · intro h
        omega
      · rintro rfl
        rfl
    simp only [if_pos hsame]
    rw [← hsame, List.getElem?_eq_getElem hlength]
    simp [getLsbD_set_bit _ hmod, heq]
  · have hne : ¬ (position = position' ∧ bit = bit') := fun ⟨hposition, hbits⟩ =>
      hsame (by rw [hposition, hbits])
    simp [hsame, hne]

/-- The bits of a list of rows after a list of marks, each a position and a bit. -/
theorem test_row_marks {words rows : Nat} (marks : List (Nat × Nat)) {bits : List Word}
    (hlength : bits.length = rows * words)
    (hmarks : ∀ mark ∈ marks, mark.1 < rows ∧ mark.2 / 64 < words) {position bit : Nat}
    (hbit : bit / 64 < words) :
    test (row (marks.foldl (fun bits mark =>
        set bits (mark.1 * words + mark.2 / 64) (mark.2 % 64)) bits) words position) bit =
      (test (row bits words position) bit || decide ((position, bit) ∈ marks)) := by
  induction marks generalizing bits with
  | nil => simp
  | cons mark marks ih =>
    obtain ⟨⟨hrow, hword⟩, hrest⟩ := List.forall_mem_cons.mp hmarks
    have hinside : mark.1 * words + mark.2 / 64 < bits.length := by
      have hmul : (mark.1 + 1) * words ≤ rows * words := Nat.mul_le_mul_right _ hrow
      rw [hlength]
      rw [Nat.succ_mul] at hmul
      omega
    rw [List.foldl_cons, ih (by rw [length_set, hlength]) hrest, test_row_set hword hbit hinside,
      Bool.or_assoc]
    congr 1
    rw [← Bool.decide_or, decide_eq_decide, List.mem_cons, Prod.ext_iff, eq_comm (a := position),
      eq_comm (a := bit)]

theorem test_row_clear (n words position bit : Nat) :
    test (row (List.replicate n 0#64) words position) bit = false := by
  rw [test_eq]
  cases h : (row (List.replicate n 0#64) words position)[bit / 64]? with
  | none => rfl
  | some word =>
    have hmem : word ∈ List.replicate n 0#64 :=
      List.mem_of_mem_drop (List.mem_of_mem_take (List.mem_of_getElem? h))
    simp [List.eq_of_mem_replicate hmem]

theorem and_ne_zero_iff (left right : Word) :
    (left &&& right != 0#64) = true ↔
      ∃ bit < 64, left.getLsbD bit = true ∧ right.getLsbD bit = true := by
  rw [bne_iff_ne, ne_eq, ← not_iff_not, not_not]
  constructor
  · rintro h ⟨bit, _, hleft, hright⟩
    have hbit := congrArg (fun word => word.getLsbD bit) h
    simp [hleft, hright] at hbit
  · intro h
    refine BitVec.eq_of_getLsbD_eq fun bit hbit => ?_
    rw [BitVec.getLsbD_and, BitVec.getLsbD_zero, Bool.and_eq_false_iff]
    by_contra hboth
    rw [not_or, Bool.not_eq_false, Bool.not_eq_false] at hboth
    exact h ⟨bit, hbit, hboth⟩

/-- Rows meet in a bit that is set in both. -/
theorem meets_iff {left right : List Word} :
    meets left right = true ↔ ∃ bit, test left bit = true ∧ test right bit = true := by
  rw [meets, List.any_eq_true]
  constructor
  · rintro ⟨⟨l, r⟩, hmem, hmeet⟩
    obtain ⟨word, hword⟩ := List.mem_iff_getElem?.mp hmem
    obtain ⟨hl, hr⟩ := List.getElem?_zip_eq_some.mp hword
    obtain ⟨bit, hbit, hleft, hright⟩ := (and_ne_zero_iff l r).mp hmeet
    have hdiv : (word * 64 + bit) / 64 = word := by omega
    have hmod : (word * 64 + bit) % 64 = bit := by omega
    refine ⟨word * 64 + bit, ?_, ?_⟩
    · rw [test_eq, hdiv, hmod, hl]
      exact hleft
    · rw [test_eq, hdiv, hmod, hr]
      exact hright
  · rintro ⟨bit, hleft, hright⟩
    rw [test_eq, Option.any_eq_true] at hleft hright
    obtain ⟨l, hl, hlbit⟩ := hleft
    obtain ⟨r, hr, hrbit⟩ := hright
    refine ⟨(l, r), List.mem_iff_getElem?.mpr ⟨bit / 64, ?_⟩, ?_⟩
    · exact List.getElem?_zip_eq_some.mpr ⟨hl, hr⟩
    · exact (and_ne_zero_iff l r).mpr ⟨bit % 64, Nat.mod_lt _ (by decide), hlbit, hrbit⟩

end KRust.Lib.BitRows
