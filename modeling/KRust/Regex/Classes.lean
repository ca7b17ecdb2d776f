import KRust.Regex.Ast
import KRust.Lib.Utf8Ranges

/-!
What the printers for Flex and for the Rust engine write for a class of characters. Flex reads bytes,
so a class is written as the sequences of byte ranges that its characters are encoded by.
-/

set_option linter.unusedSectionVars false

namespace KRust.Regex

open KRust.Lib

section Ranges

/-- `MAX_SCALAR` -/
def maxScalar : Nat := 0x10FFFF

/-- `SURROGATES` -/
def surrogates : Nat × Nat := (0xD800, 0xDFFF)

/-- `UTF8_LENGTHS` -/
def utf8Lengths : List (Nat × Nat) :=
  [(0, 0x7F), (0x80, 0x7FF), (0x800, 0xFFFF), (0x10000, maxScalar)]

/-- The range of a member, none where it is descending. -/
def memberRange : CharClass → Option (Nat × Nat)
  | .char c => some (c.toNat, c.toNat)
  | .range first last => if first.toNat ≤ last.toNat then some (first.toNat, last.toNat) else none

/-- The order of pairs of numbers. -/
def rangeLe (r s : Nat × Nat) : Bool := decide (r.1 < s.1) || (decide (r.1 = s.1) && decide (r.2 ≤ s.2))

/-- `u32::saturating_add` of one. -/
def saturatingSucc (n : Nat) : Nat := min (n + 1) (2 ^ 32 - 1)

def mergeStep (merged : List (Nat × Nat)) (range : Nat × Nat) : List (Nat × Nat) :=
  match merged.getLast? with
  | some last =>
    if range.1 ≤ saturatingSucc last.2 then merged.dropLast ++ [(last.1, max last.2 range.2)]
    else merged ++ [range]
  | none => merged ++ [range]

/-- `merge_scalar_ranges` -/
def mergeScalarRanges (ranges : List (Nat × Nat)) : List (Nat × Nat) :=
  (ranges.mergeSort rangeLe).foldl mergeStep []

/-- The ranges before the next value to look at, and that value. -/
def complementStep (state : List (Nat × Nat) × Nat) (range : Nat × Nat) : List (Nat × Nat) × Nat :=
  (if state.2 < range.1 then state.1 ++ [(state.2, range.1 - 1)] else state.1, range.2 + 1)

/-- `complement_scalar_ranges` -/
def complementScalarRanges (set : List (Nat × Nat)) : List (Nat × Nat) :=
  let state := set.foldl complementStep ([], 0)
  if state.2 ≤ maxScalar then state.1 ++ [(state.2, maxScalar)] else state.1

/-- `class_scalar_ranges` -/
def classScalarRanges (negated : Bool) (members : List CharClass) : List (Nat × Nat) :=
  let set := mergeScalarRanges (members.filterMap memberRange)
  if negated then complementScalarRanges set else set

end Ranges

section Sequences

/-- A range that is not empty, of scalar values whose encodings are of one length. -/
structure ScalarRange where
  first : Nat
  last : Nat
  le : first ≤ last
  valid : ∀ value, first ≤ value → value ≤ last → value.isValidChar
  sameLength : (Char.ofNat first).utf8Size = (Char.ofNat last).utf8Size

namespace ScalarRange

/-- `value & mask`, where the mask is of the low bytes. -/
def low (trailing value : Nat) : Nat := value % 64 ^ trailing

/-- `value & !mask` -/
def high (trailing value : Nat) : Nat := value - low trailing value

def mask (trailing : Nat) : Nat := 64 ^ trailing - 1

theorem sameLength_within {first last value value' : Nat} (hlast : first ≤ last)
    (hvalid : ∀ value, first ≤ value → value ≤ last → value.isValidChar)
    (hsame : (Char.ofNat first).utf8Size = (Char.ofNat last).utf8Size)
    (hle : first ≤ value) (hle' : value ≤ value') (hle'' : value' ≤ last) :
    (Char.ofNat value).utf8Size = (Char.ofNat value').utf8Size := by
  have hchar {value : Nat} (h : first ≤ value) (h' : value ≤ last) :
      (Char.ofNat value).toNat = value := Utf8.toNat_ofNat (hvalid value h h')
  have hlow : (Char.ofNat first).utf8Size ≤ (Char.ofNat value).utf8Size :=
    Utf8.utf8Size_mono (by rw [hchar le_rfl hlast, hchar hle (hle'.trans hle'')]; exact hle)
  have hmiddle : (Char.ofNat value).utf8Size ≤ (Char.ofNat value').utf8Size :=
    Utf8.utf8Size_mono (by
      rw [hchar hle (hle'.trans hle''), hchar (hle.trans hle') hle'']; exact hle')
  have hhigh : (Char.ofNat value').utf8Size ≤ (Char.ofNat last).utf8Size :=
    Utf8.utf8Size_mono (by rw [hchar (hle.trans hle') hle'', hchar hlast le_rfl]; exact hle'')
  omega

/-- The values of the range before another value. -/
def before (r : ScalarRange) (value : Nat) (h : r.first < value) (h' : value ≤ r.last) :
    ScalarRange where
  first := r.first
  last := value - 1
  le := by omega
  valid v hle hle' := r.valid v hle (by omega)
  sameLength := sameLength_within r.le r.valid r.sameLength le_rfl (by omega) (by omega)

/-- The values of the range from another value on. -/
def since (r : ScalarRange) (value : Nat) (h : r.first < value) (h' : value ≤ r.last) :
    ScalarRange where
  first := value
  last := r.last
  le := h'
  valid v hle hle' := r.valid v (by omega) hle'
  sameLength := sameLength_within r.le r.valid r.sameLength (by omega) h' le_rfl

/-- The first number of low bytes above which the ends differ, while the low bytes are not least at
the first or not greatest at the last. -/
def unaligned (r : ScalarRange) : Option Nat :=
  (List.range' 1 ((Char.ofNat r.first).utf8Size - 1)).find? fun trailing =>
    high trailing r.first ≠ high trailing r.last ∧
      (low trailing r.first ≠ 0 ∨ low trailing r.last ≠ mask trailing)

theorem unaligned_spec {r : ScalarRange} {trailing : Nat} (h : r.unaligned = some trailing) :
    high trailing r.first ≠ high trailing r.last ∧
      (low trailing r.first ≠ 0 ∨ low trailing r.last ≠ mask trailing) := by
  have hfound := List.find?_some h
  exact of_decide_eq_true hfound

theorem high_eq (trailing value : Nat) :
    high trailing value = 64 ^ trailing * (value / 64 ^ trailing) := by
  have hdiv := Nat.div_add_mod value (64 ^ trailing)
  rw [high, low]
  omega

/-- Where the ends differ above the low bytes, the first with its low bytes filled is below the last
with its low bytes cleared. -/
theorem filled_lt_cleared {r : ScalarRange} {trailing : Nat}
    (h : high trailing r.first ≠ high trailing r.last) :
    r.first - low trailing r.first + mask trailing < high trailing r.last := by
  have hpos : 0 < 64 ^ trailing := Nat.pow_pos (by decide)
  have hle : r.first / 64 ^ trailing ≤ r.last / 64 ^ trailing := Nat.div_le_div_right r.le
  rw [high_eq, high_eq] at h
  have hlt : r.first / 64 ^ trailing + 1 ≤ r.last / 64 ^ trailing :=
    Nat.lt_of_le_of_ne hle fun heq => h (by rw [heq])
  have hmul := Nat.mul_le_mul_left (64 ^ trailing) hlt
  rw [Nat.mul_add, Nat.mul_one] at hmul
  have hfirst := high_eq trailing r.first
  rw [high] at hfirst
  rw [high_eq, hfirst, mask]
  omega

theorem first_le_filled (trailing value : Nat) :
    value ≤ value - low trailing value + mask trailing := by
  have hpos : 0 < 64 ^ trailing := Nat.pow_pos (by decide)
  have hlow : low trailing value < 64 ^ trailing := Nat.mod_lt _ hpos
  rw [mask]
  omega

theorem high_le (trailing value : Nat) : high trailing value ≤ value := Nat.sub_le _ _

/-- The byte ranges between the encodings of the ends. -/
def byteRanges (r : ScalarRange) : List (UInt8 × UInt8) :=
  (String.utf8EncodeChar (Char.ofNat r.first)).zip (String.utf8EncodeChar (Char.ofNat r.last))

end ScalarRange

open ScalarRange in
/-- `utf8_sequences_of_one_length` -/
def utf8SequencesOfOneLength (r : ScalarRange) : List (List (UInt8 × UInt8)) :=
  match h : r.unaligned with
  | none => [r.byteRanges]
  | some trailing =>
    have hcut := filled_lt_cleared (unaligned_spec h).1
    have hfirst := first_le_filled trailing r.first
    have hlast := high_le trailing r.last
    if low trailing r.first ≠ 0 then
      -- `start | mask` and its successor
      let filled := r.first - low trailing r.first + mask trailing
      utf8SequencesOfOneLength (r.before (filled + 1) (by omega) (by omega)) ++
        utf8SequencesOfOneLength (r.since (filled + 1) (by omega) (by omega))
    else
      utf8SequencesOfOneLength (r.before (high trailing r.last) (by omega) (by omega)) ++
        utf8SequencesOfOneLength (r.since (high trailing r.last) (by omega) (by omega))
termination_by r.last - r.first
decreasing_by
  all_goals
    simp only [before, since]
    omega

theorem isValidChar_of_bounds {bounds : Nat × Nat} (hbounds : bounds ∈ utf8Lengths) {value : Nat}
    (hhigh : value ≤ bounds.2) (h : value < surrogates.1 ∨ surrogates.2 < value) :
    value.isValidChar := by
  have hall : ∀ bounds ∈ utf8Lengths, bounds.2 ≤ maxScalar := by decide
  have hmax := hall bounds hbounds
  simp only [surrogates, maxScalar] at h hmax
  rcases h with h | h
  · exact .inl h
  · exact .inr ⟨h, by omega⟩

theorem utf8Size_of_bounds {bounds : Nat × Nat} (hbounds : bounds ∈ utf8Lengths) {c d : Char}
    (hc : bounds.1 ≤ c.toNat ∧ c.toNat ≤ bounds.2) (hd : bounds.1 ≤ d.toNat ∧ d.toNat ≤ bounds.2) :
    c.utf8Size = d.utf8Size := by
  have hle (n : UInt32) (e : Char) : e.val ≤ n ↔ e.toNat ≤ n.toNat := UInt32.le_iff_toNat_le
  simp only [utf8Lengths, maxScalar, List.mem_cons, List.not_mem_nil, or_false] at hbounds
  unfold Char.utf8Size
  simp only [hle]
  rcases hbounds with rfl | rfl | rfl | rfl <;> split_ifs <;> simp_all <;> omega

/-- The values of one encoded length in a range that holds no surrogate. -/
def scalarRange {bounds : Nat × Nat} (hbounds : bounds ∈ utf8Lengths) (first last : Nat)
    (hle : first ≤ last) (hlow : bounds.1 ≤ first) (hhigh : last ≤ bounds.2)
    (h : last < surrogates.1 ∨ surrogates.2 < first) : ScalarRange where
  first := first
  last := last
  le := hle
  valid value hle hle' := isValidChar_of_bounds hbounds (hle'.trans hhigh)
    (h.imp hle'.trans_lt fun h => h.trans_le hle)
  sameLength := by
    have hvalid : ∀ value, first ≤ value → value ≤ last → (Char.ofNat value).toNat = value :=
      fun value hle hle' => Utf8.toNat_ofNat (isValidChar_of_bounds hbounds (hle'.trans hhigh)
        (h.imp hle'.trans_lt fun h => h.trans_le hle))
    refine utf8Size_of_bounds hbounds ?_ ?_
    · rw [hvalid first le_rfl hle]
      exact ⟨hlow, hle.trans hhigh⟩
    · rw [hvalid last hle le_rfl]
      exact ⟨hlow.trans hle, hhigh⟩

/-- The part of a range of one encoded length that is below the surrogates. -/
def sequencesBelow (first last : Nat) {bounds : Nat × Nat} (hbounds : bounds ∈ utf8Lengths) :
    List (List (UInt8 × UInt8)) :=
  if h : max first bounds.1 ≤ min (min last bounds.2) (surrogates.1 - 1) then
    utf8SequencesOfOneLength <| scalarRange hbounds (max first bounds.1)
      (min (min last bounds.2) (surrogates.1 - 1)) h (le_max_right _ _)
      ((min_le_left _ _).trans (min_le_right _ _))
      (.inl ((min_le_right _ _).trans_lt (by decide)))
  else []

/-- The part of a range of one encoded length that is above the surrogates. -/
def sequencesAbove (first last : Nat) {bounds : Nat × Nat} (hbounds : bounds ∈ utf8Lengths) :
    List (List (UInt8 × UInt8)) :=
  if h : max (max first bounds.1) (surrogates.2 + 1) ≤ min last bounds.2 then
    utf8SequencesOfOneLength <| scalarRange hbounds (max (max first bounds.1) (surrogates.2 + 1))
      (min last bounds.2) h ((le_max_right _ _).trans (le_max_left _ _)) (min_le_right _ _)
      (.inr (Nat.lt_succ_self _ |>.trans_le (le_max_right _ _)))
  else []

/-- `utf8_sequences` -/
def utf8Sequences (first last : Nat) : List (List (UInt8 × UInt8)) :=
  utf8Lengths.attach.flatMap fun bounds =>
    sequencesBelow first last bounds.2 ++ sequencesAbove first last bounds.2

/-- The ranges of the one-byte characters of a set, and the sequences of the others. -/
def asciiRanges (set : List (Nat × Nat)) : List (UInt8 × UInt8) :=
  (set.filter fun range => range.1 ≤ 0x7F).map fun range =>
    (UInt8.ofNat range.1, UInt8.ofNat (min range.2 0x7F))

def longSequences (set : List (Nat × Nat)) : List (List (UInt8 × UInt8)) :=
  set.flatMap fun range =>
    if max range.1 0x80 ≤ range.2 then utf8Sequences (max range.1 0x80) range.2 else []

end Sequences

end KRust.Regex
