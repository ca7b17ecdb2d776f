import KRust.Kore.BinaryLength

/-!
A length read from binary KORE is the number its bytes stand for, unless the width of the platform
loses bits of the last; and what the encoder writes is read back, unless it takes more bytes than
the decoder reads.
-/

set_option linter.unusedSectionVars false

namespace KRust.Kore

open KRust.Lib Continuation

namespace Decoder

/-- What is left to read of the payload. -/
def ahead (d : Decoder) : List UInt8 := (d.input.take d.stop).drop d.cursor

def advance (d : Decoder) (count : Nat) : Decoder := { d with cursor := d.cursor + count }

@[simp]
theorem ahead_advance (d : Decoder) (count : Nat) :
    (d.advance count).ahead = d.ahead.drop count := by
  simp [ahead, advance, List.drop_drop]

@[simp]
theorem advance_advance (d : Decoder) (first second : Nat) :
    (d.advance first).advance second = d.advance (first + second) := by
  simp [advance, Nat.add_assoc]

theorem byte_of_ahead {d : Decoder} {b : UInt8} {rest : List UInt8} (h : d.ahead = b :: rest) :
    d.byte = .ok (b, d.advance 1) := by
  have hget : (d.input.take d.stop)[d.cursor]? = some b := by
    rw [← Nat.add_zero d.cursor, ← List.getElem?_drop, ← ahead, h]
    rfl
  rw [List.getElem?_take] at hget
  split at hget
  · rename_i hlt
    rw [byte, hget]
    simp [Nat.not_le.mpr hlt, advance]
  · cases hget

theorem byte_of_end {d : Decoder} (h : d.ahead = []) : ∃ e, d.byte = .error e := by
  have hget : (d.input.take d.stop)[d.cursor]? = none := by
    rw [← Nat.add_zero d.cursor, ← List.getElem?_drop, ← ahead, h]
    rfl
  rw [List.getElem?_take] at hget
  rw [byte]
  split at hget
  · rw [hget]
    exact ⟨_, rfl⟩
  · rename_i hle
    cases d.input[d.cursor]? with
    | none => exact ⟨_, rfl⟩
    | some b =>
      simp only [Nat.le_of_not_lt hle, if_true]
      exact ⟨_, rfl⟩

/-- The sum a platform of the width adds up: each chunk at its place, less the bits shifted out. -/
def shiftedValue (width : Nat) : Nat → List UInt8 → Nat
  | _, [] => 0
  | step, b :: bytes => chunk b * 2 ^ (7 * step) % 2 ^ width + shiftedValue width (step + 1) bytes

theorem shiftedValue_append (width step : Nat) (xs ys : List UInt8) :
    shiftedValue width step (xs ++ ys) =
      shiftedValue width step xs + shiftedValue width (step + xs.length) ys := by
  induction xs generalizing step with
  | nil => simp [shiftedValue]
  | cons x xs ih =>
    have hplace : step + 1 + xs.length = step + (xs.length + 1) := by omega
    rw [List.cons_append, shiftedValue, ih, hplace, shiftedValue, List.length_cons, Nat.add_assoc]

/-- Nothing is lost of the chunks that the width holds. -/
theorem shiftedValue_eq {width step : Nat} {bytes : List UInt8}
    (h : 7 * (step + bytes.length) ≤ width) :
    shiftedValue width step bytes = 2 ^ (7 * step) * value bytes := by
  induction bytes generalizing step with
  | nil => simp [shiftedValue, value]
  | cons b bytes ih =>
    rw [List.length_cons] at h
    have hfits : chunk b * 2 ^ (7 * step) < 2 ^ width := by
      calc chunk b * 2 ^ (7 * step) < 128 * 2 ^ (7 * step) :=
            Nat.mul_lt_mul_of_pos_right (chunk_lt b) (Nat.two_pow_pos _)
        _ = 2 ^ (7 * (step + 1)) := by rw [Nat.mul_add, Nat.pow_add, Nat.mul_comm]
        _ ≤ 2 ^ width := Nat.pow_le_pow_right (by decide) (by omega)
    have hstep : 2 ^ (7 * (step + 1)) = 2 ^ (7 * step) * 128 := by
      rw [Nat.mul_add, Nat.pow_add]
    rw [shiftedValue, Nat.mod_eq_of_lt hfits, ih (by omega), hstep, value, Nat.mul_add,
      Nat.mul_assoc, Nat.mul_comm (chunk b)]

/-- A chunk less the bits shifted out adds up with what lies below it. -/
theorem add_shifted_lt {width step below : Nat} (b : UInt8) (hbelow : below < 2 ^ (7 * step))
    (hstep : 7 * step < width) : below + chunk b * 2 ^ (7 * step) % 2 ^ width < 2 ^ width := by
  have hsplit : 2 ^ width = 2 ^ (7 * step) * 2 ^ (width - 7 * step) := by
    rw [← Nat.pow_add]
    congr 1
    omega
  have hmod : chunk b * 2 ^ (7 * step) % 2 ^ width =
      2 ^ (7 * step) * (chunk b % 2 ^ (width - 7 * step)) := by
    rw [hsplit, Nat.mul_comm, Nat.mul_mod_mul_left]
  have hlt := Nat.mod_lt (chunk b) (Nat.two_pow_pos (width - 7 * step))
  calc below + chunk b * 2 ^ (7 * step) % 2 ^ width
      < 2 ^ (7 * step) + 2 ^ (7 * step) * (chunk b % 2 ^ (width - 7 * step)) := by omega
    _ = 2 ^ (7 * step) * (chunk b % 2 ^ (width - 7 * step) + 1) := by
        rw [Nat.mul_add, Nat.mul_one, Nat.add_comm]
    _ ≤ 2 ^ (7 * step) * 2 ^ (width - 7 * step) := Nat.mul_le_mul_left _ hlt
    _ = 2 ^ width := hsplit.symm

/-- The turns of the loop whose shift is below the width. -/
def usableTurns (width : Nat) : Nat := min 9 ((width + 6) / 7)

theorem lt_usableTurns_iff {width step : Nat} :
    step < usableTurns width ↔ step < 9 ∧ 7 * step < width := by
  unfold usableTurns
  omega

/-- The loop reads one field, of at most the turns that are left, and adds up its chunks. -/
theorem lengthLoop_ok_iff {width start turns step value : Nat} {d d' : Decoder} {result : Nat}
    (hturns : turns + step = 9) (hvalue : value < 2 ^ (7 * step)) :
    lengthLoop width start turns step value d = .ok (result, d') ↔
      ∃ read rest, d.ahead = read ++ rest ∧ IsField read ∧
        step + read.length ≤ usableTurns width ∧
        result = value + shiftedValue width step read ∧ d' = d.advance read.length := by
  induction turns generalizing step value d with
  | zero =>
    rw [lengthLoop]
    refine ⟨fun h => (by cases h), ?_⟩
    rintro ⟨read, rest, -, hfield, hlength, -⟩
    have hpos := List.length_pos_iff.mpr hfield.ne_nil
    have := lt_usableTurns_iff.mp (show step < usableTurns width by omega)
    omega
  | succ turns ih =>
    rw [lengthLoop]
    rcases hahead : d.ahead with _ | ⟨b, rest⟩
    · obtain ⟨e, he⟩ := byte_of_end hahead
      rw [he]
      refine ⟨fun h => (by cases h), ?_⟩
      rintro ⟨read, rest, hread, hfield, -⟩
      exact absurd (List.append_eq_nil_iff.mp hread.symm).1 hfield.ne_nil
    rw [byte_of_ahead hahead]
    simp only []
    by_cases hshift : 7 * step < width
    · -- The bits of the chunk are above those of the value.
      have hsum := add_shifted_lt b hvalue hshift
      have husable : step < usableTurns width := lt_usableTurns_iff.mpr ⟨by omega, hshift⟩
      rw [checkedShl, if_pos hshift, Nat.shiftLeft_eq, ← chunk]
      simp only []
      rw [checkedAdd, if_pos hsum]
      simp only []
      by_cases hlast : b &&& 0x80 = 0
      · rw [if_pos hlast]
        have hcontinues : continues b = false := by simp [continues, hlast]
        constructor
        · intro h
          cases h
          exact ⟨[b], rest, rfl, .last hcontinues, husable,
            by simp [shiftedValue], rfl⟩
        · rintro ⟨read, rest', hread, hfield, -, rfl, rfl⟩
          have happend : [b] ++ rest = read ++ rest' := by simpa using hread
          obtain ⟨rfl, -⟩ := (IsField.last hcontinues).append_inj hfield happend
          simp [shiftedValue]
      · rw [if_neg hlast]
        have hcontinues : continues b = true := by simp [continues, hlast]
        have hnext : value + chunk b * 2 ^ (7 * step) % 2 ^ width < 2 ^ (7 * (step + 1)) := by
          have hle := Nat.mod_le (chunk b * 2 ^ (7 * step)) (2 ^ width)
          have hchunk := Nat.mul_le_mul_right (2 ^ (7 * step)) (Nat.le_of_lt_succ (chunk_lt b))
          have hpow : 2 ^ (7 * (step + 1)) = 2 ^ (7 * step) * 128 := by
            rw [Nat.mul_add, Nat.pow_add]
          omega
        have hrest : (d.advance 1).ahead = rest := by simp [hahead]
        rw [ih (by omega) hnext, hrest]
        constructor
        · rintro ⟨read, rest', rfl, hfield, hlength, rfl, rfl⟩
          refine ⟨b :: read, rest', rfl, .more hcontinues hfield, ?_, ?_, ?_⟩
          · rw [List.length_cons]
            omega
          · rw [shiftedValue, Nat.add_assoc]
          · rw [advance_advance, List.length_cons, Nat.add_comm]
        · rintro ⟨read, rest', hread, hfield, hlength, rfl, rfl⟩
          cases hfield with
          | last h =>
            obtain ⟨rfl, -⟩ := List.cons.inj hread
            rw [hcontinues] at h
            cases h
          | @more c _ read hfield =>
            obtain ⟨rfl, rfl⟩ := List.cons.inj hread
            refine ⟨read, rest', rfl, hfield, ?_, ?_, ?_⟩
            · rw [List.length_cons] at hlength
              omega
            · rw [shiftedValue, Nat.add_assoc]
            · rw [advance_advance, List.length_cons, Nat.add_comm]
    · rw [checkedShl, if_neg hshift]
      refine ⟨fun h => (by cases h), ?_⟩
      rintro ⟨read, rest', -, hfield, hlength, -⟩
      have hpos := List.length_pos_iff.mpr hfield.ne_nil
      exact absurd (lt_usableTurns_iff.mp (show step < usableTurns width by omega)).2 hshift

theorem length_ok_iff {width fixedWidth result : Nat} {d d' : Decoder}
    (hversion : d.version.usesFixedLengths = false) :
    d.length width fixedWidth = .ok (result, d') ↔
      ∃ read rest, d.ahead = read ++ rest ∧ IsField read ∧ read.length ≤ usableTurns width ∧
        result = shiftedValue width 0 read ∧ d' = d.advance read.length := by
  rw [length, hversion]
  simp only [Bool.false_eq_true, if_false]
  rw [lengthLoop_ok_iff (by rfl) (by decide)]
  simp

/-- The length read, if one is, is the number that the bytes read stand for. -/
def ReadsExactly (width fixedWidth : Nat) (d : Decoder) : Prop :=
  ∀ result d', d.length width fixedWidth = .ok (result, d') →
    ∃ read rest, d.ahead = read ++ rest ∧ IsField read ∧ d' = d.advance read.length ∧
      result = value read

/-- The fifth byte ends the field and has one of the three bits that lie above the lowest 32. -/
def losesBits : List UInt8 → Bool
  | a :: b :: c :: d :: last :: _ =>
    continues a && continues b && continues c && continues d &&
      16 ≤ last.toNat && last.toNat < 128
  | _ => false

theorem losesBits_iff {bytes : List UInt8} : losesBits bytes = true ↔
    ∃ first last rest, bytes = first ++ [last] ++ rest ∧ first.length = 4 ∧
      IsField (first ++ [last]) ∧ 16 ≤ chunk last := by
  constructor
  · intro h
    unfold losesBits at h
    split at h
    · rename_i a b c d last rest
      simp only [Bool.and_eq_true, decide_eq_true_eq] at h
      obtain ⟨⟨⟨⟨⟨ha, hb⟩, hc⟩, hd⟩, hlarge⟩, hlast⟩ := h
      have hfield : IsField [last] := .last ((continues_eq_false_iff last).mpr hlast)
      refine ⟨[a, b, c, d], last, rest, rfl, rfl, ?_, ?_⟩
      · exact .more ha (.more hb (.more hc (.more hd hfield)))
      · rwa [chunk_eq, Nat.mod_eq_of_lt hlast]
    · cases h
  · rintro ⟨first, last, rest, rfl, hlength, hfield, hlarge⟩
    obtain ⟨a, b, c, d, rfl⟩ : ∃ a b c d, first = [a, b, c, d] := by
      match first, hlength with
      | [a, b, c, d], _ => exact ⟨a, b, c, d, rfl⟩
    cases hfield with
    | more ha hfield =>
      cases hfield with
      | more hb hfield =>
        cases hfield with
        | more hc hfield =>
          cases hfield with
          | more hd hfield =>
            cases hfield with
            | last hlast =>
              have hlt := (continues_eq_false_iff last).mp hlast
              rw [chunk_eq, Nat.mod_eq_of_lt hlt] at hlarge
              simp [losesBits, ha, hb, hc, hd, hlarge, hlt]
            | more _ hnil => exact absurd rfl hnil.ne_nil

theorem value_five {first : List UInt8} (hlength : first.length = 4) (last : UInt8) :
    value (first ++ [last]) = value first + chunk last * 2 ^ 28 := by
  rw [value_append, hlength, value, value]
  omega

theorem shiftedValue_five {first : List UInt8} (hlength : first.length = 4) (last : UInt8) :
    shiftedValue 32 0 (first ++ [last]) = value first + chunk last * 2 ^ 28 % 2 ^ 32 := by
  have hfirst : shiftedValue 32 0 first = 2 ^ (7 * 0) * value first :=
    shiftedValue_eq (by rw [hlength]; decide)
  rw [shiftedValue_append, hfirst, hlength, shiftedValue, shiftedValue]
  simp

/-- Of the fields that are read, a platform of 32 bits loses bits of those with a fifth byte from
16 on, and one of 64 bits of none. -/
theorem shiftedValue_eq_value_iff {width : Nat} (hwidth : width = 32 ∨ width = 64)
    {read : List UInt8} (hfield : IsField read) (hlength : read.length ≤ usableTurns width)
    (rest : List UInt8) :
    shiftedValue width 0 read = value read ↔ ¬ (width = 32 ∧ losesBits (read ++ rest) = true) := by
  have hfits : 7 * read.length ≤ width → shiftedValue width 0 read = value read := by
    intro h
    rw [shiftedValue_eq (by rwa [Nat.zero_add])]
    simp
  rcases hwidth with rfl | rfl
  · rw [show usableTurns 32 = 5 from rfl] at hlength
    rcases Nat.lt_or_ge read.length 5 with hshort | hlong
    · refine ⟨fun _ => ?_, fun _ => hfits (by omega)⟩
      rintro ⟨-, hloses⟩
      obtain ⟨first, last, rest', heq, hfirst, hfive, -⟩ := losesBits_iff.mp hloses
      obtain ⟨rfl, -⟩ := hfield.append_inj hfive heq
      rw [List.length_append, hfirst, List.length_singleton] at hshort
      omega
    · obtain ⟨first, last, rfl⟩ : ∃ first last, read = first ++ [last] := by
        obtain ⟨first, last, h⟩ := (List.eq_nil_or_concat read).resolve_left hfield.ne_nil
        rw [List.concat_eq_append] at h
        exact ⟨first, last, h⟩
      have hfirst : first.length = 4 := by
        rw [List.length_append, List.length_singleton] at hlength hlong
        omega
      have hloses : losesBits (first ++ [last] ++ rest) = true ↔ 16 ≤ chunk last := by
        rw [losesBits_iff]
        constructor
        · rintro ⟨first', last', rest', heq, -, hfive, hlarge⟩
          obtain ⟨heq, -⟩ := hfield.append_inj hfive heq
          obtain ⟨-, hlast⟩ := List.append_inj' heq rfl
          rwa [List.singleton_inj.mp hlast]
        · exact fun h => ⟨first, last, rest, rfl, hfirst, hfield, h⟩
      rw [shiftedValue_five hfirst, value_five hfirst, hloses]
      have hlt := chunk_lt last
      omega
  · rw [show usableTurns 64 = 9 from rfl] at hlength
    simp [hfits (by omega)]

theorem readsExactly_iff {width : Nat} (hwidth : width = 32 ∨ width = 64) (fixedWidth : Nat)
    {d : Decoder} (hversion : d.version.usesFixedLengths = false) :
    ReadsExactly width fixedWidth d ↔ ¬ (width = 32 ∧ losesBits d.ahead = true) := by
  constructor
  · rintro hexact ⟨rfl, hloses⟩
    obtain ⟨first, last, rest, hahead, hfirst, hfield, -⟩ := losesBits_iff.mp hloses
    have hlength : (first ++ [last]).length ≤ usableTurns 32 := by
      rw [List.length_append, hfirst, List.length_singleton]
      decide
    obtain ⟨read, rest', hread, hfield', -, heq⟩ := hexact _ _
      ((length_ok_iff hversion).mpr ⟨_, _, hahead, hfield, hlength, rfl, rfl⟩)
    obtain ⟨rfl, rfl⟩ := hfield.append_inj hfield' (hahead.symm.trans hread)
    have hno := (shiftedValue_eq_value_iff (.inl rfl) hfield hlength rest).mp heq
    rw [← hahead] at hno
    exact hno ⟨rfl, hloses⟩
  · intro hkept result d' hok
    obtain ⟨read, rest, hahead, hfield, hlength, rfl, rfl⟩ := (length_ok_iff hversion).mp hok
    rw [hahead] at hkept
    exact ⟨read, rest, hahead, hfield, rfl,
      (shiftedValue_eq_value_iff hwidth hfield hlength rest).mpr hkept⟩

end Decoder

namespace Encoder

theorem or_highBit_all : ∀ n : Fin 128, UInt8.ofNat n.val ||| 0x80 = UInt8.ofNat (n.val + 128) := by
  decide +kernel

theorem lengthBytes_eq (n : Nat) : lengthBytes n = write n := by
  have hlow : ∀ n : Nat, n &&& 0x7f = n % 128 := fun n => Nat.and_two_pow_sub_one_eq_mod n 7
  have hshift : ∀ n : Nat, n >>> 7 = n / 128 := fun n => Nat.shiftRight_eq_div_pow n 7
  induction n using Nat.strong_induction_on with
  | h n ih =>
    rw [lengthBytes, write]
    simp only [hlow, hshift]
    split
    · rfl
    · rw [or_highBit_all ⟨n % 128, Nat.mod_lt _ (by decide)⟩, ih (n / 128) (by omega)]

end Encoder

/-- The bytes the encoder writes are read back up to nine of them. -/
theorem length_lengthBytes_iff {width : Nat} (hwidth : width = 32 ∨ width = 64) {n : Nat}
    (hn : n < 2 ^ width) (fixedWidth : Nat) {d : Decoder} {rest : List UInt8}
    (hversion : d.version.usesFixedLengths = false)
    (hahead : d.ahead = Encoder.lengthBytes n ++ rest) :
    d.length width fixedWidth = .ok (n, d.advance (Encoder.lengthBytes n).length) ↔
      (width = 64 → n < 2 ^ 63) := by
  rw [Encoder.lengthBytes_eq] at hahead ⊢
  have hturns : (write n).length ≤ Decoder.usableTurns width ↔ (width = 64 → n < 2 ^ 63) := by
    rcases hwidth with rfl | rfl
    · rw [show Decoder.usableTurns 32 = 5 from rfl, length_write_le (by decide)]
      omega
    · rw [show Decoder.usableTurns 64 = 9 from rfl, length_write_le (by decide)]
      omega
  rw [Decoder.length_ok_iff hversion, ← hturns]
  constructor
  · rintro ⟨read, rest', hread, hfield, hlength, -, -⟩
    obtain ⟨heq, -⟩ := (isField_write n).append_inj hfield (hahead.symm.trans hread)
    rwa [heq]
  · intro hlength
    have hkept : ¬ (width = 32 ∧ Decoder.losesBits (write n ++ rest) = true) := by
      rintro ⟨rfl, hloses⟩
      obtain ⟨first, last, rest', heq, hfirst, hfield, hlarge⟩ := Decoder.losesBits_iff.mp hloses
      obtain ⟨heq, -⟩ := (isField_write n).append_inj hfield heq
      have hvalue := value_write n
      rw [heq, Decoder.value_five hfirst] at hvalue
      omega
    have hexact := (Decoder.shiftedValue_eq_value_iff hwidth (isField_write n) hlength rest).mpr hkept
    exact ⟨write n, rest, hahead, isField_write n, hlength, (hexact.trans (value_write n)).symm, rfl⟩

section FixedWidth

variable {width : Nat}

theorem fixedLength_fixedBytes (hwidth : 8 < width) (cursor n : Nat) {count value : Nat}
    (hfits : (value + 1) * 2 ^ (8 * count) ≤ 2 ^ width) :
    Decoder.fixedLength width cursor (Encoder.fixedBytes n count) value =
      .ok (value * 2 ^ (8 * count) + n % 2 ^ (8 * count)) := by
  induction count generalizing value with
  | zero => simp [Encoder.fixedBytes, Decoder.fixedLength, Nat.mod_one]
  | succ count ih =>
    have hpow : 2 ^ (8 * (count + 1)) = 2 ^ (8 * count) * 256 := by rw [Nat.mul_add, Nat.pow_add]
    have hbyte : (UInt8.ofNat ((n >>> (count * 8)) &&& 0xff)).toNat =
        n / 2 ^ (8 * count) % 256 := by
      have hlow : (n >>> (count * 8)) &&& 0xff = n >>> (count * 8) % 256 :=
        Nat.and_two_pow_sub_one_eq_mod _ 8
      rw [UInt8.toNat_ofNat', hlow, Nat.shiftRight_eq_div_pow, Nat.mul_comm count, Nat.mod_mod]
    have hlt : n / 2 ^ (8 * count) % 256 < 256 := Nat.mod_lt _ (by decide)
    have hpos : 0 < 2 ^ (8 * count) := Nat.two_pow_pos _
    -- The bytes read so far leave room for those to come.
    have hbound : (value * 256 + 256) * 2 ^ (8 * count) ≤ 2 ^ width := by
      have hregroup : (value * 256 + 256) * 2 ^ (8 * count) =
          (value + 1) * 2 ^ (8 * (count + 1)) := by
        have hnext : value * 256 + 256 = (value + 1) * 256 := by omega
        rw [hpow, Nat.mul_comm (2 ^ (8 * count)) 256, ← Nat.mul_assoc, hnext]
      rwa [hregroup]
    have hroom : (value * 256 + n / 2 ^ (8 * count) % 256 + 1) * 2 ^ (8 * count) ≤ 2 ^ width :=
      Nat.le_trans (Nat.mul_le_mul_right _ (by omega)) hbound
    have hsum : value * 256 + n / 2 ^ (8 * count) % 256 < 2 ^ width :=
      Nat.lt_of_lt_of_le (Nat.lt_succ_self _)
        (Nat.le_trans (Nat.le_mul_of_pos_right _ hpos) hroom)
    have hshifted : (value <<< 8) % 2 ^ width = value * 256 := by
      rw [Nat.shiftLeft_eq]
      exact Nat.mod_eq_of_lt (Nat.lt_of_le_of_lt (Nat.le_add_right _ _) hsum)
    have hdigits : n % (2 ^ (8 * count) * 256) =
        n % 2 ^ (8 * count) + 2 ^ (8 * count) * (n / 2 ^ (8 * count) % 256) := Nat.mod_mul
    rw [Encoder.fixedBytes, Decoder.fixedLength, checkedShl, if_pos hwidth, hshifted,
      Option.bind_some, checkedAdd, hbyte, if_pos hsum]
    simp only []
    rw [ih hroom, hpow, hdigits, Nat.add_mul, Nat.mul_comm (n / 2 ^ (8 * count) % 256),
      Nat.mul_comm (2 ^ (8 * count)) 256, Nat.mul_assoc, Nat.add_assoc,
      Nat.add_comm (n % 2 ^ (8 * count))]

theorem length_fixedBytes (n count : Nat) : (Encoder.fixedBytes n count).length = count := by
  induction count with
  | zero => rfl
  | succ count ih => rw [Encoder.fixedBytes, List.length_cons, ih]

/-- A length that the encoder writes in a fixed count of bytes is read back. -/
theorem length_fixedBytes_read {n fixedWidth : Nat} {d : Decoder} {rest : List UInt8}
    (hwidth : 8 < width) (hpos : 0 < fixedWidth) (hfits : 8 * fixedWidth ≤ width)
    (hn : n < 2 ^ (8 * fixedWidth)) (hstop : d.stop < 2 ^ width)
    (hversion : d.version.usesFixedLengths = true)
    (hahead : d.ahead = Encoder.fixedBytes n fixedWidth ++ rest) :
    d.length width fixedWidth = .ok (n, d.advance fixedWidth) := by
  have hroom : fixedWidth ≤ min d.stop d.input.length - d.cursor := by
    have hlength := congrArg List.length hahead
    rw [Decoder.ahead, List.length_drop, List.length_take, List.length_append,
      length_fixedBytes] at hlength
    omega
  have hsum : d.cursor + fixedWidth < 2 ^ width := by omega
  have hstops : ¬ d.stop < d.cursor + fixedWidth := by omega
  have htaken : (d.input.take (d.cursor + fixedWidth)).drop d.cursor =
      Encoder.fixedBytes n fixedWidth := by
    have htake : (Encoder.fixedBytes n fixedWidth ++ rest).take fixedWidth =
        Encoder.fixedBytes n fixedWidth := List.take_left' (length_fixedBytes n fixedWidth)
    rw [← htake, ← hahead, Decoder.ahead, List.drop_take, List.drop_take, List.take_take]
    congr 1
    omega
  have hread : d.bytes width fixedWidth =
      .ok (Encoder.fixedBytes n fixedWidth, d.advance fixedWidth) := by
    rw [Decoder.bytes, checkedAdd, if_pos hsum]
    simp only [hstops, if_false, htaken]
    rfl
  have hbound : (0 + 1) * 2 ^ (8 * fixedWidth) ≤ 2 ^ width := by
    rw [Nat.zero_add, Nat.one_mul]
    exact Nat.pow_le_pow_right (by decide) hfits
  rw [Decoder.length, hversion, if_pos rfl, hread]
  simp only []
  rw [fixedLength_fixedBytes hwidth _ _ hbound, Nat.zero_mul, Nat.zero_add, Nat.mod_eq_of_lt hn]

end FixedWidth

/-- The bytes the encoder adds for a length. -/
def Encoder.written (n fixedWidth : Nat) (e : Encoder) : List UInt8 :=
  if e.version.usesFixedLengths then fixedBytes n fixedWidth else lengthBytes n

theorem Encoder.length_ok_iff {width : Nat} (hwidth : width = 32 ∨ width = 64)
    {n fixedWidth : Nat} (hfixed : fixedWidth = 2 ∨ fixedWidth = 4) (hn : n < 2 ^ width)
    {e e' : Encoder} : e.length width n fixedWidth = .ok e' ↔
      (e.version.usesFixedLengths = true → n < 2 ^ (8 * fixedWidth)) ∧
        e' = { e with output := e.output ++ e.written n fixedWidth } := by
  rw [length, written]
  cases hversion : e.version.usesFixedLengths with
  | false => simp [eq_comm]
  | true =>
    have hmax : (if width / 8 ≤ fixedWidth then 2 ^ width - 1 else 1 <<< (fixedWidth * 8) - 1) =
        2 ^ (8 * fixedWidth) - 1 := by
      rcases hwidth with rfl | rfl <;> rcases hfixed with rfl | rfl <;> rfl
    simp only [hmax, if_true, forall_const]
    split
    · rename_i hlarge
      have hnot : ¬ n < 2 ^ (8 * fixedWidth) := by omega
      simp [hnot]
    · rename_i hsmall
      have hpos : 0 < 2 ^ (8 * fixedWidth) := Nat.two_pow_pos _
      have hlt : n < 2 ^ (8 * fixedWidth) := by omega
      simp [hlt, eq_comm]

/-- A platform of 32 bits reads another number than the bytes stand for exactly where the fifth
byte has bits above them, and one of 64 bits never. What the encoder writes is read back, unless
it is a number from `2 ^ 63` on, whose tenth byte the decoder does not read. -/
theorem length_exact_iff (width : Nat) (hwidth : width = 32 ∨ width = 64) :
    (∀ fixedWidth (d : Decoder), d.version.usesFixedLengths = false →
      (d.ReadsExactly width fixedWidth ↔ ¬ (width = 32 ∧ Decoder.losesBits d.ahead = true))) ∧
    ∀ n < 2 ^ width, ∀ fixedWidth, fixedWidth = 2 ∨ fixedWidth = 4 →
      ∀ e e' : Encoder, e.length width n fixedWidth = .ok e' →
        ∃ written, e'.output = e.output ++ written ∧
          ∀ (d : Decoder) rest, d.version = e.version → d.stop < 2 ^ width →
            d.ahead = written ++ rest →
            (d.length width fixedWidth = .ok (n, d.advance written.length) ↔
              (width = 64 ∧ e.version.usesFixedLengths = false → n < 2 ^ 63)) := by
  refine ⟨fun fixedWidth d hversion => Decoder.readsExactly_iff hwidth fixedWidth hversion, ?_⟩
  intro n hn fixedWidth hfixed e e' hwritten
  obtain ⟨hfits, rfl⟩ := (Encoder.length_ok_iff hwidth hfixed hn).mp hwritten
  refine ⟨e.written n fixedWidth, rfl, fun d rest hsame hstop hahead => ?_⟩
  rw [Encoder.written] at hahead ⊢
  cases hversion : e.version.usesFixedLengths with
  | false =>
    rw [hversion] at hahead
    simp only [Bool.false_eq_true, if_false, and_true] at hahead ⊢
    exact length_lengthBytes_iff hwidth hn fixedWidth (hsame ▸ hversion) hahead
  | true =>
    rw [hversion, if_pos rfl] at hahead
    rw [if_pos rfl, length_fixedBytes]
    have hread : d.length width fixedWidth = .ok (n, d.advance fixedWidth) :=
      length_fixedBytes_read (by omega) (by omega) (by omega) (hfits hversion) hstop
        (hsame ▸ hversion) hahead
    simp [hread]

/-- A decoder at the five bytes of `2 ^ 32`. -/
def truncatedDecoder : Decoder where
  input := [0x80, 0x80, 0x80, 0x80, 0x10]
  cursor := 0
  stop := 5
  version := ⟨1, 2, 0⟩

/-- A platform of 32 bits reads `2 ^ 32` as zero. -/
theorem length_truncated :
    truncatedDecoder.length 32 4 = .ok (0, truncatedDecoder.advance 5) ∧
      ¬ truncatedDecoder.ReadsExactly 32 4 := by
  have hlength : truncatedDecoder.length 32 4 = .ok (0, truncatedDecoder.advance 5) := rfl
  refine ⟨hlength, fun hexact => ?_⟩
  obtain ⟨read, rest, hahead, hfield, -, hvalue⟩ := hexact _ _ hlength
  have hfive : IsField [0x80, 0x80, 0x80, 0x80, 0x10] :=
    .more rfl (.more rfl (.more rfl (.more rfl (.last rfl))))
  have happend : [0x80, 0x80, 0x80, 0x80, 0x10] ++ [] = read ++ rest := hahead
  obtain ⟨rfl, -⟩ := hfive.append_inj hfield happend
  exact absurd hvalue (by decide)

/-- Both widths read the bytes of 300. -/
theorem length_exact_iff_short :
    (Decoder.length 32 4 ⟨Encoder.lengthBytes 300, 0, 2, ⟨1, 2, 0⟩⟩ =
        .ok (300, ⟨Encoder.lengthBytes 300, 2, 2, ⟨1, 2, 0⟩⟩)) ∧
      Decoder.length 64 4 ⟨Encoder.lengthBytes 300, 0, 2, ⟨1, 2, 0⟩⟩ =
        .ok (300, ⟨Encoder.lengthBytes 300, 2, 2, ⟨1, 2, 0⟩⟩) := by
  have hbytes : Encoder.lengthBytes 300 = [0xac, 0x02] := by
    rw [Encoder.lengthBytes_eq, write, write]
    rfl
  have hread : ∀ width, width = 32 ∨ width = 64 → 300 < 2 ^ width → 2 < 2 ^ width →
      Decoder.length width 4 ⟨Encoder.lengthBytes 300, 0, 2, ⟨1, 2, 0⟩⟩ =
        .ok (300, ⟨Encoder.lengthBytes 300, 2, 2, ⟨1, 2, 0⟩⟩) := by
    intro width hwidth hfits hstop
    obtain ⟨written, houtput, hiff⟩ := (length_exact_iff width hwidth).2 300 hfits 4 (.inr rfl)
      ⟨[], ⟨1, 2, 0⟩⟩ ⟨Encoder.lengthBytes 300, ⟨1, 2, 0⟩⟩ rfl
    obtain rfl : Encoder.lengthBytes 300 = written := houtput
    have hahead : (⟨Encoder.lengthBytes 300, 0, 2, ⟨1, 2, 0⟩⟩ : Decoder).ahead =
        Encoder.lengthBytes 300 ++ [] := by
      rw [hbytes]
      rfl
    have hresult := (hiff _ [] rfl hstop hahead).mpr fun _ => by decide
    rw [hresult, hbytes]
    rfl
  exact ⟨hread 32 (.inl rfl) (by decide) (by decide), hread 64 (.inr rfl) (by decide) (by decide)⟩

end KRust.Kore
