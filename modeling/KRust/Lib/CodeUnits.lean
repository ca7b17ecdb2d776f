import KRust.Lib.TwosComplement
import Mathlib.Data.List.Basic

/-!
Texts as sequences of code units of a fixed number of bytes, in either byte order, UTF-16, with
its surrogate pairs, among them. What is decoded are the byte strings that the encoding writes.
-/

namespace KRust.Lib.CodeUnits

open TwosComplement

inductive Endianness where
  | little
  | big
  deriving DecidableEq, Repr

section Definitions

/-- Bytes that are least significant first, in a byte order. -/
def inOrder (endianness : Endianness) (bytes : List UInt8) : List UInt8 :=
  match endianness with
  | .little => bytes
  | .big => bytes.reverse

/-- `as_chunks`: the parts of a size, and the bytes that make up no part. -/
def asChunks (size : Nat) (bytes : List UInt8) : List (List UInt8) × List UInt8 :=
  if size = 0 ∨ bytes.length < size then ([], bytes)
  else
    let (chunks, remainder) := asChunks size (bytes.drop size)
    (bytes.take size :: chunks, remainder)
termination_by bytes.length
decreasing_by
  rename_i h
  rw [List.length_drop]
  omega

def writeUnits (size : Nat) (endianness : Endianness) (units : List Nat) : List UInt8 :=
  units.flatMap fun unit => inOrder endianness (lowBytes size unit)

def readUnits (size : Nat) (endianness : Endianness) (bytes : List UInt8) : Option (List Nat) :=
  let (chunks, remainder) := asChunks size bytes
  if remainder.isEmpty then some (chunks.map fun chunk => unsigned (inOrder endianness chunk))
  else none

/-- `encode_utf16` of a character: a surrogate pair beyond the units. -/
def utf16Units (c : Char) : List Nat :=
  if c.toNat < 0x10000 then [c.toNat]
  else [0xd800 + (c.toNat - 0x10000) / 0x400, 0xdc00 + (c.toNat - 0x10000) % 0x400]

/-- `String::from_utf16`: the text of some units; `none` where a surrogate has no partner. -/
def ofUtf16 : List Nat → Option (List Char)
  | [] => some []
  | unit :: units =>
    if unit < 0xd800 ∨ 0xe000 ≤ unit then (ofUtf16 units).map (Char.ofNat unit :: ·)
    else if 0xdc00 ≤ unit then none
    else
      match units with
      | [] => none
      | second :: units =>
        if 0xdc00 ≤ second ∧ second < 0xe000 then
          (ofUtf16 units).map
            (Char.ofNat (0x10000 + (unit - 0xd800) * 0x400 + (second - 0xdc00)) :: ·)
        else none

end Definitions

section Units

variable {size : Nat} {endianness : Endianness}

@[simp] theorem length_inOrder (endianness : Endianness) (bytes : List UInt8) :
    (inOrder endianness bytes).length = bytes.length := by
  cases endianness with
  | little => rfl
  | big => exact List.length_reverse

@[simp] theorem inOrder_inOrder (endianness : Endianness) (bytes : List UInt8) :
    inOrder endianness (inOrder endianness bytes) = bytes := by
  cases endianness with
  | little => rfl
  | big => exact List.reverse_reverse bytes

theorem asChunks_flatten (hsize : 0 < size) {chunks : List (List UInt8)}
    (h : ∀ chunk ∈ chunks, chunk.length = size) : asChunks size chunks.flatten = (chunks, []) := by
  induction chunks with
  | nil =>
    rw [asChunks]
    exact if_pos (Or.inr hsize)
  | cons chunk chunks ih =>
    have hlength := h chunk List.mem_cons_self
    rw [asChunks, if_neg (by simp; omega), List.flatten_cons, List.drop_left' hlength,
      List.take_left' hlength, ih fun c hc => h c (List.mem_cons_of_mem _ hc)]

theorem flatten_asChunks (size : Nat) (bytes : List UInt8) :
    (asChunks size bytes).1.flatten ++ (asChunks size bytes).2 = bytes ∧
      ∀ chunk ∈ (asChunks size bytes).1, chunk.length = size := by
  fun_induction asChunks size bytes with
  | case1 bytes hshort => simp
  | case2 bytes hlong chunks remainder hchunks ih =>
    rw [hchunks] at ih
    obtain ⟨hflatten, hlength⟩ := ih
    constructor
    · rw [List.flatten_cons, List.append_assoc, hflatten, List.take_append_drop]
    · intro chunk hchunk
      rcases List.mem_cons.mp hchunk with rfl | hmem
      · exact List.length_take_of_le (by omega)
      · exact hlength chunk hmem

theorem readUnits_writeUnits (hsize : 0 < size) {units : List Nat}
    (h : ∀ unit ∈ units, unit < 256 ^ size) :
    readUnits size endianness (writeUnits size endianness units) = some units := by
  have hchunks : asChunks size (writeUnits size endianness units) =
      (units.map fun unit => inOrder endianness (lowBytes size unit), []) := by
    apply asChunks_flatten hsize
    intro chunk hchunk
    obtain ⟨unit, -, rfl⟩ := List.mem_map.mp hchunk
    rw [length_inOrder, length_lowBytes]
  simp only [readUnits, hchunks, List.isEmpty_nil, if_true, List.map_map, Option.some.injEq]
  apply (List.map_congr_left _).trans (List.map_id _)
  intro unit hunit
  rw [Function.comp_apply, inOrder_inOrder, unsigned_lowBytes_of_lt (h unit hunit)]
  rfl

theorem writeUnits_of_readUnits {bytes : List UInt8} {units : List Nat}
    (h : readUnits size endianness bytes = some units) :
    writeUnits size endianness units = bytes ∧ ∀ unit ∈ units, unit < 256 ^ size := by
  obtain ⟨hflatten, hlength⟩ := flatten_asChunks size bytes
  unfold readUnits at h
  split at h
  rename_i chunks remainder hchunks
  rw [hchunks] at hflatten hlength
  split at h
  · rename_i hempty
    cases h
    have hsame : ∀ chunk ∈ chunks,
        inOrder endianness (lowBytes size (unsigned (inOrder endianness chunk))) = chunk := by
      intro chunk hchunk
      have hlow := lowBytes_unsigned (inOrder endianness chunk)
      rw [length_inOrder, hlength chunk hchunk] at hlow
      rw [hlow, inOrder_inOrder]
    constructor
    · rw [writeUnits, List.flatMap_def, List.map_map]
      rw [List.isEmpty_iff.mp hempty, List.append_nil] at hflatten
      have hid : chunks.map ((fun unit => inOrder endianness (lowBytes size unit)) ∘
          fun chunk => unsigned (inOrder endianness chunk)) = chunks :=
        (List.map_congr_left hsame).trans (List.map_id _)
      rw [hid]
      exact hflatten
    · intro unit hunit
      obtain ⟨chunk, hchunk, rfl⟩ := List.mem_map.mp hunit
      have hlt := unsigned_lt (inOrder endianness chunk)
      rw [length_inOrder, hlength chunk hchunk] at hlt
      exact hlt
  · cases h

end Units

section Utf16

theorem toNat_valid (c : Char) : c.toNat < 0xd800 ∨ 0xdfff < c.toNat ∧ c.toNat < 0x110000 := c.valid

theorem utf16Units_lt (c : Char) : ∀ unit ∈ utf16Units c, unit < 256 ^ 2 := by
  intro unit hunit
  have hvalid := toNat_valid c
  unfold utf16Units at hunit
  split at hunit
  · rw [List.mem_singleton.mp hunit]
    omega
  · rcases List.mem_cons.mp hunit with rfl | hunit
    · omega
    · rw [List.mem_singleton.mp hunit]
      omega

theorem ofUtf16_unit {unit : Nat} (units : List Nat) (h : unit < 0xd800 ∨ 0xe000 ≤ unit) :
    ofUtf16 (unit :: units) = (ofUtf16 units).map (Char.ofNat unit :: ·) := by
  rw [ofUtf16.eq_def]
  exact if_pos h

theorem ofUtf16_pair {unit second : Nat} (units : List Nat) (hunit : 0xd800 ≤ unit ∧ unit < 0xdc00)
    (hsecond : 0xdc00 ≤ second ∧ second < 0xe000) :
    ofUtf16 (unit :: second :: units) = (ofUtf16 units).map
      (Char.ofNat (0x10000 + (unit - 0xd800) * 0x400 + (second - 0xdc00)) :: ·) := by
  rw [ofUtf16.eq_def]
  simp only
  rw [if_neg (by omega), if_neg (by omega), if_pos hsecond]

theorem ofUtf16_append (c : Char) (units : List Nat) :
    ofUtf16 (utf16Units c ++ units) = (ofUtf16 units).map (c :: ·) := by
  have hvalid := toNat_valid c
  unfold utf16Units
  split
  · rw [List.singleton_append, ofUtf16_unit units (by omega), Char.ofNat_toNat]
  · have hsum : 0x10000 + (0xd800 + (c.toNat - 0x10000) / 0x400 - 0xd800) * 0x400 +
        (0xdc00 + (c.toNat - 0x10000) % 0x400 - 0xdc00) = c.toNat := by omega
    rw [List.cons_append, List.singleton_append, ofUtf16_pair units (by omega) (by omega), hsum,
      Char.ofNat_toNat]

theorem ofUtf16_utf16Units (text : List Char) : ofUtf16 (text.flatMap utf16Units) = some text := by
  induction text with
  | nil => rfl
  | cons c text ih => rw [List.flatMap_cons, ofUtf16_append, ih, Option.map_some]

theorem toNat_ofNat {n : Nat} (h : n < 0xd800 ∨ 0xdfff < n ∧ n < 0x110000) :
    (Char.ofNat n).toNat = n := by
  rw [Char.ofNat, dif_pos h]
  rfl

theorem utf16Units_of_ofUtf16 {units : List Nat} {text : List Char}
    (hlt : ∀ unit ∈ units, unit < 256 ^ 2) (h : ofUtf16 units = some text) :
    text.flatMap utf16Units = units := by
  fun_induction ofUtf16 units generalizing text with
  | case1 =>
    cases h
    rfl
  | case2 unit units hunit ih =>
    obtain ⟨text, htext, rfl⟩ := Option.map_eq_some_iff.mp h
    have hunit' := hlt unit List.mem_cons_self
    have hchar : utf16Units (Char.ofNat unit) = [unit] := by
      rw [utf16Units, toNat_ofNat (by omega), if_pos (by omega)]
    rw [List.flatMap_cons, hchar, ih (fun u hu => hlt u (List.mem_cons_of_mem _ hu)) htext,
      List.singleton_append]
  | case3 => cases h
  | case4 => cases h
  | case5 unit hunit hfirst second units hsecond ih =>
    obtain ⟨text, htext, rfl⟩ := Option.map_eq_some_iff.mp h
    have hunits : ∀ u ∈ units, u < 256 ^ 2 := fun u hu =>
      hlt u (List.mem_cons_of_mem _ (List.mem_cons_of_mem _ hu))
    have hchar : utf16Units (Char.ofNat (0x10000 + (unit - 0xd800) * 0x400 + (second - 0xdc00))) =
        [unit, second] := by
      have hhigh : 0xd800 + (0x10000 + (unit - 0xd800) * 0x400 + (second - 0xdc00) - 0x10000) / 0x400 =
          unit := by omega
      have hlow : 0xdc00 + (0x10000 + (unit - 0xd800) * 0x400 + (second - 0xdc00) - 0x10000) % 0x400 =
          second := by omega
      rw [utf16Units, toNat_ofNat (by omega), if_neg (by omega), hhigh, hlow]
    rw [List.flatMap_cons, hchar, ih hunits htext]
    rfl
  | case6 => cases h

end Utf16

end KRust.Lib.CodeUnits
