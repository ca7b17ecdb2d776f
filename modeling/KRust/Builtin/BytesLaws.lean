import KRust.Builtin.BigInts
import KRust.Builtin.Bytes
import Mathlib.Data.Int.ModEq
import Mathlib.Data.Nat.Bitwise

/-!
The conversions of the `BYTES` hooks are inverse to each other: an integer is read back from its
bytes up to a power of two, bytes are written back from the integer they hold, and the encodings
decode exactly the byte strings that they write.
-/

namespace KRust.Builtin.Bytes

open KRust.Kore KRust.Backend KRust.Lib
open CodeUnits (Endianness inOrder length_inOrder inOrder_inOrder)
open TwosComplement

section Lengths

/-- The lengths of the byte strings that are computed. -/
def Admitted (env : Environment) (length : Nat) : Prop :=
  exceededBound env length = none ∧ length ≤ capBytes env ∧ length ≤ env.usizeMax ∧ length ≤ u64Max

theorem boundedLength_admitted {env : Environment} {length : Nat} (h : Admitted env length) :
    boundedLength env length = .ok length := by
  obtain ⟨hbound, hcap, husize, hu64⟩ := h
  have hfilter : (toU64 length).filter (fun length => length ≤ capBytes env ∧ length ≤ env.usizeMax) =
      some length := by
    rw [toU64, if_pos hu64]
    simp [hcap, husize]
  simp only [boundedLength, hbound, hfilter]

theorem boundedLength_refused {env : Environment} {length : Nat} (h : ¬ Admitted env length) :
    ∃ detail, boundedLength env length = .error (.resultTooLarge detail) := by
  unfold boundedLength
  cases hbound : exceededBound env length with
  | some bound => exact ⟨_, rfl⟩
  | none =>
    have hfilter : (toU64 length).filter
        (fun length => length ≤ capBytes env ∧ length ≤ env.usizeMax) = none := by
      unfold toU64
      split
      · rename_i hu64
        have hfits : length ≤ capBytes env → env.usizeMax < length := fun hcap =>
          not_le.mp fun husize => h ⟨hbound, hcap, husize, hu64⟩
        simpa using hfits
      · rfl
    simp only [hfilter]
    exact ⟨_, rfl⟩

end Lengths

section Reading

variable {env : Environment}

/-- A poll made while as many bytes are added finds a stop. -/
def stops (env : Environment) (count : Nat) : Bool :=
  (List.range count).any fun index => index % 1024 = 0 && env.stopped index

/-- An answer, unless a stop is found while as many bytes are added. -/
def unlessStopped {α : Type} (env : Environment) (count : Nat) (answer : α) : HookResult α :=
  if stops env count then .error .stop else .ok answer

theorem addBytes_eq (index : Nat) (n : Int) (bytes : List UInt8) :
    addBytes env index n bytes =
      if (List.range' index bytes.length).any fun index => index % 1024 = 0 && env.stopped index then
        .error .stop
      else .ok (n * 256 ^ bytes.length + unsigned bytes.reverse) := by
  induction bytes generalizing index n with
  | nil => simp [addBytes]
  | cons byte bytes ih =>
    rw [addBytes, ih, List.length_cons, List.range'_succ, List.any_cons]
    by_cases hstop : index % 1024 = 0 ∧ env.stopped index = true
    · rw [if_pos hstop, if_pos (by simp [hstop])]
    · have hpoll : (decide (index % 1024 = 0) && env.stopped index) = false := by
        simpa using hstop
      have hvalue : (n * 2 ^ 8 + byte.toNat) * 256 ^ bytes.length + unsigned bytes.reverse =
          n * 256 ^ (bytes.length + 1) + unsigned (byte :: bytes).reverse := by
        rw [List.reverse_cons, unsigned_append, List.length_reverse, unsigned, unsigned_nil,
          pow_succ]
        push_cast
        ring
      rw [if_neg hstop, hpoll, Bool.false_or, hvalue]

theorem addBytes_reverse (bytes : List UInt8) :
    addBytes env 0 0 bytes.reverse = unlessStopped env bytes.length (unsigned bytes : Int) := by
  rw [addBytes_eq, List.length_reverse, List.reverse_reverse, unlessStopped, stops,
    List.range_eq_range', zero_mul, zero_add]

theorem topBit_iff (byte : UInt8) : byte &&& 0x80 ≠ 0 ↔ 0x80 ≤ byte.toNat := by
  have hand : (byte &&& 0x80).toNat = (byte.toNat.testBit 7).toNat * 2 ^ 7 := by
    rw [UInt8.toNat_and]
    exact Nat.and_two_pow _ 7
  have hlt := byte.toNat_lt
  rw [ne_eq, ← UInt8.toNat_inj, hand, Nat.testBit_eq_decide_div_mod_eq]
  by_cases hbit : byte.toNat / 2 ^ 7 % 2 = 1
  · simp only [hbit, decide_true]
    refine ⟨fun _ => by omega, fun _ => by decide⟩
  · simp only [hbit, decide_false]
    refine ⟨fun h => absurd rfl h, fun h => by omega⟩

/-- The integer that bytes in an order hold. -/
def held (signedness : Signedness) (endianness : Endianness) (bytes : List UInt8) : Int :=
  match signedness with
  | .unsigned => unsigned (inOrder endianness bytes)
  | .signed => signed (inOrder endianness bytes)

theorem bytesToInt_eq {endiannessTerm signednessTerm : Term} {endianness : Endianness}
    {signedness : Signedness} (hendianness : readEndianness endiannessTerm = some endianness)
    (hsignedness : readSignedness signednessTerm = some signedness) (bytes : List UInt8) :
    bytesToInt env [bytesTerm bytes, endiannessTerm, signednessTerm] =
      unlessStopped env bytes.length (.value (intTerm (held signedness endianness bytes))) := by
  simp only [bytesToInt, readBytes_bytesTerm, hendianness, hsignedness, addBytes_reverse,
    length_inOrder]
  unfold unlessStopped
  split
  · rfl
  · have hnegative : ((inOrder endianness bytes).getLast?.any fun byte => decide (byte &&& 0x80 ≠ 0)) =
        isNegative (inOrder endianness bytes) := by
      unfold isNegative
      congr 1
      funext byte
      exact decide_eq_decide.mpr (topBit_iff byte)
    have hpow : (2 : Int) ^ (bytes.length * 8) = 256 ^ bytes.length := by
      rw [mul_comm, pow_mul]
      norm_num
    change Except.ok _ = _
    rw [hnegative, hpow, one_mul]
    congr 3
    cases signedness with
    | unsigned => exact if_neg nofun
    | signed =>
      rw [held, signed, length_inOrder]
      cases isNegative (inOrder endianness bytes) <;> simp

end Reading

section Integers

variable {bigInts : BigInts} {env : Environment} {endianness : Endianness}

theorem length_integerBytes (bigInts : BigInts) (length : Nat) (v : Int)
    (endianness : Endianness) :
    (integerBytes bigInts length v endianness).length = length := by
  rw [integerBytes, length_inOrder, resize, List.length_append, List.length_take,
    List.length_replicate]
  omega

/-- The bytes of an integer hold its residue. -/
theorem unsigned_integerBytes (h : bigInts.Documented) (length : Nat) (v : Int)
    (endianness : Endianness) :
    (unsigned (inOrder endianness (integerBytes bigInts length v endianness)) : Int) ≡
      v [ZMOD 256 ^ length] := by
  rw [integerBytes, inOrder_inOrder]
  exact unsigned_resize (h.toSignedBytesLe v) length

theorem held_modEq (signedness : Signedness) (endianness : Endianness) (bytes : List UInt8) :
    held signedness endianness bytes ≡ unsigned (inOrder endianness bytes)
      [ZMOD 256 ^ bytes.length] := by
  cases signedness with
  | unsigned => exact Int.ModEq.rfl
  | signed =>
    have hsigned := signed_modEq (inOrder endianness bytes)
    rwa [length_inOrder] at hsigned

/-- Where the integers lie that byte strings of a length hold. -/
def InRange (length : Nat) (n : Int) : Signedness → Prop
  | .unsigned => 0 ≤ n ∧ n < 2 ^ (8 * length)
  | .signed => (length = 0 → n = 0) ∧
      (0 < length → -2 ^ (8 * length - 1) ≤ n ∧ n < 2 ^ (8 * length - 1))

theorem pow_length (length : Nat) : (256 : Int) ^ length = 2 ^ (8 * length) := by
  rw [pow_mul]
  norm_num

theorem held_inRange (signedness : Signedness) (endianness : Endianness) (bytes : List UInt8) :
    InRange bytes.length (held signedness endianness bytes) signedness := by
  cases signedness with
  | unsigned =>
    have hlt := unsigned_lt (inOrder endianness bytes)
    rw [length_inOrder] at hlt
    have hcast : (unsigned (inOrder endianness bytes) : Int) < 256 ^ bytes.length := by
      exact_mod_cast hlt
    exact ⟨Int.natCast_nonneg _, pow_length bytes.length ▸ hcast⟩
  | signed =>
    constructor
    · intro hempty
      rw [List.length_eq_zero_iff.mp hempty]
      cases endianness <;> rfl
    · intro hpos
      have hne : inOrder endianness bytes ≠ [] := by
        intro hnil
        rw [← length_inOrder endianness, hnil] at hpos
        exact absurd hpos (Nat.lt_irrefl 0)
      have hrange := signed_range hne
      have hhalf : (256 : Int) ^ bytes.length = 2 * 2 ^ (8 * bytes.length - 1) := by
        rw [pow_length, ← pow_succ', Nat.sub_add_cancel (by omega)]
      rw [length_inOrder, hhalf] at hrange
      rw [held]
      omega

/-- Bytes are written back from the integer that they hold. -/
theorem integerBytes_held (h : bigInts.Documented) (signedness : Signedness)
    (endianness : Endianness) (bytes : List UInt8) :
    integerBytes bigInts bytes.length (held signedness endianness bytes) endianness = bytes := by
  have hlength := length_integerBytes bigInts bytes.length
    (held signedness endianness bytes) endianness
  have hmod := (unsigned_integerBytes h bytes.length (held signedness endianness bytes)
    endianness).trans (held_modEq signedness endianness bytes)
  have hfirst := unsigned_lt (inOrder endianness
    (integerBytes bigInts bytes.length (held signedness endianness bytes) endianness))
  have hsecond := unsigned_lt (inOrder endianness bytes)
  rw [length_inOrder, hlength] at hfirst
  rw [length_inOrder] at hsecond
  have hnat := Int.natCast_modEq_iff.mp (by exact_mod_cast hmod)
  have hvalues := Nat.ModEq.eq_of_lt_of_lt hnat hfirst hsecond
  have hsame : inOrder endianness (integerBytes bigInts bytes.length
      (held signedness endianness bytes) endianness) = inOrder endianness bytes :=
    unsigned_injective (by rw [length_inOrder, length_inOrder, hlength]) hvalues
  rw [← inOrder_inOrder endianness (integerBytes bigInts _ _ _), hsame, inOrder_inOrder]

theorem intToBytes_admitted (h : bigInts.Documented) {length : Nat}
    (hlength : Admitted env length) (v : Int) {endiannessTerm : Term}
    (hendianness : readEndianness endiannessTerm = some endianness) :
    intToBytes bigInts env [intTerm length, intTerm v, endiannessTerm] =
      .ok (.value (bytesTerm (integerBytes bigInts length v endianness))) := by
  have hnonneg : ¬ (length : Int) < 0 := by omega
  simp only [intToBytes, h.readInt_intTerm, if_neg hnonneg, hendianness, Int.toNat_natCast,
    boundedLength_admitted hlength]

end Integers

section Encodings

theorem utf16_iff {bytes : List UInt8} {text : List Char} (endianness : Endianness) :
    decodeUtf16 bytes endianness = some text ↔ encodeUtf16 text endianness = bytes := by
  unfold decodeUtf16 encodeUtf16
  constructor
  · intro h
    obtain ⟨units, hunits, htext⟩ := Option.bind_eq_some_iff.mp h
    obtain ⟨hwrite, hlt⟩ := CodeUnits.writeUnits_of_readUnits hunits
    rw [CodeUnits.utf16Units_of_ofUtf16 hlt htext, hwrite]
  · rintro rfl
    have hlt : ∀ unit ∈ text.flatMap CodeUnits.utf16Units, unit < 256 ^ 2 := by
      intro unit hunit
      obtain ⟨c, -, hc⟩ := List.mem_flatMap.mp hunit
      exact CodeUnits.utf16Units_lt c unit hc
    rw [CodeUnits.readUnits_writeUnits (by decide) hlt, Option.bind_some,
      CodeUnits.ofUtf16_utf16Units]

theorem charFromU32_eq_some {n : Nat} {c : Char} : charFromU32 n = some c ↔ c.toNat = n := by
  unfold charFromU32
  constructor
  · intro h
    split at h
    · rename_i hvalid
      cases h
      exact CodeUnits.toNat_ofNat hvalid
    · cases h
  · rintro rfl
    have hvalid : c.toNat.isValidChar := c.valid
    rw [if_pos hvalid, Char.ofNat_toNat]

theorem mapM_charFromU32 {units : List Nat} {text : List Char} :
    units.mapM charFromU32 = some text ↔ text.map Char.toNat = units := by
  induction units generalizing text with
  | nil => simp [eq_comm]
  | cons unit units ih =>
    rw [List.mapM_cons]
    simp only [Option.bind_eq_bind, Option.bind_eq_some_iff, Option.pure_def, Option.some.injEq,
      charFromU32_eq_some, ih]
    constructor
    · rintro ⟨c, rfl, rest, rfl, rfl⟩
      rfl
    · intro h
      obtain ⟨c, rest, rfl, hc, hrest⟩ := List.map_eq_cons_iff.mp h
      exact ⟨c, hc, rest, hrest, rfl⟩

theorem utf32_iff {bytes : List UInt8} {text : List Char} (endianness : Endianness) :
    decodeUtf32 bytes endianness = some text ↔ encodeUtf32 text endianness = bytes := by
  unfold decodeUtf32 encodeUtf32
  constructor
  · intro h
    obtain ⟨units, hunits, htext⟩ := Option.bind_eq_some_iff.mp h
    rw [mapM_charFromU32.mp htext, (CodeUnits.writeUnits_of_readUnits hunits).1]
  · rintro rfl
    have hlt : ∀ unit ∈ text.map Char.toNat, unit < 256 ^ 4 := by
      intro unit hunit
      obtain ⟨c, -, rfl⟩ := List.mem_map.mp hunit
      have hvalid := CodeUnits.toNat_valid c
      omega
    rw [CodeUnits.readUnits_writeUnits (by decide) hlt, Option.bind_some, mapM_charFromU32]

/-- An encoding decodes exactly the byte strings that it writes, as the texts that it writes. -/
theorem codec_iff {encoding : List Char} {found : Codec} (h : codec encoding = some found)
    {bytes : List UInt8} {text : List Char} :
    found.decode bytes = some text ↔ found.encode text = bytes := by
  unfold codec at h
  split at h
  · cases h
    exact Utf8.decode_eq_some
  · split at h
    · cases h
      exact utf16_iff .little
    · split at h
      · cases h
        exact utf16_iff .big
      · split at h
        · cases h
          exact utf32_iff .little
        · split at h
          · cases h
            exact utf32_iff .big
          · cases h

theorem decodeBytes_eq {encoding : List Char} {found : Codec} (h : codec encoding = some found)
    (bytes : List UInt8) : decodeBytes [stringTerm encoding, bytesTerm bytes] =
      .ok (match found.decode bytes with
        | some text => .value (stringTerm text)
        | none => .bottom .undescribed) := by
  simp only [decodeBytes, readString_stringTerm, readBytes_bytesTerm, h]
  cases found.decode bytes <;> rfl

theorem encodeBytes_eq {encoding : List Char} {found : Codec} (h : codec encoding = some found)
    (text : List Char) : encodeBytes [stringTerm encoding, stringTerm text] =
      .ok (.value (bytesTerm (found.encode text))) := by
  simp only [encodeBytes, readString_stringTerm, h]

/-- The encodings, by their names. -/
def encodings : List (List Char) :=
  ["UTF-8".toList, "UTF-16LE".toList, "UTF-16BE".toList, "UTF-32LE".toList, "UTF-32BE".toList]

theorem codec_encodings : ∀ encoding ∈ encodings, ∃ found, codec encoding = some found := by
  intro encoding hencoding
  have hall : (encodings.all fun encoding => (codec encoding).isSome) = true := by decide
  exact Option.isSome_iff_exists.mp (List.all_eq_true.mp hall encoding hencoding)

end Encodings

section Conversions

/-- The bytes of an integer hold it up to a power of two, within the range of their length; bytes
are written back from the integer that they hold; and each encoding is undone by its decoding,
which answers a value for the byte strings of the encoding and for no others. -/
theorem conversions_invert {bigInts : BigInts} (hbig : bigInts.Documented) (env : Environment) :
    (∀ (length : Nat) (v : Int) (endianness : Endianness) (signedness : Signedness)
      (endiannessTerm signednessTerm : Term), Admitted env length →
      readEndianness endiannessTerm = some endianness →
      readSignedness signednessTerm = some signedness →
      ∃ bytes n, bytes.length = length ∧
        intToBytes bigInts env [intTerm length, intTerm v, endiannessTerm] =
          .ok (.value (bytesTerm bytes)) ∧
        bytesToInt env [bytesTerm bytes, endiannessTerm, signednessTerm] =
          unlessStopped env length (.value (intTerm n)) ∧
        n ≡ v [ZMOD 2 ^ (8 * length)] ∧ InRange length n signedness) ∧
      (∀ (bytes : List UInt8) (endianness : Endianness) (signedness : Signedness)
        (endiannessTerm signednessTerm : Term), Admitted env bytes.length →
        readEndianness endiannessTerm = some endianness →
        readSignedness signednessTerm = some signedness →
        ∃ n, bytesToInt env [bytesTerm bytes, endiannessTerm, signednessTerm] =
            unlessStopped env bytes.length (.value (intTerm n)) ∧
          intToBytes bigInts env [intTerm bytes.length, intTerm n, endiannessTerm] =
            .ok (.value (bytesTerm bytes))) ∧
      ∀ encoding ∈ encodings,
        (∀ text, ∃ bytes, encodeBytes [stringTerm encoding, stringTerm text] =
            .ok (.value (bytesTerm bytes)) ∧
          decodeBytes [stringTerm encoding, bytesTerm bytes] = .ok (.value (stringTerm text))) ∧
        ∀ bytes, (∃ term, decodeBytes [stringTerm encoding, bytesTerm bytes] = .ok (.value term)) ↔
          ∃ text, encodeBytes [stringTerm encoding, stringTerm text] =
            .ok (.value (bytesTerm bytes)) := by
  refine ⟨?_, ?_, ?_⟩
  · intro length v endianness signedness endiannessTerm signednessTerm hlength hendianness hsignedness
    have hbytes := length_integerBytes bigInts length v endianness
    refine ⟨integerBytes bigInts length v endianness,
      held signedness endianness (integerBytes bigInts length v endianness), hbytes,
      intToBytes_admitted hbig hlength v hendianness, ?_, ?_, ?_⟩
    · rw [bytesToInt_eq hendianness hsignedness, hbytes]
    · have hheld := held_modEq signedness endianness (integerBytes bigInts length v endianness)
      rw [hbytes] at hheld
      rw [← pow_length]
      exact hheld.trans (unsigned_integerBytes hbig length v endianness)
    · have hrange := held_inRange signedness endianness (integerBytes bigInts length v endianness)
      rwa [hbytes] at hrange
  · intro bytes endianness signedness endiannessTerm signednessTerm hlength hendianness hsignedness
    refine ⟨held signedness endianness bytes, bytesToInt_eq hendianness hsignedness bytes, ?_⟩
    rw [intToBytes_admitted hbig hlength _ hendianness, integerBytes_held hbig]
  · intro encoding hencoding
    obtain ⟨found, hfound⟩ := codec_encodings encoding hencoding
    constructor
    · intro text
      refine ⟨found.encode text, encodeBytes_eq hfound text, ?_⟩
      rw [decodeBytes_eq hfound, (codec_iff hfound).mpr rfl]
    · intro bytes
      rw [decodeBytes_eq hfound]
      simp only [encodeBytes_eq hfound]
      constructor
      · rintro ⟨term, hterm⟩
        cases htext : found.decode bytes with
        | none =>
          rw [htext] at hterm
          cases hterm
        | some text => exact ⟨text, by rw [(codec_iff hfound).mp htext]⟩
      · rintro ⟨text, htext⟩
        simp only [Except.ok.injEq, BuiltinResult.value.injEq, bytesTerm, Term.domainValue.injEq,
          true_and] at htext
        exact ⟨stringTerm text, by rw [(codec_iff hfound).mpr htext]⟩

/-- An application of a symbol without arguments. -/
def constant (name sort : String) : Term :=
  .application ⟨name, [], [], .application sort [], SymbolAttributes.ofConstructor⟩ [] []

theorem conversions_invert_unbounded :
    (∃ bytes n, bytes.length = 3 ∧
      intToBytes schoolbook unbounded [intTerm (3 : Nat), intTerm (-2),
        constant "LblbigEndianBytes" "SortEndianness"] = .ok (.value (bytesTerm bytes)) ∧
      bytesToInt unbounded [bytesTerm bytes, constant "LblbigEndianBytes" "SortEndianness",
        constant "LblsignedBytes" "SortSignedness"] =
          unlessStopped unbounded 3 (.value (intTerm n)) ∧
      n ≡ -2 [ZMOD 2 ^ (8 * 3)] ∧ InRange 3 n .signed) ∧
      (∃ n, bytesToInt unbounded [bytesTerm [0xff, 0x80],
          constant "LbllittleEndianBytes" "SortEndianness",
          constant "LblunsignedBytes" "SortSignedness"] =
            unlessStopped unbounded 2 (.value (intTerm n)) ∧
        intToBytes schoolbook unbounded [intTerm (2 : Nat), intTerm n,
          constant "LbllittleEndianBytes" "SortEndianness"] =
            .ok (.value (bytesTerm [0xff, 0x80]))) ∧
      ∃ bytes, encodeBytes [stringTerm "UTF-16LE".toList, stringTerm ['a', '𐀀']] =
          .ok (.value (bytesTerm bytes)) ∧
        decodeBytes [stringTerm "UTF-16LE".toList, bytesTerm bytes] =
          .ok (.value (stringTerm ['a', '𐀀'])) := by
  have hinvert := conversions_invert schoolbook_documented unbounded
  have hadmitted : ∀ length ≤ 3, Admitted unbounded length := by
    intro length hlength
    refine ⟨rfl, ?_, ?_, ?_⟩
    · change length ≤ min (2 ^ 30 / 2) (2 ^ 59)
      omega
    · change length ≤ 2 ^ 64 - 1
      omega
    · rw [u64Max]
      omega
  refine ⟨?_, ?_, ?_⟩
  · exact hinvert.1 3 (-2) .big .signed _ _ (hadmitted 3 (by decide)) rfl rfl
  · exact hinvert.2.1 [0xff, 0x80] .little .unsigned _ _ (hadmitted 2 (by decide)) rfl rfl
  · exact (hinvert.2.2 "UTF-16LE".toList (by simp [encodings])).1 ['a', '𐀀']

end Conversions

end KRust.Builtin.Bytes
