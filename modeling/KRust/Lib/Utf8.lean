import Mathlib.Data.List.Basic
import Mathlib.Algebra.GroupWithZero.Nat

/-!
UTF-8 on lists of bytes: the encoding of a text, the first character of a byte sequence
and the decoding of a whole one, inverse to each other.
-/

set_option linter.unusedSectionVars false

namespace KRust.Lib.Utf8

/-- The UTF-8 encoding of a text. -/
def encode (text : List Char) : List UInt8 := text.flatMap String.utf8EncodeChar

@[simp] theorem encode_nil : encode [] = [] := rfl

@[simp] theorem encode_cons (c : Char) (text : List Char) :
    encode (c :: text) = String.utf8EncodeChar c ++ encode text := rfl

theorem encode_append (s t : List Char) : encode (s ++ t) = encode s ++ encode t :=
  List.flatMap_append

/-- The character whose encoding the bytes begin with, and the bytes after it. -/
def next (bytes : List UInt8) : Option (Char × List UInt8) :=
  (bytes.toByteArray.utf8DecodeChar? 0).map fun c => (c, bytes.drop c.utf8Size)

theorem next_encodeChar (c : Char) (rest : List UInt8) :
    next (String.utf8EncodeChar c ++ rest) = some (c, rest) := by
  have hlen : (String.utf8EncodeChar c).length = c.utf8Size := String.length_utf8EncodeChar c
  rw [next, List.toByteArray_append, ByteArray.utf8DecodeChar?_utf8EncodeChar_append,
    Option.map_some, ← hlen, List.drop_left]

theorem eq_of_next {bytes rest : List UInt8} {c : Char} (h : next bytes = some (c, rest)) :
    bytes = String.utf8EncodeChar c ++ rest := by
  obtain ⟨d, hd, hpair⟩ := Option.map_eq_some_iff.mp h
  obtain ⟨rfl, rfl⟩ := Prod.mk.inj hpair
  obtain ⟨l, hl⟩ := ByteArray.exists_of_utf8DecodeChar?_eq_some hd
  have hbytes : bytes = String.utf8EncodeChar d ++ l.data.toList := by
    have := congrArg (fun b : ByteArray => b.data.toList) hl
    simpa using this
  have hlen : (String.utf8EncodeChar d).length = d.utf8Size := String.length_utf8EncodeChar d
  conv => lhs; rw [hbytes]
  conv => rhs; rw [hbytes, ← hlen, List.drop_left]

theorem encodeChar_ne_nil (c : Char) : String.utf8EncodeChar c ≠ [] := by
  intro h
  have hlen : (String.utf8EncodeChar c).length = c.utf8Size := String.length_utf8EncodeChar c
  have hpos := c.utf8Size_pos
  rw [h] at hlen
  simp at hlen
  omega

theorem length_of_next {bytes rest : List UInt8} {c : Char} (h : next bytes = some (c, rest)) :
    rest.length < bytes.length := by
  rw [eq_of_next h, List.length_append]
  have := List.length_pos_iff.mpr (encodeChar_ne_nil c)
  omega

/-- The text the bytes encode; `none` where they are not UTF-8. -/
def decode (bytes : List UInt8) : Option (List Char) :=
  match _h : next bytes with
  | some (c, rest) => (decode rest).map (c :: ·)
  | none => if bytes = [] then some [] else none
termination_by bytes.length
decreasing_by exact length_of_next _h

theorem next_nil : next [] = none := by
  cases h : next [] with
  | none => rfl
  | some r =>
    obtain ⟨c, rest⟩ := r
    have := length_of_next h
    simp at this

theorem decode_encode (text : List Char) : decode (encode text) = some text := by
  induction text with
  | nil =>
    rw [decode.eq_def]
    split
    · rename_i h
      rw [encode_nil, next_nil] at h
      cases h
    · rfl
  | cons c text ih =>
    rw [decode.eq_def]
    split
    · rename_i d rest h
      rw [encode_cons, next_encodeChar, Option.some.injEq, Prod.mk.injEq] at h
      obtain ⟨rfl, rfl⟩ := h
      rw [ih]
      rfl
    · rename_i h
      rw [encode_cons, next_encodeChar] at h
      cases h

theorem encode_of_decode {bytes : List UInt8} {text : List Char} (h : decode bytes = some text) :
    encode text = bytes := by
  fun_induction decode bytes generalizing text with
  | case1 bytes c rest hnext ih =>
    obtain ⟨text, hrest, rfl⟩ := Option.map_eq_some_iff.mp h
    rw [encode_cons, ih hrest, eq_of_next hnext]
  | case2 hnext =>
    cases h
    rfl
  | case3 bytes hnext hne => cases h

theorem decode_eq_some {bytes : List UInt8} {text : List Char} :
    decode bytes = some text ↔ encode text = bytes := by
  constructor
  · exact encode_of_decode
  · rintro rfl
    exact decode_encode text

theorem encode_injective : Function.Injective encode := by
  intro s t h
  have hs := decode_encode s
  rw [h, decode_encode, Option.some.injEq] at hs
  exact hs.symm

end KRust.Lib.Utf8
