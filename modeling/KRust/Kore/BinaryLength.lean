import KRust.Kore.Ast
import KRust.Lib.Continuation

/-!
The length fields of binary KORE. They are numbers of the platform's width: of a fixed count of
bytes in the first version of the format, and in bytes of seven bits each after it.
-/

set_option linter.unusedSectionVars false

namespace KRust.Kore

open KRust.Lib

section Definitions

structure Version where
  major : Int
  minor : Int
  patch : Int
  deriving DecidableEq

def Version.usesFixedLengths (version : Version) : Bool := version.major = 1 && version.minor = 0

structure BinaryError where
  offset : Nat
  message : String
  deriving DecidableEq

/-- `usize::checked_shl` where a `usize` has so many bits: the bits shifted out are lost. -/
def checkedShl (width value shift : Nat) : Option Nat :=
  if shift < width then some ((value <<< shift) % 2 ^ width) else none

/-- `usize::checked_add` -/
def checkedAdd (width left right : Nat) : Option Nat :=
  if left + right < 2 ^ width then some (left + right) else none

/-- What the decoder reads from; `stop` is the end of the payload. -/
structure Decoder where
  input : List UInt8
  cursor : Nat
  stop : Nat
  version : Version

namespace Decoder

def byte (d : Decoder) : Except BinaryError (UInt8 × Decoder) :=
  match d.input[d.cursor]? with
  | none => .error ⟨d.cursor, "unexpected end of binary KORE payload"⟩
  | some byte =>
    if d.stop ≤ d.cursor then .error ⟨d.cursor, "read past declared binary KORE payload"⟩
    else .ok (byte, { d with cursor := d.cursor + 1 })

def bytes (width count : Nat) (d : Decoder) : Except BinaryError (List UInt8 × Decoder) :=
  match checkedAdd width d.cursor count with
  | none => .error ⟨d.cursor, "byte count overflows usize"⟩
  | some stop =>
    if d.stop < stop then
      .error ⟨d.cursor, s!"expected {count} bytes, only {d.stop - d.cursor} remain"⟩
    else .ok ((d.input.take stop).drop d.cursor, { d with cursor := stop })

/-- The loop over the bytes of a fixed-width length. -/
def fixedLength (width : Nat) (cursor : Nat) : List UInt8 → Nat → Except BinaryError Nat
  | [], value => .ok value
  | byte :: bytes, value =>
    match (checkedShl width value 8).bind fun value => checkedAdd width value byte.toNat with
    | none => .error ⟨cursor, "length overflows usize"⟩
    | some value => fixedLength width cursor bytes value

/-- The loop over the bytes of a length, with the turns left and those made. -/
def lengthLoop (width start : Nat) : Nat → Nat → Nat → Decoder →
    Except BinaryError (Nat × Decoder)
  | 0, _, _, _ => .error ⟨start, "variable-length field has no terminating byte"⟩
  | turns + 1, step, value, d =>
    match d.byte with
    | .error e => .error e
    | .ok (byte, d) =>
      match checkedShl width (byte &&& 0x7f).toNat (7 * step) with
      | none => .error ⟨start, "length overflows usize"⟩
      | some shifted =>
        match checkedAdd width value shifted with
        | none => .error ⟨start, "length overflows usize"⟩
        | some value =>
          if byte &&& 0x80 = 0 then .ok (value, d)
          else lengthLoop width start turns (step + 1) value d

def length (width fixedWidth : Nat) (d : Decoder) : Except BinaryError (Nat × Decoder) :=
  if d.version.usesFixedLengths then
    match d.bytes width fixedWidth with
    | .error e => .error e
    | .ok (bytes, d) =>
      match fixedLength width d.cursor bytes 0 with
      | .error e => .error e
      | .ok value => .ok (value, d)
  else lengthLoop width d.cursor 9 0 0 d

end Decoder

/-- What the encoder has written. -/
structure Encoder where
  output : List UInt8
  version : Version

namespace Encoder

/-- The bytes of a fixed-width length, the highest first. -/
def fixedBytes (value : Nat) : Nat → List UInt8
  | 0 => []
  | shift + 1 => UInt8.ofNat ((value >>> (shift * 8)) &&& 0xff) :: fixedBytes value shift

/-- The loop of a length in bytes of seven bits each. -/
def lengthBytes (value : Nat) : List UInt8 :=
  let byte := UInt8.ofNat (value &&& 0x7f)
  if value >>> 7 = 0 then [byte] else (byte ||| 0x80) :: lengthBytes (value >>> 7)
termination_by value
decreasing_by
  rw [Nat.shiftRight_eq_div_pow] at *
  omega

def length (width value fixedWidth : Nat) (e : Encoder) : Except BinaryError Encoder :=
  if e.version.usesFixedLengths then
    let max := if width / 8 ≤ fixedWidth then 2 ^ width - 1 else 1 <<< (fixedWidth * 8) - 1
    if max < value then
      .error ⟨e.output.length, s!"length {value} does not fit {fixedWidth} bytes"⟩
    else .ok { e with output := e.output ++ fixedBytes value fixedWidth }
  else .ok { e with output := e.output ++ lengthBytes value }

end Encoder

end Definitions

end KRust.Kore
