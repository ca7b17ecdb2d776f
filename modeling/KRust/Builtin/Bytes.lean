import KRust.Builtin.Hooks
import KRust.Kore.Literal
import KRust.Lib.CodeUnits

/-!
The `BYTES` hooks that convert: integers to byte strings and back, in either byte order, and
strings to byte strings and back, in five encodings.
-/

namespace KRust.Builtin.Bytes

open KRust.Kore KRust.Backend KRust.Lib
open CodeUnits (Endianness)

inductive Signedness where
  | signed
  | unsigned
  deriving DecidableEq, Repr

section Arguments

def readEndianness : Term → Option Endianness
  | .application symbol _ [] =>
    if symbol.name = "LbllittleEndianBytes" then some .little
    else if symbol.name = "LblbigEndianBytes" then some .big
    else none
  | _ => none

def readSignedness : Term → Option Signedness
  | .application symbol _ [] =>
    if symbol.name = "LblsignedBytes" then some .signed
    else if symbol.name = "LblunsignedBytes" then some .unsigned
    else none
  | _ => none

end Arguments

section Lengths

/-- `BYTES_RESULT_PEAK_FACTOR` -/
def bytesResultPeakFactor : Nat := 2

/-- `ResultCap::bytes` of `bytes_result_cap` -/
def capBytes (env : Environment) : Nat :=
  min (env.allowanceBytes / bytesResultPeakFactor) env.targetBytesResultLen

/-- `ResultCap::reason` of `bytes_result_cap` -/
def capReason (env : Environment) : String :=
  if env.allowanceBytes / bytesResultPeakFactor > env.targetBytesResultLen then
    "a sixteenth of the largest allocation on this target, so that the result can be rendered"
  else
    "half of the " ++ env.describeBytes env.allowanceBytes ++ " this process may use (" ++
      env.allowanceSource ++ "), since one application holds 2 bytes per byte of its result"

/-- The caller's bound on the bits of a result, where a length exceeds it. -/
def exceededBound (env : Environment) (length : Nat) : Option Nat :=
  env.resultBound.filter fun bound =>
    match toU64 length with
    | none => true
    | some length => saturating (length * 8) > bound

/-- `bounded_length`, of a length that is not negative. -/
def boundedLength (env : Environment) (length : Nat) : Except UnsupportedHookReason Nat :=
  match exceededBound env length with
  | some bound =>
    .error (.resultTooLarge ("a Bytes result of length " ++ describeInt length ++
      " is longer than the caller's bound of " ++ toString bound ++ " bits"))
  | none =>
    let limit := capBytes env
    match (toU64 length).filter fun length => length ≤ limit ∧ length ≤ env.usizeMax with
    | some length => .ok length
    | none =>
      .error (.resultTooLarge ("a Bytes result of length " ++ describeInt length ++
        " is longer than its cap of " ++ toString limit ++ " bytes (" ++ env.describeBytes limit ++
        "): " ++ capReason env))

end Lengths

section Integers

/-- `resize`: bytes cut short or extended to a length. -/
def resize (bytes : List UInt8) (length : Nat) (byte : UInt8) : List UInt8 :=
  bytes.take length ++ List.replicate (length - bytes.length) byte

/-- The two's complement of an integer in a number of bytes. -/
def integerBytes (bigInts : BigInts) (length : Nat) (value : Int) (endianness : Endianness) :
    List UInt8 :=
  let sign : UInt8 := if value < 0 then 0xff else 0
  CodeUnits.inOrder endianness (resize (bigInts.toSignedBytesLe value) length sign)

/-- `int_to_bytes` -/
def intToBytes (bigInts : BigInts) (env : Environment) (arguments : List Term) :
    HookResult BuiltinResult :=
  match arguments with
  | [length, value, endianness] =>
    match readInt bigInts length with
    | none => .ok .notApplicable
    | some length =>
      if length < 0 then
        .ok (.unsupported (.unspecified
          ("Int2Bytes with the negative length " ++ describeInt length) false))
      else
        match readInt bigInts value, readEndianness endianness with
        | some value, some endianness =>
          match boundedLength env length.toNat with
          | .ok length => .ok (.value (bytesTerm (integerBytes bigInts length value endianness)))
          | .error reason => .ok (.unsupported reason)
        | _, _ => .ok .notApplicable
  | _ => .error (.wrongArity "BYTES.int2bytes" 3 arguments.length)

/-- The bytes added one by one from the last, with a poll at every 1024th. -/
def addBytes (env : Environment) : Nat → Int → List UInt8 → HookResult Int
  | _, n, [] => .ok n
  | index, n, byte :: bytes =>
    if index % 1024 = 0 ∧ env.stopped index then .error .stop
    else addBytes env (index + 1) (n * 2 ^ 8 + byte.toNat) bytes

/-- `bytes_to_int` -/
def bytesToInt (env : Environment) (arguments : List Term) : HookResult BuiltinResult :=
  match arguments with
  | [bytes, endianness, signedness] =>
    match readBytes bytes, readEndianness endianness, readSignedness signedness with
    | some bytes, some endianness, some signedness => do
      let bytes := CodeUnits.inOrder endianness bytes
      let unsigned ← addBytes env 0 0 bytes.reverse
      let negative : Bool := bytes.getLast?.any fun byte => byte &&& 0x80 ≠ 0
      let n :=
        if signedness = .signed ∧ negative then unsigned - 1 * 2 ^ (bytes.length * 8) else unsigned
      return .value (intTerm n)
    | _, _, _ => .ok .notApplicable
  | _ => .error (.wrongArity "BYTES.bytes2int" 3 arguments.length)

end Integers

section Encodings

def encodeUtf16 (text : List Char) (endianness : Endianness) : List UInt8 :=
  CodeUnits.writeUnits 2 endianness (text.flatMap CodeUnits.utf16Units)

def decodeUtf16 (bytes : List UInt8) (endianness : Endianness) : Option (List Char) :=
  (CodeUnits.readUnits 2 endianness bytes).bind CodeUnits.ofUtf16

def encodeUtf32 (text : List Char) (endianness : Endianness) : List UInt8 :=
  CodeUnits.writeUnits 4 endianness (text.map Char.toNat)

def decodeUtf32 (bytes : List UInt8) (endianness : Endianness) : Option (List Char) :=
  (CodeUnits.readUnits 4 endianness bytes).bind fun units => units.mapM charFromU32

/-- What an encoding's name stands for: how it decodes and how it encodes. -/
structure Codec where
  decode : List UInt8 → Option (List Char)
  encode : List Char → List UInt8

/-- The names of the encodings in `decode_bytes` and `encode_bytes`. -/
def codec (encoding : List Char) : Option Codec :=
  if encoding = "UTF-8".toList then some ⟨Utf8.decode, Utf8.encode⟩
  else if encoding = "UTF-16LE".toList then
    some ⟨(decodeUtf16 · .little), (encodeUtf16 · .little)⟩
  else if encoding = "UTF-16BE".toList then some ⟨(decodeUtf16 · .big), (encodeUtf16 · .big)⟩
  else if encoding = "UTF-32LE".toList then
    some ⟨(decodeUtf32 · .little), (encodeUtf32 · .little)⟩
  else if encoding = "UTF-32BE".toList then some ⟨(decodeUtf32 · .big), (encodeUtf32 · .big)⟩
  else none

/-- `decode_bytes` -/
def decodeBytes (arguments : List Term) : HookResult BuiltinResult :=
  match arguments with
  | [encoding, bytes] =>
    match readString encoding, readBytes bytes with
    | some encoding, some bytes =>
      match codec encoding with
      | none => .ok .notApplicable
      | some codec =>
        match codec.decode bytes with
        | some text => .ok (.value (stringTerm text))
        | none => .ok (.bottom .undescribed)
    | _, _ => .ok .notApplicable
  | _ => .error (.wrongArity "BYTES.decodeBytes" 2 arguments.length)

/-- `encode_bytes` -/
def encodeBytes (arguments : List Term) : HookResult BuiltinResult :=
  match arguments with
  | [encoding, contents] =>
    match readString encoding, readString contents with
    | some encoding, some contents =>
      match codec encoding with
      | none => .ok .notApplicable
      | some codec => .ok (.value (bytesTerm (codec.encode contents)))
    | _, _ => .ok .notApplicable
  | _ => .error (.wrongArity "BYTES.encodeBytes" 2 arguments.length)

end Encodings

end KRust.Builtin.Bytes
