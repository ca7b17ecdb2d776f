import KRust.Backend.Term
import KRust.Domain.IntegerText
import KRust.Lib.Utf8
import Mathlib.Data.Nat.Size

/-!
What the hooks on domain values share: the answers they give, the arguments they read, the terms
they build, and what they ask of the process and of the library of integers.
-/

namespace KRust.Builtin

open KRust.Kore KRust.Backend KRust.Lib
open KRust.Domain (printInt)

inductive Undefinedness where
  /-- `\bottom` in every model of the definition. -/
  | stated
  /-- `\bottom` is one of the models. -/
  | undescribed
  deriving DecidableEq

inductive UnsupportedHookReason where
  | notImplemented
  | resultTooLarge (detail : String)
  | unspecified (detail : String) (defined : Bool)
  deriving DecidableEq

/-- `BuiltinResult`, without the effects, which none of these hooks has. -/
inductive BuiltinResult where
  | notApplicable
  | value (term : Term)
  | bottom (why : Undefinedness)
  | unsupported (reason : UnsupportedHookReason)

/-- What ends the evaluation of a hook without an answer. -/
inductive Unwind where
  | stop
  /-- A slice or an `expect` that fails. -/
  | panic
  | wrongArity (hook : String) (expected actual : Nat)
  | unexpectedSort (hook : String) (expected actual : KoreSort)
  deriving DecidableEq

/-- `HookResult` -/
abbrev HookResult (α : Type) := Except Unwind α

/-- The functions of the library of integers that the hooks call. -/
structure BigInts where
  /-- `BigInt::from_str` -/
  parse : List Char → Option Int
  /-- `BigUint::from_str` -/
  parseNat : List Char → Option Nat
  /-- `to_signed_bytes_le` -/
  toSignedBytesLe : Int → List UInt8
  /-- `BigInt::parse_bytes` -/
  parseBytes : List UInt8 → Nat → Option Int
  /-- `to_str_radix` -/
  toStrRadix : Int → Nat → List Char

/-- The width of a pointer on the target. -/
inductive PointerWidth where
  | bits32
  | bits64
  deriving DecidableEq

def PointerWidth.bits : PointerWidth → Nat
  | .bits32 => 32
  | .bits64 => 64

/-- The process and the caller that a hook is evaluated for. -/
structure Environment where
  /-- `result_bound`: the caller's bound on the bits of a result. -/
  resultBound : Option Nat
  /-- The bytes of memory that the process may use, and what says so. -/
  allowanceBytes : Nat
  allowanceSource : String
  /-- `TARGET_BYTES_RESULT_LEN` -/
  targetBytesResultLen : Nat
  pointerWidth : PointerWidth
  describeBytes : Nat → String
  /-- Whether the poll made at a position finds a stop. -/
  stopped : Nat → Bool
  /-- The seed under which values that the definition leaves open are sampled. -/
  samplingSeed : Option Nat

section Sorts

def intSort : KoreSort := .application "SortInt" []

def boolSort : KoreSort := .application "SortBool" []

def stringSort : KoreSort := .application "SortString" []

def bytesSort : KoreSort := .application "SortBytes" []

end Sorts

section Terms

/-- `Term::int`, whose text is the canonical one. -/
def intTerm (n : Int) : Term := .domainValue intSort (Utf8.encode (printInt n))

def boolTerm (b : Bool) : Term :=
  .domainValue boolSort (Utf8.encode (if b then "true" else "false").toList)

def stringTerm (text : List Char) : Term := .domainValue stringSort (Utf8.encode text)

def bytesTerm (bytes : List UInt8) : Term := .domainValue bytesSort bytes

def readInt (bigInts : BigInts) : Term → Option Int
  | .domainValue sort value =>
    if sort = intSort then (Utf8.decode value).bind bigInts.parse else none
  | _ => none

def readString : Term → Option (List Char)
  | .domainValue sort value => if sort = stringSort then Utf8.decode value else none
  | _ => none

def readBytes : Term → Option (List UInt8)
  | .domainValue sort value => if sort = bytesSort then some value else none
  | _ => none

@[simp] theorem readString_stringTerm (text : List Char) :
    readString (stringTerm text) = some text := by
  simp only [stringTerm, readString, if_true, Utf8.decode_encode]

@[simp] theorem readBytes_bytesTerm (bytes : List UInt8) :
    readBytes (bytesTerm bytes) = some bytes := by
  simp only [bytesTerm, readBytes, if_true]

end Terms

section Answers

/-- What must be there, or a panic. -/
def orPanic {α : Type} : Option α → HookResult α
  | some a => .ok a
  | none => .error .panic

/-- `From<Option<Term>>` -/
def answer : Option Term → BuiltinResult
  | none => .notApplicable
  | some term => .value term

def expectArity (hook : String) (arguments : List Term) (expected : Nat) : HookResult Unit :=
  if arguments.length = expected then .ok () else .error (.wrongArity hook expected arguments.length)

def tooLarge (detail : String) : BuiltinResult := .unsupported (.resultTooLarge detail)

/-- `describe_int` -/
def describeInt (n : Int) : String :=
  let bits := n.natAbs.size
  if bits ≤ 64 then String.ofList (printInt n)
  else if n < 0 then "a negative " ++ toString bits ++ "-bit integer"
  else "a " ++ toString bits ++ "-bit integer"

end Answers

/-- `choice_sampling::bit` -/
def samplingBit (seed : Nat) : Bool := seed &&& 1 == 1

section Bounds

/-- `u64::MAX` -/
def u64Max : Nat := 2 ^ 64 - 1

def saturating (n : Nat) : Nat := min n u64Max

/-- `to_u64` -/
def toU64 (n : Nat) : Option Nat := if n ≤ u64Max then some n else none

/-- `usize::MAX` -/
def Environment.usizeMax (env : Environment) : Nat := 2 ^ env.pointerWidth.bits - 1

/-- `isize::MAX`: no allocation is longer. -/
def Environment.isizeMax (env : Environment) : Nat := 2 ^ (env.pointerWidth.bits - 1) - 1

/-- `i64::MAX` -/
def i64Max : Nat := 2 ^ 63 - 1

theorem Environment.isizeMax_lt (env : Environment) : env.isizeMax < env.usizeMax := by
  unfold isizeMax usizeMax
  cases env.pointerWidth <;> decide

theorem Environment.isizeMax_le (env : Environment) : env.isizeMax ≤ i64Max := by
  unfold isizeMax
  cases env.pointerWidth <;> decide

/-- `bounded_floor` -/
def Environment.boundedFloor (env : Environment) (floor : Nat) : Nat :=
  match env.resultBound with
  | none => floor
  | some bound => min bound floor

/-- `result_size_limit` -/
def resultSizeLimit (floor arguments : Nat) : Nat := max (saturating (arguments * 2)) floor

end Bounds

end KRust.Builtin
