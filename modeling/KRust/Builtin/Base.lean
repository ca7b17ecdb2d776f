import KRust.Builtin.Hooks
import KRust.Lib.Radix

/-!
The `STRING` hooks that write integers in a base and read them.
-/

namespace KRust.Builtin.Base

open KRust.Backend KRust.Lib
open KRust.Domain (splitSign)

/-- `read_base` -/
def readBase (base : Int) : Option Nat := if 2 ≤ base ∧ base ≤ 36 then some base.toNat else none

/-- `parse_integer`: the integer parser alone would also skip separators. -/
def parseInteger (bigInts : BigInts) (value : List Char) (radix : Nat) : Option Int :=
  let digits := (splitSign value).2
  let wellFormed := !digits.isEmpty && digits.all (Radix.isDigit radix)
  if wellFormed then bigInts.parseBytes (Utf8.encode value) radix else none

/-- A value of the description, or one that it says nothing of. -/
def described : Option Term → BuiltinResult
  | some term => .value term
  | none => .bottom .undescribed

/-- `string_to_base` -/
def stringToBase (bigInts : BigInts) (arguments : List Term) : HookResult BuiltinResult :=
  match arguments with
  | [value, base] =>
    match readString value, readInt bigInts base with
    | some value, some base =>
      match readBase base with
      | none => .ok (.bottom .undescribed)
      | some base => .ok (described ((parseInteger bigInts value base).map intTerm))
    | _, _ => .ok .notApplicable
  | _ => .error (.wrongArity "STRING.string2base" 2 arguments.length)

/-- `base_to_string` -/
def baseToString (bigInts : BigInts) (env : Environment) (arguments : List Term) :
    HookResult BuiltinResult :=
  match arguments with
  | [value, base] =>
    match readInt bigInts value, readInt bigInts base with
    | some value, some base =>
      match readBase base with
      | none => .ok (.bottom .undescribed)
      | some base =>
        let text := bigInts.toStrRadix value base
        match env.samplingSeed with
        | some seed =>
          -- The letter case that the seed chooses.
          .ok (.value (stringTerm (if samplingBit seed then text.map Char.toUpper else text)))
        | none => .ok (.value (stringTerm text))
    | _, _ => .ok .notApplicable
  | _ => .error (.wrongArity "STRING.base2string" 2 arguments.length)

/-- `string_to_int` -/
def stringToInt (bigInts : BigInts) (arguments : List Term) : HookResult BuiltinResult :=
  match arguments with
  | [value] =>
    match readString value with
    | some value => .ok (described ((parseInteger bigInts value 10).map intTerm))
    | none => .ok .notApplicable
  | _ => .error (.wrongArity "STRING.string2int" 1 arguments.length)

end KRust.Builtin.Base
