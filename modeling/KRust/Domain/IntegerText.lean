import KRust.Domain.Kind
import KRust.Lib.Decimal
import KRust.Lib.Utf8
import Mathlib.Data.Nat.Size

/-!
The texts of integers and of machine integers: which payloads are values of a sort, and the
canonical text of the element that a payload names.
-/

set_option linter.unusedSectionVars false

namespace KRust.Domain

open KRust.Lib.Decimal

/-- `MAX_INT_RESULT_BITS` -/
def maxIntResultBits : Nat := 2 ^ 24

/-- `MAX_FLOAT_CANONICAL_BITS` is passed on in a refusal only. -/
inductive FloatTextRefusal where
  | notALiteral
  | zeroFormatField
  | uncomputedFormat
  | beyondBound (estimateBits : Nat)
  deriving DecidableEq

inductive InvalidDomainValueReason where
  | notALiteral
  | otherWidth
  | noWidth
  | noFloatFormat
  deriving DecidableEq

inductive DomainValueBound where
  | mintResidue (limitBits : Nat)
  | floatCanonicalText (limitBits estimateBits : Nat)
  | floatFormat
  deriving DecidableEq

inductive TextRejection where
  | namesNoElement (reason : InvalidDomainValueReason)
  | beyondBound (bound : DomainValueBound)
  deriving DecidableEq

/-- The readers of numbers that the texts are given to: the decimal parsers of `BigInt` and of
`BigUint`, and the functions on the texts of floating-point numbers. -/
structure NumberTexts where
  parseInt : List Char → Option Int
  parseNat : List Char → Option Nat
  floatBitsEstimate : List Char → Except FloatTextRefusal Nat
  floatText : List Char → Except FloatTextRefusal (List Char)
  maxFloatCanonicalBits : Nat

section Texts

/-- A sign and what follows it, where there is one. -/
def splitSign (text : List Char) : Option Char × List Char :=
  match text with
  | '+' :: rest => (some '+', rest)
  | '-' :: rest => (some '-', rest)
  | _ => (none, text)

/-- `is_decimal_integer` -/
def isDecimalInteger (value : List Char) : Bool := decide (IsDigits (splitSign value).2)

structure MIntLiteral where
  sign : Option Char
  magnitude : List Char
  separator : Char
  width : List Char
  deriving DecidableEq

namespace MIntLiteral

def isSeparator (c : Char) : Bool := c = 'p' || c = 'P'

def parse (text : List Char) : Option MIntLiteral :=
  let (sign, rest) := splitSign text
  let magnitude := rest.takeWhile fun c => !isSeparator c
  match rest.dropWhile fun c => !isSeparator c with
  | [] => none
  | separator :: width =>
    if IsDigits magnitude ∧ IsDigits width then some ⟨sign, magnitude, separator, width⟩ else none

def namesWidth (literal : MIntLiteral) (digits : List Char) : Bool :=
  (literal.width.dropWhile fun c => c = '0') = digits.dropWhile fun c => c = '0'

def isNegative (literal : MIntLiteral) : Bool :=
  literal.sign = some '-' && literal.magnitude.any fun c => c ≠ '0'

end MIntLiteral

/-- `mint_width_beyond_bound` -/
def mintWidthBeyondBound : MIntWidth → Bool
  | .bits count => decide (maxIntResultBits < count)
  | .unrepresentable => true
  | .noWidth => false

/-- The display of a `BigInt`. -/
def printInt (n : Int) : List Char :=
  if n < 0 then '-' :: Nat.toDigits 10 n.natAbs else Nat.toDigits 10 n.natAbs

/-- The first test of `canonical_int_text`: the text is canonical already. -/
def isCanonicalInt (text : List Char) : Bool :=
  match text with
  | ['0'] => true
  | '-' :: first :: rest => '1' ≤ first && first ≤ '9' && rest.all Char.isDigit
  | first :: rest => '1' ≤ first && first ≤ '9' && rest.all Char.isDigit
  | [] => false

end Texts

section CanonicalText

variable (numbers : NumberTexts) {S : Type} [DomainSort S]

def canonicalIntText (text : List Char) : Option (List Char) :=
  if isCanonicalInt text then none else (numbers.parseInt text).map printInt

/-- `canonical_mint_text`: `none` where an expectation fails, as a panic does. -/
def canonicalMintText (width : MIntWidth) (sort : S) (text : List Char) :
    Option (Option (List Char)) :=
  if width = .noWidth then some none
  else
    match mintWidthDigits sort with
    | none => some none
    | some sortDigits =>
      match MIntLiteral.parse text with
      | none => some none
      | some literal =>
        if !literal.namesWidth sortDigits then some none
        else if literal.isNegative && mintWidthBeyondBound width then some none
        else
          match numbers.parseNat literal.magnitude with
          | none => none
          | some magnitude =>
            let written (residue : Nat) := Nat.toDigits 10 residue ++ 'p' :: sortDigits
            -- below `2^W` the magnitude is its own residue
            let kept :=
              if literal.sign = none ∧ literal.separator = 'p' ∧ literal.width = sortDigits ∧
                  (literal.magnitude.length = 1 ∨ literal.magnitude.head? ≠ some '0') then
                some none
              else some (some (written magnitude))
            match width with
            | .bits bits =>
              if literal.isNegative then
                let modulus := 2 ^ bits
                let reduced := magnitude % modulus
                some (some (written (if reduced = 0 then reduced else modulus - reduced)))
              else if bits < magnitude.size then some (some (written (magnitude % 2 ^ bits)))
              else kept
            | _ => kept

def canonicalFloatValue (text : List Char) : Option (List Char) :=
  match numbers.floatText text with
  | .ok canonical => if canonical ≠ text then some canonical else none
  | .error _ => none

/-- `canonical_text`: `none` where an expectation fails. -/
def canonicalText (kind : DomainKind) (sort : S) (value : List UInt8) :
    Option (Option (List Char)) :=
  match kind with
  | .int => some (Lib.Utf8.decode value >>= canonicalIntText numbers)
  | .mint width =>
    match Lib.Utf8.decode value with
    | none => some none
    | some text => canonicalMintText numbers width sort text
  | .float => some (Lib.Utf8.decode value >>= canonicalFloatValue numbers)
  | .bool | .string | .bytes | .token => some none

/-- `validate_text` -/
def validateText (kind : DomainKind) (sort : S) (value : List UInt8) : Except TextRejection Unit :=
  let text := Lib.Utf8.decode value
  let noElement reason := .error (.namesNoElement reason)
  match kind with
  | .int => if text.any isDecimalInteger then .ok () else noElement .notALiteral
  | .bool =>
    if text = some "true".toList ∨ text = some "false".toList then .ok ()
    else noElement .notALiteral
  | .mint width =>
    match width, mintWidthDigits sort with
    | .noWidth, _ | _, none => noElement .noWidth
    | _, some digits =>
      match text >>= MIntLiteral.parse with
      | none => noElement .notALiteral
      | some literal =>
        if !literal.namesWidth digits then noElement .otherWidth
        else if literal.isNegative && mintWidthBeyondBound width then
          .error (.beyondBound (.mintResidue maxIntResultBits))
        else .ok ()
  | .float =>
    match text.map numbers.floatBitsEstimate with
    | some (.ok _) => .ok ()
    | none | some (.error .notALiteral) => noElement .notALiteral
    | some (.error .zeroFormatField) => noElement .noFloatFormat
    | some (.error .uncomputedFormat) => .error (.beyondBound .floatFormat)
    | some (.error (.beyondBound estimateBits)) =>
      .error (.beyondBound (.floatCanonicalText numbers.maxFloatCanonicalBits estimateBits))
  | .bytes =>
    if !isNullary sort bytesSort && !text.any (fun text => text.all (fun c => c.toNat ≤ 0xff)) then
      noElement .notALiteral
    else .ok ()
  | .string | .token => .ok ()

end CanonicalText

end KRust.Domain
