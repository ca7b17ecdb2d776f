import KRust.Builtin.Hooks
import KRust.Domain.IntegerTextLaws
import KRust.Lib.Radix
import KRust.Lib.TwosComplement

/-!
What the hooks rely on of the library of integers, and integers that are read and written as its
documentation says.
-/

namespace KRust.Builtin

open KRust.Lib
open KRust.Domain (splitSign printInt isNumeral numeralValue decimal_printInt isNumeral_of_decimal)
open Decimal (IsDigits)

/-- The integer that a sign and the digits after it name. -/
def signedValue (radix : Nat) (text : List Char) : Int :=
  let (sign, digits) := splitSign text
  if sign = some '-' then -Radix.value radix digits else Radix.value radix digits

structure BigInts.Documented (bigInts : BigInts) : Prop where
  parse : ∀ text, bigInts.parse text = if isNumeral text then some (numeralValue text) else none
  parseNat : ∀ digits, IsDigits digits → bigInts.parseNat digits = some (Decimal.value digits)
  toSignedBytesLe : ∀ n, TwosComplement.signed (bigInts.toSignedBytesLe n) = n
  /-- Digits of the radix after a sign, where there is one. -/
  parseBytes : ∀ radix, 2 ≤ radix → radix ≤ 36 → ∀ text, (splitSign text).2 ≠ [] →
    (splitSign text).2.all (Radix.isDigit radix) = true →
      bigInts.parseBytes (Utf8.encode text) radix = some (signedValue radix text)
  toStrRadix : ∀ radix, 2 ≤ radix → radix ≤ 36 → ∀ n, bigInts.toStrRadix n radix =
    if n < 0 then '-' :: Radix.digits radix n.natAbs else Radix.digits radix n.natAbs

variable {bigInts : BigInts}

theorem BigInts.Documented.parse_printInt (h : bigInts.Documented) (n : Int) :
    bigInts.parse (printInt n) = some n := by
  obtain ⟨hnumeral, -, hvalue⟩ := isNumeral_of_decimal (decimal_printInt n)
  rw [h.parse, if_pos hnumeral, hvalue]

theorem BigInts.Documented.readInt_intTerm (h : bigInts.Documented) (n : Int) :
    readInt bigInts (intTerm n) = some n := by
  simp only [intTerm, readInt, if_true, Utf8.decode_encode, Option.bind_some, h.parse_printInt]

/-- Integers read and written digit by digit. -/
def schoolbook : BigInts where
  parse text := if isNumeral text then some (numeralValue text) else none
  parseNat digits := if IsDigits digits then some (Decimal.value digits) else none
  toSignedBytesLe := TwosComplement.shortest
  parseBytes bytes radix := (Utf8.decode bytes).bind fun text =>
    if (splitSign text).2 ≠ [] ∧ (splitSign text).2.all (Radix.isDigit radix) = true then
      some (signedValue radix text)
    else none
  toStrRadix n radix :=
    if n < 0 then '-' :: Radix.digits radix n.natAbs else Radix.digits radix n.natAbs

theorem schoolbook_documented : schoolbook.Documented where
  parse _ := rfl
  parseNat _ h := if_pos h
  toSignedBytesLe := TwosComplement.signed_shortest
  parseBytes radix _ _ text hne hall := by
    change (Utf8.decode (Utf8.encode text)).bind _ = _
    rw [Utf8.decode_encode, Option.bind_some, if_pos ⟨hne, hall⟩]
  toStrRadix _ _ _ _ := rfl

/-- A process of 64 bits with a gibibyte, whose caller sets no bound, asks for no stop and samples
nothing. -/
def unbounded : Environment where
  resultBound := none
  allowanceBytes := 2 ^ 30
  allowanceSource := "the memory of the machine"
  targetBytesResultLen := 2 ^ 59
  pointerWidth := .bits64
  describeBytes n := toString n ++ " bytes"
  stopped _ := false
  samplingSeed := none

end KRust.Builtin
