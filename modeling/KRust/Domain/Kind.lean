import KRust.Json.Fields

/-!
The width of a machine-integer sort, read from the name of its argument.
-/

set_option linter.unusedSectionVars false

namespace KRust.Domain

/-- A sort as a domain value reads it: the application of a constructor, or a sort variable. -/
class DomainSort (S : Type) where
  asApplication : S → Option (List Char × List S)
  hasVariable : S → Bool

/-- A sort without arguments. -/
structure Nullary where
  name : List Char

instance : DomainSort Nullary where
  asApplication sort := some (sort.name, [])
  hasVariable _ := false

def intSort : List Char := "SortInt".toList

def boolSort : List Char := "SortBool".toList

/-- `BYTES_SORT` -/
def bytesSort : List Char := "SortBytes".toList

/-- `MINT_SORT` -/
def mintSort : List Char := "SortMInt".toList

inductive MIntWidth where
  | bits (count : Nat)
  | unrepresentable
  | noWidth
  deriving DecidableEq

/-- How the domain values of a sort denote its elements. -/
inductive DomainKind where
  | int
  | mint (width : MIntWidth)
  | bool
  | string
  | bytes
  | float
  | token
  deriving DecidableEq

section Widths

variable {S : Type} [DomainSort S]

/-- `numeral_sort_digits` -/
def numeralSortDigits (sort : S) : Option (List Char) := do
  let (name, arguments) ← DomainSort.asApplication sort
  let digits ← "Sort".toList.isPrefixOf? name
  if arguments.isEmpty && !digits.isEmpty && digits.all Char.isDigit then some digits else none

/-- `mint_width` -/
def mintWidth (sort : S) : Option MIntWidth :=
  match DomainSort.asApplication sort with
  | some (name, [argument]) =>
    if name ≠ mintSort ∨ DomainSort.hasVariable argument = true then none
    else
      match numeralSortDigits argument with
      | none => some .noWidth
      | some digits =>
        match Json.Fields.parseUnsigned 64 digits with
        | some count => some (.bits count)
        | none => some .unrepresentable
  | _ => none

/-- `mint_width_digits` -/
def mintWidthDigits (sort : S) : Option (List Char) :=
  match DomainSort.asApplication sort with
  | some (name, [argument]) => if name = mintSort then numeralSortDigits argument else none
  | _ => none

theorem numeralSortDigits_digits {sort : S} {digits : List Char}
    (h : numeralSortDigits sort = some digits) :
    digits ≠ [] ∧ ∀ c ∈ digits, c.isDigit = true := by
  rw [numeralSortDigits] at h
  simp only [Option.bind_eq_bind, Option.bind_eq_some_iff] at h
  obtain ⟨⟨name, arguments⟩, -, found, -, hdigits⟩ := h
  split at hdigits
  · rename_i hall
    cases hdigits
    simp only [Bool.and_eq_true, Bool.not_eq_true', List.isEmpty_eq_false_iff, List.all_eq_true]
      at hall
    exact ⟨hall.1.2, hall.2⟩
  · cases hdigits

theorem mintWidthDigits_digits {sort : S} {digits : List Char}
    (h : mintWidthDigits sort = some digits) :
    digits ≠ [] ∧ ∀ c ∈ digits, c.isDigit = true := by
  unfold mintWidthDigits at h
  split at h
  · split at h
    · exact numeralSortDigits_digits h
    · cases h
  · cases h

/-- `str::parse` of digits alone, in a word of 64 bits. -/
theorem parseUnsigned_of_digits {digits : List Char} (hne : digits ≠ [])
    (hall : ∀ c ∈ digits, c.isDigit = true) :
    Json.Fields.parseUnsigned 64 digits =
      if Nat.ofDigitChars 10 digits 0 < 2 ^ 64 then some (Nat.ofDigitChars 10 digits 0)
      else none := by
  have hdigits : digits.all Char.isDigit = true := List.all_eq_true.mpr hall
  unfold Json.Fields.parseUnsigned
  split
  · rename_i rest
    exact absurd (hall '+' List.mem_cons_self) (by decide)
  · simp [hne, hdigits]

/-- The width that a sort has is the number that its digits name, where a machine word holds it. -/
theorem mintWidth_digits {sort : S} {width : MIntWidth} (h : mintWidth sort = some width) :
    match width with
    | .bits count => ∃ digits, mintWidthDigits sort = some digits ∧
        Nat.ofDigitChars 10 digits 0 = count
    | .unrepresentable => ∃ digits, mintWidthDigits sort = some digits ∧
        2 ^ 64 ≤ Nat.ofDigitChars 10 digits 0
    | .noWidth => mintWidthDigits sort = none := by
  unfold mintWidth at h
  cases happlication : DomainSort.asApplication sort with
  | none =>
    rw [happlication] at h
    cases h
  | some application =>
    obtain ⟨name, arguments⟩ := application
    match arguments with
    | [] | _ :: _ :: _ =>
      rw [happlication] at h
      cases h
    | [argument] =>
      simp only [happlication] at h
      split at h
      · cases h
      · rename_i hsort
        have hname : name = mintSort := not_not.mp (not_or.mp hsort).1
        have hread : mintWidthDigits sort = numeralSortDigits argument := by
          simp only [mintWidthDigits, happlication, hname, if_true]
        rw [hread]
        cases hdigits : numeralSortDigits argument with
        | none =>
          rw [hdigits] at h
          cases h
          rfl
        | some digits =>
          obtain ⟨hne, hall⟩ := numeralSortDigits_digits hdigits
          simp only [hdigits, parseUnsigned_of_digits hne hall] at h
          by_cases hsmall : Nat.ofDigitChars 10 digits 0 < 2 ^ 64
          · simp only [hsmall, if_true] at h
            cases h
            exact ⟨digits, rfl, rfl⟩
          · simp only [hsmall, if_false] at h
            cases h
            exact ⟨digits, rfl, not_lt.mp hsmall⟩

/-- `is_nullary` -/
def isNullary (sort : S) (name : List Char) : Bool :=
  match DomainSort.asApplication sort with
  | some (found, []) => found = name
  | _ => false

/-- `DomainKind::of_declared_sort` -/
def DomainKind.ofDeclaredSort (sort : S) (hasDomainValues : Bool) (hook : Option String) :
    Option DomainKind :=
  if !hasDomainValues then none
  else if isNullary sort intSort then some .int
  else if isNullary sort boolSort then some .bool
  else
    match hook with
    | some "INT.Int" => some .int
    | some "BOOL.Bool" => some .bool
    | some "STRING.String" => some .string
    | some "BYTES.Bytes" => some .bytes
    | some "FLOAT.Float" => some .float
    | some "MINT.MInt" =>
      match mintWidth sort with
      | none => none
      | some .noWidth => none
      | some width => some (.mint width)
    | _ => some .token

end Widths

end KRust.Domain
