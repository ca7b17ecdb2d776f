import KRust.Regex.Classes

/-!
The texts of classes and of `.` for a Flex scanner and for the Rust engine, and what they stand for:
a text for Flex for byte strings, a text for the Rust engine for characters.
-/

set_option linter.unusedSectionVars false

namespace KRust.Regex

open KRust.Lib

section Flex

/-- What is written for a class: the class itself, or its one-byte characters as a class of bytes
beside the sequences of byte ranges of the others. -/
inductive FlexClass where
  | written (members : List CharClass)
  | bytes (ascii : List (UInt8 × UInt8)) (sequences : List (List (UInt8 × UInt8)))

/-- `print_flex_utf8_set` -/
def flexUtf8Set (set : List (Nat × Nat)) : FlexClass := .bytes (asciiRanges set) (longSequences set)

def isAsciiMember : CharClass → Bool
  | .char c => decide (c.toNat ≤ 0x7F)
  | .range first last => decide (first.toNat ≤ 0x7F) && decide (last.toNat ≤ 0x7F)

/-- `print_flex_class` of a class, for a scanner. -/
def flexClass (negated : Bool) (members : List CharClass) : FlexClass :=
  if !negated && members.all isAsciiMember then .written members
  else flexUtf8Set (classScalarRanges negated members)

/-- `print_flex_class` of `.`, for a scanner. -/
def flexAnyChar : FlexClass :=
  flexUtf8Set (complementScalarRanges [('\n'.toNat, '\n'.toNat)])

def hexDigit (n : Nat) : Char := (Nat.digitChar n).toUpper

/-- `print_flex_byte` -/
def printFlexByte (byte : UInt8) : List Char :=
  ['\\', 'x', hexDigit (byte.toNat / 16), hexDigit (byte.toNat % 16)]

/-- `print_flex_character` in a class. -/
def printFlexCharacter (c : Char) : List Char :=
  match c with
  | '\n' => "\\n".toList
  | '\r' => "\\r".toList
  | '\t' => "\\t".toList
  | c => if c ∈ ['^', '-', '\\', '[', ']', ' '] then ['\\', c] else [c]

/-- `print_flex_class_member` -/
def printFlexClassMember : CharClass → List Char
  | .char c => printFlexCharacter c
  | .range first last => printFlexCharacter first ++ '-' :: printFlexCharacter last

/-- A range in the class of the one-byte characters. -/
def printFlexClassRange (range : UInt8 × UInt8) : List Char :=
  printFlexByte range.1 ++ if range.1 < range.2 then '-' :: printFlexByte range.2 else []

/-- A range in a sequence. -/
def printFlexRange (range : UInt8 × UInt8) : List Char :=
  if range.1 = range.2 then printFlexByte range.1
  else '[' :: printFlexByte range.1 ++ '-' :: printFlexByte range.2 ++ [']']

/-- What is written into the output. -/
def FlexClass.text : FlexClass → List Char
  | .written members => '[' :: members.flatMap printFlexClassMember ++ [']']
  | .bytes ascii sequences =>
    let alternatives :=
      (if ascii.isEmpty then [] else ['[' :: ascii.flatMap printFlexClassRange ++ [']']]) ++
        sequences.map (·.flatMap printFlexRange)
    if alternatives.isEmpty then "[^\\x00-\\xFF]".toList
    else '(' :: List.intercalate ['|'] alternatives ++ [')']

/-- The bytes that a member of a class stands for. -/
def memberBytes : CharClass → UInt8 × UInt8
  | .char c => (UInt8.ofNat c.toNat, UInt8.ofNat c.toNat)
  | .range first last => (UInt8.ofNat first.toNat, UInt8.ofNat last.toNat)

/-- The alternatives, each a sequence of classes of bytes. -/
def FlexClass.alternatives : FlexClass → List (List (List (UInt8 × UInt8)))
  | .written members => [[members.map memberBytes]]
  | .bytes ascii sequences =>
    (if ascii.isEmpty then [] else [[ascii]]) ++ sequences.map (·.map ([·]))

/-- One byte is taken from each class. -/
def Takes (classes : List (List (UInt8 × UInt8))) (bytes : List UInt8) : Prop :=
  List.Forall₂ (fun cls byte => ∃ range ∈ cls, range.1 ≤ byte ∧ byte ≤ range.2) classes bytes

def FlexClass.Matches (cls : FlexClass) (bytes : List UInt8) : Prop :=
  ∃ classes ∈ cls.alternatives, Takes classes bytes

/-- No byte string is matched twice. -/
def FlexClass.Disjoint (cls : FlexClass) : Prop :=
  cls.alternatives.Pairwise fun one other => ∀ bytes, Takes one bytes → ¬ Takes other bytes

end Flex

section Rust

/-- `char::from_u32` -/
def fromU32 (value : Nat) : Option Char :=
  if value.isValidChar then some (Char.ofNat value) else none

/-- What is written for the Rust engine: `.`, the class itself, or ranges of characters. -/
inductive RustClass where
  | anyChar
  | written (members : List CharClass)
  | ranges (characters : List (Char × Char))

/-- The scalar values of a range, without the surrogates. -/
def withoutSurrogates (range : Nat × Nat) : List (Nat × Nat) :=
  [(range.1, min range.2 (surrogates.1 - 1)), (max range.1 (surrogates.2 + 1), range.2)].filter
    fun part => part.1 ≤ part.2

/-- `print_rust_negated_class`; `none` where the source panics. -/
def rustNegatedClass (members : List CharClass) : Option RustClass := do
  let characters ← ((classScalarRanges true members).flatMap withoutSurrogates).mapM fun range => do
    return (← fromU32 range.1, ← fromU32 range.2)
  return .ranges characters

/-- `print_rust_regex` of a class. -/
def rustClass (negated : Bool) (members : List CharClass) : Option RustClass :=
  if negated then rustNegatedClass members else some (.written members)

/-- `char::is_control` -/
def isControl (c : Char) : Bool := decide (c.toNat < 0x20) || (decide (0x7F ≤ c.toNat) && decide (c.toNat < 0xA0))

/-- `print_rust_character` in a class. -/
def printRustCharacter (c : Char) : List Char :=
  match c with
  | '\n' => "\\n".toList
  | '\r' => "\\r".toList
  | '\t' => "\\t".toList
  | c =>
    if isControl c then
      "\\x\x7b".toList ++ (Nat.toDigits 16 c.toNat).map Char.toUpper ++ ['\x7d']
    else if c ∈ ['\\', '[', ']', '^', '-', '&', '~'] then ['\\', c] else [c]

def printRustMember : CharClass → List Char
  | .char c => printRustCharacter c
  | .range first last => printRustCharacter first ++ '-' :: printRustCharacter last

def printRustRange (range : Char × Char) : List Char :=
  printRustCharacter range.1 ++
    if range.1.toNat < range.2.toNat then '-' :: printRustCharacter range.2 else []

/-- What is written into the output. -/
def RustClass.text : RustClass → List Char
  | .anyChar => ['.']
  | .written members => '[' :: members.flatMap printRustMember ++ [']']
  | .ranges characters =>
    if characters.isEmpty then "[^\\x\x7b0\x7d-\\x\x7b10FFFF\x7d]".toList
    else '[' :: characters.flatMap printRustRange ++ [']']

end Rust

section Meaning

/-- The characters a member stands for, none where it is a descending range. -/
def MemberContains : CharClass → Char → Prop
  | .char d, c => c = d
  | .range first last, c => first.toNat ≤ c.toNat ∧ c.toNat ≤ last.toNat

/-- The characters of a class, or those that are not in it. -/
def InClass (negated : Bool) (members : List CharClass) (c : Char) : Prop :=
  (∃ member ∈ members, MemberContains member c) ↔ negated = false

def RustClass.Denotes : RustClass → Char → Prop
  | .anyChar, c => c ≠ '\n'
  | .written members, c => InClass false members c
  | .ranges characters, c =>
    ∃ range ∈ characters, range.1.toNat ≤ c.toNat ∧ c.toNat ≤ range.2.toNat

end Meaning

end KRust.Regex
