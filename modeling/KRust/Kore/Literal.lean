import KRust.Kore.Ast
import KRust.Lib.Utf8

/-!
String literals of KORE: the payload a literal stores by its encoding, the text that
quotes it and the reading of that text. A text is its list of characters; offsets
count its UTF-8 bytes.
-/

set_option linter.unusedSectionVars false

namespace KRust.Kore

open KRust.Lib

section Definitions

/-- How a payload stores the code points of a literal. -/
inductive LiteralEncoding where
  | utf8
  | bytes
  deriving DecidableEq

/-- The escapes that name a code point by a letter. -/
def namedEscapes : List (Char × Char) :=
  [('"', '"'), ('\\', '\\'), ('\n', 'n'), ('\r', 'r'), ('\t', 't'), ('\x0c', 'f')]

/-- The escapes that give a code point in so many hexadecimal digits, shortest first. -/
def hexEscapes : List (Char × Nat) := [('x', 2), ('u', 4), ('U', 8)]

/-- `BuiltinSort::Bytes.kore_name()`. -/
def bytesSortName : String := "SortBytes"

def LiteralEncoding.ofDomainValue : KoreSort → LiteralEncoding
  | .application name arguments =>
    if arguments.isEmpty = true ∧ name = bytesSortName then .bytes else .utf8
  | .var _ => .utf8

/-- `char::from` of a byte. -/
def charOfByte (byte : UInt8) : Char := Char.ofNat byte.toNat

/-- The code points of bytes read as text: each UTF-8 sequence its character, and a byte
that begins none the code point of its value. -/
def textFromBytes (bytes : List UInt8) : List Char :=
  match _h : Utf8.next bytes with
  | some (c, rest) => c :: textFromBytes rest
  | none =>
    match bytes with
    | [] => []
    | byte :: rest => charOfByte byte :: textFromBytes rest
termination_by bytes.length
decreasing_by
  · exact Utf8.length_of_next _h
  · simp

/-- The payload of an encoding that holds the same code points. -/
def canonical (value : KoreString) : LiteralEncoding → KoreString
  | .bytes => value
  | .utf8 =>
    if (Utf8.decode value).isSome then value else Utf8.encode (textFromBytes value)

/-- The code points a payload of an encoding holds. -/
def LiteralEncoding.codePoints (encoding : LiteralEncoding) (value : KoreString) : List Char :=
  match encoding with
  | .bytes => value.map charOfByte
  | .utf8 =>
    match Utf8.decode value with
    | some text => text
    | none => textFromBytes value

structure StringError where
  offset : Nat
  message : String
  deriving DecidableEq

/-- The bytes of a text. -/
def byteLength (text : List Char) : Nat := (text.map Char.utf8Size).sum

/-- `char::is_control`: the category Cc. -/
def isControl (c : Char) : Bool := c.toNat < 0x20 || (0x7f ≤ c.toNat && c.toNat < 0xa0)

/-- The first bytes of a text, when they end a character. -/
def takeBytes : Nat → List Char → Option (List Char × List Char)
  | 0, text => some ([], text)
  | _ + 1, [] => none
  | n + 1, c :: text =>
    if c.utf8Size ≤ n + 1 then
      (takeBytes (n + 1 - c.utf8Size) text).map fun (taken, rest) => (c :: taken, rest)
    else none
termination_by _ text => text.length

/-- The value of a hexadecimal digit in either case. -/
def hexValue (c : Char) : Option Nat :=
  if '0' ≤ c ∧ c ≤ '9' then some (c.toNat - '0'.toNat)
  else if 'a' ≤ c ∧ c ≤ 'f' then some (c.toNat - 'a'.toNat + 10)
  else if 'A' ≤ c ∧ c ≤ 'F' then some (c.toNat - 'A'.toNat + 10)
  else none

/-- `u32::from_str_radix` in base sixteen: an optional sign `+`, then at least one digit,
within the bounds of the type. -/
def fromStrRadix16 (src : List Char) : Option Nat :=
  let digits := match src with
    | '+' :: rest => rest
    | _ => src
  if digits = [] then none
  else digits.foldlM (fun value c => do
    let digit ← hexValue c
    if value * 16 + digit < 2 ^ 32 then some (value * 16 + digit) else none) 0

/-- `char::from_u32`: a Unicode scalar value. -/
def charFromU32 (n : Nat) : Option Char :=
  if n.isValidChar then some (Char.ofNat n) else none

/-- `read_code_point`: the code point of the hexadecimal digits ahead, and the text after
them. -/
def readCodePoint (body : List Char) (digits escapeOffset : Nat) :
    Except StringError (Char × List Char) :=
  match takeBytes digits body with
  | none => .error ⟨escapeOffset, "truncated Unicode escape"⟩
  | some (hex, rest) =>
    match fromStrRadix16 hex with
    | none => .error ⟨escapeOffset, "invalid Unicode escape"⟩
    | some codePoint =>
      match charFromU32 codePoint with
      | none => .error ⟨escapeOffset, "invalid Unicode scalar value"⟩
      | some c => .ok (c, rest)

theorem takeBytes_length {n : Nat} {text taken rest : List Char}
    (h : takeBytes n text = some (taken, rest)) : rest.length ≤ text.length := by
  fun_induction takeBytes n text generalizing taken with
  | case1 text =>
    cases h
    exact Nat.le_refl _
  | case2 => cases h
  | case3 n c text hfit ih =>
    obtain ⟨pair, hpair, heq⟩ := Option.map_eq_some_iff.mp h
    cases heq
    have := ih hpair
    simp only [List.length_cons]
    omega
  | case4 => cases h

theorem readCodePoint_length {body rest : List Char} {digits offset : Nat} {c : Char}
    (h : readCodePoint body digits offset = .ok (c, rest)) : rest.length ≤ body.length := by
  unfold readCodePoint at h
  split at h
  · cases h
  · rename_i htake
    split at h
    · cases h
    · split at h
      · cases h
      · cases h
        exact takeBytes_length htake

/-- The bytes a code point adds to the payload. -/
def pushCodePoint (encoding : LiteralEncoding) (c : Char) (offset : Nat) :
    Except StringError (List UInt8) :=
  match encoding with
  | .utf8 => .ok (String.utf8EncodeChar c)
  | .bytes =>
    if c.toNat < 256 then .ok [UInt8.ofNat c.toNat]
    else .error ⟨offset, "code point above U+00FF in a Bytes literal"⟩

/-- The loop of `unquote_as` over the rest of the body, which starts at `offset`. -/
def unquoteFrom (encoding : LiteralEncoding) (body : List Char) (offset : Nat)
    (result : List UInt8) : Except StringError KoreString :=
  match body with
  | [] => .ok result
  | c :: rest =>
    if c ≠ '\\' then
      if isControl c then .error ⟨offset, "non-printable character in string"⟩
      else
        match pushCodePoint encoding c offset with
        | .error e => .error e
        | .ok bytes => unquoteFrom encoding rest (offset + c.utf8Size) (result ++ bytes)
    else
      match rest with
      | [] => .error ⟨offset + 1, "truncated escape"⟩
      | escape :: rest =>
        match namedEscapes.find? (fun named => named.2 = escape) with
        | some (character, _) =>
          match pushCodePoint encoding character (offset + 1) with
          | .error e => .error e
          | .ok bytes =>
            unquoteFrom encoding rest (offset + 1 + escape.utf8Size) (result ++ bytes)
        | none =>
          match hexEscapes.find? (fun hex => hex.1 = escape) with
          | none => .error ⟨offset + 1, "unknown escape"⟩
          | some (_, digits) =>
            match _h : readCodePoint rest digits (offset + 1) with
            | .error e => .error e
            | .ok (character, rest) =>
              match pushCodePoint encoding character (offset + 1) with
              | .error e => .error e
              | .ok bytes =>
                unquoteFrom encoding rest (offset + 1 + escape.utf8Size + digits)
                  (result ++ bytes)
termination_by body.length
decreasing_by
  · simp only [List.length_cons]
    omega
  · simp only [List.length_cons]
    omega
  · have := readCodePoint_length _h
    simp only [List.length_cons]
    omega

/-- `unquote_as`: the payload of the literal `input` in an encoding. -/
def unquoteAs (input : List Char) (encoding : LiteralEncoding) : Except StringError KoreString :=
  if input.head? ≠ some '"' then .error ⟨0, "expected opening quote"⟩
  else if byteLength input < 2 ∨ input.getLast? ≠ some '"' then
    .error ⟨byteLength input, "expected closing quote"⟩
  else unquoteFrom encoding input.tail.dropLast 0 []

def unquote (input : List Char) : Except StringError KoreString := unquoteAs input .utf8

/-- A hexadecimal digit, in lower case. -/
def hexDigit (n : Nat) : Char :=
  if n < 10 then Char.ofNat ('0'.toNat + n) else Char.ofNat ('a'.toNat + (n - 10))

/-- A number below `16 ^ digits` in exactly so many hexadecimal digits. -/
def hexDigits : Nat → Nat → List Char
  | 0, _ => []
  | digits + 1, n => hexDigits digits (n / 16) ++ [hexDigit (n % 16)]

/-- `push_quoted`: the text a literal writes for a code point. -/
def pushQuoted (character : Char) : List Char :=
  match namedEscapes.find? (fun named => named.1 = character) with
  | some (_, letter) => ['\\', letter]
  | none =>
    if ' ' ≤ character ∧ character ≤ '~' then [character]
    else
      match hexEscapes.find? (fun hex => character.toNat >>> (4 * hex.2) = 0) with
      | some (letter, digits) => '\\' :: letter :: hexDigits digits character.toNat
      -- eight digits hold every code point
      | none => []

/-- `quote_as`: the literal of a payload of an encoding. -/
def quoteAs (value : KoreString) (encoding : LiteralEncoding) : List Char :=
  '"' :: (match encoding with
    | .bytes => value.flatMap fun byte => pushQuoted (charOfByte byte)
    | .utf8 =>
      match Utf8.decode value with
      | some text => text.flatMap pushQuoted
      | none => (textFromBytes value).flatMap pushQuoted) ++ ['"']

def quote (value : KoreString) : List Char := quoteAs value .utf8

end Definitions

end KRust.Kore
