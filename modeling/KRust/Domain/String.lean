import KRust.Kore.Literal

/-!
The string and byte literals of K: the text that quotes a value and the reading of a token, by
which a token denotes its value. A text is its list of characters.
-/

set_option linter.unusedSectionVars false

namespace KRust.Domain

open KRust.Kore

section Definitions

/-- The escapes that name a code point by a letter. -/
def namedEscapes : List (Char × Char) :=
  [('"', '"'), ('\\', '\\'), ('n', '\n'), ('r', '\r'), ('t', '\t'), ('f', '\x0c')]

/-- The escapes that give a number in so many hexadecimal digits. -/
def hexEscapes : List (Char × Nat) := [('x', 2), ('u', 4), ('U', 8)]

/-- The most digits of an escape that gives one byte. -/
def byteDigits : Nat := 2

def octalDigits : Nat := 3

def quoteCharacter (character : Char) : List Char :=
  match character with
  | '"' => ['\\', '"']
  | '\\' => ['\\', '\\']
  | '\n' => ['\\', 'n']
  | '\r' => ['\\', 'r']
  | '\t' => ['\\', 't']
  | '\x0c' => ['\\', 'f']
  | character =>
    if ' ' ≤ character ∧ character ≤ '~' then [character]
    else if character.toNat ≤ 0xff then '\\' :: 'x' :: hexDigits 2 character.toNat
    else if character.toNat ≤ 0xffff then '\\' :: 'u' :: hexDigits 4 character.toNat
    else '\\' :: 'U' :: hexDigits 8 character.toNat

def quote (value : List Char) : List Char := '"' :: value.flatMap quoteCharacter ++ ['"']

def quoteByte (byte : UInt8) : List Char :=
  if byte = 0x22 then ['\\', '"']
  else if byte = 0x5c then ['\\', '\\']
  else if byte = 0x0a then ['\\', 'n']
  else if byte = 0x0d then ['\\', 'r']
  else if byte = 0x09 then ['\\', 't']
  else if byte = 0x0c then ['\\', 'f']
  else if 0x20 ≤ byte ∧ byte ≤ 0x7e then [charOfByte byte]
  else '\\' :: 'x' :: hexDigits 2 byte.toNat

/-- `quote_bytes` -/
def quoteBytes (value : List UInt8) : List Char := '"' :: value.flatMap quoteByte ++ ['"']

/-- What a backslash and a character begin. -/
inductive Escape where
  | named (character : Char)
  | hex (digits : Nat)
  | octal
  deriving DecidableEq

def escapeKind (escape : Char) : Except String Escape :=
  match namedEscapes.find? fun named => named.1 = escape with
  | some (_, character) => .ok (.named character)
  | none =>
    match hexEscapes.find? fun hex => hex.1 = escape with
    | some (_, digits) => .ok (.hex digits)
    | none => if escape.isDigit then .ok .octal else .error "unsupported escape"

/-- `char::to_digit` in base eight. -/
def octalValue (c : Char) : Option Nat :=
  if '0' ≤ c ∧ c ≤ '7' then some (c.toNat - '0'.toNat) else none

/-- The digits of a number that are still to come, after those with the given value. -/
def readDigits (base : Nat) (digitValue : Char → Option Nat) (truncated invalid : String) :
    Nat → Nat → List Char → Except String (Nat × List Char)
  | 0, value, characters => .ok (value, characters)
  | _ + 1, _, [] => .error truncated
  | count + 1, value, c :: characters =>
    match digitValue c with
    | none => .error invalid
    | some digit => readDigits base digitValue truncated invalid count (value * base + digit) characters

/-- `read_octal`: the number of the escape whose first digit is given. -/
def readOctal (first : Char) (characters : List Char) : Except String (Nat × List Char) :=
  readDigits 8 octalValue "truncated octal escape" "invalid octal escape" octalDigits 0
    (first :: characters)

def readHex (digits : Nat) (characters : List Char) : Except String (Nat × List Char) :=
  readDigits 16 hexValue "truncated Unicode escape" "invalid Unicode escape" digits 0 characters

theorem readDigits_length {base count value result : Nat} {digitValue : Char → Option Nat}
    {truncated invalid : String} {characters rest : List Char}
    (h : readDigits base digitValue truncated invalid count value characters = .ok (result, rest)) :
    rest.length + count = characters.length := by
  induction count generalizing value characters with
  | zero =>
    rw [readDigits] at h
    cases h
    rfl
  | succ count ih =>
    cases characters with
    | nil => cases h
    | cons c characters =>
      rw [readDigits] at h
      split at h
      · cases h
      · have := ih h
        rw [List.length_cons]
        omega

theorem readHex_length {digits n : Nat} {characters rest : List Char}
    (h : readHex digits characters = .ok (n, rest)) : rest.length ≤ characters.length := by
  have := readDigits_length h
  omega

theorem readOctal_length {first : Char} {n : Nat} {characters rest : List Char}
    (h : readOctal first characters = .ok (n, rest)) : rest.length ≤ characters.length := by
  have := readDigits_length h
  rw [List.length_cons, octalDigits] at this
  omega

/-- What a literal's escape adds to the value, and the text after it. -/
def readEscape {α : Type} (ofNamed : Char → List α) (ofHex : Nat → Nat → Except String (List α))
    (ofOctal : Nat → Except String (List α)) (escape : Char) (characters : List Char) :
    Except String (List α × List Char) :=
  match escapeKind escape with
  | .error e => .error e
  | .ok (.named character) => .ok (ofNamed character, characters)
  | .ok (.hex digits) =>
    match readHex digits characters with
    | .error e => .error e
    | .ok (value, rest) => (ofHex digits value).map fun added => (added, rest)
  | .ok .octal =>
    match readOctal escape characters with
    | .error e => .error e
    | .ok (value, rest) => (ofOctal value).map fun added => (added, rest)

theorem readEscape_length {α : Type} {ofNamed : Char → List α}
    {ofHex : Nat → Nat → Except String (List α)} {ofOctal : Nat → Except String (List α)}
    {escape : Char} {characters rest : List Char} {added : List α}
    (h : readEscape ofNamed ofHex ofOctal escape characters = .ok (added, rest)) :
    rest.length ≤ characters.length := by
  unfold readEscape at h
  cases hkind : escapeKind escape with
  | error e =>
    rw [hkind] at h
    cases h
  | ok kind =>
    rw [hkind] at h
    cases kind with
    | named character =>
      cases h
      exact Nat.le_refl _
    | hex digits =>
      cases hread : readHex digits characters with
      | error e =>
        simp only [hread] at h
        cases h
      | ok read =>
        simp only [hread] at h
        cases hadded : ofHex digits read.1 with
        | error e =>
          rw [hadded] at h
          cases h
        | ok added =>
          rw [hadded] at h
          cases h
          exact readHex_length hread
    | octal =>
      cases hread : readOctal escape characters with
      | error e =>
        simp only [hread] at h
        cases h
      | ok read =>
        simp only [hread] at h
        cases hadded : ofOctal read.1 with
        | error e =>
          rw [hadded] at h
          cases h
        | ok added =>
          rw [hadded] at h
          cases h
          exact readOctal_length hread

/-- The loop over the characters between the quotation marks. -/
def unquoteFrom {α : Type} (ofCharacter : Char → List α)
    (ofHex : Nat → Nat → Except String (List α)) (ofOctal : Nat → Except String (List α))
    (ofNamed : Char → List α) (characters : List Char) (output : List α) :
    Except String (List α) :=
  match characters with
  | [] => .ok output
  | character :: characters =>
    if character ≠ '\\' then
      unquoteFrom ofCharacter ofHex ofOctal ofNamed characters (output ++ ofCharacter character)
    else
      match characters with
      | [] => .error "truncated escape"
      | escape :: characters =>
        match _h : readEscape ofNamed ofHex ofOctal escape characters with
        | .error e => .error e
        | .ok (added, rest) =>
          unquoteFrom ofCharacter ofHex ofOctal ofNamed rest (output ++ added)
termination_by characters.length
decreasing_by
  · simp
  · have := readEscape_length _h
    simp only [List.length_cons]
    omega

/-- The characters between the quotation marks of a token. -/
def between (input : List Char) : Except String (List Char) :=
  if input.head? ≠ some '"' ∨ input.getLast? ≠ some '"' ∨ byteLength input < 2 then
    .error "expected a double-quoted string"
  else .ok input.tail.dropLast

def scalar (invalid : String) (value : Nat) : Except String Char :=
  match charFromU32 value with
  | some c => .ok c
  | none => .error invalid

/-- `unquote_text` -/
def unquoteText (input : List Char) : Except String (List Char) :=
  match between input with
  | .error e => .error e
  | .ok body =>
    unquoteFrom (fun c => [c])
      (fun _ value => (scalar "invalid Unicode scalar" value).map fun c => [c])
      (fun value => (scalar "invalid octal scalar" value).map fun c => [c]) (fun c => [c]) body []

/-- `unquote_bytes`: a number of at most two digits is one byte. -/
def unquoteBytes (input : List Char) : Except String (List UInt8) :=
  match between input with
  | .error e => .error e
  | .ok body =>
    unquoteFrom String.utf8EncodeChar
      (fun digits value =>
        if digits ≤ byteDigits then .ok [UInt8.ofNat value]
        else (scalar "invalid Unicode scalar" value).map String.utf8EncodeChar)
      (fun value =>
        if value < 256 then .ok [UInt8.ofNat value] else .error "octal byte escape out of range")
      (fun character => [UInt8.ofNat character.toNat]) body []

end Definitions

end KRust.Domain
