import KRust.Kore.Ast
import KRust.Kore.Lexical
import KRust.Lib.CodeUnits
import KRust.Lib.Radix

/-!
K's encoding of K names as KORE identifiers and its inverse. Letters, digits and `-` stay; every
other UTF-16 unit becomes a mnemonic of four characters or four hexadecimal digits, and the units
of a run share one pair of apostrophes.
-/

namespace KRust.Kast.Identifier

open Lib Lib.CodeUnits
open Kore (VariableKind)

/-- The words that the lexer of KORE reserves. -/
def keywords : List (List Char) :=
  ["module".toList, "endmodule".toList, "import".toList, "sort".toList, "hooked-sort".toList,
    "symbol".toList, "hooked-symbol".toList, "axiom".toList, "claim".toList, "alias".toList,
    "where".toList]

def keywordCode : List Char := "Kywd".toList

/-- The mnemonic of each unit that has one. -/
def table : List (Nat × List Char) :=
  [(0x20, "Spce".toList), (0x21, "Bang".toList), (0x22, "Quot".toList), (0x23, "Hash".toList),
    (0x24, "Dolr".toList), (0x25, "Perc".toList), (0x26, "And-".toList), (0x27, "Apos".toList),
    (0x28, "LPar".toList), (0x29, "RPar".toList), (0x2a, "Star".toList), (0x2b, "Plus".toList),
    (0x2c, "Comm".toList), (0x2e, "Stop".toList), (0x2f, "Slsh".toList), (0x3a, "Coln".toList),
    (0x3b, "SCln".toList), (0x3c, "-LT-".toList), (0x3d, "Eqls".toList), (0x3e, "-GT-".toList),
    (0x3f, "Ques".toList), (0x40, "-AT-".toList), (0x5b, "LSqB".toList), (0x5c, "Bash".toList),
    (0x5d, "RSqB".toList), (0x5e, "Xor-".toList), (0x5f, "Unds".toList), (0x60, "BQuo".toList),
    (0x7b, "LBra".toList), (0x7c, "Pipe".toList), (0x7d, "RBra".toList), (0x7e, "Tild".toList)]

/-- Why a text does not decode. -/
inductive DecodeError where
  | invalidUtf16 (encoded : List Char)
  | truncated (encoded : List Char)
  | unknownCode (code : List Char)
  | unterminated (encoded : List Char)
  | missingSortPrefix (encoded : List Char)
  deriving DecidableEq

section Encoding

def isIdentifierUnit (unit : Nat) : Bool :=
  (decide (unit ≤ 255) && (Char.ofNat unit).isAlphanum) || unit == '-'.toNat

def mnemonic (unit : Nat) : Option (List Char) := (table.find? fun row => row.1 == unit).map Prod.snd

def unitForCode (code : List Char) : Option Nat :=
  (table.find? fun row => row.2 == code).map Prod.fst

/-- `{unit:04x}` -/
def hexadecimal (unit : Nat) : List Char :=
  List.replicate (4 - (Radix.digits 16 unit).length) '0' ++ Radix.digits 16 unit

/-- The text so far, and whether it is outside a run. -/
def encodeUnit (state : List Char × Bool) (unit : Nat) : List Char × Bool :=
  let (encoded, inIdentifier) := state
  if isIdentifierUnit unit then
    let encoded := if inIdentifier then encoded else encoded ++ ['\'']
    (encoded ++ [Char.ofNat unit], true)
  else
    let encoded := if inIdentifier then encoded ++ ['\''] else encoded
    match mnemonic unit with
    | some mnemonic => (encoded ++ mnemonic, false)
    | none => (encoded ++ hexadecimal unit, false)

def encode (name : List Char) : List Char :=
  if keywords.contains name then name ++ '\'' :: keywordCode ++ ['\'']
  else
    let (encoded, inIdentifier) := (name.flatMap utf16Units).foldl encodeUnit ([], true)
    if inIdentifier then encoded else encoded ++ ['\'']

end Encoding

section Decoding

/-- `get(..count)`: the characters of that many bytes, and the rest; `none` where there are fewer
bytes or a character is cut. -/
def takeBytes : Nat → List Char → Option (List Char × List Char)
  | 0, text => some ([], text)
  | _ + 1, [] => none
  | count + 1, c :: text =>
    if c.utf8Size ≤ count + 1 then
      (takeBytes (count + 1 - c.utf8Size) text).map fun (taken, rest) => (c :: taken, rest)
    else none

theorem takeBytes_eq {count : Nat} {text taken rest : List Char}
    (h : takeBytes count text = some (taken, rest)) : text = taken ++ rest := by
  fun_induction takeBytes count text generalizing taken rest with
  | case1 text =>
    cases h
    rfl
  | case2 => cases h
  | case3 count c text hsize ih =>
    obtain ⟨⟨taken', rest'⟩, htaken, heq⟩ := Option.map_eq_some_iff.mp h
    cases heq
    rw [ih htaken, List.cons_append]
  | case4 => cases h

theorem takeBytes_pos {count : Nat} (hcount : count ≠ 0) {text taken rest : List Char}
    (h : takeBytes count text = some (taken, rest)) : rest.length < text.length := by
  fun_cases takeBytes count text with
  | case1 => exact absurd rfl hcount
  | case2 =>
    rw [takeBytes] at h
    cases h
  | case3 count c text hsize =>
    rw [takeBytes, if_pos hsize] at h
    obtain ⟨⟨taken', rest'⟩, htaken, heq⟩ := Option.map_eq_some_iff.mp h
    cases heq
    rw [takeBytes_eq htaken, List.length_cons, List.length_append]
    omega
  | case4 count c text hsize =>
    rw [takeBytes, if_neg hsize] at h
    cases h

/-- A code without a plus sign before its digits. -/
def unsigned : List Char → List Char
  | '+' :: first :: rest => first :: rest
  | code => code

/-- `u16::from_str_radix(code, 16)` -/
def fromHexadecimal (code : List Char) : Option Nat :=
  let digits := unsigned code
  if !digits.isEmpty && digits.all (Radix.isDigit 16) && decide (Radix.value 16 digits < 0x10000) then
    some (Radix.value 16 digits)
  else none

/-- The code at the start of a text: the unit that it adds, if any, and the rest of the text. -/
def readCode (encoded text : List Char) : Except DecodeError (List Nat × List Char) :=
  match takeBytes 4 text with
  | none => .error (.truncated encoded)
  | some (code, rest) =>
    match fromHexadecimal code with
    | some unit => .ok ([unit], rest)
    | none =>
      if code = keywordCode then .ok ([], rest)
      else
        match unitForCode code with
        | some unit => .ok ([unit], rest)
        | none => .error (.unknownCode code)

theorem readCode_lt {encoded text rest : List Char} {added : List Nat}
    (h : readCode encoded text = .ok (added, rest)) : rest.length < text.length := by
  unfold readCode at h
  split at h
  · cases h
  · rename_i code rest' htaken
    have hlt := takeBytes_pos (by decide) htaken
    split at h
    · cases h
      exact hlt
    · split at h
      · cases h
        exact hlt
      · split at h
        · cases h
          exact hlt
        · cases h

/-- The loop over the rest of a text: the name so far, the units of the run that is open, and
whether none is. -/
def decodeFrom (encoded : List Char) (output : List Char) (units : List Nat) (literal : Bool)
    (text : List Char) : Except DecodeError (List Char) :=
  match text with
  | [] => if literal then .ok output else .error (.unterminated encoded)
  | c :: rest =>
    if c = '\'' then
      if literal then decodeFrom encoded output units false rest
      else
        match ofUtf16 units with
        | some run => decodeFrom encoded (output ++ run) [] true rest
        | none => .error (.invalidUtf16 encoded)
    else if literal then decodeFrom encoded (output ++ [c]) units literal rest
    else
      match _hread : readCode encoded (c :: rest) with
      | .ok (added, rest) => decodeFrom encoded output (units ++ added) literal rest
      | .error e => .error e
termination_by text.length
decreasing_by
  all_goals first | exact readCode_lt _hread | simp

def decode (encoded : List Char) : Except DecodeError (List Char) :=
  decodeFrom encoded [] [] true encoded

end Decoding

section Prefixes

def labelPrefix : List Char := "Lbl".toList
def sortPrefix : List Char := "Sort".toList
def variablePrefix : List Char := "Var".toList
def setVariableSigil : Char := '@'

/-- `strip_prefix` -/
def strip : List Char → List Char → Option (List Char)
  | [], text => some text
  | _ :: _, [] => none
  | c :: start, d :: text => if c = d then strip start text else none

def encodeLabel (name : List Char) : List Char := labelPrefix ++ encode name

def decodeLabel (encoded : List Char) : Except DecodeError (List Char) :=
  decode ((strip labelPrefix encoded).getD encoded)

def labelOrName (encoded : List Char) : List Char := (decodeLabel encoded).toOption.getD encoded

def encodeSortName (name : List Char) : List Char := sortPrefix ++ encode name

def decodeSortName (encoded : List Char) : Except DecodeError (List Char) :=
  match strip sortPrefix encoded with
  | some name => decode name
  | none => .error (.missingSortPrefix encoded)

def encodeVariable (name : List Char) (kind : VariableKind) : List Char :=
  match kind with
  | .element => variablePrefix ++ encode name
  | .set => setVariableSigil :: variablePrefix ++ encode name

def decodeVariable (encoded : List Char) : VariableKind × Except DecodeError (List Char) :=
  let (kind, name) :=
    match strip [setVariableSigil] encoded with
    | some name => (.set, name)
    | none => (.element, encoded)
  (kind, decode ((strip variablePrefix name).getD name))

end Prefixes

end KRust.Kast.Identifier
