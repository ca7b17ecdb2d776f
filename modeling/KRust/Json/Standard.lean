import Mathlib.Tactic.IntervalCases
import KRust.Json.TreeLaws

/-!
A serialization library that keeps the promises: strings are written with the escapes of
JSON, control characters by two letters or by their code.
-/

set_option linter.unusedSectionVars false

namespace KRust.Json.Standard

open KRust.Lib

section Strings

/-- The escapes that are one letter. -/
def letters : List (Char × Char) :=
  [('"', '"'), ('\\', '\\'), ('\x08', 'b'), ('\x0c', 'f'), ('\n', 'n'), ('\r', 'r'), ('\t', 't')]

def hexDigits : List Char := "0123456789abcdef".toList

def escapeChar (c : Char) : List Char :=
  match letters.find? (·.1 = c) with
  | some (_, letter) => ['\\', letter]
  | none =>
    if c.toNat < 0x20 then
      ['\\', 'u', '0', '0', hexDigits.getD (c.toNat / 16) '0', hexDigits.getD (c.toNat % 16) '0']
    else [c]

def hexValue (digits : List Char) : Option Nat :=
  digits.foldlM (fun value c => (hexDigits.idxOf? c).map (16 * value + ·)) 0

/-- The characters that the text between two quotes stands for. -/
def unescape : List Char → Except String (List Char)
  | [] => .ok []
  | '\\' :: 'u' :: a :: b :: c :: d :: rest =>
    match hexValue [a, b, c, d] with
    | some value => (Char.ofNat value :: ·) <$> unescape rest
    | none => .error "invalid escape"
  | '\\' :: letter :: rest =>
    match letters.find? (·.2 = letter) with
    | some (c, _) => (c :: ·) <$> unescape rest
    | none => .error "invalid escape"
  | c :: rest => (c :: ·) <$> unescape rest

def writeString (value : String) : List Char := '"' :: value.toList.flatMap escapeChar ++ ['"']

def readString (token : List Char) : Except String String :=
  String.ofList <$> unescape (token.drop 1).dropLast

def readNumber (token : List Char) : Except String Unit :=
  if !token.isEmpty && token.all Char.isDigit then .ok () else .error "invalid number"

/-- The compact formatter writes the marks and nothing else. -/
def compact : Formatter Unit where
  beginArray s := (s, ['['])
  endArray s := (s, [']'])
  beginArrayValue first s := (s, if first then [] else [','])
  endArrayValue s := (s, [])
  beginObject s := (s, ['\x7b'])
  endObject s := (s, ['\x7d'])
  beginObjectKey first s := (s, if first then [] else [','])
  endObjectKey s := (s, [])
  beginObjectValue s := (s, [':'])
  endObjectValue s := (s, [])

end Strings

def library : Serializer where
  reader := ⟨readNumber, readString⟩
  writer :=
    { null := "null".toList
      bool := fun value => (if value then "true" else "false").toList
      number := id
      string := writeString }
  compact := compact

section Laws

/-- What the characters that a string may not hold are written as: an escape that gives the
character back. -/
theorem escapeChar_control {n : Nat} (h : n < 0x20) :
    (∀ body, StringBody body → StringBody (escapeChar (Char.ofNat n) ++ body)) ∧
      ∀ rest, unescape (escapeChar (Char.ofNat n) ++ rest)
        = (Char.ofNat n :: ·) <$> unescape rest := by
  have hdigit {d : Char} {body : List Char} (hd : d ∈ hexDigits) (hbody : StringBody body) :
      StringBody (d :: body) := by
    have hplain : ∀ d ∈ hexDigits, 0x20 ≤ d.toNat ∧ d ≠ '"' ∧ d ≠ '\\' :=
      List.forall_iff_forall_mem.mp (by decide)
    obtain ⟨hc, hquote, hescape⟩ := hplain d hd
    exact .plain hc hquote hescape hbody
  interval_cases n
  all_goals
    constructor
    · intro body hbody
      first
      | exact .escape hbody
      | exact .escape (hdigit (by decide) (hdigit (by decide)
          (hdigit (by decide) (hdigit (by decide) hbody))))
    · intro rest
      rfl

theorem escapeChar_special {c : Char} (h : c.toNat < 0x20 ∨ c = '"' ∨ c = '\\') :
    (∀ body, StringBody body → StringBody (escapeChar c ++ body)) ∧
      ∀ rest, unescape (escapeChar c ++ rest) = (c :: ·) <$> unescape rest := by
  rcases h with h | rfl | rfl
  · have hcontrol := escapeChar_control h
    rwa [Char.ofNat_toNat] at hcontrol
  · exact ⟨fun _ hbody => .escape hbody, fun _ => rfl⟩
  · exact ⟨fun _ hbody => .escape hbody, fun _ => rfl⟩

theorem escapeChar_plain {c : Char} (hc : 0x20 ≤ c.toNat) (hquote : c ≠ '"') (hescape : c ≠ '\\') :
    escapeChar c = [c] := by
  have hfind : letters.find? (·.1 = c) = none := by
    rw [List.find?_eq_none]
    rintro ⟨d, letter⟩ hmem heq
    obtain rfl : d = c := by simpa using heq
    have hletters : ∀ entry ∈ letters,
        entry.1.toNat < 0x20 ∨ entry.1 = '"' ∨ entry.1 = '\\' := by decide
    rcases hletters _ hmem with hlt | heq | heq
    · exact absurd hlt (Nat.not_lt.mpr hc)
    · exact hquote heq
    · exact hescape heq
  simp only [escapeChar, hfind]
  rw [if_neg (Nat.not_lt.mpr hc)]

theorem unescape_plain {c : Char} (hescape : c ≠ '\\') (rest : List Char) :
    unescape (c :: rest) = (c :: ·) <$> unescape rest := by
  rw [unescape]
  · exact fun _ _ _ _ _ heq _ => hescape heq
  · exact fun _ _ heq _ => hescape heq

/-- The body of a string token is a body, and stands for the characters of the string. -/
theorem unescape_escape (value : List Char) :
    StringBody (value.flatMap escapeChar) ∧ unescape (value.flatMap escapeChar) = .ok value := by
  induction value with
  | nil => exact ⟨.nil, rfl⟩
  | cons c value ih =>
    obtain ⟨hbody, hread⟩ := ih
    rw [List.flatMap_cons]
    by_cases h : c.toNat < 0x20 ∨ c = '"' ∨ c = '\\'
    · obtain ⟨hstring, hunescape⟩ := escapeChar_special h
      refine ⟨hstring _ hbody, ?_⟩
      rw [hunescape, hread]
      rfl
    · rw [not_or, not_or, Nat.not_lt] at h
      rw [escapeChar_plain h.1 h.2.1 h.2.2, List.singleton_append]
      refine ⟨.plain h.1 h.2.1 h.2.2 hbody, ?_⟩
      rw [unescape_plain h.2.2, hread]
      rfl

theorem unescape_of_plain {body : List Char} (h : '\\' ∉ body) : unescape body = .ok body := by
  induction body with
  | nil => rfl
  | cons c body ih =>
    rw [List.mem_cons, not_or] at h
    rw [unescape_plain (Ne.symm h.1), ih h.2]
    rfl

theorem readString_quoted (body : List Char) :
    readString ('"' :: body ++ ['"']) = String.ofList <$> unescape body := by
  rw [readString, List.cons_append, List.drop_succ_cons, List.drop_zero, List.dropLast_concat]

theorem compact_lawful : compact.Lawful where
  beginArray _ := rfl
  endArray _ := ⟨[], blank_nil, rfl⟩
  beginArrayValue _ _ := ⟨[], blank_nil, (List.append_nil _).symm⟩
  endArrayValue _ := blank_nil
  beginObject _ := rfl
  endObject _ := ⟨[], blank_nil, rfl⟩
  beginObjectKey _ _ := ⟨[], blank_nil, (List.append_nil _).symm⟩
  endObjectKey _ := blank_nil
  beginObjectValue _ := ⟨[], [], blank_nil, blank_nil, rfl⟩
  endObjectValue _ := blank_nil

theorem library_faithful : library.Faithful where
  null := rfl
  bool value := rfl
  number token := rfl
  string_token value := ⟨_, rfl, (unescape_escape value.toList).1⟩
  string_read value := by
    show readString (writeString value) = _
    rw [writeString, readString_quoted, (unescape_escape value.toList).2]
    exact congrArg Except.ok String.ofList_toList
  string_plain body hbody := by
    show readString _ = _
    rw [readString_quoted, unescape_of_plain fun hmem => (hbody _ hmem).2.2 rfl]
    rfl
  natural n _ := by
    have hdigits : (Nat.toDigits 10 n).all Char.isDigit = true :=
      List.all_eq_true.mpr fun c hc => Nat.isDigit_of_mem_toDigits (by decide) (by decide) hc
    have hne : (Nat.toDigits 10 n).isEmpty = false := by
      rw [List.isEmpty_eq_false_iff]
      exact Nat.toDigits_ne_nil
    show readNumber _ = _
    rw [readNumber, hdigits, hne]
    rfl
  compact := compact_lawful

end Laws

end KRust.Json.Standard
