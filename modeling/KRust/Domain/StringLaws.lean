import KRust.Domain.String
import KRust.Kore.LiteralLaws

/-!
The literal of a string or of bytes is read back as the value it was written for.
-/

set_option linter.unusedSectionVars false

namespace KRust.Domain

open KRust.Kore

section Digits

theorem readDigits_append {value : Nat} {digits rest : List Char} {result : Nat}
    (h : digits.foldlM (fun value c => do
      let digit ← hexValue c
      return value * 16 + digit) value = some result) (truncated invalid : String) :
    readDigits 16 hexValue truncated invalid digits.length value (digits ++ rest) =
      .ok (result, rest) := by
  induction digits generalizing value with
  | nil =>
    obtain rfl := Option.some.inj h
    rfl
  | cons c digits ih =>
    rw [List.foldlM_cons] at h
    rw [List.length_cons, List.cons_append, readDigits]
    cases hvalue : hexValue c with
    | none =>
      rw [hvalue] at h
      cases h
    | some digit =>
      rw [hvalue] at h
      exact ih h

theorem foldlM_digits {digits n value : Nat} (hn : n < 16 ^ digits) :
    (hexDigits digits n).foldlM (fun value c => do
      let digit ← hexValue c
      return value * 16 + digit) value = some (value * 16 ^ digits + n) := by
  induction digits generalizing n value with
  | zero =>
    obtain rfl : n = 0 := by
      rw [Nat.pow_zero] at hn
      omega
    simp [hexDigits]
  | succ digits ih =>
    have hdiv : n / 16 < 16 ^ digits := by
      rw [Nat.pow_succ] at hn
      exact Nat.div_lt_of_lt_mul (by omega)
    rw [hexDigits, List.foldlM_append, ih hdiv]
    simp only [Option.bind_eq_bind, Option.bind_some, List.foldlM_cons, List.foldlM_nil,
      hexValue_hexDigit_all _ (Nat.mod_lt n (by decide))]
    have hsplit := Nat.div_add_mod n 16
    have hpow : (value * 16 ^ digits + n / 16) * 16 + n % 16 = value * 16 ^ (digits + 1) + n := by
      rw [Nat.pow_succ, Nat.add_mul, Nat.mul_assoc, Nat.add_assoc]
      omega
    rw [hpow]
    rfl

theorem readHex_hexDigits {digits n : Nat} (hn : n < 16 ^ digits) (rest : List Char) :
    readHex digits (hexDigits digits n ++ rest) = .ok (n, rest) := by
  have hdigits : (hexDigits digits n).foldlM (fun value c => do
      let digit ← hexValue c
      return value * 16 + digit) 0 = some n := by
    rw [foldlM_digits hn, Nat.zero_mul, Nat.zero_add]
  have hread : readDigits 16 hexValue "truncated Unicode escape" "invalid Unicode escape"
      (hexDigits digits n).length 0 (hexDigits digits n ++ rest) = .ok (n, rest) :=
    readDigits_append hdigits _ _
  rw [length_hexDigits] at hread
  exact hread

end Digits

section Reading

variable {α : Type} {ofCharacter : Char → List α} {ofHex : Nat → Nat → Except String (List α)}
  {ofOctal : Nat → Except String (List α)} {ofNamed : Char → List α}

theorem unquoteFrom_plain {c : Char} (h : c ≠ '\\') (rest : List Char) (output : List α) :
    unquoteFrom ofCharacter ofHex ofOctal ofNamed (c :: rest) output =
      unquoteFrom ofCharacter ofHex ofOctal ofNamed rest (output ++ ofCharacter c) := by
  rw [unquoteFrom.eq_def]
  simp only [ne_eq, h, not_false_eq_true, if_true]

theorem unquoteFrom_escape {escape : Char} {characters rest : List Char} {added : List α}
    (h : readEscape ofNamed ofHex ofOctal escape characters = .ok (added, rest))
    (output : List α) :
    unquoteFrom ofCharacter ofHex ofOctal ofNamed ('\\' :: escape :: characters) output =
      unquoteFrom ofCharacter ofHex ofOctal ofNamed rest (output ++ added) := by
  rw [unquoteFrom]
  simp only [ne_eq, not_true_eq_false, if_false]
  split
  · rename_i e herr
    rw [h] at herr
    cases herr
  · rename_i added' rest' hok
    rw [h] at hok
    cases hok
    rfl

theorem escapeKind_named {letter c : Char} (h : (letter, c) ∈ namedEscapes) :
    escapeKind letter = .ok (.named c) := by
  have hall : ∀ named ∈ namedEscapes, escapeKind named.1 = .ok (.named named.2) := by decide
  exact hall (letter, c) h

theorem escapeKind_hex {letter : Char} {digits : Nat} (h : (letter, digits) ∈ hexEscapes) :
    escapeKind letter = .ok (.hex digits) := by
  have hall : ∀ hex ∈ hexEscapes, escapeKind hex.1 = .ok (.hex hex.2) := by decide
  exact hall (letter, digits) h

theorem unquoteFrom_named {letter c : Char} (h : (letter, c) ∈ namedEscapes) (rest : List Char)
    (output : List α) :
    unquoteFrom ofCharacter ofHex ofOctal ofNamed (['\\', letter] ++ rest) output =
      unquoteFrom ofCharacter ofHex ofOctal ofNamed rest (output ++ ofNamed c) := by
  apply unquoteFrom_escape
  rw [readEscape, escapeKind_named h]
  rfl

theorem unquoteFrom_hex {letter : Char} {digits n : Nat} (h : (letter, digits) ∈ hexEscapes)
    (hn : n < 16 ^ digits) {added : List α} (hadded : ofHex digits n = .ok added)
    (rest : List Char) (output : List α) :
    unquoteFrom ofCharacter ofHex ofOctal ofNamed ('\\' :: letter :: hexDigits digits n ++ rest)
        output =
      unquoteFrom ofCharacter ofHex ofOctal ofNamed rest (output ++ added) := by
  rw [List.cons_append, List.cons_append]
  apply unquoteFrom_escape
  rw [readEscape, escapeKind_hex h]
  simp only [readHex_hexDigits hn, hadded]
  rfl

/-- What is written item by item is read item by item. -/
theorem unquoteFrom_flatMap {ι : Type} {write : ι → List Char} {store : ι → List α}
    (h : ∀ i rest output, unquoteFrom ofCharacter ofHex ofOctal ofNamed (write i ++ rest) output =
      unquoteFrom ofCharacter ofHex ofOctal ofNamed rest (output ++ store i))
    (items : List ι) (output : List α) :
    unquoteFrom ofCharacter ofHex ofOctal ofNamed (items.flatMap write) output =
      .ok (output ++ items.flatMap store) := by
  induction items generalizing output with
  | nil => simp [unquoteFrom]
  | cons i items ih =>
    rw [List.flatMap_cons, h, ih, List.flatMap_cons, List.append_assoc]

theorem between_quoted (body : List Char) : between ('"' :: body ++ ['"']) = .ok body := by
  have hlast : ('"' :: body ++ ['"']).getLast? = some '"' := List.getLast?_concat
  have hquote : byteLength ['"'] = 1 := rfl
  have hfirst : byteLength ('"' :: body) = 1 + byteLength body := by
    rw [byteLength_cons]
    rfl
  have hlength : ¬ byteLength ('"' :: body ++ ['"']) < 2 := by
    rw [byteLength_append]
    omega
  have hwhole : ¬ (('"' :: body ++ ['"']).head? ≠ some '"' ∨
      ('"' :: body ++ ['"']).getLast? ≠ some '"' ∨ byteLength ('"' :: body ++ ['"']) < 2) := by
    rw [hlast]
    rintro (h | h | h)
    · exact h rfl
    · exact h rfl
    · exact hlength h
  rw [between, if_neg hwhole, List.cons_append, List.tail_cons, List.dropLast_concat]

end Reading

section Texts

/-- A literal writes a code point by its letter, as itself, or in the digits that hold it. -/
theorem quoteCharacter_cases (c : Char) :
    (∃ letter, (letter, c) ∈ namedEscapes ∧ quoteCharacter c = ['\\', letter]) ∨
    (quoteCharacter c = [c] ∧ c ≠ '\\') ∨
    ∃ letter digits, (letter, digits) ∈ hexEscapes ∧ c.toNat < 16 ^ digits ∧
      quoteCharacter c = '\\' :: letter :: hexDigits digits c.toNat := by
  unfold quoteCharacter
  split
  · exact .inl ⟨'"', by decide, rfl⟩
  · exact .inl ⟨'\\', by decide, rfl⟩
  · exact .inl ⟨'n', by decide, rfl⟩
  · exact .inl ⟨'r', by decide, rfl⟩
  · exact .inl ⟨'t', by decide, rfl⟩
  · exact .inl ⟨'f', by decide, rfl⟩
  · rename_i hslash _ _ _ _
    right
    split
    · exact .inl ⟨rfl, hslash⟩
    · have hbound : c.toNat < 2 ^ 32 := c.val.toNat_lt
      right
      split
      · exact ⟨'x', 2, by decide, by omega, rfl⟩
      · split
        · exact ⟨'u', 4, by decide, by omega, rfl⟩
        · exact ⟨'U', 8, by decide, by omega, rfl⟩

theorem scalar_toNat (invalid : String) (c : Char) : scalar invalid c.toNat = .ok c := by
  have hvalid : c.toNat.isValidChar := c.valid
  rw [scalar, charFromU32, if_pos hvalid, Char.ofNat_toNat]

theorem unquoteText_quote (value : List Char) : unquoteText (quote value) = .ok value := by
  have hitem : ∀ c rest output,
      unquoteFrom (fun c => [c])
          (fun _ value => (scalar "invalid Unicode scalar" value).map fun c => [c])
          (fun value => (scalar "invalid octal scalar" value).map fun c => [c]) (fun c => [c])
          (quoteCharacter c ++ rest) output =
        unquoteFrom (fun c => [c])
          (fun _ value => (scalar "invalid Unicode scalar" value).map fun c => [c])
          (fun value => (scalar "invalid octal scalar" value).map fun c => [c]) (fun c => [c])
          rest (output ++ [c]) := by
    intro c rest output
    rcases quoteCharacter_cases c with ⟨letter, hmem, hwritten⟩ | ⟨hwritten, hslash⟩ |
      ⟨letter, digits, hmem, hn, hwritten⟩
    · rw [hwritten, unquoteFrom_named hmem]
    · rw [hwritten, List.singleton_append, unquoteFrom_plain hslash]
    · rw [hwritten, unquoteFrom_hex hmem hn]
      rw [scalar_toNat]
      rfl
  rw [unquoteText, quote, between_quoted]
  simp only []
  rw [unquoteFrom_flatMap hitem]
  simp

end Texts

section Bytes

/-- A literal writes a byte by its letter, as the character of its value, or in two digits. -/
theorem quoteByte_cases (byte : UInt8) :
    (∃ letter c, (letter, c) ∈ namedEscapes ∧ c.toNat = byte.toNat ∧
      quoteByte byte = ['\\', letter]) ∨
    (quoteByte byte = [charOfByte byte] ∧ charOfByte byte ≠ '\\' ∧ byte.toNat < 128) ∨
    quoteByte byte = '\\' :: 'x' :: hexDigits 2 byte.toNat := by
  unfold quoteByte
  split
  · rename_i h
    exact .inl ⟨'"', '"', by decide, by rw [h]; rfl, rfl⟩
  split
  · rename_i h
    exact .inl ⟨'\\', '\\', by decide, by rw [h]; rfl, rfl⟩
  split
  · rename_i h
    exact .inl ⟨'n', '\n', by decide, by rw [h]; rfl, rfl⟩
  split
  · rename_i h
    exact .inl ⟨'r', '\r', by decide, by rw [h]; rfl, rfl⟩
  split
  · rename_i h
    exact .inl ⟨'t', '\t', by decide, by rw [h]; rfl, rfl⟩
  split
  · rename_i h
    exact .inl ⟨'f', '\x0c', by decide, by rw [h]; rfl, rfl⟩
  right
  split
  · rename_i hslash _ _ _ _ hrange
    refine .inl ⟨rfl, fun heq => hslash ?_, ?_⟩
    · have hnat := congrArg Char.toNat heq
      rw [charOfByte_toNat] at hnat
      exact UInt8.toNat_inj.mp hnat
    · have hle : byte.toNat ≤ 126 := hrange.2
      omega
  · exact .inr rfl

theorem utf8EncodeChar_charOfByte {byte : UInt8} (h : byte.toNat < 128) :
    String.utf8EncodeChar (charOfByte byte) = [byte] := by
  have hvalue : (charOfByte byte).val.toNat = byte.toNat := charOfByte_toNat byte
  have hone : (charOfByte byte).utf8Size = 1 := by
    rw [Char.utf8Size_eq_one_iff, UInt32.le_iff_toNat_le, hvalue]
    exact Nat.le_of_lt_succ h
  have hsame : (charOfByte byte).val.toUInt8 = byte := by
    apply UInt8.toNat_inj.mp
    rw [UInt32.toNat_toUInt8, hvalue]
    omega
  rw [String.utf8EncodeChar_eq_singleton hone, hsame]

theorem unquoteBytes_quoteBytes (value : List UInt8) :
    unquoteBytes (quoteBytes value) = .ok value := by
  have hitem : ∀ byte rest output,
      unquoteFrom String.utf8EncodeChar
          (fun digits value =>
            if digits ≤ byteDigits then .ok [UInt8.ofNat value]
            else (scalar "invalid Unicode scalar" value).map String.utf8EncodeChar)
          (fun value =>
            if value < 256 then .ok [UInt8.ofNat value]
            else .error "octal byte escape out of range")
          (fun character => [UInt8.ofNat character.toNat]) (quoteByte byte ++ rest) output =
        unquoteFrom String.utf8EncodeChar
          (fun digits value =>
            if digits ≤ byteDigits then .ok [UInt8.ofNat value]
            else (scalar "invalid Unicode scalar" value).map String.utf8EncodeChar)
          (fun value =>
            if value < 256 then .ok [UInt8.ofNat value]
            else .error "octal byte escape out of range")
          (fun character => [UInt8.ofNat character.toNat]) rest (output ++ [byte]) := by
    intro byte rest output
    rcases quoteByte_cases byte with ⟨letter, c, hmem, hvalue, hwritten⟩ |
      ⟨hwritten, hslash, hascii⟩ | hwritten
    · rw [hwritten, unquoteFrom_named hmem, hvalue, UInt8.ofNat_toNat]
    · rw [hwritten, List.singleton_append, unquoteFrom_plain hslash,
        utf8EncodeChar_charOfByte hascii]
    · have hn : byte.toNat < 16 ^ 2 := byte.toNat_lt
      rw [hwritten, unquoteFrom_hex (by decide) hn]
      simp [byteDigits]
  rw [unquoteBytes, quoteBytes, between_quoted]
  simp only []
  rw [unquoteFrom_flatMap hitem]
  simp

end Bytes

/-- The literals of every string and of all bytes are read back. -/
theorem literals_read_back (text : List Char) (bytes : List UInt8) :
    unquoteText (quote text) = .ok text ∧ unquoteBytes (quoteBytes bytes) = .ok bytes :=
  ⟨unquoteText_quote text, unquoteBytes_quoteBytes bytes⟩

end KRust.Domain
