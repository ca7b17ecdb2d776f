import KRust.Kore.LexerLaws

/-!
Quoting and reading a literal: the text of every payload is one string token, and
reading it gives the payload that holds the same code points.
-/

set_option linter.unusedSectionVars false

namespace KRust.Kore

open KRust.Lib

section Hexadecimal

theorem hexValue_hexDigit_all : ∀ d < 16, hexValue (hexDigit d) = some d := by decide

theorem utf8Size_hexDigit_all : ∀ d < 16, (hexDigit d).utf8Size = 1 := by decide

theorem hexDigit_ne_plus_all : ∀ d < 16, hexDigit d ≠ '+' := by decide

/-- The digits of a number are hexadecimal digits. -/
theorem hexDigits_mem {digits n : Nat} {c : Char} (h : c ∈ hexDigits digits n) :
    ∃ d < 16, c = hexDigit d := by
  induction digits generalizing n with
  | zero => cases h
  | succ digits ih =>
    rw [hexDigits, List.mem_append, List.mem_singleton] at h
    rcases h with h | rfl
    · exact ih h
    · exact ⟨n % 16, Nat.mod_lt _ (by decide), rfl⟩

theorem length_hexDigits (digits n : Nat) : (hexDigits digits n).length = digits := by
  induction digits generalizing n with
  | zero => rfl
  | succ digits ih => simp [hexDigits, ih]

theorem byteLength_hexDigits (digits n : Nat) : byteLength (hexDigits digits n) = digits := by
  induction digits generalizing n with
  | zero => rfl
  | succ digits ih =>
    have hsize := utf8Size_hexDigit_all (n % 16) (Nat.mod_lt _ (by decide))
    rw [hexDigits, byteLength_append, ih]
    simp [byteLength, hsize]

/-- The reading of digits one by one, within the bound of the type. -/
theorem foldlM_hexDigits {digits n value : Nat} (hn : n < 16 ^ digits)
    (hbound : value * 16 ^ digits + n < 2 ^ 32) :
    (hexDigits digits n).foldlM (fun value c => do
      let digit ← hexValue c
      if value * 16 + digit < 2 ^ 32 then some (value * 16 + digit) else none) value
      = some (value * 16 ^ digits + n) := by
  induction digits generalizing n value with
  | zero =>
    have : n = 0 := by simpa using hn
    simp [hexDigits, this]
  | succ digits ih =>
    have hpow : value * 16 ^ (digits + 1) = value * 16 ^ digits * 16 := by
      rw [Nat.pow_succ, Nat.mul_assoc]
    have hhigh : n / 16 < 16 ^ digits := by
      rw [Nat.pow_succ] at hn
      exact Nat.div_lt_of_lt_mul (by omega)
    have hvalue : (value * 16 ^ digits + n / 16) * 16 + n % 16 = value * 16 ^ (digits + 1) + n := by
      omega
    rw [hexDigits, List.foldlM_append, ih hhigh (by omega)]
    have hdigit := hexValue_hexDigit_all (n % 16) (Nat.mod_lt _ (by decide))
    simpa [hdigit, hvalue] using hbound

theorem fromStrRadix16_hexDigits {digits n : Nat} (hpos : digits ≠ 0) (hn : n < 16 ^ digits)
    (hbound : n < 2 ^ 32) : fromStrRadix16 (hexDigits digits n) = some n := by
  have hfold := foldlM_hexDigits hn (show 0 * 16 ^ digits + n < 2 ^ 32 by omega)
  rw [Nat.zero_mul, Nat.zero_add] at hfold
  have hne : hexDigits digits n ≠ [] := by
    intro h
    have := length_hexDigits digits n
    rw [h] at this
    exact hpos this.symm
  unfold fromStrRadix16
  split
  · rename_i rest hplus
    obtain ⟨d, hd, heq⟩ := hexDigits_mem (hplus ▸ List.mem_cons_self : '+' ∈ hexDigits digits n)
    exact absurd heq.symm (hexDigit_ne_plus_all d hd)
  · rw [if_neg hne, hfold]

theorem takeBytes_byteLength (text rest : List Char) :
    takeBytes (byteLength text) (text ++ rest) = some (text, rest) := by
  induction text with
  | nil => simp [byteLength, takeBytes]
  | cons c text ih =>
    have hpos := c.utf8Size_pos
    obtain ⟨n, hn⟩ : ∃ n, byteLength (c :: text) = n + 1 :=
      ⟨c.utf8Size + byteLength text - 1, by rw [byteLength_cons]; omega⟩
    rw [hn, List.cons_append, takeBytes, if_pos (by rw [byteLength_cons] at hn; omega)]
    have hrest : n + 1 - c.utf8Size = byteLength text := by
      rw [byteLength_cons] at hn
      omega
    rw [hrest, ih]
    rfl

/-- The digits a literal writes for a code point are read back as that code point. -/
theorem readCodePoint_hexDigits {c : Char} {digits : Nat} (offset : Nat) (rest : List Char)
    (hpos : digits ≠ 0) (hn : c.toNat < 16 ^ digits) :
    readCodePoint (hexDigits digits c.toNat ++ rest) digits offset = .ok (c, rest) := by
  have htake := takeBytes_byteLength (hexDigits digits c.toNat) rest
  rw [byteLength_hexDigits] at htake
  have hvalid : c.toNat.isValidChar := c.valid
  have hbound : c.toNat < 2 ^ 32 := c.val.toNat_lt
  have hchar : charFromU32 c.toNat = some c := by
    rw [charFromU32, if_pos hvalid, Char.ofNat_toNat]
  simp only [readCodePoint, htake, fromStrRadix16_hexDigits hpos hn hbound, hchar]

theorem scanHexDigits_append {text : List Char} (h : ∀ c ∈ text, (hexValue c).isSome)
    (escapeOffset offset : Nat) (rest : List Char) :
    Lexer.scanHexDigits escapeOffset text.length ⟨text ++ rest, offset⟩
      = .ok ⟨rest, offset + byteLength text⟩ := by
  induction text generalizing offset with
  | nil => rfl
  | cons c text ih =>
    rw [List.forall_mem_cons] at h
    rw [List.length_cons, List.cons_append, Lexer.scanHexDigits,
      if_neg (by simpa using Option.isSome_iff_ne_none.mp h.1), ih h.2, byteLength_cons,
      Nat.add_assoc]

end Hexadecimal

section Quoted

/-- What a literal writes for a code point: a named escape, the character itself, or the
shortest escape that holds it. -/
theorem pushQuoted_cases (c : Char) :
    (∃ letter, (c, letter) ∈ namedEscapes ∧ pushQuoted c = ['\\', letter]) ∨
    (pushQuoted c = [c] ∧ c ≠ '"' ∧ c ≠ '\\' ∧ isControl c = false) ∨
    ∃ letter digits, (letter, digits) ∈ hexEscapes ∧ c.toNat < 16 ^ digits ∧
      pushQuoted c = '\\' :: letter :: hexDigits digits c.toNat := by
  unfold pushQuoted
  cases hnamed : namedEscapes.find? (fun named => named.1 = c) with
  | some named =>
    left
    have hmem := List.mem_of_find?_eq_some hnamed
    have hc : named.1 = c := by simpa using List.find?_some hnamed
    exact ⟨named.2, by rw [← hc]; exact hmem, rfl⟩
  | none =>
    right
    have hother : ∀ named ∈ namedEscapes, named.1 ≠ c := by simpa using hnamed
    by_cases hplain : ' ' ≤ c ∧ c ≤ '~'
    · left
      refine ⟨if_pos hplain, ?_, ?_, ?_⟩
      · rintro rfl
        exact hother ('"', '"') (by decide) rfl
      · rintro rfl
        exact hother ('\\', '\\') (by decide) rfl
      · have hlow : ' '.toNat ≤ c.toNat := hplain.1
        have hhigh : c.toNat ≤ '~'.toNat := hplain.2
        have h1 : ' '.toNat = 32 := rfl
        have h2 : '~'.toNat = 126 := rfl
        simp only [isControl, Bool.or_eq_false_iff, Bool.and_eq_false_iff, decide_eq_false_iff_not]
        omega
    · right
      rw [if_neg hplain]
      have hbound : c.toNat < 2 ^ 32 := c.val.toNat_lt
      cases hhex : hexEscapes.find? (fun hex => c.toNat >>> (4 * hex.2) = 0) with
      | some hex =>
        refine ⟨hex.1, hex.2, List.mem_of_find?_eq_some hhex, ?_, rfl⟩
        have hshift : c.toNat >>> (4 * hex.2) = 0 := by simpa using List.find?_some hhex
        rw [Nat.shiftRight_eq_div_pow, Nat.div_eq_zero_iff_lt (Nat.two_pow_pos _)] at hshift
        rwa [show 16 ^ hex.2 = 2 ^ (4 * hex.2) by rw [Nat.pow_mul]]
      | none =>
        exfalso
        have hwide := List.find?_eq_none.mp hhex ('U', 8) (by decide)
        apply hwide
        simpa [Nat.shiftRight_eq_div_pow, Nat.div_eq_zero_iff_lt] using hbound

theorem unquoteFrom_pushQuoted {encoding : LiteralEncoding} {c : Char} {bytes : List UInt8}
    (hpush : ∀ offset, pushCodePoint encoding c offset = .ok bytes) (rest : List Char)
    (offset : Nat) (result : List UInt8) :
    ∃ next, unquoteFrom encoding (pushQuoted c ++ rest) offset result
      = unquoteFrom encoding rest next (result ++ bytes) := by
  rcases pushQuoted_cases c with ⟨letter, hmem, hq⟩ | ⟨hq, hquote, hslash, hcontrol⟩ |
    ⟨letter, digits, hmem, hn, hq⟩
  · have hfind : namedEscapes.find? (fun named => named.2 = letter) = some (c, letter) := by
      revert hmem
      simp only [namedEscapes, List.mem_cons, List.not_mem_nil, Prod.mk.injEq, or_false]
      rintro (⟨rfl, rfl⟩ | ⟨rfl, rfl⟩ | ⟨rfl, rfl⟩ | ⟨rfl, rfl⟩ | ⟨rfl, rfl⟩ | ⟨rfl, rfl⟩) <;> rfl
    refine ⟨offset + 1 + letter.utf8Size, ?_⟩
    rw [hq, List.cons_append, List.cons_append, List.nil_append, unquoteFrom]
    simp [hfind, hpush]
  · refine ⟨offset + c.utf8Size, ?_⟩
    rw [hq, List.cons_append, List.nil_append, unquoteFrom.eq_def]
    simp [hslash, hcontrol, hpush]
  · have hnamed : namedEscapes.find? (fun named => named.2 = letter) = none := by
      revert hmem
      simp only [hexEscapes, List.mem_cons, List.not_mem_nil, Prod.mk.injEq, or_false]
      rintro (⟨rfl, rfl⟩ | ⟨rfl, rfl⟩ | ⟨rfl, rfl⟩) <;> rfl
    have hfind : hexEscapes.find? (fun hex => hex.1 = letter) = some (letter, digits) ∧
        digits ≠ 0 := by
      revert hmem
      simp only [hexEscapes, List.mem_cons, List.not_mem_nil, Prod.mk.injEq, or_false]
      rintro (⟨rfl, rfl⟩ | ⟨rfl, rfl⟩ | ⟨rfl, rfl⟩) <;> exact ⟨rfl, by decide⟩
    refine ⟨offset + 1 + letter.utf8Size + digits, ?_⟩
    have hread := readCodePoint_hexDigits (offset + 1) rest hfind.2 hn
    rw [hq, List.cons_append, List.cons_append, unquoteFrom]
    simp only [ne_eq, not_true_eq_false, if_false, hnamed, hfind.1]
    split
    · rename_i e herr
      rw [hread] at herr
      cases herr
    · rename_i c' rest' hok
      rw [hread] at hok
      cases hok
      rw [hpush]

/-- The lexer reads on behind whatever a literal writes for a code point. -/
theorem scanString_pushQuoted (c : Char) (start offset : Nat) (rest : List Char) :
    Lexer.scanString start ⟨pushQuoted c ++ rest, offset⟩
      = Lexer.scanString start ⟨rest, offset + byteLength (pushQuoted c)⟩ := by
  rcases pushQuoted_cases c with ⟨letter, hmem, hq⟩ | ⟨hq, hquote, hslash, hcontrol⟩ |
    ⟨letter, digits, hmem, hn, hq⟩
  · have hletter : letter ∈ ['"', '\\', 'n', 'r', 't', 'f'] ∧ letter.utf8Size = 1 := by
      revert hmem
      simp only [namedEscapes, List.mem_cons, List.not_mem_nil, Prod.mk.injEq, or_false]
      rintro (⟨rfl, rfl⟩ | ⟨rfl, rfl⟩ | ⟨rfl, rfl⟩ | ⟨rfl, rfl⟩ | ⟨rfl, rfl⟩ | ⟨rfl, rfl⟩) <;> decide
    rw [hq, List.cons_append, List.cons_append, List.nil_append, Lexer.scanString]
    simp only [hletter.1, if_true, hletter.2, byteLength, List.map_cons, List.map_nil,
      List.sum_cons, List.sum_nil]
    rfl
  · rw [hq, List.cons_append, List.nil_append, Lexer.scanString.eq_def]
    simp [hquote, hslash, hcontrol, byteLength]
  · have hdigits : hexEscapeDigits letter = some digits ∧
        letter ∉ ['"', '\\', 'n', 'r', 't', 'f'] ∧ letter.utf8Size = 1 := by
      revert hmem
      simp only [hexEscapes, List.mem_cons, List.not_mem_nil, Prod.mk.injEq, or_false]
      rintro (⟨rfl, rfl⟩ | ⟨rfl, rfl⟩ | ⟨rfl, rfl⟩) <;> decide
    have hhex : ∀ d ∈ hexDigits digits c.toNat, (hexValue d).isSome := by
      intro d hd
      obtain ⟨n, hlt, rfl⟩ := hexDigits_mem hd
      rw [hexValue_hexDigit_all n hlt]
      rfl
    have hscan := scanHexDigits_append hhex offset (offset + 2) rest
    rw [length_hexDigits, byteLength_hexDigits] at hscan
    have hlen : byteLength ('\\' :: letter :: hexDigits digits c.toNat) = 2 + digits := by
      rw [byteLength_cons, byteLength_cons, byteLength_hexDigits, hdigits.2.2,
        show '\\'.utf8Size = 1 from rfl]
      omega
    rw [hq, List.cons_append, List.cons_append, Lexer.scanString]
    simp only [Char.reduceEq, if_false, if_true, hdigits.1, hdigits.2.1]
    split
    · rename_i e herr
      rw [hscan] at herr
      cases herr
    · rename_i l hok
      rw [hscan] at hok
      cases hok
      rw [hlen, Nat.add_assoc]

theorem scanString_quoted (text : List Char) (start offset : Nat) (rest : List Char) :
    Lexer.scanString start ⟨text.flatMap pushQuoted ++ rest, offset⟩
      = Lexer.scanString start ⟨rest, offset + byteLength (text.flatMap pushQuoted)⟩ := by
  induction text generalizing offset with
  | nil => rfl
  | cons c text ih =>
    rw [List.flatMap_cons, List.append_assoc, scanString_pushQuoted, ih, byteLength_append,
      Nat.add_assoc]

theorem unquoteFrom_quoted {encoding : LiteralEncoding} {store : Char → List UInt8}
    {text : List Char}
    (hpush : ∀ c ∈ text, ∀ offset, pushCodePoint encoding c offset = .ok (store c))
    (offset : Nat) (result : List UInt8) :
    unquoteFrom encoding (text.flatMap pushQuoted) offset result
      = .ok (result ++ text.flatMap store) := by
  induction text generalizing offset result with
  | nil => simp [unquoteFrom]
  | cons c text ih =>
    rw [List.forall_mem_cons] at hpush
    obtain ⟨next, hnext⟩ := unquoteFrom_pushQuoted hpush.1 (text.flatMap pushQuoted) offset result
    rw [List.flatMap_cons, hnext, ih hpush.2, List.flatMap_cons, List.append_assoc]

end Quoted

section Literals

theorem quoteAs_eq (value : KoreString) (encoding : LiteralEncoding) :
    quoteAs value encoding = '"' :: (encoding.codePoints value).flatMap pushQuoted ++ ['"'] := by
  cases encoding with
  | bytes => simp [quoteAs, LiteralEncoding.codePoints, List.flatMap_map]
  | utf8 =>
    simp only [quoteAs, LiteralEncoding.codePoints]
    split <;> rfl

theorem charOfByte_toNat (byte : UInt8) : (charOfByte byte).toNat = byte.toNat := by
  have hlt := byte.toNat_lt
  have hvalid : byte.toNat.isValidChar := by
    left
    omega
  rw [charOfByte, Char.ofNat, dif_pos hvalid]
  rfl

/-- The code points a payload holds are stored by its canonical form. -/
theorem codePoints_stored (value : KoreString) (encoding : LiteralEncoding) :
    ∃ store : Char → List UInt8,
      (∀ c ∈ encoding.codePoints value, ∀ offset, pushCodePoint encoding c offset = .ok (store c)) ∧
      (encoding.codePoints value).flatMap store = canonical value encoding := by
  cases encoding with
  | bytes =>
    refine ⟨fun c => [UInt8.ofNat c.toNat], ?_, ?_⟩
    · intro c hc offset
      obtain ⟨byte, -, rfl⟩ := List.mem_map.mp hc
      rw [pushCodePoint, if_pos (by rw [charOfByte_toNat]; exact byte.toNat_lt)]
    · simp [LiteralEncoding.codePoints, canonical, List.flatMap_map, charOfByte_toNat]
  | utf8 =>
    refine ⟨String.utf8EncodeChar, fun c _ offset => rfl, ?_⟩
    show Utf8.encode _ = _
    simp only [LiteralEncoding.codePoints, canonical]
    split
    · rename_i text htext
      rw [if_pos (by rw [htext]; rfl)]
      exact Utf8.encode_of_decode htext
    · rename_i hnone
      rw [if_neg (by rw [hnone]; simp)]

theorem unquoteAs_quoteAs (value : KoreString) (encoding : LiteralEncoding) :
    unquoteAs (quoteAs value encoding) encoding = .ok (canonical value encoding) := by
  obtain ⟨store, hpush, hstore⟩ := codePoints_stored value encoding
  have hclosed : ¬ (byteLength ('"' :: (encoding.codePoints value).flatMap pushQuoted ++ ['"']) < 2 ∨
      ('"' :: (encoding.codePoints value).flatMap pushQuoted ++ ['"']).getLast? ≠ some '"') := by
    rw [byteLength_append, byteLength_cons, List.getLast?_concat]
    have h1 : '"'.utf8Size = 1 := rfl
    have h2 : byteLength ['"'] = 1 := rfl
    simp only [ne_eq, not_true_eq_false, or_false]
    omega
  rw [quoteAs_eq, unquoteAs, if_neg (by simp), if_neg hclosed]
  simp only [List.cons_append, List.tail_cons, List.dropLast_concat]
  rw [unquoteFrom_quoted hpush, hstore]
  rfl

/-- The lexer reads a quoted payload as one string token whatever follows it. -/
theorem scanToken_quoteAs (value : KoreString) (encoding : LiteralEncoding) (rest : List Char)
    (offset : Nat) :
    (⟨quoteAs value encoding ++ rest, offset⟩ : Lexer).scanToken
      = (⟨quoteAs value encoding ++ rest, offset⟩ : Lexer).emit
        ⟨rest, offset + byteLength (quoteAs value encoding)⟩ .string := by
  have hscan : Lexer.scanString offset
      ⟨(encoding.codePoints value).flatMap pushQuoted ++ ('"' :: rest), offset + 1⟩
      = .ok ⟨rest, offset + byteLength (quoteAs value encoding)⟩ := by
    have hone : '"'.utf8Size = 1 := rfl
    rw [scanString_quoted, Lexer.scanString.eq_def, quoteAs_eq, byteLength_append, byteLength_cons,
      show byteLength ['"'] = 1 from rfl, hone]
    simp only [if_true, Except.ok.injEq, Lexer.mk.injEq, true_and]
    omega
  have htext : quoteAs value encoding ++ rest
      = '"' :: ((encoding.codePoints value).flatMap pushQuoted ++ ('"' :: rest)) := by
    rw [quoteAs_eq, List.append_assoc, List.cons_append]
    rfl
  generalize quoteAs value encoding = quoted at hscan htext
  rw [htext, Lexer.scanToken]
  simp only [hscan]

theorem solid_quoteAs (value : KoreString) (encoding : LiteralEncoding) (rest : List Char) :
    Lexer.Solid (quoteAs value encoding ++ rest) := by
  rw [quoteAs_eq]
  rintro c ⟨⟩
  decide

theorem lex_quoteAs (value : KoreString) (encoding : LiteralEncoding) :
    lex (quoteAs value encoding) = .ok [⟨.string, quoteAs value encoding, 0⟩] := by
  have htoken := scanToken_quoteAs value encoding [] 0
  have hlex := Lexer.lexFrom_token (solid_quoteAs value encoding []) htoken
  rw [List.append_nil, Lexer.lexFrom_nil] at hlex
  exact hlex

/-- Writing and reading a literal: for every payload and encoding the text that quotes it
is read back as its canonical form, which holds the same code points, and the lexer sees
exactly one string token in it. -/
theorem literal_round_trip (value : KoreString) (encoding : LiteralEncoding) :
    unquoteAs (quoteAs value encoding) encoding = .ok (canonical value encoding) ∧
    lex (quoteAs (canonical value encoding) encoding)
      = .ok [⟨.string, quoteAs (canonical value encoding) encoding, 0⟩] := by
  exact ⟨unquoteAs_quoteAs value encoding, lex_quoteAs (canonical value encoding) encoding⟩

end Literals

end KRust.Kore
