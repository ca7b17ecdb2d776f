import KRust.Kore.LexerLaws
import KRust.Kore.LiteralLaws

/-!
The texts that are unquoted and those that are scanned as one literal. A text that is unquoted is
one literal, unless a quotation mark stands within it unescaped or the digits of an escape start
with a sign.
-/

set_option linter.unusedSectionVars false

namespace KRust.Kore

section Bodies

/-- A quotation mark that no backslash precedes, or a sign where the digits of an escape start. -/
def hasStray (body : List Char) : Bool :=
  match body with
  | [] => false
  | c :: rest =>
    if c = '"' then true
    else if c = '\\' then
      match rest with
      | [] => false
      | escape :: rest =>
        match hexEscapeDigits escape with
        | none => hasStray rest
        | some digits => rest.head? = some '+' || hasStray (rest.drop digits)
    else hasStray rest
termination_by body.length
decreasing_by
  · simp only [List.length_cons]
    omega
  · simp only [List.length_cons, List.length_drop]
    omega
  · simp

/-- The bodies that are unquoted. -/
inductive Unquoted : List Char → Prop
  | nil : Unquoted []
  | plain {c : Char} {rest : List Char} (hslash : c ≠ '\\') (hcontrol : isControl c = false)
    (hrest : Unquoted rest) : Unquoted (c :: rest)
  | named {escape : Char} {rest : List Char} (h : escape ∈ ['"', '\\', 'n', 'r', 't', 'f'])
    (hrest : Unquoted rest) : Unquoted ('\\' :: escape :: rest)
  | hex {escape : Char} {digits rest : List Char} (h : hexEscapeDigits escape = some digits.length)
    (hdigits : (∀ c ∈ digits, (hexValue c).isSome) ∨ digits.head? = some '+')
    (hrest : Unquoted rest) : Unquoted ('\\' :: escape :: (digits ++ rest))

theorem takeBytes_eq {n : Nat} {text taken rest : List Char}
    (h : takeBytes n text = some (taken, rest)) : text = taken ++ rest ∧ byteLength taken = n := by
  fun_induction takeBytes n text generalizing taken with
  | case1 text =>
    cases h
    exact ⟨rfl, rfl⟩
  | case2 => cases h
  | case3 n c text hfit ih =>
    obtain ⟨pair, hpair, heq⟩ := Option.map_eq_some_iff.mp h
    cases heq
    obtain ⟨rfl, hlength⟩ := ih hpair
    refine ⟨rfl, ?_⟩
    rw [byteLength_cons, hlength]
    omega
  | case4 => cases h

theorem hexValue_of_foldlM {digits : List Char} {value result : Nat}
    (h : digits.foldlM (fun value c => do
      let digit ← hexValue c
      if value * 16 + digit < 2 ^ 32 then some (value * 16 + digit) else none) value =
        some result) : ∀ c ∈ digits, (hexValue c).isSome := by
  induction digits generalizing value with
  | nil => simp
  | cons c digits ih =>
    rw [List.foldlM_cons] at h
    cases hvalue : hexValue c with
    | none =>
      rw [hvalue] at h
      cases h
    | some digit =>
      rw [hvalue] at h
      by_cases hfits : value * 16 + digit < 2 ^ 32
      · simp only [Option.bind_eq_bind, Option.bind_some, hfits, if_true] at h
        rw [List.forall_mem_cons]
        exact ⟨by simp [hvalue], ih h⟩
      · simp only [Option.bind_eq_bind, Option.bind_some, hfits, if_false] at h
        cases h

/-- A number is read from digits, perhaps after a sign. -/
theorem digits_of_fromStrRadix16 {src : List Char} {n : Nat} (h : fromStrRadix16 src = some n) :
    (∀ c ∈ src, (hexValue c).isSome) ∨
      ∃ digits, src = '+' :: digits ∧ ∀ c ∈ digits, (hexValue c).isSome := by
  unfold fromStrRadix16 at h
  split at h
  · rename_i digits
    dsimp only at h
    split at h
    · cases h
    · exact .inr ⟨digits, rfl, hexValue_of_foldlM h⟩
  · dsimp only at h
    split at h
    · cases h
    · exact .inl (hexValue_of_foldlM h)

theorem utf8Size_of_hexValue {c : Char} (h : (hexValue c).isSome) : c.utf8Size = 1 := by
  have hlow : c.toNat ≤ 0x7f := by
    unfold hexValue at h
    have h9 : '9'.toNat = 57 := rfl
    have hf : 'f'.toNat = 102 := rfl
    have hF : 'F'.toNat = 70 := rfl
    split at h
    · rename_i hrange
      have hle : c.toNat ≤ '9'.toNat := hrange.2
      omega
    · split at h
      · rename_i hrange
        have hle : c.toNat ≤ 'f'.toNat := hrange.2
        omega
      · split at h
        · rename_i hrange
          have hle : c.toNat ≤ 'F'.toNat := hrange.2
          omega
        · cases h
  exact Char.utf8Size_eq_one_iff.mpr hlow

theorem byteLength_of_hexValue {text : List Char} (h : ∀ c ∈ text, (hexValue c).isSome) :
    byteLength text = text.length := by
  induction text with
  | nil => rfl
  | cons c text ih =>
    rw [List.forall_mem_cons] at h
    rw [byteLength_cons, utf8Size_of_hexValue h.1, ih h.2, List.length_cons, Nat.add_comm]

/-- The digits of an escape that is read, each a byte of the text. -/
theorem readCodePoint_ok {body rest : List Char} {count offset : Nat} {c : Char}
    (h : readCodePoint body count offset = .ok (c, rest)) :
    ∃ digits, body = digits ++ rest ∧ digits.length = count ∧
      ((∀ c ∈ digits, (hexValue c).isSome) ∨ digits.head? = some '+') := by
  unfold readCodePoint at h
  split at h
  · cases h
  · rename_i hex rest' htake
    split at h
    · cases h
    · rename_i codePoint hnumber
      split at h
      · cases h
      · cases h
        obtain ⟨rfl, hlength⟩ := takeBytes_eq htake
        rcases digits_of_fromStrRadix16 hnumber with hdigits | ⟨digits, rfl, hdigits⟩
        · rw [byteLength_of_hexValue hdigits] at hlength
          exact ⟨hex, rfl, hlength, .inl hdigits⟩
        · rw [byteLength_cons, byteLength_of_hexValue hdigits] at hlength
          have hplus : '+'.utf8Size = 1 := rfl
          refine ⟨'+' :: digits, rfl, ?_, .inr rfl⟩
          rw [List.length_cons]
          omega

theorem find?_namedEscapes {escape : Char} {named : Char × Char}
    (h : namedEscapes.find? (fun named => named.2 = escape) = some named) :
    escape ∈ ['"', '\\', 'n', 'r', 't', 'f'] := by
  have hmem := List.mem_of_find?_eq_some h
  have hletter : named.2 = escape := by simpa using List.find?_some h
  rw [← hletter]
  have hall : ∀ named ∈ namedEscapes, named.2 ∈ ['"', '\\', 'n', 'r', 't', 'f'] := by decide
  exact hall named hmem

theorem find?_hexEscapes {escape letter : Char} {count : Nat}
    (h : hexEscapes.find? (fun hex => hex.1 = escape) = some (letter, count)) :
    hexEscapeDigits escape = some count := by
  have hmem := List.mem_of_find?_eq_some h
  have hletter : letter = escape := by simpa using List.find?_some h
  have hall : ∀ hex ∈ hexEscapes, hexEscapeDigits hex.1 = some hex.2 := by decide
  rw [← hletter]
  exact hall (letter, count) hmem

theorem unquoted_of_unquoteFrom {encoding : LiteralEncoding} {body : List Char} {offset : Nat}
    {result payload : List UInt8} (h : unquoteFrom encoding body offset result = .ok payload) :
    Unquoted body := by
  fun_induction unquoteFrom encoding body offset result with
  | case1 => exact .nil
  | case2 | case3 | case5 | case6 | case8 | case9 | case10 => cases h
  | case4 offset result c rest hslash hcontrol bytes hpush ih =>
    exact .plain hslash (by simpa using hcontrol) (ih h)
  | case7 offset result c hslash escape rest character letter hfind bytes hpush ih =>
    obtain rfl : c = '\\' := not_not.mp hslash
    exact .named (find?_namedEscapes hfind) (ih h)
  | case11 offset result c hslash escape rest hnamed letter count hfind character rest' hread
      bytes hpush ih =>
    obtain rfl : c = '\\' := not_not.mp hslash
    obtain ⟨digits, rfl, rfl, hdigits⟩ := readCodePoint_ok hread
    exact .hex (find?_hexEscapes hfind) hdigits (ih h)

theorem named_not_hex {escape : Char} (h : escape ∈ ['"', '\\', 'n', 'r', 't', 'f']) :
    hexEscapeDigits escape = none := by
  have hall : (['"', '\\', 'n', 'r', 't', 'f'].all fun c => (hexEscapeDigits c).isNone) = true := by
    decide
  exact Option.isNone_iff_eq_none.mp (List.all_eq_true.mp hall escape h)

theorem hex_not_named {escape : Char} {count : Nat} (h : hexEscapeDigits escape = some count) :
    escape ∉ ['"', '\\', 'n', 'r', 't', 'f'] := by
  intro hnamed
  rw [named_not_hex hnamed] at h
  cases h

theorem hasStray_plain {c : Char} (hslash : c ≠ '\\') (rest : List Char) :
    hasStray (c :: rest) = (decide (c = '"') || hasStray rest) := by
  rw [hasStray.eq_def]
  by_cases hquote : c = '"' <;> simp [hquote, hslash]

theorem hasStray_named {escape : Char} (h : escape ∈ ['"', '\\', 'n', 'r', 't', 'f'])
    (rest : List Char) : hasStray ('\\' :: escape :: rest) = hasStray rest := by
  rw [hasStray]
  simp [named_not_hex h]

theorem hasStray_hex {escape : Char} {digits : List Char}
    (h : hexEscapeDigits escape = some digits.length) (rest : List Char) :
    hasStray ('\\' :: escape :: (digits ++ rest)) =
      (decide (digits.head? = some '+') || hasStray rest) := by
  have hne : digits ≠ [] := by
    rintro rfl
    unfold hexEscapeDigits at h
    split at h <;> cases h
  obtain ⟨c, digits, rfl⟩ := List.exists_cons_of_ne_nil hne
  rw [hasStray]
  simp [h]

/-- A body without strays is scanned up to the quotation mark after it. -/
theorem scanString_unquoted {body : List Char} (h : Unquoted body) (hstray : hasStray body = false)
    (start offset : Nat) (rest : List Char) :
    Lexer.scanString start ⟨body ++ '"' :: rest, offset⟩ =
      .ok ⟨rest, offset + byteLength body + 1⟩ := by
  induction h generalizing offset with
  | nil =>
    rw [List.nil_append, Lexer.scanString.eq_def]
    simp [byteLength]
  | @plain c body hslash hcontrol hrest ih =>
    rw [hasStray_plain hslash, Bool.or_eq_false_iff, decide_eq_false_iff_not] at hstray
    rw [List.cons_append, Lexer.scanString.eq_def]
    simp only [hstray.1, hslash, hcontrol, if_false, Bool.false_eq_true]
    rw [ih hstray.2, byteLength_cons, Nat.add_assoc offset]
  | @named escape body hescape hrest ih =>
    rw [hasStray_named hescape] at hstray
    rw [List.cons_append, List.cons_append, Lexer.scanString]
    simp only [Char.reduceEq, if_false, if_true, hescape]
    rw [ih hstray, byteLength_cons, byteLength_cons]
    congr 2
    have hslash : '\\'.utf8Size = 1 := rfl
    omega
  | @hex escape digits body hescape hdigits hrest ih =>
    rw [hasStray_hex hescape, Bool.or_eq_false_iff, decide_eq_false_iff_not] at hstray
    have hvalues := hdigits.resolve_right hstray.1
    have hscan := scanHexDigits_append hvalues offset (offset + 2) (body ++ '"' :: rest)
    rw [List.cons_append, List.cons_append, List.append_assoc, Lexer.scanString]
    simp only [Char.reduceEq, if_false, if_true, hex_not_named hescape, hescape]
    split
    · rename_i e herr
      rw [hscan] at herr
      cases herr
    · rename_i l hok
      rw [hscan] at hok
      cases hok
      have hslash : '\\'.utf8Size = 1 := rfl
      have hletter : escape.utf8Size = 1 := by
        unfold hexEscapeDigits at hescape
        split at hescape
        · rfl
        · rfl
        · rfl
        · cases hescape
      rw [ih hstray.2, byteLength_cons, byteLength_cons, byteLength_append, hslash, hletter]
      congr 2
      omega

/-- A scan of a body with a stray stops within the body or fails. -/
theorem scanString_stray {body : List Char} (h : Unquoted body) (hstray : hasStray body = true)
    {start offset : Nat} {l : Lexer}
    (hscan : Lexer.scanString start ⟨body ++ ['"'], offset⟩ = .ok l) : l.remaining ≠ [] := by
  induction h generalizing offset with
  | nil =>
    rw [hasStray] at hstray
    cases hstray
  | @plain c body hslash hcontrol hrest ih =>
    rw [hasStray_plain hslash] at hstray
    rw [List.cons_append, Lexer.scanString.eq_def] at hscan
    by_cases hquote : c = '"'
    · simp only [hquote, if_true] at hscan
      cases hscan
      simp
    · simp only [hquote, hslash, hcontrol, if_false, Bool.false_eq_true] at hscan
      exact ih (by simpa [hquote] using hstray) hscan
  | @named escape body hescape hrest ih =>
    rw [hasStray_named hescape] at hstray
    rw [List.cons_append, List.cons_append, Lexer.scanString] at hscan
    simp only [Char.reduceEq, if_false, if_true, hescape] at hscan
    exact ih hstray hscan
  | @hex escape digits body hescape hdigits hrest ih =>
    rw [hasStray_hex hescape] at hstray
    rw [List.cons_append, List.cons_append, List.append_assoc, Lexer.scanString] at hscan
    simp only [Char.reduceEq, if_false, if_true, hex_not_named hescape, hescape] at hscan
    split at hscan
    · cases hscan
    · rename_i l' hdigitsScan
      by_cases hplus : digits.head? = some '+'
      · obtain ⟨digits', rfl⟩ : ∃ digits', digits = '+' :: digits' := by
          cases digits with
          | nil => cases hplus
          | cons c digits' => exact ⟨digits', by rw [Option.some.inj hplus]⟩
        rw [List.length_cons, List.cons_append, Lexer.scanHexDigits] at hdigitsScan
        cases hdigitsScan
      · have hvalues := hdigits.resolve_right hplus
        rw [scanHexDigits_append hvalues] at hdigitsScan
        cases hdigitsScan
        exact ih (by simpa [hplus] using hstray) hscan

end Bodies

section Texts

/-- A text that is unquoted is a body between quotation marks. -/
theorem unquoteAs_ok {input : List Char} {encoding : LiteralEncoding} {payload : KoreString}
    (h : unquoteAs input encoding = .ok payload) :
    ∃ body, input = '"' :: (body ++ ['"']) ∧ input.tail.dropLast = body ∧ Unquoted body := by
  unfold unquoteAs at h
  split at h
  · cases h
  · rename_i hhead
    split at h
    · cases h
    · rename_i hlast
      obtain ⟨hlength, hlast⟩ := not_or.mp hlast
      obtain ⟨c, rest, rfl⟩ := List.exists_cons_of_ne_nil (l := input) (by rintro rfl; simp at hhead)
      obtain rfl : c = '"' := by simpa using hhead
      have hne : rest ≠ [] := by
        rintro rfl
        exact hlength (by decide)
      have hrest : rest.getLast? = some '"' := by
        rw [List.getLast?_cons_of_ne_nil hne] at hlast
        exact not_not.mp hlast
      obtain ⟨body, rfl⟩ := List.getLast?_eq_some_iff.mp hrest
      rw [List.tail_cons, List.dropLast_concat] at h
      exact ⟨body, rfl, by simp, unquoted_of_unquoteFrom h⟩

theorem solid_quote (rest : List Char) : Lexer.Solid ('"' :: rest) := by
  rintro c ⟨⟩
  exact ⟨by decide, by decide⟩

theorem scanToken_quote (rest : List Char) (offset : Nat) :
    (⟨'"' :: rest, offset⟩ : Lexer).scanToken =
      match Lexer.scanString offset ⟨rest, offset + 1⟩ with
      | .error e => .error e
      | .ok now => (⟨'"' :: rest, offset⟩ : Lexer).emit now .string := rfl

/-- A text with a stray within is not one literal. -/
theorem lex_stray {body : List Char} (hunquoted : Unquoted body) (hstray : hasStray body = true) :
    lex ('"' :: (body ++ ['"'])) ≠ .ok [⟨.string, '"' :: (body ++ ['"']), 0⟩] := by
  intro hlex
  rw [lex, Lexer.lexFrom.eq_def] at hlex
  have hnext : (⟨'"' :: (body ++ ['"']), 0⟩ : Lexer).nextToken =
      (⟨'"' :: (body ++ ['"']), 0⟩ : Lexer).scanToken := by
    rw [Lexer.nextToken, Lexer.skipTrivia_solid (solid_quote _)]
  rw [scanToken_quote] at hnext
  split at hlex
  · cases hlex
  · cases hlex
  · rename_i token now htoken
    rw [hnext] at htoken
    cases hscan : Lexer.scanString 0 ⟨body ++ ['"'], 0 + 1⟩ with
    | error e =>
      rw [hscan] at htoken
      cases htoken
    | ok stop =>
      -- The token ends before the text does.
      have hremaining := scanString_stray hunquoted hstray hscan
      rw [hscan] at htoken
      cases htoken
      split at hlex
      · cases hlex
      · simp only [Except.ok.injEq, List.cons.injEq] at hlex
        have htext := congrArg (fun token => token.text.length) hlex.1
        simp only [Lexer.token, Lexer.textTo, List.length_take, List.length_cons] at htext
        have hpos := List.length_pos_iff.mpr hremaining
        omega

theorem lex_unquoted {body : List Char} (hunquoted : Unquoted body)
    (hstray : hasStray body = false) :
    lex ('"' :: (body ++ ['"'])) = .ok [⟨.string, '"' :: (body ++ ['"']), 0⟩] := by
  have hscan := scanString_unquoted hunquoted hstray 0 (0 + 1) []
  have htoken : (⟨'"' :: (body ++ ['"']) ++ [], 0⟩ : Lexer).scanToken =
      (⟨'"' :: (body ++ ['"']) ++ [], 0⟩ : Lexer).emit ⟨[], 0 + 1 + byteLength body + 1⟩ .string := by
    rw [List.append_nil, scanToken_quote, hscan]
  have hlex := Lexer.lexFrom_token (by simpa using solid_quote (body ++ ['"'])) htoken
  rw [List.append_nil, Lexer.lexFrom_nil] at hlex
  exact hlex

/-- A text that is unquoted is scanned as one literal exactly where nothing strays in it. -/
theorem lex_unquoted_iff (input : List Char) (encoding : LiteralEncoding) (payload : KoreString)
    (h : unquoteAs input encoding = .ok payload) :
    lex input = .ok [⟨.string, input, 0⟩] ↔ hasStray input.tail.dropLast = false := by
  obtain ⟨body, rfl, hbody, hunquoted⟩ := unquoteAs_ok h
  rw [hbody]
  constructor
  · intro hlex
    by_contra hstray
    rw [Bool.not_eq_false] at hstray
    exact lex_stray hunquoted hstray hlex
  · exact lex_unquoted hunquoted

theorem readCodePoint_sign : readCodePoint ['+', 'f'] 2 1 = .ok ('\x0f', []) := by
  have htake : takeBytes 2 ['+', 'f'] = some (['+', 'f'], []) := by
    simp [takeBytes, Char.utf8Size]
  rw [readCodePoint, htake]
  rfl

theorem unquoteFrom_sign : unquoteFrom .utf8 ['\\', 'x', '+', 'f'] 0 [] = .ok [15] := by
  rw [unquoteFrom]
  simp only [ne_eq, not_true_eq_false, if_false]
  split
  · rename_i hnamed
    cases hnamed
  · split
    · rename_i hhex
      cases hhex
    · rename_i hhex
      cases hhex
      split
      · rename_i e herr
        rw [readCodePoint_sign] at herr
        cases herr
      · rename_i c rest hok
        rw [readCodePoint_sign] at hok
        cases hok
        rw [pushCodePoint]
        simp only []
        rw [unquoteFrom]
        rfl

/-- An escape with a sign is read as a number is, and not scanned. -/
theorem unquote_sign :
    ¬ ∀ input encoding payload, unquoteAs input encoding = .ok payload →
      lex input = .ok [⟨.string, input, 0⟩] := by
  intro hagree
  have hunquote : unquoteAs ['"', '\\', 'x', '+', 'f', '"'] .utf8 = .ok [15] := by
    rw [unquoteAs, if_neg (by decide), if_neg (by decide)]
    exact unquoteFrom_sign
  have hstray : hasStray ['\\', 'x', '+', 'f'] = true := by simp [hasStray, hexEscapeDigits]
  exact lex_stray (unquoted_of_unquoteFrom unquoteFrom_sign) hstray (hagree _ _ _ hunquote)

/-- A text of one letter is unquoted and scanned. -/
theorem lex_unquoted_iff_letter : lex ['"', 'a', '"'] = .ok [⟨.string, ['"', 'a', '"'], 0⟩] := by
  have hunquote : unquoteAs ['"', 'a', '"'] .utf8 = .ok [97] := by
    rw [unquoteAs, if_neg (by decide), if_neg (by decide)]
    simp only [List.tail_cons, List.dropLast_cons_cons, List.dropLast_singleton]
    rw [unquoteFrom]
    simp [pushCodePoint, isControl, unquoteFrom]
    rfl
  have hstray : hasStray ['a'] = false := by simp [hasStray]
  exact (lex_unquoted_iff ['"', 'a', '"'] .utf8 [97] hunquote).mpr hstray

end Texts

end KRust.Kore
