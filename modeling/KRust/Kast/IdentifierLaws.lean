import KRust.Kast.Identifier
import KRust.Kore.Lexer

/-!
Every name is read back from its encoding. What is encoded consists of characters of KORE
identifiers and is no reserved word; it starts like an identifier where the name does, and with
its kind in front it always does.
-/

namespace KRust.Kast.Identifier

open Lib Lib.CodeUnits
open Kore (VariableKind isIdChar isIdStart identifierProblems setVariableProblems)

variable {encoded output : List Char} {units : List Nat}

section Codes

/-- The characters of the codes, and of names that are not encoded. -/
def isCodeChar (c : Char) : Bool := c.isAlphanum || c == '-'

theorem toNat_ranges {c : Char} : c.isAlphanum = true ↔
    (65 ≤ c.toNat ∧ c.toNat ≤ 90) ∨ (97 ≤ c.toNat ∧ c.toNat ≤ 122) ∨
      48 ≤ c.toNat ∧ c.toNat ≤ 57 := by
  delta Char.isAlphanum Char.isAlpha Char.isUpper Char.isLower Char.isDigit
  simp only [Bool.or_eq_true, Bool.and_eq_true, decide_eq_true_eq, ge_iff_le, UInt32.le_iff_toNat_le]
  exact or_assoc

theorem isCodeChar_iff {c : Char} : isCodeChar c = true ↔ c.toNat = 45 ∨ c.isAlphanum = true := by
  rw [isCodeChar, Bool.or_eq_true, beq_iff_eq, or_comm]
  refine or_congr_left ⟨fun h => by rw [h]; rfl, fun h => ?_⟩
  rw [← Char.ofNat_toNat c, h]

theorem ne_apostrophe {c : Char} (h : isCodeChar c = true) : c ≠ '\'' := by
  rintro rfl
  revert h
  decide

theorem isIdChar_of_isCodeChar {c : Char} (h : isCodeChar c = true) : isIdChar c = true := by
  simp only [isCodeChar, Bool.or_eq_true, beq_iff_eq] at h
  rcases h with h | h
  · simp [isIdChar, h]
  · simp [isIdChar, h]

theorem utf8Size_of_isCodeChar {c : Char} (h : isCodeChar c = true) : c.utf8Size = 1 := by
  have hlt : c.toNat ≤ 127 := by
    rcases isCodeChar_iff.mp h with h | h
    · omega
    · have := toNat_ranges.mp h
      omega
  rw [Char.utf8Size_eq_one_iff]
  exact UInt32.le_iff_toNat_le.mpr hlt

theorem isCodeChar_of_isDigit {c : Char} (h : Radix.isDigit 16 c = true) : isCodeChar c = true := by
  refine isCodeChar_iff.mpr (.inr (toNat_ranges.mpr ?_))
  have hmarks : '0'.toNat = 48 ∧ '9'.toNat = 57 ∧ 'a'.toNat = 97 ∧ 'z'.toNat = 122 ∧
      'A'.toNat = 65 ∧ 'Z'.toNat = 90 := ⟨rfl, rfl, rfl, rfl, rfl, rfl⟩
  obtain ⟨h0, h9, ha, hz, hA, hZ⟩ := hmarks
  simp only [Radix.isDigit, Radix.digitValue, h0, h9, ha, hz, hA, hZ] at h
  split at h
  · omega
  · split at h
    · omega
    · split at h
      · omega
      · cases h

/-- What comes after as many one-byte characters. -/
theorem takeBytes_append {code : List Char} (h : ∀ c ∈ code, isCodeChar c = true)
    (rest : List Char) : takeBytes code.length (code ++ rest) = some (code, rest) := by
  induction code with
  | nil => simp [takeBytes]
  | cons c code ih =>
    obtain ⟨hc, hcode⟩ := List.forall_mem_cons.mp h
    rw [List.length_cons, List.cons_append, takeBytes, utf8Size_of_isCodeChar hc,
      if_pos (by omega), Nat.add_sub_cancel, ih hcode, Option.map_some]

/-- The code that the encoding writes for a unit. -/
def unitCode (unit : Nat) : List Char := (mnemonic unit).getD (hexadecimal unit)

/-- Mnemonics have four characters and are no hexadecimal numbers, and each is in one row. -/
theorem table_rows : (table.all fun row => row.2.all isCodeChar && row.2.length == 4 &&
    fromHexadecimal row.2 == none && row.2 != keywordCode && unitForCode row.2 == some row.1) =
      true := by
  decide

theorem length_digits_le {radix : Nat} (hradix : 2 ≤ radix) (count : Nat) (hcount : 0 < count)
    {n : Nat} (h : n < radix ^ count) : (Radix.digits radix n).length ≤ count := by
  induction count generalizing n with
  | zero => omega
  | succ count ih =>
    rw [Radix.digits]
    split
    · simp
    · rename_i hlarge
      have hpos : 0 < count := by
        rcases Nat.eq_zero_or_pos count with rfl | hpos
        · simp only [zero_add, pow_one] at h
          omega
        · exact hpos
      have hdiv : n / radix < radix ^ count := by
        rw [Nat.div_lt_iff_lt_mul (by omega), ← pow_succ]
        exact h
      rw [List.length_append, List.length_singleton]
      have := ih hpos hdiv
      omega

theorem length_hexadecimal {unit : Nat} (h : unit < 0x10000) : (hexadecimal unit).length = 4 := by
  have hlength := length_digits_le (by decide : 2 ≤ 16) 4 (by decide) h
  rw [hexadecimal, List.length_append, List.length_replicate]
  omega

theorem isDigit_hexadecimal (unit : Nat) : ∀ c ∈ hexadecimal unit, Radix.isDigit 16 c = true := by
  intro c hc
  rcases List.mem_append.mp hc with hzero | hdigit
  · rw [List.eq_of_mem_replicate hzero]
    rfl
  · exact Radix.isDigit_digits (by decide) (by decide) unit c hdigit

theorem value_hexadecimal (unit : Nat) : Radix.value 16 (hexadecimal unit) = unit := by
  have hzeros : ∀ count, (List.replicate count '0').foldl
      (fun n c => n * 16 + (Radix.digitValue c).getD 0) 0 = 0 := by
    intro count
    induction count with
    | zero => rfl
    | succ count ih =>
      rw [List.replicate_succ, List.foldl_cons]
      exact ih
  have hdigits := Radix.value_digits (by decide : 2 ≤ 16) (by decide) unit
  rw [Radix.value] at hdigits ⊢
  rw [hexadecimal, List.foldl_append, hzeros]
  exact hdigits

theorem fromHexadecimal_hexadecimal {unit : Nat} (h : unit < 0x10000) :
    fromHexadecimal (hexadecimal unit) = some unit := by
  have hdigits := isDigit_hexadecimal unit
  have hlength := length_hexadecimal h
  have hvalue := value_hexadecimal unit
  generalize hexadecimal unit = code at *
  have hplain : unsigned code = code := by
    unfold unsigned
    split
    · exact absurd (hdigits '+' List.mem_cons_self) (by decide)
    · rfl
  have hne : code.isEmpty = false := by
    cases code with
    | nil => cases hlength
    | cons c code => rfl
  rw [fromHexadecimal, hplain, hvalue, hne, List.all_eq_true.mpr hdigits]
  simp [h]

/-- The codes have four characters of identifiers. -/
theorem unitCode_chars {unit : Nat} (h : unit < 0x10000) :
    (∀ c ∈ unitCode unit, isCodeChar c = true) ∧ (unitCode unit).length = 4 := by
  rw [unitCode]
  cases hmnemonic : mnemonic unit with
  | none =>
    exact ⟨fun c hc => isCodeChar_of_isDigit (isDigit_hexadecimal unit c hc), length_hexadecimal h⟩
  | some code =>
    obtain ⟨row, hrow, rfl⟩ := Option.map_eq_some_iff.mp hmnemonic
    have hall := List.all_eq_true.mp table_rows row (List.mem_of_find?_eq_some hrow)
    simp only [Bool.and_eq_true, List.all_eq_true, beq_iff_eq] at hall
    exact ⟨hall.1.1.1.1, hall.1.1.1.2⟩

/-- A code is read back as its unit. -/
theorem readCode_unitCode {unit : Nat} (h : unit < 0x10000) (encoded rest : List Char) :
    readCode encoded (unitCode unit ++ rest) = .ok ([unit], rest) := by
  obtain ⟨hchars, hlength⟩ := unitCode_chars h
  have htake := takeBytes_append hchars rest
  rw [hlength] at htake
  rw [readCode, htake, unitCode]
  cases hmnemonic : mnemonic unit with
  | none => simp only [Option.getD_none, fromHexadecimal_hexadecimal h]
  | some code =>
    obtain ⟨row, hrow, rfl⟩ := Option.map_eq_some_iff.mp hmnemonic
    have hall := List.all_eq_true.mp table_rows row (List.mem_of_find?_eq_some hrow)
    have hunit : row.1 = unit := by simpa using List.find?_some hrow
    simp only [Bool.and_eq_true, beq_iff_eq, bne_iff_ne] at hall
    simp only [Option.getD_some, hall.1.1.2, if_neg hall.1.2, hall.2, hunit]

theorem decodeFrom_code {code rest : List Char} {added : List Nat}
    (hread : readCode encoded (code ++ rest) = .ok (added, rest)) (hne : 0 < code.length)
    (hchars : ∀ c ∈ code, isCodeChar c = true) :
    decodeFrom encoded output units false (code ++ rest) =
      decodeFrom encoded output (units ++ added) false rest := by
  obtain ⟨first, more, rfl⟩ := List.exists_cons_of_length_pos hne
  have hfirst := ne_apostrophe (hchars first List.mem_cons_self)
  rw [List.cons_append] at hread ⊢
  rw [decodeFrom, if_neg hfirst, if_neg (by decide)]
  split
  · rename_i added' rest' hread'
    rw [hread] at hread'
    cases hread'
    rfl
  · rename_i e hread'
    rw [hread] at hread'
    cases hread'

theorem decodeFrom_unitCode {unit : Nat} (h : unit < 0x10000) (rest : List Char) :
    decodeFrom encoded output units false (unitCode unit ++ rest) =
      decodeFrom encoded output (units ++ [unit]) false rest := by
  obtain ⟨hchars, hlength⟩ := unitCode_chars h
  exact decodeFrom_code (readCode_unitCode h encoded rest) (by omega) hchars

/-- The code of keywords adds nothing to its run. -/
theorem decodeFrom_keywordCode (rest : List Char) :
    decodeFrom encoded output units false (keywordCode ++ rest) =
      decodeFrom encoded output units false rest := by
  have hchars : ∀ c ∈ keywordCode, isCodeChar c = true := List.all_eq_true.mp (by decide)
  have htake := takeBytes_append hchars rest
  have hread : readCode encoded (keywordCode ++ rest) = .ok ([], rest) := by
    have hno : fromHexadecimal keywordCode = none := by decide
    rw [show keywordCode.length = 4 from rfl] at htake
    simp only [readCode, htake, hno, if_true]
  rw [decodeFrom_code hread (by decide) hchars, List.append_nil]

end Codes

section RoundTrip

/-- What the encoding writes for the units that are left. -/
def spell (inIdentifier : Bool) : List Nat → List Char
  | [] => if inIdentifier then [] else ['\'']
  | unit :: units =>
    if isIdentifierUnit unit then
      (if inIdentifier then [] else ['\'']) ++ Char.ofNat unit :: spell true units
    else (if inIdentifier then ['\''] else []) ++ unitCode unit ++ spell false units

/-- An encoding that is open is closed. -/
def closeEncoding (state : List Char × Bool) : List Char :=
  if state.2 then state.1 else state.1 ++ ['\'']

theorem encode_eq {name : List Char} (h : name ∉ keywords) :
    encode name = spell true (name.flatMap utf16Units) := by
  have hloop : ∀ (units : List Nat) (state : List Char × Bool),
      closeEncoding (units.foldl encodeUnit state) = state.1 ++ spell state.2 units := by
    intro units
    induction units with
    | nil =>
      rintro ⟨encoded, _ | _⟩
      · rfl
      · simp [spell, closeEncoding]
    | cons unit units ih =>
      rintro ⟨encoded, inIdentifier⟩
      rw [List.foldl_cons, ih, spell, encodeUnit]
      split
      · cases inIdentifier <;> simp
      · rw [unitCode]
        cases mnemonic unit <;> cases inIdentifier <;> simp
  rw [encode, if_neg (by rwa [List.contains_iff_mem])]
  exact hloop _ ([], true)

/-- A character that stays is one unit; of one that does not, no unit stays. -/
theorem utf16Units_cases (c : Char) :
    (isCodeChar c = true ∧ utf16Units c = [c.toNat] ∧ isIdentifierUnit c.toNat = true) ∨
      isCodeChar c = false ∧ ∀ unit ∈ utf16Units c, isIdentifierUnit unit = false := by
  have hunit : ∀ unit, isIdentifierUnit unit = true ↔
      unit = 45 ∨ unit ≤ 255 ∧ (Char.ofNat unit).isAlphanum = true := by
    intro unit
    simp only [isIdentifierUnit, Bool.or_eq_true, Bool.and_eq_true, decide_eq_true_eq, beq_iff_eq]
    exact or_comm
  have hsmall : ∀ unit, unit ≤ 255 → (Char.ofNat unit).toNat = unit := fun unit hle =>
    toNat_ofNat (.inl (by omega))
  by_cases hc : isCodeChar c = true
  · refine .inl ⟨hc, ?_, ?_⟩
    · rcases isCodeChar_iff.mp hc with hdash | halnum
      · rw [utf16Units, if_pos (by omega)]
      · have := toNat_ranges.mp halnum
        rw [utf16Units, if_pos (by omega)]
    · rw [hunit, Char.ofNat_toNat]
      refine (isCodeChar_iff.mp hc).imp id fun halnum => ⟨?_, halnum⟩
      have := toNat_ranges.mp halnum
      omega
  · refine .inr ⟨Bool.eq_false_iff.mpr hc, fun unit hmem => Bool.eq_false_iff.mpr
      fun hidentifier => hc ?_⟩
    have hvalid := toNat_valid c
    have hlow : unit ≤ 255 := by
      rcases (hunit unit).mp hidentifier with rfl | h
      · omega
      · exact h.1
    have heq : c.toNat = unit := by
      unfold utf16Units at hmem
      split at hmem
      · exact (List.mem_singleton.mp hmem).symm
      · simp only [List.mem_cons, List.not_mem_nil, or_false] at hmem
        omega
    rw [isCodeChar_iff]
    subst heq
    rw [hunit, Char.ofNat_toNat] at hidentifier
    exact hidentifier.imp id And.right

theorem decodeFrom_units {added : List Nat} (hlt : ∀ unit ∈ added, unit < 0x10000)
    (hspecial : ∀ unit ∈ added, isIdentifierUnit unit = false) (rest : List Nat) :
    decodeFrom encoded output units false (spell false (added ++ rest)) =
      decodeFrom encoded output (units ++ added) false (spell false rest) := by
  induction added generalizing units with
  | nil => rw [List.nil_append, List.append_nil]
  | cons unit added ih =>
    obtain ⟨hunit, hmore⟩ := List.forall_mem_cons.mp hlt
    obtain ⟨hfirst, hspecial⟩ := List.forall_mem_cons.mp hspecial
    rw [List.cons_append, spell, hfirst, if_neg (by decide), if_neg (by decide), List.nil_append,
      decodeFrom_unitCode hunit, ih hmore hspecial, List.append_assoc, List.singleton_append]

theorem decodeFrom_open (rest : List Char) :
    decodeFrom encoded output units true ('\'' :: rest) =
      decodeFrom encoded output units false rest := by
  rw [decodeFrom, if_pos rfl, if_pos rfl]

theorem decodeFrom_close {run : List Char} (hrun : ofUtf16 units = some run) (rest : List Char) :
    decodeFrom encoded output units false ('\'' :: rest) =
      decodeFrom encoded (output ++ run) [] true rest := by
  rw [decodeFrom, if_pos rfl, if_neg (by decide), hrun]

theorem decodeFrom_char {c : Char} (hc : isCodeChar c = true) (rest : List Char) :
    decodeFrom encoded output units true (c :: rest) =
      decodeFrom encoded (output ++ [c]) units true rest := by
  rw [decodeFrom, if_neg (ne_apostrophe hc), if_pos rfl]

/-- Outside a run the rest of the name follows; inside one, the run and then the rest. -/
theorem decodeFrom_spell (name : List Char) : ∀ output run,
    decodeFrom encoded output [] true (spell true (name.flatMap utf16Units)) =
        .ok (output ++ name) ∧
      decodeFrom encoded output (run.flatMap utf16Units) false
        (spell false (name.flatMap utf16Units)) = .ok (output ++ run ++ name) := by
  induction name with
  | nil =>
    intro output run
    constructor
    · simp [spell, decodeFrom]
    · have hclose := @decodeFrom_close encoded output (run.flatMap utf16Units) run
        (ofUtf16_utf16Units run) []
      rw [List.flatMap_nil, spell, if_neg (by decide), hclose, decodeFrom, if_pos rfl,
        List.append_nil]
  | cons c name ih =>
    intro output run
    rw [List.flatMap_cons]
    rcases utf16Units_cases c with ⟨hc, hunits, hstays⟩ | ⟨-, hspecial⟩
    · rw [hunits, List.singleton_append, spell, spell, hstays, if_pos rfl, if_pos rfl, if_pos rfl,
        if_neg (by decide), List.nil_append, List.singleton_append, Char.ofNat_toNat,
        decodeFrom_char hc, decodeFrom_close (ofUtf16_utf16Units run), decodeFrom_char hc,
        (ih (output ++ [c]) []).1, (ih (output ++ run ++ [c]) []).1]
      simp
    · have hlt := utf16Units_lt c
      have hrun : ∀ output run, decodeFrom encoded output (run.flatMap utf16Units) false
          (spell false (utf16Units c ++ name.flatMap utf16Units)) =
            .ok (output ++ run ++ c :: name) := by
        intro output run
        have hmore := (ih output (run ++ [c])).2
        rw [List.flatMap_append, List.flatMap_singleton] at hmore
        rw [decodeFrom_units hlt hspecial, hmore]
        simp
      refine ⟨?_, hrun output run⟩
      have hopen : spell true (utf16Units c ++ name.flatMap utf16Units) =
          '\'' :: spell false (utf16Units c ++ name.flatMap utf16Units) := by
        obtain ⟨unit, more, hcons⟩ : ∃ unit more, utf16Units c = unit :: more := by
          unfold utf16Units
          split <;> exact ⟨_, _, rfl⟩
        have hfirst := hspecial unit (by simp [hcons])
        simp [hcons, spell, hfirst]
      rw [hopen, decodeFrom_open]
      have hnone := hrun output []
      rw [List.append_nil] at hnone
      exact hnone

theorem decodeFrom_chars {text : List Char} (h : ∀ c ∈ text, isCodeChar c = true)
    (rest : List Char) : decodeFrom encoded output units true (text ++ rest) =
      decodeFrom encoded (output ++ text) units true rest := by
  induction text generalizing output with
  | nil => rw [List.nil_append, List.append_nil]
  | cons c text ih =>
    obtain ⟨hc, hmore⟩ := List.forall_mem_cons.mp h
    rw [List.cons_append, decodeFrom_char hc, ih hmore, List.append_assoc, List.singleton_append]

theorem keywords_chars {name : List Char} (h : name ∈ keywords) :
    ∀ c ∈ name, isCodeChar c = true := by
  have hall : keywords.all (fun name => name.all isCodeChar) = true := by decide
  exact List.all_eq_true.mp (List.all_eq_true.mp hall name h)

/-- The text of a keyword is marked, and names that are not keywords are spelled. -/
theorem encode_keyword {name : List Char} (h : name ∈ keywords) :
    encode name = name ++ '\'' :: (keywordCode ++ ['\'']) := by
  rw [encode, if_pos (by rwa [List.contains_iff_mem]), List.append_assoc, List.cons_append]

theorem decode_encode (name : List Char) : decode (encode name) = .ok name := by
  rw [decode]
  by_cases h : name ∈ keywords
  · have hempty : ofUtf16 [] = some [] := rfl
    rw [encode_keyword h, decodeFrom_chars (keywords_chars h), decodeFrom_open,
      decodeFrom_keywordCode, decodeFrom_close hempty, decodeFrom, if_pos rfl]
    simp
  · rw [encode_eq h]
    exact (decodeFrom_spell name [] []).1

end RoundTrip

section Identifiers

/-- A text that the readers of KORE take for an identifier. -/
def IsKoreIdentifier (text : List Char) : Prop :=
  identifierProblems text = [] ∧ Kore.classifyId text = .id

theorem classifyId_eq_id {text : List Char} (h : text ∉ keywords) : Kore.classifyId text = .id := by
  unfold Kore.classifyId
  split
  all_goals first
    | rfl
    | rename_i heq
      have htext := congrArg String.toList heq
      rw [String.toList_ofList] at htext
      subst htext
      exact absurd h (by decide)

theorem isKoreIdentifier_iff {text : List Char} (hchars : ∀ c ∈ text, isIdChar c = true)
    (hkeyword : text ∉ keywords) :
    IsKoreIdentifier text ↔ ∃ first rest, text = first :: rest ∧ isIdStart first = true := by
  rw [IsKoreIdentifier, classifyId_eq_id hkeyword, Kore.identifierProblems_eq_nil]
  simp only [Kore.IsIdentifier, and_true]
  refine exists_congr fun first => exists_congr fun rest => and_congr_right fun heq => ?_
  refine and_iff_left fun c hc => hchars c ?_
  rw [heq]
  exact List.mem_cons_of_mem _ hc

theorem spell_chars {units : List Nat} (h : ∀ unit ∈ units, unit < 0x10000) (inIdentifier : Bool) :
    ∀ c ∈ spell inIdentifier units, isIdChar c = true := by
  have hquote : ∀ b : Bool, ∀ c ∈ (if b then [] else ['\'']), isIdChar c = true := by
    intro b c hc
    cases b with
    | true => cases hc
    | false =>
      rw [List.mem_singleton.mp hc]
      rfl
  induction units generalizing inIdentifier with
  | nil => exact hquote inIdentifier
  | cons unit units ih =>
    obtain ⟨hunit, hmore⟩ := List.forall_mem_cons.mp h
    intro c hc
    rw [spell] at hc
    split at hc
    · rename_i hidentifier
      rcases List.mem_append.mp hc with hmark | hrest
      · exact hquote inIdentifier c hmark
      · rcases List.mem_cons.mp hrest with rfl | hrest
        · simp only [isIdentifierUnit, Bool.or_eq_true, Bool.and_eq_true, beq_iff_eq] at hidentifier
          rcases hidentifier with halnum | rfl
          · simp [isIdChar, halnum.2]
          · rfl
        · exact ih hmore true c hrest
    · rcases List.mem_append.mp hc with hcode | hrest
      · rcases List.mem_append.mp hcode with hmark | hcode
        · refine hquote (!inIdentifier) c ?_
          cases inIdentifier <;> exact hmark
        · exact isIdChar_of_isCodeChar ((unitCode_chars hunit).1 c hcode)
      · exact ih hmore false c hrest

theorem encode_chars (name : List Char) : ∀ c ∈ encode name, isIdChar c = true := by
  by_cases h : name ∈ keywords
  · rw [encode_keyword h]
    intro c hc
    rcases List.mem_append.mp hc with hname | hmark
    · exact isIdChar_of_isCodeChar (keywords_chars h c hname)
    · have hall : ('\'' :: (keywordCode ++ ['\''])).all isIdChar = true := by decide
      exact List.all_eq_true.mp hall c hmark
  · rw [encode_eq h]
    apply spell_chars
    intro unit hunit
    obtain ⟨c, -, hc⟩ := List.mem_flatMap.mp hunit
    exact utf16Units_lt c unit hc

/-- An encoding that is a keyword would be read back as one, and keywords are marked. -/
theorem encode_not_keyword (name : List Char) : encode name ∉ keywords := by
  intro hkeyword
  have hself : decode (encode name) = .ok (encode name) := by
    have hchars := @decodeFrom_chars (encode name) [] [] _
      (keywords_chars hkeyword) []
    rw [List.append_nil, List.nil_append] at hchars
    rw [decode, hchars, decodeFrom, if_pos rfl]
  rw [decode_encode] at hself
  have hsame : name = encode name := Except.ok.inj hself
  rw [← hsame] at hkeyword
  have hlength := congrArg List.length (encode_keyword hkeyword)
  rw [← hsame] at hlength
  simp at hlength

theorem encode_start (name : List Char) :
    (∃ first rest, encode name = first :: rest ∧ isIdStart first = true) ↔
      ∃ first rest, name = first :: rest ∧ isIdStart first = true := by
  by_cases h : name ∈ keywords
  · rw [encode_keyword h]
    cases name with
    | nil => exact absurd h (by decide)
    | cons first name => simp
  · rw [encode_eq h]
    cases name with
    | nil => simp [spell]
    | cons c name =>
      have hletter : isIdStart c = true → isCodeChar c = true := fun hc => by
        simp [isCodeChar, Char.isAlphanum, show c.isAlpha = true from hc]
      rw [List.flatMap_cons]
      rcases utf16Units_cases c with ⟨hc, hunits, hstays⟩ | ⟨hc, hspecial⟩
      · simp [hunits, spell, hstays]
      · obtain ⟨unit, more, hcons⟩ : ∃ unit more, utf16Units c = unit :: more := by
          unfold utf16Units
          split <;> exact ⟨_, _, rfl⟩
        have hfirst := hspecial unit (by simp [hcons])
        have hquote : isIdStart '\'' = false := rfl
        have hstart : isIdStart c = false := by
          refine Bool.eq_false_iff.mpr fun hstart => ?_
          rw [hletter hstart] at hc
          cases hc
        simp [hcons, spell, hfirst, hquote, hstart]

/-- A start that begins with a letter makes any encoding an identifier, unless it makes a word. -/
theorem isKoreIdentifier_append {start : List Char} (name : List Char)
    (hchars : ∀ c ∈ start, isIdChar c = true)
    (hfirst : ∃ first rest, start = first :: rest ∧ isIdStart first = true)
    (hkeywords : ∀ text ∈ keywords, text.head? ≠ start.head?) :
    IsKoreIdentifier (start ++ encode name) := by
  obtain ⟨first, rest, rfl, hstart⟩ := hfirst
  refine (isKoreIdentifier_iff ?_ fun hmem => hkeywords _ hmem (by simp)).mpr
    ⟨first, rest ++ encode name, rfl, hstart⟩
  intro c hc
  rcases List.mem_append.mp hc with hc | hc
  · exact hchars c hc
  · exact encode_chars name c hc

theorem strip_append (start text : List Char) : strip start (start ++ text) = some text := by
  induction start with
  | nil => rw [strip.eq_def, List.nil_append]
  | cons c start ih => rw [List.cons_append, strip, if_pos rfl, ih]

theorem encodeLabel_spec (name : List Char) :
    IsKoreIdentifier (encodeLabel name) ∧ decodeLabel (encodeLabel name) = .ok name := by
  constructor
  · refine isKoreIdentifier_append name (List.all_eq_true.mp (by decide)) ⟨'L', _, rfl, rfl⟩ ?_
    decide
  · rw [decodeLabel, encodeLabel, strip_append, Option.getD_some, decode_encode]

theorem encodeSortName_spec (name : List Char) :
    IsKoreIdentifier (encodeSortName name) ∧ decodeSortName (encodeSortName name) = .ok name := by
  constructor
  · refine isKoreIdentifier_append name (List.all_eq_true.mp (by decide)) ⟨'S', _, rfl, rfl⟩ ?_
    decide
  · rw [decodeSortName, encodeSortName, strip_append]
    exact decode_encode name

theorem isKoreIdentifier_variable (name : List Char) :
    IsKoreIdentifier (variablePrefix ++ encode name) := by
  refine isKoreIdentifier_append name (List.all_eq_true.mp (by decide)) ⟨'V', _, rfl, rfl⟩ ?_
  decide

theorem decodeVariable_encodeVariable (name : List Char) (kind : VariableKind) :
    decodeVariable (encodeVariable name kind) = (kind, .ok name) := by
  cases kind with
  | element =>
    have hsigil : strip [setVariableSigil] (variablePrefix ++ encode name) = none := rfl
    rw [decodeVariable, encodeVariable, hsigil]
    simp only [strip_append, Option.getD_some, decode_encode]
  | set =>
    have hsigil : strip [setVariableSigil] (setVariableSigil :: variablePrefix ++ encode name) =
        some (variablePrefix ++ encode name) := strip_append [setVariableSigil] _
    rw [decodeVariable, encodeVariable, hsigil]
    simp only [strip_append, Option.getD_some, decode_encode]

/-- The names that have a kind in KORE. -/
inductive KName where
  | label (name : List Char)
  | sort (name : List Char)
  | variable (name : List Char) (kind : VariableKind)

def KName.encode : KName → List Char
  | .label name => encodeLabel name
  | .sort name => encodeSortName name
  | .variable name kind => encodeVariable name kind

/-- The prefixes tell the kinds apart, and each kind is read back. -/
theorem KName.encode_injective : Function.Injective KName.encode := by
  have hhead : ∀ k : KName, k.encode.head? =
      match k with
      | .label _ => some 'L'
      | .sort _ => some 'S'
      | .variable _ .element => some 'V'
      | .variable _ .set => some '@' := by
    rintro (name | name | ⟨name, kind⟩)
    · rfl
    · rfl
    · cases kind <;> rfl
  intro first second heq
  have hheads := (hhead first).symm.trans ((congrArg List.head? heq).trans (hhead second))
  cases first with
  | label name =>
    cases second with
    | label other =>
      have hname := congrArg decodeLabel heq
      rw [KName.encode, KName.encode, (encodeLabel_spec name).2, (encodeLabel_spec other).2] at hname
      rw [Except.ok.inj hname]
    | sort other => simp at hheads
    | «variable» other kind => cases kind <;> simp at hheads
  | sort name =>
    cases second with
    | label other => simp at hheads
    | sort other =>
      have hname := congrArg decodeSortName heq
      rw [KName.encode, KName.encode, (encodeSortName_spec name).2,
        (encodeSortName_spec other).2] at hname
      rw [Except.ok.inj hname]
    | «variable» other kind => cases kind <;> simp at hheads
  | «variable» name kind =>
    cases second with
    | label other => cases kind <;> simp at hheads
    | sort other => cases kind <;> simp at hheads
    | «variable» other kind' =>
      have hname := congrArg decodeVariable heq
      rw [KName.encode, KName.encode, decodeVariable_encodeVariable,
        decodeVariable_encodeVariable, Prod.mk.injEq] at hname
      rw [hname.1, Except.ok.inj hname.2]

/-- A name that starts with no letter is encoded as a text that is no identifier. -/
theorem encode_underscore : encode ['_'] = "'Unds'".toList ∧ ¬ IsKoreIdentifier (encode ['_']) := by
  have hencode : encode ['_'] = "'Unds'".toList := by decide
  refine ⟨hencode, fun h => ?_⟩
  rw [hencode] at h
  exact absurd h.1 (by decide)

/-- Names are read back from their encodings, which have the characters of identifiers, are no
keywords, and are identifiers where the names start with a letter; with the prefix of a kind they
always are, and no two names share one. -/
theorem encode_correct :
    (∀ name, decode (encode name) = .ok name) ∧ Function.Injective encode ∧
    (∀ name, (∀ c ∈ encode name, isIdChar c = true) ∧ Kore.classifyId (encode name) = .id ∧
      (IsKoreIdentifier (encode name) ↔
        ∃ first rest, name = first :: rest ∧ isIdStart first = true)) ∧
    (∀ name, IsKoreIdentifier (encodeLabel name) ∧ decodeLabel (encodeLabel name) = .ok name) ∧
    (∀ name, IsKoreIdentifier (encodeSortName name) ∧
      decodeSortName (encodeSortName name) = .ok name) ∧
    (∀ name, IsKoreIdentifier (encodeVariable name .element) ∧
      setVariableProblems (encodeVariable name .set) = [] ∧
      ∀ kind, decodeVariable (encodeVariable name kind) = (kind, .ok name)) ∧
    Function.Injective KName.encode := by
  refine ⟨decode_encode, fun name other heq => ?_, fun name => ⟨encode_chars name,
    classifyId_eq_id (encode_not_keyword name), ?_⟩, encodeLabel_spec, encodeSortName_spec,
    fun name => ⟨isKoreIdentifier_variable name, ?_, decodeVariable_encodeVariable name⟩,
    KName.encode_injective⟩
  · have hname := congrArg decode heq
    rw [decode_encode, decode_encode] at hname
    exact Except.ok.inj hname
  · rw [isKoreIdentifier_iff (encode_chars name) (encode_not_keyword name), encode_start]
  · rw [Kore.setVariableProblems_eq_nil]
    exact ⟨_, rfl, Kore.identifierProblems_eq_nil.mp (isKoreIdentifier_variable name).1⟩

end Identifiers

end KRust.Kast.Identifier
