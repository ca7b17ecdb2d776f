import KRust.Domain.IntegerTextLaws

/-!
The canonical text of a payload of an integer sort or of a machine-integer sort, for payloads
that may be no text and texts that may be no literal.
-/

set_option linter.unusedSectionVars false

namespace KRust.Domain

open KRust.Lib KRust.Lib.Decimal

variable {S : Type} [DomainSort S]

section Payloads

/-- The element of the sort that a payload names. -/
def Denotes (kind : DomainKind) (sort : S) (payload : List UInt8) (element : Int) : Prop :=
  ∃ text, Utf8.decode payload = some text ∧ Names kind sort text element

/-- The payload that is built for a payload: that of its canonical text, or itself. -/
def canonicalPayload (numbers : NumberTexts) (kind : DomainKind) (sort : S)
    (payload : List UInt8) : Option (List UInt8) :=
  (canonicalText numbers kind sort payload).map fun replacement =>
    (replacement.map Utf8.encode).getD payload

/-- What is promised of the canonical text of a payload, beside another one. -/
structure Canonicalised (numbers : NumberTexts) (kind : DomainKind) (sort : S)
    (payload other : List UInt8) : Prop where
  total : ∃ replacement, canonicalText numbers kind sort payload = some replacement
  keepsElement : ∀ text, canonicalText numbers kind sort payload = some (some text) →
    ∃ element, Denotes kind sort payload element ∧ Names kind sort text element
  settled : ∀ text, canonicalText numbers kind sort payload = some (some text) →
    canonicalText numbers kind sort (Utf8.encode text) = some none
  keepsOthers : (∀ element, ¬ Denotes kind sort payload element) →
    canonicalText numbers kind sort payload = some none
  agrees : validateText numbers kind sort payload = .ok () →
    validateText numbers kind sort other = .ok () →
    ∀ element, Denotes kind sort payload element → Denotes kind sort other element →
    canonicalPayload numbers kind sort payload = canonicalPayload numbers kind sort other

/-- A numeral with separators between its digits, which only the parser of numbers takes. -/
def Separated (kind : DomainKind) (payload : List UInt8) : Prop :=
  kind = .int ∧
    ∃ text, Utf8.decode payload = some text ∧ isNumeral text = true ∧ '_' ∈ text

/-- Two literals that are not negative, of a width that no machine word holds, whose numbers
differ by a multiple of the sort's modulus. -/
def BeyondWord (kind : DomainKind) (sort : S) (payload other : List UInt8) : Prop :=
  kind = .mint .unrepresentable ∧
    ∃ digits left right, mintWidthDigits sort = some digits ∧
      (Utf8.decode payload >>= MIntLiteral.parse) = some left ∧
      (Utf8.decode other >>= MIntLiteral.parse) = some right ∧
      (left.namesWidth digits = true ∧ left.isNegative = false) ∧
      (right.namesWidth digits = true ∧ right.isNegative = false) ∧
      value left.magnitude ≠ value right.magnitude ∧
      value left.magnitude % 2 ^ value digits = value right.magnitude % 2 ^ value digits

/-- Nothing is to be shown of a replacement where a payload is kept. -/
theorem Canonicalised.of_kept {numbers : NumberTexts} {kind : DomainKind} {sort : S}
    {payload other : List UInt8} (hkept : canonicalText numbers kind sort payload = some none)
    (hagrees : validateText numbers kind sort payload = .ok () →
      validateText numbers kind sort other = .ok () →
      ∀ element, Denotes kind sort payload element → Denotes kind sort other element →
      canonicalPayload numbers kind sort payload = canonicalPayload numbers kind sort other) :
    Canonicalised numbers kind sort payload other := by
  have hnone {text : List Char} :
      canonicalText numbers kind sort payload ≠ some (some text) := by
    rw [hkept]
    exact nofun
  exact ⟨⟨_, hkept⟩, fun _ htext => absurd htext hnone, fun _ htext => absurd htext hnone,
    fun _ => hkept, hagrees⟩

end Payloads

section Integers

variable {numbers : NumberTexts} {sort : S}

theorem canonicalText_int {payload : List UInt8} {text : List Char}
    (h : Utf8.decode payload = some text) :
    canonicalText numbers .int sort payload = some (canonicalIntText numbers text) := by
  rw [canonicalText, h]
  rfl

/-- An integer is built with the display of its number. -/
theorem canonicalPayload_int (hnumbers : numbers.Documented) {payload : List UInt8} {n : Int}
    (h : Denotes .int sort payload n) :
    canonicalPayload numbers .int sort payload = some (Utf8.encode (printInt n)) := by
  obtain ⟨text, hdecode, hdecimal⟩ := h
  rw [canonicalPayload, canonicalText_int hdecode, canonicalIntText_of_decimal hnumbers hdecimal]
  split
  · rename_i htext
    rw [← htext, Utf8.encode_of_decode hdecode]
    rfl
  · rfl

theorem canonicalised_int (hnumbers : numbers.Documented) {payload : List UInt8}
    (hplain : ¬ Separated .int payload) (other : List UInt8) :
    Canonicalised numbers .int sort payload other := by
  cases hdecode : Utf8.decode payload with
  | none =>
    have hkept : canonicalText numbers .int sort payload = some none := by
      rw [canonicalText, hdecode]
      rfl
    have hnone (element : Int) : ¬ Denotes .int sort payload element := by
      rintro ⟨text, htext, -⟩
      rw [hdecode] at htext
      cases htext
    exact .of_kept hkept fun _ _ element hdenotes => absurd hdenotes (hnone element)
  | some text =>
    have hcanonical : canonicalText numbers .int sort payload =
        some (canonicalIntText numbers text) := canonicalText_int hdecode
    have hagrees (element : Int) (hleft : Denotes .int sort payload element)
        (hright : Denotes .int sort other element) :
        canonicalPayload numbers .int sort payload = canonicalPayload numbers .int sort other := by
      rw [canonicalPayload_int hnumbers hleft, canonicalPayload_int hnumbers hright]
    by_cases hdecimal : ∃ n, decimal text = some n
    · obtain ⟨n, hn⟩ := hdecimal
      have hdenotes : Denotes .int sort payload n := ⟨text, hdecode, hn⟩
      rw [canonicalIntText_of_decimal hnumbers hn] at hcanonical
      have hreplaced {replacement : List Char}
          (h : canonicalText numbers .int sort payload = some (some replacement)) :
          replacement = printInt n := by
        rw [hcanonical] at h
        split at h
        · cases h
        · cases h
          rfl
      refine ⟨⟨_, hcanonical⟩, ?_, ?_, fun h => absurd hdenotes (h n), fun _ _ => hagrees⟩
      · intro replacement h
        rw [hreplaced h]
        exact ⟨n, hdenotes, decimal_printInt n⟩
      · intro replacement h
        rw [hreplaced h, canonicalText_int (Utf8.decode_encode _),
          canonicalIntText_of_decimal hnumbers (decimal_printInt n), if_pos rfl]
    · have hnot (n : Int) : decimal text ≠ some n := fun hn => hdecimal ⟨n, hn⟩
      have hnumeral : ¬ isNumeral text = true := by
        intro hnumeral
        by_cases hseparator : '_' ∈ text
        · exact hplain ⟨rfl, text, hdecode, hnumeral, hseparator⟩
        · exact hnot _ (decimal_of_isNumeral hnumeral hseparator)
      rw [canonicalIntText_of_not_decimal hnumbers hnot, if_neg hnumeral] at hcanonical
      exact .of_kept hcanonical fun _ _ => hagrees

/-- A numeral with separators is replaced, though it names no element. -/
theorem not_canonicalised_of_separated (hnumbers : numbers.Documented)
    {payload other : List UInt8} {kind : DomainKind} (h : Separated kind payload) :
    ¬ Canonicalised numbers kind sort payload other := by
  obtain ⟨rfl, text, hdecode, hnumeral, hseparator⟩ := h
  intro hcanonicalised
  have hnot (n : Int) : decimal text ≠ some n := fun hn =>
    (isNumeral_of_decimal hn).2.1 hseparator
  have hreplaced : canonicalText numbers .int sort payload =
      some (canonicalIntText numbers text) := canonicalText_int hdecode
  rw [canonicalIntText_of_not_decimal hnumbers hnot, if_pos hnumeral] at hreplaced
  obtain ⟨element, ⟨found, hfound, hnames⟩, -⟩ := hcanonicalised.keepsElement _ hreplaced
  rw [hdecode] at hfound
  cases hfound
  exact hnot element hnames

end Integers

section MachineIntegers

variable {numbers : NumberTexts} {sort : S} {width : MIntWidth} {digits : List Char}

/-- A payload that is a literal of a machine-integer sort, and not refused for its bound. -/
structure Accepted (width : MIntWidth) (sort : S) (payload : List UInt8) (digits : List Char)
    (literal : MIntLiteral) : Prop where
  hasWidth : width ≠ .noWidth
  sortDigits : mintWidthDigits sort = some digits
  decodes : Utf8.decode payload = some literal.text
  wellFormed : literal.WellFormed
  names : literal.namesWidth digits = true
  bound : ¬ (literal.isNegative && mintWidthBeyondBound width) = true

theorem accepted_iff {payload : List UInt8} :
    validateText numbers (.mint width) sort payload = .ok () ↔
      ∃ digits literal, Accepted width sort payload digits literal := by
  simp only [validateText]
  constructor
  · intro h
    split at h
    · cases h
    · cases h
    · rename_i digits hwidth hdigits
      split at h
      · cases h
      · rename_i literal hliteral
        obtain ⟨text, hdecode, hparse⟩ := Option.bind_eq_some_iff.mp hliteral
        obtain ⟨hwell, rfl⟩ := MIntLiteral.parse_iff.mp hparse
        split at h
        · cases h
        · rename_i hnames
          split at h
          · cases h
          · rename_i hbound
            exact ⟨digits, literal, fun hno => hwidth hno, hdigits, hdecode, hwell,
              by simpa using hnames, hbound⟩
  · rintro ⟨digits, literal, hwidth, hdigits, hdecode, hwell, hnames, hbound⟩
    have hparse : (Utf8.decode payload >>= MIntLiteral.parse) = some literal := by
      rw [hdecode]
      exact MIntLiteral.parse_iff.mpr ⟨hwell, rfl⟩
    split
    · exact absurd rfl hwidth
    · rename_i hnone
      rw [hdigits] at hnone
      cases hnone
    · rename_i found _ hfound
      cases hdigits.symm.trans hfound
      simp only [hparse, hnames, Bool.not_true, Bool.false_eq_true, if_false, hbound]

/-- What is not accepted is kept. -/
theorem canonicalText_of_not_accepted {payload : List UInt8}
    (h : ∀ digits literal, ¬ Accepted width sort payload digits literal) :
    canonicalText numbers (.mint width) sort payload = some none := by
  simp only [canonicalText]
  split
  · rfl
  · rename_i text hdecode
    unfold canonicalMintText
    split
    · rfl
    · rename_i hwidth
      split
      · rfl
      · rename_i digits hdigits
        split
        · rfl
        · rename_i literal hparse
          obtain ⟨hwell, rfl⟩ := MIntLiteral.parse_iff.mp hparse
          split
          · rfl
          · rename_i hnames
            split
            · rfl
            · rename_i hbound
              exact absurd ⟨hwidth, hdigits, hdecode, hwell, by simpa using hnames, hbound⟩
                (h digits literal)

namespace Accepted

variable {payload other : List UInt8} {literal : MIntLiteral}

theorem isDigits (h : Accepted width sort payload digits literal) : IsDigits digits :=
  mintWidthDigits_digits h.sortDigits

theorem canonicalText (hnumbers : numbers.Documented)
    (h : Accepted width sort payload digits literal) :
    canonicalText numbers (.mint width) sort payload =
      some (if literal.text = written digits (residue width literal) then none
        else some (written digits (residue width literal))) := by
  simp only [Domain.canonicalText, h.decodes]
  exact canonicalMintText_of_literal hnumbers h.hasWidth h.sortDigits h.wellFormed h.names h.bound

/-- A literal is built with its residue as it is written. -/
theorem canonicalPayload (hnumbers : numbers.Documented)
    (h : Accepted width sort payload digits literal) :
    canonicalPayload numbers (.mint width) sort payload =
      some (Utf8.encode (written digits (residue width literal))) := by
  rw [Domain.canonicalPayload, h.canonicalText hnumbers]
  split
  · rename_i htext
    rw [← htext, Utf8.encode_of_decode h.decodes]
    rfl
  · rfl

theorem denotes_iff (h : Accepted width sort payload digits literal) {element : Int} :
    Denotes (.mint width) sort payload element ↔
      element = literal.signed % 2 ^ value digits := by
  rw [Denotes]
  simp only [h.decodes, Option.some.injEq, exists_eq_left']
  rw [names_mint_iff]
  constructor
  · rintro ⟨digits', literal', hdigits, hparse, -, rfl⟩
    cases h.sortDigits.symm.trans hdigits
    cases (MIntLiteral.parse_iff.mpr ⟨h.wellFormed, rfl⟩).symm.trans hparse
    rfl
  · rintro rfl
    exact ⟨digits, literal, h.sortDigits, MIntLiteral.parse_iff.mpr ⟨h.wellFormed, rfl⟩, h.names, rfl⟩

/-- The bits of a width are what the digits of its sort name. -/
theorem value_digits {bits : Nat} (hsort : mintWidth sort = some (.bits bits))
    (h : Accepted (.bits bits) sort payload digits literal) : value digits = bits := by
  obtain ⟨found, hfound, hvalue⟩ := mintWidth_digits hsort
  cases h.sortDigits.symm.trans hfound
  exact hvalue

theorem signed_of_unrepresentable (h : Accepted .unrepresentable sort payload digits literal) :
    literal.isNegative = false ∧ literal.signed = value literal.magnitude := by
  have hneg : ¬ literal.isNegative = true := fun hneg => h.bound (by rw [hneg]; rfl)
  exact ⟨Bool.eq_false_iff.mpr hneg, signed_of_not_negative h.wellFormed hneg⟩

/-- The residue is an element's number: it differs from the literal's by a multiple of the
modulus, and the same number is its residue. -/
theorem residue_emod (hsort : mintWidth sort = some width)
    (h : Accepted width sort payload digits literal) :
    (residue width literal : Int) % 2 ^ value digits = literal.signed % 2 ^ value digits := by
  cases width with
  | noWidth => exact absurd rfl h.hasWidth
  | unrepresentable =>
    have hresidue : residue .unrepresentable literal = value literal.magnitude := rfl
    rw [hresidue, h.signed_of_unrepresentable.2]
  | bits bits =>
    have hpos : (0 : Int) < 2 ^ bits := by positivity
    rw [residue, h.value_digits hsort, Int.toNat_of_nonneg (Int.emod_nonneg _ (ne_of_gt hpos)),
      Int.emod_emod_of_dvd _ (dvd_refl _)]

theorem of_written (h : Accepted width sort payload digits literal) (n : Nat) :
    Accepted width sort (Utf8.encode (written digits n)) digits
      ⟨none, Nat.toDigits 10 n, 'p', digits⟩ := by
  obtain ⟨hwell, htext⟩ := MIntLiteral.parse_iff.mp (parse_written h.isDigits n)
  refine ⟨h.hasWidth, h.sortDigits, ?_, hwell, ?_, ?_⟩
  · rw [Utf8.decode_encode, htext]
  · exact (MIntLiteral.namesWidth_iff hwell h.isDigits.2).mpr rfl
  · simp [MIntLiteral.isNegative]

theorem residue_written (h : Accepted width sort payload digits literal) :
    residue width ⟨none, Nat.toDigits 10 (residue width literal), 'p', digits⟩ =
      residue width literal := by
  have hsigned (n : Nat) :
      (MIntLiteral.signed ⟨none, Nat.toDigits 10 n, 'p', digits⟩ : Int) = n := by
    rw [MIntLiteral.signed, if_neg (Option.some_ne_none _).symm, value_toDigits]
  cases width with
  | noWidth => exact absurd rfl h.hasWidth
  | unrepresentable => exact value_toDigits _
  | bits bits =>
    have hpos : (0 : Int) < 2 ^ bits := by positivity
    have hnonneg := Int.emod_nonneg literal.signed (ne_of_gt hpos)
    have hlt := Int.emod_lt_of_pos literal.signed hpos
    rw [residue, hsigned, residue, Int.toNat_of_nonneg hnonneg, Int.emod_eq_of_lt hnonneg hlt]

end Accepted

theorem canonicalised_mint (hnumbers : numbers.Documented) (hsort : mintWidth sort = some width)
    {payload other : List UInt8} (hword : ¬ BeyondWord (.mint width) sort payload other) :
    Canonicalised numbers (.mint width) sort payload other := by
  by_cases hleft : ∃ digits literal, Accepted width sort payload digits literal
  · obtain ⟨digits, literal, h⟩ := hleft
    have hreplaced {text : List Char}
        (htext : canonicalText numbers (.mint width) sort payload = some (some text)) :
        text = written digits (residue width literal) := by
      rw [h.canonicalText hnumbers] at htext
      split at htext
      · cases htext
      · cases htext
        rfl
    have hdenotes := h.denotes_iff.mpr rfl
    refine ⟨⟨_, h.canonicalText hnumbers⟩, ?_, ?_, fun hnone => absurd hdenotes (hnone _), ?_⟩
    · intro text htext
      rw [hreplaced htext]
      obtain ⟨found, hfound, hnames⟩ := (h.of_written (residue width literal)).denotes_iff.mpr rfl
      rw [Utf8.decode_encode] at hfound
      cases hfound
      refine ⟨_, hdenotes, ?_⟩
      rw [← h.residue_emod hsort]
      rw [MIntLiteral.signed, if_neg (Option.some_ne_none _).symm, value_toDigits] at hnames
      exact hnames
    · intro text htext
      have hwritten := h.of_written (residue width literal)
      rw [hreplaced htext, hwritten.canonicalText hnumbers, h.residue_written, if_pos]
      rfl
    · intro _ hright element hl hr
      obtain ⟨digits', literal', h'⟩ := accepted_iff.mp hright
      cases h.sortDigits.symm.trans h'.sortDigits
      rw [h.canonicalPayload hnumbers, h'.canonicalPayload hnumbers]
      have hmod : literal.signed % 2 ^ value digits = literal'.signed % 2 ^ value digits :=
        (h.denotes_iff.mp hl).symm.trans (h'.denotes_iff.mp hr)
      have hresidue : residue width literal = residue width literal' := by
        cases width with
        | noWidth => exact absurd rfl h.hasWidth
        | bits bits =>
          rw [h.value_digits hsort] at hmod
          rw [residue, residue, hmod]
        | unrepresentable =>
          obtain ⟨hneg, hsigned⟩ := h.signed_of_unrepresentable
          obtain ⟨hneg', hsigned'⟩ := h'.signed_of_unrepresentable
          by_contra hne
          rw [hsigned, hsigned'] at hmod
          refine hword ⟨rfl, digits, literal, literal', h.sortDigits, ?_, ?_, ⟨h.names, hneg⟩,
            ⟨h'.names, hneg'⟩, hne, ?_⟩
          · rw [h.decodes]
            exact MIntLiteral.parse_iff.mpr ⟨h.wellFormed, rfl⟩
          · rw [h'.decodes]
            exact MIntLiteral.parse_iff.mpr ⟨h'.wellFormed, rfl⟩
          · exact_mod_cast hmod
      rw [hresidue]
  · have hnone := fun digits literal h => hleft ⟨digits, literal, h⟩
    refine .of_kept (canonicalText_of_not_accepted hnone) fun hvalid => ?_
    exact absurd (accepted_iff.mp hvalid) hleft

theorem not_canonicalised_of_beyondWord (hnumbers : numbers.Documented) {kind : DomainKind}
    {payload other : List UInt8} (h : BeyondWord kind sort payload other) :
    ¬ Canonicalised numbers kind sort payload other := by
  obtain ⟨rfl, digits, left, right, hdigits, hleft, hright, ⟨hleftNames, hleftNeg⟩,
    ⟨hrightNames, hrightNeg⟩, hne, hmod⟩ := h
  intro hcanonicalised
  have haccepted {payload : List UInt8} {literal : MIntLiteral}
      (hread : (Utf8.decode payload >>= MIntLiteral.parse) = some literal)
      (hnames : literal.namesWidth digits = true) (hneg : literal.isNegative = false) :
      Accepted .unrepresentable sort payload digits literal := by
    obtain ⟨text, hdecode, hparse⟩ := Option.bind_eq_some_iff.mp hread
    obtain ⟨hwell, rfl⟩ := MIntLiteral.parse_iff.mp hparse
    exact ⟨nofun, hdigits, hdecode, hwell, hnames, by rw [hneg]; exact nofun⟩
  have hl := haccepted hleft hleftNames hleftNeg
  have hr := haccepted hright hrightNames hrightNeg
  have helements : left.signed % 2 ^ value digits = right.signed % 2 ^ value digits := by
    rw [hl.signed_of_unrepresentable.2, hr.signed_of_unrepresentable.2]
    exact_mod_cast hmod
  have hpayloads := hcanonicalised.agrees (accepted_iff.mpr ⟨_, _, hl⟩)
    (accepted_iff.mpr ⟨_, _, hr⟩) _ (hl.denotes_iff.mpr rfl) (hr.denotes_iff.mpr helements)
  rw [hl.canonicalPayload hnumbers, hr.canonicalPayload hnumbers] at hpayloads
  exact hne (written_injective hl.isDigits (Utf8.encode_injective (Option.some.inj hpayloads)))

end MachineIntegers

section Exact

/-- The kinds of integers, the width being the one that the sort's argument names. -/
def IntegerKind (kind : DomainKind) (sort : S) : Prop :=
  kind = .int ∨ ∃ width, kind = .mint width ∧ mintWidth sort = some width

variable {numbers : NumberTexts} {sort : S} {kind : DomainKind}

/-- The canonical texts of integers and of machine integers are what they are promised to be,
but for the numerals with separators and for the numbers that no machine word counts. -/
theorem canonicalised_iff (hnumbers : numbers.Documented) (hkind : IntegerKind kind sort)
    (payload other : List UInt8) :
    Canonicalised numbers kind sort payload other ↔
      ¬ Separated kind payload ∧ ¬ BeyondWord kind sort payload other := by
  constructor
  · intro h
    exact ⟨fun hseparated => not_canonicalised_of_separated hnumbers hseparated h,
      fun hbeyond => not_canonicalised_of_beyondWord hnumbers hbeyond h⟩
  · rintro ⟨hplain, hword⟩
    rcases hkind with rfl | ⟨width, rfl, hsort⟩
    · exact canonicalised_int hnumbers hplain other
    · exact canonicalised_mint hnumbers hsort hword

/-- Parsers that do what is documented of those of the numbers. -/
def decimalNumbers : NumberTexts where
  parseInt text := if isNumeral text then some (numeralValue text) else none
  parseNat digits := if IsDigits digits then some (value digits) else none
  floatBitsEstimate _ := .error .notALiteral
  floatText _ := .error .notALiteral
  maxFloatCanonicalBits := 2 ^ 20

theorem decimalNumbers_documented : decimalNumbers.Documented :=
  ⟨fun _ => rfl, fun _ h => if_pos h⟩

theorem canonicalised_iff_padded :
    Canonicalised decimalNumbers .int (Nullary.mk intSort) (Utf8.encode "+07".toList)
      (Utf8.encode "7".toList) := by
  have hplain : ¬ Separated .int (Utf8.encode "+07".toList) := by
    rintro ⟨-, text, hdecode, -, hseparator⟩
    rw [Utf8.decode_encode] at hdecode
    cases hdecode
    exact absurd hseparator (by decide)
  have hword : ¬ BeyondWord .int (Nullary.mk intSort) (Utf8.encode "+07".toList)
      (Utf8.encode "7".toList) := fun h => nomatch h.1
  exact (canonicalised_iff decimalNumbers_documented (.inl rfl) _ _).mpr ⟨hplain, hword⟩

/-- The separators are taken out of a text that is refused as no decimal integer. -/
theorem separators_removed :
    canonicalText decimalNumbers .int (Nullary.mk intSort) (Utf8.encode "1_000".toList) =
        some (some "1000".toList) ∧
      validateText decimalNumbers .int (Nullary.mk intSort) (Utf8.encode "1_000".toList) =
        .error (.namesNoElement .notALiteral) ∧
      ¬ Canonicalised decimalNumbers .int (Nullary.mk intSort) (Utf8.encode "1_000".toList)
        (Utf8.encode "1000".toList) := by
  refine ⟨?_, ?_, ?_⟩
  · rw [canonicalText_int (Utf8.decode_encode _)]
    decide
  · have hinteger : isDecimalInteger "1_000".toList = false := by decide
    simp only [validateText, Utf8.decode_encode, Option.any_some, hinteger, Bool.false_eq_true,
      if_false]
  · have hseparated : Separated .int (Utf8.encode "1_000".toList) :=
      ⟨rfl, _, Utf8.decode_encode _, by decide, by decide⟩
    exact not_canonicalised_of_separated decimalNumbers_documented hseparated

end Exact

end KRust.Domain
