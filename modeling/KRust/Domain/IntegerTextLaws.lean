import KRust.Domain.IntegerText
import Mathlib.Data.List.TakeWhile

/-!
The canonical text of an integer is one for each element, and what it replaces is a literal.
-/

set_option linter.unusedSectionVars false

namespace KRust.Domain

open KRust.Lib.Decimal

section Elements

/-- The number that a decimal text with an optional sign names. -/
def decimal (text : List Char) : Option Int :=
  let (sign, digits) := splitSign text
  if IsDigits digits then some (if sign = some '-' then -value digits else value digits) else none

/-- The element of the sort that a text names, where it is a literal of the sort's grammar. -/
def Names {S : Type} [DomainSort S] (kind : DomainKind) (sort : S) (text : List Char)
    (element : Int) : Prop :=
  match kind with
  | .int => decimal text = some element
  | .mint _ => ∃ number separator width digits, mintWidthDigits sort = some digits ∧
      text = number ++ separator :: width ∧ separator ∈ ['p', 'P'] ∧ IsDigits width ∧
      value width = value digits ∧
      ∃ n, decimal number = some n ∧ element = n % 2 ^ value digits
  | _ => False

/-- A sign, a digit, and then digits and separators between them. -/
def isNumeral (text : List Char) : Bool :=
  match (splitSign text).2 with
  | [] => false
  | first :: rest => first.isDigit && rest.all fun c => c.isDigit || c = '_'

def numeralValue (text : List Char) : Int :=
  let (sign, digits) := splitSign text
  let magnitude := value (digits.filter fun c => c ≠ '_')
  if sign = some '-' then -magnitude else magnitude

/-- What the parsers of `BigInt` and `BigUint` do with a decimal text. -/
structure NumberTexts.Documented (numbers : NumberTexts) : Prop where
  parseInt : ∀ text,
    numbers.parseInt text = if isNumeral text then some (numeralValue text) else none
  parseNat : ∀ digits, IsDigits digits → numbers.parseNat digits = some (value digits)

end Elements

section Signs

theorem not_sign_of_isDigit {c : Char} (h : c.isDigit = true) : c ≠ '+' ∧ c ≠ '-' := by
  constructor
  · rintro rfl
    cases h
  · rintro rfl
    cases h

theorem splitSign_of_digit {first : Char} {rest : List Char} (h : first.isDigit = true) :
    splitSign (first :: rest) = (none, first :: rest) := by
  obtain ⟨hplus, hminus⟩ := not_sign_of_isDigit h
  unfold splitSign
  split
  · exact absurd (List.cons.inj ‹_›).1 hplus
  · exact absurd (List.cons.inj ‹_›).1 hminus
  · rfl

theorem splitSign_digits {digits : List Char} (h : IsDigits digits) (rest : List Char) :
    splitSign (digits ++ rest) = (none, digits ++ rest) := by
  cases digits with
  | nil => exact absurd rfl h.1
  | cons first digits => exact splitSign_of_digit (h.2 first List.mem_cons_self)

/-- A text is its sign and what follows it. -/
theorem splitSign_text (text : List Char) :
    text = (splitSign text).1.toList ++ (splitSign text).2 := by
  unfold splitSign
  split <;> rfl

theorem splitSign_sign {text : List Char} {sign : Char} (h : (splitSign text).1 = some sign) :
    sign = '+' ∨ sign = '-' := by
  unfold splitSign at h
  split at h
  · exact .inl (Option.some.inj h).symm
  · exact .inr (Option.some.inj h).symm
  · cases h

end Signs

section Integers

theorem decimal_of_digits {digits : List Char} (h : IsDigits digits) :
    decimal digits = some (value digits : Int) := by
  have hsplit := splitSign_digits h []
  rw [List.append_nil] at hsplit
  simp [decimal, hsplit, h]

theorem decimal_neg {digits : List Char} (h : IsDigits digits) :
    decimal ('-' :: digits) = some (-(value digits : Int)) := by
  simp [decimal, splitSign, h]

@[simp] theorem decimal_printInt (n : Int) : decimal (printInt n) = some n := by
  unfold printInt
  split
  · rw [decimal_neg (isDigits_toDigits _), value_toDigits]
    congr 1
    omega
  · rw [decimal_of_digits (isDigits_toDigits _), value_toDigits]
    congr 1
    omega

theorem isNumeral_of_decimal {text : List Char} {n : Int} (h : decimal text = some n) :
    isNumeral text = true ∧ '_' ∉ text ∧ numeralValue text = n := by
  unfold decimal at h
  obtain ⟨htext, hsign⟩ := And.intro (splitSign_text text) (@splitSign_sign text)
  revert h htext hsign
  generalize hsplit : splitSign text = split
  obtain ⟨sign, digits⟩ := split
  intro h htext hsign
  dsimp only at h htext hsign
  split at h
  · rename_i hdigits
    have hnone : '_' ∉ digits := fun hmem => by
      have := hdigits.2 '_' hmem
      cases this
    have hfilter : (digits.filter fun c => decide (c ≠ '_')) = digits := by
      apply List.filter_eq_self.mpr
      intro c hc
      exact decide_eq_true fun heq => hnone (heq ▸ hc)
    refine ⟨?_, ?_, ?_⟩
    · rw [isNumeral, hsplit]
      cases digits with
      | nil => exact absurd rfl hdigits.1
      | cons first digits =>
        obtain ⟨hfirst, hrest⟩ := List.forall_mem_cons.mp hdigits.2
        simp only [hfirst, Bool.true_and, List.all_eq_true, Bool.or_eq_true]
        exact fun c hc => .inl (hrest c hc)
    · rw [htext, List.mem_append, not_or]
      refine ⟨?_, hnone⟩
      cases sign with
      | none => exact List.not_mem_nil
      | some sign =>
        rcases hsign rfl with rfl | rfl <;> decide
    · rw [numeralValue, hsplit]
      dsimp only
      rw [hfilter]
      exact Option.some.inj h
  · cases h

theorem decimal_of_isNumeral {text : List Char} (h : isNumeral text = true) (hnone : '_' ∉ text) :
    decimal text = some (numeralValue text) := by
  have htext := splitSign_text text
  unfold isNumeral at h
  unfold decimal numeralValue
  revert h htext
  generalize splitSign text = split
  obtain ⟨sign, digits⟩ := split
  intro h htext
  dsimp only at h htext ⊢
  cases digits with
  | nil => cases h
  | cons first digits =>
    simp only [Bool.and_eq_true, List.all_eq_true, Bool.or_eq_true, decide_eq_true_eq] at h
    have hmem : ∀ c ∈ first :: digits, c ≠ '_' := by
      rintro c hc rfl
      rw [htext] at hnone
      exact hnone (List.mem_append_right _ hc)
    have hdigits : IsDigits (first :: digits) := by
      refine ⟨List.cons_ne_nil _ _, List.forall_mem_cons.mpr ⟨h.1, fun c hc => ?_⟩⟩
      exact (h.2 c hc).resolve_right (hmem c (List.mem_cons_of_mem _ hc))
    have hfilter : ((first :: digits).filter fun c => decide (c ≠ '_')) = first :: digits :=
      List.filter_eq_self.mpr fun c hc => decide_eq_true (hmem c hc)
    rw [if_pos hdigits, hfilter]

theorem nonzero_digit_iff {c : Char} : ('1' ≤ c ∧ c ≤ '9') ↔ (c.isDigit = true ∧ c ≠ '0') := by
  have hle (a b : Char) : a ≤ b ↔ a.toNat ≤ b.toNat := by
    rw [Char.le_def, UInt32.le_iff_toNat_le]
    rfl
  have hne : c ≠ '0' ↔ c.toNat ≠ 48 := not_congr Char.toNat_inj.symm
  have hdigit : c.isDigit = true ↔ 48 ≤ c.toNat ∧ c.toNat ≤ 57 := by
    rw [Char.isDigit, Bool.and_eq_true, decide_eq_true_eq, decide_eq_true_eq]
    exact and_congr UInt32.le_iff_toNat_le UInt32.le_iff_toNat_le
  have h1 : '1'.toNat = 49 := rfl
  have h9 : '9'.toNat = 57 := rfl
  rw [hle, hle, hne, hdigit, h1, h9]
  omega

/-- Digits whose first is not a zero, as the canonical test reads them. -/
def Leads (first : Char) (rest : List Char) : Prop :=
  ('1' ≤ first && first ≤ '9' && rest.all Char.isDigit) = true

theorem leads_iff {first : Char} {rest : List Char} :
    Leads first rest ↔ IsDigits (first :: rest) ∧ first ≠ '0' := by
  have hnonzero := @nonzero_digit_iff first
  simp only [Leads, Bool.and_eq_true, decide_eq_true_eq, List.all_eq_true, IsDigits,
    List.forall_mem_cons, hnonzero]
  constructor
  · rintro ⟨⟨hfirst, hne⟩, hrest⟩
    exact ⟨⟨List.cons_ne_nil _ _, hfirst, hrest⟩, hne⟩
  · rintro ⟨⟨-, hfirst, hrest⟩, hne⟩
    exact ⟨⟨hfirst, hne⟩, hrest⟩

theorem Leads.value_pos {first : Char} {rest : List Char} (h : Leads first rest) :
    0 < value (first :: rest) := by
  obtain ⟨hdigits, hne⟩ := leads_iff.mp h
  exact Lib.Decimal.value_pos hdigits fun heq => hne (Option.some.inj heq)

theorem Leads.toDigits {first : Char} {rest : List Char} (h : Leads first rest) :
    Nat.toDigits 10 (value (first :: rest)) = first :: rest := by
  obtain ⟨hdigits, hne⟩ := leads_iff.mp h
  exact toDigits_value hdigits (.inr fun heq => hne (Option.some.inj heq))

theorem leads_toDigits {n : Nat} (h : 0 < n) :
    ∃ first rest, Nat.toDigits 10 n = first :: rest ∧ Leads first rest := by
  cases htext : Nat.toDigits 10 n with
  | nil => exact absurd htext Nat.toDigits_ne_nil
  | cons first rest =>
    refine ⟨first, rest, rfl, leads_iff.mpr ⟨?_, ?_⟩⟩
    · rw [← htext]
      exact isDigits_toDigits n
    · rintro rfl
      have hvalue := value_toDigits n
      rcases shortest_toDigits n with hzero | hhead
      · rw [hzero] at hvalue
        have : value ['0'] = 0 := rfl
        omega
      · rw [htext] at hhead
        exact hhead rfl

/-- The canonical texts are the displays of the integers. -/
theorem isCanonicalInt_iff (text : List Char) :
    isCanonicalInt text = true ↔ ∃ n, decimal text = some n ∧ printInt n = text := by
  constructor
  · intro h
    unfold isCanonicalInt at h
    split at h
    · exact ⟨0, rfl, rfl⟩
    · rename_i first rest
      have hleads : Leads first rest := h
      have hpos := hleads.value_pos
      refine ⟨_, decimal_neg (leads_iff.mp hleads).1, ?_⟩
      rw [printInt, if_pos (by omega), Int.natAbs_neg, Int.natAbs_natCast, hleads.toDigits]
    · rename_i first rest _ _
      have hleads : Leads first rest := h
      refine ⟨_, decimal_of_digits (leads_iff.mp hleads).1, ?_⟩
      rw [printInt, if_neg (by omega), Int.natAbs_natCast, hleads.toDigits]
    · cases h
  · rintro ⟨n, -, rfl⟩
    unfold printInt
    split
    · rename_i hneg
      obtain ⟨first, rest, htext, hleads⟩ := leads_toDigits (n := n.natAbs) (by omega)
      rw [htext]
      exact hleads
    · by_cases hzero : n = 0
      · subst hzero
        rfl
      · obtain ⟨first, rest, htext, hleads⟩ := leads_toDigits (n := n.natAbs) (by omega)
        obtain ⟨hdigits, hne⟩ := leads_iff.mp hleads
        have hsign := not_sign_of_isDigit (hdigits.2 first List.mem_cons_self)
        rw [htext]
        unfold isCanonicalInt
        split
        · rfl
        · exact absurd (List.cons.inj ‹_›).1 hsign.2
        · obtain ⟨rfl, rfl⟩ := List.cons.inj ‹_›
          exact hleads
        · cases ‹_›

variable {numbers : NumberTexts}

/-- A decimal integer is replaced by the display of its number, unless it is that already. -/
theorem canonicalIntText_of_decimal (hnumbers : numbers.Documented) {text : List Char} {n : Int}
    (h : decimal text = some n) :
    canonicalIntText numbers text = if text = printInt n then none else some (printInt n) := by
  obtain ⟨hnumeral, -, hvalue⟩ := isNumeral_of_decimal h
  unfold canonicalIntText
  by_cases hcanonical : isCanonicalInt text = true
  · obtain ⟨m, hm, htext⟩ := (isCanonicalInt_iff text).mp hcanonical
    obtain rfl := Option.some.inj (h.symm.trans hm)
    rw [if_pos hcanonical, if_pos htext.symm]
  · have hne : text ≠ printInt n := by
      rintro rfl
      exact hcanonical ((isCanonicalInt_iff _).mpr ⟨n, h, rfl⟩)
    rw [if_neg hcanonical, if_neg hne, hnumbers.parseInt, if_pos hnumeral, hvalue]
    rfl

/-- A text that is no decimal integer is kept, unless it is a numeral with separators. -/
theorem canonicalIntText_of_not_decimal (hnumbers : numbers.Documented) {text : List Char}
    (h : ∀ n, decimal text ≠ some n) :
    canonicalIntText numbers text =
      if isNumeral text = true then some (printInt (numeralValue text)) else none := by
  unfold canonicalIntText
  have hcanonical : ¬ isCanonicalInt text = true := fun hcanonical => by
    obtain ⟨n, hn, -⟩ := (isCanonicalInt_iff text).mp hcanonical
    exact h n hn
  rw [if_neg hcanonical, hnumbers.parseInt]
  split <;> rfl

end Integers

namespace MIntLiteral

def text (literal : MIntLiteral) : List Char :=
  literal.sign.toList ++ literal.magnitude ++ literal.separator :: literal.width

structure WellFormed (literal : MIntLiteral) : Prop where
  sign : ∀ sign, literal.sign = some sign → sign = '+' ∨ sign = '-'
  magnitude : IsDigits literal.magnitude
  separator : isSeparator literal.separator = true
  width : IsDigits literal.width

/-- The number before the separator. -/
def signed (literal : MIntLiteral) : Int :=
  if literal.sign = some '-' then -value literal.magnitude else value literal.magnitude

theorem digits_not_separator {digits : List Char} (h : IsDigits digits) :
    ∀ c ∈ digits, (!isSeparator c) = true := by
  intro c hc
  have hdigit := h.2 c hc
  simp only [isSeparator, Bool.not_eq_true', Bool.or_eq_false_iff, decide_eq_false_iff_not]
  constructor
  · rintro rfl
    cases hdigit
  · rintro rfl
    cases hdigit

theorem splitSign_signed {sign : Option Char} {digits : List Char}
    (hsign : ∀ c, sign = some c → c = '+' ∨ c = '-') (h : IsDigits digits) (rest : List Char) :
    splitSign (sign.toList ++ digits ++ rest) = (sign, digits ++ rest) := by
  cases sign with
  | none => exact splitSign_digits h rest
  | some c => rcases hsign c rfl with rfl | rfl <;> rfl

/-- A literal is the parts that are read from its text. -/
theorem parse_iff {input : List Char} {literal : MIntLiteral} :
    parse input = some literal ↔ literal.WellFormed ∧ literal.text = input := by
  constructor
  · intro h
    unfold parse at h
    have htext := splitSign_text input
    have hsign := @splitSign_sign input
    revert h htext hsign
    generalize splitSign input = split
    obtain ⟨sign, rest⟩ := split
    intro h htext hsign
    dsimp only at h htext hsign
    split at h
    · cases h
    · rename_i separator width htail
      split at h
      · rename_i hparts
        cases h
        have hseparator : isSeparator separator = true := by
          have := List.head?_dropWhile_not (fun c => !isSeparator c) rest
          rw [htail] at this
          simpa using this
        refine ⟨⟨fun c hc => hsign hc, hparts.1, hseparator, hparts.2⟩, ?_⟩
        rw [text, List.append_assoc, ← htail, List.takeWhile_append_dropWhile, ← htext]
      · cases h
  · rintro ⟨hwell, rfl⟩
    have hsplit := splitSign_signed hwell.sign hwell.magnitude (literal.separator :: literal.width)
    have htake : (literal.magnitude ++ literal.separator :: literal.width).takeWhile
        (fun c => !isSeparator c) = literal.magnitude := by
      rw [List.takeWhile_append_of_pos (digits_not_separator hwell.magnitude),
        List.takeWhile_cons_of_neg (by simp [hwell.separator]), List.append_nil]
    have hdrop : (literal.magnitude ++ literal.separator :: literal.width).dropWhile
        (fun c => !isSeparator c) = literal.separator :: literal.width := by
      rw [List.dropWhile_append_of_pos (digits_not_separator hwell.magnitude),
        List.dropWhile_cons_of_neg (by simp [hwell.separator])]
    simp only [parse, text, hsplit, htake, hdrop]
    rw [if_pos ⟨hwell.magnitude, hwell.width⟩]

theorem namesWidth_iff {literal : MIntLiteral} (hwell : literal.WellFormed) {digits : List Char}
    (hdigits : ∀ c ∈ digits, c.isDigit = true) :
    literal.namesWidth digits = true ↔ value literal.width = value digits := by
  rw [value_eq_iff hwell.width.2 hdigits, namesWidth, decide_eq_true_eq]

theorem value_eq_zero_iff {digits : List Char} (h : ∀ c ∈ digits, c.isDigit = true) :
    value digits = 0 ↔ ∀ c ∈ digits, c = '0' := by
  have hnone : ∀ c ∈ ([] : List Char), c.isDigit = true := nofun
  have := value_eq_iff h hnone
  rw [show value [] = 0 from rfl] at this
  rw [this, List.dropWhile_nil, List.dropWhile_eq_nil_iff]
  simp

/-- A literal is negative when its number is. -/
theorem isNegative_iff {literal : MIntLiteral} (hwell : literal.WellFormed) :
    literal.isNegative = true ↔ literal.signed < 0 := by
  have hzero := value_eq_zero_iff hwell.magnitude.2
  have hany : (literal.magnitude.any fun c => decide (c ≠ '0')) = true ↔
      value literal.magnitude ≠ 0 := by
    rw [ne_eq, hzero, List.any_eq_true]
    simp
  rw [isNegative, Bool.and_eq_true, decide_eq_true_eq, hany, signed]
  split
  · rename_i hsign
    constructor
    · rintro ⟨-, hne⟩
      omega
    · intro hlt
      exact ⟨hsign, by omega⟩
  · rename_i hsign
    constructor
    · rintro ⟨hminus, -⟩
      exact absurd hminus hsign
    · intro hlt
      omega

theorem decimal_signed {literal : MIntLiteral} (hwell : literal.WellFormed) :
    decimal (literal.sign.toList ++ literal.magnitude) = some literal.signed := by
  have hsplit := splitSign_signed hwell.sign hwell.magnitude []
  rw [List.append_nil, List.append_nil] at hsplit
  simp only [decimal, hsplit]
  rw [if_pos hwell.magnitude, signed]

end MIntLiteral

section MachineIntegers

variable {S : Type} [DomainSort S]

/-- The texts that name the elements of a machine-integer sort are those that its literals
are read from. -/
theorem names_mint_iff {width : MIntWidth} {sort : S} {text : List Char} {element : Int} :
    Names (.mint width) sort text element ↔
      ∃ digits literal, mintWidthDigits sort = some digits ∧
        MIntLiteral.parse text = some literal ∧ literal.namesWidth digits = true ∧
        element = literal.signed % 2 ^ value digits := by
  have hall {digits : List Char} (h : mintWidthDigits sort = some digits) :
      ∀ c ∈ digits, c.isDigit = true := (mintWidthDigits_digits h).2
  constructor
  · rintro ⟨number, separator, width, digits, hdigits, rfl, hseparator, hwidth, hvalue, n, hn,
      rfl⟩
    unfold decimal at hn
    have htext := splitSign_text number
    have hsign := @splitSign_sign number
    revert hn htext hsign
    generalize splitSign number = split
    obtain ⟨sign, magnitude⟩ := split
    intro hn htext hsign
    dsimp only at hn htext hsign
    split at hn
    · rename_i hmagnitude
      let literal : MIntLiteral := ⟨sign, magnitude, separator, width⟩
      have hwell : literal.WellFormed :=
        ⟨fun c hc => hsign hc, hmagnitude, by simpa [MIntLiteral.isSeparator] using hseparator,
          hwidth⟩
      refine ⟨digits, literal, hdigits, MIntLiteral.parse_iff.mpr ⟨hwell, ?_⟩,
        (MIntLiteral.namesWidth_iff hwell (hall hdigits)).mpr hvalue, ?_⟩
      · rw [htext]
        rfl
      · rw [← Option.some.inj hn]
        rfl
    · cases hn
  · rintro ⟨digits, literal, hdigits, hparse, hnames, rfl⟩
    obtain ⟨hwell, rfl⟩ := MIntLiteral.parse_iff.mp hparse
    refine ⟨literal.sign.toList ++ literal.magnitude, literal.separator, literal.width, digits,
      hdigits, rfl, ?_, hwell.width, (MIntLiteral.namesWidth_iff hwell (hall hdigits)).mp hnames,
      literal.signed, MIntLiteral.decimal_signed hwell, rfl⟩
    simpa [MIntLiteral.isSeparator] using hwell.separator

/-- The canonical text of a residue. -/
def written (digits : List Char) (residue : Nat) : List Char :=
  Nat.toDigits 10 residue ++ 'p' :: digits

/-- The residue that a literal of a width is written as: its own number where the width is
beyond a machine word. -/
def residue : MIntWidth → MIntLiteral → Nat
  | .bits bits, literal => (literal.signed % 2 ^ bits).toNat
  | _, literal => value literal.magnitude

theorem parse_written {digits : List Char} (h : IsDigits digits) (n : Nat) :
    MIntLiteral.parse (written digits n) = some ⟨none, Nat.toDigits 10 n, 'p', digits⟩ :=
  MIntLiteral.parse_iff.mpr ⟨⟨nofun, isDigits_toDigits n, rfl, h⟩, rfl⟩

theorem written_injective {digits : List Char} (h : IsDigits digits) {n m : Nat}
    (heq : written digits n = written digits m) : n = m := by
  have hn := parse_written h n
  rw [heq, parse_written h m] at hn
  have hdigits := congrArg MIntLiteral.magnitude (Option.some.inj hn)
  calc n = value (Nat.toDigits 10 n) := (value_toDigits n).symm
    _ = value (Nat.toDigits 10 m) := congrArg value hdigits.symm
    _ = m := value_toDigits m

theorem neg_emod_toNat (m : Nat) {n : Nat} (hn : 0 < n) :
    (-(m : Int) % (n : Int)).toNat = if m % n = 0 then m % n else n - m % n := by
  have hlt := Nat.mod_lt m hn
  rw [Int.neg_emod]
  by_cases hzero : m % n = 0
  · rw [if_pos (Int.natCast_dvd_natCast.mpr (Nat.dvd_of_mod_eq_zero hzero)), if_pos hzero, hzero]
    rfl
  · have hndvd : ¬ (n : Int) ∣ (m : Int) := fun hdvd =>
      hzero (Nat.mod_eq_zero_of_dvd (Int.natCast_dvd_natCast.mp hdvd))
    rw [if_neg hndvd, if_neg hzero, Int.natAbs_natCast, ← Int.natCast_mod,
      ← Int.ofNat_sub (Nat.le_of_lt hlt), Int.toNat_natCast]

theorem signed_of_negative {literal : MIntLiteral} (h : literal.isNegative = true) :
    literal.sign = some '-' ∧ literal.signed = -value literal.magnitude := by
  rw [MIntLiteral.isNegative, Bool.and_eq_true, decide_eq_true_eq] at h
  exact ⟨h.1, by rw [MIntLiteral.signed, if_pos h.1]⟩

theorem signed_of_not_negative {literal : MIntLiteral} (hwell : literal.WellFormed)
    (h : ¬ literal.isNegative = true) : literal.signed = value literal.magnitude := by
  rw [MIntLiteral.isNegative_iff hwell] at h
  unfold MIntLiteral.signed at h ⊢
  split
  · rename_i hsign
    rw [if_pos hsign] at h
    omega
  · rfl

theorem residue_bits (bits : Nat) {literal : MIntLiteral} (hwell : literal.WellFormed) :
    residue (.bits bits) literal =
      if literal.isNegative = true then
        if value literal.magnitude % 2 ^ bits = 0 then value literal.magnitude % 2 ^ bits
        else 2 ^ bits - value literal.magnitude % 2 ^ bits
      else value literal.magnitude % 2 ^ bits := by
  have hcast : ((2 ^ bits : Nat) : Int) = 2 ^ bits := by push_cast; rfl
  rw [residue, ← hcast]
  split
  · rename_i hneg
    rw [(signed_of_negative hneg).2, neg_emod_toNat _ (Nat.two_pow_pos bits)]
  · rename_i hneg
    rw [signed_of_not_negative hwell hneg, ← Int.natCast_mod, Int.toNat_natCast]

/-- A literal is written as it stands when it has no sign, a small separator, the digits of
the sort and no leading zero. -/
theorem text_eq_written_iff {literal : MIntLiteral} (hwell : literal.WellFormed)
    {digits : List Char} (hdigits : IsDigits digits) {n : Nat} :
    literal.text = written digits n ↔
      (literal.sign = none ∧ literal.separator = 'p' ∧ literal.width = digits ∧
        (literal.magnitude.length = 1 ∨ literal.magnitude.head? ≠ some '0')) ∧
      value literal.magnitude = n := by
  constructor
  · intro heq
    have hparse := MIntLiteral.parse_iff.mpr ⟨hwell, heq⟩
    obtain rfl := Option.some.inj ((parse_written hdigits n).symm.trans hparse)
    refine ⟨⟨rfl, rfl, rfl, ?_⟩, value_toDigits n⟩
    rcases shortest_toDigits n with hzero | hhead
    · exact .inl (by rw [hzero]; rfl)
    · exact .inr hhead
  · rintro ⟨⟨hsign, hseparator, hwidth, hshort⟩, rfl⟩
    have hshortest : Shortest literal.magnitude := by
      rcases hshort with hone | hhead
      · obtain ⟨c, hc⟩ := List.length_eq_one_iff.mp hone
        by_cases hzero : c = '0'
        · exact .inl (by rw [hc, hzero])
        · exact .inr (by rw [hc]; exact fun heq => hzero (Option.some.inj heq))
      · exact .inr hhead
    rw [MIntLiteral.text, hsign, hseparator, hwidth, written,
      toDigits_value hwell.magnitude hshortest]
    rfl

variable {numbers : NumberTexts}

/-- A literal that the sort takes is replaced by its residue as it is written, unless it is
that already. -/
theorem canonicalMintText_of_literal (hnumbers : numbers.Documented) {width : MIntWidth}
    {sort : S} {digits : List Char} {literal : MIntLiteral} (hwidth : width ≠ .noWidth)
    (hdigits : mintWidthDigits sort = some digits) (hwell : literal.WellFormed)
    (hnames : literal.namesWidth digits = true)
    (hbound : ¬ (literal.isNegative && mintWidthBeyondBound width) = true) :
    canonicalMintText numbers width sort literal.text =
      some (if literal.text = written digits (residue width literal) then none
        else some (written digits (residue width literal))) := by
  have hsort : IsDigits digits := mintWidthDigits_digits hdigits
  have hparse := MIntLiteral.parse_iff.mpr ⟨hwell, rfl⟩
  have hiff (n : Nat) := text_eq_written_iff hwell hsort (n := n)
  have hkept (h : residue width literal = value literal.magnitude) :
      (if literal.sign = none ∧ literal.separator = 'p' ∧ literal.width = digits ∧
          (literal.magnitude.length = 1 ∨ literal.magnitude.head? ≠ some '0') then
        some none
      else some (some (Nat.toDigits 10 (value literal.magnitude) ++ 'p' :: digits))) =
      some (if literal.text = written digits (residue width literal) then none
        else some (written digits (residue width literal))) := by
    rw [h]
    simp only [hiff, and_true]
    split <;> rfl
  -- another number than the magnitude is never what the text has
  have hchanged {n : Nat} (h : residue width literal = n) (hne : value literal.magnitude ≠ n ∨
      literal.sign ≠ none) :
      some (some (Nat.toDigits 10 n ++ 'p' :: digits)) =
      some (if literal.text = written digits (residue width literal) then none
        else some (written digits (residue width literal))) := by
    have hdiffers : ¬ literal.text = written digits n := by
      rw [hiff]
      rintro ⟨⟨hsign, -⟩, hvalue⟩
      exact hne.elim (absurd hvalue) (absurd hsign)
    rw [h, if_neg hdiffers, written]
  unfold canonicalMintText
  simp only [hwidth, if_false, hdigits, hparse, hnames, Bool.not_true, Bool.false_eq_true, hbound,
    hnumbers.parseNat _ hwell.magnitude]
  cases width with
  | noWidth => exact absurd rfl hwidth
  | unrepresentable => exact hkept rfl
  | bits bits =>
    have hresidue := residue_bits bits hwell
    dsimp only
    split
    · rename_i hneg
      rw [if_pos hneg] at hresidue
      apply hchanged hresidue
      right
      rw [(signed_of_negative hneg).1]
      exact Option.some_ne_none _
    · rename_i hneg
      rw [if_neg hneg] at hresidue
      split
      · rename_i hlarge
        apply hchanged hresidue
        left
        have hlt := Nat.mod_lt (value literal.magnitude) (Nat.two_pow_pos bits)
        have hge : ¬ value literal.magnitude < 2 ^ bits := by
          rw [← Nat.size_le]
          omega
        omega
      · rename_i hsmall
        apply hkept
        rw [hresidue]
        exact Nat.mod_eq_of_lt (Nat.size_le.mp (not_lt.mp hsmall))

end MachineIntegers

end KRust.Domain
