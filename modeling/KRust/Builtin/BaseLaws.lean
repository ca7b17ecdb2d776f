import KRust.Builtin.Base
import KRust.Builtin.BigInts

/-!
An integer that is written in a base is read back from its text, in letters of either case, and
the texts that are read are those of an optional sign and digits of the base.
-/

namespace KRust.Builtin.Base

open KRust.Backend KRust.Lib
open KRust.Domain (splitSign)

section Grammar

/-- A text of one sign at most and one or more digits of a radix, with the integer it denotes. -/
inductive Numeral (radix : Nat) : List Char → Int → Prop where
  | unsigned {digits : List Char} (hne : digits ≠ [])
      (hdigits : ∀ c ∈ digits, Radix.isDigit radix c = true) :
      Numeral radix digits (Radix.value radix digits)
  | plus {digits : List Char} (hne : digits ≠ [])
      (hdigits : ∀ c ∈ digits, Radix.isDigit radix c = true) :
      Numeral radix ('+' :: digits) (Radix.value radix digits)
  | minus {digits : List Char} (hne : digits ≠ [])
      (hdigits : ∀ c ∈ digits, Radix.isDigit radix c = true) :
      Numeral radix ('-' :: digits) (-Radix.value radix digits)

variable {radix : Nat}

theorem isDigit_sign {c : Char} (h : Radix.isDigit radix c = true) : c ≠ '+' ∧ c ≠ '-' := by
  constructor <;> rintro rfl <;> cases h

/-- Digits alone have no sign. -/
theorem splitSign_digits {digits : List Char}
    (hdigits : ∀ c ∈ digits, Radix.isDigit radix c = true) : splitSign digits = (none, digits) := by
  cases digits with
  | nil => rfl
  | cons c digits =>
    obtain ⟨hplus, hminus⟩ := isDigit_sign (hdigits c List.mem_cons_self)
    unfold splitSign
    split
    · rename_i heq
      exact absurd (List.cons.inj heq).1 hplus
    · rename_i heq
      exact absurd (List.cons.inj heq).1 hminus
    · rfl

theorem numeral_iff {text : List Char} {n : Int} :
    Numeral radix text n ↔ (splitSign text).2 ≠ [] ∧
      (∀ c ∈ (splitSign text).2, Radix.isDigit radix c = true) ∧ n = signedValue radix text := by
  constructor
  · rintro (⟨hne, hdigits⟩ | ⟨hne, hdigits⟩ | ⟨hne, hdigits⟩)
    · rw [signedValue, splitSign_digits hdigits]
      exact ⟨hne, hdigits, rfl⟩
    · exact ⟨hne, hdigits, rfl⟩
    · exact ⟨hne, hdigits, rfl⟩
  · rintro ⟨hne, hdigits, rfl⟩
    unfold signedValue
    revert hne hdigits
    unfold splitSign
    split
    · exact .plus
    · exact .minus
    · exact .unsigned

/-- What is read are the numerals of the radix, as the integers that they denote. -/
theorem parseInteger_iff {bigInts : BigInts} (hbig : bigInts.Documented) (hlow : 2 ≤ radix)
    (hhigh : radix ≤ 36) {text : List Char} {n : Int} :
    parseInteger bigInts text radix = some n ↔ Numeral radix text n := by
  rw [numeral_iff, parseInteger]
  by_cases h : (splitSign text).2 ≠ [] ∧ (splitSign text).2.all (Radix.isDigit radix) = true
  · have hwell : (!(splitSign text).2.isEmpty && (splitSign text).2.all (Radix.isDigit radix)) =
        true := by
      rw [h.2, Bool.and_true, Bool.not_eq_true', List.isEmpty_eq_false_iff]
      exact h.1
    simp only [hwell, if_true, hbig.parseBytes radix hlow hhigh text h.1 h.2, Option.some.injEq]
    have hall := List.all_eq_true.mp h.2
    exact ⟨fun heq => ⟨h.1, hall, heq.symm⟩, fun hnumeral => hnumeral.2.2.symm⟩
  · have hwell : (!(splitSign text).2.isEmpty && (splitSign text).2.all (Radix.isDigit radix)) =
        false := by
      rw [Bool.eq_false_iff]
      intro hboth
      obtain ⟨hne, hall⟩ := Bool.and_eq_true_iff.mp hboth
      exact h ⟨by simpa using hne, hall⟩
    simp only [hwell, Bool.false_eq_true, if_false, reduceCtorEq, false_iff]
    rintro ⟨hne, hdigits, -⟩
    exact h ⟨hne, List.all_eq_true.mpr hdigits⟩

end Grammar

section Bases

variable {bigInts : BigInts}

theorem readBase_eq {base : Nat} (hlow : 2 ≤ base) (hhigh : base ≤ 36) :
    readBase (base : Int) = some base := by
  rw [readBase, if_pos (by omega), Int.toNat_natCast]

theorem stringToBase_eq (hbig : bigInts.Documented) {base : Nat} (hlow : 2 ≤ base)
    (hhigh : base ≤ 36) (text : List Char) :
    stringToBase bigInts [stringTerm text, intTerm base] =
      .ok (described ((parseInteger bigInts text base).map intTerm)) := by
  simp only [stringToBase, readString_stringTerm, hbig.readInt_intTerm, readBase_eq hlow hhigh]

theorem stringToInt_eq (text : List Char) :
    stringToInt bigInts [stringTerm text] =
      .ok (described ((parseInteger bigInts text 10).map intTerm)) := by
  simp only [stringToInt, readString_stringTerm]

/-- The digits of an integer, in either case, are a numeral that denotes it. -/
theorem numeral_toStrRadix (hbig : bigInts.Documented) {base : Nat} (hlow : 2 ≤ base)
    (hhigh : base ≤ 36) (n : Int) (capitals : Bool) :
    Numeral base (if capitals then (bigInts.toStrRadix n base).map Char.toUpper
      else bigInts.toStrRadix n base) n := by
  have hne := Radix.digits_ne_nil base n.natAbs
  have hdigits := Radix.isDigit_digits hlow hhigh n.natAbs
  have hvalue := Radix.value_digits hlow hhigh n.natAbs
  have hneUpper : (Radix.digits base n.natAbs).map Char.toUpper ≠ [] := by simpa using hne
  have hdigitsUpper : ∀ c ∈ (Radix.digits base n.natAbs).map Char.toUpper,
      Radix.isDigit base c = true := by
    intro c hc
    obtain ⟨d, hd, rfl⟩ := List.mem_map.mp hc
    rw [Radix.isDigit_toUpper]
    exact hdigits d hd
  have hvalueUpper : Radix.value base ((Radix.digits base n.natAbs).map Char.toUpper) = n.natAbs := by
    rw [Radix.value_toUpper, hvalue]
  rw [hbig.toStrRadix base hlow hhigh]
  by_cases hneg : n < 0
  · have hn : n = -(n.natAbs : Int) := by omega
    rw [if_pos hneg]
    cases capitals with
    | false =>
      have hminus := Numeral.minus hne hdigits
      rw [hvalue, ← hn] at hminus
      exact hminus
    | true =>
      have hminus := Numeral.minus hneUpper hdigitsUpper
      rw [hvalueUpper, ← hn] at hminus
      exact hminus
  · have hn : n = (n.natAbs : Int) := by omega
    rw [if_neg hneg]
    cases capitals with
    | false =>
      have hplain := Numeral.unsigned hne hdigits
      rw [hvalue, ← hn] at hplain
      exact hplain
    | true =>
      have hplain := Numeral.unsigned hneUpper hdigitsUpper
      rw [hvalueUpper, ← hn] at hplain
      exact hplain

theorem baseToString_eq (hbig : bigInts.Documented) (env : Environment) {base : Nat}
    (hlow : 2 ≤ base) (hhigh : base ≤ 36) (n : Int) : ∃ capitals : Bool,
    baseToString bigInts env [intTerm n, intTerm base] =
      .ok (.value (stringTerm (if capitals then (bigInts.toStrRadix n base).map Char.toUpper
        else bigInts.toStrRadix n base))) := by
  simp only [baseToString, hbig.readInt_intTerm, readBase_eq hlow hhigh]
  cases env.samplingSeed with
  | none => exact ⟨false, rfl⟩
  | some seed => exact ⟨samplingBit seed, rfl⟩

/-- What a reader answers: the integers that numerals denote, and nothing that is described on any
other text. -/
def Reads (radix : Nat) (read : List Char → HookResult BuiltinResult) : Prop :=
  ∀ text, (∀ n, read text = .ok (.value (intTerm n)) ↔ Numeral radix text n) ∧
    ((∀ n, ¬ Numeral radix text n) → read text = .ok (.bottom .undescribed))

theorem intTerm_injective (hbig : bigInts.Documented) {n m : Int} (h : intTerm n = intTerm m) :
    n = m := by
  have hread := hbig.readInt_intTerm n
  rw [h, hbig.readInt_intTerm] at hread
  exact (Option.some.inj hread).symm

theorem reads_parseInteger (hbig : bigInts.Documented) (hlow : 2 ≤ radix) (hhigh : radix ≤ 36) :
    Reads radix fun text => .ok (described ((parseInteger bigInts text radix).map intTerm)) := by
  intro text
  have hiff : ∀ n, parseInteger bigInts text radix = some n ↔ Numeral radix text n :=
    fun n => parseInteger_iff hbig hlow hhigh
  dsimp only
  generalize parseInteger bigInts text radix = parsed at hiff ⊢
  constructor
  · intro n
    rw [← hiff]
    cases parsed with
    | none => simp [described]
    | some m =>
      simp only [described, Option.map_some, Except.ok.injEq, BuiltinResult.value.injEq,
        Option.some.injEq]
      exact ⟨intTerm_injective hbig, congrArg intTerm⟩
  · intro hnone
    cases parsed with
    | none => rfl
    | some n => exact absurd ((hiff n).mp rfl) (hnone n)

/-- In every base from 2 to 36 an integer is read back from its text, and the texts that are read
are an optional single sign and one or more digits of the base, as the integers they denote. -/
theorem bases_read_back (hbig : bigInts.Documented) (env : Environment) :
    (∀ (n : Int) (base : Nat), 2 ≤ base → base ≤ 36 →
      ∃ text, baseToString bigInts env [intTerm n, intTerm base] = .ok (.value (stringTerm text)) ∧
        stringToBase bigInts [stringTerm text, intTerm base] = .ok (.value (intTerm n))) ∧
      (∀ base : Nat, 2 ≤ base → base ≤ 36 →
        Reads base fun text => stringToBase bigInts [stringTerm text, intTerm base]) ∧
      Reads 10 fun text => stringToInt bigInts [stringTerm text] := by
  refine ⟨?_, ?_, ?_⟩
  · intro n base hlow hhigh
    obtain ⟨capitals, htext⟩ := baseToString_eq hbig env hlow hhigh n
    have hread := (parseInteger_iff hbig hlow hhigh).mpr
      (numeral_toStrRadix hbig hlow hhigh n capitals)
    refine ⟨_, htext, ?_⟩
    rw [stringToBase_eq hbig hlow hhigh, hread]
    rfl
  · intro base hlow hhigh
    simp only [stringToBase_eq hbig hlow hhigh]
    exact reads_parseInteger hbig hlow hhigh
  · simp only [stringToInt_eq]
    exact reads_parseInteger hbig (by decide) (by decide)

theorem bases_read_back_schoolbook :
    (∃ text, baseToString schoolbook unbounded [intTerm (-255), intTerm (16 : Nat)] =
        .ok (.value (stringTerm text)) ∧
      stringToBase schoolbook [stringTerm text, intTerm (16 : Nat)] =
        .ok (.value (intTerm (-255)))) ∧
      Reads 36 (fun text => stringToBase schoolbook [stringTerm text, intTerm (36 : Nat)]) := by
  have hbases := bases_read_back schoolbook_documented unbounded
  exact ⟨hbases.1 (-255) 16 (by decide) (by decide), hbases.2.1 36 (by decide) (by decide)⟩

end Bases

end KRust.Builtin.Base
