import KRust.Rpc.FramingReads

/-!
Where the scanner completes a message, the stream starts with a value of the grammar: what each
state still asks of the bytes is a relation, and every turn of a completed run has it of the
bytes before the turn when the next turn has it of the bytes after.
-/

set_option linter.unusedSectionVars false

namespace KRust.Rpc.Framing.Scanner

variable (names : Names) {bytes : List UInt8} {s t : Scanner} {text w rest : List UInt8} {b : UInt8}

section Demands

/-- What follows a value, in the arrays and objects that are open around it. -/
def Closes (scalar : Bool) : List UInt8 → List UInt8 → Prop
  | [], text => scalar → Follows text
  | opened :: stack, text => ∃ (isObject : Bool) (r : Rest) (rest : List UInt8), opened = opening isObject ∧
      text = r.text isObject ++ rest ∧ r.Valid isObject ∧ Closes scalar stack rest

/-- A value after its label, and what follows it. -/
def Item (scalar isObject : Bool) (stack text : List UInt8) : Prop :=
  ∃ (label : Label) (t : Tree) (rest : List UInt8), text = label.text ++ (t.text ++ rest) ∧
    label.Valid isObject ∧ t.Valid ∧ Closes scalar stack rest

/-- What follows a string. -/
def Then (scalar : Bool) (stack : List UInt8) : Role → List UInt8 → Prop
  | .value, text => Closes scalar stack text
  | .key, text => ∃ blank rest, text = blank ++ byte ':' :: rest ∧ blank.all isWhitespace ∧
      Item scalar false stack rest

/-- What is left of a number or a literal. -/
def Awaits : State → List UInt8 → Prop
  | .literal rest, w => w = rest
  | .integerFirst, w => Unsigned w
  | .integerDigits, w => ∃ digits fraction exponent, w = digits ++ (fraction ++ exponent) ∧
      digits.all isDigit ∧ Fraction fraction ∧ Exponent exponent
  | .integerZero, w | .numberTail, w => ∃ fraction exponent, w = fraction ++ exponent ∧
      Fraction fraction ∧ Exponent exponent
  | .fractionFirst, w => ∃ digits exponent, w = digits ++ exponent ∧ Digits digits ∧
      Exponent exponent
  | .fractionDigits, w => ∃ digits exponent, w = digits ++ exponent ∧ digits.all isDigit ∧
      Exponent exponent
  | .fractionTail, w => Exponent w
  | .exponentSign, w => ∃ sign digits, w = sign ++ digits ∧ Sign sign ∧ Digits digits
  | .exponentFirst, w => Digits w
  | .exponentDigits, w => w.all isDigit
  | _, _ => False

/-- A message, and what follows it. -/
def Starts (text : List UInt8) : Prop :=
  ∃ (blank : List UInt8) (t : Tree) (rest : List UInt8), text = blank ++ (t.text ++ rest) ∧
    blank.all isWhitespace ∧ t.Valid ∧ (t.isWord → Follows rest)

/-- The inside of a new array or object, and what follows it. -/
def Inside (scalar : Bool) (stack text : List UInt8) : Prop :=
  ∃ isObject stack', stack = opening isObject :: stack' ∧
    ((∃ blank rest, text = blank ++ closing isObject :: rest ∧ blank.all isWhitespace ∧
      Closes scalar stack' rest) ∨ Item scalar isObject stack text)

/-- What the scanner asks of the rest of the bytes to complete. -/
def Accepts (bytes : List UInt8) (s : Scanner) (text : List UInt8) : Prop :=
  match s.state with
  | .start => s.stack = [] → Starts text
  | .value => Item s.isScalar false s.stack text
  | .string role =>
    ∃ w rest, text = w ++ rest ∧ Quoted w ∧ Then s.isScalar s.stack role rest
  | .escape role =>
    ∃ w rest, text = w ++ rest ∧ Quoted (byte '\\' :: w) ∧ Then s.isScalar s.stack role rest
  | .hex role digit => digit ≤ s.pos → digit ≤ 3 →
    ∃ w rest, text = w ++ rest ∧
      Quoted (byte '\\' :: byte 'u' :: (slice bytes (s.pos - digit, s.pos) ++ w)) ∧
      Then s.isScalar s.stack role rest
  | .inner true => s.stack ≠ [] → Closes s.isScalar s.stack text
  | .inner false => Inside s.isScalar s.stack text
  | .keyQuote => Item s.isScalar true s.stack text
  | .colon => Then s.isScalar s.stack .key text
  | .peekEnd => Follows text
  | .done => True
  | state => ∃ w rest, text = w ++ rest ∧ Awaits state w ∧ Closes s.isScalar s.stack rest

theorem closes_valueDone (h : Accepts bytes s.valueDone text) :
    Closes s.isScalar s.stack text := by
  cases hstack : s.stack with
  | nil =>
    intro hscalar
    have hstate : s.valueDone.state = .peekEnd := by
      rw [valueDone, hstack, hscalar]
      rfl
    rw [Accepts, hstate] at h
    exact h
  | cons b stack =>
    rw [Accepts, valueDone_state hstack] at h
    rw [← hstack]
    exact h (by show s.stack ≠ []; rw [hstack]; exact List.cons_ne_nil _ _)

end Demands

section Scalars

/-- What the bytes owe to a number or a literal. -/
def Scalar (s : Scanner) (state : State) (text : List UInt8) : Prop :=
  ∃ w rest, text = w ++ rest ∧ Awaits state w ∧ Closes s.isScalar s.stack rest

theorem Scalar.move {state state' : State} (hat : At bytes s (b :: rest))
    (h : Scalar (s.move state') state' (bytes.drop (s.move state').pos))
    (hw : ∀ w, Awaits state' w → Awaits state (b :: w)) : Scalar s state (b :: rest) := by
  obtain ⟨w, rest', htext, hawaits, hcloses⟩ := h
  rw [hat.move state'] at htext
  exact ⟨b :: w, rest', by rw [htext]; rfl, hw w hawaits, hcloses⟩

theorem Scalar.goto {state state' : State} (hat : At bytes s text)
    (h : Scalar (s.goto state') state' (bytes.drop (s.goto state').pos))
    (hw : ∀ w, Awaits state' w → Awaits state w) : Scalar s state text := by
  obtain ⟨w, rest', htext, hawaits, hcloses⟩ := h
  rw [hat.goto state'] at htext
  exact ⟨w, rest', htext, hw w hawaits, hcloses⟩

theorem Scalar.done {state : State} (hat : At bytes s text)
    (h : Accepts bytes s.valueDone (bytes.drop s.valueDone.pos)) (hw : Awaits state []) :
    Scalar s state text := by
  have hcloses := closes_valueDone h
  rw [show bytes.drop s.valueDone.pos = text from hat] at hcloses
  exact ⟨[], text, rfl, hw, hcloses⟩

theorem all_cons {p : UInt8 → Bool} (hb : p b) (hw : w.all p) : (b :: w).all p := by
  rw [List.all_cons, hb, hw]
  rfl

theorem literal_step {w : List UInt8} (hstate : s.state = .literal w)
    (hat : At bytes s text) (h : step names bytes text.head? s = (t, none))
    (ht : Accepts bytes t (bytes.drop t.pos)) : Accepts bytes s text := by
  rw [step.eq_def, hstate] at h
  rw [Accepts, hstate]
  cases text with
  | nil => cases h
  | cons b text =>
    dsimp only [List.head?_cons] at h
    cases w with
    | nil => cases h
    | cons c w =>
      dsimp only at h
      split_ifs at h with heq hlast
      · cases h
        have hcloses : Closes s.isScalar s.stack (bytes.drop (s.pos + 1)) :=
          closes_valueDone (s := s.advance 1) ht
        rw [show bytes.drop (s.pos + 1) = text from hat.move .value] at hcloses
        obtain rfl := List.isEmpty_iff.mp hlast
        exact ⟨[c], text, by rw [heq]; rfl, rfl, hcloses⟩
      · cases h
        refine Scalar.move hat ht fun w hw => ?_
        rw [heq, show _ = w from hw.symm]
        rfl
      · cases h

theorem integer_step (hat : At bytes s text) (h : step names bytes text.head? s = (t, none))
    (hstate : s.state = .integerFirst ∨ s.state = .integerZero ∨ s.state = .integerDigits)
    (ht : Accepts bytes t (bytes.drop t.pos)) : Accepts bytes s text := by
  have htail {w : List UInt8} : Awaits .numberTail w → Awaits .integerDigits w := by
    rintro ⟨fraction, exponent, rfl, hfraction, hexponent⟩
    exact ⟨[], fraction, exponent, rfl, rfl, hfraction, hexponent⟩
  rcases hstate with hstate | hstate | hstate <;> rw [step.eq_def, hstate] at h <;>
    rw [Accepts, hstate]
  · cases text with
    | nil => cases h
    | cons b text =>
      dsimp only [List.head?_cons] at h
      split_ifs at h with hzero hdigit
      · cases h
        refine Scalar.move hat ht ?_
        rintro w ⟨fraction, exponent, rfl, hfraction, hexponent⟩
        exact ⟨[b], fraction, exponent, rfl, .inl (by rw [hzero]; rfl), hfraction, hexponent⟩
      · cases h
        refine Scalar.move hat ht ?_
        rintro w ⟨digits, fraction, exponent, rfl, hdigits, hfraction, hexponent⟩
        refine ⟨b :: digits, fraction, exponent, rfl, .inr ⟨⟨nofun, all_cons hdigit hdigits⟩, ?_⟩,
          hfraction, hexponent⟩
        exact fun heq => hzero (Option.some.inj heq)
      · cases h
  · cases text with
    | nil =>
      cases h
      exact Scalar.goto hat ht fun w hw => hw
    | cons b text =>
      dsimp only [List.head?_cons] at h
      split_ifs at h with hdigit
      · cases h
      · cases h
        exact Scalar.goto hat ht fun w hw => hw
  · cases text with
    | nil =>
      cases h
      exact Scalar.goto hat ht fun w => htail
    | cons b text =>
      dsimp only [List.head?_cons] at h
      split_ifs at h with hdigit
      · cases h
        refine Scalar.move hat ht ?_
        rintro w ⟨digits, fraction, exponent, rfl, hdigits, hfraction, hexponent⟩
        exact ⟨b :: digits, fraction, exponent, rfl, all_cons hdigit hdigits, hfraction, hexponent⟩
      · cases h
        exact Scalar.goto hat ht fun w => htail

theorem awaits_exponent {e : UInt8} (he : e = byte 'e' || e = byte 'E') (h : Awaits .exponentSign w) :
    Exponent (e :: w) := by
  obtain ⟨sign, digits, rfl, hsign, hdigits⟩ := h
  rw [Bool.or_eq_true, decide_eq_true_eq, decide_eq_true_eq] at he
  exact .inr ⟨e, sign, digits, rfl, he, hsign, hdigits⟩

theorem fraction_step (hat : At bytes s text) (h : step names bytes text.head? s = (t, none))
    (hstate : s.state = .numberTail ∨ s.state = .fractionFirst ∨ s.state = .fractionDigits ∨
      s.state = .fractionTail)
    (ht : Accepts bytes t (bytes.drop t.pos)) : Accepts bytes s text := by
  have htail {w : List UInt8} : Awaits .fractionTail w → Awaits .fractionDigits w := by
    intro hexponent
    exact ⟨[], w, rfl, rfl, hexponent⟩
  rcases hstate with hstate | hstate | hstate | hstate <;> rw [step.eq_def, hstate] at h <;>
    rw [Accepts, hstate]
  · cases text with
    | nil =>
      cases h
      exact Scalar.done hat ht ⟨[], [], rfl, .inl rfl, .inl rfl⟩
    | cons b text =>
      dsimp only [List.head?_cons] at h
      split_ifs at h with hdot he
      · cases h
        refine Scalar.move hat ht ?_
        rintro w ⟨digits, exponent, rfl, hdigits, hexponent⟩
        exact ⟨b :: digits, exponent, rfl, .inr ⟨digits, by rw [hdot], hdigits⟩, hexponent⟩
      · cases h
        refine Scalar.move hat ht fun w hw => ?_
        exact ⟨[], b :: w, rfl, .inl rfl, awaits_exponent he hw⟩
      · cases h
        exact Scalar.done hat ht ⟨[], [], rfl, .inl rfl, .inl rfl⟩
  · cases text with
    | nil => cases h
    | cons b text =>
      dsimp only [List.head?_cons] at h
      split_ifs at h with hdigit
      · cases h
        refine Scalar.move hat ht ?_
        rintro w ⟨digits, exponent, rfl, hdigits, hexponent⟩
        exact ⟨b :: digits, exponent, rfl, ⟨nofun, all_cons hdigit hdigits⟩, hexponent⟩
      · cases h
  · cases text with
    | nil =>
      cases h
      exact Scalar.goto hat ht fun w => htail
    | cons b text =>
      dsimp only [List.head?_cons] at h
      split_ifs at h with hdigit
      · cases h
        refine Scalar.move hat ht ?_
        rintro w ⟨digits, exponent, rfl, hdigits, hexponent⟩
        exact ⟨b :: digits, exponent, rfl, all_cons hdigit hdigits, hexponent⟩
      · cases h
        exact Scalar.goto hat ht fun w => htail
  · cases text with
    | nil =>
      cases h
      exact Scalar.done hat ht (.inl rfl)
    | cons b text =>
      dsimp only [List.head?_cons] at h
      split_ifs at h with he
      · cases h
        exact Scalar.move hat ht fun w => awaits_exponent he
      · cases h
        exact Scalar.done hat ht (.inl rfl)

theorem exponent_step (hat : At bytes s text) (h : step names bytes text.head? s = (t, none))
    (hstate : s.state = .exponentSign ∨ s.state = .exponentFirst ∨ s.state = .exponentDigits)
    (ht : Accepts bytes t (bytes.drop t.pos)) : Accepts bytes s text := by
  have hbare {w : List UInt8} : Awaits .exponentFirst w → Awaits .exponentSign w := by
    intro hdigits
    exact ⟨[], w, rfl, .inl rfl, hdigits⟩
  rcases hstate with hstate | hstate | hstate <;> rw [step.eq_def, hstate] at h <;>
    rw [Accepts, hstate]
  · cases text with
    | nil =>
      cases h
      exact Scalar.goto hat ht fun w => hbare
    | cons b text =>
      dsimp only [List.head?_cons] at h
      split_ifs at h with hsign
      · cases h
        refine Scalar.move hat ht fun w hw => ⟨[b], w, rfl, ?_, hw⟩
        rw [Bool.or_eq_true, decide_eq_true_eq, decide_eq_true_eq] at hsign
        rcases hsign with rfl | rfl
        · exact .inr (.inl rfl)
        · exact .inr (.inr rfl)
      · cases h
        exact Scalar.goto hat ht fun w => hbare
  · cases text with
    | nil => cases h
    | cons b text =>
      dsimp only [List.head?_cons] at h
      split_ifs at h with hdigit
      · cases h
        exact Scalar.move hat ht fun w hw => ⟨nofun, all_cons hdigit hw⟩
      · cases h
  · cases text with
    | nil =>
      cases h
      exact Scalar.done hat ht rfl
    | cons b text =>
      dsimp only [List.head?_cons] at h
      split_ifs at h with hdigit
      · cases h
        exact Scalar.move hat ht fun w hw => all_cons hdigit hw
      · cases h
        exact Scalar.done hat ht rfl

end Scalars

section Strings

theorem quoted_plains (hplain : ∀ b ∈ w, stopsString b = false) (hrest : Quoted rest) :
    Quoted (w ++ rest) := by
  induction w with
  | nil => exact hrest
  | cons b w ih =>
    have hb := hplain b List.mem_cons_self
    simp only [stopsString, Bool.or_eq_false_iff, decide_eq_false_iff_not] at hb
    exact .plain hb.1.1 hb.1.2 hb.2 (ih fun c hc => hplain c (List.mem_cons_of_mem _ hc))

/-- The bytes that a turn skips in a string, and the byte at which it stops. -/
theorem skipped {offset : Nat} (h : text.findIdx? stopsString = some offset) :
    ∃ plains c rest, text = plains ++ c :: rest ∧ plains.length = offset ∧
      text.getD offset 0 = c ∧ ∀ b ∈ plains, stopsString b = false := by
  obtain ⟨hlt, -, hbefore⟩ := List.findIdx?_eq_some_iff_getElem.mp h
  refine ⟨text.take offset, text[offset], text.drop (offset + 1), ?_, ?_, ?_, ?_⟩
  · rw [← List.drop_eq_getElem_cons hlt, List.take_append_drop]
  · rw [List.length_take, Nat.min_eq_left (Nat.le_of_lt hlt)]
  · rw [List.getD_eq_getElem?_getD, List.getElem?_eq_getElem hlt, Option.getD_some]
  · intro b hb
    obtain ⟨i, hi, rfl⟩ := List.mem_take_iff_getElem.mp hb
    exact Bool.eq_false_iff.mpr (hbefore i (by omega))

theorem then_of_stringDone {role : Role}
    (h : Accepts bytes (s.stringDone names role bytes) text) :
    Then s.isScalar s.stack role text := by
  cases role with
  | value => exact closes_valueDone h
  | key => exact h

theorem string_step {role : Role} (hstate : s.state = .string role)
    (hat : At bytes s text) (h : step names bytes text.head? s = (t, none))
    (ht : Accepts bytes t (bytes.drop t.pos)) : Accepts bytes s text := by
  rw [step.eq_def, hstate] at h
  rw [Accepts, hstate]
  cases text with
  | nil => cases h
  | cons b text =>
    dsimp only [List.head?_cons] at h
    rw [skipString, hat] at h
    split at h
    · -- No string ends after the end of the bytes.
      cases h
      rw [Accepts, hstate] at ht
      obtain ⟨w, rest, hnil, hquoted, -⟩ := ht
      rw [List.drop_length] at hnil
      obtain ⟨rfl, -⟩ := List.append_eq_nil_iff.mp hnil.symm
      cases hquoted
    · rename_i offset hfind
      obtain ⟨plains, c, rest, htext, hlength, hc, hplain⟩ := skipped hfind
      have hdrop : bytes.drop (s.pos + offset + 1) = rest := by
        rw [htext, ← List.singleton_append, ← List.append_assoc] at hat
        have hrest := hat.advance
        rw [List.length_append, hlength] at hrest
        exact hrest
      rw [hc] at h
      rw [htext]
      dsimp only at h
      split_ifs at h with hquote hescape
      · cases h
        have hthen : Then s.isScalar s.stack role (bytes.drop (s.pos + offset + 1)) := by
          cases role with
          | value => exact then_of_stringDone names (s := { s with pos := s.pos + offset + 1 }) ht
          | key => exact then_of_stringDone names (s := { s with pos := s.pos + offset + 1 }) ht
        rw [hdrop] at hthen
        refine ⟨plains ++ [c], rest, ?_, quoted_plains hplain (by rw [hquote]; exact .close), hthen⟩
        rw [List.append_assoc]
        rfl
      · cases h
        have hescaped : Accepts bytes (goto { s with pos := s.pos + offset + 1 } (.escape role))
          (bytes.drop (s.pos + offset + 1)) := ht
        rw [hdrop] at hescaped
        obtain ⟨w, rest', hrest, hquoted, hthen⟩ := hescaped
        refine ⟨plains ++ c :: w, rest', ?_, quoted_plains hplain (by rw [hescape]; exact hquoted),
          hthen⟩
        rw [hrest, List.append_assoc]
        rfl
      · cases h

theorem escape_step {role : Role} (hstate : s.state = .escape role)
    (hat : At bytes s text) (h : step names bytes text.head? s = (t, none))
    (ht : Accepts bytes t (bytes.drop t.pos)) : Accepts bytes s text := by
  rw [step.eq_def, hstate] at h
  rw [Accepts, hstate]
  cases text with
  | nil => cases h
  | cons b text =>
    dsimp only [List.head?_cons] at h
    split_ifs at h with hescape hunicode
    · cases h
      rw [hat.move (.string role)] at ht
      obtain ⟨w, rest, htext, hquoted, hthen⟩ := ht
      exact ⟨b :: w, rest, by rw [htext]; rfl, .escape hescape hquoted, hthen⟩
    · cases h
      rw [hat.move (.hex role 0)] at ht
      obtain ⟨w, rest, htext, hquoted, hthen⟩ := ht (Nat.zero_le _) (Nat.zero_le _)
      refine ⟨b :: w, rest, by rw [htext]; rfl, ?_, hthen⟩
      rw [hunicode]
      rw [slice, Nat.sub_zero, Nat.sub_self, List.take_zero] at hquoted
      exact hquoted
    · cases h

theorem slice_snoc {first : Nat} (hfirst : first ≤ s.pos) (hat : At bytes s (b :: rest)) :
    slice bytes (first, s.pos + 1) = slice bytes (first, s.pos) ++ [b] := by
  rw [slice, slice, Nat.sub_add_comm hfirst, List.take_add_one, List.getElem?_drop,
    Nat.add_sub_cancel' hfirst, hat.next]
  rfl

theorem hex_step {role : Role} {digit : Nat} (hstate : s.state = .hex role digit)
    (hat : At bytes s text) (h : step names bytes text.head? s = (t, none))
    (ht : Accepts bytes t (bytes.drop t.pos)) : Accepts bytes s text := by
  rw [step.eq_def, hstate] at h
  rw [Accepts, hstate]
  intro hpos hthree
  cases text with
  | nil => cases h
  | cons b text =>
    dsimp only [List.head?_cons] at h
    split_ifs at h with hdigit hhex
    · cases h
      rw [hat.move (.hex role (digit + 1))] at ht
      obtain ⟨w, rest, htext, hquoted, hthen⟩ := ht (Nat.succ_le_succ hpos) hdigit
      refine ⟨b :: w, rest, by rw [htext]; rfl, ?_, hthen⟩
      rw [show (s.move (.hex role (digit + 1))).pos = s.pos + 1 from rfl, Nat.add_sub_add_right,
        slice_snoc (Nat.sub_le _ _) hat, List.append_assoc] at hquoted
      exact hquoted
    · cases h
      rw [hat.move (.string role)] at ht
      obtain ⟨w, rest, htext, hquoted, hthen⟩ := ht
      refine ⟨b :: w, rest, by rw [htext]; rfl, ?_, hthen⟩
      obtain rfl : digit = 3 := by omega
      rw [show s.pos + 1 - 4 = s.pos - 3 by omega, slice_snoc (Nat.sub_le _ _) hat] at hhex
      have hlength : (slice bytes (s.pos - 3, s.pos)).length = 3 := by
        have hlt := (List.getElem?_eq_some_iff.mp hat.next).1
        rw [slice, List.length_take, List.length_drop]
        omega
      obtain ⟨a, c, d, hslice⟩ := List.length_eq_three.mp hlength
      rw [hslice] at hhex ⊢
      exact .unicode hhex hquoted
    · cases h

end Strings

section Structure

theorem opening_injective {a b : Bool} (h : opening a = opening b) : a = b := by
  revert a b
  decide

/-- A blank before an item goes before its label. -/
theorem Item.blank {scalar isObject : Bool} {stack : List UInt8} (hb : isWhitespace b)
    (h : Item scalar isObject stack text) : Item scalar isObject stack (b :: text) := by
  obtain ⟨label, t, rest, rfl, hlabel, ht, hcloses⟩ := h
  cases label with
  | element blank =>
    exact ⟨.element (b :: blank), t, rest, rfl, ⟨hlabel.1, all_cons hb hlabel.2⟩, ht, hcloses⟩
  | member before name after blank =>
    obtain ⟨hobject, hbefore, hrest⟩ := hlabel
    exact ⟨.member (b :: before) name after blank, t, rest, rfl,
      ⟨hobject, all_cons hb hbefore, hrest⟩, ht, hcloses⟩

/-- A value that opens an array or object goes on inside it. -/
theorem item_of_inside {scalar isObject : Bool} {stack : List UInt8}
    (h : Inside scalar (opening isObject :: stack) text) :
    Item scalar false stack (opening isObject :: text) := by
  obtain ⟨isObject', stack', heq, h⟩ := h
  obtain ⟨hopening, rfl⟩ := List.cons.inj heq
  obtain rfl := opening_injective hopening
  rcases h with ⟨blank, rest, rfl, hblank, hcloses⟩ | ⟨label, t, rest, rfl, hlabel, ht, hcloses⟩
  · refine ⟨.element [], .empty isObject blank, rest, ?_, ⟨rfl, rfl⟩, hblank, hcloses⟩
    simp only [Label.text, Tree.text, List.nil_append, List.cons_append, List.append_assoc]
  · obtain ⟨isObject', r, rest', hopening, rfl, hr, hcloses⟩ := hcloses
    obtain rfl := opening_injective hopening
    refine ⟨.element [], .node isObject label t r, rest', ?_, ⟨rfl, rfl⟩, ⟨hlabel, ht, hr⟩,
      hcloses⟩
    simp only [Label.text, Tree.text, List.nil_append, List.cons_append, List.append_assoc]

theorem item_afterComma {opened : UInt8} {stack : List UInt8}
    (hstate : s.state = afterComma opened) (hstack : s.stack = opened :: stack)
    (h : Accepts bytes s text) :
    ∃ isObject, opened = opening isObject ∧ Item s.isScalar isObject s.stack text := by
  have hopened {isObject : Bool} (hitem : Item s.isScalar isObject s.stack text) :
      ∃ isObject, opened = opening isObject := by
    obtain ⟨label, t, rest, -, -, -, hcloses⟩ := hitem
    rw [hstack] at hcloses
    obtain ⟨isObject, -, -, heq, -⟩ := hcloses
    exact ⟨isObject, heq⟩
  by_cases heq : opened = byte '\x7b'
  · rw [Accepts, hstate, afterComma, if_pos heq] at h
    exact ⟨true, heq, h⟩
  · rw [Accepts, hstate, afterComma, if_neg heq] at h
    obtain ⟨isObject, rfl⟩ := hopened h
    cases isObject with
    | true => exact absurd rfl heq
    | false => exact ⟨false, rfl, h⟩

theorem start_step (hstate : s.state = .start) (hat : At bytes s text)
    (h : step names bytes text.head? s = (t, none))
    (ht : Accepts bytes t (bytes.drop t.pos)) : Accepts bytes s text := by
  rw [step.eq_def, hstate] at h
  rw [Accepts, hstate]
  intro hstack
  cases text with
  | nil => cases h
  | cons b text =>
    dsimp only [List.head?_cons] at h
    split_ifs at h with hb
    · cases h
      rw [hat.move .start] at ht
      obtain ⟨blank, t, rest, htext, hblank, ht, hrest⟩ := ht hstack
      exact ⟨b :: blank, t, rest, by rw [htext]; rfl, all_cons hb hblank, ht, hrest⟩
    · cases h
      have hitem : Item (isScalar { s with root := some b }) false s.stack (bytes.drop s.pos) := ht
      rw [hat, hstack] at hitem
      obtain ⟨label, t, rest, htext, hlabel, ht, hfollows⟩ := hitem
      cases label with
      | member _ _ _ _ => cases hlabel.1
      | element blank =>
        cases blank with
        | cons c blank =>
          obtain ⟨rfl, -⟩ := List.cons.inj htext
          exact absurd ((Bool.and_eq_true _ _).mp (List.all_cons.symm.trans hlabel.2)).1 hb
        | nil =>
          refine ⟨[], t, rest, htext, rfl, ht, fun hword => hfollows ?_⟩
          obtain ⟨c, w, hw, -⟩ := tree_head ht
          have hfirst : t.firstByte = b := by
            rw [hw] at htext
            rw [Tree.firstByte, hw]
            exact (List.cons.inj htext).1.symm
          exact (isScalar_head ht (s := { s with stack := [], root := some b })
            (by rw [hfirst])).trans hword

/-- A value is read from its first byte. -/
theorem value_step (hstate : s.state = .value) (hat : At bytes s text)
    (h : step names bytes text.head? s = (t, none))
    (ht : Accepts bytes t (bytes.drop t.pos)) : Accepts bytes s text := by
  rw [step.eq_def, hstate] at h
  rw [Accepts, hstate]
  cases text with
  | nil => cases h
  | cons b text =>
    have hdrop : bytes.drop (s.pos + 1) = text := hat.move .value
    -- A value that is one text.
    have hword {w rest : List UInt8} (htext : text = w ++ rest) (t : Tree)
        (hw : t.text = b :: w) (ht : t.Valid) (hcloses : Closes s.isScalar s.stack rest) :
        Item s.isScalar false s.stack (b :: text) :=
      ⟨.element [], t, rest, by rw [htext, hw]; rfl, ⟨rfl, rfl⟩, ht, hcloses⟩
    dsimp only [List.head?_cons] at h
    rw [firstByte] at h
    split_ifs at h with hb hn htrue hfalse hminus hdigit hquote hopen
    · cases h
      rw [hat.move .value] at ht
      exact Item.blank hb ht
    · cases h
      obtain ⟨w, rest, htext, hw, hcloses⟩ := ht
      exact hword (hdrop.symm.trans htext) (.word _) rfl
        (by rw [hn, show w = _ from hw]; exact .null) hcloses
    · cases h
      obtain ⟨w, rest, htext, hw, hcloses⟩ := ht
      exact hword (hdrop.symm.trans htext) (.word _) rfl
        (by rw [htrue, show w = _ from hw]; exact .true) hcloses
    · cases h
      obtain ⟨w, rest, htext, hw, hcloses⟩ := ht
      exact hword (hdrop.symm.trans htext) (.word _) rfl
        (by rw [hfalse, show w = _ from hw]; exact .false) hcloses
    · cases h
      obtain ⟨w, rest, htext, hw, hcloses⟩ := ht
      exact hword (hdrop.symm.trans htext) (.word _) rfl
        (by rw [hminus]; exact .negative hw) hcloses
    · cases h
      obtain ⟨w, rest, htext, hw, hcloses⟩ := ht
      exact ⟨.element [], .word w, rest, hat.symm.trans htext, ⟨rfl, rfl⟩, .unsigned hw, hcloses⟩
    · cases h
      obtain ⟨w, rest, htext, hw, hcloses⟩ := ht
      exact hword (hdrop.symm.trans htext) (.string w) (by rw [hquote]; rfl) hw hcloses
    · cases h
      have hinside : Inside s.isScalar (b :: s.stack) (bytes.drop (s.pos + 1)) := ht
      rw [hdrop] at hinside
      obtain ⟨isObject, stack, heq, -⟩ := id hinside
      obtain ⟨rfl, -⟩ := List.cons.inj heq
      exact item_of_inside hinside
    · cases h

theorem Closes.blank {scalar : Bool} {stack : List UInt8} (hstack : stack ≠ [])
    (hb : isWhitespace b) (h : Closes scalar stack text) : Closes scalar stack (b :: text) := by
  obtain ⟨opened, stack, rfl⟩ := List.exists_cons_of_ne_nil hstack
  obtain ⟨isObject, r, rest, heq, rfl, hr, hcloses⟩ := h
  cases r with
  | close blank => exact ⟨isObject, .close (b :: blank), rest, heq, rfl, all_cons hb hr, hcloses⟩
  | comma blank label item r =>
    exact ⟨isObject, .comma (b :: blank) label item r, rest, heq, rfl,
      ⟨all_cons hb hr.1, hr.2⟩, hcloses⟩

theorem Inside.blank {scalar : Bool} {stack : List UInt8} (hb : isWhitespace b)
    (h : Inside scalar stack text) : Inside scalar stack (b :: text) := by
  obtain ⟨isObject, stack', rfl, ⟨blank, rest, rfl, hblank, hcloses⟩ | hitem⟩ := h
  · exact ⟨isObject, stack', rfl, .inl ⟨b :: blank, rest, rfl, all_cons hb hblank, hcloses⟩⟩
  · exact ⟨isObject, stack', rfl, .inr (hitem.blank hb)⟩

theorem inner_step {accept : Bool} (hstate : s.state = .inner accept) (hat : At bytes s text)
    (h : step names bytes text.head? s = (t, none))
    (ht : Accepts bytes t (bytes.drop t.pos)) : Accepts bytes s text := by
  rw [step.eq_def, hstate] at h
  cases text with
  | nil => cases h
  | cons b text =>
    have hdrop : bytes.drop (s.pos + 1) = text := hat.move .value
    cases hstack : s.stack with
    | nil =>
      rw [hstack] at h
      cases h
    | cons opened stack =>
      have hclosed (isObject : Bool) (hopened : opened = opening isObject)
          (hb : b = closing isObject) (ht : Accepts bytes s.close (bytes.drop s.close.pos)) :
          Accepts bytes s (b :: text) := by
        have hcloses : Closes s.isScalar s.stack.tail (bytes.drop (s.pos + 1)) :=
          closes_valueDone (s := { s with pos := s.pos + 1, stack := s.stack.tail }) ht
        rw [hdrop, hstack] at hcloses
        rw [Accepts, hstate, hstack, hopened, hb]
        cases accept with
        | true => exact fun _ => ⟨isObject, .close [], text, rfl, rfl, rfl, hcloses⟩
        | false => exact ⟨isObject, stack, rfl, .inl ⟨[], text, rfl, rfl, hcloses⟩⟩
      rw [hstack] at h
      dsimp only [List.head?_cons] at h
      split_ifs at h with hb hcomma hsquare hcurly haccept
      · cases h
        rw [show bytes.drop (move _ _).pos = text from hdrop] at ht
        cases accept with
        | true =>
          rw [Accepts, hstate]
          exact fun hne => (ht hne).blank hne hb
        | false =>
          rw [Accepts, hstate]
          exact Inside.blank hb ht
      · cases h
        rw [Bool.and_eq_true, decide_eq_true_eq] at hcomma
        obtain ⟨rfl, rfl⟩ := hcomma
        obtain ⟨isObject, hopened, hitem⟩ := item_afterComma rfl (by exact hstack) ht
        rw [show bytes.drop (move _ _).pos = text from hdrop] at hitem
        obtain ⟨label, t, rest, htext, hlabel, ht, hcloses⟩ := hitem
        rw [show (move _ _).stack = _ from hstack] at hcloses
        obtain ⟨isObject', r, rest', hopened', hrest, hr, hcloses⟩ := hcloses
        obtain rfl := opening_injective (hopened.symm.trans hopened')
        rw [Accepts, hstate, hstack, htext, hrest]
        refine fun _ => ⟨isObject, .comma [] label t r, rest', hopened, ?_, ⟨rfl, hlabel, ht, hr⟩,
          hcloses⟩
        simp only [Rest.text, List.nil_append, List.cons_append, List.append_assoc]
      · cases h
        rw [Bool.and_eq_true, decide_eq_true_eq, decide_eq_true_eq] at hsquare
        exact hclosed false hsquare.2 hsquare.1 ht
      · cases h
        rw [Bool.and_eq_true, decide_eq_true_eq, decide_eq_true_eq] at hcurly
        exact hclosed true hcurly.2 hcurly.1 ht
      · cases h
      · cases h
        cases accept with
        | true => exact absurd rfl haccept
        | false =>
          obtain ⟨isObject, hopened, hitem⟩ := item_afterComma rfl (by exact hstack) ht
          have hinside : Item s.isScalar isObject s.stack (bytes.drop s.pos) := hitem
          rw [hat] at hinside
          rw [Accepts, hstate]
          exact ⟨isObject, stack, by rw [hstack, hopened], .inr hinside⟩

theorem keyQuote_step (hstate : s.state = .keyQuote) (hat : At bytes s text)
    (h : step names bytes text.head? s = (t, none))
    (ht : Accepts bytes t (bytes.drop t.pos)) : Accepts bytes s text := by
  rw [step.eq_def, hstate] at h
  rw [Accepts, hstate]
  cases text with
  | nil => cases h
  | cons b text =>
    have hdrop : bytes.drop (s.pos + 1) = text := hat.move .value
    dsimp only [List.head?_cons] at h
    split_ifs at h with hb hquote
    · cases h
      rw [hat.move .keyQuote] at ht
      exact Item.blank hb ht
    · cases h
      obtain ⟨name, rest, htext, hname, blank, rest', rfl, hblank, hitem⟩ := ht
      obtain ⟨label, t, rest, rfl, hlabel, ht, hcloses⟩ := hitem
      cases label with
      | member _ _ _ _ => cases hlabel.1
      | element blank' =>
        refine ⟨.member [] name blank blank', t, rest, ?_, ⟨rfl, rfl, hname, hblank, hlabel.2⟩, ht,
          hcloses⟩
        rw [hquote, ← hdrop, show bytes.drop (s.pos + 1) = _ from htext]
        simp only [Label.text, List.nil_append, List.cons_append, List.append_assoc]
    · cases h

theorem colon_step (hstate : s.state = .colon) (hat : At bytes s text)
    (h : step names bytes text.head? s = (t, none))
    (ht : Accepts bytes t (bytes.drop t.pos)) : Accepts bytes s text := by
  rw [step.eq_def, hstate] at h
  rw [Accepts, hstate]
  cases text with
  | nil => cases h
  | cons b text =>
    dsimp only [List.head?_cons] at h
    split_ifs at h with hb hcolon
    · cases h
      rw [hat.move .colon] at ht
      obtain ⟨blank, rest, rfl, hblank, hitem⟩ := ht
      exact ⟨b :: blank, rest, rfl, all_cons hb hblank, hitem⟩
    · cases h
      rw [hat.move .value] at ht
      exact ⟨[], text, by rw [hcolon]; rfl, rfl, ht⟩
    · cases h

theorem peekEnd_step (hstate : s.state = .peekEnd)
    (h : step names bytes text.head? s = (t, none)) : Accepts bytes s text := by
  rw [step.eq_def, hstate] at h
  rw [Accepts, hstate]
  intro b hb
  cases text with
  | nil => cases hb
  | cons c text =>
    cases hb
    dsimp only [List.head?_cons] at h
    split_ifs at h with hfollow
    · exact hfollow
    · cases h

/-- Every turn of a completed run asks of the bytes what its next turn asks, and the byte it
reads. -/
theorem accepts_step (h : step names bytes bytes[s.pos]? s = (t, none))
    (ht : Accepts bytes t (bytes.drop t.pos)) : Accepts bytes s (bytes.drop s.pos) := by
  have hat : At bytes s (bytes.drop s.pos) := rfl
  rw [hat.next] at h
  cases hstate : s.state with
  | start => exact start_step names hstate hat h ht
  | value => exact value_step names hstate hat h ht
  | literal _ => exact literal_step names hstate hat h ht
  | integerFirst => exact integer_step names hat h (.inl hstate) ht
  | integerZero => exact integer_step names hat h (.inr (.inl hstate)) ht
  | integerDigits => exact integer_step names hat h (.inr (.inr hstate)) ht
  | numberTail => exact fraction_step names hat h (.inl hstate) ht
  | fractionFirst => exact fraction_step names hat h (.inr (.inl hstate)) ht
  | fractionDigits => exact fraction_step names hat h (.inr (.inr (.inl hstate))) ht
  | fractionTail => exact fraction_step names hat h (.inr (.inr (.inr hstate))) ht
  | exponentSign => exact exponent_step names hat h (.inl hstate) ht
  | exponentFirst => exact exponent_step names hat h (.inr (.inl hstate)) ht
  | exponentDigits => exact exponent_step names hat h (.inr (.inr hstate)) ht
  | string _ => exact string_step names hstate hat h ht
  | escape _ => exact escape_step names hstate hat h ht
  | hex _ _ => exact hex_step names hstate hat h ht
  | inner _ => exact inner_step names hstate hat h ht
  | keyQuote => exact keyQuote_step names hstate hat h ht
  | colon => exact colon_step names hstate hat h ht
  | peekEnd => exact peekEnd_step names hstate h
  | done =>
    rw [Accepts, hstate]
    trivial

/-- Only a scanner that is done completes. -/
theorem step_complete {next : Option UInt8} {stop : Nat}
    (h : step names bytes next s = (t, some (.complete stop))) : s.state = .done := by
  unfold step firstByte skipString at h
  split at h
  all_goals
    first
      | assumption
      | (try dsimp only at h
         try split at h
         all_goals
           try split_ifs at h
           all_goals cases h)

theorem accepts_of_complete {stop : Nat} {u : Scanner}
    (h : scan names bytes true s = (.complete stop, u)) : Accepts bytes s (bytes.drop s.pos) := by
  fun_induction scan names bytes true s with
  | case1 s hneed => cases h
  | case2 s _ t found hstep =>
    cases h
    rw [Accepts, step_complete names hstep]
    trivial
  | case3 s _ t hstep ih => exact accepts_step names hstep (ih h)

/-- A completed stream starts with a message. -/
theorem message_of_complete {stream : List UInt8} {stop : Nat} {u : Scanner}
    (h : scan names stream true start = (.complete stop, u)) : Nonempty (Message stream) := by
  obtain ⟨blank, t, rest, htext, hblank, ht, hrest⟩ := accepts_of_complete names h rfl
  exact ⟨⟨blank, t, rest, htext, hblank, ht, hrest⟩⟩

end Structure

end KRust.Rpc.Framing.Scanner
