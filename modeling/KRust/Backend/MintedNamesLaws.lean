import KRust.Backend.MintedNames

/-!
The KORE spelling of a name is an identifier, and the spelling of an identifier is itself. A
spelling is decoded exactly where it is the escape of a name of the backend, and a minted name is
read back into the parts it was made of.
-/

set_option linter.unusedSectionVars false

namespace KRust.Backend

open KRust.Kore

section Spelling

theorem nameBody_of_head {name : List Char} (h : name.head? ≠ some '@') : nameBody name = name := by
  unfold nameBody
  split
  · exact absurd rfl h
  · rfl

theorem isVariableIdentifier_iff (name : String) :
    isVariableIdentifier name = true ↔ IsIdentifier (nameBody name.toList) := by
  unfold isVariableIdentifier
  split
  · rename_i rest heq
    rw [heq, List.isEmpty_iff, identifierProblems_eq_nil]
    exact Iff.rfl
  · rename_i hother
    have hhead : name.toList.head? ≠ some '@' := by
      intro hhead
      obtain ⟨rest, hrest⟩ := List.head?_eq_some_iff.mp hhead
      exact hother rest hrest
    rw [nameBody_of_head hhead, List.isEmpty_iff, identifierProblems_eq_nil]

theorem isIdChar_toDigits {n : Nat} {c : Char} (h : c ∈ Nat.toDigits 16 n) : isIdChar c = true := by
  induction n using Nat.strong_induction_on with
  | h n ih =>
    have hall : ∀ d < 16, isIdChar (Nat.digitChar d) = true := by decide
    rw [Nat.toDigits_eq_if (by decide)] at h
    split at h
    · rename_i hlt
      rw [List.mem_singleton.mp h]
      exact hall n hlt
    · rcases List.mem_append.mp h with h | h
      · exact ih (n / 16) (by omega) h
      · rw [List.mem_singleton.mp h]
        exact hall _ (Nat.mod_lt n (by decide))

/-- What the escape writes inside a name are characters of identifiers. -/
theorem isIdChar_escapeCharacter {c d : Char} (h : d ∈ escapeCharacter false c) :
    isIdChar d = true := by
  unfold escapeCharacter at h
  split at h
  · rename_i hkept
    rw [List.mem_singleton.mp h, isIdChar, hkept, Bool.true_or]
  · split at h
    · rename_i hat
      exact absurd hat.2 (by decide)
    · have hmarks : ∀ marks : List Char, marks.all isIdChar = true → d ∈ marks →
          isIdChar d = true := fun marks hall hd => List.all_eq_true.mp hall d hd
      split at h
      · exact hmarks _ (by decide) h
      · split at h
        · exact hmarks _ (by decide) h
        · split at h
          · exact hmarks _ (by decide) h
          · split at h
            · exact hmarks _ (by decide) h
            · rcases List.mem_append.mp h with h | h
              · have h : d ∈ ['-', 'u'] ++ Nat.toDigits 16 c.toNat := h
                rcases List.mem_append.mp h with h | h
                · exact hmarks _ (by decide) h
                · exact isIdChar_toDigits h
              · exact hmarks _ (by decide) h

theorem isIdChar_escapeFrom {name : List Char} {d : Char} (h : d ∈ escapeFrom false name) :
    isIdChar d = true := by
  induction name with
  | nil => cases h
  | cons c name ih =>
    rw [escapeFrom, List.mem_append] at h
    exact h.elim isIdChar_escapeCharacter ih

theorem escapeCharacter_letter {initial : Bool} {c : Char} (h : isIdStart c = true) :
    escapeCharacter initial c = [c] := by
  rw [isIdStart] at h
  have hkept : (c.isAlphanum || decide (c = '\'')) = true := by
    rw [Char.isAlphanum, h, Bool.true_or, Bool.true_or]
  rw [escapeCharacter, if_pos hkept]

/-- The escape of a name that starts with a letter, after the `@` of a set variable. -/
theorem isIdentifier_escapeFrom {name : List Char} (h : (nameBody name).head?.any isIdStart) :
    IsIdentifier (nameBody (escapeFrom true name)) := by
  have hbody : ∀ (initial : Bool) (body : List Char), body.head?.any isIdStart →
      IsIdentifier (escapeFrom initial body) := by
    intro initial body hbody
    cases body with
    | nil => cases hbody
    | cons c body =>
      refine ⟨c, escapeFrom false body, ?_, hbody, fun d hd => isIdChar_escapeFrom hd⟩
      rw [escapeFrom, escapeCharacter_letter hbody, List.singleton_append]
  unfold nameBody at h
  split at h
  · rename_i body
    have hat : escapeFrom true ('@' :: body) = '@' :: escapeFrom false body := rfl
    rw [hat]
    exact hbody false body h
  · obtain ⟨first, rest, heq, hfirst, hrest⟩ := hbody true name h
    have hhead : (escapeFrom true name).head? ≠ some '@' := by
      rw [heq]
      intro hat
      rw [List.head?_cons] at hat
      rw [Option.some.inj hat] at hfirst
      exact absurd hfirst (by decide)
    rw [nameBody_of_head hhead]
    exact ⟨first, rest, heq, hfirst, hrest⟩

theorem isVariableIdentifier_encode {name : String}
    (h : (nameBody name.toList).head?.any isIdStart) :
    isVariableIdentifier (encodeVariableName name) = true := by
  unfold encodeVariableName
  split
  · assumption
  · rw [isVariableIdentifier_iff, escapeVariableName, String.toList_ofList]
    exact isIdentifier_escapeFrom h

end Spelling

section Decoding

theorem decodeFrom_kept {c : Char} (h : c ≠ '-') (wire : List Char) :
    decodeFrom (c :: wire) = (decodeFrom wire).map (c :: ·) := by
  rw [decodeFrom.eq_def]
  simp only [h, if_false]

theorem decodeFrom_letter {c letter : Char} (h : unescape letter = some c) (wire : List Char) :
    decodeFrom ('-' :: letter :: wire) = (decodeFrom wire).map (c :: ·) := by
  rw [decodeFrom]
  simp only [if_true, h]
  cases decodeFrom wire <;> rfl

/-- The escape of a character of the backend's names is read back. -/
theorem decodeFrom_escapeCharacter {c : Char} (h : isBackendCharacter c = true) (wire : List Char) :
    decodeFrom (escapeCharacter false c ++ wire) = (decodeFrom wire).map (c :: ·) := by
  unfold escapeCharacter
  split
  · rename_i hkept
    have hne : c ≠ '-' := by
      rintro rfl
      exact absurd hkept (by decide)
    exact decodeFrom_kept hne wire
  · rename_i hkept
    rw [Bool.not_eq_true, Bool.or_eq_false_iff] at hkept
    rw [isBackendCharacter, hkept.1, hkept.2] at h
    split
    · rename_i hat
      exact absurd hat.2 (by decide)
    · split
      · rename_i hhyphen
        rw [hhyphen]
        exact decodeFrom_letter rfl wire
      · split
        · rename_i hhash
          rw [hhash]
          exact decodeFrom_letter rfl wire
        · split
          · rename_i hbang
            rw [hbang]
            exact decodeFrom_letter rfl wire
          · rename_i hhyphen hhash hbang
            simp [hhyphen, hhash, hbang] at h

theorem decodeFrom_escapeFrom {name : List Char} (h : ∀ c ∈ name, isBackendCharacter c = true) :
    decodeFrom (escapeFrom false name) = some name := by
  induction name with
  | nil => rfl
  | cons c name ih =>
    rw [List.forall_mem_cons] at h
    rw [escapeFrom, decodeFrom_escapeCharacter h.1, ih h.2]
    rfl

/-- A name as the backend makes them: a letter, then letters, digits, `'`, `#`, `!` and `-`,
after the `@` of a set variable. -/
def IsBackendName (name : String) : Prop :=
  (nameBody name.toList).head?.any isIdStart = true ∧
    (nameBody name.toList).all isBackendCharacter = true

theorem escapeFrom_initial {name : List Char} (h : name.head? ≠ some '@') :
    escapeFrom true name = escapeFrom false name := by
  cases name with
  | nil => rfl
  | cons c name =>
    have hne : c ≠ '@' := fun heq => h (congrArg some heq)
    rw [escapeFrom, escapeFrom, escapeCharacter, escapeCharacter]
    simp [hne]

theorem decodeFrom_escape {name : String} (h : IsBackendName name) :
    decodeFrom (escapeVariableName name).toList = some name.toList := by
  obtain ⟨-, hall⟩ := h
  rw [List.all_eq_true] at hall
  rw [escapeVariableName, String.toList_ofList]
  by_cases hhead : name.toList.head? = some '@'
  · obtain ⟨body, hbody⟩ := List.head?_eq_some_iff.mp hhead
    rw [hbody] at hall ⊢
    have hkept : ∀ c ∈ body, isBackendCharacter c = true := hall
    have hat : escapeFrom true ('@' :: body) = '@' :: escapeFrom false body := rfl
    rw [hat, decodeFrom_kept (by decide), decodeFrom_escapeFrom hkept]
    rfl
  · rw [nameBody_of_head hhead] at hall
    rw [escapeFrom_initial hhead, decodeFrom_escapeFrom hall]

/-- A spelling is decoded as the name of the backend it is the escape of, if there is one. -/
theorem decodeVariableName_ok_iff (wire name : String) :
    decodeVariableName wire = .ok name ↔ IsBackendName name ∧ escapeVariableName name = wire := by
  constructor
  · intro h
    unfold decodeVariableName at h
    split at h
    · cases h
    · rename_i decoded hdecoded
      split at h
      · rename_i hchecks
        cases h
        simp only [Bool.and_eq_true, decide_eq_true_eq] at hchecks
        rw [IsBackendName, String.toList_ofList]
        exact ⟨hchecks.1, hchecks.2⟩
      · cases h
  · rintro ⟨hname, rfl⟩
    have hsame : String.ofList name.toList = name := String.ofList_toList
    rw [decodeVariableName, decodeFrom_escape hname]
    simp only [hname.1, hname.2, hsame, decide_true, Bool.and_self, if_true]

theorem isIdChar_of_isIdStart {c : Char} (h : isIdStart c = true) : isIdChar c = true := by
  rw [isIdStart] at h
  simp [isIdChar, Char.isAlphanum, h]

theorem isIdChar_of_identifier {name : List Char} (h : IsIdentifier name) :
    ∀ c ∈ name, isIdChar c = true := by
  obtain ⟨first, rest, rfl, hfirst, hrest⟩ := h
  rw [List.forall_mem_cons]
  exact ⟨isIdChar_of_isIdStart hfirst, hrest⟩

theorem escapeFrom_identifier {name : List Char} (h : ∀ c ∈ name, isIdChar c = true)
    (hhyphen : '-' ∉ name) : escapeFrom false name = name := by
  induction name with
  | nil => rfl
  | cons c name ih =>
    rw [List.forall_mem_cons] at h
    rw [List.mem_cons, not_or] at hhyphen
    have hkept : (c.isAlphanum || decide (c = '\'')) = true := by
      have hc := h.1
      simp only [isIdChar, Bool.or_eq_true, decide_eq_true_eq] at hc ⊢
      rcases hc with (hc | hc) | hc
      · exact .inl hc
      · exact .inr hc
      · exact absurd hc.symm hhyphen.1
    rw [escapeFrom, escapeCharacter, if_pos hkept, ih h.2 hhyphen.2, List.singleton_append]

/-- An identifier without a hyphen is its own escape. -/
theorem escape_identifier {name : String} (h : isVariableIdentifier name = true)
    (hhyphen : '-' ∉ name.toList) : escapeVariableName name = name := by
  have hkept := isIdChar_of_identifier ((isVariableIdentifier_iff name).mp h)
  have hlist : escapeFrom true name.toList = name.toList := by
    by_cases hhead : name.toList.head? = some '@'
    · obtain ⟨body, hbody⟩ := List.head?_eq_some_iff.mp hhead
      rw [hbody] at hkept hhyphen ⊢
      have hbodyKept : ∀ c ∈ body, isIdChar c = true := hkept
      rw [List.mem_cons, not_or] at hhyphen
      have hat : escapeFrom true ('@' :: body) = '@' :: escapeFrom false body := rfl
      rw [hat, escapeFrom_identifier hbodyKept hhyphen.2]
    · rw [nameBody_of_head hhead] at hkept
      rw [escapeFrom_initial hhead, escapeFrom_identifier hkept hhyphen]
  rw [escapeVariableName, hlist, String.ofList_toList]

end Decoding

section Parts

theorem eq_append_of_stripStart {start text rest : List Char} (h : stripStart start text = some rest) :
    text = start ++ rest := by
  induction start generalizing text with
  | nil =>
    cases h
    rfl
  | cons c start ih =>
    cases text with
    | nil => cases h
    | cons d text =>
      rw [stripStart] at h
      split at h
      · rename_i hcd
        rw [hcd, ih h, List.cons_append]
      · cases h

theorem rsplitOnce_none {mark : Char} {text : List Char} (h : mark ∉ text) :
    rsplitOnce mark text = none := by
  induction text with
  | nil => rfl
  | cons c text ih =>
    rw [List.mem_cons, not_or] at h
    rw [rsplitOnce, ih h.2]
    simp [Ne.symm h.1]

theorem rsplitOnce_append {mark : Char} (before : List Char) {after : List Char} (h : mark ∉ after) :
    rsplitOnce mark (before ++ mark :: after) = some (before, after) := by
  induction before with
  | nil =>
    rw [List.nil_append, rsplitOnce, rsplitOnce_none h]
    simp
  | cons c before ih => rw [List.cons_append, rsplitOnce, ih]

/-- The fresh suffix of a marker and a counter. -/
def freshSuffix (marker : FreshMarker) (counter : Nat) : List Char :=
  '!' :: (marker.asStr.toList ++ Nat.toDigits 10 counter)

/-- The letters of a marker's word. -/
def markerLetters : FreshMarker → List Char
  | .rewrite => []
  | .claim => ['c', 'l', 'a', 'i', 'm']
  | .exists => ['e', 'x', 'i', 's', 't', 's']
  | .apart => ['a', 'p', 'a', 'r', 't']
  | .binder => ['b', 'i', 'n', 'd', 'e', 'r']
  | .memo => ['m', 'e', 'm', 'o']
  | .unify => ['u', 'n', 'i', 'f', 'y']

theorem toList_asStr (marker : FreshMarker) : marker.asStr.toList = markerLetters marker := by
  cases marker <;> rfl

/-- The word of a marker is read off the counter after it. -/
theorem findSome?_marker {α : Type} (rest : α) (marker : FreshMarker) (counter : Nat) :
    FreshMarker.all.findSome? (fun found => do
      let digits ← stripStart found.asStr.toList (marker.asStr.toList ++ Nat.toDigits 10 counter)
      if !digits.isEmpty && digits.all Char.isDigit then some (rest, found) else none) =
        some (rest, marker) := by
  have hdigits : ∀ c ∈ Nat.toDigits 10 counter, c.isDigit = true := fun c hc =>
    Nat.isDigit_of_mem_toDigits (by decide) (by decide) hc
  have hnonempty : Nat.toDigits 10 counter ≠ [] :=
    List.length_pos_iff.mp (@Nat.length_toDigits_pos 10 counter)
  generalize Nat.toDigits 10 counter = digits at hdigits hnonempty
  obtain ⟨d, digits, rfl⟩ := List.exists_cons_of_ne_nil hnonempty
  have hdigit : d.isDigit = true := hdigits d List.mem_cons_self
  have hrest : ∀ c ∈ digits, c.isDigit = true := fun c hc => hdigits c (List.mem_cons_of_mem _ hc)
  have hletter : ∀ c ∈ ['c', 'e', 'a', 'b', 'm', 'u'], c ≠ d := by
    rintro c hc rfl
    have hall : (['c', 'e', 'a', 'b', 'm', 'u'].all fun c => !c.isDigit) = true := by decide
    have hletter := List.all_eq_true.mp hall c hc
    rw [hdigit] at hletter
    cases hletter
  have hall : digits.all Char.isDigit = true := List.all_eq_true.mpr hrest
  simp only [List.forall_mem_cons] at hletter
  obtain ⟨hclaim, hexists, hapart, hbinder, hmemo, hunify, -⟩ := hletter
  simp only [toList_asStr]
  cases marker <;>
    simp [-List.all_eq_true, FreshMarker.all, markerLetters, stripStart,
      hclaim, hexists, hapart, hbinder, hmemo, hunify, hdigit, hall]

theorem splitFreshMarker_append (name : List Char) (marker : FreshMarker) (counter : Nat) :
    splitFreshMarker (name ++ freshSuffix marker counter) = some (name, marker) := by
  rw [splitFreshMarker, freshSuffix, rsplitOnce_append name (bang_not_mem_suffix marker counter)]
  exact findSome?_marker name marker counter

theorem splitFresh_append (name : List Char) (marker : FreshMarker) (counter : Nat) :
    splitFresh (name ++ freshSuffix marker counter) =
      (marker :: (splitFresh name).1, (splitFresh name).2) := by
  rw [splitFresh.eq_def]
  split
  · rename_i rest found hsplit
    rw [splitFreshMarker_append] at hsplit
    cases hsplit
    rfl
  · rename_i hnone
    rw [splitFreshMarker_append] at hnone
    cases hnone

theorem splitFresh_base {base : List Char} (h : '!' ∉ base) : splitFresh base = ([], base) := by
  have hnone : splitFreshMarker base = none := by
    rw [splitFreshMarker, rsplitOnce_none h]
    rfl
  rw [splitFresh.eq_def]
  split
  · rename_i hsplit
    rw [hnone] at hsplit
    cases hsplit
  · rfl

/-- The fresh suffixes of a chain of marks, the first one added first. -/
def freshSuffixes (marks : List (FreshMarker × Nat)) : List Char :=
  marks.flatMap fun mark => freshSuffix mark.1 mark.2

theorem splitFresh_suffixes (name : List Char) (marks : List (FreshMarker × Nat)) :
    splitFresh (name ++ freshSuffixes marks) =
      ((marks.map Prod.fst).reverse ++ (splitFresh name).1, (splitFresh name).2) := by
  induction marks generalizing name with
  | nil => simp [freshSuffixes]
  | cons mark marks ih =>
    rw [freshSuffixes, List.flatMap_cons, ← List.append_assoc, ← freshSuffixes, ih,
      splitFresh_append, List.map_cons, List.reverse_cons, List.append_assoc,
      List.singleton_append]

/-- The name with a chain of marks added to it. -/
def withFreshMarkers (base : String) (marks : List (FreshMarker × Nat)) : String :=
  marks.foldl (fun name mark => withFreshMarker name mark.1 mark.2) base

theorem toList_withFreshMarkers (base : String) (marks : List (FreshMarker × Nat)) :
    (withFreshMarkers base marks).toList = base.toList ++ freshSuffixes marks := by
  unfold withFreshMarkers freshSuffixes
  induction marks generalizing base with
  | nil => simp
  | cons mark marks ih =>
    rw [List.foldl_cons, ih, toList_withFreshMarker, List.flatMap_cons, freshSuffix,
      List.append_assoc]

theorem hash_not_mem_freshSuffixes (marks : List (FreshMarker × Nat)) :
    '#' ∉ freshSuffixes marks := by
  rw [freshSuffixes, List.mem_flatMap]
  rintro ⟨mark, -, hmem⟩
  rw [freshSuffix, List.mem_cons, List.mem_append] at hmem
  rcases hmem with h | h | h
  · exact absurd h (by decide)
  · rw [toList_asStr] at h
    have hall : ∀ marker : FreshMarker, '#' ∉ markerLetters marker := by
      intro marker
      cases marker <;> decide
    exact hall mark.1 h
  · exact absurd (Nat.isDigit_of_mem_toDigits (by decide) (by decide) h) (by decide)

theorem splitMarker_none {body rest : List Char} {name : List Char}
    (hname : nameBody name = body ++ rest) (hbody : '#' ∉ body) (hrest : '#' ∉ rest) :
    splitMarker name VariableProvenance.all = (none, name) := by
  have hstrip : ∀ p ∈ VariableProvenance.all, stripStart p.marker.toList (nameBody name) = none := by
    intro p hp
    by_contra hne
    obtain ⟨after, hafter⟩ := Option.ne_none_iff_exists'.mp hne
    have hmark : '#' ∈ p.marker.toList := by cases p <;> decide
    have hmem : '#' ∈ nameBody name := by
      rw [eq_append_of_stripStart hafter]
      exact List.mem_append_left _ hmark
    rw [hname, List.mem_append] at hmem
    exact hmem.elim hbody hrest
  have hall : VariableProvenance.all.findSome? (fun provenance =>
      (stripStart provenance.marker.toList (nameBody name)).map fun rest =>
        (some provenance, if name.head? = some '@' then '@' :: rest else rest)) = none := by
    rw [List.findSome?_eq_none_iff]
    intro p hp
    rw [hstrip p hp, Option.map_none]
  rw [splitMarker, hall, Option.getD_none]

/-- Of the markers a name can start with, at most one is there. -/
theorem findSome?_provenance {α : Type} (f : VariableProvenance → List Char → α)
    (p : VariableProvenance) (rest : List Char) :
    VariableProvenance.all.findSome? (fun provenance =>
      (stripStart provenance.marker.toList (p.marker.toList ++ rest)).map (f provenance)) =
        some (f p rest) := by
  have hrule : VariableProvenance.rule.marker.toList = ['R', 'u', 'l', 'e', '#'] := rfl
  have hequation : VariableProvenance.equation.marker.toList = ['E', 'q', '#'] := rfl
  have hexistential : VariableProvenance.existential.marker.toList = ['E', 'x', '#'] := rfl
  cases p <;>
    simp [VariableProvenance.all, hrule, hequation, hexistential, stripStart]

theorem splitMarker_some (p : VariableProvenance) (set : Bool) (rest : List Char) :
    splitMarker ((if set then ['@'] else []) ++ (p.marker.toList ++ rest)) VariableProvenance.all =
      (some p, (if set then ['@'] else []) ++ rest) := by
  cases set with
  | true =>
    have hbody : nameBody ('@' :: (p.marker.toList ++ rest)) = p.marker.toList ++ rest := rfl
    rw [if_pos rfl, List.singleton_append, List.singleton_append, splitMarker, hbody]
    have hfound := findSome?_provenance (fun provenance rest => (some provenance, '@' :: rest)) p rest
    simp only [List.head?_cons, if_true]
    rw [hfound, Option.getD_some]
  | false =>
    have hhead : (p.marker.toList ++ rest).head? ≠ some '@' := by
      have hmarker : p.marker.toList.head? ≠ some '@' := by cases p <;> decide
      have hne : p.marker.toList ≠ [] := by cases p <;> decide
      rw [List.head?_append_of_ne_nil _ hne]
      exact hmarker
    rw [if_neg Bool.false_ne_true, List.nil_append, List.nil_append, splitMarker,
      nameBody_of_head hhead]
    have hfound := findSome?_provenance (fun provenance rest => (some provenance, rest)) p rest
    simp only [hhead, if_false]
    rw [hfound, Option.getD_some]

/-- The name of a base with a provenance, if it has one, and a chain of marks. -/
def mintedName (base : String) (provenance : Option VariableProvenance)
    (marks : List (FreshMarker × Nat)) : String :=
  withFreshMarkers ((provenance.map (withProvenance base)).getD base) marks

/-- The parts of a name read from KORE, with the `@` of a set variable apart. -/
theorem toList_of_identifier {base : String} (h : isVariableIdentifier base = true) :
    ∃ (set : Bool) (body : List Char), base.toList = (if set then ['@'] else []) ++ body ∧
      IsIdentifier body ∧ ∀ p, (withProvenance base p).toList =
        (if set then ['@'] else []) ++ (p.marker.toList ++ body) := by
  have hidentifier := (isVariableIdentifier_iff base).mp h
  by_cases hhead : base.toList.head? = some '@'
  · obtain ⟨body, hbody⟩ := List.head?_eq_some_iff.mp hhead
    rw [hbody] at hidentifier
    refine ⟨true, body, hbody, hidentifier, fun p => ?_⟩
    rw [withProvenance, hbody]
    simp
  · rw [nameBody_of_head hhead] at hidentifier
    refine ⟨false, base.toList, rfl, hidentifier, fun p => ?_⟩
    rw [withProvenance]
    split
    · rename_i body hbody
      rw [hbody] at hhead
      exact absurd rfl hhead
    · simp

theorem not_mem_of_identifier {body : List Char} (h : IsIdentifier body) {c : Char}
    (hc : isIdChar c = false) : c ∉ body := by
  intro hmem
  rw [isIdChar_of_identifier h c hmem] at hc
  cases hc

/-- A minted name is read back into the parts it was made of. -/
theorem parse_mintedName {base : String} (h : isVariableIdentifier base = true)
    (provenance : Option VariableProvenance) (marks : List (FreshMarker × Nat)) :
    MintedName.parse (mintedName base provenance marks) =
      if provenance = none ∧ marks = [] then none
      else some ⟨provenance, base, marks.map Prod.fst⟩ := by
  obtain ⟨set, body, hbase, hbody, hmarked⟩ := toList_of_identifier h
  have hhash : '#' ∉ body := not_mem_of_identifier hbody (by decide)
  have hbang : '!' ∉ body := not_mem_of_identifier hbody (by decide)
  have hat : '!' ∉ (if set then ['@'] else []) := by cases set <;> decide
  have hfresh : splitFresh ((if set then ['@'] else []) ++ body ++ freshSuffixes marks) =
      ((marks.map Prod.fst).reverse, base.toList) := by
    have hnone : '!' ∉ (if set then ['@'] else []) ++ body := by
      rw [List.mem_append, not_or]
      exact ⟨hat, hbang⟩
    rw [splitFresh_suffixes, splitFresh_base hnone, List.append_nil, hbase]
  rw [List.append_assoc] at hfresh
  have hsuffix := hash_not_mem_freshSuffixes marks
  cases provenance with
  | some p =>
    have hname : (mintedName base (some p) marks).toList =
        (if set then ['@'] else []) ++ (p.marker.toList ++ (body ++ freshSuffixes marks)) := by
      rw [mintedName, toList_withFreshMarkers, Option.map_some, Option.getD_some, hmarked]
      simp only [List.append_assoc]
    have hmark : (mintedName base (some p) marks).toList.any (fun c => c = '#' || c = '!') = true := by
      have hp : '#' ∈ p.marker.toList := by cases p <;> decide
      rw [hname, List.any_eq_true]
      exact ⟨'#', by simp [hp], rfl⟩
    rw [MintedName.parse, if_pos hmark, hname, splitMarker_some]
    simp [hfresh]
  | none =>
    have hname : (mintedName base none marks).toList =
        (if set then ['@'] else []) ++ body ++ freshSuffixes marks := by
      rw [mintedName, toList_withFreshMarkers, Option.map_none, Option.getD_none, hbase]
    have hrest : nameBody (mintedName base none marks).toList = body ++ freshSuffixes marks := by
      rw [hname]
      cases set with
      | true => rfl
      | false =>
        obtain ⟨first, rest, rfl, hfirst, -⟩ := hbody
        apply nameBody_of_head
        intro heq
        have hsame : first = '@' := Option.some.inj heq
        rw [hsame] at hfirst
        exact absurd hfirst (by decide)
    cases marks with
    | nil =>
      have hplain : (mintedName base none []).toList.any (fun c => c = '#' || c = '!') = false := by
        rw [hname, List.any_eq_false]
        intro c hc
        have hneHash : c ≠ '#' := by
          rintro rfl
          cases set <;> simp [freshSuffixes, hhash] at hc
        have hneBang : c ≠ '!' := by
          rintro rfl
          cases set <;> simp [freshSuffixes, hbang] at hc
        simp [hneHash, hneBang]
      rw [MintedName.parse, hplain]
      simp
    | cons mark marks =>
      have hmark : (mintedName base none (mark :: marks)).toList.any
          (fun c => c = '#' || c = '!') = true := by
        rw [hname, List.any_eq_true]
        exact ⟨'!', by simp [freshSuffixes, freshSuffix], rfl⟩
      rw [MintedName.parse, if_pos hmark, splitMarker_none hrest hhash hsuffix, hname]
      simp [hfresh]

end Parts

section Names

/-- The spellings of the backend's names. Two names that are both identifiers, or both not, have
two spellings, each an identifier; a spelling is decoded exactly where it is the escape of a name
of the backend, so that the names that are no identifiers are read back and an identifier without
a hyphen is left as it is; and a minted name is read back into its parts. -/
theorem names_spelled_and_read :
    (∀ name, isVariableIdentifier name = true → encodeVariableName name = name) ∧
    (∀ m n, isVariableIdentifier m = isVariableIdentifier n →
      encodeVariableName m = encodeVariableName n → m = n) ∧
    (∀ name : String, (nameBody name.toList).head?.any isIdStart = true →
      isVariableIdentifier (encodeVariableName name) = true) ∧
    (∀ wire name, decodeVariableName wire = .ok name ↔
      IsBackendName name ∧ escapeVariableName name = wire) ∧
    (∀ name, IsBackendName name →
      isVariableIdentifier name = false ∨ '-' ∉ name.toList →
      decodeVariableName (encodeVariableName name) = .ok name) ∧
    ∀ base, isVariableIdentifier base = true → ∀ provenance marks,
      MintedName.parse (mintedName base provenance marks) =
        if provenance = none ∧ marks = [] then none
        else some ⟨provenance, base, marks.map Prod.fst⟩ := by
  refine ⟨fun name h => if_pos h, fun m n hsame h => ?_, fun name h => isVariableIdentifier_encode h,
    decodeVariableName_ok_iff, fun name hname hkept => ?_,
    fun base h provenance marks => parse_mintedName h provenance marks⟩
  · unfold encodeVariableName at h
    rw [hsame] at h
    split at h
    · exact h
    · exact escapeVariableName_injective h
  · rw [decodeVariableName_ok_iff]
    refine ⟨hname, ?_⟩
    cases hidentifier : isVariableIdentifier name with
    | false =>
      rw [encodeVariableName, hidentifier]
      rfl
    | true =>
      rw [encodeVariableName, hidentifier, if_pos rfl]
      rcases hkept with hkept | hkept
      · rw [hidentifier] at hkept
        cases hkept
      · exact escape_identifier hidentifier hkept

/-- An identifier and an escaped name that print alike, of which the decoder gives one. -/
theorem spelled_alike :
    encodeVariableName "Ex-hFrame-b0" = encodeVariableName "Ex#Frame!0" ∧
      decodeVariableName (encodeVariableName "Ex-hFrame-b0") = .ok "Ex#Frame!0" := by
  have hname : IsBackendName "Ex#Frame!0" := ⟨by decide, by decide⟩
  refine ⟨by decide, (decodeVariableName_ok_iff _ _).mpr ⟨hname, by decide⟩⟩

/-- A rule's set variable renamed apart from a state. -/
theorem names_spelled_and_read_apart :
    MintedName.parse "@Rule#M!apart3" = some ⟨some .rule, "@M", [.apart]⟩ ∧
      encodeVariableName "@M" = "@M" ∧
      isVariableIdentifier (encodeVariableName "@Rule#M!apart3") = true ∧
      decodeVariableName (encodeVariableName "Rule#M!apart3") = .ok "Rule#M!apart3" := by
  obtain ⟨hidentity, -, hidentifier, -, hdecode, hparse⟩ := names_spelled_and_read
  refine ⟨?_, hidentity "@M" (by decide), hidentifier "@Rule#M!apart3" (by decide),
    hdecode "Rule#M!apart3" ⟨by decide, by decide⟩ (.inl (by decide))⟩
  have hname : mintedName "@M" (some .rule) [(.apart, 3)] = "@Rule#M!apart3" := by decide
  rw [← hname, hparse "@M" (by decide)]
  rfl

end Names

end KRust.Backend
