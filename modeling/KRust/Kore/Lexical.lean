import Mathlib.Data.List.Basic

/-!
The lexical checks that the readers of textual and JSON KORE share.
-/

set_option linter.unusedSectionVars false

namespace KRust.Kore

inductive Problem where
  | empty
  | illegalInitial (character : Char)
  | illegalChars (characters : List Char)
  | missingAt
  | nonLatin1 (characters : List Char)
  deriving DecidableEq

def isIdStart (c : Char) : Bool := c.isAlpha

def isIdChar (c : Char) : Bool := c.isAlphanum || c = '\'' || c = '-'

/-- Each character once, in order of first occurrence. -/
def uniqueCharacters (characters : List Char) : List Char :=
  characters.foldl (fun unique c => if c ∈ unique then unique else unique ++ [c]) []

def identifierProblems (name : List Char) : List Problem :=
  match name with
  | [] => [.empty]
  | first :: rest =>
    let illegal := uniqueCharacters (rest.filter fun c => !isIdChar c)
    (if isIdStart first then [] else [.illegalInitial first])
      ++ if illegal.isEmpty then [] else [.illegalChars illegal]

def setVariableProblems (name : List Char) : List Problem :=
  match name with
  | [] => [.empty]
  | first :: rest => (if first = '@' then [] else [.missingAt]) ++ identifierProblems rest

def symbolProblems (name : List Char) : List Problem :=
  match name with
  | '\\' :: rest => identifierProblems rest
  | _ => identifierProblems name

def latin1Problems (text : List Char) : List Problem :=
  let illegal := text.filter fun c => '\u00ff' < c
  if illegal.isEmpty then [] else [.nonLatin1 illegal]

theorem uniqueCharacters_isEmpty (characters : List Char) :
    (uniqueCharacters characters).isEmpty = characters.isEmpty := by
  have hgrow : ∀ (cs acc : List Char), acc ≠ [] →
      cs.foldl (fun unique c => if c ∈ unique then unique else unique ++ [c]) acc ≠ [] := by
    intro cs
    induction cs with
    | nil => exact fun acc h => h
    | cons c cs ih =>
      intro acc h
      apply ih
      by_cases hmem : c ∈ acc
      · simpa [hmem] using h
      · simp [hmem]
  cases characters with
  | nil => rfl
  | cons c cs =>
    have hne := hgrow cs [c] (by simp)
    simpa [uniqueCharacters] using hne

/-- The identifiers: a letter, then letters, digits, `'` and `-`. -/
def IsIdentifier (name : List Char) : Prop :=
  ∃ first rest, name = first :: rest ∧ isIdStart first = true ∧ ∀ c ∈ rest, isIdChar c = true

theorem identifierProblems_eq_nil {name : List Char} :
    identifierProblems name = [] ↔ IsIdentifier name := by
  cases name with
  | nil => simp [identifierProblems, IsIdentifier]
  | cons first rest =>
    simp only [identifierProblems, uniqueCharacters_isEmpty, List.append_eq_nil_iff,
      ite_eq_left_iff, List.isEmpty_iff, List.filter_eq_nil_iff]
    constructor
    · rintro ⟨hfirst, hrest⟩
      refine ⟨first, rest, rfl, by simpa using hfirst, ?_⟩
      simpa using hrest
    · rintro ⟨first', rest', heq, hfirst, hrest⟩
      cases heq
      refine ⟨by simp [hfirst], ?_⟩
      simpa using hrest

theorem setVariableProblems_eq_nil {name : List Char} :
    setVariableProblems name = [] ↔ ∃ body, name = '@' :: body ∧ IsIdentifier body := by
  cases name with
  | nil => simp [setVariableProblems]
  | cons first rest =>
    simp [setVariableProblems, identifierProblems_eq_nil]

end KRust.Kore
