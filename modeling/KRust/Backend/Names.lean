import KRust.Kore.Lexical
import Mathlib.Data.Nat.Digits.Defs

/-!
Variable names inside the backend: the marks of provenance and freshness a name can
carry, and the KORE spelling a name is written with.
-/

set_option linter.unusedSectionVars false

namespace KRust.Backend

open KRust.Kore

section Definitions

/-- Where a rule-side variable came from. -/
inductive VariableProvenance where
  | rule
  | equation
  | existential
  deriving DecidableEq

def VariableProvenance.marker : VariableProvenance → String
  | .rule => "Rule#"
  | .equation => "Eq#"
  | .existential => "Ex#"

/-- The word between the `!` and the counter of a minted name. -/
inductive FreshMarker where
  | rewrite
  | claim
  | exists
  | apart
  | binder
  | memo
  | unify
  deriving DecidableEq

def FreshMarker.asStr : FreshMarker → String
  | .rewrite => ""
  | .claim => "claim"
  | .exists => "exists"
  | .apart => "apart"
  | .binder => "binder"
  | .memo => "memo"
  | .unify => "unify"

/-- `with_fresh_marker`: the base, `!`, the marker and the counter. -/
def withFreshMarker (base : String) (marker : FreshMarker) (counter : Nat) : String :=
  base ++ "!" ++ marker.asStr ++ counter.repr

/-- Whether a name is one that a KORE reader accepts for a variable. -/
def isVariableIdentifier (name : String) : Bool :=
  match name.toList with
  | '@' :: rest => (identifierProblems rest).isEmpty
  | text => (identifierProblems text).isEmpty

/-- What the escape writes for one character; `initial` holds for the first of a name. -/
def escapeCharacter (initial : Bool) (c : Char) : List Char :=
  if c.isAlphanum || c = '\'' then [c]
  else if c = '@' ∧ initial = true then ['@']
  else if c = '-' then ['-', '-']
  else if c = '#' then ['-', 'h']
  else if c = '!' then ['-', 'b']
  else if c = '@' then ['-', 'a']
  else '-' :: 'u' :: Nat.toDigits 16 c.toNat ++ ['-']

def escapeFrom (initial : Bool) : List Char → List Char
  | [] => []
  | c :: name => escapeCharacter initial c ++ escapeFrom false name

def escapeVariableName (name : String) : String := String.ofList (escapeFrom true name.toList)

/-- `encode_variable_name`: the KORE spelling of a backend variable name. -/
def encodeVariableName (name : String) : String :=
  if isVariableIdentifier name then name else escapeVariableName name

end Definitions

section Digits

theorem digitChar_ne_hyphen : ∀ n < 16, Nat.digitChar n ≠ '-' := by decide

theorem digitChar_injective : ∀ m < 16, ∀ n < 16, Nat.digitChar m = Nat.digitChar n → m = n := by
  decide

theorem hyphen_not_mem_toDigits (n : Nat) : '-' ∉ Nat.toDigits 16 n := by
  induction n using Nat.strong_induction_on with
  | h n ih =>
    rw [Nat.toDigits_eq_if (by decide)]
    split
    · rename_i hn
      rw [List.mem_singleton]
      exact fun h => digitChar_ne_hyphen n hn h.symm
    · rw [List.mem_append, List.mem_singleton]
      rintro (h | h)
      · exact ih (n / 16) (by omega) h
      · exact digitChar_ne_hyphen _ (Nat.mod_lt _ (by decide)) h.symm

theorem toDigits_injective {m n : Nat} (h : Nat.toDigits 16 m = Nat.toDigits 16 n) : m = n := by
  induction m using Nat.strong_induction_on generalizing n with
  | h m ih =>
    rw [Nat.toDigits_eq_if (by decide), Nat.toDigits_eq_if (n := n) (by decide)] at h
    have hlast : Nat.digitChar (m % 16) = Nat.digitChar (n % 16) ∧
        (m < 16 ↔ n < 16) ∧ (16 ≤ m → Nat.toDigits 16 (m / 16) = Nat.toDigits 16 (n / 16)) := by
      split at h <;> rename_i hm <;> split at h <;> rename_i hn
      · rw [Nat.mod_eq_of_lt hm, Nat.mod_eq_of_lt hn]
        exact ⟨List.singleton_inj.mp h, by omega, by omega⟩
      · have := congrArg List.length h
        have := @Nat.length_toDigits_pos 16 (n / 16)
        simp at *
      · have := congrArg List.length h
        have := @Nat.length_toDigits_pos 16 (m / 16)
        simp at *
      · obtain ⟨hinit, hlast⟩ := List.append_inj' h rfl
        exact ⟨List.singleton_inj.mp hlast, by omega, fun _ => hinit⟩
    have hmod := digitChar_injective _ (Nat.mod_lt m (by decide)) _ (Nat.mod_lt n (by decide))
      hlast.1
    by_cases hm : m < 16
    · have := hlast.2.1.mp hm
      omega
    · have := ih (m / 16) (by omega) (hlast.2.2 (by omega))
      omega

/-- A text up to the first occurrence of a mark is read off the whole text. -/
theorem append_mark_injective {mark : Char} {s t u v : List Char} (hs : mark ∉ s) (ht : mark ∉ t)
    (h : s ++ mark :: u = t ++ mark :: v) : s = t ∧ u = v := by
  induction s generalizing t with
  | nil =>
    cases t with
    | nil => simpa using h
    | cons d t =>
      rw [(List.cons.inj h).1] at ht
      exact absurd List.mem_cons_self ht
  | cons c s ih =>
    cases t with
    | nil =>
      rw [← (List.cons.inj h).1] at hs
      exact absurd List.mem_cons_self hs
    | cons d t =>
      simp only [List.mem_cons, not_or, List.cons_append, List.cons.injEq] at hs ht h
      obtain ⟨rfl, rfl⟩ := ih hs.2 ht.2 h.2
      exact ⟨by rw [h.1], rfl⟩

end Digits

section Escape

/-- The escape of a character is the character itself, a two-letter escape or its code
point between two hyphens. -/
theorem escapeCharacter_cases (initial : Bool) (c : Char) :
    (escapeCharacter initial c = [c] ∧ c ≠ '-') ∨
    (∃ letter, (c, letter) ∈ [('-', '-'), ('#', 'h'), ('!', 'b'), ('@', 'a')] ∧
      escapeCharacter initial c = ['-', letter]) ∨
    escapeCharacter initial c = '-' :: 'u' :: (Nat.toDigits 16 c.toNat ++ ['-']) := by
  unfold escapeCharacter
  split
  · rename_i hkept
    left
    refine ⟨rfl, ?_⟩
    rintro rfl
    exact absurd hkept (by decide)
  · split
    · rename_i hat
      left
      rw [hat.1]
      exact ⟨rfl, by decide⟩
    · split
      · rename_i heq
        exact .inr (.inl ⟨'-', by simp [heq], rfl⟩)
      · split
        · rename_i heq
          exact .inr (.inl ⟨'h', by simp [heq], rfl⟩)
        · split
          · rename_i heq
            exact .inr (.inl ⟨'b', by simp [heq], rfl⟩)
          · split
            · rename_i heq
              exact .inr (.inl ⟨'a', by simp [heq], rfl⟩)
            · exact .inr (.inr rfl)

theorem escapeCharacter_ne_nil (initial : Bool) (c : Char) : escapeCharacter initial c ≠ [] := by
  rcases escapeCharacter_cases initial c with ⟨h, -⟩ | ⟨letter, -, h⟩ | h <;> simp [h]

/-- The escapes of characters form a prefix code. -/
theorem escapeCharacter_append {initial : Bool} {c d : Char} {u v : List Char}
    (h : escapeCharacter initial c ++ u = escapeCharacter initial d ++ v) : c = d ∧ u = v := by
  rcases escapeCharacter_cases initial c with ⟨hc, hc'⟩ | ⟨x, hx, hc⟩ | hc <;>
    rcases escapeCharacter_cases initial d with ⟨hd, hd'⟩ | ⟨y, hy, hd⟩ | hd <;>
    rw [hc, hd] at h <;>
    simp only [List.cons_append, List.nil_append, List.append_assoc, List.cons.injEq, true_and]
      at h
  · exact h
  · exact absurd h.1 hc'
  · exact absurd h.1 hc'
  · exact absurd h.1.symm hd'
  · obtain ⟨rfl, rfl⟩ := h
    simp only [List.mem_cons, Prod.mk.injEq, List.not_mem_nil, or_false] at hx hy
    refine ⟨?_, rfl⟩
    rcases hx with ⟨rfl, rfl⟩ | ⟨rfl, rfl⟩ | ⟨rfl, rfl⟩ | ⟨rfl, rfl⟩ <;>
      simpa [eq_comm] using hy
  · rw [h.1] at hx
    simp at hx
  · exact absurd h.1.symm hd'
  · rw [← h.1] at hy
    simp at hy
  · obtain ⟨hdigits, hrest⟩ := append_mark_injective (hyphen_not_mem_toDigits _)
      (hyphen_not_mem_toDigits _) h
    refine ⟨?_, hrest⟩
    rw [← Char.ofNat_toNat c, toDigits_injective hdigits, Char.ofNat_toNat]

theorem escapeFrom_injective {initial : Bool} {s t : List Char}
    (h : escapeFrom initial s = escapeFrom initial t) : s = t := by
  induction s generalizing initial t with
  | nil =>
    cases t with
    | nil => rfl
    | cons d t =>
      have := escapeCharacter_ne_nil initial d
      simp [escapeFrom, this] at h
  | cons c s ih =>
    cases t with
    | nil =>
      have := escapeCharacter_ne_nil initial c
      simp [escapeFrom, this] at h
    | cons d t =>
      obtain ⟨rfl, hrest⟩ := escapeCharacter_append h
      rw [ih hrest]

theorem escapeVariableName_injective : Function.Injective escapeVariableName := by
  intro s t h
  have hlist : escapeFrom true s.toList = escapeFrom true t.toList := by
    rw [← String.toList_ofList (l := escapeFrom true s.toList)]
    exact (congrArg String.toList h).trans String.toList_ofList
  rw [← String.ofList_toList (s := s), escapeFrom_injective hlist, String.ofList_toList]

/-- A name that no reader accepts is written by its escape. -/
theorem encodeVariableName_of_mem {name : String} {c : Char} (hmem : c ∈ name.toList)
    (hc : isIdChar c = false) (hat : c ≠ '@') :
    encodeVariableName name = escapeVariableName name := by
  have hidentifier : ∀ text : List Char, c ∈ text → ¬ IsIdentifier text := by
    rintro _ hmem' ⟨first, rest, rfl, hfirst, hrest⟩
    rw [List.mem_cons] at hmem'
    rcases hmem' with rfl | hmem'
    · simp only [isIdStart, isIdChar, Char.isAlphanum] at hfirst hc
      simp [hfirst] at hc
    · rw [hrest c hmem'] at hc
      cases hc
  have hnot : isVariableIdentifier name = false := by
    unfold isVariableIdentifier
    split
    · rename_i rest heq
      have hrest : c ∈ rest := by
        rw [heq, List.mem_cons] at hmem
        exact hmem.resolve_left hat
      rw [Bool.eq_false_iff, Ne, List.isEmpty_iff, identifierProblems_eq_nil]
      exact hidentifier rest hrest
    · rw [Bool.eq_false_iff, Ne, List.isEmpty_iff, identifierProblems_eq_nil]
      exact hidentifier _ hmem
  rw [encodeVariableName, hnot]
  rfl

end Escape

end KRust.Backend
