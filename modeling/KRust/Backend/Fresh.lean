import KRust.Backend.Names
import KRust.Kore.Ast
import Mathlib.Data.List.Nodup

/-!
The names a request mints: one counter that only grows, candidates spelled like a
variable of the request skipped, and the variables that are renamed to minted names.
-/

set_option linter.unusedSectionVars false

namespace KRust.Backend

open KRust.Kore

section Definitions

variable {S A : Type}

/-- A backend variable, over any representation of sorts. -/
structure Variable (S : Type) where
  kind : VariableKind
  sort : S
  name : String

/-- The printed spellings of the variables of a request. -/
structure RequestNames where
  spellings : List String
  deriving DecidableEq

/-- The spellings of the given variables. -/
def RequestNames.of (variablesOf : List (Variable S)) : RequestNames :=
  ⟨variablesOf.map fun v => encodeVariableName v.name⟩

/-- Whether some variable of the request prints as `name` prints. -/
def RequestNames.spells (request : RequestNames) (name : String) : Bool :=
  !request.spellings.isEmpty && request.spellings.contains (encodeVariableName name)

/-- The names a mint must not take; taking a name says whether it was free. -/
class NamesToAvoid (A : Type) where
  take : A → String → Bool × A

/-- The names of a set, `BTreeSet<Name>`. -/
instance : NamesToAvoid (List String) where
  take names name := if name ∈ names then (false, names) else (true, name :: names)

structure FreshCounter where
  next : Nat
  request : RequestNames
  deriving DecidableEq

def FreshCounter.forRequestNames (request : RequestNames) : FreshCounter := ⟨0, request⟩

variable [NamesToAvoid A]

/-- `mint`: the first name from the counter that is neither held nor spelled like a
variable of the request; `none` is its stop when the counter is used up. -/
def FreshCounter.mint (counter : FreshCounter) (base : String) (marker : FreshMarker)
    (avoid : A) : Option (String × FreshCounter × A) :=
  let name := withFreshMarker base marker counter.next
  if counter.next + 1 < 2 ^ 64 then
    let after : FreshCounter := { counter with next := counter.next + 1 }
    if counter.request.spells name then after.mint base marker avoid
    else
      match NamesToAvoid.take avoid name with
      | (true, avoid) => some (name, after, avoid)
      | (false, avoid) => after.mint base marker avoid
  else none
termination_by 2 ^ 64 - counter.next

/-- `fresh_variable`: the variable under a name minted from its name up to the first
`!`. -/
def freshVariable (v : Variable S) (avoid : A) (counter : FreshCounter) :
    Option (Variable S × FreshCounter × A) := do
  let base := String.ofList (v.name.toList.takeWhile (· ≠ '!'))
  let (name, counter, avoid) ← counter.mint base .rewrite avoid
  return ({ v with name := name }, counter, avoid)

/-- One use of a request's counter: a name from a base, or a variable made fresh; each
stays apart from names of its own. -/
inductive Mint (S A : Type) where
  | ofBase (base : String) (marker : FreshMarker) (avoid : A)
  | ofVariable (v : Variable S) (avoid : A)

/-- The name a use of the counter mints. -/
def Mint.run (counter : FreshCounter) : Mint S A → Option (String × FreshCounter)
  | .ofBase base marker avoid => do
    let (name, counter, _) ← counter.mint base marker avoid
    return (name, counter)
  | .ofVariable v avoid => do
    let (v, counter, _) ← freshVariable v avoid counter
    return (v.name, counter)

/-- The names a request mints one after the other. -/
def mintAll (counter : FreshCounter) : List (Mint S A) → Option (List String × FreshCounter)
  | [] => some ([], counter)
  | mint :: mints => do
    let (name, counter) ← mint.run counter
    let (names, counter) ← mintAll counter mints
    return (name :: names, counter)

end Definitions

section Spelling

theorem bang_not_mem_suffix (marker : FreshMarker) (counter : Nat) :
    '!' ∉ marker.asStr.toList ++ Nat.toDigits 10 counter := by
  rw [List.mem_append]
  rintro (h | h)
  · cases marker <;> exact absurd h (by decide)
  · exact absurd (Nat.isDigit_of_mem_toDigits (by decide) (by decide) h) (by decide)

theorem toList_withFreshMarker (base : String) (marker : FreshMarker) (counter : Nat) :
    (withFreshMarker base marker counter).toList
      = base.toList ++ '!' :: (marker.asStr.toList ++ Nat.toDigits 10 counter) := by
  simp [withFreshMarker, Nat.toList_repr]

/-- The counter of a minted name is read off its spelling, whatever its base. -/
theorem withFreshMarker_counter {base base' : String} {marker marker' : FreshMarker} {i j : Nat}
    (h : withFreshMarker base marker i = withFreshMarker base' marker' j) : i = j := by
  have hsuffix : marker.asStr.toList ++ Nat.toDigits 10 i
      = marker'.asStr.toList ++ Nat.toDigits 10 j := by
    -- what follows the last `!` holds no further one
    have hlist := congrArg (fun name => name.toList.reverse) h
    simp only [toList_withFreshMarker] at hlist
    rw [List.reverse_append, List.reverse_append, List.reverse_cons, List.reverse_cons,
      List.append_assoc, List.append_assoc, List.singleton_append, List.singleton_append] at hlist
    have hleft := bang_not_mem_suffix marker i
    have hright := bang_not_mem_suffix marker' j
    rw [← List.mem_reverse] at hleft hright
    exact List.reverse_injective (append_mark_injective hleft hright hlist).1
  have hletters : ∀ m : FreshMarker, m.asStr.toList.filter Char.isDigit = [] := by
    intro m
    cases m <;> decide
  have hdigits : ∀ n, (Nat.toDigits 10 n).filter Char.isDigit = Nat.toDigits 10 n := by
    intro n
    rw [List.filter_eq_self]
    exact fun c hc => Nat.isDigit_of_mem_toDigits (by decide) (by decide) hc
  have hfilter := congrArg (List.filter Char.isDigit) hsuffix
  rw [List.filter_append, List.filter_append, hletters, hletters, hdigits, hdigits,
    List.nil_append, List.nil_append] at hfilter
  rw [← @Nat.ofDigitChars_ten_toDigits i, hfilter, Nat.ofDigitChars_ten_toDigits]

theorem encode_withFreshMarker (base : String) (marker : FreshMarker) (counter : Nat) :
    encodeVariableName (withFreshMarker base marker counter)
      = escapeVariableName (withFreshMarker base marker counter) := by
  have hmem : '!' ∈ (withFreshMarker base marker counter).toList := by
    rw [toList_withFreshMarker]
    simp
  exact encodeVariableName_of_mem hmem (by decide) (by decide)

end Spelling

section Runs

variable {S A : Type} [NamesToAvoid A]

/-- A name minted between two states of a counter. -/
def MintedBetween (before after : FreshCounter) (name : String) : Prop :=
  ∃ base marker i, name = withFreshMarker base marker i ∧ before.next ≤ i ∧ i < after.next

/-- What one mint does: its name comes from an index of the counter that is used up
then, and the request spells no variable like it. -/
theorem mint_spec {counter after : FreshCounter} {base name : String} {marker : FreshMarker}
    {avoid avoid' : A} (h : counter.mint base marker avoid = some (name, after, avoid')) :
    MintedBetween counter after name ∧ after.request = counter.request ∧
      counter.request.spells name = false := by
  fun_induction FreshCounter.mint counter base marker avoid with
  | case1 counter avoid candidate hlt next hspells ih =>
    obtain ⟨⟨base, marker, i, hname, hlow, hhigh⟩, hrequest, hfree⟩ := ih h
    exact ⟨⟨base, marker, i, hname, Nat.le_of_succ_le hlow, hhigh⟩, hrequest, hfree⟩
  | case2 counter avoid candidate hlt next hspells avoid'' htake =>
    simp only [Option.some.injEq, Prod.mk.injEq] at h
    obtain ⟨rfl, rfl, -⟩ := h
    exact ⟨⟨base, marker, counter.next, rfl, Nat.le_refl _, Nat.lt_succ_self _⟩, rfl,
      by simpa using hspells⟩
  | case3 counter avoid candidate hlt next hspells avoid'' htake ih =>
    obtain ⟨⟨base, marker, i, hname, hlow, hhigh⟩, hrequest, hfree⟩ := ih h
    exact ⟨⟨base, marker, i, hname, Nat.le_of_succ_le hlow, hhigh⟩, hrequest, hfree⟩
  | case4 => cases h

theorem run_spec {counter after : FreshCounter} {name : String} {mint : Mint S A}
    (h : mint.run counter = some (name, after)) :
    MintedBetween counter after name ∧ after.request = counter.request ∧
      counter.request.spells name = false := by
  cases mint with
  | ofBase base marker avoid =>
    simp only [Mint.run, Option.bind_eq_bind, Option.bind_eq_some_iff, Prod.exists] at h
    obtain ⟨name', after', avoid', hmint, hresult⟩ := h
    cases hresult
    exact mint_spec hmint
  | ofVariable v avoid =>
    simp only [Mint.run, freshVariable, Option.bind_eq_bind, Option.bind_eq_some_iff,
      Prod.exists] at h
    obtain ⟨v', after', avoid', ⟨name', after'', avoid'', hmint, hfresh⟩, hresult⟩ := h
    cases hfresh
    cases hresult
    exact mint_spec hmint

/-- Over a run every name has its own index of the counter. -/
theorem mintAll_spec {counter after : FreshCounter} {mints : List (Mint S A)}
    {names : List String} (h : mintAll counter mints = some (names, after)) :
    counter.next ≤ after.next ∧
    (∀ name ∈ names, MintedBetween counter after name ∧ counter.request.spells name = false) ∧
    names.Pairwise fun name later => ∃ base marker i base' marker' j,
      name = withFreshMarker base marker i ∧ later = withFreshMarker base' marker' j ∧ i < j := by
  induction mints generalizing counter names with
  | nil =>
    cases h
    exact ⟨Nat.le_refl _, by simp, .nil⟩
  | cons mint mints ih =>
    simp only [mintAll, Option.bind_eq_bind, Option.bind_eq_some_iff, Prod.exists] at h
    obtain ⟨name, next, hrun, names', last, hrest, hresult⟩ := h
    cases hresult
    obtain ⟨⟨base, marker, i, hname, hlow, hhigh⟩, hrequest, hfree⟩ := run_spec hrun
    obtain ⟨hgrow, hnames, hpairs⟩ := ih hrest
    rw [hrequest] at hnames
    refine ⟨by omega, ?_, ?_⟩
    · rw [List.forall_mem_cons]
      refine ⟨⟨⟨base, marker, i, hname, hlow, by omega⟩, hfree⟩, ?_⟩
      intro later hlater
      obtain ⟨⟨base', marker', j, hname', hlow', hhigh'⟩, hfree'⟩ := hnames later hlater
      exact ⟨⟨base', marker', j, hname', by omega, hhigh'⟩, hfree'⟩
    · rw [List.pairwise_cons]
      refine ⟨?_, hpairs⟩
      intro later hlater
      obtain ⟨⟨base', marker', j, hname', hlow', hhigh'⟩, -⟩ := hnames later hlater
      exact ⟨base, marker, i, base', marker', j, hname, hname', by omega⟩

theorem not_spelled {received : List (Variable S)} {name : String}
    (h : (RequestNames.of received).spells name = false) {v : Variable S} (hv : v ∈ received) :
    encodeVariableName name ≠ encodeVariableName v.name := by
  intro heq
  have hmem : encodeVariableName name ∈ (RequestNames.of received).spellings := by
    rw [heq]
    exact List.mem_map_of_mem hv
  have hne : (RequestNames.of received).spellings ≠ [] := List.ne_nil_of_mem hmem
  rw [RequestNames.spells, List.contains_iff_mem.mpr hmem] at h
  simp [hne] at h

/-- Names minted for a request never clash: in every run of its counter, from any bases,
the minted names and their spellings are pairwise distinct, and none is a name of the
request or is written like one. -/
theorem minted_names_never_clash (received : List (Variable S)) (mints : List (Mint S A))
    (names : List String) (after : FreshCounter)
    (h : mintAll (.forRequestNames (.of received)) mints = some (names, after)) :
    names.Nodup ∧ (names.map encodeVariableName).Nodup ∧
    ∀ name ∈ names, ∀ v ∈ received,
      name ≠ v.name ∧ encodeVariableName name ≠ encodeVariableName v.name := by
  obtain ⟨-, hnames, hpairs⟩ := mintAll_spec h
  have hspellings : (names.map encodeVariableName).Nodup := by
    rw [List.Nodup, List.pairwise_map]
    apply hpairs.imp
    rintro name later ⟨base, marker, i, base', marker', j, rfl, rfl, hlt⟩ heq
    rw [encode_withFreshMarker, encode_withFreshMarker] at heq
    have := withFreshMarker_counter (escapeVariableName_injective heq)
    omega
  refine ⟨List.Nodup.of_map _ hspellings, hspellings, ?_⟩
  intro name hname v hv
  have hdistinct := not_spelled (hnames name hname).2 hv
  exact ⟨fun heq => hdistinct (by rw [heq]), hdistinct⟩

/-- Two mints next to a request variable spelled like the first candidate: a name with a
provenance and a freshness mark of its own, and a base that repeats a mint. -/
theorem minted_names_never_clash_pair :
    ∃ names after, mintAll (.forRequestNames (.of [(⟨.element, (), "X-b0"⟩ : Variable Unit)]))
      [.ofVariable ⟨.element, (), "X!7"⟩ ([] : List String), .ofBase "X!1" .apart []]
        = some (names, after) ∧ names = ["X!1", "X!1!apart2"] ∧ names.Nodup := by
  have hrun : mintAll (.forRequestNames (.of [(⟨.element, (), "X-b0"⟩ : Variable Unit)]))
      [.ofVariable ⟨.element, (), "X!7"⟩ ([] : List String), .ofBase "X!1" .apart []]
        = some (["X!1", "X!1!apart2"], ⟨3, ⟨["X-b0"]⟩⟩) := by
    decide +kernel
  exact ⟨_, _, hrun, rfl, (minted_names_never_clash [⟨.element, (), "X-b0"⟩] _ _ _ hrun).1⟩

end Runs

end KRust.Backend
