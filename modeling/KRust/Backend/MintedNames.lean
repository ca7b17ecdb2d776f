import KRust.Backend.Fresh

/-!
Names of the backend read back: the name a KORE spelling is the escape of, and the provenance,
base and marks of a minted name.
-/

set_option linter.unusedSectionVars false

namespace KRust.Backend

open KRust.Kore

section Definitions

structure VariableNameError where
  name : String
  deriving DecidableEq

/-- The character that a hyphen and a letter stand for. -/
def unescape : Char → Option Char
  | '-' => some '-'
  | 'h' => some '#'
  | 'b' => some '!'
  | 'a' => some '@'
  | _ => none

/-- The loop of `decode_variable_name`. -/
def decodeFrom : List Char → Option (List Char)
  | [] => some []
  | c :: wire =>
    if c = '-' then
      match wire with
      | [] => none
      | letter :: wire => do
        let c ← unescape letter
        return c :: (← decodeFrom wire)
    else (decodeFrom wire).map (c :: ·)

def isBackendCharacter (c : Char) : Bool :=
  c.isAlphanum || c = '\'' || c = '#' || c = '!' || c = '-'

/-- The part of a name after the initial `@` of a set variable. -/
def nameBody : List Char → List Char
  | '@' :: body => body
  | name => name

def decodeVariableName (wire : String) : Except VariableNameError String :=
  match decodeFrom wire.toList with
  | none => .error ⟨wire⟩
  | some decoded =>
    if (nameBody decoded).head?.any isIdStart && (nameBody decoded).all isBackendCharacter &&
        decide (escapeVariableName (String.ofList decoded) = wire) then
      .ok (String.ofList decoded)
    else .error ⟨wire⟩

def VariableProvenance.all : List VariableProvenance := [.rule, .existential, .equation]

def FreshMarker.all : List FreshMarker :=
  [.claim, .exists, .apart, .binder, .memo, .unify, .rewrite]

/-- `str::strip_prefix` -/
def stripStart : List Char → List Char → Option (List Char)
  | [], text => some text
  | _ :: _, [] => none
  | c :: start, d :: text => if c = d then stripStart start text else none

/-- `split_marker`: the first accepted marker a name starts with, after the `@` of a set
variable. -/
def splitMarker (name : List Char) (accepted : List VariableProvenance) :
    Option VariableProvenance × List Char :=
  (accepted.findSome? fun provenance =>
    (stripStart provenance.marker.toList (nameBody name)).map fun rest =>
      (some provenance, if name.head? = some '@' then '@' :: rest else rest)).getD (none, name)

/-- `str::rsplit_once` -/
def rsplitOnce (mark : Char) : List Char → Option (List Char × List Char)
  | [] => none
  | c :: text =>
    match rsplitOnce mark text with
    | some (before, after) => some (c :: before, after)
    | none => if c = mark then some ([], text) else none

/-- `split_fresh_marker`: a name without its last fresh suffix, and the marker of that. -/
def splitFreshMarker (name : List Char) : Option (List Char × FreshMarker) := do
  let (rest, suffix) ← rsplitOnce '!' name
  FreshMarker.all.findSome? fun marker => do
    let counter ← stripStart marker.asStr.toList suffix
    if !counter.isEmpty && counter.all Char.isDigit then some (rest, marker) else none

/-- A name the backend made from another one, read back into its parts. -/
structure MintedName where
  provenance : Option VariableProvenance
  base : String
  fresh : List FreshMarker
  deriving DecidableEq

theorem rsplitOnce_length {mark : Char} {text before after : List Char}
    (h : rsplitOnce mark text = some (before, after)) : before.length < text.length := by
  induction text generalizing before with
  | nil => cases h
  | cons c text ih =>
    rw [rsplitOnce] at h
    cases hrest : rsplitOnce mark text with
    | some split =>
      rw [hrest] at h
      cases h
      have := ih hrest
      simp only [List.length_cons]
      omega
    | none =>
      simp only [hrest] at h
      split at h
      · cases h
        simp
      · cases h

theorem splitFreshMarker_length {name rest : List Char} {marker : FreshMarker}
    (h : splitFreshMarker name = some (rest, marker)) : rest.length < name.length := by
  unfold splitFreshMarker at h
  obtain ⟨⟨before, suffix⟩, hsplit, hmarker⟩ := Option.bind_eq_some_iff.mp h
  obtain ⟨found, -, hfound⟩ := List.exists_of_findSome?_eq_some hmarker
  obtain ⟨counter, -, hcounter⟩ := Option.bind_eq_some_iff.mp hfound
  split at hcounter
  · cases hcounter
    exact rsplitOnce_length hsplit
  · cases hcounter

/-- The loop of `parse`: the marks of a name, the last one first, and what is left of it. -/
def splitFresh (name : List Char) : List FreshMarker × List Char :=
  match _h : splitFreshMarker name with
  | some (rest, marker) => (marker :: (splitFresh rest).1, (splitFresh rest).2)
  | none => ([], name)
termination_by name.length
decreasing_by all_goals exact splitFreshMarker_length _h

/-- `MintedName::parse` -/
def MintedName.parse (name : String) : Option MintedName :=
  if name.toList.any fun c => c = '#' || c = '!' then
    let (provenance, unmarked) := splitMarker name.toList VariableProvenance.all
    let (fresh, base) := splitFresh unmarked
    some ⟨provenance, String.ofList base, fresh.reverse⟩
  else none

/-- `with_provenance`: the marker goes after the `@` of a set variable. -/
def withProvenance (name : String) (provenance : VariableProvenance) : String :=
  match name.toList with
  | '@' :: body => "@" ++ provenance.marker ++ String.ofList body
  | _ => provenance.marker ++ name

end Definitions

end KRust.Backend
