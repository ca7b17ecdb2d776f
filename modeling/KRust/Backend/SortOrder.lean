import KRust.Backend.Apart
import KRust.Backend.DenseBelow
import Mathlib.Logic.Relation

/-!
The questions asked of the subsort order: how two sorts relate on the instances of their sort
variables, whether they overlap, their greatest common subsorts, and what this says of an equality
of two injections.
-/

namespace KRust.Backend

open KRust.Kore KRust.Lib

/-- A sort in which no sort variable occurs. -/
abbrev ClosedSort : Type := { sort : KoreSort // firstSortVariable sort = none }

/-- The name at the root. -/
def sortHead : KoreSort → String
  | .var name => name
  | .application name _ => name

inductive SortOrder where
  | below
  | above
  /-- Neither is below the other, on any instance. -/
  | incomparable
  | undecided (error : SortError)
  deriving DecidableEq

/-- `SortGraph` with the rows of its closure. -/
structure IndexedSortGraph extends SortGraph where
  dense : DenseBelow

namespace IndexedSortGraph

/-- `heads_below.entry(head).or_default()`, and the heads added to it. -/
def addHeads (head : String) (heads : List String) :
    List (String × List String) → List (String × List String)
  | [] => [(head, heads)]
  | (other, others) :: rest =>
    if other = head then (other, others ++ heads) :: rest
    else (other, others) :: addHeads head heads rest

/-- `from_closure` -/
def fromClosure (ids : SortIds) (constructors : List String)
    (closure : List (ClosedSort × List ClosedSort)) : IndexedSortGraph :=
  let below := closure.map fun (sup, subs) => (sup.val, subs.map Subtype.val)
  { below, constructors
    headsBelow := below.foldl
      (fun headsBelow (sup, subs) =>
        addHeads (sortHead sup) (sortHead sup :: subs.map sortHead) headsBelow)
      (constructors.map fun name => (name, [name]))
    dense := .of ids below }

variable (ids : SortIds) (sorts : IndexedSortGraph)

/-- `check_subsort`, on the rows. -/
def checkSubsort (sub sup : KoreSort) : Except SortError Bool :=
  if sub = sup then .ok true
  else
    match sub, sup with
    | .var name, _ => .error (.foundSortVariable name)
    | _, .var name => .error (.foundSortVariable name)
    | .application subHead _, .application supHead _ =>
      let row := sorts.dense.rowOf ids sup
      if row.any fun row => sorts.dense.holds ids row sub then .ok true
      else if row.isSome && (firstSortVariable sub).isNone then .ok false
      else if !sorts.declares supHead then .error (.foundUnknownSort sup)
      else
        match (firstSortVariable sub).or (firstSortVariable sup) with
        | none => .ok false
        | some name =>
          if subHead ≠ supHead &&
              !((sorts.headsBelow.lookup supHead).any (·.contains subHead)) then .ok false
          else .error (.foundSortVariable name)

def order (left right : KoreSort) : SortOrder :=
  match sorts.checkSubsort ids left right, sorts.checkSubsort ids right left with
  | .ok true, _ => .below
  | _, .ok true => .above
  | .ok false, .ok false => .incomparable
  | .error error, _ => .undecided error
  | _, .error error => .undecided error

def knownOverlap (left right : KoreSort) : Option Bool :=
  match sorts.dense.rowOf ids left, sorts.dense.rowOf ids right with
  | some a, some b => some (BitRows.meets a b)
  | leftRow, rightRow =>
    match left, right with
    | .application leftHead _, .application rightHead _ =>
      if (firstSortVariable left).isSome || (firstSortVariable right).isSome ||
          !sorts.declares leftHead || !sorts.declares rightHead then none
      else
        some <| match leftRow, rightRow with
          | some a, some b => BitRows.meets a b
          | some a, none => sorts.dense.holds ids a right
          | none, some b => sorts.dense.holds ids b left
          | none, none => left = right
    | _, _ => none

/-- The sorts below a sort: itself only, where it is no node. -/
def down (sort : KoreSort) : List KoreSort := (sorts.below.lookup sort).getD [sort]

def maximalCommonSubsorts (left right : KoreSort) : Option (List KoreSort) := do
  let _ ← sorts.knownOverlap ids left right
  let common := (sorts.down left).filter fun sort => sort ∈ sorts.down right
  return common.filter fun candidate => !common.any fun other =>
    other ≠ candidate && decide (sorts.checkSubsort ids candidate other = .ok true)

end IndexedSortGraph

inductive InjectionEquality where
  | direct (left right : Term)
  | split (left right : Term)
  | distinct
  | unknown

/-- `has_constructor_like_top` -/
def Term.hasConstructorLikeTop (term : Term) : Bool :=
  term.attributes.constructorLike ||
    match term with
    | .application symbol _ _ => symbol.attributes.headRole = .freeConstructor
    | .injection .. | .map .. | .list .. | .set .. => true
    | _ => false

/-- `match_injection_equality` -/
def matchInjectionEquality (ids : SortIds) (sorts : Option IndexedSortGraph) :
    Term → Term → Option InjectionEquality
  | .injection leftSource leftTarget left, .injection rightSource rightTarget right => some <|
    match sortRelation leftTarget rightTarget with
    | .distinct => .distinct
    | .unsettled => .unknown
    | .equal =>
      if leftSource = rightSource then .direct left right
      else
        match sorts with
        | none => .unknown
        | some sorts =>
          match sorts.order ids leftSource rightSource with
          | .below => .split (Term.mkInjection leftSource rightSource left) right
          | .above => .split left (Term.mkInjection rightSource leftSource right)
          | .incomparable =>
            if left.hasConstructorLikeTop || right.hasConstructorLikeTop ||
                sorts.knownOverlap ids leftSource rightSource = some false then .distinct
            else .unknown
          | .undecided _ => .unknown
  | _, _ => none

end KRust.Backend
