import KRust.Backend.Term

/-!
The subsort order of a definition: the closed sorts below each node of the order, and the heads
below each head for sorts with variables.
-/

namespace KRust.Backend

open KRust.Kore

inductive SortError where
  | foundSortVariable (name : String)
  | foundUnknownSort (sort : KoreSort)
  deriving DecidableEq

/-- The closure of the subsort axioms. -/
structure SortGraph where
  /-- Every node with the nodes below it, itself included. -/
  below : List (KoreSort × List KoreSort)
  constructors : List String
  headsBelow : List (String × List String)

/-- `first_sort_variable` -/
def firstSortVariable : KoreSort → Option String
  | .var name => some name
  | .application _ arguments => firstOf arguments
where
  firstOf : List KoreSort → Option String
  | [] => none
  | s :: sorts => (firstSortVariable s).or (firstOf sorts)

namespace SortGraph

def declares (sorts : SortGraph) (head : String) : Bool :=
  sorts.constructors.contains head || (sorts.headsBelow.lookup head).isSome

/-- `check_subsort` -/
def checkSubsort (sorts : SortGraph) (sub sup : KoreSort) : Except SortError Bool :=
  if sub = sup then .ok true
  else
    match sub, sup with
    | .var name, _ => .error (.foundSortVariable name)
    | _, .var name => .error (.foundSortVariable name)
    | .application subHead _, .application supHead _ =>
      let row := sorts.below.lookup sup
      if row.any (·.contains sub) then .ok true
      else if row.isSome && (firstSortVariable sub).isNone then .ok false
      else if !sorts.declares supHead then .error (.foundUnknownSort sup)
      else
        match (firstSortVariable sub).or (firstSortVariable sup) with
        | none => .ok false
        | some name =>
          if subHead ≠ supHead &&
              !((sorts.headsBelow.lookup supHead).any (·.contains subHead)) then .ok false
          else .error (.foundSortVariable name)

end SortGraph

end KRust.Backend
