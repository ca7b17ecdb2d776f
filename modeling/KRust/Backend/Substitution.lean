import KRust.Backend.SortGraph
import KRust.Lib.Equations

/-!
Simultaneous substitution in backend terms, and the substitution that a list of constraints
gives: the equations that bind one variable each, without cycles, substituted into one another.
-/

set_option linter.unusedSectionVars false

namespace KRust.Backend

open KRust.Kore Lib

namespace Term

section Variables

/-- The variables of a term, with repetition. -/
def vars : Term → List TermVariable
  | .and left right => left.vars ++ right.vars
  | .application _ _ arguments => varsOf arguments
  | .domainValue _ _ => []
  | .var v => [v]
  | .injection _ _ term => term.vars
  | .map _ entries rest => varsOfEntries entries ++ varsOfRest rest
  | .list _ heads rest => varsOf heads ++ varsOfMiddle rest
  | .set _ elements rest => varsOf elements ++ varsOfRest rest
where
  varsOf : List Term → List TermVariable
  | [] => []
  | term :: terms => term.vars ++ varsOf terms
  varsOfEntries : List (Term × Term) → List TermVariable
  | [] => []
  | (key, value) :: entries => key.vars ++ value.vars ++ varsOfEntries entries
  varsOfRest : Option Term → List TermVariable
  | none => []
  | some rest => rest.vars
  varsOfMiddle : Option (Term × List Term) → List TermVariable
  | none => []
  | some (middle, tails) => middle.vars ++ varsOf tails

end Variables

section Substitute

variable [CollectionOrder] (bind : TermVariable → Option Term)

/-- A term is kept as it is where no variable of it is bound. -/
def keepUnlessBound (term changed : Term) : Term :=
  if term.vars.all fun v => (bind v).isNone then term else changed

/-- `substitute`; the items of maps and sets are put in order again. -/
def substitute : Term → Term
  | .and left right =>
    keepUnlessBound bind (.and left right) (.and (substitute left) (substitute right))
  | .application symbol sortArguments arguments =>
    keepUnlessBound bind (.application symbol sortArguments arguments)
      (mkApplication symbol sortArguments (substituteAll arguments))
  | .domainValue sort value => .domainValue sort value
  | .var v => (bind v).getD (.var v)
  | .injection source target term =>
    keepUnlessBound bind (.injection source target term)
      (mkInjection source target (substitute term))
  | .map definition entries rest =>
    keepUnlessBound bind (.map definition entries rest)
      (mapOfItems definition ((substituteEntries entries).mergeSort CollectionOrder.entryLe)
        (substituteRest rest))
  | .list definition heads rest =>
    keepUnlessBound bind (.list definition heads rest)
      (listOfItems definition (substituteAll heads) (substituteMiddle rest))
  | .set definition elements rest =>
    keepUnlessBound bind (.set definition elements rest)
      (setOfItems definition ((substituteAll elements).mergeSort CollectionOrder.elementLe)
        (substituteRest rest))
where
  substituteAll : List Term → List Term
  | [] => []
  | term :: terms => substitute term :: substituteAll terms
  substituteEntries : List (Term × Term) → List (Term × Term)
  | [] => []
  | (key, value) :: entries => (substitute key, substitute value) :: substituteEntries entries
  substituteRest : Option Term → Option Term
  | none => none
  | some rest => some (substitute rest)
  substituteMiddle : Option (Term × List Term) → Option (Term × List Term)
  | none => none
  | some (middle, tails) => some (substitute middle, substituteAll tails)

end Substitute

end Term

section Predicates

inductive Predicate where
  | truth
  | falsity
  | term (t : Term)
  | equals (left right : Term)
  | ceil (t : Term)
  | floor (t : Term)
  | mem (left right : Term)
  | not (p : Predicate)
  | and (ps : List Predicate)
  | or (ps : List Predicate)
  | implies (p q : Predicate)
  | iff (p q : Predicate)
  | existential (v : TermVariable) (p : Predicate)
  | universal (v : TermVariable) (p : Predicate)
  | absent (key rest joined : Term) (binder : Option TermVariable)
  | defined (t : Term)

end Predicates

section Binding

variable [CollectionOrder]

/-- The text of a literal of sort `Bool`. -/
def booleanOf : Term → Option Bool
  | .domainValue sort value =>
    if sort = Term.simpleSort "SortBool" then
      if value = "true".toUTF8.toList then some true
      else if value = "false".toUTF8.toList then some false
      else none
    else none
  | _ => none

/-- `strip_kseq`: the item of a K sequence of one item. -/
def stripKseq (term : Term) : Term :=
  match term with
  | .application symbol _ [first, .application tailSymbol _ []] =>
    if symbol.name = "kseq" ∧ tailSymbol.name = "dotk" then
      match first with
      | .injection _ target inner =>
        if target = Term.simpleSort "SortKItem" then inner
        else if first.sort = Term.simpleSort "SortKItem" then first
        else term
      | _ => if first.sort = Term.simpleSort "SortKItem" then first else term
    else term
  | _ => term

/-- `hooked_equality`: the operands of an equality hook that is expected to hold. -/
def hookedEquality (term : Term) (expected : Bool) : Option (Term × Term) :=
  match term with
  | .application symbol _ arguments =>
    match symbol.attributes.hook with
    | none => none
    | some hook =>
      if ((hook = "INT.eq" ∨ hook = "KEQUAL.eq") ∧ expected = true) ∨
          ((hook = "INT.ne" ∨ hook = "KEQUAL.ne") ∧ expected = false) then
        match arguments with
        | [left, right] =>
          if hook = "KEQUAL.eq" ∨ hook = "KEQUAL.ne" then some (stripKseq left, stripKseq right)
          else some (left, right)
        | _ => none
      else none
  | _ => none

/-- `substitution_equality` -/
def substitutionEquality : Predicate → Option (Term × Term)
  | .equals left right =>
    match (booleanOf right).bind (hookedEquality left) with
    | some operands => some operands
    | none =>
      match (booleanOf left).bind (hookedEquality right) with
      | some operands => some operands
      | none => some (left, right)
  | _ => none

variable (sorts : SortGraph)

/-- `align_binding_value`: a value of a subsort is injected. -/
def alignBindingValue (v : TermVariable) (value : Term) : Option Term :=
  if value.sort = v.sort then some value
  else
    match sorts.checkSubsort value.sort v.sort with
    | .ok true => some (Term.mkInjection value.sort v.sort value)
    | _ => none

/-- One orientation of an equality as a binding. -/
def orient (left right : Term) : Option (TermVariable × Term) :=
  match left with
  | .var v =>
    if v ∈ right.vars then none else (alignBindingValue sorts v right).map (v, ·)
  | _ => none

/-- `substitution_binding` -/
def substitutionBinding (predicate : Predicate) : Option (TermVariable × Term) :=
  match substitutionEquality predicate with
  | none => none
  | some (left, right) => (orient sorts left right).or (orient sorts right left)

end Binding

end KRust.Backend
