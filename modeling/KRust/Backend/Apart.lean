import KRust.Backend.Attributes
import KRust.Lib.Search

/-!
Apartness of terms: a search over the pairs of arguments of applications of one free symbol, by
recursion for some levels and then with the pairs above on a work list.
-/

set_option linter.unusedSectionVars false

namespace KRust.Backend

open KRust.Kore
open KRust.Lib.Search (anyFound)

section Sorts

/-- Whether two sorts are one sort, on the instances of their sort variables. -/
inductive SortRelation where
  | equal
  | distinct
  /-- A sort variable occurs where they differ. -/
  | unsettled
  deriving DecidableEq

mutual

/-- `sort_relation`; sorts that are one sort are equal at every position. -/
def sortRelation : KoreSort → KoreSort → SortRelation
  | .application leftHead leftArguments, .application rightHead rightArguments =>
    if leftHead = rightHead then sortListRelation leftArguments rightArguments else .distinct
  | .var left, .var right => if left = right then .equal else .unsettled
  | .var _, .application _ _ | .application _ _, .var _ => .unsettled

/-- `sort_list_relation`: lists of different lengths are distinct, else the first distinct
position decides. -/
def sortListRelation : List KoreSort → List KoreSort → SortRelation
  | [], [] => .equal
  | left :: lefts, right :: rights =>
    match sortRelation left right, sortListRelation lefts rights with
    | .distinct, _ | _, .distinct => .distinct
    | .unsettled, _ | _, .unsettled => .unsettled
    | .equal, .equal => .equal
  | _, _ => .distinct

end

end Sorts

section Handles

/-- A term as it is stored, with the marks of the applications that the search enters. -/
inductive Handle where
  | and (left right : Term)
  /-- `claimed` is the stored `value_claimed`: the application is a certified normal form. -/
  | application (symbol : TermSymbol) (sortArguments : List KoreSort) (arguments : List Handle)
    (claimed : Bool)
  | domainValue (sort : KoreSort) (value : KoreString)
  | var (v : TermVariable)
  | injection (source target : KoreSort) (term : Handle)
  | map (definition : MapDefinition) (entries : List (Term × Term)) (rest : Option Term)
  | list (definition : ListDefinition) (heads : List Term) (rest : Option (Term × List Term))
  | set (definition : SetDefinition) (elements : List Term) (rest : Option Term)

namespace Handle

/-- The term without its marks, by which terms are compared. -/
def term : Handle → Term
  | .and left right => .and left right
  | .application symbol sortArguments arguments _ =>
    .application symbol sortArguments (terms arguments)
  | .domainValue sort value => .domainValue sort value
  | .var v => .var v
  | .injection source target handle => .injection source target handle.term
  | .map d entries rest => .map d entries rest
  | .list d heads rest => .list d heads rest
  | .set d elements rest => .set d elements rest
where
  terms : List Handle → List Term
  | [] => []
  | handle :: handles => handle.term :: terms handles

@[simp]
theorem terms_eq (handles : List Handle) : term.terms handles = handles.map term := by
  induction handles with
  | nil => rfl
  | cons handle handles ih => rw [term.terms, ih, List.map_cons]

/-- The nodes of a stored term that the search can enter. -/
def size : Handle → Nat
  | .application _ _ arguments _ => sizes arguments + 1
  | .injection _ _ handle => handle.size + 1
  | _ => 1
where
  sizes : List Handle → Nat
  | [] => 0
  | handle :: handles => handle.size + sizes handles

@[simp]
theorem sizes_eq (handles : List Handle) : size.sizes handles = (handles.map size).sum := by
  induction handles with
  | nil => rfl
  | cons handle handles ih => rw [size.sizes, ih, List.map_cons, List.sum_cons]

theorem size_pos (handle : Handle) : 0 < handle.size := by
  cases handle <;> simp [size]

/-- Stored terms by their kinds, with the arguments of an application wherever they stand. -/
@[induction_eliminator]
theorem induction {motive : Handle → Prop} (and : ∀ left right, motive (.and left right))
    (application : ∀ symbol sortArguments arguments claimed, (∀ a ∈ arguments, motive a) →
      motive (.application symbol sortArguments arguments claimed))
    (domainValue : ∀ sort value, motive (.domainValue sort value))
    (var : ∀ v, motive (.var v))
    (injection : ∀ source target term, motive term → motive (.injection source target term))
    (map : ∀ d entries rest, motive (.map d entries rest))
    (list : ∀ d heads rest, motive (.list d heads rest))
    (set : ∀ d elements rest, motive (.set d elements rest)) (t : Handle) : motive t := by
  refine Handle.rec (motive_1 := motive) (motive_2 := fun handles => ∀ a ∈ handles, motive a)
    and application domainValue var injection map list set ?_ ?_ t
  · simp
  · exact fun _ _ hhead htail => List.forall_mem_cons.mpr ⟨hhead, htail⟩

end Handle

end Handles

section Roots

inductive CollectionKind where
  | map
  | list
  | set
  deriving DecidableEq

/-- The kind of a root that is the root of every value of its term. -/
inductive FixedRoot where
  | domainValue
  | injection
  | collection (kind : CollectionKind)
  | freeConstructor
  | equationHead
  deriving DecidableEq

/-- `apart_root`: of the equation heads, the certified normal forms have fixed roots. -/
def apartRoot : Handle → Option FixedRoot
  | .domainValue _ _ => some .domainValue
  | .injection _ _ _ => some .injection
  | .map _ _ _ => some (.collection .map)
  | .list _ _ _ => some (.collection .list)
  | .set _ _ _ => some (.collection .set)
  | .application symbol _ _ claimed =>
    match symbol.attributes.headRole with
    | .freeConstructor => some .freeConstructor
    | .equationHead => if claimed then some .equationHead else none
    | .function _ _ _ | .residual | .uninterpreted => none
  | .and _ _ | .var _ => none

/-- Two fixed roots compared by root alone. -/
inductive RootComparison where
  | distinct
  | openSortArguments
  /-- One symbol with equal sort arguments, with the pairs of arguments. -/
  | sameApplication (pairs : List (Handle × Handle))
  | arityMismatch
  | domainValues
  | injections
  | collections (kind : CollectionKind)

/-- `compare_applications` -/
def compareApplications : Handle → Handle → RootComparison
  | .application leftSymbol leftSorts leftArguments _,
      .application rightSymbol rightSorts rightArguments _ =>
    if leftSymbol.name ≠ rightSymbol.name then .distinct
    else
      match sortListRelation leftSorts rightSorts with
      | .distinct => .distinct
      | .unsettled => .openSortArguments
      | .equal =>
        if leftArguments.length ≠ rightArguments.length then .arityMismatch
        else .sameApplication (leftArguments.zip rightArguments)
  | _, _ => .distinct

/-- `compare_roots` -/
def compareRoots (left : Handle) (leftRoot : FixedRoot) (right : Handle) (rightRoot : FixedRoot) :
    RootComparison :=
  match leftRoot, rightRoot with
  | .domainValue, .domainValue => .domainValues
  | .injection, .injection => .injections
  | .collection kind, .collection other =>
    if other = kind then .collections kind else .distinct
  | .freeConstructor, .freeConstructor | .freeConstructor, .equationHead
  | .equationHead, .freeConstructor | .equationHead, .equationHead =>
    compareApplications left right
  | _, _ => .distinct

/-- `distinct_roots_decide` -/
def distinctRootsDecide (left right : FixedRoot) : Bool :=
  match application left, application right with
  | some left, some right => left || right
  | _, _ => false
where
  application : FixedRoot → Option Bool
  | .freeConstructor | .equationHead => some true
  | .injection => some false
  | .domainValue | .collection _ => none

/-- `Apart::of_domain_values` -/
def domainValuesApart : Handle → Handle → Bool
  | .domainValue leftSort leftValue, .domainValue rightSort rightValue =>
    leftValue ≠ rightValue || sortRelation leftSort rightSort = .distinct
  | _, _ => false

end Roots

section Search

/-- How two injections with different sorts compare. -/
inductive InjectionComparison where
  /-- No value of one injection is a value of the other. -/
  | distinct
  /-- The injections are equal exactly when these two terms are. -/
  | compare (left right : Handle)
  | undecided

/-- What one pair of the search decides at its roots. The witness of an apart pair holds nothing. -/
inductive ApartStep where
  | apart
  | undecided
  | arguments (pairs : List (Handle × Handle))
  | operands (left right : Handle)
  | comparedOperands (left right : Handle)

variable (injections : Handle → Handle → InjectionComparison)

/-- The case of two injections of `apart_step`. -/
def injectionStep : Handle → Handle → ApartStep
  | .injection leftSource leftTarget leftOperand,
      .injection rightSource rightTarget rightOperand =>
    if leftSource = rightSource ∧ leftTarget = rightTarget then
      .operands leftOperand rightOperand
    else
      match injections (.injection leftSource leftTarget leftOperand)
          (.injection rightSource rightTarget rightOperand) with
      | .distinct => .apart
      | .compare left right => .comparedOperands left right
      | .undecided => .undecided
  | _, _ => .undecided

/-- `apart_step` -/
def apartStep (left right : Handle) : ApartStep :=
  if left.term = right.term then .undecided
  else
    match apartRoot left, apartRoot right with
    | some leftRoot, some rightRoot =>
      match compareRoots left leftRoot right rightRoot with
      | .distinct => if distinctRootsDecide leftRoot rightRoot then .apart else .undecided
      | .sameApplication pairs => .arguments pairs
      | .domainValues => if domainValuesApart left right then .apart else .undecided
      | .injections => injectionStep injections left right
      | .arityMismatch | .openSortArguments | .collections _ => .undecided
    | _, _ => .undecided

/-- An application pair above the pair that the work list tries, `tried` of whose argument pairs
were undecided. -/
structure ApartFrame where
  left : Handle
  right : Handle
  tried : Nat

/-- The argument pairs of a frame; none where it is no pair of applications. -/
def ApartFrame.arguments (frame : ApartFrame) : Option (List (Handle × Handle)) :=
  match frame.left, frame.right with
  | .application _ _ left _, .application _ _ right _ => some (left.zip right)
  | _, _ => none

/-- `same_application`; none where the pair is not one of a free symbol. -/
def sameApplication (left right : Handle) : Option (List (Handle × Handle)) :=
  match apartRoot left, apartRoot right with
  | some leftRoot, some rightRoot =>
    match compareRoots left leftRoot right rightRoot with
    | .sameApplication pairs => some pairs
    | _ => none
  | _, _ => none

/-- `lift_apart`: the witness of the innermost pair through the pairs above it. -/
def liftApart : List ApartFrame → Option Bool
  | [] => some true
  | frame :: frames => do
    let _ ← sameApplication frame.left frame.right
    liftApart frames

/-- The next argument pair of the innermost frame that has one left; the frames without one are
taken off. -/
def nextPair : List ApartFrame → Option (Option ((Handle × Handle) × List ApartFrame))
  | [] => some none
  | frame :: frames => do
    let pairs ← frame.arguments
    match pairs[frame.tried]? with
    | some pair => return some (pair, { frame with tried := frame.tried + 1 } :: frames)
    | none => nextPair frames

/-- The next pair of the frames is tried; the search ends where none is left. -/
def resume (tryPair : List ApartFrame → Handle → Handle → Option Bool)
    (frames : List ApartFrame) : Option Bool :=
  match nextPair frames with
  | none => none
  | some none => some false
  | some (some (pair, frames)) => tryPair frames pair.1 pair.2

/-- The loop of `apart_on_work_list`, for a number of steps. -/
def workList : Nat → List ApartFrame → Handle → Handle → Option Bool
  | 0, _, _, _ => none
  | steps + 1, frames, left, right =>
    match apartStep injections left right with
    | .apart => liftApart frames
    | .undecided => resume (workList steps) frames
    | .arguments _ => resume (workList steps) (⟨left, right, 0⟩ :: frames)
    | .operands left right => workList steps frames left right
    | .comparedOperands left right => workList steps frames left right

/-- `apart_on_work_list` -/
def apartOnWorkList (steps : Nat) (left right : Handle) : Option Bool :=
  workList injections steps [] left right

/-- `apart_by_recursion` for some levels, then on the work list. -/
def apartByRecursion (steps : Nat) : Nat → Handle → Handle → Option Bool
  | 0, left, right =>
    match apartStep injections left right with
    | .apart => some true
    | .undecided => some false
    | .arguments _ | .operands _ _ | .comparedOperands _ _ =>
      apartOnWorkList injections steps left right
  | levels + 1, left, right =>
    match apartStep injections left right with
    | .apart => some true
    | .undecided => some false
    | .arguments pairs =>
      anyFound (fun pair => apartByRecursion steps levels pair.1 pair.2) pairs
    | .operands left right => apartByRecursion steps levels left right
    | .comparedOperands left right => apartByRecursion steps levels left right

/-- `RECURSIVE_APART_LEVELS` -/
def recursiveApartLevels : Nat := 8

/-- `apart_with` -/
def apartWith (steps : Nat) (left right : Handle) : Option Bool :=
  apartByRecursion injections steps recursiveApartLevels left right

/-- The recursion over every level, to a depth. -/
def apartRecursively : Nat → Handle → Handle → Option Bool
  | 0, _, _ => none
  | depth + 1, left, right =>
    match apartStep injections left right with
    | .apart => some true
    | .undecided => some false
    | .arguments pairs => anyFound (fun pair => apartRecursively depth pair.1 pair.2) pairs
    | .operands left right => apartRecursively depth left right
    | .comparedOperands left right => apartRecursively depth left right

end Search

section Rigid

/-- What the skeleton hash is fed at a node. -/
inductive SkeletonPart where
  | domainValue (sort : KoreSort)
  | injection (source target : KoreSort)
  | application (name : String) (sortArguments : List KoreSort) (arity : Nat)
  deriving DecidableEq

/-- `rigid_apart_skeleton_walk` in preorder, with the parts that the hasher is fed; none where a
node is not rigid. -/
def rigidApartSkeletonWalk : List Handle → Option (List SkeletonPart)
  | [] => some []
  | node :: pending =>
    match node with
    | .domainValue sort _ => do
      return .domainValue sort :: (← rigidApartSkeletonWalk pending)
    | .injection source target term => do
      return .injection source target :: (← rigidApartSkeletonWalk (term :: pending))
    | .application symbol sortArguments arguments claimed =>
      match apartRoot (.application symbol sortArguments arguments claimed) with
      | some _ => do
        return .application symbol.name sortArguments arguments.length ::
          (← rigidApartSkeletonWalk (arguments ++ pending))
      | none => none
    | _ => none
termination_by pending => (pending.map Handle.size).sum
decreasing_by
  · simp only [List.map_cons, List.sum_cons, Handle.size]
    omega
  · simp only [List.map_cons, List.sum_cons, Handle.size]
    omega
  · simp only [List.map_cons, List.map_append, List.sum_cons, List.sum_append, Handle.size,
      Handle.sizes_eq]
    omega

/-- `rigid_apart_skeleton_hash`, before the hash of the parts: the stored `may_be_rigid` answers
for a term with a node that is not rigid. -/
def rigidApartSkeletonHash (term : Handle) : Option (List SkeletonPart) :=
  if term.term.attributes.mayBeRigid then rigidApartSkeletonWalk [term] else none

end Rigid

end KRust.Backend
