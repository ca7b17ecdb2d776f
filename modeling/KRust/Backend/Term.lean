import KRust.Backend.Fresh
import Mathlib.Data.List.Sort

/-!
Backend terms: applications of declared symbols, domain values, variables, sort injections and
the internal maps, lists and sets, with the constructors that keep them flattened.
-/

set_option linter.unusedSectionVars false

namespace KRust.Backend

open KRust.Kore

deriving instance DecidableEq for Variable

abbrev TermVariable : Type := Variable KoreSort

structure CollectionSymbols where
  unit : String
  element : String
  concat : String
  deriving DecidableEq

structure MapDefinition where
  symbols : CollectionSymbols
  keySort : KoreSort
  valueSort : KoreSort
  mapSort : String
  deriving DecidableEq

structure ListDefinition where
  symbols : CollectionSymbols
  elementSort : KoreSort
  listSort : String
  deriving DecidableEq

abbrev SetDefinition : Type := ListDefinition

inductive CollectionMetadata where
  | map (definition : MapDefinition)
  | list (definition : ListDefinition)
  | set (definition : SetDefinition)
  deriving DecidableEq

inductive FunctionType where
  | part
  | total
  deriving DecidableEq

inductive SymbolType where
  | constructor
  | function (kind : FunctionType)
  deriving DecidableEq

/-- Axioms that identify applications with different arguments. -/
structure AlgebraicAxioms where
  assoc : Bool
  comm : Bool
  idem : Bool
  unit : Bool
  deriving DecidableEq

def AlgebraicAxioms.isEmpty (algebraic : AlgebraicAxioms) : Bool :=
  !algebraic.assoc && !algebraic.comm && !algebraic.idem && !algebraic.unit

structure SymbolAttributes where
  symbolType : SymbolType
  anywhere : Bool
  declaredFunction : Bool
  injective : Bool
  algebraic : AlgebraicAxioms
  macroOrAlias : Bool
  hasEvaluators : Bool
  hook : Option String
  /-- The collection of which the symbol is the unit, the element or the concatenation. -/
  collection : Option CollectionMetadata
  deriving DecidableEq

/-- `SymbolAttributes::constructor` -/
def SymbolAttributes.ofConstructor : SymbolAttributes :=
  ⟨.constructor, false, false, false, ⟨false, false, false, false⟩, false, true, none, none⟩

/-- What the declaration of a symbol says of its applications. -/
inductive HeadRole where
  /-- Applications with different roots or arguments are different values. -/
  | freeConstructor
  /-- An application stands for its normal form under the definition's equations. -/
  | equationHead
  | function (declared injective refutableArguments : Bool)
  /-- A macro or an alias that was not replaced. -/
  | residual
  | uninterpreted
  deriving DecidableEq

/-- `head_role` -/
def SymbolAttributes.headRole (attributes : SymbolAttributes) : HeadRole :=
  if attributes.macroOrAlias then .residual
  else if !attributes.algebraic.isEmpty &&
      (!attributes.declaredFunction || attributes.symbolType = .constructor) then .uninterpreted
  else if attributes.anywhere && !attributes.declaredFunction then .equationHead
  else
    match attributes.symbolType with
    | .constructor => .freeConstructor
    | .function _ =>
      if attributes.declaredFunction then
        .function true
          (attributes.injective && !attributes.anywhere && attributes.algebraic.isEmpty)
          attributes.algebraic.isEmpty
      else if attributes.injective then .function false true true
      else .uninterpreted

/-- A declared symbol. -/
structure TermSymbol where
  name : String
  sortVariables : List String
  argumentSorts : List KoreSort
  resultSort : KoreSort
  attributes : SymbolAttributes
  deriving DecidableEq

/-- `TermKind` -/
inductive Term where
  | and (left right : Term)
  | application (symbol : TermSymbol) (sortArguments : List KoreSort) (arguments : List Term)
  | domainValue (sort : KoreSort) (value : KoreString)
  | var (v : TermVariable)
  | injection (source target : KoreSort) (term : Term)
  | map (definition : MapDefinition) (entries : List (Term × Term)) (rest : Option Term)
  | list (definition : ListDefinition) (heads : List Term) (rest : Option (Term × List Term))
  | set (definition : SetDefinition) (elements : List Term) (rest : Option Term)

/-- Terms by their kinds: what holds of the parts of a term, wherever they stand, holds of it. -/
@[induction_eliminator]
theorem Term.induction {motive : Term → Prop}
    (and : ∀ left right, motive left → motive right → motive (.and left right))
    (application : ∀ symbol sortArguments arguments, (∀ a ∈ arguments, motive a) →
      motive (.application symbol sortArguments arguments))
    (domainValue : ∀ sort value, motive (.domainValue sort value))
    (var : ∀ v, motive (.var v))
    (injection : ∀ source target term, motive term → motive (.injection source target term))
    (map : ∀ definition entries rest, (∀ e ∈ entries, motive e.1 ∧ motive e.2) →
      (∀ r ∈ rest, motive r) → motive (.map definition entries rest))
    (list : ∀ definition heads rest, (∀ h ∈ heads, motive h) →
      (∀ e ∈ rest, motive e.1 ∧ ∀ t ∈ e.2, motive t) → motive (.list definition heads rest))
    (set : ∀ definition elements rest, (∀ e ∈ elements, motive e) → (∀ r ∈ rest, motive r) →
      motive (.set definition elements rest)) (t : Term) : motive t := by
  refine Term.rec (motive_1 := motive) (motive_2 := fun terms => ∀ t ∈ terms, motive t)
    (motive_3 := fun entries => ∀ e ∈ entries, motive e.1 ∧ motive e.2)
    (motive_4 := fun rest => ∀ r ∈ rest, motive r)
    (motive_5 := fun rest => ∀ e ∈ rest, motive e.1 ∧ ∀ t ∈ e.2, motive t)
    (motive_6 := fun e => motive e.1 ∧ motive e.2)
    (motive_7 := fun e => motive e.1 ∧ ∀ t ∈ e.2, motive t) and application domainValue var
    injection map list set ?_ ?_ ?_ ?_ ?_ ?_ ?_ ?_ ?_ ?_ t
  · simp
  · exact fun _ _ hhead htail => List.forall_mem_cons.mpr ⟨hhead, htail⟩
  · simp
  · exact fun _ _ hhead htail => List.forall_mem_cons.mpr ⟨hhead, htail⟩
  · simp
  · rintro _ hrest _ ⟨⟩
    exact hrest
  · simp
  · rintro _ hentry _ ⟨⟩
    exact hentry
  · exact fun _ _ hkey hvalue => ⟨hkey, hvalue⟩
  · exact fun _ _ hmiddle htails => ⟨hmiddle, htails⟩

/-- The order that collections keep their items in. -/
class CollectionOrder where
  entryLe : Term × Term → Term × Term → Bool
  elementLe : Term → Term → Bool

namespace Term

section Sorts

/-- A sort with its variables replaced by the arguments at their positions; of two positions
of one name the last counts. -/
def instantiate (names : List String) (arguments : List KoreSort) : KoreSort → KoreSort
  | .var name =>
    (((names.zip arguments).reverse.find? fun entry => entry.1 = name).map Prod.snd).getD
      (.var name)
  | .application name inner => .application name (instantiateList inner)
where
  instantiateList : List KoreSort → List KoreSort
  | [] => []
  | s :: sorts => instantiate names arguments s :: instantiateList sorts

/-- `instantiate_result_sort` -/
def instantiateResultSort (symbol : TermSymbol) (sortArguments : List KoreSort) : KoreSort :=
  instantiate symbol.sortVariables sortArguments symbol.resultSort

/-- `Sort::simple` -/
def simpleSort (name : String) : KoreSort := .application name []

def sort : Term → KoreSort
  | .and _ right => right.sort
  | .application symbol sortArguments _ => instantiateResultSort symbol sortArguments
  | .domainValue sort _ => sort
  | .var v => v.sort
  | .injection _ target _ => target
  | .map definition _ _ => simpleSort definition.mapSort
  | .list definition _ _ | .set definition _ _ => simpleSort definition.listSort

end Sorts

section Constructors

/-- An injection of an injection is one injection. -/
def mkInjection (source target : KoreSort) : Term → Term
  | .injection innerSource innerTarget inner =>
    if source = innerTarget then mkInjection innerSource target inner
    else .injection source target (.injection innerSource innerTarget inner)
  | term => .injection source target term

/-- A list of items, or its middle when it has no items of its own. -/
def listNode (definition : ListDefinition) : List Term × Option (Term × List Term) → Term
  | ([], some (middle, [])) => middle
  | (heads, rest) => .list definition heads rest

/-- `list_of_items`: a middle that is a list of the definition is joined in. -/
def listOfItems (definition : ListDefinition) (heads : List Term)
    (rest : Option (Term × List Term)) : Term :=
  let joined := match rest with
    | some (.list nested nestedHeads nestedRest, tails) =>
      if nested = definition then
        match nestedRest with
        | some (nestedMiddle, nestedTails) =>
          (heads ++ nestedHeads, some (nestedMiddle, nestedTails ++ tails))
        | none => (heads ++ nestedHeads ++ tails, none)
      else (heads, rest)
    | _ => (heads, rest)
  match joined with
  | ([], some (middle, [])) => middle
  | (heads, rest) => .list definition heads rest

/-- A map of entries, or its rest when it has no entries of its own. -/
def mapNode (definition : MapDefinition) : List (Term × Term) × Option Term → Term
  | ([], some rest) => rest
  | (entries, rest) => .map definition entries rest

/-- A set of elements, or its rest when it has no elements of its own. -/
def setNode (definition : SetDefinition) : List Term × Option Term → Term
  | ([], some rest) => rest
  | (elements, rest) => .set definition elements rest

variable [order : CollectionOrder]

/-- `map_of_items` -/
def mapOfItems (definition : MapDefinition) (entries : List (Term × Term)) (rest : Option Term) :
    Term :=
  let united := match rest with
    | some (.map nested nestedEntries nestedRest) =>
      if nested = definition then (nestedEntries.merge entries order.entryLe, nestedRest)
      else (entries, rest)
    | _ => (entries, rest)
  match united with
  | ([], some rest) => rest
  | (entries, rest) => .map definition entries rest

/-- `set_of_items` -/
def setOfItems (definition : SetDefinition) (elements : List Term) (rest : Option Term) : Term :=
  let united := match rest with
    | some (.set nested nestedElements nestedRest) =>
      if nested = definition then (nestedElements.merge elements order.elementLe, nestedRest)
      else (elements, rest)
    | _ => (elements, rest)
  match united with
  | ([], some rest) => rest
  | (elements, rest) => .set definition elements rest

/-- `map_parts` -/
def mapParts (definition : MapDefinition) : Term → List (Term × Term) × Option Term
  | .map found entries rest =>
    if found = definition then (entries, rest) else ([], some (.map found entries rest))
  | term => ([], some term)

/-- `set_parts` -/
def setParts (definition : SetDefinition) : Term → List Term × Option Term
  | .set found elements rest =>
    if found = definition then (elements, rest) else ([], some (.set found elements rest))
  | term => ([], some term)

/-- The rest of two united collections: a raw concatenation holds two of them. -/
def combineRests (symbol : TermSymbol) (sortArguments : List KoreSort) :
    Option Term → Option Term → Option Term
  | none, rest | rest, none => rest
  | some left, some right => some (.application symbol sortArguments [left, right])

/-- The items of a list without a middle. -/
def itemsOnly (definition : ListDefinition) : Term → Option (List Term)
  | .list found heads none => if found = definition then some heads else none
  | _ => none

/-- `combine_lists` -/
def combineLists (definition : ListDefinition) (symbol : TermSymbol)
    (sortArguments : List KoreSort) (left right : Term) : Term :=
  match itemsOnly definition left, itemsOnly definition right with
  | some heads, some tails => listOfItems definition (heads ++ tails) none
  | some heads, none =>
    match right with
    | .list found rightHeads rest =>
      if found = definition then listOfItems definition (heads ++ rightHeads) rest
      else listOfItems definition heads (some (right, []))
    | _ => listOfItems definition heads (some (right, []))
  | none, some tails =>
    match left with
    | .list found heads (some (middle, leftTails)) =>
      if found = definition then
        listOfItems definition heads (some (middle, leftTails ++ tails))
      else listOfItems definition [] (some (left, tails))
    | _ => listOfItems definition [] (some (left, tails))
  | none, none => .application symbol sortArguments [left, right]

/-- `combine_sets` -/
def combineSets (definition : SetDefinition) (symbol : TermSymbol)
    (sortArguments : List KoreSort) (left right : Term) : Term :=
  setOfItems definition
    ((setParts definition left).1.merge (setParts definition right).1 order.elementLe)
    (combineRests symbol sortArguments (setParts definition left).2 (setParts definition right).2)

def combineMaps (definition : MapDefinition) (symbol : TermSymbol)
    (sortArguments : List KoreSort) (left right : Term) : Term :=
  mapOfItems definition
    ((mapParts definition left).1.merge (mapParts definition right).1 order.entryLe)
    (combineRests symbol sortArguments (mapParts definition left).2 (mapParts definition right).2)

/-- `collection_application`: the applications of a collection's symbols are its terms. -/
def collectionApplication (symbol : TermSymbol) (sortArguments : List KoreSort)
    (arguments : List Term) : CollectionMetadata → Term
  | .map definition =>
    match arguments with
    | [] =>
      if symbol.name = definition.symbols.unit then .map definition [] none
      else .application symbol sortArguments arguments
    | [left, right] =>
      if symbol.name = definition.symbols.element then .map definition [(left, right)] none
      else if symbol.name = definition.symbols.concat then
        combineMaps definition symbol sortArguments left right
      else .application symbol sortArguments arguments
    | _ => .application symbol sortArguments arguments
  | .list definition =>
    match arguments with
    | [] =>
      if symbol.name = definition.symbols.unit then .list definition [] none
      else .application symbol sortArguments arguments
    | [element] =>
      if symbol.name = definition.symbols.element then .list definition [element] none
      else .application symbol sortArguments arguments
    | [left, right] =>
      if symbol.name = definition.symbols.concat then
        combineLists definition symbol sortArguments left right
      else .application symbol sortArguments arguments
    | _ => .application symbol sortArguments arguments
  | .set definition =>
    match arguments with
    | [] =>
      if symbol.name = definition.symbols.unit then .set definition [] none
      else .application symbol sortArguments arguments
    | [element] =>
      if symbol.name = definition.symbols.element then .set definition [element] none
      else .application symbol sortArguments arguments
    | [left, right] =>
      if symbol.name = definition.symbols.concat then
        combineSets definition symbol sortArguments left right
      else .application symbol sortArguments arguments
    | _ => .application symbol sortArguments arguments

/-- `Term::application` -/
def mkApplication (symbol : TermSymbol) (sortArguments : List KoreSort) (arguments : List Term) :
    Term :=
  match decide (symbol.name = "inj"), sortArguments, arguments with
  | true, [source, target], [argument] => mkInjection source target argument
  | _, _, _ =>
    match symbol.attributes.collection with
    | some collection => collectionApplication symbol sortArguments arguments collection
    | none => .application symbol sortArguments arguments

end Constructors

end Term

end KRust.Backend
