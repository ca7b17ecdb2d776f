import KRust.Backend.ItemSummary
import KRust.Backend.Normal
import KRust.Backend.Substitution

/-!
The attributes of a term: their recursive definitions, and how a node's constructor computes them
from what its parts store and from the summaries of its trees of items.
-/

set_option linter.unusedSectionVars false

namespace KRust.Backend

open KRust.Kore Lib
open KRust.Term.Chunks (Item Summary Group hasCollision collides anyAdjacent)

section Layers

/-- A node over the parts of a term. -/
inductive Layer (α : Type) where
  | and (left right : α)
  | application (symbol : TermSymbol) (sortArguments : List KoreSort) (arguments : List α)
  | domainValue (sort : KoreSort) (value : KoreString)
  | var (v : TermVariable)
  | injection (source target : KoreSort) (term : α)
  | map (definition : MapDefinition) (entries : List (α × α)) (rest : Option α)
  | list (definition : ListDefinition) (heads : List α) (rest : Option (α × List α))
  | set (definition : SetDefinition) (elements : List α) (rest : Option α)

namespace Layer

variable {α β : Type}

def change (f : α → β) : Layer α → Layer β
  | .and left right => .and (f left) (f right)
  | .application symbol sortArguments arguments =>
    .application symbol sortArguments (arguments.map f)
  | .domainValue sort value => .domainValue sort value
  | .var v => .var v
  | .injection source target term => .injection source target (f term)
  | .map d entries rest => .map d (entries.map fun entry => (f entry.1, f entry.2)) (rest.map f)
  | .list d heads rest =>
    .list d (heads.map f) (rest.map fun entry => (f entry.1, entry.2.map f))
  | .set d elements rest => .set d (elements.map f) (rest.map f)

/-- `immediate_children` -/
def children : Layer α → List α
  | .and left right => [left, right]
  | .application _ _ arguments => arguments
  | .domainValue _ _ | .var _ => []
  | .injection _ _ term => [term]
  | .map _ entries rest => entries.flatMap (fun entry => [entry.1, entry.2]) ++ rest.toList
  | .list _ heads rest => heads ++ rest.toList.flatMap fun entry => entry.1 :: entry.2
  | .set _ elements rest => elements ++ rest.toList

/-- The keys of a map, the elements of a set. -/
def keys : Layer α → List α
  | .map _ entries _ => entries.map Prod.fst
  | .set _ elements _ => elements
  | _ => []

/-- The term that the node is. -/
def term : Layer Term → Term
  | .and left right => .and left right
  | .application symbol sortArguments arguments => .application symbol sortArguments arguments
  | .domainValue sort value => .domainValue sort value
  | .var v => .var v
  | .injection source target term => .injection source target term
  | .map d entries rest => .map d entries rest
  | .list d heads rest => .list d heads rest
  | .set d elements rest => .set d elements rest

theorem children_change (f : α → β) (layer : Layer α) :
    (layer.change f).children = layer.children.map f := by
  cases layer with
  | map d entries rest =>
    cases rest <;> simp [change, children, List.flatMap_map, List.map_flatMap]
  | list d heads rest => cases rest <;> simp [change, children]
  | set d elements rest => cases rest <;> simp [change, children]
  | _ => rfl

theorem keys_change (f : α → β) (layer : Layer α) :
    (layer.change f).keys = layer.keys.map f := by
  cases layer <;> simp [change, keys]

theorem change_change {γ : Type} (f : α → β) (g : β → γ) (layer : Layer α) :
    (layer.change f).change g = layer.change (g ∘ f) := by
  cases layer with
  | list d heads rest => cases rest <;> simp [change]
  | map d entries rest => cases rest <;> simp [change]
  | set d elements rest => cases rest <;> simp [change]
  | _ => simp [change]

theorem keys_subset (layer : Layer α) : ∀ k ∈ layer.keys, k ∈ layer.children := by
  intro k hk
  cases layer with
  | map d entries rest =>
    obtain ⟨e, he, rfl⟩ := List.mem_map.mp hk
    exact List.mem_append_left _ (List.mem_flatMap_of_mem he List.mem_cons_self)
  | set d elements rest => exact List.mem_append_left _ hk
  | _ => cases hk

end Layer

end Layers

section Definitions

def TermSymbol.free (symbol : TermSymbol) : Bool := symbol.attributes.headRole = .freeConstructor

/-- Whether a normal form may have the symbol at its root. -/
def TermSymbol.concreteHead (symbol : TermSymbol) : Bool :=
  (symbol.attributes.symbolType = .constructor ||
      (symbol.attributes.anywhere && !symbol.attributes.declaredFunction)) &&
    symbol.attributes.headRole ≠ .uninterpreted

/-- `WellKnownSymbol::KCell` -/
def TermSymbol.isKCell (symbol : TermSymbol) : Bool := symbol.name = "Lbl'-LT-'k'-GT-'"

namespace Layer

variable (layer : Layer StoredTerm)

/-- No key is bound twice and no element occurs twice. -/
def distinctKeys : Bool := (layer.keys.map StoredTerm.term).Nodup

/-- All keys are headed and of one skeleton. -/
def oneHeader : Bool :=
  ∀ k ∈ layer.keys.map StoredTerm.term,
    k.headed = true ∧ ∀ k' ∈ layer.keys.map StoredTerm.term, k'.skeleton = k.skeleton

def allHold (flag : Flag) : Bool := layer.children.all fun t => flag.holdsOf t

def vars : Finset TermVariable :=
  match layer with
  | .var v => {v}
  | layer => unite layer.children

def evaluated : Bool :=
  layer.allHold .evaluated &&
    match layer with
    | .and left right => left.term ≠ right.term
    | .application symbol _ _ => symbol.free
    | layer => layer.distinctKeys

def valueClaimed : Bool :=
  layer.allHold .valueClaimed &&
    match layer with
    | .and left right => left.term ≠ right.term
    | .application symbol _ _ => symbol.free
    | layer => layer.distinctKeys

def constructorLike : Bool :=
  layer.allHold .constructorLike &&
    match layer with
    | .and _ _ | .var _ => false
    | .application symbol _ _ => symbol.free
    | layer => layer.distinctKeys

def concreteAfterNormalization : Bool :=
  layer.allHold .concreteAfterNormalization &&
    match layer with
    | .and _ _ | .var _ => false
    | .application symbol _ _ => symbol.concreteHead
    | layer => layer.distinctKeys

def canBeEvaluated : Bool :=
  layer.allHold .canBeEvaluated &&
    match layer with
    | .application symbol _ _ => symbol.attributes.hasEvaluators
    | _ => true

/-- Whether no definedness obligation is left at the node or below it. -/
def ceilFree : Bool :=
  layer.allHold .ceilFree &&
    match layer with
    | .and left right => left.firstConjunct = right.firstConjunct
    | .application symbol _ _ => symbol.attributes.symbolType ≠ .function .part
    | .var v => v.kind = .element
    | .map _ _ rest => rest.isNone && layer.oneHeader && layer.distinctKeys
    | .set _ _ rest => rest.isNone && layer.oneHeader && layer.distinctKeys
    | _ => true

def hasMacroOrAlias : Bool :=
  (layer.children.any fun t => t.attributes.hasMacroOrAlias) ||
    match layer with
    | .application symbol _ _ => symbol.attributes.macroOrAlias
    | _ => false

/-- The `<k>` cells not below another one, up to two. -/
def kCells : Nat :=
  match layer with
  | .application symbol _ arguments =>
    if symbol.isKCell then 1 else min (arguments.map fun t => t.attributes.kCells).sum 2
  | layer => min (layer.children.map fun t => t.attributes.kCells).sum 2

def mayBeRigid : Bool :=
  (layer.children.all fun t => t.attributes.mayBeRigid) &&
    match layer with
    | .domainValue _ _ | .injection _ _ _ => true
    | .application symbol _ _ =>
      symbol.attributes.headRole = .freeConstructor || symbol.attributes.headRole = .equationHead
    | _ => false

def firstConjunct : Option Term :=
  match layer with
  | .and left _ => some left.firstConjunct
  | _ => none

/-- The attributes of a node, from those of all its parts. -/
def attributes : TermAttributes where
  vars := layer.vars
  evaluated := layer.evaluated
  valueClaimed := layer.valueClaimed
  constructorLike := layer.constructorLike
  concreteAfterNormalization := layer.concreteAfterNormalization
  canBeEvaluated := layer.canBeEvaluated
  ceilFree := layer.ceilFree
  hasMacroOrAlias := layer.hasMacroOrAlias
  kCells := layer.kCells
  mayBeRigid := layer.mayBeRigid
  firstConjunct := layer.firstConjunct

end Layer

namespace Term

def layer : Term → Layer Term
  | .and left right => .and left right
  | .application symbol sortArguments arguments => .application symbol sortArguments arguments
  | .domainValue sort value => .domainValue sort value
  | .var v => .var v
  | .injection source target term => .injection source target term
  | .map d entries rest => .map d entries rest
  | .list d heads rest => .list d heads rest
  | .set d elements rest => .set d elements rest

theorem layer_term (t : Term) : t.layer.term = t := by
  cases t <;> rfl

/-- The attributes of a term by recursion over the whole term. -/
def attributes : Term → TermAttributes
  | .and left right =>
    Layer.attributes (.and ⟨left, left.attributes⟩ ⟨right, right.attributes⟩)
  | .application symbol sortArguments arguments =>
    Layer.attributes (.application symbol sortArguments (storedAll arguments))
  | .domainValue sort value => Layer.attributes (.domainValue sort value)
  | .var v => Layer.attributes (.var v)
  | .injection source target term =>
    Layer.attributes (.injection source target ⟨term, term.attributes⟩)
  | .map d entries rest => Layer.attributes (.map d (storedEntries entries) (storedRest rest))
  | .list d heads rest => Layer.attributes (.list d (storedAll heads) (storedMiddle rest))
  | .set d elements rest => Layer.attributes (.set d (storedAll elements) (storedRest rest))
where
  storedAll : List Term → List StoredTerm
  | [] => []
  | term :: terms => ⟨term, term.attributes⟩ :: storedAll terms
  storedEntries : List (Term × Term) → List (StoredTerm × StoredTerm)
  | [] => []
  | (key, value) :: entries =>
    (⟨key, key.attributes⟩, ⟨value, value.attributes⟩) :: storedEntries entries
  storedRest : Option Term → Option StoredTerm
  | none => none
  | some rest => some ⟨rest, rest.attributes⟩
  storedMiddle : Option (Term × List Term) → Option (StoredTerm × List StoredTerm)
  | none => none
  | some (middle, tails) => some (⟨middle, middle.attributes⟩, storedAll tails)

/-- The term with the attributes of the recursive definition. -/
def stored (t : Term) : StoredTerm := ⟨t, t.attributes⟩

theorem storedAll_eq (terms : List Term) : attributes.storedAll terms = terms.map stored := by
  induction terms with
  | nil => rfl
  | cons term terms ih => rw [attributes.storedAll, ih, List.map_cons, stored]

theorem storedEntries_eq (entries : List (Term × Term)) :
    attributes.storedEntries entries = entries.map fun entry => (entry.1.stored, entry.2.stored) := by
  induction entries with
  | nil => rfl
  | cons entry entries ih => rw [attributes.storedEntries, ih, List.map_cons, stored, stored]

theorem attributes_eq (t : Term) : t.attributes = (t.layer.change stored).attributes := by
  cases t with
  | and left right => rfl
  | application symbol sortArguments arguments =>
    rw [attributes, storedAll_eq]
    rfl
  | domainValue sort value => rfl
  | var v => rfl
  | injection source target term => rfl
  | map d entries rest =>
    rw [attributes, storedEntries_eq]
    cases rest <;> rfl
  | list d heads rest =>
    rw [attributes, storedAll_eq]
    cases rest with
    | none => rfl
    | some entry =>
      rw [attributes.storedMiddle, storedAll_eq]
      rfl
  | set d elements rest =>
    rw [attributes, storedAll_eq]
    cases rest <;> rfl

end Term

end Definitions

end KRust.Backend
