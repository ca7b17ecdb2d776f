import KRust.Backend.Attributes

/-!
The allocation of a term's node: each attribute is computed from what the node's parts store, and
for the items of a collection from the summary of their tree.
-/

set_option linter.unusedSectionVars false

namespace KRust.Backend

open KRust.Kore Lib

variable [TermHash]

section Definitions

/-- `TermKind`: a node with its parts, the items of a collection in a tree. -/
inductive TermKind where
  | and (left right : StoredTerm)
  | application (symbol : TermSymbol) (sortArguments : List KoreSort)
    (arguments : List StoredTerm)
  | domainValue (sort : KoreSort) (value : KoreString)
  | var (v : TermVariable)
  | injection (source target : KoreSort) (term : StoredTerm)
  | map (definition : MapDefinition) (entries : Items (StoredTerm × StoredTerm))
    (rest : Option StoredTerm)
  | list (definition : ListDefinition) (heads : Items StoredTerm)
    (rest : Option (StoredTerm × Items StoredTerm))
  | set (definition : SetDefinition) (elements : Items StoredTerm) (rest : Option StoredTerm)

namespace TermKind

/-- The node over the items of its trees. -/
def layer : TermKind → Layer StoredTerm
  | .and left right => .and left right
  | .application symbol sortArguments arguments => .application symbol sortArguments arguments
  | .domainValue sort value => .domainValue sort value
  | .var v => .var v
  | .injection source target term => .injection source target term
  | .map d entries rest => .map d entries.toList rest
  | .list d heads rest =>
    .list d heads.toList (rest.map fun entry => (entry.1, entry.2.toList))
  | .set d elements rest => .set d elements.toList rest

def term (kind : TermKind) : Term := (kind.layer.change StoredTerm.term).term

end TermKind

/-- `ChildShape::add` -/
def addChild (attributes : TermAttributes) (child : StoredTerm) : TermAttributes :=
  { attributes with
    vars := attributes.vars ∪ child.attributes.vars
    evaluated := attributes.evaluated && child.attributes.evaluated
    valueClaimed := attributes.valueClaimed && child.attributes.valueClaimed
    constructorLike := attributes.constructorLike && child.attributes.constructorLike
    concreteAfterNormalization :=
      attributes.concreteAfterNormalization && child.attributes.concreteAfterNormalization
    canBeEvaluated := attributes.canBeEvaluated && child.attributes.canBeEvaluated }

/-- `ChildShape::add_variables` -/
def addVars (attributes : TermAttributes) (vars : Finset TermVariable) : TermAttributes :=
  { attributes with vars := attributes.vars ∪ vars }

/-- `combine_attributes` -/
def combineAttributes (terms : List StoredTerm) : TermAttributes :=
  terms.foldl addChild
    { TermAttributes.default with constructorLike := true, concreteAfterNormalization := true }

/-- `large_items_variables` -/
def largeItemsVars (items : Items StoredTerm) : Option (Finset TermVariable) :=
  if branching.factor < items.len then some items.summary.group.toFinset else none

/-- `ChildShape::add_items_variables` -/
def addItemsVars (attributes : TermAttributes) (items : Items StoredTerm) : TermAttributes :=
  match largeItemsVars items with
  | some vars => addVars attributes vars
  | none => items.toList.foldl (fun attributes item => addVars attributes item.attributes.vars)
      attributes

/-- The shape that the summary of a collection's items starts from. -/
def itemsShape (holds : Flag → Bool) : TermAttributes :=
  { TermAttributes.default with
    evaluated := holds .evaluated
    valueClaimed := holds .valueClaimed
    constructorLike := holds .constructorLike
    concreteAfterNormalization := holds .concreteAfterNormalization
    canBeEvaluated := holds .canBeEvaluated }

/-- `list_items_hold` -/
def listItemsHold (heads : Items StoredTerm) (rest : Option (StoredTerm × Items StoredTerm))
    (flag : Flag) : Bool :=
  heads.summary.extra.holds flag && rest.all fun entry => entry.2.summary.extra.holds flag

/-- A repeated key excludes every value shape. -/
def excludeCollision (collision : Bool) (attributes : TermAttributes) : TermAttributes :=
  if collision then
    { attributes with
      evaluated := false, valueClaimed := false, constructorLike := false
      concreteAfterNormalization := false }
  else attributes

/-- `synthesize_attributes`, with whether a key is repeated at the root. -/
def synthesizeAttributes : TermKind → TermAttributes × Bool
  | .and left right =>
    let attributes := combineAttributes [left, right]
    let evaluated := attributes.evaluated && left.term ≠ right.term
    ({ attributes with
        evaluated, valueClaimed := attributes.valueClaimed && evaluated
        constructorLike := false, concreteAfterNormalization := false }, false)
  | .application symbol _ arguments =>
    let attributes := combineAttributes arguments
    ({ attributes with
        evaluated := attributes.evaluated && symbol.free
        valueClaimed := attributes.valueClaimed && symbol.free
        constructorLike := attributes.constructorLike && symbol.free
        concreteAfterNormalization :=
          attributes.concreteAfterNormalization && symbol.concreteHead
        canBeEvaluated := attributes.canBeEvaluated && symbol.attributes.hasEvaluators }, false)
  | .domainValue _ _ =>
    ({ TermAttributes.default with
        constructorLike := true, concreteAfterNormalization := true }, false)
  | .var v => ({ TermAttributes.default with vars := {v} }, false)
  | .injection _ _ term => (term.attributes, false)
  | .map _ entries rest =>
    let summary := entries.summary
    let shape := addVars (itemsShape summary.extra.holds) summary.group.toFinset
    (excludeCollision summary.collision (rest.elim shape (addChild shape)), summary.collision)
  | .list _ heads rest =>
    let shape := addItemsVars (itemsShape (listItemsHold heads rest)) heads
    (match rest with
      | none => shape
      | some (middle, tails) => addItemsVars (addChild shape middle) tails, false)
  | .set _ elements rest =>
    let summary := elements.summary
    let shape := addItemsVars (itemsShape summary.extra.holds) elements
    (excludeCollision summary.collision (rest.elim shape (addChild shape)), summary.collision)

/-- `ceil_free` -/
def ceilFreeOf : TermKind → Bool
  | .application symbol _ arguments =>
    symbol.attributes.symbolType ≠ .function .part &&
      arguments.all fun argument => argument.attributes.ceilFree
  | .and left right =>
    left.attributes.ceilFree && right.attributes.ceilFree &&
      left.firstConjunct = right.firstConjunct
  | .injection _ _ term => term.attributes.ceilFree
  | .domainValue _ _ => true
  | .var v => v.kind = .element
  | .map _ entries rest =>
    let summary := entries.summary
    rest.isNone && summary.extra.holds .ceilFree && summary.extra.keysShareOneHeader &&
      !summary.collision
  | .list _ heads rest =>
    listItemsHold heads rest .ceilFree && rest.all fun entry => entry.1.attributes.ceilFree
  | .set _ elements rest =>
    let summary := elements.summary
    rest.isNone && summary.extra.holds .ceilFree && summary.extra.keysShareOneHeader &&
      !summary.collision

/-- `has_macro_or_alias` -/
def hasMacroOrAliasOf : TermKind → Bool
  | .list _ heads rest =>
    heads.summary.extra.macroOrAlias.any || rest.any fun entry =>
      entry.1.attributes.hasMacroOrAlias || entry.2.summary.extra.macroOrAlias.any
  | .map _ entries rest =>
    entries.summary.extra.macroOrAlias.any || rest.any fun rest => rest.attributes.hasMacroOrAlias
  | .set _ elements rest =>
    elements.summary.extra.macroOrAlias.any ||
      rest.any fun rest => rest.attributes.hasMacroOrAlias
  | .application symbol _ arguments =>
    arguments.foldl (fun found child => found || child.attributes.hasMacroOrAlias)
      symbol.attributes.macroOrAlias
  | .and left right =>
    [left, right].foldl (fun found child => found || child.attributes.hasMacroOrAlias) false
  | .injection _ _ term => false || term.attributes.hasMacroOrAlias
  | .domainValue _ _ | .var _ => false

/-- `may_be_rigid` -/
def mayBeRigidOf : TermKind → Bool
  | .domainValue _ _ => true
  | .injection _ _ term => term.attributes.mayBeRigid
  | .application symbol _ arguments =>
    (symbol.attributes.headRole = .freeConstructor ||
        symbol.attributes.headRole = .equationHead) &&
      arguments.all fun argument => argument.attributes.mayBeRigid
  | _ => false

/-- `k_cells` -/
def kCellsOf : TermKind → Nat
  | .application symbol _ arguments =>
    if symbol.isKCell then 1
    else arguments.foldl (fun count child => min (count + child.attributes.kCells) 2) 0
  | .list _ heads rest =>
    match rest with
    | none => heads.summary.extra.kCells.count
    | some (middle, tails) =>
      min (heads.summary.extra.kCells.count + middle.attributes.kCells +
        tails.summary.extra.kCells.count) 2
  | .map _ entries rest =>
    rest.toList.foldl (fun count rest => min (count + rest.attributes.kCells) 2)
      entries.summary.extra.kCells.count
  | .set _ elements rest =>
    rest.toList.foldl (fun count rest => min (count + rest.attributes.kCells) 2)
      elements.summary.extra.kCells.count
  | .and left right =>
    [left, right].foldl (fun count child => min (count + child.attributes.kCells) 2) 0
  | .injection _ _ term => min (0 + term.attributes.kCells) 2
  | .domainValue _ _ | .var _ => 0

/-- `set_kind_attributes` -/
def setKindAttributes (kind : TermKind) (attributes : TermAttributes) : TermAttributes :=
  { attributes with
    ceilFree := ceilFreeOf kind
    hasMacroOrAlias := hasMacroOrAliasOf kind
    kCells := kCellsOf kind
    mayBeRigid := mayBeRigidOf kind
    firstConjunct := match kind with
      | .and left _ => some left.firstConjunct
      | _ => none }

/-- `Term::allocate` of a kind. -/
def structuralAttributes (kind : TermKind) : TermAttributes :=
  setKindAttributes kind (synthesizeAttributes kind).1

/-- `children_value_claimed` -/
def childrenValueClaimed : TermKind → Bool
  | .list _ heads rest =>
    listItemsHold heads rest .valueClaimed &&
      rest.all fun entry => entry.1.attributes.valueClaimed
  | .map _ entries rest =>
    entries.summary.extra.holds .valueClaimed && rest.all fun rest => rest.attributes.valueClaimed
  | .set _ elements rest =>
    elements.summary.extra.holds .valueClaimed &&
      rest.all fun rest => rest.attributes.valueClaimed
  | kind => (combineAttributes kind.layer.children).valueClaimed

/-- `marked_attributes` of a node that stores `source`. -/
def markedAttributes (source : TermAttributes) (kind : TermKind) (value : Bool) :
    TermAttributes :=
  match kind with
  | .application _ _ _ =>
    { source with evaluated := true, valueClaimed := value && childrenValueClaimed kind }
  | kind =>
    let (attributes, collisionRoot) := synthesizeAttributes kind
    setKindAttributes kind
      { attributes with
        evaluated := !collisionRoot
        valueClaimed := value && childrenValueClaimed kind && !collisionRoot }

/-- The nodes that are allocated, over nodes allocated before. -/
inductive Allocated : StoredTerm → Prop where
  | structural {kind : TermKind} : (∀ child ∈ kind.layer.children, Allocated child) →
    Allocated ⟨kind.term, structuralAttributes kind⟩
  | marked {kind : TermKind} {source : TermAttributes} (value : Bool) :
    (∀ child ∈ kind.layer.children, Allocated child) → Allocated ⟨kind.term, source⟩ →
    Allocated ⟨kind.term, markedAttributes source kind value⟩

end Definitions

end KRust.Backend
