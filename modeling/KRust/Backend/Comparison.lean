import KRust.Backend.Attributes
import KRust.Backend.DerivedOrder
import KRust.Lib.Worklist
import KRust.Term.Chunks.AlignedPairs

/-!
Equality and order of allocated terms with the comparisons still owed on a work list rather than
the native stack. Terms are compared through handles: two handles are one where `Arc::ptr_eq` says
so, and the items of a collection are walked along the trees that hold them.
-/

namespace KRust.Backend

open KRust.Kore Lib Lib.Spelling
open KRust.Term.Chunks (Branching Chunked Node)

section Heaps

/-- `TermKind` over the handles of its parts, its items in trees. -/
inductive HandleKind (α S G : Type) (B : Branching) where
  | and (left right : α)
  | application (symbol : TermSymbol) (sortArguments : List KoreSort) (arguments : List α)
  | domainValue (sort : KoreSort) (value : KoreString)
  | var (v : TermVariable)
  | injection (source target : KoreSort) (term : α)
  | map (definition : MapDefinition) (entries : Chunked (α × α) S G B) (rest : Option α)
  | list (definition : ListDefinition) (heads : Chunked α S G B)
    (rest : Option (α × Chunked α S G B))
  | set (definition : SetDefinition) (elements : Chunked α S G B) (rest : Option α)

/-- What `Arc::ptr_eq` answers along the walks of two nodes' items. -/
structure Sharing (α S G : Type) where
  entries : Nat → Node (α × α) S G → Node (α × α) S G → Bool
  elements : Nat → Node α S G → Node α S G → Bool
  tails : Nat → Node α S G → Node α S G → Bool
  entries_same : ∀ clock one two, entries clock one two = true → one = two
  elements_same : ∀ clock one two, elements clock one two = true → one = two
  tails_same : ∀ clock one two, tails clock one two = true → one = two

variable {α S G : Type} {B : Branching}

namespace HandleKind

/-- The node over the items that the trees hold. -/
def layer : HandleKind α S G B → Layer α
  | .and left right => .and left right
  | .application symbol sortArguments arguments => .application symbol sortArguments arguments
  | .domainValue sort value => .domainValue sort value
  | .var v => .var v
  | .injection source target term => .injection source target term
  | .map d entries rest => .map d entries.items rest
  | .list d heads rest => .list d heads.items (rest.map fun entry => (entry.1, entry.2.items))
  | .set d elements rest => .set d elements.items rest

/-- The trees know how many items they hold. -/
def Counted : HandleKind α S G B → Prop
  | .map _ entries _ => entries.len = entries.items.length
  | .list _ heads rest =>
    heads.len = heads.items.length ∧ ∀ entry ∈ rest, entry.2.len = entry.2.items.length
  | .set _ elements _ => elements.len = elements.items.length
  | _ => True

/-- `variant_rank` -/
def variantRank : HandleKind α S G B → Nat
  | .and _ _ => 0
  | .application _ _ _ => 1
  | .domainValue _ _ => 2
  | .var _ => 3
  | .injection _ _ _ => 4
  | .map _ _ _ => 5
  | .list _ _ _ => 6
  | .set _ _ _ => 7

end HandleKind

/-- Allocated terms: what each handle holds, and the term that it stands for. -/
structure Heap (α S G : Type) (B : Branching) where
  kind : α → HandleKind α S G B
  /-- The hash stored beside the kind, a function of it. -/
  hash : α → Nat
  sharing : α → α → Sharing α S G
  term : α → Term
  term_layer : ∀ a, (term a).layer = (kind a).layer.change term
  counted : ∀ a, (kind a).Counted
  hash_eq : ∀ a b, term a = term b → hash a = hash b

end Heaps

section Owed

variable {α S G : Type} {B : Branching}

/-- `PendingEqual`: two children to compare, or the entries of two maps, the elements of two sets,
the heads or the tails of two lists that their walk gives. -/
inductive PendingEqual (α : Type) where
  | terms (left right : α)
  | entries (pairs : List ((α × α) × (α × α)))
  | elements (pairs : List (α × α))

/-- A comparison that is owed, or one made already. -/
inductive PendingOrder (α : Type) where
  | decided (order : Ordering)
  | owed (comparison : PendingEqual α)

/-- What a comparison taken from the work list puts there in its place, below the two terms to
compare now. -/
def PendingEqual.take : PendingEqual α → Option (α × α) × List (PendingEqual α)
  | .terms left right => (some (left, right), [])
  | .entries [] => (none, [])
  | .entries (((key, value), (otherKey, otherValue)) :: rest) =>
    (some (key, otherKey), [.terms value otherValue, .entries rest])
  | .elements [] => (none, [])
  | .elements ((element, otherElement) :: rest) =>
    (some (element, otherElement), [.elements rest])

/-- `sequence` of `equal_nodes` -/
def pairsOf (left right : List α) : Option (List (PendingEqual α)) :=
  if left.length = right.length then
    some ((left.zip right).map fun pair => .terms pair.1 pair.2)
  else none

/-- `optional` of `equal_nodes` -/
def pairOf : Option α → Option α → Option (List (PendingEqual α))
  | none, none => some []
  | some left, some right => some [.terms left right]
  | _, _ => none

/-- The items of two trees of one length. -/
def itemsOf (shared : Nat → Node α S G → Node α S G → Bool) (left right : Chunked α S G B) :
    Option (PendingEqual α) :=
  if left.len = right.len then some (.elements (Chunked.alignedPairs shared left right)) else none

/-- The middles and the tails of two lists. -/
def middleOf (shared : Nat → Node α S G → Node α S G → Bool) :
    Option (α × Chunked α S G B) → Option (α × Chunked α S G B) → Option (List (PendingEqual α))
  | none, none => some []
  | some (middle, tails), some (otherMiddle, otherTails) =>
    (itemsOf shared tails otherTails).map fun tails => [.terms middle otherMiddle, tails]
  | _, _ => none

/-- `equal_nodes`: the pairs of children in field order, unless other fields differ. -/
def equalNodes (sharing : Sharing α S G) :
    HandleKind α S G B → HandleKind α S G B → Option (List (PendingEqual α))
  | .and leftFirst leftSecond, .and rightFirst rightSecond =>
    some [.terms leftFirst rightFirst, .terms leftSecond rightSecond]
  | .application symbol sortArguments arguments,
      .application otherSymbol otherSortArguments otherArguments =>
    match pairsOf arguments otherArguments with
    | some pairs =>
      if symbol = otherSymbol ∧ sortArguments = otherSortArguments then some pairs else none
    | none => none
  | .domainValue sort value, .domainValue otherSort otherValue =>
    if sort = otherSort ∧ value = otherValue then some [] else none
  | .var v, .var other => if v = other then some [] else none
  | .injection source target term, .injection otherSource otherTarget otherTerm =>
    if source = otherSource ∧ target = otherTarget then some [.terms term otherTerm] else none
  | .map d entries rest, .map otherD otherEntries otherRest =>
    match pairOf rest otherRest with
    | some rest =>
      if d = otherD ∧ entries.len = otherEntries.len then
        some (.entries (Chunked.alignedPairs sharing.entries entries otherEntries) :: rest)
      else none
    | none => none
  | .list d heads rest, .list otherD otherHeads otherRest =>
    match itemsOf sharing.elements heads otherHeads, middleOf sharing.tails rest otherRest with
    | some heads, some rest => if d = otherD then some (heads :: rest) else none
    | _, _ => none
  | .set d elements rest, .set otherD otherElements otherRest =>
    match pairOf rest otherRest with
    | some rest =>
      if d = otherD ∧ elements.len = otherElements.len then
        some (.elements (Chunked.alignedPairs sharing.elements elements otherElements) :: rest)
      else none
    | none => none
  | _, _ => none

/-- `sequence` of `order_nodes`: the pairs, then the lengths. -/
def orderPairsOf (left right : List α) : List (PendingOrder α) :=
  ((left.zip right).map fun pair => .owed (.terms pair.1 pair.2)) ++
    [.decided (compare left.length right.length)]

/-- `optional` of `order_nodes` -/
def orderPairOf : Option α → Option α → List (PendingOrder α)
  | none, none => []
  | none, some _ => [.decided .lt]
  | some _, none => [.decided .gt]
  | some left, some right => [.owed (.terms left right)]

/-- The items of two trees, then their lengths. -/
def orderItemsOf (shared : Nat → Node α S G → Node α S G → Bool) (left right : Chunked α S G B) :
    List (PendingOrder α) :=
  [.owed (.elements (Chunked.alignedPairs shared left right)), .decided (compare left.len right.len)]

/-- The middles and the tails of two lists. -/
def orderMiddleOf (shared : Nat → Node α S G → Node α S G → Bool) :
    Option (α × Chunked α S G B) → Option (α × Chunked α S G B) → List (PendingOrder α)
  | none, none => []
  | none, some _ => [.decided .lt]
  | some _, none => [.decided .gt]
  | some (middle, tails), some (otherMiddle, otherTails) =>
    .owed (.terms middle otherMiddle) :: orderItemsOf shared tails otherTails

/-- `order_nodes`: the comparisons that the derived order makes of two nodes, in order. -/
def orderNodes (sharing : Sharing α S G) :
    HandleKind α S G B → HandleKind α S G B → List (PendingOrder α)
  | .and leftFirst leftSecond, .and rightFirst rightSecond =>
    [.owed (.terms leftFirst rightFirst), .owed (.terms leftSecond rightSecond)]
  | .application symbol sortArguments arguments,
      .application otherSymbol otherSortArguments otherArguments =>
    .decided (compareBy spellSymbol symbol otherSymbol) ::
      .decided (List.compareLex (compareBy spellSort) sortArguments otherSortArguments) ::
        orderPairsOf arguments otherArguments
  | .domainValue sort value, .domainValue otherSort otherValue =>
    [.decided ((compareBy spellSort sort otherSort).then (compareBy spellString value otherValue))]
  | .var v, .var other => [.decided (compareBy spellVariable v other)]
  | .injection source target term, .injection otherSource otherTarget otherTerm =>
    [.decided (compareBy spellSort source otherSource),
      .decided (compareBy spellSort target otherTarget), .owed (.terms term otherTerm)]
  | .map d entries rest, .map otherD otherEntries otherRest =>
    .decided (compareBy spellMapDefinition d otherD) ::
      .owed (.entries (Chunked.alignedPairs sharing.entries entries otherEntries)) ::
        .decided (compare entries.len otherEntries.len) :: orderPairOf rest otherRest
  | .list d heads rest, .list otherD otherHeads otherRest =>
    .decided (compareBy spellListDefinition d otherD) ::
      (orderItemsOf sharing.elements heads otherHeads ++
        orderMiddleOf sharing.tails rest otherRest)
  | .set d elements rest, .set otherD otherElements otherRest =>
    .decided (compareBy spellListDefinition d otherD) ::
      .owed (.elements (Chunked.alignedPairs sharing.elements elements otherElements)) ::
        .decided (compare elements.len otherElements.len) :: orderPairOf rest otherRest
  | left, right => [.decided (compare left.variantRank right.variantRank)]

end Owed

section Turns

variable {α S G : Type} {B : Branching}

/-- The two terms compared now, and the comparisons still owed, the next one first. -/
abbrev Owing (α P : Type) : Type := Option (α × α) × List P

/-- The next comparison from the work list. -/
def popEqual : List (PendingEqual α) → Bool ⊕ Owing α (PendingEqual α)
  | [] => .inl true
  | comparison :: pending => .inr (comparison.take.1, comparison.take.2 ++ pending)

variable [DecidableEq α]

/-- A turn of the loop of `equal_terms_on_work_list`. -/
def Heap.equalTurn (heap : Heap α S G B) :
    Owing α (PendingEqual α) → Bool ⊕ Owing α (PendingEqual α)
  | (none, pending) => popEqual pending
  | (some (left, right), pending) =>
    if left = right then popEqual pending
    else if heap.hash left ≠ heap.hash right then .inl false
    else
      match equalNodes (heap.sharing left right) (heap.kind left) (heap.kind right) with
      | none => .inl false
      | some [] => popEqual pending
      -- The first pair is compared at once, the others wait.
      | some (.terms left right :: pairs) => .inr (some (left, right), pairs.reverse ++ pending)
      | some (items :: pairs) => popEqual (items :: (pairs.reverse ++ pending))

/-- The next comparison from the work list, unless one made there decides. -/
def popOrder : List (PendingOrder α) → Ordering ⊕ Owing α (PendingOrder α)
  | [] => .inl .eq
  | .decided .eq :: pending => .inr (none, pending)
  | .decided order :: _ => .inl order
  | .owed comparison :: pending =>
    .inr (comparison.take.1, comparison.take.2.map PendingOrder.owed ++ pending)

/-- The comparison made already and found equal. -/
def PendingOrder.settled : PendingOrder α → Bool
  | .decided .eq => true
  | _ => false

/-- A turn of the loop of `order_terms_on_work_list`. -/
def Heap.orderTurn (heap : Heap α S G B) :
    Owing α (PendingOrder α) → Ordering ⊕ Owing α (PendingOrder α)
  | (none, pending) => popOrder pending
  | (some (left, right), pending) =>
    if left = right then popOrder pending
    else
      match (orderNodes (heap.sharing left right) (heap.kind left) (heap.kind right)).filter
          fun comparison => !comparison.settled with
      | [] => popOrder pending
      | .decided order :: _ => .inl order
      | .owed (.terms left right) :: comparisons => .inr (some (left, right), comparisons ++ pending)
      | items :: comparisons => popOrder (items :: (comparisons ++ pending))

/-- Push the pairs of children, unless the work left is used up. -/
def pushWithin (work : Nat) (pending : List (PendingEqual α)) :
    List (PendingEqual α) → Option (List (PendingEqual α))
  | [] => some pending
  | child :: children =>
    if pending.length ≥ work then none else pushWithin work (child :: pending) children

/-- The loop of `equal_terms_bounded`, with the pairs of nodes seen: the answer, unless the work
is used up, and the work left. -/
def Heap.equalBounded (heap : Heap α S G B) :
    Nat → List (PendingEqual α) → List (α × α) → Option Bool × Nat
  | work, [], _ => (some true, work)
  | 0, _ :: _, _ => (none, 0)
  | work + 1, .terms left right :: pending, seen =>
    if left = right then heap.equalBounded work pending seen
    else if heap.hash left ≠ heap.hash right then (some false, work)
    else if (left, right) ∈ seen then heap.equalBounded work pending seen
    else
      match equalNodes (heap.sharing left right) (heap.kind left) (heap.kind right) with
      | none => (some false, work)
      | some children =>
        match pushWithin work pending children with
        | none => (none, work)
        | some pending => heap.equalBounded work pending ((left, right) :: seen)
  | work + 1, .entries [] :: pending, seen => heap.equalBounded work pending seen
  | work + 1, .entries (((key, value), (otherKey, otherValue)) :: entries) :: pending, seen =>
    heap.equalBounded work
      (.terms key otherKey :: .terms value otherValue :: .entries entries :: pending) seen
  | work + 1, .elements [] :: pending, seen => heap.equalBounded work pending seen
  | work + 1, .elements ((element, otherElement) :: elements) :: pending, seen =>
    heap.equalBounded work (.terms element otherElement :: .elements elements :: pending) seen

/-- `equal_terms_bounded` -/
def Heap.equalTermsBounded (heap : Heap α S G B) (left right : α) (work : Nat) :
    Option Bool × Nat :=
  heap.equalBounded work [.terms left right] []

end Turns

end KRust.Backend
