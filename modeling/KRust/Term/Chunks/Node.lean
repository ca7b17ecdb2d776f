import KRust.Term.Chunks.SummaryLaws

/-!
The nodes of the chunked sequence, the items below them and the shape the fill
invariant asks of them. Handles are values here: a node is never changed once
built, so sharing one is not observable but through the comparison of handles.
-/

set_option linter.unusedSectionVars false

namespace KRust.Term.Chunks

open KRust.Lib KRust.Lib.Partial

/-- The branching factor `B` of a tree, which the code asserts to be at least 5. -/
structure Branching where
  factor : Nat
  five_le : 5 ≤ factor

namespace Branching

/-- `MIN_FILL`. -/
def minFill (B : Branching) : Nat := (B.factor - 1) / 2

/-- `FILL_TARGET`. -/
def fillTarget (B : Branching) : Nat := (B.minFill + 1 + B.factor) / 2

theorem two_le_minFill (B : Branching) : 2 ≤ B.minFill := by
  have := B.five_le
  unfold minFill
  omega

theorem two_mul_minFill_lt (B : Branching) : 2 * B.minFill < B.factor := by
  have := B.five_le
  unfold minFill
  omega

theorem factor_le (B : Branching) : B.factor ≤ 2 * B.minFill + 2 := by
  unfold minFill
  omega

end Branching

inductive Node (I S G : Type) where
  | leaf (items : List I) (summary : NodeSummary I S G)
  /-- `height` is one more than the children's; a leaf's is 0. -/
  | internal (height : Nat) (children : List (Node I S G)) (summary : NodeSummary I S G)

/-- One node, or two adjacent nodes of one height, in place of a node. -/
abbrev Replacement (I S G : Type) := Node I S G × Option (Node I S G)

def Replacement.nodes {I S G : Type} (replacement : Replacement I S G) : List (Node I S G) :=
  replacement.1 :: replacement.2.toList

/-- A persistent sequence of items; the empty one has no root. -/
structure Chunked (I S G : Type) (B : Branching) where
  root : Option (Node I S G)

namespace Node

variable {I K S G : Type}

def summary : Node I S G → NodeSummary I S G
  | .leaf _ summary => summary
  | .internal _ _ summary => summary

def height : Node I S G → Nat
  | .leaf _ _ => 0
  | .internal height _ _ => height

/-- The number of items of a leaf or of children of an internal node. -/
def width : Node I S G → Nat
  | .leaf items _ => items.length
  | .internal _ children _ => children.length

mutual
/-- The items below a node, in order. -/
def items : Node I S G → List I
  | .leaf items _ => items
  | .internal _ children _ => itemsBelow children
def itemsBelow : List (Node I S G) → List I
  | [] => []
  | child :: rest => child.items ++ itemsBelow rest
end

@[simp] theorem summary_leaf (items : List I) (summary : NodeSummary I S G) :
    (Node.leaf items summary).summary = summary := rfl

@[simp] theorem summary_internal (height : Nat) (children : List (Node I S G))
    (summary : NodeSummary I S G) : (Node.internal height children summary).summary = summary :=
  rfl

@[simp] theorem width_leaf (items : List I) (summary : NodeSummary I S G) :
    (Node.leaf items summary).width = items.length := rfl

@[simp] theorem width_internal (height : Nat) (children : List (Node I S G))
    (summary : NodeSummary I S G) :
    (Node.internal height children summary).width = children.length := rfl

@[simp] theorem height_leaf (items : List I) (summary : NodeSummary I S G) :
    (Node.leaf items summary).height = 0 := rfl

@[simp] theorem height_internal (height : Nat) (children : List (Node I S G))
    (summary : NodeSummary I S G) : (Node.internal height children summary).height = height :=
  rfl

theorem itemsBelow_eq (children : List (Node I S G)) :
    itemsBelow children = children.flatMap items := by
  induction children with
  | nil => rfl
  | cons child rest ih => rw [itemsBelow, ih, List.flatMap_cons]

@[simp] theorem items_leaf (items : List I) (summary : NodeSummary I S G) :
    (Node.leaf items summary).items = items := by
  rw [Node.items]

@[simp] theorem items_internal (height : Nat) (children : List (Node I S G))
    (summary : NodeSummary I S G) :
    (Node.internal height children summary).items = children.flatMap Node.items := by
  rw [Node.items, itemsBelow_eq]

section Builders

variable [Item I K S G] [LinearOrder K] [Summary S] [Group G]

/-- `Node::leaf`. -/
def newLeaf (items : List I) : Option (Node I S G) := do
  return .leaf items (← NodeSummary.ofItems items)

/-- `Node::internal`. -/
def newInternal (height : Nat) (children : List (Node I S G)) : Option (Node I S G) := do
  return .internal height children (← NodeSummary.ofChildren (children.map summary))

def leafWith (items : List I) (group : G) : Option (Node I S G) := do
  return .leaf items (← NodeSummary.ofItemsWith items group)

/-- A leaf in place of the leaf `old`, of whose items all but the first `kept.1`
and the last `kept.2` are replaced. -/
def leafEdited (old : Node I S G) (items : List I) (kept : Nat × Nat) (group : G) :
    Option (Node I S G) :=
  match old with
  | .leaf oldItems summary => do
      return .leaf items (← NodeSummary.ofEditedItems oldItems summary items kept group)
  | .internal _ _ _ => none

def internalWith (height : Nat) (children : List (Node I S G)) (group : G) :
    Option (Node I S G) := do
  return .internal height children (← NodeSummary.ofChildrenWith (children.map summary) group)

end Builders

section Shape

variable {M A : Type} [Item I K S G] [LinearOrder K] [Summary S] [Group G]
  [AddMonoid M] [AddCancelCommMonoid A] [LawfulSummary S M] [LawfulGroup G A]

/-- The node has height `h` and at most `B` items or children, every node below
it lies within the fill bounds, and every summary is the one from scratch. The
node itself may hold fewer than the minimum. -/
def Shaped (B : Branching) : Nat → Node I S G → Prop
  | 0, .leaf items summary => items.length ≤ B.factor ∧ Summarizes summary items
  | h + 1, .internal height children summary =>
      height = h + 1 ∧ children.length ≤ B.factor ∧ children ≠ [] ∧
        (∀ child ∈ children, Shaped B h child ∧ B.minFill ≤ child.width) ∧
        Summarizes summary (children.flatMap Node.items)
  | _, _ => False

/-- A shaped node with enough items or children to lie below another. -/
structure Full (B : Branching) (h : Nat) (node : Node I S G) : Prop where
  shaped : node.Shaped B h
  wide : B.minFill ≤ node.width

variable {B : Branching} {h : Nat} {node : Node I S G}

/-- A shaped node of height 0 is a leaf. -/
theorem Shaped.leaf_of_zero (hnode : node.Shaped B 0) :
    ∃ items summary, node = .leaf items summary ∧ items.length ≤ B.factor ∧
      Summarizes summary items := by
  cases node with
  | leaf items summary => exact ⟨items, summary, rfl, hnode⟩
  | internal height children summary => exact hnode.elim

/-- A shaped node of positive height is internal. -/
theorem Shaped.internal_of_succ (hnode : node.Shaped B (h + 1)) :
    ∃ children summary, node = .internal (h + 1) children summary ∧
      children.length ≤ B.factor ∧ children ≠ [] ∧ (∀ child ∈ children, Full B h child) ∧
      Summarizes summary (children.flatMap Node.items) := by
  cases node with
  | leaf items summary => exact hnode.elim
  | internal height children summary =>
    obtain ⟨rfl, hlen, hne, hchildren, hsummary⟩ := hnode
    exact ⟨children, summary, rfl, hlen, hne,
      fun child hchild => ⟨(hchildren child hchild).1, (hchildren child hchild).2⟩, hsummary⟩

theorem shaped_internal {children : List (Node I S G)} {summary : NodeSummary I S G}
    (hlen : children.length ≤ B.factor) (hne : children ≠ [])
    (hchildren : ∀ child ∈ children, Full B h child)
    (hsummary : Summarizes summary (children.flatMap Node.items)) :
    (Node.internal (h + 1) children summary).Shaped B (h + 1) :=
  ⟨rfl, hlen, hne, fun child hchild =>
    ⟨(hchildren child hchild).shaped, (hchildren child hchild).wide⟩, hsummary⟩

theorem Shaped.height_eq (hnode : node.Shaped B h) : node.height = h := by
  cases h with
  | zero =>
    obtain ⟨items, summary, rfl, _⟩ := hnode.leaf_of_zero
    rfl
  | succ h =>
    obtain ⟨children, summary, rfl, _⟩ := hnode.internal_of_succ
    rfl

theorem Shaped.width_le (hnode : node.Shaped B h) : node.width ≤ B.factor := by
  cases h with
  | zero =>
    obtain ⟨items, summary, rfl, hlen, _⟩ := hnode.leaf_of_zero
    exact hlen
  | succ h =>
    obtain ⟨children, summary, rfl, hlen, _⟩ := hnode.internal_of_succ
    exact hlen

theorem Shaped.summarizes (hnode : node.Shaped B h) : Summarizes node.summary node.items := by
  cases h with
  | zero =>
    obtain ⟨items, summary, rfl, _, hsummary⟩ := hnode.leaf_of_zero
    simpa using hsummary
  | succ h =>
    obtain ⟨children, summary, rfl, _, _, _, hsummary⟩ := hnode.internal_of_succ
    simpa using hsummary

theorem Shaped.fits (hnode : node.Shaped B h) : Fits node.items := hnode.summarizes.fits

theorem Shaped.count_eq (hnode : node.Shaped B h) : node.summary.count = node.items.length :=
  hnode.summarizes.count

theorem Shaped.group_eq (hnode : node.Shaped B h) :
    LawfulSummary.value node.summary.group = (groupValue node.items : A) :=
  hnode.summarizes.group

/-- A node below another holds at least as many items as its fill asks. -/
theorem Full.length_items (hnode : Full B h node) :
    B.minFill * B.minFill ^ h ≤ node.items.length := by
  induction h generalizing node with
  | zero =>
    obtain ⟨items, summary, rfl, _⟩ := hnode.shaped.leaf_of_zero
    simpa using hnode.wide
  | succ h ih =>
    obtain ⟨children, summary, rfl, _, _, hchildren, _⟩ := hnode.shaped.internal_of_succ
    have hsum : ∀ nodes : List (Node I S G), (∀ child ∈ nodes, Full B h child) →
        nodes.length * (B.minFill * B.minFill ^ h) ≤ (nodes.flatMap Node.items).length := by
      intro nodes hnodes
      induction nodes with
      | nil => simp
      | cons child rest ihrest =>
        have hchild := ih (hnodes child (by simp))
        have hrest := ihrest fun c hc => hnodes c (by simp [hc])
        simp only [List.length_cons, List.flatMap_cons, List.length_append, Nat.add_mul, one_mul]
        omega
    have hwide : B.minFill ≤ children.length := hnode.wide
    calc
      B.minFill * B.minFill ^ (h + 1) = B.minFill * (B.minFill * B.minFill ^ h) := by
        rw [pow_succ']
      _ ≤ children.length * (B.minFill * B.minFill ^ h) := Nat.mul_le_mul_right _ hwide
      _ ≤ (children.flatMap Node.items).length := hsum children hchildren
      _ = _ := by simp

theorem Full.items_ne_nil (hnode : Full B h node) : node.items ≠ [] := by
  have hlen := hnode.length_items
  have hpos : 0 < B.minFill * B.minFill ^ h := by
    have := B.two_le_minFill
    positivity
  intro hnil
  rw [hnil, List.length_nil] at hlen
  omega

theorem newLeaf_yields (items : List I) (hlen : items.length ≤ B.factor) :
    Yields (Fits items) (newLeaf items)
      (fun node => node.Shaped B 0 ∧ node.width = items.length ∧ node.items = items) := by
  unfold newLeaf
  exact (NodeSummary.ofItems_yields items).bind fun summary hsummary =>
    ⟨⟨hlen, hsummary⟩, rfl, by simp⟩

theorem leafWith_yields (items : List I) (group : G) (hlen : items.length ≤ B.factor)
    (hgroup : LawfulSummary.value group = (groupValue items : A)) :
    Yields (Fits items) (leafWith items group)
      (fun node => node.Shaped B 0 ∧ node.width = items.length ∧ node.items = items) := by
  unfold leafWith
  exact (NodeSummary.ofItemsWith_yields items group hgroup).bind fun summary hsummary =>
    ⟨⟨hlen, hsummary⟩, rfl, by simp⟩

theorem leafEdited_yields (keep removed added tail : List I) (summary : NodeSummary I S G)
    (group : G) (hlen : (keep ++ added ++ tail).length ≤ B.factor)
    (hsummary : Summarizes summary (keep ++ removed ++ tail))
    (hgroup : LawfulSummary.value group = (groupValue (keep ++ added ++ tail) : A)) :
    Yields (Fits (keep ++ added ++ tail))
      (leafEdited (.leaf (keep ++ removed ++ tail) summary) (keep ++ added ++ tail)
        (keep.length, tail.length) group)
      (fun node => node.Shaped B 0 ∧ node.width = (keep ++ added ++ tail).length ∧
        node.items = keep ++ added ++ tail) := by
  unfold leafEdited
  exact (NodeSummary.ofEditedItems_yields keep removed added tail summary hsummary group
    hgroup).bind fun result hresult => ⟨⟨hlen, hresult⟩, rfl, by simp⟩

theorem children_summarize {children : List (Node I S G)}
    (hchildren : ∀ child ∈ children, Full B h child) :
    ∀ child ∈ children, Summarizes child.summary child.items ∧ child.items ≠ [] :=
  fun child hchild =>
    ⟨(hchildren child hchild).shaped.summarizes, (hchildren child hchild).items_ne_nil⟩

theorem internalWith_yields (children : List (Node I S G)) (group : G)
    (hlen : children.length ≤ B.factor) (hne : children ≠ [])
    (hchildren : ∀ child ∈ children, Full B h child)
    (hgroup : LawfulSummary.value group = (groupValue (children.flatMap Node.items) : A)) :
    Yields (Fits (children.flatMap Node.items)) (internalWith (h + 1) children group)
      (fun node => node.Shaped B (h + 1) ∧ node.width = children.length ∧
        node.items = children.flatMap Node.items) := by
  unfold internalWith
  exact (NodeSummary.ofChildrenWith_yields summary Node.items children
    (children_summarize hchildren) group hgroup).bind fun result hresult =>
      ⟨shaped_internal hlen hne hchildren hresult, rfl, by simp⟩

/-- The group summaries of children fold to that of the items below them. -/
theorem foldGroups_children_yields (children : List (Node I S G))
    (hchildren : ∀ child ∈ children, Full B h child) :
    Yields (Fits (children.flatMap Node.items))
      (foldGroups ((children.map summary).map (·.group)))
      (fun group =>
        LawfulSummary.value group = (groupValue (children.flatMap Node.items) : A)) := by
  have hvalue : ((children.map summary).map (·.group)).map LawfulSummary.value =
      children.map fun child => (groupValue child.items : A) := by
    rw [List.map_map, List.map_map]
    exact List.map_congr_left fun child hchild => (hchildren child hchild).shaped.group_eq
  have hsum : (children.map fun child => (groupValue child.items : A)).sum =
      groupValue (children.flatMap Node.items) := by
    clear hchildren hvalue
    induction children with
    | nil => rfl
    | cons child rest ih => simp [ih]
  have hfold := foldGroups_yields ((children.map summary).map (·.group))
  rw [hvalue, hsum] at hfold
  exact hfold.mono Fits.group fun _ hgroup => hgroup

theorem newInternal_yields (children : List (Node I S G)) (hlen : children.length ≤ B.factor)
    (hne : children ≠ []) (hchildren : ∀ child ∈ children, Full B h child) :
    Yields (Fits (children.flatMap Node.items)) (newInternal (h + 1) children)
      (fun node => node.Shaped B (h + 1) ∧ node.width = children.length ∧
        node.items = children.flatMap Node.items) := by
  unfold newInternal NodeSummary.ofChildren
  refine Yields.bind (Yields.bind (foldGroups_children_yields children hchildren)
    fun group hgroup => NodeSummary.ofChildrenWith_yields summary Node.items children
      (children_summarize hchildren) group hgroup) fun result hresult => ?_
  exact ⟨shaped_internal hlen hne hchildren hresult, rfl, by simp⟩

end Shape

end Node

end KRust.Term.Chunks
