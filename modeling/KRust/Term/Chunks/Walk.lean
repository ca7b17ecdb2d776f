import KRust.Term.Chunks.EditLaws

/-!
Reading a tree: the item at a position, and the iterator over a range of positions,
which walks from either end on its own and counts the items left.
-/

set_option linter.unusedSectionVars false

namespace KRust.Term.Chunks

open KRust.Lib KRust.Lib.Partial

variable {I K S G : Type} {B : Branching}

section Definitions

/-- `slot_of`: the child holding position `index`, which lies below their count. -/
def slotOf : List (Node I S G) → Nat → Option (Nat × Nat)
  | [], _ => none
  | child :: rest, index =>
    if index < child.summary.count then some (0, index)
    else do
      let (slot, offset) ← slotOf rest (index - child.summary.count)
      return (slot + 1, offset)

/-- The loop of `get`; without a child holding the position it would not end. -/
def getFrom (node : Node I S G) (index : Nat) : Option (Option I) :=
  match node with
  | .leaf items _ => some items[index]?
  | .internal _ children _ => do
    let (slot, offset) ← slotOf children index
    match _hchild : children[slot]? with
    | none => none
    | some child => getFrom child offset
termination_by node
decreasing_by
  have := List.sizeOf_lt_of_mem (List.mem_of_getElem? _hchild)
  simp_wf
  omega

def get (tree : Chunked I S G B) (index : Nat) : Option (Option I) :=
  match tree.root with
  | none => some none
  | some root => if index ≥ root.summary.count then some none else getFrom root index

/-- The first or the last of a slice, and the slice without it. -/
def takeEnd {α : Type} (back : Bool) (xs : List α) : Option (α × List α) :=
  if back then xs.getLast?.map fun x => (x, xs.dropLast) else xs.head?.map fun x => (x, xs.tail)

theorem sizeOf_takeEnd {α : Type} [SizeOf α] {back : Bool} {xs rest : List α} {x : α}
    (h : takeEnd back xs = some (x, rest)) : sizeOf x + sizeOf rest < sizeOf xs := by
  have hsnoc : ∀ ys : List α, sizeOf x + sizeOf ys < sizeOf (ys ++ [x]) := by
    intro ys
    induction ys with
    | nil => simp
    | cons y ys ih =>
      simp only [List.cons_append, List.cons.sizeOf_spec]
      omega
  cases back with
  | true =>
    rcases List.eq_nil_or_concat xs with rfl | ⟨ys, y, rfl⟩
    · simp [takeEnd] at h
    · simp only [takeEnd, if_true, List.concat_eq_append, List.getLast?_concat,
        List.dropLast_concat, Option.map_some, Option.some.injEq, Prod.mk.injEq] at h
      obtain ⟨rfl, rfl⟩ := h
      rw [List.concat_eq_append]
      exact hsnoc _
  | false =>
    cases xs with
    | nil => simp [takeEnd] at h
    | cons y ys =>
      simp only [takeEnd, Bool.false_eq_true, if_false, List.head?_cons, List.tail_cons,
        Option.map_some, Option.some.injEq, Prod.mk.injEq] at h
      obtain ⟨rfl, rfl⟩ := h
      simp

/-- The items of a tree in order, from either end. A stack holds the siblings left
at each level, innermost first. -/
structure Iter (I S G : Type) where
  front : List (List (Node I S G))
  frontItems : List I
  back : List (List (Node I S G))
  backItems : List I
  remaining : Nat

/-- One end of the iterator moves to its next item, descending into the next node
when its leaf has no item left. -/
def advance (back : Bool) (items : List I) (stack : List (List (Node I S G))) :
    Option (I × List I × List (List (Node I S G))) :=
  match takeEnd back items with
  | some (item, rest) => some (item, rest, stack)
  | none =>
    match stack with
    | [] => none
    | nodes :: outer =>
      match _hnext : takeEnd back nodes with
      | none => advance back items outer
      | some (.leaf items _, rest) => advance back items (rest :: outer)
      | some (.internal _ children _, rest) => advance back items (children :: rest :: outer)
termination_by sizeOf stack
decreasing_by
  · simp only [List.cons.sizeOf_spec]
    omega
  · have := sizeOf_takeEnd _hnext
    simp only [List.cons.sizeOf_spec]
    omega
  · have := sizeOf_takeEnd _hnext
    simp only [List.cons.sizeOf_spec, Node.internal.sizeOf_spec] at this ⊢
    omega

namespace Iter

/-- `Iter::new`. -/
def new (root : Option (Node I S G)) : Iter I S G :=
  match root with
  | none => ⟨[], [], [], [], 0⟩
  | some (.leaf items summary) => ⟨[], items, [], items, summary.count⟩
  | some (.internal _ children summary) => ⟨[children], [], [children], [], summary.count⟩

/-- `next` and `next_back`. -/
def step (back : Bool) (iter : Iter I S G) : Option (Option I × Iter I S G) :=
  if iter.remaining = 0 then some (none, iter)
  else if back then do
    let (item, items, stack) ← advance true iter.backItems iter.back
    return (some item, { iter with
      back := stack, backItems := items, remaining := iter.remaining - 1 })
  else do
    let (item, items, stack) ← advance false iter.frontItems iter.front
    return (some item, { iter with
      front := stack, frontItems := items, remaining := iter.remaining - 1 })

def next (iter : Iter I S G) : Option (Option I × Iter I S G) := iter.step false

def nextBack (iter : Iter I S G) : Option (Option I × Iter I S G) := iter.step true

/-- The loops of `between`: one end descends to position `index`, keeping the
siblings beside its path. -/
def descend (back : Bool) (node : Node I S G) (index : Nat) (stack : List (List (Node I S G))) :
    Option (List (List (Node I S G)) × List I) :=
  match node with
  | .leaf items _ =>
    if index < items.length then
      some (stack, if back then items.take (index + 1) else items.drop index)
    else none
  | .internal _ children _ => do
    let (slot, offset) ← slotOf children index
    match _hchild : children[slot]? with
    | none => none
    | some child =>
      let beside := if back then children.take slot else children.drop (slot + 1)
      descend back child offset (beside :: stack)
termination_by node
decreasing_by
  have := List.sizeOf_lt_of_mem (List.mem_of_getElem? _hchild)
  simp_wf
  omega

/-- `Iter::between`. -/
def between (root : Option (Node I S G)) (start stop : Nat) : Option (Iter I S G) := do
  let remaining ← checkedSub stop start
  match root with
  | none => return ⟨[], [], [], [], remaining⟩
  | some root =>
    if start < stop then do
      let (front, frontItems) ← descend false root start []
      let (back, backItems) ← descend true root (stop - 1) []
      return ⟨front, frontItems, back, backItems, remaining⟩
    else return ⟨[], [], [], [], remaining⟩

/-- All the items left, from the front. -/
def collect (iter : Iter I S G) : Option (List I) :=
  loop iter.remaining iter
where
  loop : Nat → Iter I S G → Option (List I)
    | 0, _ => some []
    | left + 1, iter => do
      let (item, iter) ← iter.next
      match item with
      | none => return []
      | some item => return item :: (← loop left iter)

/-- What a run of calls answers, each from the end `back` names. -/
def run : List Bool → Iter I S G → Option (List (Option I))
  | [], _ => some []
  | back :: more, iter => do
    let (answer, iter) ← iter.step back
    return answer :: (← run more iter)

end Iter

/-- `std::ops::Bound`. -/
inductive Bound where
  | included (position : Nat)
  | excluded (position : Nat)
  | unbounded

/-- The first position of a range. -/
def Bound.start : Bound → Option Nat
  | .included position => some position
  | .excluded position => checkedAdd position 1
  | .unbounded => some 0

/-- The position after the last of a range. -/
def Bound.stop (length : Nat) : Bound → Option Nat
  | .included position => checkedAdd position 1
  | .excluded position => some position
  | .unbounded => some length

def range (tree : Chunked I S G B) (start stop : Bound) : Option (Iter I S G) := do
  let start ← start.start
  let stop ← stop.stop tree.len
  if start ≤ stop ∧ stop ≤ tree.len then Iter.between tree.root start stop else none

def iter (tree : Chunked I S G B) : Iter I S G := Iter.new tree.root

/-- `to_vec`. -/
def toVec (tree : Chunked I S G B) : Option (List I) := (iter tree).collect

/-- `slice::partition_point`, for a test that holds of a prefix and of nothing after. -/
def partitionSlice {α : Type} (before : α → Bool) (xs : List α) : Nat :=
  (xs.takeWhile before).length

/-- The loop of `partition_point`, from the node whose items start at `position`. -/
def partitionFrom (before : I → Bool) (node : Node I S G) (position : Nat) : Option Nat :=
  match node with
  | .leaf items _ => some (position + partitionSlice before items)
  | .internal _ children _ => do
    let tests ← children.mapM fun child => child.summary.last.map before
    let slot := partitionSlice id tests
    let position := position + ((children.take slot).map fun child => child.summary.count).sum
    match _hchild : children[slot]? with
    | none => some position
    | some child => partitionFrom before child position
termination_by node
decreasing_by
  have := List.sizeOf_lt_of_mem (List.mem_of_getElem? _hchild)
  simp_wf
  omega

def partitionPoint (tree : Chunked I S G B) (before : I → Bool) : Option Nat :=
  match tree.root with
  | none => some 0
  | some root => partitionFrom before root 0

end Definitions

end KRust.Term.Chunks
