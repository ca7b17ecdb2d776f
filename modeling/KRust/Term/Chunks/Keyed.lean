import KRust.Term.Chunks.JoinLaws
import KRust.Term.Chunks.WalkLaws

/-!
Edits of a sequence ordered by key with one item per key, a batch at a time: the
items of the batch's keys are merged with the batch's (`add_by_key`) or reduced by
them (`reduce_by_key`). Such sequences keep no group summary.
-/

set_option linter.unusedSectionVars false

namespace KRust.Term.Chunks

open KRust.Lib KRust.Lib.Partial

variable {I K S G : Type} {B : Branching}

section Definitions

variable [Item I K S G] [LinearOrder K] [Summary S] [Group G]

def firstKey (child : Node I S G) : Option K := child.summary.first.map Item.key

/-- `batch_parts` from the child `start` on: each part with its child's slot. -/
def batchParts (children : List (Node I S G)) (start : Nat) (batch : List I) :
    Option (List (Nat × List I)) :=
  match batch with
  | [] => some []
  | item :: _ =>
    if _hstart : start + 1 ≤ children.length then do
      let firsts ← (children.drop (start + 1)).mapM firstKey
      let slot := start + partitionSlice (fun first => decide (first ≤ Item.key item)) firsts
      let stop ←
        (match children[slot + 1]? with
        | none => some batch.length
        | some next => do
          let first ← firstKey next
          return partitionSlice (fun item => decide (Item.key item < first)) batch : Option _)
      let parts ← batchParts children (slot + 1) (batch.drop stop)
      return (slot, batch.take stop) :: parts
    else none
termination_by children.length - start

/-- The loops of `add_into` and `reduce_in` over a leaf: what is written, what is left
of the leaf, and how many of its first items are kept. -/
structure LeafEdit (I : Type) where
  written : List I
  rest : List I
  keptFirst : Option Nat

/-- One item of the batch: the leaf's item of its key, if there is one, becomes `both`
of the two; the item of a key the leaf does not hold becomes `only` of it. -/
def editLeafItem (both : I → I → Option (List I)) (only : I → Option (List I))
    (edit : LeafEdit I) (new : I) : Option (LeafEdit I) := do
  let before := partitionSlice (fun item => decide (Item.key item < Item.key new)) edit.rest
  let written := edit.written ++ edit.rest.take before
  let keptFirst := some (edit.keptFirst.getD written.length)
  let rest := edit.rest.drop before
  match rest with
  | [] => return { written := written ++ (← only new), rest, keptFirst }
  | held :: after =>
    if Item.key held = Item.key new then
      return { written := written ++ (← both held new), rest := after, keptFirst }
    else return { written := written ++ (← only new), rest, keptFirst }

/-- The whole loop: the items written, and how many first and last items of the leaf
are kept. -/
def editLeaf (both : I → I → Option (List I)) (only : I → Option (List I)) (items batch : List I) :
    Option (List I × Nat × Nat) := do
  let edit ← batch.foldlM (editLeafItem both only) { written := [], rest := items, keptFirst := none }
  return (edit.written ++ edit.rest, edit.keptFirst.getD 0, edit.rest.length)

mutual
/-- `add_into`. -/
def addInto (B : Branching) (merge : I → I → Option I) (node : Node I S G) (added : List I) :
    Option (List (Node I S G)) :=
  match node with
  | .leaf items summary => do
    let (merged, kept) ← editLeaf (fun held new => return [← merge held new])
      (fun new => some [new]) items added
    if merged.length ≤ B.factor then
      return [← Node.leafEdited (.leaf items summary) merged kept Summary.identity]
    else cut B merged Summary.identity Item.group Node.leafWith
  | .internal height children _ => do
    let parts ← batchParts children 0 added
    let united ← addParts B merge children parts 0
    cut B united Summary.identity childGroup (Node.internalWith height)
termination_by (sizeOf node, 0)
/-- The loop of `add_into` over the parts, the children before `next` being done. -/
def addParts (B : Branching) (merge : I → I → Option I) (children : List (Node I S G))
    (parts : List (Nat × List I)) (next : Nat) : Option (List (Node I S G)) :=
  match parts with
  | [] => some (children.drop next)
  | (slot, part) :: parts =>
    match _hchild : children[slot]? with
    | none => none
    | some child => do
      let nodes ← addInto B merge child part
      let later ← addParts B merge children parts (slot + 1)
      return (children.take slot).drop next ++ nodes ++ later
termination_by (sizeOf children, parts.length + 1)
decreasing_by
  · have := List.sizeOf_lt_of_mem (List.mem_of_getElem? _hchild)
    exact Prod.Lex.left _ _ this
  · exact Prod.Lex.right _ (by simp)
end

/-- `add_by_key`. -/
def addByKey (tree : Chunked I S G B) (added : List I) (merge : I → I → Option I) :
    Option (Chunked I S G B) :=
  if added.isEmpty then some tree
  else
    match tree.root with
    | none => fromVec B added
    | some root => do treeOver B root.height (← addInto B merge root added) Summary.identity

/-- Whether a node is lower than its siblings or holds fewer than the minimum. -/
def short (B : Branching) (level : Nat) (node : Node I S G) : Bool :=
  node.height < level || node.width < B.minFill

/-- The closure `join_last` of `reduce_in`: two full nodes below the children's level
become one node a level up. -/
def joinLast (B : Branching) (level : Nat) (kept : List (Node I S G)) (next : Node I S G) :
    Option (List (Node I S G)) := do
  let last ← kept.getLast?
  let kept := kept.dropLast
  match ← joinNodes B last next with
  | (one, some two) =>
    if one.height < level then
      return kept ++ [← Node.internalWith (one.height + 1) [one, two] Summary.identity]
    else return kept ++ [one, two]
  | (one, none) => return kept ++ [one]

/-- The closure `take` of `reduce_in`. -/
def takeChild (B : Branching) (level : Nat) (kept : List (Node I S G)) (child : Node I S G) :
    Option (List (Node I S G)) :=
  match kept.getLast? with
  | some last =>
    if short B level last || short B level child then joinLast B level kept child
    else some (kept ++ [child])
  | none => some (kept ++ [child])

/-- The end of `reduce_in`: a short last node is joined to the one before it. -/
def joinShortLast (B : Branching) (level : Nat) (kept : List (Node I S G)) :
    Option (List (Node I S G)) :=
  match kept.getLast? with
  | some last =>
    if 1 < kept.length ∧ short B level last then joinLast B level kept.dropLast last else some kept
  | none => some kept

mutual
/-- `reduce_in`. -/
def reduceIn (B : Branching) (reduce : I → I → Option (Option I)) (node : Node I S G)
    (reduced : List I) : Option (Option (Node I S G)) :=
  match node with
  | .leaf items summary => do
    let (left, kept) ← editLeaf (fun held old => return (← reduce held old).toList)
      (fun _ => none) items reduced
    if left.isEmpty then return none
    else return some (← Node.leafEdited (.leaf items summary) left kept Summary.identity)
  | .internal height children _ => do
    let level ← checkedSub height 1
    let parts ← batchParts children 0 reduced
    let kept ← reduceParts B reduce level children parts 0 []
    let kept ← joinShortLast B level kept
    match kept with
    | [] => return none
    | [child] => return some child
    | kept => return some (← Node.internalWith height kept Summary.identity)
termination_by (sizeOf node, 0)
/-- The loop of `reduce_in` over the parts, the children before `next` being taken. -/
def reduceParts (B : Branching) (reduce : I → I → Option (Option I)) (level : Nat)
    (children : List (Node I S G)) (parts : List (Nat × List I)) (next : Nat)
    (kept : List (Node I S G)) : Option (List (Node I S G)) :=
  match parts with
  | [] => (children.drop next).foldlM (takeChild B level) kept
  | (slot, part) :: parts =>
    match _hchild : children[slot]? with
    | none => none
    | some child => do
      let kept ← ((children.take slot).drop next).foldlM (takeChild B level) kept
      let reduced ← reduceIn B reduce child part
      let kept ← reduced.toList.foldlM (takeChild B level) kept
      reduceParts B reduce level children parts (slot + 1) kept
termination_by (sizeOf children, parts.length + 1)
decreasing_by
  · have := List.sizeOf_lt_of_mem (List.mem_of_getElem? _hchild)
    exact Prod.Lex.left _ _ this
  · exact Prod.Lex.right _ (by simp)
end

/-- `reduce_by_key`. -/
def reduceByKey (tree : Chunked I S G B) (reduced : List I) (reduce : I → I → Option (Option I)) :
    Option (Chunked I S G B) :=
  if reduced.isEmpty then some tree
  else
    match tree.root with
    | none => none
    | some root => do
      match ← reduceIn B reduce root reduced with
      | none => return Chunked.new
      | some root => rooted B root

end Definitions

end KRust.Term.Chunks
