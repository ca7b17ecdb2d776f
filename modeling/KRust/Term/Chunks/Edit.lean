import KRust.Term.Chunks.Root

/-!
Edits at a position: inserting and removing one item, joining two trees and
splitting one. Each keeps the representation invariant and does to the item
sequence what its name says.
-/

set_option linter.unusedSectionVars false

namespace KRust.Term.Chunks

open KRust.Lib KRust.Lib.Partial

variable {I K S G : Type} {B : Branching}

/-- `locate`: the child holding position `index`, and the position within it; the
end of all of them is the end of the last child. -/
def locate : List (Node I S G) → Nat → Option (Nat × Nat)
  | [], _ => none
  | [_], index => some (0, index)
  | child :: rest, index =>
    if index < child.summary.count then some (0, index)
    else do
      let (slot, offset) ← locate rest (index - child.summary.count)
      return (slot + 1, offset)

/-- Where the second node of a replacement goes when it has one. -/
def insertSecond (children : List (Node I S G)) (slot : Nat) (second : Option (Node I S G)) :
    List (Node I S G) :=
  match second with
  | none => children
  | some node => children.insertIdx slot node

section Definitions

variable [Item I K S G] [LinearOrder K] [Summary S] [Group G]

/-- `pack_items`. -/
def packItems (B : Branching) (items : List I) (group : G) : Option (Replacement I S G) :=
  pack B items group Item.group Node.leafWith

/-- `pack_children`. -/
def packChildren (B : Branching) (height : Nat) (children : List (Node I S G)) (group : G) :
    Option (Replacement I S G) :=
  pack B children group childGroup (Node.internalWith height)

/-- `concatenate`: the contents of two adjacent nodes of one height. -/
def concatenate (B : Branching) (left right : Node I S G) : Option (Replacement I S G) := do
  let group ← Summary.combine left.summary.group right.summary.group
  match left, right with
  | .leaf l _, .leaf r _ => packItems B (l ++ r) group
  | .internal height l _, .internal _ r _ => packChildren B height (l ++ r) group
  | _, _ => none

/-- `insert_into`: every node on the path gains `added` in its group summary. -/
def insertInto (B : Branching) (node : Node I S G) (index : Nat) (item : I) (added : G) :
    Option (Replacement I S G) := do
  let group ← Summary.combine node.summary.group added
  match node with
  | .leaf items summary =>
    let kept := (index, ← checkedSub items.length index)
    let inserted := items.insertIdx index item
    if inserted.length ≤ B.factor then
      return (← Node.leafEdited (.leaf items summary) inserted kept group, none)
    else packItems B inserted group
  | .internal height children _ =>
    let (slot, offset) ← locate children index
    match _hchild : children[slot]? with
    | none => none
    | some child =>
      let (left, right) ← insertInto B child offset item added
      packChildren B height (insertSecond (children.set slot left) (slot + 1) right) group
termination_by node
decreasing_by
  have := List.sizeOf_lt_of_mem (List.mem_of_getElem? _hchild)
  simp_wf
  omega

/-- `insert_at`. -/
def insertAt (tree : Chunked I S G B) (index : Nat) (item : I) : Option (Chunked I S G B) :=
  if index ≤ tree.len then
    match tree.root with
    | none => do rooted B (← Node.newLeaf [item])
    | some root => do
      let added := Item.group item
      let replacement ← insertInto B root index item added
      rooted B (← grow replacement (Summary.combine root.summary.group added))
  else none

/-- The children with `child` back at `slot` after a removal below it: a child left
short is packed with its sibling, `left` being the first of the two. -/
def repair (B : Branching) (children : List (Node I S G)) (slot : Nat) (child : Node I S G) :
    Option (List (Node I S G)) :=
  if child.width ≥ B.minFill then some (children.set slot child)
  else if slot + 1 < children.length then do
    let replacement ← concatenate B child (← children[slot + 1]?)
    some (children.take slot ++ replacement.nodes ++ children.drop (slot + 2))
  else do
    let left ← checkedSub slot 1
    let replacement ← concatenate B (← children[left]?) child
    some (children.take left ++ replacement.nodes ++ children.drop (left + 2))

/-- `remove_from`: the node without the item at `index`, that item, and its group
summary, which every node on the path loses. -/
def removeFrom (B : Branching) (node : Node I S G) (index : Nat) :
    Option (Node I S G × I × G) :=
  match node with
  | .leaf items summary => do
    let kept := (index, ← checkedSub items.length (index + 1))
    let item ← items[index]?
    let removed := Item.group item
    let group ← Group.subtract summary.group removed
    return (← Node.leafEdited (.leaf items summary) (items.eraseIdx index) kept group,
      item, removed)
  | .internal height children summary => do
    let (slot, offset) ← locate children index
    match _hchild : children[slot]? with
    | none => none
    | some child =>
      let (child, item, removed) ← removeFrom B child offset
      let children ← repair B children slot child
      let group ← Group.subtract summary.group removed
      return (← Node.internalWith height children group, item, removed)
termination_by node
decreasing_by
  have := List.sizeOf_lt_of_mem (List.mem_of_getElem? _hchild)
  simp_wf
  omega

/-- `remove_at`. -/
def removeAt (tree : Chunked I S G B) (index : Nat) : Option (Chunked I S G B × I) :=
  if index < tree.len then do
    let root ← tree.root
    let (root, item, _) ← removeFrom B root index
    match root with
    | .leaf [] _ => return (Chunked.new, item)
    | .internal _ [child] _ => return (← rooted B child, item)
    | root => return (← rooted B root, item)
  else none

/-- `join_nodes`: the items below `left` followed by those below `right`, as nodes
of the taller one's height. -/
def joinNodes (B : Branching) (left right : Node I S G) : Option (Replacement I S G) :=
  match compare left.height right.height with
  | .eq =>
    if left.width ≥ B.minFill ∧ right.width ≥ B.minFill then some (left, some right)
    else concatenate B left right
  | .gt =>
    match left with
    | .leaf _ _ => none
    | .internal height children summary =>
      match _hlast : children.getLast? with
      | none => none
      | some last => do
        let (one, two) ← joinNodes B last right
        let group ← Summary.combine summary.group right.summary.group
        packChildren B height (children.set (children.length - 1) one ++ two.toList) group
  | .lt =>
    match right with
    | .leaf _ _ => none
    | .internal height children summary =>
      match _hfirst : children.head? with
      | none => none
      | some first => do
        let (one, two) ← joinNodes B left first
        let group ← Summary.combine left.summary.group summary.group
        packChildren B height (insertSecond (children.set 0 one) 1 two) group
termination_by sizeOf left + sizeOf right
decreasing_by
  · have := List.sizeOf_lt_of_mem (List.mem_of_getLast? _hlast)
    simp_wf
    omega
  · have := List.sizeOf_lt_of_mem (List.mem_of_head? _hfirst)
    simp_wf
    omega

def join (left right : Chunked I S G B) : Option (Chunked I S G B) :=
  match left.root, right.root with
  | none, _ => some right
  | _, none => some left
  | some l, some r => do
    let replacement ← joinNodes B l r
    rooted B (← grow replacement (Summary.combine l.summary.group r.summary.group))

/-- `side`: one side of a split node, the children `run` beside the cut and the
side `piece` built below, after the run when `pieceLast`. -/
def side (B : Branching) (height : Nat) (run : List (Node I S G)) (piece : Option (Node I S G))
    (pieceLast : Bool) (group : G) : Option (Option (Node I S G)) :=
  let close (children : List (Node I S G)) : Option (Option (Node I S G)) :=
    match children with
    | [] => some none
    | [child] => some (some child)
    | children => do return some (← Node.internalWith height children group)
  match piece with
  | none => close run
  | some piece =>
    if run.isEmpty then some (some piece)
    else if piece.height + 1 = height ∧ piece.width ≥ B.minFill then
      close (if pieceLast then run ++ [piece] else piece :: run)
    else if pieceLast then do
      let last ← run.getLast?
      let replacement ← joinNodes B last piece
      close (run.dropLast ++ replacement.nodes)
    else do
      let first ← run.head?
      let replacement ← joinNodes B piece first
      close (replacement.nodes ++ run.drop 1)

/-- `split_node`: the roots of the items before `index` and from it. -/
def splitNode (B : Branching) (node : Node I S G) (index : Nat) :
    Option (Option (Node I S G) × Option (Node I S G)) :=
  match node with
  | .leaf items summary =>
    if index ≤ items.length then do
      let left := items.take index
      let right := items.drop index
      let (leftGroup, rightGroup) ← divide summary.group (left.map Item.group)
        (right.map Item.group)
      return (some (← Node.leafWith left leftGroup), some (← Node.leafWith right rightGroup))
    else none
  | .internal height children summary => do
    let (slot, offset) ← locate children index
    match _hchild : children[slot]? with
    | none => none
    | some child =>
      let (before, after) ←
        (if offset = 0 then some (none, some child) else splitNode B child offset : Option _)
      let runBefore := children.take slot
      let runAfter := children.drop (slot + 1)
      let (leftGroup, rightGroup) ← divide summary.group
        ((runBefore ++ before.toList).map childGroup)
        ((after.toList ++ runAfter).map childGroup)
      return (← side B height runBefore before true leftGroup,
        ← side B height runAfter after false rightGroup)
termination_by node
decreasing_by
  have := List.sizeOf_lt_of_mem (List.mem_of_getElem? _hchild)
  simp_wf
  omega

/-- `split_at`: the first `index` items and the rest. -/
def splitAt (tree : Chunked I S G B) (index : Nat) :
    Option (Chunked I S G B × Chunked I S G B) :=
  if index ≤ tree.len then
    match tree.root with
    | some root =>
      if 0 < index ∧ index < root.summary.count then do
        let (left, right) ← splitNode B root index
        let side (node : Option (Node I S G)) : Option (Chunked I S G B) :=
          match node with
          | none => some Chunked.new
          | some node => rooted B node
        return (← side left, ← side right)
      else if index = 0 then some (Chunked.new, tree)
      else some (tree, Chunked.new)
    | none => if index = 0 then some (Chunked.new, tree) else some (tree, Chunked.new)
  else none

end Definitions

end KRust.Term.Chunks
