import KRust.Term.Chunks.WalkLaws

/-!
Seeks and item-wise rebuilds: the items a seek wants are replaced in place, copying
the nodes on the paths to those that change; the group summary of a copied node is
its old one with the difference made below it.
-/

set_option linter.unusedSectionVars false

namespace KRust.Term.Chunks

open KRust.Lib KRust.Lib.Partial

variable {I K S G σ : Type} {B : Branching}

/-- The trait `Seek`: the choice of subtrees and of items, by summary and position. -/
structure Seek (I S G : Type) where
  admits : Nat → NodeSummary I S G → Bool
  wants : Nat → I → Bool

/-- `At`: the seek for the one item at a position. -/
def Seek.atPosition (index : Nat) : Seek I S G where
  admits position summary := position ≤ index && index < position + summary.count
  wants position _ := position == index

/-- `Where`: the seek given by two tests that ignore positions. -/
def Seek.ofTests (admits : NodeSummary I S G → Bool) (wants : I → Bool) : Seek I S G where
  admits _ summary := admits summary
  wants _ item := wants item

/-- The group summaries of the items a rebuild replaced below a node and of their
replacements. -/
structure Difference (G : Type) where
  removed : G
  added : G

section Definitions

variable [Item I K S G] [LinearOrder K] [Summary S] [Group G]

/-- `Difference::apply`. -/
def Difference.apply (difference : Difference G) (group : G) : Option G := do
  Group.subtract (← Summary.combine group difference.added) difference.removed

/-- The loop of `map_node` over a leaf's items. `state` is that of the closure
`change`, and `changed` the positions of the replaced items. -/
structure LeafRun (I G σ : Type) where
  replaced : Option (List I)
  removed : List G
  added : List G
  state : σ
  changed : List Nat

def mapItem (seek : Seek I S G) (change : σ → I → Option I × σ) (position : Nat) (items : List I)
    (run : LeafRun I G σ) (entry : I × Nat) : LeafRun I G σ :=
  let (item, offset) := entry
  if seek.wants (position + offset) item then
    match change run.state item with
    | (none, state) => { run with state }
    | (some new, state) => {
        replaced := some ((run.replaced.getD items).set offset new)
        removed := run.removed ++ [Item.group item]
        added := run.added ++ [Item.group new]
        state
        changed := run.changed ++ [position + offset] }
  else run

/-- The loop of `map_node` over the children of an internal node. -/
structure ChildRun (I S G σ : Type) where
  replaced : Option (List (Node I S G))
  difference : Difference G
  state : σ
  changed : List Nat

/-- A child taken into account by the loop: `none` when no item below it changed. -/
def ChildRun.put (run : ChildRun I S G σ) (whole : List (Node I S G)) (slot : Nat)
    (result : Option (Node I S G × Difference G)) (state : σ) (changed : List Nat) :
    Option (ChildRun I S G σ) :=
  match result with
  | none => some { run with state, changed }
  | some (child, below) => do
    let removed ← Summary.combine run.difference.removed below.removed
    let added ← Summary.combine run.difference.added below.added
    return {
      replaced := some ((run.replaced.getD whole).set slot child)
      difference := { removed, added }, state, changed }

/-- What `map_node` gives: the copied node with the difference, if an item changed,
the closure's state and the positions recorded so far. -/
abbrev Mapped (I S G σ : Type) := Option (Node I S G × Difference G) × σ × List Nat

mutual
/-- `map_node`. -/
def mapNode (seek : Seek I S G) (change : σ → I → Option I × σ) :
    Node I S G → Nat → σ → List Nat → Option (Mapped I S G σ)
  | .leaf items summary, position, state, changed =>
    let run := items.zipIdx.foldl (mapItem seek change position items) {
      replaced := none, removed := [], added := [], state, changed }
    match run.replaced with
    | none => some (none, run.state, run.changed)
    | some edited => do
      let first ← run.changed[changed.length]?
      let last ← run.changed.getLast?
      let keptPrefix ← checkedSub first position
      let keptSuffix ← checkedSub (← checkedSub (position + edited.length) 1) last
      let difference : Difference G := {
        removed := ← foldGroups run.removed, added := ← foldGroups run.added }
      let group ← difference.apply summary.group
      let node ← Node.leafEdited (.leaf items summary) edited (keptPrefix, keptSuffix) group
      return (some (node, difference), run.state, run.changed)
  | .internal height children summary, position, state, changed => do
    let run ← mapChildren seek change children children 0 position {
      replaced := none, difference := { removed := Summary.identity, added := Summary.identity }
      state, changed }
    match run.replaced with
    | none => return (none, run.state, run.changed)
    | some children => do
      let group ← run.difference.apply summary.group
      let node ← Node.internalWith height children group
      return (some (node, run.difference), run.state, run.changed)
/-- The loop of `map_node` over the children from `slot` on, whose items start at
`start`. -/
def mapChildren (seek : Seek I S G) (change : σ → I → Option I × σ) (whole : List (Node I S G)) :
    List (Node I S G) → Nat → Nat → ChildRun I S G σ → Option (ChildRun I S G σ)
  | [], _, _, run => some run
  | child :: rest, slot, start, run => do
    let run ←
      (if seek.admits start child.summary then do
        let (result, state, changed) ← mapNode seek change child start run.state run.changed
        run.put whole slot result state changed
      else some run : Option _)
    mapChildren seek change whole rest (slot + 1) (start + child.summary.count) run
end

/-- `map_where_recording`. -/
def mapWhereRecording (tree : Chunked I S G B) (seek : Seek I S G)
    (change : σ → I → Option I × σ) (state : σ) : Option (Chunked I S G B × σ × List Nat) :=
  match tree.root with
  | none => some (tree, state, [])
  | some root =>
    if seek.admits 0 root.summary then do
      match ← mapNode seek change root 0 state [] with
      | (some (node, _), state, changed) => return (⟨some node⟩, state, changed)
      | (none, state, changed) => return (tree, state, changed)
    else some (tree, state, [])

/-- `map_where`, with the state the closure ends in. -/
def mapWhere (tree : Chunked I S G B) (seek : Seek I S G) (change : σ → I → Option I × σ)
    (state : σ) : Option (Chunked I S G B × σ) := do
  let (tree, state, _) ← mapWhereRecording tree seek change state
  return (tree, state)

/-- `replace_at`: the closure gives the item once. -/
def replaceAt (tree : Chunked I S G B) (index : Nat) (item : I) : Option (Chunked I S G B) :=
  if index < tree.len then do
    let (tree, _) ← mapWhere tree (Seek.atPosition index) (fun item _ => (item, none)) (some item)
    return tree
  else none

end Definitions

end KRust.Term.Chunks
