import KRust.Term.Chunks.ReduceLaws
import KRust.Term.Chunks.Repeat
import KRust.Term.Chunks.Union

/-!
The representation invariant over whole runs: every tree built by the operations,
in any order, is valid, and each of its nodes says of the items below it what a
summary made from scratch would.
-/

set_option linter.unusedSectionVars false

namespace KRust.Term.Chunks

open KRust.Lib KRust.Lib.Partial

variable {I K S G M A : Type} [Item I K S G] [LinearOrder K] [LinearOrder I] [Summary S] [Group G]
  [AddMonoid M] [AddCancelCommMonoid A] [LawfulSummary S M] [LawfulGroup G A]
  {B : Branching} {h : Nat} {node root : Node I S G}

/-- The trees the operations build, each called as it documents. -/
inductive Reachable : Chunked I S G B → Prop
  | fromVec (items : List I) {tree} (run : fromVec B items = some tree) : Reachable tree
  | repeatItem (item : I) (count : Nat) {tree} (run : repeatItem B item count = some tree) :
      Reachable tree
  | insertAt {tree} (built : Reachable tree) (index : Nat) (item : I) {result}
      (bound : index ≤ tree.len) (run : insertAt tree index item = some result) : Reachable result
  | removeAt {tree} (built : Reachable tree) (index : Nat) {result} {item : I}
      (bound : index < tree.len) (run : removeAt tree index = some (result, item)) :
      Reachable result
  | join {left right} (builtLeft : Reachable left) (builtRight : Reachable right) {result}
      (run : join left right = some result) : Reachable result
  | splitLeft {tree} (built : Reachable tree) (index : Nat) {left right}
      (bound : index ≤ tree.len) (run : splitAt tree index = some (left, right)) : Reachable left
  | splitRight {tree} (built : Reachable tree) (index : Nat) {left right}
      (bound : index ≤ tree.len) (run : splitAt tree index = some (left, right)) : Reachable right
  | union {left right} (builtLeft : Reachable left) (builtRight : Reachable right)
      (orderedLeft : left.items.Pairwise (· ≤ ·)) (orderedRight : right.items.Pairwise (· ≤ ·))
      {result} (run : union left right = some result) : Reachable result
  | mapWhere {tree} (built : Reachable tree) {σ : Type} (seek : Seek I S G) (lawful : seek.Lawful)
      (change : σ → I → Option I × σ) (state : σ) {result}
      (run : mapWhere tree seek change state = some result) : Reachable result.1
  | replaceAt {tree} (built : Reachable tree) (index : Nat) (item : I) {result}
      (bound : index < tree.len) (run : replaceAt tree index item = some result) : Reachable result
  | rebuildWhere {tree} (built : Reachable tree) (ordered : tree.items.Pairwise (· ≤ ·)) {σ : Type}
      (seek : Seek I S G) (lawful : seek.Lawful) (change : σ → I → Option I × σ) (state : σ)
      {result} (run : rebuildWhere tree seek change state = some result) : Reachable result.1
  | addByKey {tree} (unit : Subsingleton G) (built : Reachable tree)
      (ordered : KeyOrdered tree.items) (added : List I) (orderedAdded : KeyOrdered added)
      (merge : I → I → Option I) {result} (run : addByKey tree added merge = some result) :
      Reachable result
  | reduceByKey {tree} (unit : Subsingleton G) (built : Reachable tree)
      (ordered : KeyOrdered tree.items) (reduced : List I) (orderedReduced : KeyOrdered reduced)
      (reduce : I → I → Option (Option I)) {result}
      (run : reduceByKey tree reduced reduce = some result) : Reachable result

/-- An index below the length names the item between the two parts of the list. -/
theorem exists_around {xs : List I} {index : Nat} (hindex : index < xs.length) :
    ∃ before item after, xs = before ++ item :: after ∧ before.length = index := by
  refine ⟨xs.take index, xs[index], xs.drop (index + 1), ?_, ?_⟩
  · rw [← List.drop_eq_getElem_cons hindex, List.take_append_drop]
  · rw [List.length_take]
    omega

/-- Every operation keeps the trees valid. -/
theorem Reachable.valid {tree : Chunked I S G B} (hreachable : Reachable tree) : tree.Valid := by
  induction hreachable with
  | fromVec items run => exact ((fromVec_yields B items).of_eq_some run).1
  | repeatItem item count run =>
    rw [repeatItem_eq] at run
    exact ((fromVec_yields B _).of_eq_some run).1
  | insertAt _ index item bound run hvalid =>
    rw [hvalid.len_eq] at bound
    exact ((insertAt_yields hvalid index item bound).of_eq_some run).1
  | removeAt _ index bound run hvalid =>
    rw [hvalid.len_eq] at bound
    obtain ⟨before, item, after, hitems, rfl⟩ := exists_around bound
    exact ((removeAt_yields hvalid before item after hitems).of_eq_some run).1
  | join _ _ run hleft hright => exact ((join_yields hleft hright).of_eq_some run).1
  | splitLeft _ index bound run hvalid =>
    rw [hvalid.len_eq] at bound
    obtain ⟨before, after, hitems, rfl⟩ := exists_split _ index bound
    obtain ⟨h, hwithin⟩ := hvalid.within
    exact ((splitAt_yields hwithin before after hitems).of_eq_some run).1.valid hvalid
  | splitRight _ index bound run hvalid =>
    rw [hvalid.len_eq] at bound
    obtain ⟨before, after, hitems, rfl⟩ := exists_split _ index bound
    obtain ⟨h, hwithin⟩ := hvalid.within
    exact ((splitAt_yields hwithin before after hitems).of_eq_some run).2.valid hvalid
  | union _ _ orderedLeft orderedRight run hleft hright =>
    exact ((union_yields hleft hright orderedLeft orderedRight).of_eq_some run).1
  | mapWhere _ seek lawful change state run hvalid =>
    exact ((mapWhere_yields change hvalid lawful state).of_eq_some run).1
  | replaceAt _ index item bound run hvalid =>
    rw [hvalid.len_eq] at bound
    obtain ⟨before, old, after, hitems, rfl⟩ := exists_around bound
    exact ((replaceAt_yields hvalid before old after hitems item).of_eq_some run).1
  | rebuildWhere _ ordered seek lawful change state run hvalid =>
    exact ((rebuildWhere_yields hvalid ordered lawful state).of_eq_some run).1
  | addByKey unit _ ordered added orderedAdded merge run hvalid =>
    exact ((addByKey_yields hvalid ordered added orderedAdded).of_eq_some run).1
  | reduceByKey unit _ ordered reduced orderedReduced reduce run hvalid =>
    exact ((reduceByKey_yields hvalid ordered reduced orderedReduced).of_eq_some run).1

/-! What validity says of each node. -/

/-- A node below the root. -/
inductive Node.Below : Node I S G → Node I S G → Prop
  | child {height : Nat} {children : List (Node I S G)} {summary : NodeSummary I S G}
      {child : Node I S G} (mem : child ∈ children) :
      Below (.internal height children summary) child
  | deeper {root parent : Node I S G} {child : Node I S G} (above : Below root parent)
      (below : Below parent child) : Below root child

/-- Two summaries say the same of the items. -/
structure NodeSummary.Agrees (one two : NodeSummary I S G) : Prop where
  count : one.count = two.count
  first : one.first = two.first
  last : one.last = two.last
  collision : one.collision = two.collision
  hash : one.hash = two.hash
  extra : (LawfulSummary.value one.extra : M) = LawfulSummary.value two.extra
  group : (LawfulSummary.value one.group : A) = LawfulSummary.value two.group

/-- What holds at every node of a valid tree: the bound on its width, the heights
recorded of its children, and its summary, which is the one made from scratch. -/
structure Node.Sound (B : Branching) (node : Node I S G) : Prop where
  width : node.width ≤ B.factor
  heights : ∀ height children summary, node = .internal height children summary →
    children ≠ [] ∧ ∀ child ∈ children, child.height + 1 = height
  summary : ∃ scratch, NodeSummary.ofItems node.items = some scratch ∧ node.summary.Agrees scratch

theorem Node.Shaped.sound (hnode : node.Shaped B h) : node.Sound B where
  width := hnode.width_le
  heights := by
    rintro height children summary rfl
    cases h with
    | zero =>
      obtain ⟨items, _, hleaf, _⟩ := hnode.leaf_of_zero
      cases hleaf
    | succ h =>
      obtain ⟨_, _, hinternal, _, hne, hchildren, _⟩ := hnode.internal_of_succ
      cases hinternal
      exact ⟨hne, fun child hchild => by rw [(hchildren child hchild).shaped.height_eq]⟩
  summary := by
    have hsummary := hnode.summarizes
    obtain ⟨scratch, hscratch, hfresh⟩ := (NodeSummary.ofItems_yields node.items).total hnode.fits
    exact ⟨scratch, hscratch, hsummary.count.trans hfresh.count.symm,
      hsummary.first.trans hfresh.first.symm, hsummary.last.trans hfresh.last.symm,
      hsummary.collision.trans hfresh.collision.symm, hsummary.hash.trans hfresh.hash.symm,
      hsummary.extra.trans hfresh.extra.symm, hsummary.group.trans hfresh.group.symm⟩

/-- Nodes below a shaped one lie within the fill bounds. -/
theorem Node.Below.full (hbelow : Node.Below root node) :
    ∀ h, root.Shaped B h → ∃ k, node.Full B k := by
  induction hbelow with
  | child mem =>
    intro h hroot
    cases h with
    | zero =>
      obtain ⟨items, _, hleaf, _⟩ := hroot.leaf_of_zero
      cases hleaf
    | succ h =>
      obtain ⟨_, _, hinternal, _, _, hchildren, _⟩ := hroot.internal_of_succ
      cases hinternal
      exact ⟨h, hchildren _ mem⟩
  | deeper _ _ ihAbove ihBelow =>
    intro h hroot
    obtain ⟨k, hparent⟩ := ihAbove h hroot
    exact ihBelow k hparent.shaped

/-- Every tree the operations reach keeps the representation invariant: nodes below
the root hold between the minimum and `B` entries, an internal root has at least two
children, a sequence of at most `B` items is one leaf, and at every node the heights
are right and the summary is the one made from scratch. -/
theorem Reachable.representation {tree : Chunked I S G B} (hreachable : Reachable tree)
    {root : Node I S G} (hroot : tree.root = some root) :
    1 ≤ root.width ∧ (0 < root.height → 2 ≤ root.width) ∧
    (root.items.length ≤ B.factor → root.height = 0) ∧ root.Sound B ∧
    ∀ node, Node.Below root node → node.Sound B ∧ (B.factor - 1) / 2 ≤ node.width := by
  obtain ⟨h, hisRoot⟩ := hreachable.valid root hroot
  have hheight := hisRoot.shaped.height_eq
  refine ⟨hisRoot.nonempty, ?_, ?_, hisRoot.shaped.sound, fun node hbelow => ?_⟩
  · rw [hheight]
    exact hisRoot.branches
  · rw [hheight]
    exact hisRoot.small
  · obtain ⟨k, hfull⟩ := hbelow.full h hisRoot.shaped
    exact ⟨hfull.shaped.sound, hfull.wide⟩

/-- A tree of numbers, loaded and then edited. -/
theorem Reachable.representation_numbers :
    ∃ (tree : Chunked Nat Unit Unit ⟨5, by decide⟩) (root : Node Nat Unit Unit),
      tree.items = [0, 1, 2, 3, 4, 5, 6, 7] ∧ tree.root = some root ∧ 1 ≤ root.width ∧
      root.Sound ⟨5, by decide⟩ := by
  have hfits : ∀ xs : List Nat, xs.length ≤ usizeMax → Fits xs := fun xs h => ⟨h, trivial, trivial⟩
  obtain ⟨loaded, hload, hvalid, hitems⟩ :=
    (fromVec_yields ⟨5, by decide⟩ [1, 2, 3, 4, 5, 6, 7]).total (hfits _ (by decide))
  have hbound : 0 ≤ loaded.items.length := Nat.zero_le _
  obtain ⟨tree, hinsert, _, hinserted⟩ := (insertAt_yields hvalid 0 0 hbound).total
    (hfits _ (by rw [hitems]; decide))
  rw [hitems] at hinserted
  have hreachable := (Reachable.fromVec _ hload).insertAt 0 0 (Nat.zero_le _) hinsert
  obtain ⟨root⟩ := tree
  cases root with
  | none => cases hinserted
  | some root =>
    have hroot := hreachable.representation (show (Chunked.mk (some root)).root = some root from rfl)
    exact ⟨⟨some root⟩, root, hinserted, rfl, hroot.1, hroot.2.2.2.1⟩

end KRust.Term.Chunks
