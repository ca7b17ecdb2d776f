import KRust.Lib.SortedMap
import KRust.Lib.Worklist
import Mathlib.Data.Finset.Max
import Mathlib.Data.Finset.Sort

/-!
Finite partial orders as the definition reads them: from strict `(lesser, greater)` pairs, with
Kahn's sorting, the closure in reverse order, bounds, components and the search for a cycle.
-/

namespace KRust.Definition

open Lib

variable {T : Type} [LinearOrder T]

/-- A directed graph between its nodes. -/
structure DiGraph (T : Type) where
  nodes : Finset T
  edges : Finset (T × T)
  within : ∀ edge ∈ edges, edge.1 ∈ nodes ∧ edge.2 ∈ nodes

namespace DiGraph

def Edge (graph : DiGraph T) (a b : T) : Prop := (a, b) ∈ graph.edges

def outgoing (graph : DiGraph T) (node : T) : Finset T :=
  graph.nodes.filter fun successor => (node, successor) ∈ graph.edges

def incoming (graph : DiGraph T) (node : T) : Finset T :=
  graph.nodes.filter fun predecessor => (predecessor, node) ∈ graph.edges

/-- The successors of a node in the order of the elements. -/
def successors (graph : DiGraph T) (node : T) : List T := (graph.outgoing node).sort (· ≤ ·)

theorem mem_outgoing {graph : DiGraph T} {a b : T} : b ∈ graph.outgoing a ↔ graph.Edge a b := by
  rw [outgoing, Finset.mem_filter]
  exact ⟨And.right, fun h => ⟨(graph.within _ h).2, h⟩⟩

theorem mem_incoming {graph : DiGraph T} {a b : T} : a ∈ graph.incoming b ↔ graph.Edge a b := by
  rw [incoming, Finset.mem_filter]
  exact ⟨And.right, fun h => ⟨(graph.within _ h).1, h⟩⟩

theorem mem_successors {graph : DiGraph T} {a b : T} :
    b ∈ graph.successors a ↔ graph.Edge a b := by
  rw [successors, Finset.mem_sort, mem_outgoing]

theorem successors_nodup (graph : DiGraph T) (a : T) : (graph.successors a).Nodup :=
  Finset.sort_nodup _ _

end DiGraph

/-- One node for each element, one edge from the lesser to the greater element of every pair. -/
def relationGraph (direct : Finset (T × T)) : DiGraph T where
  nodes := direct.image Prod.fst ∪ direct.image Prod.snd
  edges := direct
  within edge h := by
    rw [Finset.mem_union, Finset.mem_union]
    exact ⟨.inl (Finset.mem_image_of_mem _ h), .inr (Finset.mem_image_of_mem _ h)⟩

/-- Where the code stops: an expectation that fails, or (in the model only) a search that calls
itself more often than there are nodes. -/
inductive Panic
  | cycleReported
  | closureEntry
  | successorElement
  | nonemptySeed
  | activeOnStack
  | calls
  deriving DecidableEq

/-- A strict relation that leads back to where it starts. -/
structure Cycle (T : Type) where
  path : List T

section Sorting

variable {graph : DiGraph T}

/-- The indegrees and the ready set after the edge to a successor is taken away. -/
def release (state : (T → Nat) × Finset T) (successor : T) : (T → Nat) × Finset T :=
  let indegree := Function.update state.1 successor (state.1 successor - 1)
  (indegree, if indegree successor = 0 then insert successor state.2 else state.2)

theorem foldl_release {successors : List T} (hnodup : successors.Nodup)
    (state : (T → Nat) × Finset T) (a : T) :
    (successors.foldl release state).1 a =
        (if a ∈ successors then state.1 a - 1 else state.1 a) ∧
      (a ∈ (successors.foldl release state).2 ↔
        a ∈ state.2 ∨ a ∈ successors ∧ state.1 a - 1 = 0) := by
  induction successors generalizing state with
  | nil => simp
  | cons successor successors ih =>
    obtain ⟨hfresh, hrest⟩ := List.nodup_cons.mp hnodup
    obtain ⟨hdegree, hready⟩ := ih hrest (release state successor)
    rw [List.foldl_cons, hdegree, hready]
    by_cases ha : a = successor
    · subst ha
      by_cases hzero : state.1 a - 1 = 0
      · simp [release, hfresh, hzero]
      · simp [release, hfresh, hzero]
    · by_cases hzero : state.1 successor - 1 = 0
      · simp [release, ha, hzero]
      · simp [release, ha, hzero]

/-- The nodes that may come next: those not taken yet whose predecessors all are. -/
def Ready (graph : DiGraph T) (order : List T) (node : T) : Prop :=
  node ∈ graph.nodes ∧ node ∉ order ∧ ∀ lesser, graph.Edge lesser node → lesser ∈ order

/-- The sorting loop: `ready` contains exactly the nodes that may come next, and every node of
`order` was the least of those. -/
structure Sorting (graph : DiGraph T) where
  indegree : T → Nat
  ready : Finset T
  order : List T
  counts : ∀ node, indegree node = (graph.incoming node \ order.toFinset).card
  ready_iff : ∀ node, node ∈ ready ↔ Ready graph order node
  least : ∀ front node back, order = front ++ node :: back →
    IsLeast {a | Ready graph front a} node

namespace Sorting

/-- What comes before a node includes its predecessors. -/
theorem closed (state : Sorting graph) {a b : T} (hb : b ∈ state.order) (hedge : graph.Edge a b) :
    a ∈ state.order := by
  obtain ⟨front, back, hsplit⟩ := List.append_of_mem hb
  have hfront := (state.least front b back hsplit).1.2.2 a hedge
  rw [hsplit]
  exact List.mem_append_left _ hfront

/-- Each count is the number of predecessors that are not taken. -/
def start (graph : DiGraph T) : Sorting graph where
  indegree node := (graph.incoming node).card
  ready := graph.nodes.filter fun node => (graph.incoming node).card = 0
  order := []
  counts node := by rw [List.toFinset_nil, Finset.sdiff_empty]
  ready_iff node := by
    simp only [Finset.mem_filter, Finset.card_eq_zero, Finset.eq_empty_iff_forall_notMem,
      DiGraph.mem_incoming, Ready, List.not_mem_nil, not_false_eq_true, true_and, imp_false]
  least front node back h := by simp at h

section Take

variable (state : Sorting graph) {node : T}

/-- What is left when the edges of a ready node are taken away. -/
def released (node : T) : (T → Nat) × Finset T :=
  (graph.successors node).foldl release (state.indegree, state.ready.erase node)

theorem released_counts (hnode : Ready graph state.order node) (a : T) :
    (state.released node).1 a = (graph.incoming a \ (state.order ++ [node]).toFinset).card := by
  have hset : graph.incoming a \ (state.order ++ [node]).toFinset =
      (graph.incoming a \ state.order.toFinset).erase node := by
    ext b
    simp only [Finset.mem_sdiff, Finset.mem_erase, List.mem_toFinset, List.mem_append,
      List.mem_singleton]
    tauto
  rw [released, (foldl_release (graph.successors_nodup node) _ a).1, hset]
  dsimp only
  rw [state.counts a]
  by_cases hedge : graph.Edge node a
  · have hmem : node ∈ graph.incoming a \ state.order.toFinset :=
      Finset.mem_sdiff.mpr ⟨DiGraph.mem_incoming.mpr hedge, by simpa using hnode.2.1⟩
    rw [if_pos (DiGraph.mem_successors.mpr hedge), Finset.card_erase_of_mem hmem]
  · have hmem : node ∉ graph.incoming a \ state.order.toFinset := fun hmem =>
      hedge (DiGraph.mem_incoming.mp (Finset.mem_sdiff.mp hmem).1)
    rw [if_neg fun hsuccessor => hedge (DiGraph.mem_successors.mp hsuccessor),
      Finset.erase_eq_of_notMem hmem]

/-- An edge to a successor was the last one when the others that it needs are taken. -/
theorem released_zero (hnode : Ready graph state.order node) {a : T} (hedge : graph.Edge node a) :
    state.indegree a - 1 = 0 ↔ ∀ b, graph.Edge b a → b ∈ state.order ++ [node] := by
  have hdegree := (foldl_release (graph.successors_nodup node)
    (state.indegree, state.ready.erase node) a).1
  rw [if_pos (DiGraph.mem_successors.mpr hedge)] at hdegree
  rw [← hdegree, ← released, state.released_counts hnode, Finset.card_eq_zero,
    Finset.sdiff_eq_empty_iff_subset]
  simp only [Finset.subset_iff, DiGraph.mem_incoming, List.mem_toFinset]

theorem released_ready_iff (hnode : Ready graph state.order node) (a : T) :
    a ∈ (state.released node).2 ↔ Ready graph (state.order ++ [node]) a := by
  rw [released, (foldl_release (graph.successors_nodup node) _ a).2, Finset.mem_erase,
    state.ready_iff, DiGraph.mem_successors]
  constructor
  · rintro (⟨hne, hmem, hfresh, hbelow⟩ | ⟨hedge, hdone⟩)
    · refine ⟨hmem, ?_, fun b hb => List.mem_append_left _ (hbelow b hb)⟩
      simp [hfresh, hne]
    · refine ⟨(graph.within _ hedge).2, ?_, (state.released_zero hnode hedge).mp hdone⟩
      rw [List.mem_append, List.mem_singleton]
      rintro (htaken | rfl)
      · exact hnode.2.1 (state.closed htaken hedge)
      · exact hnode.2.1 (hnode.2.2 _ hedge)
  · rintro ⟨hmem, hfresh, hbelow⟩
    rw [List.mem_append, List.mem_singleton, not_or] at hfresh
    by_cases hedge : graph.Edge node a
    · exact .inr ⟨hedge, (state.released_zero hnode hedge).mpr hbelow⟩
    · refine .inl ⟨hfresh.2, hmem, hfresh.1, fun b hb => ?_⟩
      rcases List.mem_append.mp (hbelow b hb) with hold | hlast
      · exact hold
      · rw [List.mem_singleton.mp hlast] at hb
        exact absurd hb hedge

theorem least_append (hnode : IsLeast {a | Ready graph state.order a} node) (front : List T) (a : T)
    (back : List T) (hsplit : state.order ++ [node] = front ++ a :: back) :
    IsLeast {a | Ready graph front a} a := by
  rcases List.eq_nil_or_concat back with rfl | ⟨back, last, rfl⟩
  · obtain ⟨rfl, hlast⟩ := List.append_inj' hsplit rfl
    cases hlast
    exact hnode
  · have hlonger : state.order ++ [node] = (front ++ a :: back) ++ [last] := by
      rw [hsplit, List.concat_eq_append, List.append_assoc, List.cons_append]
    exact state.least front a back (List.append_inj' hlonger rfl).1

theorem least_ready (h : state.ready.Nonempty) :
    IsLeast {a | Ready graph state.order a} (state.ready.min' h) :=
  ⟨(state.ready_iff _).mp (state.ready.min'_mem h),
    fun a ha => state.ready.min'_le a ((state.ready_iff a).mpr ha)⟩

/-- The least ready node is appended, and its edges are taken away. -/
def take (h : state.ready.Nonempty) : Sorting graph where
  indegree := (state.released (state.ready.min' h)).1
  ready := (state.released (state.ready.min' h)).2
  order := state.order ++ [state.ready.min' h]
  counts := state.released_counts (state.least_ready h).1
  ready_iff := state.released_ready_iff (state.least_ready h).1
  least := state.least_append (state.least_ready h)

end Take

/-- While a node is ready, the least one is taken. -/
def turn (state : Sorting graph) : List T ⊕ Sorting graph :=
  if h : state.ready.Nonempty then .inr (state.take h) else .inl state.order

def loop (graph : DiGraph T) : Loop (Sorting graph) (List T) where
  turn := turn
  ends := by
    refine ⟨fun state => (graph.nodes \ state.order.toFinset).card, fun state next hturn => ?_⟩
    unfold turn at hturn
    split at hturn
    · rename_i hready
      cases hturn
      have hnode := (state.ready_iff _).mp (state.ready.min'_mem hready)
      apply Finset.card_lt_card
      refine Finset.ssubset_iff_of_subset ?_ |>.mpr ⟨state.ready.min' hready, ?_, ?_⟩
      · exact Finset.sdiff_subset_sdiff (Finset.Subset.refl _) (by simp [take])
      · simpa using ⟨hnode.1, hnode.2.1⟩
      · simp [take]
    · cases hturn

end Sorting

/-- The nodes in Kahn's order with an ordered ready set. -/
def kahn (graph : DiGraph T) : List T := (Sorting.loop graph).run (Sorting.start graph)

end Sorting

section Closing

/-- A closure that has no relations yet, with an entry for every element. -/
def emptyClosure (elements : Finset T) : SortedMap T (Finset T) where
  entries := (elements.sort (· ≤ ·)).map fun element => (element, ∅)
  sorted := List.pairwise_map.mpr (Finset.sortedLT_sort elements).pairwise

/-- A node is below a successor and whatever the successor is below. -/
def inherit (node : T) (closure : SortedMap T (Finset T)) (successor : T) :
    Except Panic (SortedMap T (Finset T)) :=
  match closure.get successor, closure.get node with
  | some inherited, some found => .ok (closure.insert node (found ∪ insert successor inherited))
  | _, _ => .error .closureEntry

def closeNode (graph : DiGraph T) (closure : SortedMap T (Finset T)) (node : T) :
    Except Panic (SortedMap T (Finset T)) :=
  (graph.successors node).foldlM (inherit node) closure

/-- The closures of the nodes, from the last one of the order to the first. -/
def close (graph : DiGraph T) (order : List T) : Except Panic (SortedMap T (Finset T)) :=
  order.reverse.foldlM (closeNode graph) (emptyClosure graph.nodes)

end Closing

section Searching

/-- What a search knows of a node. -/
inductive Mark
  | fresh
  | active
  | finished
  deriving DecidableEq

/-- A search ends with a cycle, or it marks what it visits. -/
abbrev Searched (T : Type) := Except Panic (List T ⊕ (T → Mark))

/-- The successors of the last node of the path `stack` in turn. -/
def scan (visit : List T → (T → Mark) → T → Searched T) (stack : List T) :
    (T → Mark) → List T → Searched T
  | state, [] => .ok (.inr state)
  | state, successor :: successors =>
    match state successor with
    | .fresh =>
      match visit stack state successor with
      | .ok (.inr state) => scan visit stack state successors
      | found => found
    | .active =>
      match stack.dropWhile (· ≠ successor) with
      | [] => .error .activeOnStack
      | start :: path => .ok (.inl (start :: path ++ [successor]))
    | .finished => scan visit stack state successors

/-- A node joins the path until its successors are scanned. -/
def visit (graph : DiGraph T) : Nat → List T → (T → Mark) → T → Searched T
  | 0, _, _, _ => .error .calls
  | calls + 1, stack, state, node =>
    match scan (visit graph calls) (stack ++ [node]) (Function.update state node .active)
      (graph.successors node) with
    | .ok (.inr state) => .ok (.inr (Function.update state node .finished))
    | found => found

/-- The visits of the nodes that no earlier one marked. -/
def visitAll (graph : DiGraph T) : (T → Mark) → List T → Searched T
  | state, [] => .ok (.inr state)
  | state, node :: nodes =>
    if state node = .fresh then
      match visit graph graph.nodes.card [] state node with
      | .ok (.inr state) => visitAll graph state nodes
      | found => found
    else visitAll graph state nodes

def findCycle (graph : DiGraph T) : Except Panic (Option (List T)) :=
  match visitAll graph (fun _ => .fresh) (graph.nodes.sort (· ≤ ·)) with
  | .ok (.inl path) => .ok (some path)
  | .ok (.inr _) => .ok none
  | .error stop => .error stop

/-- The cycle of a relation that its order would report. -/
def firstCycle (relations : List (T × T)) : Except Panic (Option (Cycle T)) :=
  match findCycle (relationGraph relations.toFinset) with
  | .ok path => .ok (path.map Cycle.mk)
  | .error stop => .error stop

end Searching

/-- A finite partial order: the pairs that it was built from, the elements above each element,
and the elements with lesser ones first. -/
structure PartialOrder (T : Type) [LinearOrder T] where
  direct : Finset (T × T)
  closure : SortedMap T (Finset T)
  sorted : List T

namespace PartialOrder

/-- Builds an order, or reports a cycle; `toposort` says whether there is one. -/
def new (toposort : DiGraph T → Except T (List T)) (relations : List (T × T)) :
    Except Panic (Except (Cycle T) (PartialOrder T)) :=
  let direct := relations.toFinset
  let graph := relationGraph direct
  match toposort graph with
  | .error _ =>
    match findCycle graph with
    | .ok (some path) => .ok (.error ⟨path⟩)
    | .ok none => .error .cycleReported
    | .error stop => .error stop
  | .ok _ =>
    let order := kahn graph
    match close graph order with
    | .ok closure => .ok (.ok ⟨direct, closure, order⟩)
    | .error stop => .error stop

variable (order : PartialOrder T)

/-- Orders are compared by their closures. -/
def eq (other : PartialOrder T) : Bool := decide (order.closure = other.closure)

def elements : List T := order.closure.keys

def sortedElements : List T := order.sorted

def contains (element : T) : Bool := (order.closure.get element).isSome

def lessThan (lesser greater : T) : Bool :=
  (order.closure.get lesser).any fun successors => greater ∈ successors

def lessThanEq (lesser greater : T) : Bool := lesser == greater || order.lessThan lesser greater

def greaterThan (greater lesser : T) : Bool := order.lessThan lesser greater

section Bounds

/-- The lesser element becomes a predecessor of a greater one. -/
def addPredecessor (lesser : T) (predecessors : SortedMap T (Finset T)) (greater : T) :
    Except Panic (SortedMap T (Finset T)) :=
  match predecessors.get greater with
  | some found => .ok (predecessors.insert greater (insert lesser found))
  | none => .error .successorElement

/-- The closure read from the greater elements. -/
def predecessors : Except Panic (SortedMap T (Finset T)) :=
  order.closure.entries.foldlM
    (fun predecessors (lesser, successors) =>
      (successors.sort (· ≤ ·)).foldlM (addPredecessor lesser) predecessors)
    (order.closure.map fun _ _ => ∅)

/-- The member with the fewest neighbours; `none` when a member has no entry. -/
def seed (neighbours : T → Option (Finset T)) :
    Option (T × Finset T) → List T → Option (Option (T × Finset T))
  | found, [] => some found
  | found, element :: elements =>
    match neighbours element with
    | none => none
    | some candidates =>
      if found.all fun (_, fewest) => candidates.card < fewest.card then
        seed neighbours (some (element, candidates)) elements
      else seed neighbours found elements

/-- The elements in a relation to every member, where the neighbours of a member are those
strictly in that relation to it. -/
def bounds (members : List T) (neighbours : T → Option (Finset T))
    (relation : T → T → Bool) : Except Panic (Finset T) :=
  if members.isEmpty then .ok order.elements.toFinset
  else
    match seed neighbours none members with
    | none => .ok ∅
    | some none => .error .nonemptySeed
    | some (some (member, candidates)) =>
      .ok ((insert member candidates).filter fun candidate => members.all (relation candidate))

def upperBounds (members : List T) : Except Panic (Finset T) :=
  order.bounds members order.closure.get fun candidate element => order.lessThanEq element candidate

def lowerBounds (members : List T) : Except Panic (Finset T) :=
  match order.predecessors with
  | .ok predecessors =>
    order.bounds members predecessors.get fun candidate element => order.lessThanEq candidate element
  | .error stop => .error stop

def minimal (members : List T) : Finset T :=
  (members.filter fun candidate =>
    !members.any fun other => order.lessThan other candidate).toFinset

def maximal (members : List T) : Finset T :=
  (members.filter fun candidate =>
    !members.any fun other => order.lessThan candidate other).toFinset

end Bounds

section Components

/-- A component that is being collected: `pending` is its unexpanded frontier. -/
structure Collecting (T : Type) where
  unseen : Finset T
  component : Finset T
  pending : List T

/-- The elements related to one in either direction that its component lacks. -/
def neighbours (component : Finset T) (element : T) : List T :=
  order.elements.filter fun candidate =>
    (order.lessThan element candidate || order.lessThan candidate element) &&
      candidate ∉ component

/-- The last pending element is expanded, unless it was before. -/
def Collecting.turn (state : Collecting T) : Collecting T ⊕ Collecting T :=
  match state.pending with
  | [] => .inl state
  | element :: pending =>
    if element ∈ state.component then .inr { state with pending := pending }
    else
      let component := insert element state.component
      .inr {
        unseen := state.unseen.erase element
        component := component
        pending := (order.neighbours component element).reverse ++ pending }

/-- The turns left: each element that may still be expanded brings all elements in. -/
def Collecting.weight (state : Collecting T) : Nat :=
  ((order.elements.toFinset ∪ state.pending.toFinset) \ state.component).card *
    (order.elements.length + 1) + state.pending.length

theorem Collecting.weight_turn {state next : Collecting T}
    (h : Collecting.turn order state = .inr next) : next.weight order < state.weight order := by
  obtain ⟨unseen, component, pending⟩ := state
  cases pending with
  | nil => cases h
  | cons element pending =>
    simp only [Collecting.turn] at h
    split at h
    · rename_i hmem
      cases h
      have hcard : ((order.elements.toFinset ∪ pending.toFinset) \ component).card ≤
          ((order.elements.toFinset ∪ (element :: pending).toFinset) \ component).card := by
        apply Finset.card_le_card
        intro a ha
        simp only [Finset.mem_union, Finset.mem_sdiff, List.mem_toFinset, List.mem_cons] at ha ⊢
        tauto
      have hmul := Nat.mul_le_mul_right (order.elements.length + 1) hcard
      simp only [Collecting.weight, List.length_cons]
      omega
    · rename_i hfresh
      cases h
      have hcard : ((order.elements.toFinset ∪ ((order.neighbours (insert element component)
            element).reverse ++ pending).toFinset) \ insert element component).card <
          ((order.elements.toFinset ∪ (element :: pending).toFinset) \ component).card := by
        apply Finset.card_lt_card
        refine (Finset.ssubset_iff_of_subset ?_).mpr ⟨element, by simp [hfresh], by simp⟩
        intro a ha
        simp only [neighbours, Finset.mem_union, Finset.mem_sdiff, List.mem_toFinset,
          List.mem_append, List.mem_reverse, List.mem_filter, Finset.mem_insert,
          List.mem_cons] at ha ⊢
        tauto
      have hmul := Nat.mul_le_mul_right (order.elements.length + 1) hcard
      have hlength : (order.neighbours (insert element component) element).length ≤
          order.elements.length := List.length_filter_le _ _
      simp only [Collecting.weight, List.length_append, List.length_reverse, List.length_cons]
      simp only [Nat.succ_mul] at hmul
      omega

def collecting : Loop (Collecting T) (Collecting T) where
  turn := Collecting.turn order
  ends := ⟨Collecting.weight order, fun _ _ => Collecting.weight_turn order⟩

/-- Elements only leave `unseen`. -/
theorem collecting_unseen (state : Collecting T) :
    (order.collecting.run state).unseen ⊆ state.unseen := by
  refine order.collecting.run_spec (Q := fun state last => last.unseen ⊆ state.unseen) ?_ ?_ state
  · intro state last hturn
    obtain ⟨unseen, component, pending⟩ := state
    cases pending with
    | nil =>
      cases hturn
      exact Finset.Subset.refl _
    | cons element pending =>
      simp only [collecting, Collecting.turn] at hturn
      split at hturn <;> cases hturn
  · intro state next last hturn hrest
    obtain ⟨unseen, component, pending⟩ := state
    cases pending with
    | nil => cases hturn
    | cons element pending =>
      simp only [collecting, Collecting.turn] at hturn
      split at hturn
      · cases hturn
        exact hrest
      · cases hturn
        exact hrest.trans (Finset.erase_subset _ _)

/-- The component of an element. -/
def collect (unseen : Finset T) (start : T) : Collecting T :=
  order.collecting.run ⟨unseen, ∅, [start]⟩

/-- The least unseen element starts the next component. -/
def components : Loop (Finset T × List (Finset T)) (List (Finset T)) where
  turn state :=
    if h : state.1.Nonempty then
      let start := state.1.min' h
      let last := order.collect (state.1.erase start) start
      .inr (last.unseen, state.2 ++ [last.component])
    else .inl state.2
  ends := by
    refine ⟨fun state => state.1.card, fun state next hturn => ?_⟩
    split at hturn
    · rename_i h
      cases hturn
      have hsubset := Finset.card_le_card
        (order.collecting_unseen ⟨state.1.erase (state.1.min' h), ∅, [state.1.min' h]⟩)
      exact lt_of_le_of_lt hsubset (Finset.card_erase_lt_of_mem (state.1.min'_mem h))
    · cases hturn

/-- The connected components of the relation when edge direction is ignored. -/
def connectedComponents : List (Finset T) := order.components.run (order.elements.toFinset, [])

end Components

end PartialOrder

end KRust.Definition
