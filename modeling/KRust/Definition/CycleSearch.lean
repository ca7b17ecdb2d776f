import KRust.Definition.PartialOrderLaws

/-!
The search for a cycle finds a closed path or shows that there is none, and construction fails
with the path that the search finds.
-/

namespace KRust.Definition

open Lib
open Relation (TransGen EqvGen)

variable {T : Type} [LinearOrder T] {graph : DiGraph T}

section Visits

/-- The active nodes are those of the path, and every descent from a finished node ends. -/
structure Explored (graph : DiGraph T) (state : T → Mark) (stack : List T) : Prop where
  active_iff : ∀ a, state a = .active ↔ a ∈ stack
  path : stack.IsChain graph.Edge
  ended : ∀ a, state a = .finished → Acc (fun b a => graph.Edge a b) a

/-- A search finished the nodes, and kept what was finished. -/
structure Advances (graph : DiGraph T) (stack nodes : List T) (state state' : T → Mark) :
    Prop where
  explored : Explored graph state' stack
  all : ∀ a ∈ nodes, state' a = .finished
  kept : ∀ a, state a = .finished → state' a = .finished
  fresh : ∀ a, state' a = .fresh → state a = .fresh

/-- A search reports a closed path, or it advances. -/
def Ends (graph : DiGraph T) (stack nodes : List T) (state : T → Mark) (found : Searched T) :
    Prop :=
  (∃ path, found = .ok (.inl path) ∧ ClosedPath graph.Edge path) ∨
    ∃ state', found = .ok (.inr state') ∧ Advances graph stack nodes state state'

def freshCount (graph : DiGraph T) (state : T → Mark) : Nat :=
  (graph.nodes.filter fun a => state a = .fresh).card

omit [LinearOrder T] in
theorem freshCount_le (graph : DiGraph T) {state state' : T → Mark} (h : ∀ a, state' a = .fresh → state a = .fresh) :
    freshCount graph state' ≤ freshCount graph state :=
  Finset.card_le_card (Finset.monotone_filter_right _ fun a _ => h a)

theorem freshCount_activate {state : T → Mark} {node : T} (hnode : node ∈ graph.nodes)
    (hfresh : state node = .fresh) :
    freshCount graph (Function.update state node .active) < freshCount graph state := by
  apply Finset.card_lt_card
  refine (Finset.ssubset_iff_of_subset ?_).mpr ⟨node, by simp [hnode, hfresh], by simp⟩
  intro a ha
  rw [Finset.mem_filter] at ha ⊢
  by_cases heq : a = node
  · subst heq
    simp at ha
  · rwa [Function.update_of_ne heq] at ha

/-- The path back to an active successor is closed. -/
theorem closedPath_of_active {state : T → Mark} {stack : List T} {node successor : T}
    (h : Explored graph state (stack ++ [node])) (hedge : graph.Edge node successor)
    (hactive : state successor = .active) : ∃ path,
      (stack ++ [node]).dropWhile (fun a => decide (a ≠ successor)) = successor :: path ∧
        ClosedPath graph.Edge (successor :: path ++ [successor]) := by
  obtain ⟨front, path, hsplit, hfront⟩ :=
    List.eq_append_cons_of_mem ((h.active_iff successor).mp hactive)
  refine ⟨path, ?_, successor, path, rfl, ?_⟩
  · rw [hsplit, List.dropWhile_append_of_pos]
    · simp
    · intro a ha
      simpa using fun heq : a = successor => hfront (heq ▸ ha)
  · have hchain : (stack ++ [node] ++ [successor]).IsChain graph.Edge := by
      refine List.isChain_append.mpr ⟨h.path, List.isChain_singleton _, ?_⟩
      intro a ha b hb
      cases Option.mem_some_iff.mp hb
      rw [List.getLast?_append_cons] at ha
      cases Option.mem_some_iff.mp ha
      exact hedge
    rw [hsplit, List.append_assoc] at hchain
    exact (List.isChain_append.mp hchain).2.1

/-- What a visit of a fresh node does, with as many calls left as there are fresh nodes. -/
def Visits (graph : DiGraph T) (calls : Nat)
    (visit : List T → (T → Mark) → T → Searched T) : Prop :=
  ∀ stack state node, Explored graph state stack → (∀ last ∈ stack.getLast?, graph.Edge last node) →
    node ∈ graph.nodes → state node = .fresh → freshCount graph state ≤ calls →
    Ends graph stack [node] state (visit stack state node)

/-- Successors are scanned one after the other. -/
theorem scan_spec {calls : Nat} {visit : List T → (T → Mark) → T → Searched T}
    (hvisit : Visits graph calls visit) {stack : List T} {node : T} (successors : List T)
    {state : T → Mark} (h : Explored graph state (stack ++ [node]))
    (hedges : ∀ a ∈ successors, graph.Edge node a) (hcalls : freshCount graph state ≤ calls) :
    Ends graph (stack ++ [node]) successors state
      (scan visit (stack ++ [node]) state successors) := by
  induction successors generalizing state with
  | nil => exact .inr ⟨state, rfl, h, by simp, fun _ => id, fun _ => id⟩
  | cons successor successors ih =>
    obtain ⟨hedge, hrest⟩ := List.forall_mem_cons.mp hedges
    rw [scan]
    cases hmark : state successor with
    | fresh =>
      have hlast : ∀ last ∈ (stack ++ [node]).getLast?, graph.Edge last successor := by
        intro last hlast
        rw [List.getLast?_append_cons] at hlast
        cases Option.mem_some_iff.mp hlast
        exact hedge
      rcases hvisit _ state successor h hlast (graph.within _ hedge).2 hmark hcalls with
        ⟨path, hpath, hclosed⟩ | ⟨next, hnext, hfirst⟩
      · dsimp only
        rw [hpath]
        exact .inl ⟨path, rfl, hclosed⟩
      · dsimp only
        rw [hnext]
        have hfewer := (freshCount_le graph hfirst.fresh).trans hcalls
        rcases ih hfirst.explored hrest hfewer with hcycle | ⟨last, hlast, hmore⟩
        · exact .inl hcycle
        · refine .inr ⟨last, hlast, hmore.explored, ?_, fun a ha => hmore.kept a (hfirst.kept a ha),
            fun a ha => hfirst.fresh a (hmore.fresh a ha)⟩
          refine List.forall_mem_cons.mpr ⟨hmore.kept _ ?_, hmore.all⟩
          exact hfirst.all successor List.mem_cons_self
    | active =>
      obtain ⟨path, hdrop, hclosed⟩ := closedPath_of_active h hedge hmark
      dsimp only
      rw [hdrop]
      exact .inl ⟨_, rfl, hclosed⟩
    | finished =>
      rcases ih h hrest hcalls with hcycle | ⟨last, hlast, hmore⟩
      · exact .inl hcycle
      · refine .inr ⟨last, hlast, hmore.explored, ?_, hmore.kept, hmore.fresh⟩
        exact List.forall_mem_cons.mpr ⟨hmore.kept _ hmark, hmore.all⟩

/-- A fresh node joins the path. -/
theorem Explored.activate {state : T → Mark} {stack : List T} (h : Explored graph state stack)
    {node : T} (hlast : ∀ last ∈ stack.getLast?, graph.Edge last node) :
    Explored graph (Function.update state node .active) (stack ++ [node]) where
  active_iff a := by
    by_cases ha : a = node
    · simp [ha]
    · simp [ha, h.active_iff]
  path := by
    refine List.isChain_append.mpr ⟨h.path, List.isChain_singleton _, ?_⟩
    intro a ha b hb
    cases Option.mem_some_iff.mp hb
    exact hlast a ha
  ended a ha := by
    by_cases heq : a = node
    · simp [heq] at ha
    · rw [Function.update_of_ne heq] at ha
      exact h.ended a ha

/-- A node whose successors are finished leaves the path. -/
theorem Advances.finish {state state' : T → Mark} {stack : List T} {node : T}
    (hfresh : state node = .fresh) (hout : node ∉ stack)
    (h : Advances graph (stack ++ [node]) (graph.successors node)
      (Function.update state node .active) state') :
    Advances graph stack [node] state (Function.update state' node .finished) where
  explored := {
    active_iff := by
      intro a
      by_cases ha : a = node
      · simp [ha, hout]
      · simp [ha, h.explored.active_iff]
    path := (List.isChain_append.mp h.explored.path).1
    ended := by
      intro a ha
      by_cases heq : a = node
      · subst heq
        refine Acc.intro _ fun b hedge => h.explored.ended b ?_
        exact h.all b (DiGraph.mem_successors.mpr hedge)
      · rw [Function.update_of_ne heq] at ha
        exact h.explored.ended a ha }
  all := by simp
  kept a ha := by
    by_cases heq : a = node
    · simp [heq]
    · rw [Function.update_of_ne heq]
      apply h.kept
      rwa [Function.update_of_ne heq]
  fresh a ha := by
    by_cases heq : a = node
    · rw [heq]
      exact hfresh
    · rw [Function.update_of_ne heq] at ha
      have hbefore := h.fresh a ha
      rwa [Function.update_of_ne heq] at hbefore

/-- The fresh nodes bound the calls of a search. -/
theorem visit_spec (graph : DiGraph T) (calls : Nat) : Visits graph calls (visit graph calls) := by
  induction calls with
  | zero =>
    intro stack state node _ _ hnode hfresh hcalls
    have := freshCount_activate hnode hfresh
    omega
  | succ calls ih =>
    intro stack state node h hlast hnode hfresh hcalls
    have hfewer := freshCount_activate hnode hfresh
    have hout : node ∉ stack := by
      rw [← h.active_iff, hfresh]
      exact nofun
    rw [visit]
    rcases scan_spec ih (graph.successors node) (h.activate hlast)
      (fun a => DiGraph.mem_successors.mp) (by omega) with
      ⟨path, hpath, hclosed⟩ | ⟨state', hstate', hadvances⟩
    · rw [hpath]
      exact .inl ⟨path, rfl, hclosed⟩
    · rw [hstate']
      exact .inr ⟨_, rfl, hadvances.finish hfresh hout⟩

theorem visitAll_spec (nodes : List T) (hnodes : ∀ a ∈ nodes, a ∈ graph.nodes) {state : T → Mark}
    (h : Explored graph state []) : Ends graph [] nodes state (visitAll graph state nodes) := by
  induction nodes generalizing state with
  | nil => exact .inr ⟨state, rfl, h, by simp, fun _ => id, fun _ => id⟩
  | cons node nodes ih =>
    obtain ⟨hnode, hrest⟩ := List.forall_mem_cons.mp hnodes
    rw [visitAll]
    split
    · rename_i hfresh
      have hcalls : freshCount graph state ≤ graph.nodes.card := Finset.card_filter_le _ _
      rcases visit_spec graph _ [] state node h (by simp) hnode hfresh hcalls with
        ⟨path, hpath, hclosed⟩ | ⟨next, hnext, hfirst⟩
      · rw [hpath]
        exact .inl ⟨path, rfl, hclosed⟩
      · rw [hnext]
        rcases ih hrest hfirst.explored with hcycle | ⟨last, hlast, hmore⟩
        · exact .inl hcycle
        · refine .inr ⟨last, hlast, hmore.explored, ?_, fun a ha => hmore.kept a (hfirst.kept a ha),
            fun a ha => hfirst.fresh a (hmore.fresh a ha)⟩
          exact List.forall_mem_cons.mpr ⟨hmore.kept _ (hfirst.all node List.mem_cons_self),
            hmore.all⟩
    · rename_i hmarked
      have hdone : state node = .finished := by
        cases hmark : state node with
        | fresh => exact absurd hmark hmarked
        | active => exact absurd ((h.active_iff node).mp hmark) List.not_mem_nil
        | finished => rfl
      rcases ih hrest h with hcycle | ⟨last, hlast, hmore⟩
      · exact .inl hcycle
      · refine .inr ⟨last, hlast, hmore.explored, ?_, hmore.kept, hmore.fresh⟩
        exact List.forall_mem_cons.mpr ⟨hmore.kept _ hdone, hmore.all⟩

/-- The search finds a closed path, or there is no cycle. -/
theorem findCycle_spec (graph : DiGraph T) :
    (∃ path, findCycle graph = .ok (some path) ∧ ClosedPath graph.Edge path) ∨
      findCycle graph = .ok none ∧ Acyclic graph.Edge := by
  have hstart : Explored graph (fun _ => .fresh) [] := ⟨by simp, .nil, by simp⟩
  rcases visitAll_spec (graph.nodes.sort (· ≤ ·)) (fun a ha => (Finset.mem_sort _).mp ha)
    hstart with ⟨path, hpath, hclosed⟩ | ⟨state, hstate, hadvances⟩
  · exact .inl ⟨path, by rw [findCycle, hpath], hclosed⟩
  · refine .inr ⟨by rw [findCycle, hstate], acyclic_of_acc fun a => ?_⟩
    by_cases ha : a ∈ graph.nodes
    · exact hadvances.explored.ended a (hadvances.all a ((Finset.mem_sort _).mpr ha))
    · exact Acc.intro _ fun b hedge => absurd (graph.within _ hedge).1 ha

end Visits

section Construction

/-- What the documentation of `toposort` promises: an order puts each node before its successors,
and a node that it reports is on a cycle. -/
structure Documented (toposort : DiGraph T → Except T (List T)) : Prop where
  sorted : ∀ graph order, toposort graph = .ok order →
    (∀ a, a ∈ order ↔ a ∈ graph.nodes) ∧ order.Nodup ∧
      ∀ a b, graph.Edge a b → order.idxOf a < order.idxOf b
  cyclic : ∀ graph node, toposort graph = .error node → TransGen graph.Edge node node

/-- The relation given by its pairs. -/
def Pairs (relations : List (T × T)) (a b : T) : Prop := (a, b) ∈ relations

theorem edge_relationGraph (relations : List (T × T)) :
    (relationGraph relations.toFinset).Edge = Pairs relations := by
  funext a b
  simp [DiGraph.Edge, relationGraph, Pairs]

theorem mem_nodes (relations : List (T × T)) (a : T) :
    a ∈ (relationGraph relations.toFinset).nodes ↔
      ∃ b, Pairs relations a b ∨ Pairs relations b a := by
  simp only [relationGraph, Pairs, Finset.mem_union, Finset.mem_image, List.mem_toFinset,
    Prod.exists, exists_and_right, exists_eq_right, exists_or]

/-- What the queries of an order answer about the relation that it was built from. -/
structure Answers (R : T → T → Prop) (order : PartialOrder T) : Prop where
  elements : ∀ a, a ∈ order.elements ↔ ∃ b, R a b ∨ R b a
  lessThan : ∀ a b, order.lessThan a b = true ↔ TransGen R a b
  sorted_once : order.sortedElements.Nodup
  sorted_all : ∀ a, a ∈ order.sortedElements ↔ a ∈ order.elements
  sorted_least : ∀ front a back, order.sortedElements = front ++ a :: back →
    IsLeast {b | b ∈ order.elements ∧ b ∉ front ∧ ∀ c, R c b → c ∈ front} a
  upperBounds : ∀ members : List T, (∀ a ∈ members, a ∈ order.elements) →
    ∃ found, order.upperBounds members = .ok found ∧
      ∀ b, b ∈ found ↔ b ∈ order.elements ∧ ∀ a ∈ members, b = a ∨ TransGen R a b
  lowerBounds : ∀ members : List T, (∀ a ∈ members, a ∈ order.elements) →
    ∃ found, order.lowerBounds members = .ok found ∧
      ∀ b, b ∈ found ↔ b ∈ order.elements ∧ ∀ a ∈ members, b = a ∨ TransGen R b a
  minimal : ∀ (members : List T) a, a ∈ order.minimal members ↔
    a ∈ members ∧ ∀ b ∈ members, ¬ TransGen R b a
  maximal : ∀ (members : List T) a, a ∈ order.maximal members ↔
    a ∈ members ∧ ∀ b ∈ members, ¬ TransGen R a b
  components_apart : order.connectedComponents.Pairwise Disjoint
  components_all : ∀ a ∈ order.elements, ∃ component ∈ order.connectedComponents, a ∈ component
  components_class : ∀ component ∈ order.connectedComponents, ∃ a ∈ order.elements,
    ∀ b, b ∈ component ↔ EqvGen R a b

namespace PartialOrder

/-- An order that was built answers every query from its relation. -/
theorem Represents.answers {relations : List (T × T)} {order : PartialOrder T}
    (hacyclic : Acyclic (Pairs relations)) (h : Represents (Pairs relations) order)
    (hsorted : order.sorted = kahn (relationGraph relations.toFinset)) :
    Answers (Pairs relations) order where
  elements := h.elements_iff
  lessThan := h.lessThan_iff
  sorted_once := by
    rw [sortedElements, hsorted]
    exact kahn_nodup _
  sorted_all a := by
    rw [← edge_relationGraph] at hacyclic
    rw [sortedElements, hsorted, mem_kahn hacyclic, h.elements_iff, mem_nodes]
  sorted_least front a back hsplit := by
    rw [sortedElements, hsorted] at hsplit
    have hleast := (kahn_spec _).1 front a back hsplit
    simpa only [Ready, edge_relationGraph, mem_nodes, ← h.elements_iff] using hleast
  upperBounds _ := h.upperBounds_spec
  lowerBounds _ := h.lowerBounds_spec
  minimal _ _ := h.mem_minimal
  maximal _ _ := h.mem_maximal
  components_apart := h.components_spec.disjoint
  components_all a ha :=
    ((h.components_spec.covers a).mp ha).resolve_left (Finset.notMem_empty a)
  components_class := h.components_spec.class_of

variable {toposort : DiGraph T → Except T (List T)}

theorem new_acyclic (htoposort : Documented toposort) {relations : List (T × T)}
    (h : Acyclic (Pairs relations)) : ∃ order, new toposort relations = .ok (.ok order) ∧
      Represents (Pairs relations) order ∧
      order.sorted = kahn (relationGraph relations.toFinset) := by
  have hedge := edge_relationGraph relations
  rw [← hedge] at h
  obtain ⟨closure, hclosure, hkeys, hbelow⟩ := close_spec h
  refine ⟨⟨relations.toFinset, closure, kahn (relationGraph relations.toFinset)⟩, ?_, ⟨?_, ?_⟩, rfl⟩
  · unfold new
    cases hsort : toposort (relationGraph relations.toFinset) with
    | error node => exact absurd (htoposort.cyclic _ node hsort) (h node)
    | ok sorted => simp only [hsort, hclosure]
  · exact fun a => (hkeys a).trans (mem_nodes relations a)
  · rw [← hedge]
    exact hbelow

theorem new_cyclic (htoposort : Documented toposort) {relations : List (T × T)}
    (h : ¬ Acyclic (Pairs relations)) : ∃ path, new toposort relations = .ok (.error ⟨path⟩) ∧
      ClosedPath (Pairs relations) path ∧ firstCycle relations = .ok (some ⟨path⟩) := by
  rw [← edge_relationGraph] at h ⊢
  rcases findCycle_spec (relationGraph relations.toFinset) with ⟨path, hpath, hclosed⟩ | hnone
  · refine ⟨path, ?_, hclosed, by rw [firstCycle, hpath]; rfl⟩
    unfold new
    cases hsort : toposort (relationGraph relations.toFinset) with
    | error node => simp only [hsort, hpath]
    | ok sorted => exact absurd (acyclic_of_rank _ (htoposort.sorted _ sorted hsort).2.2) h
  · exact absurd hnone.2 h

theorem firstCycle_acyclic {relations : List (T × T)} (h : Acyclic (Pairs relations)) :
    firstCycle relations = .ok none := by
  rw [← edge_relationGraph] at h
  rcases findCycle_spec (relationGraph relations.toFinset) with ⟨path, -, hclosed⟩ | hnone
  · exact absurd h hclosed.not_acyclic
  · rw [firstCycle, hnone.1]
    rfl

/-- Construction succeeds exactly for the relations without a cycle, and then the order answers
from the relation; otherwise it reports a closed path, the one that `firstCycle` reports. -/
theorem new_correct (htoposort : Documented toposort) :
    (∀ relations : List (T × T), Acyclic (Pairs relations) →
      ∃ order, new toposort relations = .ok (.ok order) ∧ Answers (Pairs relations) order ∧
        firstCycle relations = .ok none) ∧
    (∀ relations : List (T × T), ¬ Acyclic (Pairs relations) →
      ∃ path, new toposort relations = .ok (.error ⟨path⟩) ∧ ClosedPath (Pairs relations) path ∧
        firstCycle relations = .ok (some ⟨path⟩)) ∧
    ∀ (relations relations' : List (T × T)) (order order' : PartialOrder T),
      new toposort relations = .ok (.ok order) → new toposort relations' = .ok (.ok order') →
        (order.eq order' = true ↔
          ∀ a b, TransGen (Pairs relations) a b ↔ TransGen (Pairs relations') a b) := by
  have hrepresents : ∀ {relations : List (T × T)} {order : PartialOrder T},
      new toposort relations = .ok (.ok order) → Represents (Pairs relations) order := by
    intro relations order hnew
    by_cases hacyclic : Acyclic (Pairs relations)
    · obtain ⟨built, hbuilt, hrep, -⟩ := new_acyclic htoposort hacyclic
      rw [hbuilt] at hnew
      cases hnew
      exact hrep
    · obtain ⟨path, hpath, -⟩ := new_cyclic htoposort hacyclic
      rw [hpath] at hnew
      cases hnew
  refine ⟨fun relations hacyclic => ?_, fun relations => new_cyclic htoposort,
    fun relations relations' order order' hnew hnew' =>
      (hrepresents hnew).eq_iff (hrepresents hnew')⟩
  obtain ⟨order, hnew, hrep, hsorted⟩ := new_acyclic htoposort hacyclic
  exact ⟨order, hnew, hrep.answers hacyclic hsorted, firstCycle_acyclic hacyclic⟩

/-- A sort as documented: the nodes in an order, or one of a cycle. -/
def sortNodes (graph : DiGraph T) : Except T (List T) :=
  match findCycle graph with
  | .ok (some (node :: _)) => .error node
  | _ => .ok (kahn graph)

theorem sortNodes_documented : Documented (sortNodes (T := T)) := by
  refine ⟨fun graph order hsort => ?_, fun graph node hsort => ?_⟩
  · rcases findCycle_spec graph with ⟨path, hpath, a, inner, rfl, -⟩ | ⟨hnone, hacyclic⟩
    · simp only [sortNodes, hpath] at hsort
      cases hsort
    · simp only [sortNodes, hnone] at hsort
      cases hsort
      refine ⟨mem_kahn hacyclic, kahn_nodup graph, fun a b hedge => ?_⟩
      obtain ⟨front, back, hsplit⟩ :=
        List.append_of_mem ((mem_kahn hacyclic a).mpr (graph.within _ hedge).1)
      have hafter := successors_after hacyclic hsplit hedge
      have hnodup := kahn_nodup graph
      rw [hsplit] at hnodup ⊢
      have hapart := (List.nodup_append'.mp hnodup).2.2
      have hfirst : a ∉ front := fun ha => hapart ha List.mem_cons_self
      have hlast : b ∉ front := fun hb => hapart hb (List.mem_cons_of_mem _ hafter)
      have hne : a ≠ b := by
        rintro rfl
        exact hacyclic a (.single hedge)
      rw [List.idxOf_append_of_notMem hfirst, List.idxOf_append_of_notMem hlast,
        List.idxOf_cons_self, List.idxOf_cons_ne _ hne]
      omega
  · rcases findCycle_spec graph with ⟨path, hpath, a, inner, rfl, hchain⟩ | ⟨hnone, -⟩
    · simp only [sortNodes, hpath] at hsort
      cases hsort
      exact transGen_of_chain hchain
    · simp only [sortNodes, hnone] at hsort
      cases hsort

/-- A diamond is an order, and with one more pair it is a cycle. -/
theorem new_correct_diamond :
    (∃ order, new sortNodes [(1, 2), (1, 3), (2, 4), (3, 4)] = .ok (.ok order) ∧
      Answers (Pairs [(1, 2), (1, 3), (2, 4), (3, 4)]) order) ∧
    ∃ path, new sortNodes [(1, 2), (1, 3), (2, 4), (3, 4), (4, 1)] = .ok (.error ⟨path⟩) ∧
      ClosedPath (Pairs [(1, 2), (1, 3), (2, 4), (3, 4), (4, 1)]) path := by
  have hacyclic : Acyclic (Pairs [(1, 2), (1, 3), (2, 4), (3, 4)]) := by
    refine acyclic_of_rank id fun a b hab => ?_
    simp only [Pairs, List.mem_cons, Prod.mk.injEq, List.not_mem_nil, or_false] at hab
    simp only [id]
    omega
  have hcyclic : ¬ Acyclic (Pairs [(1, 2), (1, 3), (2, 4), (3, 4), (4, 1)]) := by
    have hclosed : ClosedPath (Pairs [(1, 2), (1, 3), (2, 4), (3, 4), (4, 1)]) [1, 2, 4, 1] :=
      ⟨1, [2, 4], rfl, by simp [Pairs]⟩
    exact hclosed.not_acyclic
  obtain ⟨order, hnew, hanswers, -⟩ := (new_correct sortNodes_documented).1 _ hacyclic
  obtain ⟨path, hpath, hclosed, -⟩ := (new_correct sortNodes_documented).2.1 _ hcyclic
  exact ⟨⟨order, hnew, hanswers⟩, path, hpath, hclosed⟩

end PartialOrder

end Construction

end KRust.Definition
