import KRust.Definition.PartialOrder
import KRust.Lib.FiniteRelation
import KRust.Lib.Frontier

/-!
What a partial order answers: its closure is the transitive closure of its pairs, and the bounds,
the extremal elements and the components are the ones of that relation.
-/

namespace KRust.Definition

open Lib
open Relation (ReflTransGen TransGen EqvGen)

variable {T : Type} [LinearOrder T] {graph : DiGraph T}

section Sorting

/-- Every node of the sorted list was the least ready one, and at its end none is ready. -/
theorem kahn_spec (graph : DiGraph T) :
    (∀ front node back, kahn graph = front ++ node :: back →
      IsLeast {a | Ready graph front a} node) ∧ ∀ a, ¬ Ready graph (kahn graph) a := by
  refine (Sorting.loop graph).run_spec (Q := fun _ order =>
    (∀ front node back, order = front ++ node :: back → IsLeast {a | Ready graph front a} node) ∧
      ∀ a, ¬ Ready graph order a) ?_ (fun _ _ _ _ hrest => hrest) (Sorting.start graph)
  intro state order hturn
  simp only [Sorting.loop, Sorting.turn] at hturn
  split at hturn
  · cases hturn
  · rename_i hempty
    cases hturn
    refine ⟨state.least, fun a ha => hempty ⟨a, (state.ready_iff a).mpr ha⟩⟩

omit [LinearOrder T] in
theorem nodup_of_fresh {l : List T} (h : ∀ front a back, l = front ++ a :: back → a ∉ front) :
    l.Nodup := by
  induction l using List.reverseRecOn with
  | nil => exact .nil
  | append_singleton l a ih =>
    refine List.nodup_append'.mpr ⟨ih fun front b back hsplit => ?_, List.nodup_singleton a, ?_⟩
    · exact h front b (back ++ [a]) (by rw [hsplit, List.append_assoc, List.cons_append])
    · exact List.disjoint_singleton.mpr (h l a [] rfl)

theorem kahn_nodup (graph : DiGraph T) : (kahn graph).Nodup :=
  nodup_of_fresh fun front a back hsplit => ((kahn_spec graph).1 front a back hsplit).1.2.1

/-- Without cycles every node is sorted. -/
theorem mem_kahn (h : Acyclic graph.Edge) (a : T) : a ∈ kahn graph ↔ a ∈ graph.nodes := by
  constructor
  · intro ha
    obtain ⟨front, back, hsplit⟩ := List.append_of_mem ha
    exact ((kahn_spec graph).1 front a back hsplit).1.1
  · intro ha
    by_contra hrest
    have hleft : (graph.nodes \ (kahn graph).toFinset).Nonempty := ⟨a, by simp [ha, hrest]⟩
    obtain ⟨first, hfirst, hleast⟩ := h.exists_first hleft
    simp only [Finset.mem_sdiff, List.mem_toFinset] at hfirst hleast
    refine (kahn_spec graph).2 first ⟨hfirst.1, hfirst.2, fun b hedge => ?_⟩
    by_contra hb
    exact hleast b ⟨(graph.within _ hedge).1, hb⟩ hedge

/-- The successors of a node come after it. -/
theorem successors_after (h : Acyclic graph.Edge) {front back : List T} {a b : T}
    (hsplit : kahn graph = front ++ a :: back) (hedge : graph.Edge a b) : b ∈ back := by
  have ha := ((kahn_spec graph).1 front a back hsplit).1
  have hb : b ∈ front ++ a :: back := by
    rw [← hsplit, mem_kahn h]
    exact (graph.within _ hedge).2
  rcases List.mem_append.mp hb with hfront | hback
  · obtain ⟨before, between, rfl⟩ := List.append_of_mem hfront
    have hready := ((kahn_spec graph).1 before b (between ++ a :: back)
      (by rw [hsplit, List.append_assoc, List.cons_append])).1
    exact absurd (List.mem_append_left _ (hready.2.2 a hedge)) ha.2.1
  · rcases List.mem_cons.mp hback with rfl | hback
    · exact absurd (.single hedge) (h b)
    · exact hback

end Sorting

section Closing

/-- An element is below another in a closure. -/
def Below (closure : SortedMap T (Finset T)) (a b : T) : Prop :=
  ∃ found, closure.get a = some found ∧ b ∈ found

theorem get_emptyClosure (elements : Finset T) (a : T) :
    (emptyClosure elements).get a = if a ∈ elements then some ∅ else none := by
  split
  · rename_i ha
    rw [SortedMap.get_eq_some]
    exact List.mem_map.mpr ⟨a, (Finset.mem_sort _).mpr ha, rfl⟩
  · rename_i ha
    rw [← SortedMap.not_mem_keys]
    simpa [SortedMap.keys, emptyClosure] using ha

variable {closure : SortedMap T (Finset T)}

/-- A node inherits what its successor is below; the other entries stay. -/
theorem inherit_spec {node successor : T} (hnode : node ∈ closure.keys)
    (hsuccessor : successor ∈ closure.keys) : ∃ closure',
    inherit node closure successor = .ok closure' ∧
      (∀ a, a ∈ closure'.keys ↔ a ∈ closure.keys) ∧ ∀ a b, Below closure' a b ↔
        Below closure a b ∨ a = node ∧ (b = successor ∨ Below closure successor b) := by
  obtain ⟨found, hfound⟩ := SortedMap.mem_keys.mp hnode
  obtain ⟨inherited, hinherited⟩ := SortedMap.mem_keys.mp hsuccessor
  refine ⟨_, by rw [inherit, hinherited, hfound], fun a => ?_, fun a b => ?_⟩
  · rw [SortedMap.mem_keys, SortedMap.mem_keys, SortedMap.get_insert]
    split
    · rename_i ha
      simp [ha, hfound]
    · rfl
  · simp only [Below, SortedMap.get_insert]
    split
    · rename_i ha
      simp only [ha, hfound, hinherited, Option.some.injEq, exists_eq_left', Finset.mem_union,
        Finset.mem_insert, true_and]
    · rename_i ha
      simp only [ha, false_and, or_false]

/-- A node inherits what its successors are below. -/
theorem inheritAll_spec {node : T} (successors : List T) (hnode : node ∈ closure.keys)
    (hsuccessors : ∀ successor ∈ successors, successor ∈ closure.keys ∧ successor ≠ node) :
    ∃ closure', successors.foldlM (inherit node) closure = .ok closure' ∧
      (∀ a, a ∈ closure'.keys ↔ a ∈ closure.keys) ∧ ∀ a b, Below closure' a b ↔
        Below closure a b ∨
          a = node ∧ ∃ successor ∈ successors, b = successor ∨ Below closure successor b := by
  induction successors generalizing closure with
  | nil => exact ⟨closure, rfl, fun _ => Iff.rfl, by simp⟩
  | cons successor successors ih =>
    obtain ⟨hfirst, hrest⟩ := List.forall_mem_cons.mp hsuccessors
    obtain ⟨next, hnext, hkeys, hbelow⟩ := inherit_spec hnode hfirst.1
    obtain ⟨last, hlast, hkeys', hbelow'⟩ := ih ((hkeys node).mpr hnode)
      fun a ha => ⟨(hkeys a).mpr (hrest a ha).1, (hrest a ha).2⟩
    refine ⟨last, ?_, fun a => (hkeys' a).trans (hkeys a), fun a b => ?_⟩
    · rw [List.foldlM_cons, hnext]
      exact hlast
    · have hsame : ∀ c ∈ successors, Below next c b ↔ Below closure c b := by
        intro c hc
        rw [hbelow]
        simp [(hrest c hc).2]
      have hmore : (∃ c ∈ successors, b = c ∨ Below next c b) ↔
          ∃ c ∈ successors, b = c ∨ Below closure c b := by
        refine exists_congr fun c => and_congr_right fun hc => ?_
        rw [hsame c hc]
      rw [hbelow', hbelow, hmore, or_assoc, ← and_or_left, List.exists_mem_cons_iff]

/-- What a node reaches is a successor, or its successors are below it. -/
theorem above_successors {node b : T} {back : List T}
    (hbelow : ∀ a b, Below closure a b ↔ a ∈ back ∧ TransGen graph.Edge a b)
    (hafter : ∀ a ∈ graph.successors node, a ∈ back) :
    (∃ c ∈ graph.successors node, b = c ∨ Below closure c b) ↔ TransGen graph.Edge node b := by
  rw [Relation.TransGen.head'_iff]
  constructor
  · rintro ⟨c, hc, rfl | hmore⟩
    · exact ⟨b, DiGraph.mem_successors.mp hc, .refl⟩
    · exact ⟨c, DiGraph.mem_successors.mp hc, ((hbelow c b).mp hmore).2.to_reflTransGen⟩
  · rintro ⟨c, hedge, hreach⟩
    refine ⟨c, DiGraph.mem_successors.mpr hedge, ?_⟩
    rcases Relation.reflTransGen_iff_eq_or_transGen.mp hreach with rfl | hmore
    · exact .inl rfl
    · exact .inr ((hbelow c b).mpr ⟨hafter c (DiGraph.mem_successors.mpr hedge), hmore⟩)

/-- What an element is below, once the successors of the nodes up to it are known. -/
theorem close_spec (h : Acyclic graph.Edge) : ∃ closure,
    close graph (kahn graph) = .ok closure ∧ (∀ a, a ∈ closure.keys ↔ a ∈ graph.nodes) ∧
      ∀ a b, Below closure a b ↔ TransGen graph.Edge a b := by
  have hsuffix : ∀ front back, kahn graph = front ++ back → ∃ closure,
      back.reverse.foldlM (closeNode graph) (emptyClosure graph.nodes) = .ok closure ∧
        (∀ a, a ∈ closure.keys ↔ a ∈ graph.nodes) ∧
        ∀ a b, Below closure a b ↔ a ∈ back ∧ TransGen graph.Edge a b := by
    intro front back hsplit
    induction back generalizing front with
    | nil =>
      refine ⟨emptyClosure graph.nodes, rfl, fun a => ?_, fun a b => ?_⟩
      · rw [SortedMap.mem_keys, get_emptyClosure]
        split <;> simp_all
      · simp only [Below, get_emptyClosure]
        split <;> simp
    | cons node back ih =>
      obtain ⟨closure, hclosure, hkeys, hbelow⟩ := ih (front ++ [node]) (by simp [hsplit])
      have hnode : node ∈ graph.nodes := by
        rw [← mem_kahn h, hsplit]
        simp
      have hafter : ∀ a ∈ graph.successors node, a ∈ back := fun a ha =>
        successors_after h hsplit (DiGraph.mem_successors.mp ha)
      have hfresh : node ∉ back := by
        have hnodup := kahn_nodup graph
        rw [hsplit] at hnodup
        exact (List.nodup_cons.mp (List.nodup_append'.mp hnodup).2.1).1
      obtain ⟨closure', hclosure', hkeys', hbelow'⟩ := inheritAll_spec
        (graph.successors node) ((hkeys node).mpr hnode) (by
          intro a ha
          refine ⟨(hkeys a).mpr (graph.within _ (DiGraph.mem_successors.mp ha)).2, ?_⟩
          rintro rfl
          exact hfresh (hafter a ha))
      refine ⟨closure', ?_, fun a => (hkeys' a).trans (hkeys a), fun a b => ?_⟩
      · rw [List.reverse_cons, List.foldlM_append, hclosure]
        show (closeNode graph closure node >>= pure) = _
        rw [bind_pure]
        exact hclosure'
      · rw [hbelow', hbelow, above_successors hbelow hafter, List.mem_cons]
        by_cases ha : a = node
        · subst ha
          simp [hfresh]
        · simp [ha]
  obtain ⟨closure, hclosure, hkeys, hbelow⟩ := hsuffix [] (kahn graph) rfl
  refine ⟨closure, hclosure, hkeys, fun a b => ?_⟩
  rw [hbelow]
  refine ⟨And.right, fun hab => ⟨(mem_kahn h a).mpr ?_, hab⟩⟩
  obtain ⟨c, hedge, -⟩ := Relation.TransGen.head'_iff.mp hab
  exact (graph.within _ hedge).1

end Closing

namespace PartialOrder

variable {R : T → T → Prop} {order : PartialOrder T}

/-- An order whose elements are those of a relation and whose closure is its transitive closure. -/
structure Represents (R : T → T → Prop) (order : PartialOrder T) : Prop where
  elements_iff : ∀ a, a ∈ order.elements ↔ ∃ b, R a b ∨ R b a
  below_iff : ∀ a b, Below order.closure a b ↔ TransGen R a b

theorem lessThan_eq (order : PartialOrder T) (a b : T) :
    order.lessThan a b = true ↔ Below order.closure a b := by
  simp [lessThan, Below, Option.any_eq_true]

theorem Represents.lessThan_iff (h : Represents R order) (a b : T) :
    order.lessThan a b = true ↔ TransGen R a b :=
  (order.lessThan_eq a b).trans (h.below_iff a b)

theorem Represents.lessThanEq_iff (h : Represents R order) (a b : T) :
    order.lessThanEq a b = true ↔ a = b ∨ TransGen R a b := by
  rw [lessThanEq, Bool.or_eq_true, h.lessThan_iff, beq_iff_eq]

theorem Represents.mem_of_below (h : Represents R order) {a b : T} (hab : TransGen R a b) :
    a ∈ order.elements ∧ b ∈ order.elements := by
  obtain ⟨first, hfirst, -⟩ := Relation.TransGen.head'_iff.mp hab
  obtain ⟨last, -, hlast⟩ := Relation.TransGen.tail'_iff.mp hab
  exact ⟨(h.elements_iff a).mpr ⟨first, .inl hfirst⟩, (h.elements_iff b).mpr ⟨last, .inr hlast⟩⟩

/-- Orders with the same closure are the same to a comparison. -/
theorem Represents.eq_iff (h : Represents R order) {R' : T → T → Prop} {other : PartialOrder T}
    (h' : Represents R' other) :
    order.eq other = true ↔ ∀ a b, TransGen R a b ↔ TransGen R' a b := by
  rw [eq, decide_eq_true_eq]
  constructor
  · intro heq a b
    rw [← h.below_iff, ← h'.below_iff, heq]
  · intro hsame
    have hkeys : ∀ a, a ∈ order.closure.keys ↔ a ∈ other.closure.keys := by
      intro a
      have helements : a ∈ order.elements ↔ a ∈ other.elements := by
        rw [h.elements_iff, h'.elements_iff, exists_related_iff, exists_related_iff (R := R')]
        simp only [hsame]
      exact helements
    apply SortedMap.ext_get
    intro a
    cases hget : order.closure.get a with
    | none =>
      rw [← SortedMap.not_mem_keys, hkeys, SortedMap.not_mem_keys] at hget
      exact hget.symm
    | some found =>
      obtain ⟨found', hfound'⟩ := SortedMap.mem_keys.mp
        ((hkeys a).mp (SortedMap.mem_keys.mpr ⟨found, hget⟩))
      have hfound : found = found' := by
        ext b
        have hsides := (h.below_iff a b).trans ((hsame a b).trans (h'.below_iff a b).symm)
        simpa [Below, hget, hfound'] using hsides
      rw [hfound', hfound]

section Bounds

variable {neighbours : T → Option (Finset T)}

omit [LinearOrder T] in
theorem seed_spec (neighbours : T → Option (Finset T)) (members : List T)
    (found : Option (T × Finset T))
    (hmembers : ∀ a ∈ members, ∃ candidates, neighbours a = some candidates)
    (hsome : members = [] → found.isSome) : ∃ member candidates,
      seed neighbours found members = some (some (member, candidates)) ∧
        (found = some (member, candidates) ∨
          member ∈ members ∧ neighbours member = some candidates) := by
  induction members generalizing found with
  | nil =>
    obtain ⟨first, hfirst⟩ := Option.isSome_iff_exists.mp (hsome rfl)
    exact ⟨first.1, first.2, by rw [seed, hfirst], .inl hfirst⟩
  | cons element members ih =>
    obtain ⟨hfirst, hrest⟩ := List.forall_mem_cons.mp hmembers
    obtain ⟨candidates, hcandidates⟩ := hfirst
    rw [seed, hcandidates]
    dsimp only
    split
    · obtain ⟨member, best, hseed, hfrom⟩ := ih (some (element, candidates)) hrest
        (fun _ => rfl)
      refine ⟨member, best, hseed, .inr ?_⟩
      rcases hfrom with heq | ⟨hmem, hbest⟩
      · cases heq
        exact ⟨List.mem_cons_self, hcandidates⟩
      · exact ⟨List.mem_cons_of_mem _ hmem, hbest⟩
    · rename_i hkept
      have hfound : found.isSome := by
        cases found with
        | none => exact absurd rfl hkept
        | some first => rfl
      obtain ⟨member, best, hseed, hfrom⟩ := ih found hrest (fun _ => hfound)
      exact ⟨member, best, hseed, hfrom.imp id fun h => ⟨List.mem_cons_of_mem _ h.1, h.2⟩⟩

/-- The candidates of one member hold every bound. -/
theorem bounds_spec (strict : T → T → Prop) {relation : T → T → Bool} {members : List T}
    (hmembers : ∀ a ∈ members, a ∈ order.elements)
    (hneighbours : ∀ a ∈ order.elements, ∃ candidates, neighbours a = some candidates ∧
      ∀ b, b ∈ candidates ↔ strict b a)
    (hrelation : ∀ a b, relation b a = true ↔ b = a ∨ strict b a)
    (hstrict : ∀ a b, strict b a → b ∈ order.elements) :
    ∃ found, order.bounds members neighbours relation = .ok found ∧
      ∀ b, b ∈ found ↔ b ∈ order.elements ∧ ∀ a ∈ members, b = a ∨ strict b a := by
  rw [bounds]
  split
  · rename_i hempty
    rw [List.isEmpty_iff.mp hempty]
    exact ⟨_, rfl, by simp⟩
  · rename_i hne
    obtain ⟨member, candidates, hseed, hfrom⟩ := seed_spec neighbours members none
      (fun a ha => (hneighbours a (hmembers a ha)).imp fun _ => And.left)
      (fun hnil => absurd (List.isEmpty_iff.mpr hnil) hne)
    obtain ⟨hmem, hcandidates⟩ := hfrom.resolve_left nofun
    obtain ⟨candidates', heq, hiff⟩ := hneighbours member (hmembers member hmem)
    cases hcandidates.symm.trans heq
    rw [hseed]
    refine ⟨_, rfl, fun b => ?_⟩
    simp only [Finset.mem_filter, Finset.mem_insert, hiff, List.all_eq_true, hrelation]
    constructor
    · rintro ⟨hb, hall⟩
      refine ⟨?_, hall⟩
      rcases hb with rfl | hb
      · exact hmembers b hmem
      · exact hstrict member b hb
    · rintro ⟨-, hall⟩
      exact ⟨hall member hmem, hall⟩

theorem Represents.upperBounds_spec (h : Represents R order) {members : List T}
    (hmembers : ∀ a ∈ members, a ∈ order.elements) :
    ∃ found, order.upperBounds members = .ok found ∧
      ∀ b, b ∈ found ↔ b ∈ order.elements ∧ ∀ a ∈ members, b = a ∨ TransGen R a b := by
  refine bounds_spec (fun b a => TransGen R a b) hmembers ?_ ?_
    fun a b hab => (h.mem_of_below hab).2
  · intro a ha
    obtain ⟨candidates, hget⟩ := SortedMap.mem_keys.mp ha
    refine ⟨candidates, hget, fun b => ?_⟩
    rw [← h.below_iff]
    simp [Below, hget]
  · intro a b
    rw [h.lessThanEq_iff, eq_comm]

/-- Every entry adds its relations, and no step changes the keys. -/
theorem foldlM_below {I : Type} (K : T → Prop)
    (step : SortedMap T (Finset T) → I → Except Panic (SortedMap T (Finset T)))
    (Adds : I → T → T → Prop) (items : List I)
    (hstep : ∀ map, (∀ a, a ∈ map.keys ↔ K a) → ∀ item ∈ items, ∃ map', step map item = .ok map' ∧
      (∀ a, a ∈ map'.keys ↔ K a) ∧ ∀ a b, Below map' a b ↔ Below map a b ∨ Adds item a b)
    {map : SortedMap T (Finset T)} (hmap : ∀ a, a ∈ map.keys ↔ K a) :
    ∃ map', items.foldlM step map = .ok map' ∧ (∀ a, a ∈ map'.keys ↔ K a) ∧
      ∀ a b, Below map' a b ↔ Below map a b ∨ ∃ item ∈ items, Adds item a b := by
  induction items generalizing map with
  | nil => exact ⟨map, rfl, hmap, by simp⟩
  | cons item items ih =>
    obtain ⟨next, hnext, hkeys, hadds⟩ := hstep map hmap item List.mem_cons_self
    obtain ⟨last, hlast, hkeys', hmore⟩ := ih
      (fun map hmap item hitem => hstep map hmap item (List.mem_cons_of_mem _ hitem)) hkeys
    refine ⟨last, ?_, hkeys', fun a b => ?_⟩
    · rw [List.foldlM_cons, hnext]
      exact hlast
    · rw [hmore, hadds, or_assoc, List.exists_mem_cons_iff]

theorem addPredecessor_spec {map : SortedMap T (Finset T)} {K : T → Prop}
    (hmap : ∀ a, a ∈ map.keys ↔ K a) (lesser : T) {greater : T} (hgreater : K greater) :
    ∃ map', addPredecessor lesser map greater = .ok map' ∧ (∀ a, a ∈ map'.keys ↔ K a) ∧
      ∀ a b, Below map' a b ↔ Below map a b ∨ a = greater ∧ b = lesser := by
  obtain ⟨found, hfound⟩ := SortedMap.mem_keys.mp ((hmap greater).mpr hgreater)
  refine ⟨_, by rw [addPredecessor, hfound], fun a => ?_, fun a b => ?_⟩
  · rw [← hmap a, SortedMap.mem_keys, SortedMap.mem_keys, SortedMap.get_insert]
    split
    · rename_i ha
      simp [ha, hfound]
    · rfl
  · simp only [Below, SortedMap.get_insert]
    split
    · rename_i ha
      simp only [ha, hfound, Option.some.injEq, exists_eq_left', Finset.mem_insert, true_and]
      exact or_comm
    · rename_i ha
      simp only [ha, false_and, or_false]

/-- Every successor is an element, and its predecessors are the elements below it. -/
theorem Represents.predecessors_spec (h : Represents R order) :
    ∃ predecessors, order.predecessors = .ok predecessors ∧
      (∀ a, a ∈ predecessors.keys ↔ a ∈ order.elements) ∧
      ∀ a b, Below predecessors a b ↔ TransGen R b a := by
  have hempty : ∀ a b, ¬ Below (order.closure.map fun _ _ => (∅ : Finset T)) a b := by
    rintro a b ⟨found, hget, hb⟩
    rw [SortedMap.get_map, Option.map_eq_some_iff] at hget
    obtain ⟨_, -, rfl⟩ := hget
    exact Finset.notMem_empty b hb
  have hbelow : ∀ entry ∈ order.closure.entries, ∀ b ∈ entry.2, TransGen R entry.1 b :=
    fun entry hentry b hb =>
      (h.below_iff entry.1 b).mp ⟨entry.2, SortedMap.get_eq_some.mpr hentry, hb⟩
  obtain ⟨predecessors, hrun, hkeys, hiff⟩ := foldlM_below (· ∈ order.elements)
    (fun predecessors (entry : T × Finset T) =>
      (entry.2.sort (· ≤ ·)).foldlM (addPredecessor entry.1) predecessors)
    (fun entry a b => ∃ greater ∈ entry.2.sort (· ≤ ·), a = greater ∧ b = entry.1)
    order.closure.entries
    (by
      intro map hmap entry hentry
      apply foldlM_below (· ∈ order.elements) _ _ _ _ hmap
      intro map hmap greater hgreater
      apply addPredecessor_spec hmap
      exact (h.mem_of_below (hbelow entry hentry greater ((Finset.mem_sort _).mp hgreater))).2)
    (fun a => by rw [SortedMap.keys_map]; rfl)
  refine ⟨predecessors, hrun, hkeys, fun a b => ?_⟩
  rw [hiff, ← h.below_iff, or_iff_right (hempty a b)]
  constructor
  · rintro ⟨entry, hentry, greater, hgreater, rfl, rfl⟩
    exact ⟨entry.2, SortedMap.get_eq_some.mpr hentry, (Finset.mem_sort _).mp hgreater⟩
  · rintro ⟨found, hget, ha⟩
    exact ⟨(b, found), SortedMap.get_eq_some.mp hget, a, (Finset.mem_sort _).mpr ha, rfl, rfl⟩

theorem Represents.lowerBounds_spec (h : Represents R order) {members : List T}
    (hmembers : ∀ a ∈ members, a ∈ order.elements) :
    ∃ found, order.lowerBounds members = .ok found ∧
      ∀ b, b ∈ found ↔ b ∈ order.elements ∧ ∀ a ∈ members, b = a ∨ TransGen R b a := by
  obtain ⟨predecessors, hrun, hkeys, hbelow⟩ := h.predecessors_spec
  rw [lowerBounds, hrun]
  refine bounds_spec (fun b a => TransGen R b a) hmembers ?_ ?_
    fun a b hab => (h.mem_of_below hab).1
  · intro a ha
    obtain ⟨candidates, hget⟩ := SortedMap.mem_keys.mp ((hkeys a).mpr ha)
    refine ⟨candidates, hget, fun b => ?_⟩
    rw [← hbelow]
    simp [Below, hget]
  · exact fun a b => h.lessThanEq_iff b a

theorem Represents.mem_minimal (h : Represents R order) {members : List T} {a : T} :
    a ∈ order.minimal members ↔ a ∈ members ∧ ∀ b ∈ members, ¬ TransGen R b a := by
  simp [minimal, ← h.lessThan_iff]

theorem Represents.mem_maximal (h : Represents R order) {members : List T} {a : T} :
    a ∈ order.maximal members ↔ a ∈ members ∧ ∀ b ∈ members, ¬ TransGen R a b := by
  simp [maximal, ← h.lessThan_iff]

end Bounds

section Components

/-- Related to each other in one direction or the other. -/
def Joined (R : T → T → Prop) (a b : T) : Prop := TransGen R a b ∨ TransGen R b a

/-- The state of a collection: what is in the component or pending is marked, and what is pending
but not in the component waits. -/
structure Collects (R : T → T → Prop) (start : T) (unseen : Finset T) (state : Collecting T) :
    Prop where
  frontier : Frontier (Joined R) (· = start)
    (fun a => a ∈ state.component ∨ a ∈ state.pending)
    (fun a => a ∈ state.pending ∧ a ∉ state.component)
  unseen_eq : state.unseen = unseen \ state.component

theorem Collects.turn (h : Represents R order) {start : T} {unseen : Finset T}
    {state next : Collecting T} (hstate : Collects R start unseen state)
    (hturn : Collecting.turn order state = .inr next) : Collects R start unseen next := by
  obtain ⟨seen, component, pending⟩ := state
  obtain ⟨hfrontier, hunseen⟩ := hstate
  cases pending with
  | nil => cases hturn
  | cons element pending =>
    simp only [Collecting.turn] at hturn
    split at hturn
    · rename_i hmem
      cases hturn
      have hmarked : (fun a => a ∈ component ∨ a ∈ element :: pending) =
          fun a => a ∈ component ∨ a ∈ pending := by
        funext a
        by_cases ha : a = element
        · simp [ha, hmem]
        · simp [ha]
      have hwaits : (fun a => a ∈ element :: pending ∧ a ∉ component) =
          fun a => a ∈ pending ∧ a ∉ component := by
        funext a
        by_cases ha : a = element
        · simp [ha, hmem]
        · simp [ha]
      refine ⟨?_, hunseen⟩
      dsimp only at hfrontier ⊢
      rwa [hmarked, hwaits] at hfrontier
    · rename_i hfresh
      cases hturn
      have hneighbours : ∀ b, b ∈ order.neighbours (insert element component) element ↔
          Joined R element b ∧ b ≠ element ∧ b ∉ component := by
        intro b
        have hmem : Joined R element b → b ∈ order.elements := by
          rintro (hup | hdown)
          · exact (h.mem_of_below hup).2
          · exact (h.mem_of_below hdown).1
        simp only [neighbours, List.mem_filter, Bool.and_eq_true, Bool.or_eq_true, h.lessThan_iff,
          decide_eq_true_eq, Finset.mem_insert, not_or]
        constructor
        · rintro ⟨_, hj, hb⟩
          exact ⟨hj, hb⟩
        · rintro ⟨hj, hb⟩
          exact ⟨hmem hj, hj, hb⟩
      refine ⟨hfrontier.expand (a := element) ⟨List.mem_cons_self, hfresh⟩ ?_ ?_ ?_ ?_, ?_⟩
      · intro b
        simp only [List.mem_append, List.mem_reverse, hneighbours, Finset.mem_insert,
          List.mem_cons]
        tauto
      · intro b
        simp only [List.mem_append, List.mem_reverse, hneighbours, Finset.mem_insert,
          List.mem_cons]
        tauto
      · intro b
        simp only [List.mem_append, List.mem_reverse, hneighbours, Finset.mem_insert,
          List.mem_cons]
        tauto
      · intro b
        simp only [List.mem_append, List.mem_reverse, hneighbours, Finset.mem_insert,
          List.mem_cons]
        tauto
      · dsimp only at hunseen ⊢
        rw [hunseen, Finset.sdiff_insert]

/-- The component of an element is what is connected to it, and leaves the unseen elements. -/
theorem Represents.collect_spec (h : Represents R order) (unseen : Finset T) (start : T) :
    (∀ a, a ∈ (order.collect unseen start).component ↔ EqvGen R start a) ∧
      (order.collect unseen start).unseen = unseen \ (order.collect unseen start).component := by
  have hlast := order.collecting.run_spec (Q := fun state last =>
    Collects R start unseen state → Collects R start unseen last ∧ last.pending = []) ?_ ?_
    ⟨unseen, ∅, [start]⟩ ?_
  · obtain ⟨⟨hfrontier, hunseen⟩, hempty⟩ := hlast
    refine ⟨fun a => ?_, hunseen⟩
    have hmarked := hfrontier.marked_iff (by simp [hempty]) a
    simp only [hempty, List.not_mem_nil, or_false, exists_eq_left] at hmarked
    exact hmarked.trans reach_iff_eqvGen
  · intro state last hturn hstate
    obtain ⟨seen, component, pending⟩ := state
    cases pending with
    | nil =>
      cases hturn
      exact ⟨hstate, rfl⟩
    | cons element pending =>
      simp only [collecting, Collecting.turn] at hturn
      split at hturn <;> cases hturn
  · exact fun state next last hturn hrest hstate => hrest (hstate.turn h hturn)
  · refine ⟨⟨?_, ?_, ?_, ?_⟩, by simp⟩
    · simp
    · intro a ha
      obtain rfl : a = start := by simpa using ha
      exact ⟨a, rfl, .refl⟩
    · simp
    · intro a ha hdone
      simp only [Finset.notMem_empty, false_or, not_false_eq_true, and_true] at ha hdone
      exact absurd ha hdone

/-- The components that were collected, and the elements left, of which none is connected to a
component. -/
structure Splits (R : T → T → Prop) (order : PartialOrder T) (unseen : Finset T)
    (components : List (Finset T)) : Prop where
  class_of : ∀ component ∈ components, ∃ a ∈ order.elements, ∀ b, b ∈ component ↔ EqvGen R a b
  disjoint : components.Pairwise Disjoint
  covers : ∀ a, a ∈ order.elements ↔ a ∈ unseen ∨ ∃ component ∈ components, a ∈ component
  apart : ∀ component ∈ components, Disjoint unseen component

/-- The class of an unseen element is collected. -/
theorem Splits.collect (h : Represents R order) {unseen : Finset T} {components : List (Finset T)}
    (hsplits : Splits R order unseen components) {start : T} (hstart : start ∈ unseen) :
    Splits R order (order.collect (unseen.erase start) start).unseen
      (components ++ [(order.collect (unseen.erase start) start).component]) := by
  obtain ⟨hcomponent, hunseen⟩ := h.collect_spec (unseen.erase start) start
  generalize (order.collect (unseen.erase start) start).component = component at *
  rw [hunseen]
  have hself : start ∈ component := (hcomponent start).mpr (.refl start)
  have hstays : ∀ a, EqvGen R start a → a ∈ unseen := by
    intro a hconnected
    have ha : a ∈ order.elements := by
      by_cases heq : a = start
      · rw [heq]
        exact (hsplits.covers start).mpr (.inl hstart)
      · rcases Relation.reflTransGen_iff_eq_or_transGen.mp (reach_iff_eqvGen.mpr hconnected) with
          rfl | hsteps
        · exact absurd rfl heq
        · obtain ⟨c, -, hup | hdown⟩ := Relation.TransGen.tail'_iff.mp hsteps
          · exact (h.mem_of_below hup).2
          · exact (h.mem_of_below hdown).1
    rcases (hsplits.covers a).mp ha with hleft | ⟨other, hother, hmem⟩
    · exact hleft
    · obtain ⟨root, -, hroot⟩ := hsplits.class_of other hother
      have hback : start ∈ other :=
        (hroot start).mpr (((hroot a).mp hmem).trans _ _ _ (hconnected.symm))
      exact absurd hback (Finset.disjoint_left.mp (hsplits.apart other hother) hstart)
  refine ⟨?_, ?_, fun a => ?_, ?_⟩
  · intro other hother
    rcases List.mem_append.mp hother with hold | hnew
    · exact hsplits.class_of other hold
    · rw [List.mem_singleton.mp hnew]
      exact ⟨start, (hsplits.covers start).mpr (.inl hstart), hcomponent⟩
  · refine List.pairwise_append.mpr ⟨hsplits.disjoint, List.pairwise_singleton _ _, ?_⟩
    intro other hother last hlast
    rw [List.mem_singleton.mp hlast]
    refine (Finset.disjoint_left.mpr fun a ha => ?_).symm
    exact Finset.disjoint_left.mp (hsplits.apart other hother) (hstays a ((hcomponent a).mp ha))
  · rw [hsplits.covers a]
    simp only [Finset.mem_sdiff, Finset.mem_erase, List.mem_append, List.mem_singleton]
    constructor
    · rintro (hleft | ⟨other, hother, ha⟩)
      · by_cases ha : a ∈ component
        · exact .inr ⟨component, .inr rfl, ha⟩
        · exact .inl ⟨⟨fun heq => ha (heq ▸ hself), hleft⟩, ha⟩
      · exact .inr ⟨other, .inl hother, ha⟩
    · rintro (⟨⟨-, hleft⟩, -⟩ | ⟨other, hother | rfl, ha⟩)
      · exact .inl hleft
      · exact .inr ⟨other, hother, ha⟩
      · exact .inl (hstays a ((hcomponent a).mp ha))
  · intro other hother
    rcases List.mem_append.mp hother with hold | hnew
    · refine Disjoint.mono_left ?_ (hsplits.apart other hold)
      exact Finset.sdiff_subset.trans (Finset.erase_subset _ _)
    · rw [List.mem_singleton.mp hnew]
      exact Finset.sdiff_disjoint

/-- The components are the classes of the connected elements, each once. -/
theorem Represents.components_spec (h : Represents R order) :
    Splits R order ∅ order.connectedComponents := by
  refine order.components.run_spec (Q := fun state components =>
    Splits R order state.1 state.2 → Splits R order ∅ components) ?_ ?_ (order.elements.toFinset, [])
    ⟨by simp, .nil, by simp, by simp⟩
  · intro state components hturn hsplits
    simp only [PartialOrder.components] at hturn
    split at hturn
    · cases hturn
    · rename_i hempty
      cases hturn
      rwa [Finset.not_nonempty_iff_eq_empty.mp hempty] at hsplits
  · intro state next components hturn hrest hsplits
    simp only [PartialOrder.components] at hturn
    split at hturn
    · rename_i hready
      cases hturn
      exact hrest (hsplits.collect h (state.1.min'_mem hready))
    · cases hturn

end Components

end PartialOrder

end KRust.Definition
