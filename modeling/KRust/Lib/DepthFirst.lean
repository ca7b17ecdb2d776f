import KRust.Lib.Frontier
import KRust.Lib.Worklist

/-!
Depth-first walks with an explicit stack, and the order in which a walk finishes the vertices:
every vertex that a vertex reaches is finished before one that is strongly connected to it.
-/

namespace KRust.Lib

open Relation (ReflTransGen)

/-- A walk: the vertices it visited, the path it is on with the index of the next successor of
each vertex, and the vertices it finished, the last one first. -/
structure Walk (α : Type) where
  visited : α → Bool
  stack : List (α × Nat)
  finished : List α

namespace Walk

section Turns

variable {α : Type} [DecidableEq α]

/-- The vertex on top goes on to its next successor, or it is finished. -/
def turn (successors : α → List α) (walk : Walk α) : Walk α ⊕ Walk α :=
  match walk.stack with
  | [] => .inl walk
  | (vertex, next) :: stack =>
    match (successors vertex)[next]? with
    | some successor =>
      let stack := (vertex, next + 1) :: stack
      if walk.visited successor then .inr { walk with stack := stack }
      else
        .inr { walk with
          visited := Function.update walk.visited successor true
          stack := (successor, 0) :: stack }
    | none => .inr { walk with stack := stack, finished := vertex :: walk.finished }

variable [Fintype α]

/-- The turns left: two for each unvisited vertex and one for each of its successors. -/
def weight (successors : α → List α) (walk : Walk α) : Nat :=
  unmarkedWeight (fun vertex => (successors vertex).length + 2) walk.visited +
    (walk.stack.map fun (vertex, next) => (successors vertex).length - next + 1).sum

theorem weight_turn {successors : α → List α} {walk walk' : Walk α}
    (h : walk.turn successors = .inr walk') :
    walk'.weight successors < walk.weight successors := by
  obtain ⟨visited, stack, finished⟩ := walk
  cases stack with
  | nil => cases h
  | cons top stack =>
    obtain ⟨vertex, next⟩ := top
    simp only [turn] at h
    split at h
    · rename_i successor hsuccessor
      have hnext : next < (successors vertex).length :=
        (List.getElem?_eq_some_iff.mp hsuccessor).1
      split at h
      · cases h
        simp only [weight, List.map_cons, List.sum_cons]
        omega
      · rename_i hfresh
        cases h
        have hmark := unmarkedWeight_mark (fun vertex => (successors vertex).length + 2) visited
          (Bool.eq_false_iff.mpr hfresh)
        simp only [weight, List.map_cons, List.sum_cons]
        omega
    · cases h
      simp only [weight, List.map_cons, List.sum_cons]
      omega

def loop (successors : α → List α) : Loop (Walk α) (Walk α) where
  turn := turn successors
  ends := ⟨weight successors, fun _ _ => weight_turn⟩

/-- The walk from a vertex, unless an earlier one visited it. -/
def visit (successors : α → List α) (walk : Walk α) (root : α) : Walk α :=
  if walk.visited root then walk
  else
    (loop successors).run { walk with
      visited := Function.update walk.visited root true
      stack := [(root, 0)] }

/-- The walks from every root in turn. -/
def explore (successors : α → List α) (roots : List α) : Walk α :=
  roots.foldl (visit successors) ⟨fun _ => false, [], []⟩

end Turns

section Finishing

variable {α : Type} {R : α → α → Prop}

/-- Two vertices that reach each other. -/
def Linked (R : α → α → Prop) (a b : α) : Prop := ReflTransGen R a b ∧ ReflTransGen R b a

theorem Linked.refl (a : α) : Linked R a a := ⟨.refl, .refl⟩

theorem Linked.symm {a b : α} (h : Linked R a b) : Linked R b a := ⟨h.2, h.1⟩

theorem Linked.trans {a b c : α} (h : Linked R a b) (h' : Linked R b c) : Linked R a c :=
  ⟨h.1.trans h'.1, h'.2.trans h.2⟩

/-- An element of the list is at the place of another, or before it. -/
def Precedes (order : List α) (a b : α) : Prop :=
  ∃ front back, order = front ++ a :: back ∧ b ∈ a :: back

theorem Precedes.cons {order : List α} {a b : α} (h : Precedes order a b) (c : α) :
    Precedes (c :: order) a b := by
  obtain ⟨front, back, rfl, hb⟩ := h
  exact ⟨c :: front, back, rfl, hb⟩

/-- Whatever a vertex reaches comes after a vertex of its component. -/
def Settled (R : α → α → Prop) (order : List α) (a : α) : Prop :=
  ∀ b, ReflTransGen R a b → ∃ a', Linked R a a' ∧ Precedes order a' b

theorem Settled.cons {order : List α} {a : α} (h : Settled R order a) (c : α) :
    Settled R (c :: order) a := by
  intro b hreach
  obtain ⟨a', hlinked, hprecedes⟩ := h b hreach
  exact ⟨a', hlinked, hprecedes.cons c⟩

variable {successors : α → List α}

/-- The edges of a walk. -/
def Follows (successors : α → List α) (a b : α) : Prop := b ∈ successors a

/-- The component of a finished vertex is settled, or one of its vertices is still on the path. -/
structure Valid (successors : α → List α) (walk : Walk α) : Prop where
  visited_iff : ∀ a, walk.visited a = true ↔ a ∈ walk.finished ∨ a ∈ walk.stack.map Prod.fst
  once : (walk.stack.map Prod.fst ++ walk.finished).Nodup
  path : (walk.stack.map Prod.fst).Pairwise fun upper lower =>
    ReflTransGen (Follows successors) lower upper
  explored : ∀ entry ∈ walk.stack, ∀ b ∈ (successors entry.1).take entry.2,
    walk.visited b = true
  closed : ∀ a ∈ walk.finished, ∀ b ∈ successors a, walk.visited b = true
  settled : ∀ a ∈ walk.finished, Settled (Follows successors) walk.finished a ∨
    ∃ b ∈ walk.stack.map Prod.fst, Linked (Follows successors) a b

variable {visited : α → Bool} {vertex : α} {next : Nat} {stack : List (α × Nat)}
  {finished : List α}

/-- A vertex of the path goes on past a successor that was visited. -/
theorem Valid.skip (upper : List (α × Nat))
    (h : Valid successors ⟨visited, upper ++ (vertex, next) :: stack, finished⟩) {successor : α}
    (hsuccessor : (successors vertex)[next]? = some successor)
    (hvisited : visited successor = true) :
    Valid successors ⟨visited, upper ++ (vertex, next + 1) :: stack, finished⟩ := by
  have hsame : (upper ++ (vertex, next + 1) :: stack).map Prod.fst =
      (upper ++ (vertex, next) :: stack).map Prod.fst := by simp
  refine ⟨?_, ?_, ?_, ?_, h.closed, ?_⟩
  · simpa only [hsame] using h.visited_iff
  · simpa only [hsame] using h.once
  · simpa only [hsame] using h.path
  · have hold := List.forall_mem_append.mp h.explored
    have htop := List.forall_mem_cons.mp hold.2
    refine List.forall_mem_append.mpr ⟨hold.1, List.forall_mem_cons.mpr ⟨?_, htop.2⟩⟩
    intro b hb
    rw [List.take_add_one, hsuccessor, List.mem_append] at hb
    rcases hb with hb | hb
    · exact htop.1 b hb
    · rw [List.mem_singleton.mp hb]
      exact hvisited
  · simpa only [hsame] using h.settled

/-- The path goes on to a vertex that was not visited. -/
theorem Valid.push [DecidableEq α] (h : Valid successors ⟨visited, stack, finished⟩) {a : α}
    (hfresh : ¬ visited a = true)
    (hpath : ∀ b ∈ stack.map Prod.fst, ReflTransGen (Follows successors) b a) :
    Valid successors ⟨Function.update visited a true, (a, 0) :: stack, finished⟩ where
  visited_iff b := by
    rw [mark_iff, h.visited_iff b, List.map_cons, List.mem_cons]
    tauto
  once := by
    refine List.nodup_cons.mpr ⟨fun hmem => hfresh ((h.visited_iff a).mpr ?_), h.once⟩
    exact (List.mem_append.mp hmem).symm
  path := List.pairwise_cons.mpr ⟨hpath, h.path⟩
  explored := by
    refine List.forall_mem_cons.mpr ⟨fun b hb => by simp at hb, ?_⟩
    exact fun entry hentry b hb => mark_iff.mpr (.inr (h.explored entry hentry b hb))
  closed b hb c hc := mark_iff.mpr (.inr (h.closed b hb c hc))
  settled b hb := by
    refine (h.settled b hb).imp id ?_
    rintro ⟨c, hc, hlinked⟩
    exact ⟨c, List.mem_cons_of_mem _ hc, hlinked⟩

/-- A vertex that reaches no vertex below it on the path reaches only finished vertices. -/
theorem Valid.finished_of_reach
    (h : Valid successors ⟨visited, (vertex, next) :: stack, finished⟩)
    (hexplored : ∀ b ∈ successors vertex, visited b = true)
    (hroot : ∀ b ∈ stack.map Prod.fst, ¬ ReflTransGen (Follows successors) vertex b) {b : α}
    (hreach : ReflTransGen (Follows successors) vertex b) : b ∈ vertex :: finished := by
  induction hreach with
  | refl => exact List.mem_cons_self
  | @tail b c hreach hstep ih =>
    have hvisited : visited c = true := by
      rcases List.mem_cons.mp ih with rfl | hb
      · exact hexplored c hstep
      · exact h.closed b hb c hstep
    rcases (h.visited_iff c).mp hvisited with hfinished | hstack
    · exact List.mem_cons_of_mem _ hfinished
    · rcases List.mem_cons.mp hstack with rfl | hbelow
      · exact List.mem_cons_self
      · exact absurd (hreach.tail hstep) (hroot c hbelow)

/-- A vertex whose successors were all visited is finished. -/
theorem Valid.finish (h : Valid successors ⟨visited, (vertex, next) :: stack, finished⟩)
    (hend : (successors vertex)[next]? = none) :
    Valid successors ⟨visited, stack, vertex :: finished⟩ := by
  have hexplored : ∀ b ∈ successors vertex, visited b = true := by
    intro b hb
    apply (List.forall_mem_cons.mp h.explored).1 b
    rw [List.take_of_length_le (List.getElem?_eq_none_iff.mp hend)]
    exact hb
  have hpath := (List.pairwise_cons.mp h.path).1
  have hlinked : ∀ a, Linked (Follows successors) a vertex →
      Settled (Follows successors) (vertex :: finished) a ∨
        ∃ b ∈ stack.map Prod.fst, Linked (Follows successors) a b := by
    intro a ha
    by_cases hroot : ∃ b ∈ stack.map Prod.fst, ReflTransGen (Follows successors) vertex b
    · obtain ⟨b, hb, hreach⟩ := hroot
      exact .inr ⟨b, hb, ha.trans ⟨hreach, hpath b hb⟩⟩
    · refine .inl fun b hb => ⟨vertex, ha, [], finished, rfl, ?_⟩
      exact h.finished_of_reach hexplored (fun c hc hreach => hroot ⟨c, hc, hreach⟩)
        (ha.2.trans hb)
  refine ⟨?_, List.nodup_middle.mpr h.once, (List.pairwise_cons.mp h.path).2, (List.forall_mem_cons.mp h.explored).2,
    List.forall_mem_cons.mpr ⟨hexplored, h.closed⟩,
    List.forall_mem_cons.mpr ⟨hlinked vertex (Linked.refl vertex), ?_⟩⟩
  · intro a
    rw [h.visited_iff a]
    simp only [List.map_cons, List.mem_cons]
    tauto
  · intro a ha
    rcases h.settled a ha with hsettled | ⟨b, hb, hopen⟩
    · exact .inl (hsettled.cons vertex)
    · rcases List.mem_cons.mp hb with rfl | hbelow
      · exact hlinked a hopen
      · exact .inr ⟨b, hbelow, hopen⟩

variable [DecidableEq α] {walk walk' : Walk α}

theorem Valid.turn (h : Valid successors walk) (hturn : walk.turn successors = .inr walk') :
    Valid successors walk' := by
  obtain ⟨visited, stack, finished⟩ := walk
  cases stack with
  | nil => cases hturn
  | cons top stack =>
    obtain ⟨vertex, next⟩ := top
    simp only [Walk.turn] at hturn
    split at hturn
    · rename_i successor hsuccessor
      split at hturn
      · rename_i hvisited
        cases hturn
        exact Valid.skip [] h hsuccessor hvisited
      · rename_i hfresh
        cases hturn
        have hpath := (List.pairwise_cons.mp h.path).1
        have hedge : ReflTransGen (Follows successors) vertex successor :=
          .single (List.mem_of_getElem? hsuccessor)
        have hpushed := h.push (a := successor) hfresh
          (List.forall_mem_cons.mpr ⟨hedge, fun b hb => (hpath b hb).trans hedge⟩)
        exact Valid.skip [(successor, 0)] hpushed hsuccessor (mark_iff.mpr (.inl rfl))
    · rename_i hend
      cases hturn
      exact h.finish hend

theorem turn_visited (hturn : walk.turn successors = .inr walk') {a : α}
    (ha : walk.visited a = true) : walk'.visited a = true := by
  obtain ⟨visited, stack, finished⟩ := walk
  cases stack with
  | nil => cases hturn
  | cons top stack =>
    simp only [Walk.turn] at hturn
    split at hturn
    · split at hturn
      · cases hturn
        exact ha
      · cases hturn
        exact mark_iff.mpr (.inr ha)
    · cases hturn
      exact ha

variable [Fintype α]

/-- A walk leads to a valid state without a path, and what was visited before it stays so. -/
theorem Valid.run (h : Valid successors walk) :
    Valid successors ((loop successors).run walk) ∧ ((loop successors).run walk).stack = [] ∧
      ∀ a, walk.visited a = true → ((loop successors).run walk).visited a = true := by
  refine (loop successors).run_spec (Q := fun walk last => Valid successors walk →
    Valid successors last ∧ last.stack = [] ∧
      ∀ a, walk.visited a = true → last.visited a = true) ?_ ?_ walk h
  · intro walk last hturn hvalid
    obtain ⟨visited, stack, finished⟩ := walk
    cases stack with
    | nil =>
      cases hturn
      exact ⟨hvalid, rfl, fun _ => id⟩
    | cons top stack =>
      simp only [loop, Walk.turn] at hturn
      split at hturn
      · split at hturn <;> cases hturn
      · cases hturn
  · intro walk next last hturn hrest hvalid
    obtain ⟨hlast, hstack, hmore⟩ := hrest (hvalid.turn hturn)
    exact ⟨hlast, hstack, fun a ha => hmore a (turn_visited hturn ha)⟩

theorem Valid.visit (h : Valid successors walk) (hstack : walk.stack = []) (root : α) :
    Valid successors (visit successors walk root) ∧ (visit successors walk root).stack = [] ∧
      (visit successors walk root).visited root = true ∧
      ∀ a, walk.visited a = true → (visit successors walk root).visited a = true := by
  unfold Walk.visit
  split
  · rename_i hvisited
    exact ⟨h, hstack, hvisited, fun _ => id⟩
  · rename_i hfresh
    obtain ⟨visited, stack, finished⟩ := walk
    cases hstack
    obtain ⟨hlast, hempty, hmore⟩ := (h.push (a := root) hfresh (by simp)).run
    exact ⟨hlast, hempty, hmore root (mark_iff.mpr (.inl rfl)),
      fun a ha => hmore a (mark_iff.mpr (.inr ha))⟩

theorem foldl_visit (roots : List α) (h : Valid successors walk) (hstack : walk.stack = []) :
    Valid successors (roots.foldl (visit successors) walk) ∧
      (roots.foldl (visit successors) walk).stack = [] ∧
      ∀ a, walk.visited a = true ∨ a ∈ roots →
        (roots.foldl (visit successors) walk).visited a = true := by
  induction roots generalizing walk with
  | nil => exact ⟨h, hstack, fun a ha => ha.resolve_right List.not_mem_nil⟩
  | cons root roots ih =>
    obtain ⟨hvalid, hempty, hroot, hmore⟩ := h.visit hstack root
    obtain ⟨hlast, hend, hall⟩ := ih hvalid hempty
    refine ⟨hlast, hend, fun a ha => hall a ?_⟩
    rcases ha with hvisited | hmem
    · exact .inl (hmore a hvisited)
    · rcases List.mem_cons.mp hmem with rfl | hmem
      · exact .inl hroot
      · exact .inr hmem

/-- Walks from every vertex finish every vertex, and settle every component. -/
theorem explore_spec (successors : α → List α) (roots : List α) (hroots : ∀ a, a ∈ roots) :
    (explore successors roots).finished.Nodup ∧
      (∀ a, a ∈ (explore successors roots).finished) ∧
      ∀ a, Settled (Follows successors) (explore successors roots).finished a := by
  have hstart : Valid successors ⟨fun _ => false, [], []⟩ :=
    ⟨by simp, .nil, .nil, by simp, by simp, by simp⟩
  obtain ⟨hvalid, hempty, hall⟩ := foldl_visit roots hstart rfl
  have hfinished : ∀ a, a ∈ (explore successors roots).finished := by
    intro a
    rcases (hvalid.visited_iff a).mp (hall a (.inr (hroots a))) with hfinished | hstack
    · exact hfinished
    · rw [hempty] at hstack
      cases hstack
  have honce := hvalid.once
  rw [hempty] at honce
  refine ⟨honce, hfinished, fun a => ?_⟩
  rcases hvalid.settled a (hfinished a) with hsettled | ⟨b, hb, -⟩
  · exact hsettled
  · rw [hempty] at hb
    cases hb

end Finishing

end Walk

end KRust.Lib
