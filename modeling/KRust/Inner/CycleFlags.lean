import KRust.Inner.CyclesLaws
import Mathlib.Data.List.ReduceOption

/-!
The components are the classes of sorts that reach each other, and the productions that are
flagged are those on a cycle of edges that consumes no input.
-/

namespace KRust.Inner.Cycles

open KRust.Lib
open KRust.Lib.Walk (Follows Linked Precedes Settled)
open Relation (ReflTransGen)

section Assigning

variable {n : Nat} {predecessors : Fin n → List (Fin n)} {id : Nat}

theorem closed_of_reach (marked : Fin n → Prop)
    (hclosed : ∀ v, marked v → ∀ u ∈ predecessors v, marked u) {u v : Fin n}
    (h : ReflTransGen (Follows predecessors) u v) (hu : marked u) : marked v := by
  induction h with
  | refl => exact hu
  | tail _ hedge ih => exact hclosed _ ih _ hedge

namespace Assigning

theorem foldl_assign (id : Nat) (vertices : List (Fin n)) (state : Assigning n) (v : Fin n) :
    ((vertices.foldl (assign id) state).component v =
        if state.component v = none ∧ v ∈ vertices then some id else state.component v) ∧
      (v ∈ (vertices.foldl (assign id) state).stack ↔
        v ∈ state.stack ∨ (state.component v = none ∧ v ∈ vertices)) := by
  induction vertices generalizing state with
  | nil => simp
  | cons vertex vertices ih =>
    obtain ⟨hcomponent, hstack⟩ := ih (assign id state vertex)
    rw [List.foldl_cons, hcomponent, hstack]
    unfold assign
    by_cases hnone : state.component vertex = none
    · rw [if_pos hnone]
      by_cases hv : v = vertex
      · subst hv
        simp [hnone]
      · simp [hv]
    · rw [if_neg hnone]
      by_cases hv : v = vertex
      · subst hv
        simp [hnone]
      · simp [hv]

/-- What the component of a root keeps: the vertices that were assigned before, and the vertices
that reach the root through the ones assigned now. -/
structure Spreads (predecessors : Fin n → List (Fin n)) (id : Nat) (before : Fin n → Option Nat)
    (root : Fin n) (state : Assigning n) : Prop where
  frontier : Frontier (Follows predecessors) (fun v => (before v).isSome ∨ v = root)
    (fun v => (state.component v).isSome) (fun v => v ∈ state.stack)
  kept : ∀ v, state.component v = before v ∨ (before v = none ∧ state.component v = some id)

variable {before : Fin n → Option Nat} {root : Fin n}

theorem Spreads.start (hclosed : ∀ v, (before v).isSome → ∀ u ∈ predecessors v, (before u).isSome)
    (hroot : before root = none) :
    Spreads predecessors id before root ⟨Function.update before root (some id), [root]⟩ where
  frontier := by
    refine Frontier.start hclosed ?_ fun v => List.mem_singleton
    intro v
    by_cases hv : v = root
    · simp [hv]
    · simp [hv]
  kept v := by
    by_cases hv : v = root
    · subst hv
      exact .inr ⟨hroot, Function.update_self ..⟩
    · exact .inl (Function.update_of_ne hv ..)

theorem Spreads.turn {state state' : Assigning n} (h : Spreads predecessors id before root state)
    (hturn : state.turn predecessors id = .inr state') :
    Spreads predecessors id before root state' := by
  unfold Assigning.turn at hturn
  split at hturn
  · cases hturn
  · rename_i vertex stack hstack
    cases hturn
    have hfold := fun v => foldl_assign id (predecessors vertex)
      { state with stack := stack } v
    refine ⟨h.frontier.expand (a := vertex) ?_ ?_ ?_ ?_ ?_, ?_⟩
    · rw [hstack]
      exact List.mem_cons_self
    · intro v
      rw [(hfold v).1]
      split
      · rename_i hfresh
        simpa using .inr hfresh.2
      · rename_i hkept
        constructor
        · exact .inl
        · rintro (hmarked | hedge)
          · exact hmarked
          · exact Option.isSome_iff_ne_none.mpr fun hnone => hkept ⟨hnone, hedge⟩
    · intro v hv
      rcases (hfold v).2.mp hv with hold | ⟨-, hedge⟩
      · refine .inl ?_
        rw [hstack]
        exact List.mem_cons_of_mem _ hold
      · exact .inr hedge
    · intro v hv hne
      rw [hstack] at hv
      exact (hfold v).2.mpr (.inl ((List.mem_cons.mp hv).resolve_left hne))
    · intro v hedge hfresh
      exact (hfold v).2.mpr (.inr ⟨Option.not_isSome_iff_eq_none.mp hfresh, hedge⟩)
    · intro v
      rw [(hfold v).1]
      split
      · rename_i hfresh
        rcases h.kept v with hold | ⟨hnone, -⟩
        · exact .inr ⟨hold ▸ hfresh.1, rfl⟩
        · exact .inr ⟨hnone, rfl⟩
      · exact h.kept v

/-- The component of a root: the unassigned vertices that reach it. -/
theorem run_spec (id : Nat)
    (hclosed : ∀ v, (before v).isSome → ∀ u ∈ predecessors v, (before u).isSome)
    (hroot : before root = none) (v : Fin n) (i : Nat) :
    (loop predecessors id).run ⟨Function.update before root (some id), [root]⟩ v = some i ↔
      before v = some i ∨ (before v = none ∧ i = id ∧ ReflTransGen (Follows predecessors) root v) := by
  refine (loop predecessors id).run_spec (Q := fun state component =>
    Spreads predecessors id before root state → (component v = some i ↔
      before v = some i ∨
        (before v = none ∧ i = id ∧ ReflTransGen (Follows predecessors) root v))) ?_ ?_ _
    (Spreads.start hclosed hroot)
  · intro state component hturn hspreads
    simp only [loop, Assigning.turn] at hturn
    split at hturn
    · rename_i hstack
      cases hturn
      have hmarked := hspreads.frontier.marked_iff (fun v => by rw [hstack]; exact List.not_mem_nil) v
      have hreached : (∃ s, ((before s).isSome = true ∨ s = root) ∧
          ReflTransGen (Follows predecessors) s v) ↔
            (before v).isSome = true ∨ ReflTransGen (Follows predecessors) root v := by
        constructor
        · rintro ⟨s, hs | rfl, hreach⟩
          · exact .inl (closed_of_reach (fun v => (before v).isSome = true) hclosed hreach hs)
          · exact .inr hreach
        · rintro (hbefore | hreach)
          · exact ⟨v, .inl hbefore, .refl⟩
          · exact ⟨root, .inr rfl, hreach⟩
      rw [hreached] at hmarked
      rcases hspreads.kept v with hold | ⟨hnone, hnew⟩
      · rw [hold] at hmarked ⊢
        constructor
        · exact .inl
        · rintro (hbefore | ⟨hnone, -, hreach⟩)
          · exact hbefore
          · rw [hnone] at hmarked
            exact absurd (hmarked.mpr (.inr hreach)) (by simp)
      · rw [hnew] at hmarked ⊢
        rw [hnone] at hmarked ⊢
        simp only [Option.isSome_some, Option.isSome_none, Bool.false_eq_true, false_or,
          true_iff] at hmarked
        simp [hmarked, eq_comm]
    · cases hturn
  · intro state next component hturn hrest hspreads
    exact hrest (hspreads.turn hturn)

end Assigning

/-- The number of a vertex is the place of the first root that it reaches. -/
theorem assignFrom_spec (roots : List (Fin n)) (before : Fin n → Option Nat)
    (hclosed : ∀ v, (before v).isSome → ∀ u ∈ predecessors v, (before u).isSome) (v : Fin n)
    (i : Nat) :
    assignFrom predecessors id before roots v = some i ↔
      before v = some i ∨ (before v = none ∧ ∃ front root back, roots = front ++ root :: back ∧
        i = id + front.length ∧ ReflTransGen (Follows predecessors) root v ∧
          ∀ r ∈ front, ¬ ReflTransGen (Follows predecessors) r v) := by
  induction roots generalizing id before with
  | nil => simp [assignFrom]
  | cons root roots ih =>
    rw [assignFrom]
    by_cases hroot : before root = none
    · rw [if_neg (not_not.mpr hroot)]
      have hrun := Assigning.run_spec id hclosed hroot
      have hclosed' : ∀ v, ((Assigning.loop predecessors id).run
          ⟨Function.update before root (some id), [root]⟩ v).isSome →
            ∀ u ∈ predecessors v, ((Assigning.loop predecessors id).run
              ⟨Function.update before root (some id), [root]⟩ u).isSome := by
        intro v hv u hu
        obtain ⟨i, hi⟩ := Option.isSome_iff_exists.mp hv
        rcases (hrun v i).mp hi with hbefore | ⟨hnone, rfl, hreach⟩
        · obtain ⟨j, hj⟩ := Option.isSome_iff_exists.mp
            (hclosed v (by rw [hbefore]; rfl) u hu)
          exact Option.isSome_iff_exists.mpr ⟨j, (hrun u j).mpr (.inl hj)⟩
        · cases hbefore : before u with
          | some j => exact Option.isSome_iff_exists.mpr ⟨j, (hrun u j).mpr (.inl hbefore)⟩
          | none =>
            exact Option.isSome_iff_exists.mpr
              ⟨i, (hrun u i).mpr (.inr ⟨hbefore, rfl, hreach.tail hu⟩)⟩
      rw [ih _ hclosed', hrun v i]
      constructor
      · rintro ((hbefore | ⟨hnone, rfl, hreach⟩) | ⟨hnone, front, r, back, rfl, rfl, hreach, hfront⟩)
        · exact .inl hbefore
        · exact .inr ⟨hnone, [], root, roots, rfl, rfl, hreach, by simp⟩
        · have hbefore : before v = none := by
            by_contra hsome
            obtain ⟨j, hj⟩ := Option.ne_none_iff_exists'.mp hsome
            rw [(hrun v j).mpr (.inl hj)] at hnone
            cases hnone
          refine .inr ⟨hbefore, root :: front, r, back, rfl, ?_, hreach, ?_⟩
          · rw [List.length_cons]
            omega
          · refine List.forall_mem_cons.mpr ⟨fun hreach' => ?_, hfront⟩
            rw [(hrun v id).mpr (.inr ⟨hbefore, rfl, hreach'⟩)] at hnone
            cases hnone
      · rintro (hbefore | ⟨hnone, front, r, back, hroots, rfl, hreach, hfront⟩)
        · exact .inl (.inl hbefore)
        · cases front with
          | nil =>
            cases hroots
            exact .inl (.inr ⟨hnone, rfl, hreach⟩)
          | cons first front =>
            obtain ⟨rfl, rfl⟩ := List.cons.inj hroots
            obtain ⟨hfirst, hrest⟩ := List.forall_mem_cons.mp hfront
            refine .inr ⟨?_, front, r, back, rfl, ?_, hreach, hrest⟩
            · by_contra hsome
              obtain ⟨j, hj⟩ := Option.ne_none_iff_exists'.mp hsome
              rcases (hrun v j).mp hj with hbefore | ⟨-, -, hreach'⟩
              · rw [hnone] at hbefore
                cases hbefore
              · exact hfirst hreach'
            · rw [List.length_cons]
              omega
    · rw [if_pos hroot, ih _ hclosed]
      refine or_congr_right (and_congr_right fun hnone => ?_)
      have hout : ¬ ReflTransGen (Follows predecessors) root v := by
        intro hreach
        have := closed_of_reach _ hclosed hreach (Option.isSome_iff_ne_none.mpr hroot)
        rw [hnone] at this
        cases this
      constructor
      · rintro ⟨front, r, back, rfl, rfl, hreach, hfront⟩
        refine ⟨root :: front, r, back, rfl, ?_, hreach, List.forall_mem_cons.mpr ⟨hout, hfront⟩⟩
        rw [List.length_cons]
        omega
      · rintro ⟨front, r, back, hroots, rfl, hreach, hfront⟩
        cases front with
        | nil =>
          cases hroots
          exact absurd hreach hout
        | cons first front =>
          obtain ⟨rfl, rfl⟩ := List.cons.inj hroots
          refine ⟨front, r, back, rfl, ?_, hreach, (List.forall_mem_cons.mp hfront).2⟩
          rw [List.length_cons]
          omega

end Assigning

section Components

variable {ι : Type} {n : Nat} (edges : List (ι × Fin n × Fin n))

/-- There is an edge from a vertex to another. -/
def Edge (source target : Fin n) : Prop := ∃ label, (label, source, target) ∈ edges

theorem mem_successors (source target : Fin n) :
    target ∈ successors edges source ↔ Edge edges source target := by
  simp only [successors, List.mem_filterMap, Edge]
  constructor
  · rintro ⟨⟨label, a, b⟩, hmem, hb⟩
    split at hb
    · rename_i ha
      cases hb
      exact ⟨label, ha ▸ hmem⟩
    · cases hb
  · rintro ⟨label, hmem⟩
    exact ⟨_, hmem, if_pos rfl⟩

theorem mem_predecessors (source target : Fin n) :
    source ∈ predecessors edges target ↔ Edge edges source target := by
  simp only [predecessors, List.mem_filterMap, Edge]
  constructor
  · rintro ⟨⟨label, a, b⟩, hmem, ha⟩
    split at ha
    · rename_i hb
      cases ha
      exact ⟨label, hb ▸ hmem⟩
    · cases ha
  · rintro ⟨label, hmem⟩
    exact ⟨_, hmem, if_pos rfl⟩

theorem follows_successors : Follows (successors edges) = Edge edges := by
  funext source target
  exact propext (mem_successors edges source target)

theorem reach_predecessors (u v : Fin n) :
    ReflTransGen (Follows (predecessors edges)) u v ↔ ReflTransGen (Edge edges) v u := by
  have hswap : Follows (predecessors edges) = Function.swap (Edge edges) := by
    funext target source
    exact propext (mem_predecessors edges source target)
  rw [hswap, Relation.reflTransGen_swap]

/-- The first root in finishing order that a vertex reaches is in its component. -/
theorem linked_of_first {order front back : List (Fin n)} {root v : Fin n}
    (honce : order.Nodup) (hsettled : Settled (Edge edges) order v)
    (horder : order = front ++ root :: back) (hreach : ReflTransGen (Edge edges) v root)
    (hfront : ∀ r ∈ front, ¬ ReflTransGen (Edge edges) v r) : Linked (Edge edges) v root := by
  obtain ⟨a, hlinked, before, after, hplace, hroot⟩ := hsettled root hreach
  have ha : a ∉ front := fun hmem => hfront a hmem hlinked.1
  rw [horder] at hplace honce
  rcases List.append_eq_append_iff.mp hplace with ⟨more, rfl, hmore⟩ | ⟨more, rfl, hmore⟩
  · cases more with
    | nil =>
      obtain ⟨rfl, -⟩ := List.cons.inj hmore
      exact hlinked
    | cons first more =>
      -- A second occurrence of the root would come after the vertex of its component.
      obtain ⟨rfl, rfl⟩ := List.cons.inj hmore
      have hagain := (List.nodup_cons.mp (List.nodup_append'.mp honce).2.1).1
      exact absurd (List.mem_append_right more hroot) hagain
  · cases more with
    | nil =>
      obtain ⟨rfl, -⟩ := List.cons.inj hmore
      exact hlinked
    | cons first more =>
      obtain ⟨rfl, -⟩ := List.cons.inj hmore
      exact absurd (List.mem_append_right before List.mem_cons_self) ha

theorem component_eq_some (v : Fin n) (i : Nat) :
    stronglyConnectedComponents edges v = some i ↔ ∃ front root back,
      (Walk.explore (successors edges) (List.finRange n)).finished = front ++ root :: back ∧
        i = front.length ∧ ReflTransGen (Edge edges) v root ∧
          ∀ r ∈ front, ¬ ReflTransGen (Edge edges) v r := by
  rw [stronglyConnectedComponents, assignFrom_spec _ _ (by simp)]
  simp only [reach_predecessors, Nat.zero_add, reduceCtorEq, false_or, true_and]

/-- The vertices all have a component, and two share one exactly when each reaches the other. -/
theorem components_spec :
    (∀ v, ∃ i, stronglyConnectedComponents edges v = some i) ∧
      ∀ u v, stronglyConnectedComponents edges u = stronglyConnectedComponents edges v ↔
        ReflTransGen (Edge edges) u v ∧ ReflTransGen (Edge edges) v u := by
  obtain ⟨honce, hall, hsettled⟩ := Walk.explore_spec (successors edges) (List.finRange n)
    List.mem_finRange
  rw [follows_successors] at hsettled
  have hsome : ∀ v, ∃ i, stronglyConnectedComponents edges v = some i := by
    intro v
    have hfirst : ∀ order : List (Fin n), v ∈ order → ∃ front root back,
        order = front ++ root :: back ∧ ReflTransGen (Edge edges) v root ∧
          ∀ r ∈ front, ¬ ReflTransGen (Edge edges) v r := by
      intro order
      induction order with
      | nil => simp
      | cons first order ih =>
        intro hv
        by_cases hreach : ReflTransGen (Edge edges) v first
        · exact ⟨[], first, order, rfl, hreach, by simp⟩
        · have hne : v ≠ first := fun heq => hreach (heq ▸ .refl)
          obtain ⟨front, root, back, rfl, hroot, hfront⟩ :=
            ih ((List.mem_cons.mp hv).resolve_left hne)
          exact ⟨first :: front, root, back, rfl, hroot,
            List.forall_mem_cons.mpr ⟨hreach, hfront⟩⟩
    obtain ⟨front, root, back, horder, hreach, hfront⟩ := hfirst _ (hall v)
    exact ⟨front.length, (component_eq_some edges v _).mpr
      ⟨front, root, back, horder, rfl, hreach, hfront⟩⟩
  refine ⟨hsome, fun u v => ⟨fun heq => ?_, fun hlinked => ?_⟩⟩
  · obtain ⟨i, hi⟩ := hsome u
    obtain ⟨front, root, back, horder, hlength, hu, hfront⟩ := (component_eq_some edges u i).mp hi
    obtain ⟨front', root', back', horder', hlength', hv, hfront'⟩ :=
      (component_eq_some edges v i).mp (heq ▸ hi)
    obtain ⟨rfl, hroots⟩ := List.append_inj (horder.symm.trans horder')
      (hlength.symm.trans hlength')
    obtain ⟨rfl, -⟩ := List.cons.inj hroots
    have hu' := linked_of_first edges honce (hsettled u) horder hu hfront
    have hv' := linked_of_first edges honce (hsettled v) horder hv hfront'
    exact hu'.trans hv'.symm
  · obtain ⟨i, hi⟩ := hsome u
    obtain ⟨front, root, back, horder, hlength, hu, hfront⟩ := (component_eq_some edges u i).mp hi
    rw [hi, eq_comm, component_eq_some]
    exact ⟨front, root, back, horder, hlength, hlinked.2.trans hu,
      fun r hr hreach => hfront r hr (hlinked.1.trans hreach)⟩

end Components

section Flags

variable (minimumLen : MinimumLen) (grammar : Grammar)

/-- The sorts that may match the empty string: the least fixpoint over the active productions. -/
def MatchesEmpty : Fin grammar.sorts → Prop :=
  Derivable (fun index => index ∈ grammar.active ∧
      ∀ item ∈ (grammar.productions index).items, item.mayBeEmpty minimumLen = true)
    (fun index => (grammar.productions index).sortIds)
    fun index => (grammar.productions index).resultId

/-- The items of a production with the sorts of the nonterminals. -/
def Production.elements {sorts : Nat} (production : Production sorts) :
    List (Item × Option (Fin sorts)) := production.items.zip production.itemSortIds

/-- An item may match the empty string, when the given sorts do. -/
def EmptyElement {sorts : Nat} (empty : Fin sorts → Prop) (element : Item × Option (Fin sorts)) :
    Prop := element.1.mayBeEmpty minimumLen = true ∧ ∀ sort, element.2 = some sort → empty sort

/-- A nonterminal item of a production whose other items may all match the empty string. -/
def EmptySiblings {sorts : Nat} (empty : Fin sorts → Prop) (production : Production sorts)
    (child : Fin sorts) : Prop :=
  ∃ front item back, production.elements = front ++ (item, some child) :: back ∧
    ∀ element ∈ front ++ back, EmptyElement minimumLen empty element

/-- The edges that consume no input, when the given sorts match the empty string. -/
def SameSpan (empty : Fin grammar.sorts → Prop) (result child : Fin grammar.sorts) : Prop :=
  ∃ index ∈ grammar.active, (grammar.productions index).resultId = result ∧
    EmptySiblings minimumLen empty (grammar.productions index) child

/-- A production returns its only child itself. -/
def ReturnsChild {sorts : Nat} (production : Production sorts) : Prop :=
  production.isRecord = false ∧ production.bracket = false ∧
    (production.transparent = true ∨ production.label = none) ∧ production.sortIds.length = 1

variable {minimumLen grammar}

theorem matchesEmpty_iff (sort : Fin grammar.sorts) :
    MatchesEmpty minimumLen grammar sort ↔ nullable minimumLen grammar sort = true := by
  have hclauses : (fun index => index ∈ grammar.active ∧
      ∀ item ∈ (grammar.productions index).items, item.mayBeEmpty minimumLen = true) =
      Clause (lexicalBlocking minimumLen grammar) := by
    funext index
    exact propext (and_congr_right fun hactive => (lexicalBlocking_eq_zero_iff hactive).symm)
  rw [nullable_iff, MatchesEmpty, hclauses]
  rfl

variable {sorts : Nat} (production : Production sorts)

/-- An element that keeps its production from matching the empty string. -/
def keepsInput (minimumLen : MinimumLen) (nullable : Fin sorts → Bool)
    (element : Item × Option (Fin sorts)) : Bool :=
  !element.1.mayBeEmpty minimumLen || element.2.any fun sort => !nullable sort

theorem keepsInput_eq_false_iff (nullable : Fin sorts → Bool)
    (element : Item × Option (Fin sorts)) :
    keepsInput minimumLen nullable element = false ↔
      EmptyElement minimumLen (fun sort => nullable sort = true) element := by
  obtain ⟨item, sort⟩ := element
  cases sort with
  | none => simp [keepsInput, EmptyElement]
  | some sort => simp [keepsInput, EmptyElement]

theorem count_keepsInput (minimumLen : MinimumLen) (nullable : Fin sorts → Bool) (items : List Item)
    (sortIds : List (Option (Fin sorts)))
    (haligned : sortIds.map Option.isSome = items.map Item.isNonTerminal) :
    ((items.zip sortIds).filter (keepsInput minimumLen nullable)).length =
      (items.filter fun item => !item.mayBeEmpty minimumLen).length +
        (sortIds.reduceOption.filter fun sort => !nullable sort).length := by
  induction items generalizing sortIds with
  | nil =>
    rw [List.map_nil, List.map_eq_nil_iff] at haligned
    rw [haligned]
    rfl
  | cons item items ih =>
    cases sortIds with
    | nil => cases haligned
    | cons sort sortIds =>
      obtain ⟨hfirst, hrest⟩ := List.cons.inj haligned
      have hcount := ih sortIds hrest
      cases sort with
      | none =>
        rw [List.zip_cons_cons, List.reduceOption_cons_of_none, List.filter_cons,
          List.filter_cons]
        simp only [keepsInput, Option.any_none, Bool.or_false]
        split
        · rw [List.length_cons, List.length_cons]
          omega
        · exact hcount
      | some sort =>
        cases item with
        | terminal => cases hfirst
        | regex => cases hfirst
        | nonTerminal =>
          rw [List.zip_cons_cons, List.reduceOption_cons_of_some, List.filter_cons,
            List.filter_cons, List.filter_cons]
          simp only [keepsInput, mayBeEmpty_nonTerminal, Option.any_some, Bool.not_true, Bool.false_or,
            Bool.false_eq_true, if_false]
          split
          · rw [List.length_cons, List.length_cons]
            omega
          · exact hcount

theorem mem_sortIds {child : Fin sorts} :
    child ∈ production.sortIds ↔ ∃ item, (item, some child) ∈ production.elements := by
  have hlength : production.items.length = production.itemSortIds.length := by
    simpa using (congrArg List.length production.aligned).symm
  have hsnd : production.elements.map Prod.snd = production.itemSortIds :=
    List.map_snd_zip hlength.ge
  rw [Production.sortIds, List.reduceOption_mem_iff, ← hsnd, List.mem_map]
  constructor
  · rintro ⟨⟨item, sort⟩, hmem, rfl⟩
    exact ⟨item, hmem⟩
  · rintro ⟨item, hmem⟩
    exact ⟨_, hmem, rfl⟩

theorem nonTerminal_of_mem {item : Item} {child : Fin sorts} (items : List Item)
    (sortIds : List (Option (Fin sorts)))
    (haligned : sortIds.map Option.isSome = items.map Item.isNonTerminal)
    (hmem : (item, some child) ∈ items.zip sortIds) : item = .nonTerminal := by
  induction items generalizing sortIds with
  | nil => cases hmem
  | cons first items ih =>
    cases sortIds with
    | nil => cases haligned
    | cons sort sortIds =>
      obtain ⟨hfirst, hrest⟩ := List.cons.inj haligned
      rcases List.mem_cons.mp hmem with heq | hmem
      · cases heq
        cases item with
        | terminal => cases hfirst
        | regex => cases hfirst
        | nonTerminal => rfl
      · exact ih sortIds hrest hmem

/-- The siblings of a nonterminal are counted with the nonterminal itself. -/
theorem emptySiblings_iff (nullable : Fin sorts → Bool) {child : Fin sorts} :
    EmptySiblings minimumLen (fun sort => nullable sort = true) production child ↔
      child ∈ production.sortIds ∧
        (production.items.filter fun item => !item.mayBeEmpty minimumLen).length +
            (production.sortIds.filter fun sort => !nullable sort).length -
          (!nullable child).toNat = 0 := by
  have hcount := count_keepsInput minimumLen nullable production.items
    production.itemSortIds production.aligned
  rw [← Production.elements, ← Production.sortIds] at hcount
  have hsplit : ∀ front item back, production.elements = front ++ (item, some child) :: back →
      (production.items.filter fun item => !item.mayBeEmpty minimumLen).length +
          (production.sortIds.filter fun sort => !nullable sort).length =
        ((front ++ back).filter (keepsInput minimumLen nullable)).length +
          (!nullable child).toNat := by
    intro front item back helements
    have hitem : item = .nonTerminal := by
      apply nonTerminal_of_mem production.items production.itemSortIds production.aligned
      rw [← Production.elements, helements]
      exact List.mem_append_right _ List.mem_cons_self
    rw [← hcount, helements, List.filter_append, List.filter_append, List.filter_cons, hitem]
    simp only [keepsInput, mayBeEmpty_nonTerminal, Option.any_some, Bool.not_true, Bool.false_or]
    cases nullable child with
    | true => simp
    | false =>
      simp only [Bool.not_false, if_true, List.length_append, List.length_cons, Bool.toNat_true]
      omega
  constructor
  · rintro ⟨front, item, back, helements, hempty⟩
    refine ⟨(mem_sortIds production).mpr ⟨item, ?_⟩, ?_⟩
    · rw [helements]
      exact List.mem_append_right _ List.mem_cons_self
    · have hnone : (front ++ back).filter (keepsInput minimumLen nullable) = [] := by
        apply List.filter_eq_nil_iff.mpr
        intro element helement
        rw [(keepsInput_eq_false_iff nullable element).mpr (hempty element helement)]
        exact Bool.false_ne_true
      rw [hsplit front item back helements, hnone, List.length_nil, Nat.zero_add, Nat.sub_self]
  · rintro ⟨hchild, hzero⟩
    obtain ⟨item, hmem⟩ := (mem_sortIds production).mp hchild
    obtain ⟨front, back, helements⟩ := List.append_of_mem hmem
    refine ⟨front, item, back, helements, fun element helement => ?_⟩
    rw [hsplit front item back helements, Nat.add_sub_cancel, List.length_eq_zero_iff,
      List.filter_eq_nil_iff] at hzero
    exact (keepsInput_eq_false_iff nullable element).mp (Bool.eq_false_iff.mpr (hzero element helement))

theorem mem_edges (index : Fin grammar.size) (result child : Fin grammar.sorts) :
    (index, result, child) ∈ edges minimumLen grammar ↔
      index ∈ grammar.active ∧ (grammar.productions index).resultId = result ∧
        EmptySiblings minimumLen (MatchesEmpty minimumLen grammar) (grammar.productions index)
          child := by
  have hempty : MatchesEmpty minimumLen grammar =
      fun sort => nullable minimumLen grammar sort = true := by
    funext sort
    exact propext (matchesEmpty_iff sort)
  rw [hempty, edges, List.mem_flatMap]
  simp only [edgesOf, List.mem_map, List.mem_filter, decide_eq_true_eq, Prod.mk.injEq]
  constructor
  · rintro ⟨other, hactive, sort, ⟨hsort, hzero⟩, rfl, rfl, rfl⟩
    refine ⟨hactive, rfl, (emptySiblings_iff _ _).mpr ⟨hsort, ?_⟩⟩
    rwa [lexicalBlocking_eq hactive] at hzero
  · rintro ⟨hactive, rfl, hsiblings⟩
    obtain ⟨hsort, hzero⟩ := (emptySiblings_iff _ _).mp hsiblings
    refine ⟨index, hactive, child, ⟨hsort, ?_⟩, rfl, rfl, rfl⟩
    rwa [lexicalBlocking_eq hactive]

theorem returnsChild_iff : returnsChild production = true ↔ ReturnsChild production := by
  simp [returnsChild, ReturnsChild, and_assoc]

/-- What a fold over edges marks. -/
theorem foldl_marks {ε ι : Type} [DecidableEq ι] (mark : ε → Bool) (target : ε → ι)
    (entries : List ε) (marked : ι → Bool) (index : ι) :
    entries.foldl (fun marked entry =>
        if mark entry then Function.update marked (target entry) true else marked) marked index =
      true ↔ marked index = true ∨ ∃ entry ∈ entries, mark entry = true ∧ target entry = index := by
  induction entries generalizing marked with
  | nil => simp
  | cons entry entries ih =>
    rw [List.foldl_cons, ih]
    by_cases hmark : mark entry = true
    · rw [if_pos hmark, mark_iff]
      simp only [List.mem_cons, exists_eq_or_imp, hmark, true_and]
      constructor
      · tauto
      · tauto
    · rw [if_neg hmark]
      simp only [List.mem_cons, exists_eq_or_imp, hmark, Bool.false_eq_true, false_and, false_or]

theorem flagged_iff (index : Fin grammar.size) :
    flagged minimumLen grammar index = true ↔
      index ∈ grammar.active ∧ (grammar.productions index).token = false ∧
        ¬ ReturnsChild (grammar.productions index) ∧
        ∃ child, EmptySiblings minimumLen (MatchesEmpty minimumLen grammar)
            (grammar.productions index) child ∧
          ReflTransGen (SameSpan minimumLen grammar (MatchesEmpty minimumLen grammar)) child
            (grammar.productions index).resultId := by
  have hedge : Edge (edges minimumLen grammar) =
      SameSpan minimumLen grammar (MatchesEmpty minimumLen grammar) := by
    funext result child
    simp only [Edge, mem_edges, SameSpan]
  have hmarks := foldl_marks
    (fun edge : Fin grammar.size × Fin grammar.sorts × Fin grammar.sorts =>
      decide (stronglyConnectedComponents (edges minimumLen grammar) edge.2.1 =
          stronglyConnectedComponents (edges minimumLen grammar) edge.2.2) &&
        !(grammar.productions edge.1).token && !returnsChild (grammar.productions edge.1))
    Prod.fst (edges minimumLen grammar) (fun _ => false) index
  have hcomponents := (components_spec (edges minimumLen grammar)).2
  rw [hedge] at hcomponents
  rw [flagged, hmarks]
  simp only [Bool.false_eq_true, false_or, Bool.and_eq_true, decide_eq_true_eq, Bool.not_eq_true']
  constructor
  · rintro ⟨⟨_, result, child⟩, hmem, ⟨⟨hcomponent, htoken⟩, hreturns⟩, rfl⟩
    obtain ⟨hactive, rfl, hsiblings⟩ := (mem_edges _ _ _).mp hmem
    refine ⟨hactive, htoken, ?_, child, hsiblings, ((hcomponents _ _).mp hcomponent).2⟩
    rw [← returnsChild_iff, Bool.not_eq_true]
    exact hreturns
  · rintro ⟨hactive, htoken, hreturns, child, hsiblings, hreach⟩
    rw [← returnsChild_iff, Bool.not_eq_true] at hreturns
    refine ⟨(index, (grammar.productions index).resultId, child),
      (mem_edges _ _ _).mpr ⟨hactive, rfl, hsiblings⟩, ⟨⟨?_, htoken⟩, hreturns⟩, rfl⟩
    exact (hcomponents _ _).mpr ⟨.single ⟨index, hactive, rfl, hsiblings⟩, hreach⟩

variable (minimumLen grammar)

/-- The productions that are flagged are the active ones that build a node, are no tokens, and
have a nonterminal that leads back to their result over one span; and two vertices of any graph
share a component exactly when they reach each other. -/
theorem same_span_cycles_exact :
    (∀ index, flagged minimumLen grammar index = true ↔
      index ∈ grammar.active ∧ (grammar.productions index).token = false ∧
        ¬ ReturnsChild (grammar.productions index) ∧
        ∃ child, EmptySiblings minimumLen (MatchesEmpty minimumLen grammar)
            (grammar.productions index) child ∧
          ReflTransGen (SameSpan minimumLen grammar (MatchesEmpty minimumLen grammar)) child
            (grammar.productions index).resultId) ∧
      ∀ (ι : Type) (n : Nat) (edges : List (ι × Fin n × Fin n)),
        (∀ v, ∃ i, stronglyConnectedComponents edges v = some i) ∧
          ∀ u v, stronglyConnectedComponents edges u = stronglyConnectedComponents edges v ↔
            ReflTransGen (Edge edges) u v ∧ ReflTransGen (Edge edges) v u :=
  ⟨flagged_iff, fun _ _ edges => components_spec edges⟩

end Flags

section Erased

/-- `Exp ::= List Exp`, with the erased terminator `List ::= ""` of a list that is not empty. -/
def erased : Grammar where
  sorts := 2
  size := 2
  productions index :=
    if index = 0 then
      { resultId := 0, items := [.nonTerminal, .nonTerminal]
        itemSortIds := [some 1, some 0], label := some "wrap", token := false
        transparent := false, bracket := false, isRecord := false, aligned := rfl }
    else
      { resultId := 1, items := [], itemSortIds := [], label := some "empty", token := false
        transparent := false, bracket := false, isRecord := false, aligned := rfl }
  byResult := [[0], []]

/-- The least fixpoint over all productions, the erased ones included. -/
def MatchesEmptyOverAll (minimumLen : MinimumLen) (grammar : Grammar) : Fin grammar.sorts → Prop :=
  Derivable (fun index => ∀ item ∈ (grammar.productions index).items,
      item.mayBeEmpty minimumLen = true)
    (fun index => (grammar.productions index).sortIds)
    fun index => (grammar.productions index).resultId

theorem not_matchesEmpty_erased {minimumLen : MinimumLen} (sort : Fin 2) :
    ¬ MatchesEmpty minimumLen erased sort := by
  refine fun h => h.least (fun _ => False) ?_
  rintro index ⟨hactive, -⟩ hpremises
  have hindex : index = (0 : Fin 2) := List.mem_singleton.mp hactive
  subst hindex
  exact hpremises (0 : Fin 2) (List.mem_cons_of_mem _ List.mem_cons_self)

theorem matchesEmpty_terminator :
    MatchesEmptyOverAll (fun _ => none) erased (1 : Fin 2) :=
  Derivable.of (i := (1 : Fin 2)) (fun _ hitem => absurd hitem List.not_mem_nil)
    fun _ hsort => absurd hsort List.not_mem_nil

/-- The erased terminator does not make its sort nullable, though the least fixpoint over all
productions holds it. -/
theorem nullable_over_active_only :
    ¬ ∀ (minimumLen : MinimumLen) (grammar : Grammar) (index : Fin grammar.size),
      flagged minimumLen grammar index = true ↔
        index ∈ grammar.active ∧ (grammar.productions index).token = false ∧
          ¬ ReturnsChild (grammar.productions index) ∧
          ∃ child, EmptySiblings minimumLen (MatchesEmptyOverAll minimumLen grammar)
              (grammar.productions index) child ∧
            ReflTransGen (SameSpan minimumLen grammar (MatchesEmptyOverAll minimumLen grammar))
              child (grammar.productions index).resultId := by
  intro h
  have hflagged : flagged (fun _ => none) erased (0 : Fin 2) = true := by
    refine (h (fun _ => none) erased (0 : Fin 2)).mpr
      ⟨List.mem_singleton_self _, rfl, ?_, (0 : Fin 2), ?_, .refl⟩
    · exact fun hreturns => absurd hreturns.2.2.2 (by decide)
    · refine ⟨[(.nonTerminal, some (1 : Fin 2))], .nonTerminal, [], rfl, ?_⟩
      intro element helement
      rw [List.append_nil, List.mem_singleton] at helement
      subst helement
      refine ⟨rfl, fun sort hsort => ?_⟩
      cases hsort
      exact matchesEmpty_terminator
  obtain ⟨-, -, -, child, ⟨front, item, back, helements, hempty⟩, -⟩ :=
    (@flagged_iff (fun _ => none) erased (0 : Fin 2)).mp hflagged
  have hother : ∃ element ∈ front ++ back, ∃ sort, element.2 = some sort := by
    change [((.nonTerminal : Item), some (1 : Fin 2)), (.nonTerminal, some 0)] =
      front ++ (item, some child) :: back at helements
    match front, helements with
    | [], helements =>
      obtain ⟨-, hback⟩ := List.cons.inj helements
      exact ⟨(.nonTerminal, some (0 : Fin 2)), by rw [← hback]; exact List.mem_cons_self, (0 : Fin 2), rfl⟩
    | first :: front, helements =>
      obtain ⟨hfirst, -⟩ := List.cons.inj helements
      exact ⟨first, List.mem_cons_self, (1 : Fin 2), hfirst ▸ rfl⟩
  obtain ⟨element, helement, sort, hsort⟩ := hother
  exact not_matchesEmpty_erased sort ((hempty element helement).2 sort hsort)

end Erased

end KRust.Inner.Cycles
