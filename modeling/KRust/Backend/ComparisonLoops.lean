import KRust.Backend.Comparison

/-!
The loops over the work lists end: each turn leaves less to compare, by the sizes of the terms on
the left.
-/

set_option linter.unusedSectionVars false

namespace KRust.Backend

open KRust.Kore Lib Lib.Spelling
open KRust.Term.Chunks (Branching Chunked Node Skips)

variable {α S G : Type} {B : Branching}

section Weights

variable (size : α → Nat)

/-- What is left to compare, by the sizes of the left sides. -/
def PendingEqual.weight : PendingEqual α → Nat
  | .terms left _ => size left + 2
  | .entries pairs => 1 + (pairs.map fun pair => size pair.1.1 + size pair.1.2 + 4).sum
  | .elements pairs => 1 + (pairs.map fun pair => size pair.1 + 2).sum

def PendingOrder.weight : PendingOrder α → Nat
  | .decided _ => 1
  | .owed comparison => comparison.weight size

def nextWeight : Option (α × α) → Nat
  | none => 0
  | some (left, _) => size left + 1

/-- What is owed in all. -/
def owingWeight {P : Type} (weight : P → Nat) (owing : Owing α P) : Nat :=
  nextWeight size owing.1 + (owing.2.map weight).sum

theorem PendingEqual.take_weight (comparison : PendingEqual α) :
    owingWeight size (weight size) comparison.take < comparison.weight size := by
  cases comparison with
  | terms left right => simp [take, owingWeight, nextWeight, weight]
  | entries pairs =>
    cases pairs with
    | nil => simp [take, owingWeight, nextWeight, weight]
    | cons pair pairs =>
      obtain ⟨⟨key, value⟩, ⟨otherKey, otherValue⟩⟩ := pair
      simp only [take, owingWeight, nextWeight, weight, List.map_cons, List.map_nil, List.sum_cons,
        List.sum_nil]
      omega
  | elements pairs =>
    cases pairs with
    | nil => simp [take, owingWeight, nextWeight, weight]
    | cons pair pairs =>
      simp only [take, owingWeight, nextWeight, weight, List.map_cons, List.map_nil, List.sum_cons,
        List.sum_nil]
      omega

theorem popEqual_weight {pending : List (PendingEqual α)} {owing : Owing α (PendingEqual α)}
    (h : popEqual pending = .inr owing) :
    owingWeight size (PendingEqual.weight size) owing <
      (pending.map (PendingEqual.weight size)).sum := by
  cases pending with
  | nil => cases h
  | cons comparison pending =>
    obtain rfl := Sum.inr.inj h
    have htake := comparison.take_weight size
    simp only [owingWeight, List.map_append, List.sum_append, List.map_cons, List.sum_cons] at htake ⊢
    omega

theorem popOrder_weight {pending : List (PendingOrder α)} {owing : Owing α (PendingOrder α)}
    (h : popOrder pending = .inr owing) :
    owingWeight size (PendingOrder.weight size) owing <
      (pending.map (PendingOrder.weight size)).sum := by
  cases pending with
  | nil => cases h
  | cons comparison pending =>
    cases comparison with
    | decided order =>
      cases order with
      | eq =>
        obtain rfl := Sum.inr.inj h
        simp [owingWeight, nextWeight, PendingOrder.weight]
      | lt => cases h
      | gt => cases h
    | owed comparison =>
      obtain rfl := Sum.inr.inj h
      have htake := comparison.take_weight size
      have hmap : ((comparison.take.2.map PendingOrder.owed).map (PendingOrder.weight size)) =
          comparison.take.2.map (PendingEqual.weight size) := by
        rw [List.map_map]
        rfl
      simp only [owingWeight, List.map_append, hmap, List.sum_append, List.map_cons,
        List.sum_cons, PendingOrder.weight] at htake ⊢
      omega

/-- The weight of the parts of a node. -/
def partsWeight (parts : List α) : Nat := (parts.map fun part => size part + 2).sum

theorem partsWeight_append (xs ys : List α) :
    partsWeight size (xs ++ ys) = partsWeight size xs + partsWeight size ys := by
  simp [partsWeight]

theorem pairs_weight {I : Type} {pairs : List (I × I)} {xs ys : List I} (h : Skips pairs xs ys)
    (weight : I → Nat) : (pairs.map fun pair => weight pair.1).sum ≤ (xs.map weight).sum := by
  have hle := (h.fst_sublist.map weight).sum_le_sum fun _ _ => Nat.zero_le _
  rwa [List.map_map] at hle

theorem terms_weight (left right : List α) :
    (((left.zip right).map fun pair => PendingEqual.terms pair.1 pair.2).map
      (PendingEqual.weight size)).sum ≤ partsWeight size left := by
  rw [List.map_map]
  exact pairs_weight (.zip left right) fun part => size part + 2

theorem elements_weight {pairs : List (α × α)} {xs ys : List α} (h : Skips pairs xs ys) :
    (PendingEqual.elements pairs).weight size ≤ 1 + partsWeight size xs :=
  Nat.add_le_add_left (pairs_weight h fun part => size part + 2) 1

theorem entries_weight {pairs : List ((α × α) × (α × α))} {xs ys : List (α × α)}
    (h : Skips pairs xs ys) :
    (PendingEqual.entries pairs).weight size ≤
      1 + partsWeight size (xs.flatMap fun entry => [entry.1, entry.2]) := by
  have hparts : ∀ xs : List (α × α), (xs.map fun entry => size entry.1 + size entry.2 + 4).sum =
      partsWeight size (xs.flatMap fun entry => [entry.1, entry.2]) := by
    intro xs
    induction xs with
    | nil => rfl
    | cons entry xs ih =>
      rw [List.flatMap_cons, partsWeight_append, ← ih, List.map_cons, List.sum_cons]
      simp only [partsWeight, List.map_cons, List.map_nil, List.sum_cons, List.sum_nil]
      omega
  rw [← hparts xs]
  exact Nat.add_le_add_left (pairs_weight h fun entry => size entry.1 + size entry.2 + 4) 1

theorem partsWeight_cons (part : α) (parts : List α) :
    partsWeight size (part :: parts) = size part + 2 + partsWeight size parts := rfl

theorem pairsOf_weight {left right : List α} {owed : List (PendingEqual α)}
    (h : pairsOf left right = some owed) :
    (owed.map (PendingEqual.weight size)).sum ≤ partsWeight size left := by
  unfold pairsOf at h
  split at h
  · obtain rfl := Option.some.inj h
    exact terms_weight size left right
  · cases h

theorem pairOf_weight {left right : Option α} {owed : List (PendingEqual α)}
    (h : pairOf left right = some owed) :
    (owed.map (PendingEqual.weight size)).sum ≤ partsWeight size left.toList := by
  unfold pairOf at h
  split at h
  · obtain rfl := Option.some.inj h
    exact Nat.zero_le _
  · obtain rfl := Option.some.inj h
    exact le_rfl
  · cases h

theorem itemsOf_weight {shared : Nat → Node α S G → Node α S G → Bool}
    (hshared : ∀ clock one two, shared clock one two = true → one = two)
    {left right : Chunked α S G B} {owed : PendingEqual α}
    (h : itemsOf shared left right = some owed) :
    owed.weight size ≤ 1 + partsWeight size left.items := by
  unfold itemsOf at h
  split at h
  · obtain rfl := Option.some.inj h
    exact elements_weight size (Chunked.alignedPairs_skips hshared left right)
  · cases h

theorem middleOf_weight {shared : Nat → Node α S G → Node α S G → Bool}
    (hshared : ∀ clock one two, shared clock one two = true → one = two)
    {left right : Option (α × Chunked α S G B)} {owed : List (PendingEqual α)}
    (h : middleOf shared left right = some owed) :
    (owed.map (PendingEqual.weight size)).sum ≤ 1 + partsWeight size
      ((left.map fun entry => (entry.1, entry.2.items)).toList.flatMap fun entry =>
        entry.1 :: entry.2) := by
  unfold middleOf at h
  split at h
  · obtain rfl := Option.some.inj h
    exact Nat.zero_le _
  · obtain ⟨items, hitems, rfl⟩ := Option.map_eq_some_iff.mp h
    have hweight := itemsOf_weight size hshared hitems
    simp only [List.map_cons, List.map_nil, List.sum_cons, List.sum_nil, PendingEqual.weight,
      Option.map_some, Option.toList_some, List.flatMap_cons, List.flatMap_nil, List.append_nil,
      partsWeight_cons] at hweight ⊢
    omega
  · cases h

/-- What two nodes owe weighs no more than the parts of the left one and its trees. -/
theorem equalNodes_weight {sharing : Sharing α S G} {left right : HandleKind α S G B}
    {owed : List (PendingEqual α)} (h : equalNodes sharing left right = some owed) :
    (owed.map (PendingEqual.weight size)).sum ≤ 2 + partsWeight size left.layer.children := by
  unfold equalNodes at h
  split at h
  · obtain rfl := Option.some.inj h
    exact Nat.le_add_left _ _
  · split at h
    · next pairs hpairs =>
      obtain ⟨_, ⟨⟩⟩ := Option.ite_none_right_eq_some.mp h
      exact (pairsOf_weight size hpairs).trans (Nat.le_add_left _ _)
    · cases h
  · obtain ⟨_, ⟨⟩⟩ := Option.ite_none_right_eq_some.mp h
    exact Nat.zero_le _
  · obtain ⟨_, ⟨⟩⟩ := Option.ite_none_right_eq_some.mp h
    exact Nat.zero_le _
  · obtain ⟨_, ⟨⟩⟩ := Option.ite_none_right_eq_some.mp h
    exact Nat.le_add_left _ _
  · split at h
    · next entries _ _ otherEntries _ _ pairs hpairs =>
      obtain ⟨_, ⟨⟩⟩ := Option.ite_none_right_eq_some.mp h
      have hentries := entries_weight size
        (Chunked.alignedPairs_skips sharing.entries_same entries otherEntries)
      have hrest := pairOf_weight size hpairs
      simp only [List.map_cons, List.sum_cons, HandleKind.layer, Layer.children,
        partsWeight_append]
      omega
    · cases h
  · split at h
    · next heads _ _ otherHeads _ _ headItems pairs hheads hmiddle =>
      obtain ⟨_, ⟨⟩⟩ := Option.ite_none_right_eq_some.mp h
      have hitems := itemsOf_weight size sharing.elements_same hheads
      have hrest := middleOf_weight size sharing.tails_same hmiddle
      simp only [List.map_cons, List.sum_cons, HandleKind.layer, Layer.children,
        partsWeight_append]
      omega
    · cases h
  · split at h
    · next elements _ _ otherElements _ _ pairs hpairs =>
      obtain ⟨_, ⟨⟩⟩ := Option.ite_none_right_eq_some.mp h
      have helements := elements_weight size
        (Chunked.alignedPairs_skips sharing.elements_same elements otherElements)
      have hrest := pairOf_weight size hpairs
      simp only [List.map_cons, List.sum_cons, HandleKind.layer, Layer.children,
        partsWeight_append]
      omega
    · cases h
  · cases h

theorem orderPairsOf_weight (left right : List α) :
    ((orderPairsOf left right).map (PendingOrder.weight size)).sum ≤ 1 + partsWeight size left := by
  have hterms := terms_weight size left right
  rw [List.map_map] at hterms
  rw [orderPairsOf, List.map_append, List.sum_append, List.map_map, Nat.add_comm]
  exact Nat.add_le_add_left hterms 1

theorem decided_weight {m : Nat} (order : Ordering) (h : 1 ≤ m) (n : Nat) :
    (([.decided order] : List (PendingOrder α)).map (PendingOrder.weight size)).sum ≤ m + n :=
  h.trans (Nat.le_add_right m n)

theorem orderPairOf_weight (left right : Option α) :
    ((orderPairOf left right).map (PendingOrder.weight size)).sum ≤
      1 + partsWeight size left.toList := by
  unfold orderPairOf
  split
  · exact Nat.zero_le _
  · exact Nat.le_add_right _ _
  · exact Nat.le_add_right _ _
  · exact Nat.le_add_left _ _

theorem orderItemsOf_weight {shared : Nat → Node α S G → Node α S G → Bool}
    (hshared : ∀ clock one two, shared clock one two = true → one = two)
    (left right : Chunked α S G B) :
    ((orderItemsOf shared left right).map (PendingOrder.weight size)).sum ≤
      2 + partsWeight size left.items := by
  have helements := elements_weight size (Chunked.alignedPairs_skips hshared left right)
  simp only [orderItemsOf, List.map_cons, List.map_nil, List.sum_cons, List.sum_nil,
    PendingOrder.weight]
  omega

theorem orderMiddleOf_weight {shared : Nat → Node α S G → Node α S G → Bool}
    (hshared : ∀ clock one two, shared clock one two = true → one = two)
    (left right : Option (α × Chunked α S G B)) :
    ((orderMiddleOf shared left right).map (PendingOrder.weight size)).sum ≤ 2 + partsWeight size
      ((left.map fun entry => (entry.1, entry.2.items)).toList.flatMap fun entry =>
        entry.1 :: entry.2) := by
  unfold orderMiddleOf
  split
  · exact Nat.zero_le _
  · exact decided_weight size _ (by decide) _
  · exact decided_weight size _ (by decide) _
  · next middle tails otherMiddle otherTails =>
    have htails := orderItemsOf_weight size hshared tails otherTails
    simp only [List.map_cons, List.sum_cons, PendingOrder.weight, PendingEqual.weight,
      Option.map_some, Option.toList_some, List.flatMap_cons, List.flatMap_nil, List.append_nil,
      partsWeight_cons]
    omega

/-- What the order of two nodes owes weighs no more than the parts of the left one, its trees and
the comparisons made already. -/
theorem orderNodes_weight (sharing : Sharing α S G) (left right : HandleKind α S G B) :
    ((orderNodes sharing left right).map (PendingOrder.weight size)).sum ≤
      5 + partsWeight size left.layer.children := by
  unfold orderNodes
  split
  · exact Nat.le_add_left _ _
  · next arguments _ _ otherArguments =>
    have harguments := orderPairsOf_weight size arguments otherArguments
    simp only [List.map_cons, List.sum_cons, PendingOrder.weight, HandleKind.layer, Layer.children]
    omega
  · exact decided_weight size _ (by decide) _
  · exact decided_weight size _ (by decide) _
  · simp only [List.map_cons, List.map_nil, List.sum_cons, List.sum_nil, PendingOrder.weight,
      PendingEqual.weight, HandleKind.layer, Layer.children, partsWeight_cons]
    omega
  · next entries rest _ otherEntries otherRest =>
    have hentries := entries_weight size
      (Chunked.alignedPairs_skips sharing.entries_same entries otherEntries)
    have hrest := orderPairOf_weight size rest otherRest
    simp only [List.map_cons, List.sum_cons, PendingOrder.weight, HandleKind.layer, Layer.children,
      partsWeight_append]
    omega
  · next heads rest _ otherHeads otherRest =>
    have hheads := orderItemsOf_weight size sharing.elements_same heads otherHeads
    have hmiddle := orderMiddleOf_weight size sharing.tails_same rest otherRest
    simp only [List.map_cons, List.sum_cons, List.map_append, List.sum_append, PendingOrder.weight,
      HandleKind.layer, Layer.children, partsWeight_append]
    omega
  · next elements rest _ otherElements otherRest =>
    have helements := elements_weight size
      (Chunked.alignedPairs_skips sharing.elements_same elements otherElements)
    have hrest := orderPairOf_weight size rest otherRest
    simp only [List.map_cons, List.sum_cons, PendingOrder.weight, HandleKind.layer, Layer.children,
      partsWeight_append]
    omega
  · exact decided_weight size _ (by decide) _

end Weights

section Sizes

/-- The parts of a term weigh less than the term. -/
theorem parts_lt (t : Term) :
    5 + partsWeight (fun part => 16 * sizeOf part) t.layer.children ≤ 16 * sizeOf t := by
  have hlist : ∀ terms : List Term,
      partsWeight (fun part => 16 * sizeOf part) terms + 16 ≤ 16 * sizeOf terms := by
    intro terms
    induction terms with
    | nil => exact le_rfl
    | cons term terms ih =>
      rw [partsWeight_cons, List.cons.sizeOf_spec]
      omega
  have hentries : ∀ entries : List (Term × Term), partsWeight (fun part => 16 * sizeOf part)
      (entries.flatMap fun entry => [entry.1, entry.2]) + 16 ≤ 16 * sizeOf entries := by
    intro entries
    induction entries with
    | nil => exact le_rfl
    | cons entry entries ih =>
      obtain ⟨key, value⟩ := entry
      rw [List.flatMap_cons, partsWeight_append, partsWeight_cons, partsWeight_cons,
        List.cons.sizeOf_spec, Prod.mk.sizeOf_spec]
      simp only [partsWeight, List.map_nil, List.sum_nil] at ih ⊢
      omega
  have hrest : ∀ rest : Option Term,
      partsWeight (fun part => 16 * sizeOf part) rest.toList + 14 ≤ 16 * sizeOf rest := by
    intro rest
    cases rest with
    | none => exact Nat.le_add_left _ _
    | some rest => 
      simp only [Option.toList_some, partsWeight, List.map_cons, List.map_nil, List.sum_cons,
        List.sum_nil, Option.some.sizeOf_spec]
      omega
  cases t with
  | and left right =>
    simp only [Term.layer, Layer.children, partsWeight, List.map_cons, List.map_nil, List.sum_cons,
      List.sum_nil, Term.and.sizeOf_spec]
    omega
  | application symbol sortArguments arguments =>
    have := hlist arguments
    simp only [Term.layer, Layer.children, Term.application.sizeOf_spec]
    omega
  | domainValue sort value =>
    simp only [Term.layer, Layer.children, partsWeight, List.map_nil, List.sum_nil,
      Term.domainValue.sizeOf_spec]
    omega
  | var v =>
    simp only [Term.layer, Layer.children, partsWeight, List.map_nil, List.sum_nil,
      Term.var.sizeOf_spec]
    omega
  | injection source target term =>
    simp only [Term.layer, Layer.children, partsWeight, List.map_cons, List.map_nil, List.sum_cons,
      List.sum_nil, Term.injection.sizeOf_spec]
    omega
  | map d entries rest =>
    have hentriesLe := hentries entries
    have hrestLe := hrest rest
    simp only [Term.layer, Layer.children, partsWeight_append, Term.map.sizeOf_spec]
    omega
  | list d heads rest =>
    have hheads := hlist heads
    simp only [Term.layer, Layer.children, partsWeight_append, Term.list.sizeOf_spec]
    cases rest with
    | none =>
      simp only [Option.toList_none, List.flatMap_nil, partsWeight, List.map_nil, List.sum_nil]
        at hheads ⊢
      omega
    | some entry =>
      obtain ⟨middle, tails⟩ := entry
      have htails := hlist tails
      simp only [Option.toList_some, List.flatMap_cons, List.flatMap_nil, List.append_nil,
        partsWeight_cons, Option.some.sizeOf_spec, Prod.mk.sizeOf_spec]
      omega
  | set d elements rest =>
    have helements := hlist elements
    have hrestLe := hrest rest
    simp only [Term.layer, Layer.children, partsWeight_append, Term.set.sizeOf_spec]
    omega

end Sizes

namespace Heap

variable [DecidableEq α] (heap : Heap α S G B)

/-- The size of the term that a handle stands for. -/
noncomputable def size (a : α) : Nat := 16 * sizeOf (heap.term a)

theorem partsWeight_le (a : α) :
    5 + partsWeight heap.size (heap.kind a).layer.children ≤ heap.size a := by
  have hparts := parts_lt (heap.term a)
  rw [heap.term_layer a, Layer.children_change] at hparts
  rwa [partsWeight, List.map_map] at hparts

theorem equalTurn_weight {owing next : Owing α (PendingEqual α)}
    (h : heap.equalTurn owing = .inr next) :
    owingWeight heap.size (PendingEqual.weight heap.size) next <
      owingWeight heap.size (PendingEqual.weight heap.size) owing := by
  obtain ⟨pair, pending⟩ := owing
  have hpop : ∀ pushed : List (PendingEqual α), popEqual (pushed ++ pending) = .inr next →
      (pushed.map (PendingEqual.weight heap.size)).sum ≤ nextWeight heap.size pair →
      owingWeight heap.size (PendingEqual.weight heap.size) next <
        owingWeight heap.size (PendingEqual.weight heap.size) (pair, pending) := by
    intro pushed hnext hle
    have hlt := popEqual_weight heap.size hnext
    rw [List.map_append, List.sum_append] at hlt
    simp only [owingWeight] at hlt ⊢
    omega
  cases pair with
  | none => exact hpop [] h (Nat.zero_le _)
  | some pair =>
    obtain ⟨left, right⟩ := pair
    simp only [equalTurn] at h
    split at h
    · exact hpop [] h (Nat.zero_le _)
    split at h
    · cases h
    have hparts := heap.partsWeight_le left
    split at h
    · cases h
    · exact hpop [] h (Nat.zero_le _)
    · next hnodes =>
      have howed := equalNodes_weight heap.size hnodes
      obtain rfl := Sum.inr.inj h
      simp only [owingWeight, nextWeight, List.map_cons, List.sum_cons, List.map_append,
        List.sum_append, List.map_reverse, List.sum_reverse, PendingEqual.weight] at howed ⊢
      omega
    · next items pairs _ hnodes =>
      have howed := equalNodes_weight heap.size hnodes
      refine hpop (items :: pairs.reverse) h ?_
      simp only [nextWeight, List.map_cons, List.sum_cons, List.map_reverse,
        List.sum_reverse] at howed ⊢
      omega

/-- The loop of `equal_terms_on_work_list`. -/
def equalLoop : Loop (Owing α (PendingEqual α)) Bool where
  turn := heap.equalTurn
  ends := ⟨_, fun _ _ => heap.equalTurn_weight⟩

def equalTermsOnWorkList (left right : α) : Bool := heap.equalLoop.run (some (left, right), [])

theorem orderTurn_weight {owing next : Owing α (PendingOrder α)}
    (h : heap.orderTurn owing = .inr next) :
    owingWeight heap.size (PendingOrder.weight heap.size) next <
      owingWeight heap.size (PendingOrder.weight heap.size) owing := by
  obtain ⟨pair, pending⟩ := owing
  have hpop : ∀ pushed : List (PendingOrder α), popOrder (pushed ++ pending) = .inr next →
      (pushed.map (PendingOrder.weight heap.size)).sum ≤ nextWeight heap.size pair →
      owingWeight heap.size (PendingOrder.weight heap.size) next <
        owingWeight heap.size (PendingOrder.weight heap.size) (pair, pending) := by
    intro pushed hnext hle
    have hlt := popOrder_weight heap.size hnext
    rw [List.map_append, List.sum_append] at hlt
    simp only [owingWeight] at hlt ⊢
    omega
  cases pair with
  | none => exact hpop [] h (Nat.zero_le _)
  | some pair =>
    obtain ⟨left, right⟩ := pair
    simp only [orderTurn] at h
    split at h
    · exact hpop [] h (Nat.zero_le _)
    have hparts := heap.partsWeight_le left
    have hnodes := orderNodes_weight heap.size (heap.sharing left right) (heap.kind left)
      (heap.kind right)
    have hfilter := ((List.filter_sublist (p := fun comparison => !PendingOrder.settled comparison)
      (l := orderNodes (heap.sharing left right) (heap.kind left) (heap.kind right))).map
        (PendingOrder.weight heap.size)).sum_le_sum fun _ _ => Nat.zero_le _
    split at h
    · exact hpop [] h (Nat.zero_le _)
    · cases h
    · next hfound =>
      rw [hfound] at hfilter
      obtain rfl := Sum.inr.inj h
      simp only [owingWeight, nextWeight, List.map_cons, List.sum_cons, List.map_append,
        List.sum_append, PendingOrder.weight, PendingEqual.weight] at hfilter ⊢
      omega
    · next items comparisons _ _ hfound =>
      rw [hfound] at hfilter
      refine hpop (items :: comparisons) h ?_
      simp only [nextWeight, List.map_cons, List.sum_cons] at hfilter ⊢
      omega

/-- The loop of `order_terms_on_work_list`. -/
def orderLoop : Loop (Owing α (PendingOrder α)) Ordering where
  turn := heap.orderTurn
  ends := ⟨_, fun _ _ => heap.orderTurn_weight⟩

def orderTermsOnWorkList (left right : α) : Ordering := heap.orderLoop.run (some (left, right), [])

end Heap

end KRust.Backend
