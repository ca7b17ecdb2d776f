import KRust.Backend.ComparisonLoops

/-!
The work lists decide what the recursion over the terms decides: each turn keeps what the
comparisons owed amount to.
-/

set_option linter.unusedSectionVars false

namespace KRust.Backend

open KRust.Kore Lib Lib.Spelling
open KRust.Term.Chunks (Branching Chunked Node Skips firstDifference firstDifference_then_length)

variable {α S G : Type} {B : Branching}

section Equality

/-- Every pair that is owed is of one and the same term. -/
def PendingEqual.Holds (same : α → α → Prop) : PendingEqual α → Prop
  | .terms left right => same left right
  | .entries pairs => ∀ pair ∈ pairs, same pair.1.1 pair.2.1 ∧ same pair.1.2 pair.2.2
  | .elements pairs => ∀ pair ∈ pairs, same pair.1 pair.2

@[simp] theorem PendingEqual.holds_terms (same : α → α → Prop) (left right : α) :
    (PendingEqual.terms left right).Holds same ↔ same left right := Iff.rfl

@[simp] theorem PendingEqual.holds_entries (same : α → α → Prop)
    (pairs : List ((α × α) × (α × α))) : (PendingEqual.entries pairs).Holds same ↔
      ∀ pair ∈ pairs, same pair.1.1 pair.2.1 ∧ same pair.1.2 pair.2.2 := Iff.rfl

@[simp] theorem PendingEqual.holds_elements (same : α → α → Prop) (pairs : List (α × α)) :
    (PendingEqual.elements pairs).Holds same ↔ ∀ pair ∈ pairs, same pair.1 pair.2 := Iff.rfl

theorem PendingEqual.take_holds (same : α → α → Prop) (comparison : PendingEqual α) :
    comparison.Holds same ↔ (∀ pair ∈ comparison.take.1, same pair.1 pair.2) ∧
      ∀ owed ∈ comparison.take.2, owed.Holds same := by
  cases comparison with
  | terms left right => simp [take, Holds]
  | entries pairs =>
    cases pairs with
    | nil => simp [take, Holds]
    | cons pair pairs => simp [take, Holds, and_assoc]
  | elements pairs =>
    cases pairs with
    | nil => simp [take, Holds]
    | cons pair pairs => simp [take, Holds]

variable {β : Type} (f : α → β)

theorem pairsOf_iff (left right : List α) :
    left.map f = right.map f ↔ ∃ owed, pairsOf left right = some owed ∧
      ∀ comparison ∈ owed, comparison.Holds fun a b => f a = f b := by
  unfold pairsOf
  split
  · next hlen =>
    rw [← (Skips.zip left right).map_eq_iff f hlen]
    simp only [Option.some.injEq, exists_eq_left', List.forall_mem_map, PendingEqual.holds_terms]
  · next hlen =>
    simp only [reduceCtorEq, false_and, exists_false, iff_false]
    exact fun heq => hlen (by simpa using congrArg List.length heq)

theorem pairOf_iff (left right : Option α) :
    left.map f = right.map f ↔ ∃ owed, pairOf left right = some owed ∧
      ∀ comparison ∈ owed, comparison.Holds fun a b => f a = f b := by
  cases left <;> cases right <;> simp [pairOf]

theorem itemsOf_iff {shared : Nat → Node α S G → Node α S G → Bool}
    (hshared : ∀ clock one two, shared clock one two = true → one = two)
    {left right : Chunked α S G B} (hleft : left.len = left.items.length)
    (hright : right.len = right.items.length) :
    left.items.map f = right.items.map f ↔ ∃ owed, itemsOf shared left right = some owed ∧
      owed.Holds fun a b => f a = f b := by
  unfold itemsOf
  split
  · next hlen =>
    rw [hleft, hright] at hlen
    rw [← (Chunked.alignedPairs_skips hshared left right).map_eq_iff f hlen]
    simp only [Option.some.injEq, exists_eq_left', PendingEqual.holds_elements]
  · next hlen =>
    simp only [reduceCtorEq, false_and, exists_false, iff_false]
    exact fun heq => hlen (by rw [hleft, hright]; simpa using congrArg List.length heq)

theorem middleOf_iff {shared : Nat → Node α S G → Node α S G → Bool}
    (hshared : ∀ clock one two, shared clock one two = true → one = two)
    {left right : Option (α × Chunked α S G B)}
    (hleft : ∀ entry ∈ left, entry.2.len = entry.2.items.length)
    (hright : ∀ entry ∈ right, entry.2.len = entry.2.items.length) :
    (left.map fun entry => (f entry.1, entry.2.items.map f)) =
        (right.map fun entry => (f entry.1, entry.2.items.map f)) ↔
      ∃ owed, middleOf shared left right = some owed ∧
        ∀ comparison ∈ owed, comparison.Holds fun a b => f a = f b := by
  cases left with
  | none => cases right <;> simp [middleOf]
  | some entry =>
    cases right with
    | none => simp [middleOf]
    | some otherEntry =>
      have hitems := itemsOf_iff f hshared (hleft entry rfl) (hright otherEntry rfl)
      simp only [Option.map_some, Option.some.injEq, Prod.mk.injEq, hitems, middleOf,
        Option.map_eq_some_iff]
      constructor
      · rintro ⟨hmiddle, items, hfound, hitem⟩
        exact ⟨_, ⟨items, hfound, rfl⟩, by simpa using ⟨hmiddle, hitem⟩⟩
      · rintro ⟨_, ⟨items, hfound, rfl⟩, hall⟩
        obtain ⟨hmiddle, hitem⟩ : f entry.1 = f otherEntry.1 ∧
          items.Holds (fun a b => f a = f b) := by simpa using hall
        exact ⟨hmiddle, items, hfound, hitem⟩

/-- Entries that agree, unless a tree has more of them. -/
theorem entries_iff {shared : Nat → Node (α × α) S G → Node (α × α) S G → Bool}
    (hshared : ∀ clock one two, shared clock one two = true → one = two)
    {left right : Chunked (α × α) S G B} (hleft : left.len = left.items.length)
    (hright : right.len = right.items.length) :
    (left.items.map fun entry => (f entry.1, f entry.2)) =
        (right.items.map fun entry => (f entry.1, f entry.2)) ↔
      left.len = right.len ∧ (PendingEqual.entries (Chunked.alignedPairs shared left right)).Holds
        fun a b => f a = f b := by
  rw [PendingEqual.holds_entries]
  constructor
  · intro heq
    have hlen : left.items.length = right.items.length := by
      simpa using congrArg List.length heq
    have hpairs := ((Chunked.alignedPairs_skips hshared left right).map_eq_iff _ hlen).mpr heq
    exact ⟨by rw [hleft, hright, hlen], fun pair hpair => Prod.mk.inj (hpairs pair hpair)⟩
  · rintro ⟨hlen, hpairs⟩
    rw [hleft, hright] at hlen
    refine ((Chunked.alignedPairs_skips hshared left right).map_eq_iff _ hlen).mp fun pair hpair => ?_
    rw [(hpairs pair hpair).1, (hpairs pair hpair).2]

/-- Nodes over the same terms are those whose fields agree and whose pairs of children hold. -/
theorem equalNodes_iff (sharing : Sharing α S G) {left right : HandleKind α S G B}
    (hleft : left.Counted) (hright : right.Counted) :
    left.layer.change f = right.layer.change f ↔
      ∃ owed, equalNodes sharing left right = some owed ∧
        ∀ comparison ∈ owed, comparison.Holds fun a b => f a = f b := by
  cases left with
  | and leftFirst leftSecond =>
    cases right with
    | and rightFirst rightSecond => simp [HandleKind.layer, Layer.change, equalNodes]
    | _ => simp [HandleKind.layer, Layer.change, equalNodes]
  | application symbol sortArguments arguments =>
    cases right with
    | application otherSymbol otherSortArguments otherArguments =>
      have hpairs := pairsOf_iff f arguments otherArguments
      simp only [HandleKind.layer, Layer.change, Layer.application.injEq, hpairs, equalNodes]
      cases pairsOf arguments otherArguments with
      | none => simp
      | some pairs => simp [and_assoc]
    | _ => simp [HandleKind.layer, Layer.change, equalNodes]
  | domainValue sort value =>
    cases right with
    | domainValue otherSort otherValue => simp [HandleKind.layer, Layer.change, equalNodes]
    | _ => simp [HandleKind.layer, Layer.change, equalNodes]
  | var v =>
    cases right with
    | var other => simp [HandleKind.layer, Layer.change, equalNodes]
    | _ => simp [HandleKind.layer, Layer.change, equalNodes]
  | injection source target term =>
    cases right with
    | injection otherSource otherTarget otherTerm =>
      simp [HandleKind.layer, Layer.change, equalNodes, and_assoc]
    | _ => simp [HandleKind.layer, Layer.change, equalNodes]
  | map d entries rest =>
    cases right with
    | map otherD otherEntries otherRest =>
      have hentries := entries_iff f sharing.entries_same hleft hright
      have hrest := pairOf_iff f rest otherRest
      simp only [HandleKind.layer, Layer.change, Layer.map.injEq, hentries, hrest, equalNodes]
      cases pairOf rest otherRest with
      | none => simp
      | some pairs => simp [and_assoc]
    | _ => simp [HandleKind.layer, Layer.change, equalNodes]
  | list d heads rest =>
    cases right with
    | list otherD otherHeads otherRest =>
      have hheads := itemsOf_iff f sharing.elements_same hleft.1 hright.1
      have hmiddle := middleOf_iff f sharing.tails_same hleft.2 hright.2
      simp only [HandleKind.layer, Layer.change, Layer.list.injEq, hheads, Option.map_map,
        Function.comp_def, hmiddle, equalNodes]
      cases itemsOf sharing.elements heads otherHeads with
      | none => simp
      | some items =>
        cases middleOf sharing.tails rest otherRest with
        | none => simp
        | some pairs => simp
    | _ => simp [HandleKind.layer, Layer.change, equalNodes]
  | set d elements rest =>
    cases right with
    | set otherD otherElements otherRest => 
      have helements := itemsOf_iff f sharing.elements_same hleft hright
      have hrest := pairOf_iff f rest otherRest
      simp only [HandleKind.layer, Layer.change, Layer.set.injEq, helements, hrest, equalNodes, itemsOf]
      cases pairOf rest otherRest with
      | none => simp
      | some pairs => simp [and_assoc]
    | _ => simp [HandleKind.layer, Layer.change, equalNodes]

variable [DecidableEq α] (heap : Heap α S G B)

/-- Handles stand for one term where their nodes are over one. -/
theorem Heap.term_eq_iff (left right : α) : heap.term left = heap.term right ↔
    ∃ owed, equalNodes (heap.sharing left right) (heap.kind left) (heap.kind right) = some owed ∧
      ∀ comparison ∈ owed, comparison.Holds fun a b => heap.term a = heap.term b := by
  rw [← equalNodes_iff heap.term (heap.sharing left right) (heap.counted left)
    (heap.counted right), ← heap.term_layer, ← heap.term_layer]
  refine ⟨fun h => by rw [h], fun h => ?_⟩
  rw [← Term.layer_term (heap.term left), ← Term.layer_term (heap.term right), h]

/-- All that is owed is of equal terms. -/
def Heap.Equal (owing : Owing α (PendingEqual α)) : Prop :=
  (∀ pair ∈ owing.1, heap.term pair.1 = heap.term pair.2) ∧
    ∀ comparison ∈ owing.2, comparison.Holds fun a b => heap.term a = heap.term b

theorem Heap.popEqual_inl {pending : List (PendingEqual α)} {answer : Bool}
    (h : popEqual pending = .inl answer) : heap.Equal (none, pending) ↔ answer = true := by
  cases pending with
  | nil =>
    obtain rfl := Sum.inl.inj h
    simp [Equal]
  | cons comparison pending => cases h

theorem Heap.popEqual_inr {pending : List (PendingEqual α)} {next : Owing α (PendingEqual α)}
    (h : popEqual pending = .inr next) : heap.Equal (none, pending) ↔ heap.Equal next := by
  cases pending with
  | nil => cases h
  | cons comparison pending =>
    obtain rfl := Sum.inr.inj h
    have htake := comparison.take_holds fun a b => heap.term a = heap.term b
    simp only [Equal, List.forall_mem_cons, List.forall_mem_append, htake]
    simp [and_assoc]

/-- What a turn of the loop has to do with what is owed. -/
inductive Heap.EqualTurn (owing : Owing α (PendingEqual α)) : Prop where
  /-- Nothing is compared, but for pairs of one node; the work list goes on. -/
  | pop (pending : List (PendingEqual α)) (hturn : heap.equalTurn owing = popEqual pending)
    (hsame : heap.Equal owing ↔ heap.Equal (none, pending))
  /-- The nodes differ. -/
  | differ (hturn : heap.equalTurn owing = .inl false) (hdiffer : ¬ heap.Equal owing)
  /-- The first children of the nodes are next. -/
  | next (next : Owing α (PendingEqual α)) (hturn : heap.equalTurn owing = .inr next)
    (hsame : heap.Equal owing ↔ heap.Equal next)

theorem Heap.equalTurn_cases (owing : Owing α (PendingEqual α)) : heap.EqualTurn owing := by
  obtain ⟨pair, pending⟩ := owing
  cases pair with
  | none => exact .pop pending rfl Iff.rfl
  | some pair =>
    obtain ⟨left, right⟩ := pair
    by_cases hone : left = right
    · subst hone
      exact .pop pending (by simp [equalTurn]) (by simp [Equal])
    by_cases hhash : heap.hash left = heap.hash right
    swap
    · refine .differ (by simp [equalTurn, hone, hhash]) fun hequal => hhash ?_
      exact heap.hash_eq left right (hequal.1 (left, right) rfl)
    have hnodes := heap.term_eq_iff left right
    cases howed : equalNodes (heap.sharing left right) (heap.kind left) (heap.kind right) with
    | none =>
      refine .differ (by simp [equalTurn, hone, hhash, howed]) fun hequal => ?_
      obtain ⟨owed, hfound, _⟩ := hnodes.mp (hequal.1 (left, right) rfl)
      rw [howed] at hfound
      cases hfound
    | some owed =>
      rw [howed] at hnodes
      simp only [Option.some.injEq, exists_eq_left'] at hnodes
      have hequal : heap.Equal (some (left, right), pending) ↔
          heap.Equal (none, owed ++ pending) := by
        simp [Equal, hnodes, or_imp, forall_and]
      cases owed with
      | nil => exact .pop pending (by simp [equalTurn, hone, hhash, howed]) hequal
      | cons first pairs =>
        cases first with
        | terms first second =>
          refine .next (some (first, second), pairs.reverse ++ pending)
            (by simp [equalTurn, hone, hhash, howed]) (hequal.trans ?_)
          simp [Equal, or_imp, forall_and]
        | entries items =>
          refine .pop (.entries items :: (pairs.reverse ++ pending))
            (by simp [equalTurn, hone, hhash, howed]) (hequal.trans ?_)
          simp [Equal, or_imp, forall_and]
        | elements items =>
          refine .pop (.elements items :: (pairs.reverse ++ pending))
            (by simp [equalTurn, hone, hhash, howed]) (hequal.trans ?_)
          simp [Equal, or_imp, forall_and]

/-- The loop returns whether all that is owed is of equal terms. -/
theorem Heap.equalLoop_run (owing : Owing α (PendingEqual α)) :
    heap.equalLoop.run owing = true ↔ heap.Equal owing := by
  refine heap.equalLoop.run_spec (Q := fun owing answer => answer = true ↔ heap.Equal owing)
    (fun owing answer hturn => ?_) (fun owing next answer hturn ih => ?_) owing
  · change heap.equalTurn owing = _ at hturn
    rcases heap.equalTurn_cases owing with
      ⟨pending, hpop, hsame⟩ | ⟨hdiffers, hdiffer⟩ | ⟨_, hnext, _⟩
    · rw [hpop] at hturn
      exact (hsame.trans (heap.popEqual_inl hturn)).symm
    · rw [hdiffers] at hturn
      obtain rfl := Sum.inl.inj hturn
      simpa using hdiffer
    · rw [hnext] at hturn
      cases hturn
  · change heap.equalTurn owing = _ at hturn
    rw [ih]
    rcases heap.equalTurn_cases owing with
      ⟨pending, hpop, hsame⟩ | ⟨hdiffers, _⟩ | ⟨_, hnext, hsame⟩
    · rw [hpop] at hturn
      exact (hsame.trans (heap.popEqual_inr hturn)).symm
    · rw [hdiffers] at hturn
      cases hturn
    · rw [hnext] at hturn
      obtain rfl := Sum.inr.inj hturn
      exact hsame.symm

/-- Equality on the work list is structural equality. -/
theorem Heap.equalTermsOnWorkList_eq (left right : α) :
    heap.equalTermsOnWorkList left right = decide (heap.term left = heap.term right) := by
  rw [Bool.eq_iff_iff, decide_eq_true_iff, equalTermsOnWorkList, heap.equalLoop_run]
  simp [Equal]

end Equality

section Order

variable (cmp : α → α → Ordering)

/-- What a comparison that is owed amounts to. -/
def PendingEqual.order : PendingEqual α → Ordering
  | .terms left right => cmp left right
  | .entries pairs => pairs.foldr (fun pair rest =>
      ((cmp pair.1.1 pair.2.1).then (cmp pair.1.2 pair.2.2)).then rest) .eq
  | .elements pairs => pairs.foldr (fun pair rest => (cmp pair.1 pair.2).then rest) .eq

def PendingOrder.order : PendingOrder α → Ordering
  | .decided order => order
  | .owed comparison => comparison.order cmp

/-- The first of the comparisons that is not equal. -/
def orderAll (comparisons : List (PendingOrder α)) : Ordering :=
  comparisons.foldr (fun comparison rest => (comparison.order cmp).then rest) .eq

@[simp] theorem orderAll_nil : orderAll cmp [] = .eq := rfl

@[simp] theorem orderAll_cons (comparison : PendingOrder α) (comparisons : List (PendingOrder α)) :
    orderAll cmp (comparison :: comparisons) =
      (comparison.order cmp).then (orderAll cmp comparisons) := rfl

@[simp] theorem orderAll_append (xs ys : List (PendingOrder α)) :
    orderAll cmp (xs ++ ys) = (orderAll cmp xs).then (orderAll cmp ys) := by
  induction xs with
  | nil => rfl
  | cons x xs ih => rw [List.cons_append, orderAll_cons, orderAll_cons, ih, Ordering.then_assoc]

/-- What the pair compared now and the work list amount to. -/
def owingOrder (owing : Owing α (PendingOrder α)) : Ordering :=
  (owing.1.elim .eq fun pair => cmp pair.1 pair.2).then (orderAll cmp owing.2)

theorem PendingEqual.take_order (comparison : PendingEqual α) :
    comparison.order cmp =
      owingOrder cmp (comparison.take.1, comparison.take.2.map PendingOrder.owed) := by
  cases comparison with
  | terms left right => simp [take, order, owingOrder]
  | entries pairs =>
    cases pairs with
    | nil => rfl
    | cons pair pairs => simp [take, order, owingOrder, PendingOrder.order, Ordering.then_assoc]
  | elements pairs =>
    cases pairs with
    | nil => rfl
    | cons pair pairs => simp [take, order, owingOrder, PendingOrder.order]

theorem popOrder_inl {pending : List (PendingOrder α)} {order : Ordering}
    (h : popOrder pending = .inl order) : order = orderAll cmp pending := by
  cases pending with
  | nil => exact (Sum.inl.inj h).symm
  | cons comparison pending =>
    cases comparison with
    | owed comparison => cases h
    | decided made =>
      cases made with
      | eq => cases h
      | lt => exact (Sum.inl.inj h).symm
      | gt => exact (Sum.inl.inj h).symm

theorem popOrder_inr {pending : List (PendingOrder α)} {next : Owing α (PendingOrder α)}
    (h : popOrder pending = .inr next) : owingOrder cmp next = orderAll cmp pending := by
  cases pending with
  | nil => cases h
  | cons comparison pending =>
    cases comparison with
    | owed comparison =>
      obtain rfl := Sum.inr.inj h
      rw [orderAll_cons, PendingOrder.order, comparison.take_order, owingOrder, owingOrder,
        orderAll_append, Ordering.then_assoc]
    | decided made =>
      cases made with
      | eq =>
        obtain rfl := Sum.inr.inj h
        rfl
      | lt => cases h
      | gt => cases h

/-- Comparisons found equal may be left out. -/
theorem orderAll_filter (comparisons : List (PendingOrder α)) :
    orderAll cmp (comparisons.filter fun comparison => !comparison.settled) =
      orderAll cmp comparisons := by
  induction comparisons with
  | nil => rfl
  | cons comparison comparisons ih =>
    cases hsettled : comparison.settled with
    | false => rw [List.filter_cons_of_pos (by simp [hsettled]), orderAll_cons, orderAll_cons, ih]
    | true =>
      rw [List.filter_cons_of_neg (by simp [hsettled]), ih, orderAll_cons]
      cases comparison with
      | owed comparison => cases hsettled
      | decided made =>
        cases made with
        | eq => rfl
        | lt => cases hsettled
        | gt => cases hsettled

end Order

section Nodes

variable (f : α → Term)

theorem Term.cmp_self (t : Term) : t.cmp t = .eq := by
  rw [Term.cmp_eq_compare]
  exact compare_eq_iff_eq.mpr rfl

theorem Term.cmpEntry_self (entry : Term × Term) : Term.cmpEntry entry entry = .eq := by
  rw [Term.cmpEntry, Term.cmp_self, Term.cmp_self]
  rfl

/-- The pairs that a walk gives, then the lengths, are the lexicographic order of the sequences. -/
theorem then_length_eq {I J : Type} {g : I → J} {compareItems : J → J → Ordering}
    (hself : ∀ x, compareItems x x = .eq) {pairs : List (I × I)} {xs ys : List I}
    (h : Skips pairs xs ys) :
    (pairs.foldr (fun pair rest => (compareItems (g pair.1) (g pair.2)).then rest) .eq).then
        (compare xs.length ys.length) =
      List.compareLex compareItems (xs.map g) (ys.map g) := by
  rw [h.firstDifference_eq (fun x y => compareItems (g x) (g y)) fun x => hself (g x), Term.Chunks.firstDifference_map, ← firstDifference_then_length, List.length_map,
    List.length_map]

/-- The order of the terms that two handles stand for. -/
def cmpBelow (left right : α) : Ordering := (f left).cmp (f right)

theorem orderPairsOf_eq (left right : List α) :
    orderAll (cmpBelow f) (orderPairsOf left right) =
      Term.cmp.cmpTerms (left.map f) (right.map f) := by
  rw [Term.cmpTerms_eq, ← then_length_eq Term.cmp_self (.zip left right), orderPairsOf,
    orderAll_append, orderAll, List.foldr_map]
  exact congrArg _ Ordering.then_eq

theorem orderPairOf_eq (left right : Option α) :
    orderAll (cmpBelow f) (orderPairOf left right) =
      Term.cmp.cmpRest (left.map f) (right.map f) := by
  cases left with
  | none => cases right <;> rfl
  | some left =>
    cases right with
    | none => rfl
    | some right => exact Ordering.then_eq

theorem elements_eq {shared : Nat → Node α S G → Node α S G → Bool}
    (hshared : ∀ clock one two, shared clock one two = true → one = two)
    {left right : Chunked α S G B} (hleft : left.len = left.items.length)
    (hright : right.len = right.items.length) :
    ((PendingEqual.elements (Chunked.alignedPairs shared left right)).order (cmpBelow f)).then
        (compare left.len right.len) =
      Term.cmp.cmpTerms (left.items.map f) (right.items.map f) := by
  rw [Term.cmpTerms_eq, ← then_length_eq Term.cmp_self (Chunked.alignedPairs_skips hshared left right),
    hleft, hright]
  rfl

theorem entries_eq {shared : Nat → Node (α × α) S G → Node (α × α) S G → Bool}
    (hshared : ∀ clock one two, shared clock one two = true → one = two)
    {left right : Chunked (α × α) S G B} (hleft : left.len = left.items.length)
    (hright : right.len = right.items.length) :
    ((PendingEqual.entries (Chunked.alignedPairs shared left right)).order (cmpBelow f)).then
        (compare left.len right.len) =
      Term.cmp.cmpEntries (left.items.map fun entry => (f entry.1, f entry.2))
        (right.items.map fun entry => (f entry.1, f entry.2)) := by
  rw [Term.cmpEntries_eq,
    ← then_length_eq Term.cmpEntry_self (Chunked.alignedPairs_skips hshared left right), hleft, hright]
  rfl

theorem orderItemsOf_eq {shared : Nat → Node α S G → Node α S G → Bool}
    (hshared : ∀ clock one two, shared clock one two = true → one = two)
    {left right : Chunked α S G B} (hleft : left.len = left.items.length)
    (hright : right.len = right.items.length) :
    orderAll (cmpBelow f) (orderItemsOf shared left right) =
      Term.cmp.cmpTerms (left.items.map f) (right.items.map f) := by
  rw [← elements_eq f hshared hleft hright, orderItemsOf, orderAll_cons, orderAll_cons,
    orderAll_nil, Ordering.then_eq]
  rfl

theorem orderMiddleOf_eq {shared : Nat → Node α S G → Node α S G → Bool}
    (hshared : ∀ clock one two, shared clock one two = true → one = two)
    {left right : Option (α × Chunked α S G B)}
    (hleft : ∀ entry ∈ left, entry.2.len = entry.2.items.length)
    (hright : ∀ entry ∈ right, entry.2.len = entry.2.items.length) :
    orderAll (cmpBelow f) (orderMiddleOf shared left right) =
      Term.cmp.cmpMiddle (left.map fun entry => (f entry.1, entry.2.items.map f))
        (right.map fun entry => (f entry.1, entry.2.items.map f)) := by
  cases left with
  | none => cases right <;> rfl
  | some entry =>
    cases right with
    | none => rfl
    | some otherEntry =>
      rw [orderMiddleOf, orderAll_cons,
        orderItemsOf_eq f hshared (hleft entry rfl) (hright otherEntry rfl)]
      rfl

/-- The comparisons of two nodes, made in order, are the derived order of the terms. -/
theorem orderNodes_eq (sharing : Sharing α S G) {left right : HandleKind α S G B}
    (hleft : left.Counted) (hright : right.Counted) :
    orderAll (cmpBelow f) (orderNodes sharing left right) =
      (left.layer.change f).term.cmp (right.layer.change f).term := by
  cases left with
  | and leftFirst leftSecond =>
    cases right with
    | and rightFirst rightSecond => exact congrArg _ Ordering.then_eq
    | _ => rfl
  | application symbol sortArguments arguments =>
    cases right with
    | application otherSymbol otherSortArguments otherArguments =>
      rw [orderNodes, orderAll_cons, orderAll_cons, orderPairsOf_eq, ← Ordering.then_assoc]
      rfl
    | _ => rfl
  | domainValue sort value =>
    cases right with
    | domainValue otherSort otherValue => exact Ordering.then_eq
    | _ => rfl
  | var v =>
    cases right with
    | var other => exact Ordering.then_eq
    | _ => rfl
  | injection source target term =>
    cases right with
    | injection otherSource otherTarget otherTerm =>
      rw [orderNodes, orderAll_cons, orderAll_cons, orderAll_cons, orderAll_nil, Ordering.then_eq,
        ← Ordering.then_assoc]
      rfl
    | _ => rfl
  | map d entries rest =>
    cases right with
    | map otherD otherEntries otherRest =>
      rw [orderNodes, orderAll_cons, orderAll_cons, orderAll_cons, orderPairOf_eq, HandleKind.layer,
        HandleKind.layer, Layer.change, Layer.change, Layer.term, Layer.term, Term.cmp,
        ← entries_eq f sharing.entries_same hleft hright, Ordering.then_assoc, Ordering.then_assoc]
      rfl
    | _ => rfl
  | list d heads rest =>
    cases right with
    | list otherD otherHeads otherRest =>
      rw [orderNodes, orderAll_cons, orderAll_append, orderItemsOf_eq f sharing.elements_same hleft.1
          hright.1, orderMiddleOf_eq f sharing.tails_same hleft.2 hright.2, ← Ordering.then_assoc]
      cases rest <;> cases otherRest <;> rfl
    | _ => rfl
  | set d elements rest =>
    cases right with
    | set otherD otherElements otherRest =>
      rw [orderNodes, orderAll_cons, orderAll_cons, orderAll_cons, orderPairOf_eq, HandleKind.layer,
        HandleKind.layer, Layer.change, Layer.change, Layer.term, Layer.term, Term.cmp,
        ← elements_eq f sharing.elements_same hleft hright, Ordering.then_assoc,
        Ordering.then_assoc]
      rfl
    | _ => rfl

end Nodes

section OrderLoop

variable [DecidableEq α] (heap : Heap α S G B)

/-- The order of two handles' terms is that of their nodes. -/
theorem Heap.orderNodes_eq (left right : α) :
    orderAll (cmpBelow heap.term)
        (orderNodes (heap.sharing left right) (heap.kind left) (heap.kind right)) =
      cmpBelow heap.term left right := by
  rw [Backend.orderNodes_eq heap.term (heap.sharing left right) (heap.counted left)
    (heap.counted right), ← heap.term_layer, ← heap.term_layer, Term.layer_term, Term.layer_term]
  rfl

/-- A turn returns what all that is owed amounts to, or keeps it. -/
theorem Heap.orderTurn_spec (owing : Owing α (PendingOrder α)) :
    (∀ answer, heap.orderTurn owing = .inl answer →
      answer = owingOrder (cmpBelow heap.term) owing) ∧
    ∀ next, heap.orderTurn owing = .inr next →
      owingOrder (cmpBelow heap.term) next = owingOrder (cmpBelow heap.term) owing := by
  -- The work list goes on with what the owed comparisons amount to.
  have hpop : ∀ pending, heap.orderTurn owing = popOrder pending →
      owingOrder (cmpBelow heap.term) owing = orderAll (cmpBelow heap.term) pending →
      (∀ answer, heap.orderTurn owing = .inl answer →
        answer = owingOrder (cmpBelow heap.term) owing) ∧
      ∀ next, heap.orderTurn owing = .inr next →
        owingOrder (cmpBelow heap.term) next = owingOrder (cmpBelow heap.term) owing := by
    intro pending hturn hsame
    rw [hturn, hsame]
    exact ⟨fun answer => popOrder_inl _, fun next => popOrder_inr _⟩
  obtain ⟨pair, pending⟩ := owing
  cases pair with
  | none => exact hpop pending rfl rfl
  | some pair =>
    obtain ⟨left, right⟩ := pair
    by_cases hone : left = right
    · subst hone
      refine hpop pending (by simp [orderTurn]) ?_
      rw [owingOrder, Option.elim_some, cmpBelow, Term.cmp_self, Ordering.eq_then]
    generalize hfound : (orderNodes (heap.sharing left right) (heap.kind left)
      (heap.kind right)).filter (fun comparison => !comparison.settled) = found
    have hvalue : owingOrder (cmpBelow heap.term) (some (left, right), pending) =
        orderAll (cmpBelow heap.term) (found ++ pending) := by
      rw [orderAll_append, ← hfound, orderAll_filter, heap.orderNodes_eq]
      rfl
    cases found with
    | nil => exact hpop pending (by simp [orderTurn, hone, hfound]) hvalue
    | cons first comparisons =>
      cases first with
      | decided order =>
        have hunequal : PendingOrder.settled (.decided order : PendingOrder α) = false := by
          have hmem : PendingOrder.decided order ∈ (orderNodes (heap.sharing left right)
              (heap.kind left) (heap.kind right)).filter
                (fun comparison => !comparison.settled) := by
            rw [hfound]
            exact List.mem_cons_self
          simpa using (List.mem_filter.mp hmem).2
        have hturn : heap.orderTurn (some (left, right), pending) = .inl order := by
          simp [orderTurn, hone, hfound]
        rw [hturn, hvalue, List.cons_append, orderAll_cons]
        refine ⟨fun answer hanswer => ?_, fun next hnext => by cases hnext⟩
        obtain rfl := Sum.inl.inj hanswer
        cases order with
        | eq => cases hunequal
        | lt => rfl
        | gt => rfl
      | owed pending' =>
        cases pending' with
        | terms first second =>
          have hturn : heap.orderTurn (some (left, right), pending) =
              .inr (some (first, second), comparisons ++ pending) := by
            simp [orderTurn, hone, hfound]
          rw [hturn, hvalue]
          refine ⟨fun answer hanswer => (by cases hanswer), fun next hnext => ?_⟩
          obtain rfl := Sum.inr.inj hnext
          rfl
        | entries items =>
          exact hpop (.owed (.entries items) :: (comparisons ++ pending))
            (by simp [orderTurn, hone, hfound]) hvalue
        | elements items =>
          exact hpop (.owed (.elements items) :: (comparisons ++ pending))
            (by simp [orderTurn, hone, hfound]) hvalue

/-- The order on the work list is the derived order. -/
theorem Heap.orderTermsOnWorkList_eq (left right : α) :
    heap.orderTermsOnWorkList left right = (heap.term left).cmp (heap.term right) := by
  have hrun : heap.orderLoop.run (some (left, right), []) =
      owingOrder (cmpBelow heap.term) (some (left, right), []) :=
    heap.orderLoop.run_spec
      (Q := fun owing order => order = owingOrder (cmpBelow heap.term) owing)
      (fun owing => (heap.orderTurn_spec owing).1)
      (fun owing next answer hturn ih => ih.trans ((heap.orderTurn_spec owing).2 next hturn)) _
  rw [orderTermsOnWorkList, hrun]
  exact Ordering.then_eq

end OrderLoop

section Bounded

variable [DecidableEq α] (heap : Heap α S G B)

theorem pushWithin_eq {work : Nat} {children pending pushed : List (PendingEqual α)}
    (h : pushWithin work pending children = some pushed) : pushed = children.reverse ++ pending := by
  induction children generalizing pending with
  | nil => exact (Option.some.inj h).symm
  | cons child children ih =>
    rw [pushWithin] at h
    split at h
    · cases h
    · rw [ih h, List.reverse_cons, List.append_assoc]
      rfl

/-- The pairs of a comparison that is owed. -/
def PendingEqual.pairs : PendingEqual α → List (α × α)
  | .terms left right => [(left, right)]
  | .entries pairs => pairs.flatMap fun pair => [(pair.1.1, pair.2.1), (pair.1.2, pair.2.2)]
  | .elements pairs => pairs

theorem PendingEqual.holds_iff (same : α → α → Prop) (comparison : PendingEqual α) :
    comparison.Holds same ↔ ∀ pair ∈ comparison.pairs, same pair.1 pair.2 := by
  cases comparison with
  | terms left right => simp [pairs]
  | entries items =>
    rw [holds_entries, pairs]
    constructor
    · intro h pair hpair
      obtain ⟨item, hitem, hmem⟩ := List.mem_flatMap.mp hpair
      simp only [List.mem_cons, List.not_mem_nil, or_false] at hmem
      rcases hmem with rfl | rfl
      · exact (h item hitem).1
      · exact (h item hitem).2
    · intro h item hitem
      exact ⟨h _ (List.mem_flatMap_of_mem hitem List.mem_cons_self),
        h _ (List.mem_flatMap_of_mem hitem (List.mem_cons_of_mem _ List.mem_cons_self))⟩
  | elements items => rfl

theorem PendingEqual.pair_weight (size : α → Nat) {comparison : PendingEqual α} {pair : α × α}
    (h : pair ∈ comparison.pairs) : size pair.1 < comparison.weight size := by
  cases comparison with
  | terms left right =>
    obtain rfl := List.mem_singleton.mp h
    exact Nat.lt_add_of_pos_right (by decide)
  | entries items =>
    obtain ⟨item, hitem, hpair⟩ := List.mem_flatMap.mp h
    have hle := List.le_sum_of_mem (List.mem_map_of_mem (f := fun item : (α × α) × (α × α) =>
      size item.1.1 + size item.1.2 + 4) hitem)
    rw [weight]
    simp only [List.mem_cons, List.not_mem_nil, or_false] at hpair
    rcases hpair with rfl | rfl
    · dsimp only at hle ⊢
      omega
    · dsimp only at hle ⊢
      omega
  | elements items =>
    have hle := List.le_sum_of_mem (List.mem_map_of_mem (f := fun item : α × α => size item.1 + 2) h)
    rw [pairs] at hle
    rw [weight]
    omega

/-- The pairs of children of a node are of smaller terms. -/
theorem Heap.size_lt_of_owed {left right : α} {owed : List (PendingEqual α)}
    (h : equalNodes (heap.sharing left right) (heap.kind left) (heap.kind right) = some owed)
    {pair : α × α} (hpair : pair ∈ owed.flatMap PendingEqual.pairs) :
    heap.size pair.1 < heap.size left := by
  obtain ⟨comparison, hcomparison, hmem⟩ := List.mem_flatMap.mp hpair
  have hweight := PendingEqual.pair_weight heap.size hmem
  have hsum := List.le_sum_of_mem (List.mem_map_of_mem (f := PendingEqual.weight heap.size)
    hcomparison)
  have howed := equalNodes_weight heap.size h
  have hparts := heap.partsWeight_le left
  omega

/-- A pair that was seen, one that waits, or one of a single node. -/
def Covered (pending : List (PendingEqual α)) (seen : List (α × α)) (pair : α × α) : Prop :=
  pair.1 = pair.2 ∨ pair ∈ seen ∨ pair ∈ pending.flatMap PendingEqual.pairs

/-- The children of the pairs that were seen were seen or wait. -/
def Heap.Closed (heap : Heap α S G B) (pending : List (PendingEqual α)) (seen : List (α × α)) :
    Prop :=
  ∀ pair ∈ seen, ∃ owed,
    equalNodes (heap.sharing pair.1 pair.2) (heap.kind pair.1) (heap.kind pair.2) = some owed ∧
      ∀ child ∈ owed.flatMap PendingEqual.pairs, Covered pending seen child

/-- Pairs that were seen with all their children are of equal terms. -/
theorem Heap.Closed.term_eq {heap : Heap α S G B} {seen : List (α × α)}
    (h : heap.Closed [] seen) {pair : α × α} (hpair : Covered [] seen pair) :
    heap.term pair.1 = heap.term pair.2 := by
  induction hn : heap.size pair.1 using Nat.strong_induction_on generalizing pair with
  | _ n ih =>
    subst hn
    rcases hpair with hone | hseen | hnone
    · rw [hone]
    · obtain ⟨owed, howed, hchildren⟩ := h pair hseen
      refine (heap.term_eq_iff pair.1 pair.2).mpr ⟨owed, howed, fun comparison hcomparison => ?_⟩
      rw [PendingEqual.holds_iff]
      intro child hchild
      have hmem := List.mem_flatMap_of_mem hcomparison hchild
      exact ih _ (heap.size_lt_of_owed howed hmem) (hchildren child hmem) rfl
    · cases hnone

/-- All pairs that wait are of equal terms. -/
def Heap.AllEqual (pending : List (PendingEqual α)) : Prop :=
  ∀ pair ∈ pending.flatMap PendingEqual.pairs, heap.term pair.1 = heap.term pair.2

theorem Heap.AllEqual.tail {heap : Heap α S G B} {comparison : PendingEqual α}
    {pending : List (PendingEqual α)} (h : heap.AllEqual (comparison :: pending)) :
    heap.AllEqual pending := by
  intro pair hpair
  refine h pair ?_
  rw [List.flatMap_cons]
  exact List.mem_append_right _ hpair

/-- What waits covers what waited before, and what is seen what was seen. -/
theorem Heap.Closed.mono {heap : Heap α S G B} {pending pending' : List (PendingEqual α)}
    {seen : List (α × α)} (h : heap.Closed pending seen)
    (hcovered : ∀ pair, Covered pending seen pair → Covered pending' seen pair) :
    heap.Closed pending' seen := by
  intro pair hpair
  obtain ⟨owed, howed, hchildren⟩ := h pair hpair
  exact ⟨owed, howed, fun child hchild => hcovered child (hchildren child hchild)⟩

/-- Unequal terms wait where the loop finds a difference. -/
theorem Heap.equalBounded_false {work : Nat} {pending : List (PendingEqual α)}
    {seen : List (α × α)} (h : (heap.equalBounded work pending seen).1 = some false) :
    ¬ heap.AllEqual pending := by
  fun_induction heap.equalBounded work pending seen with
  | case1 | case2 | case7 => cases h
  | case3 work node pending seen ih => exact fun hall => ih h hall.tail
  | case4 work left right pending seen hne hhash =>
    intro hall
    exact hhash (heap.hash_eq left right (hall (left, right) (by simp [PendingEqual.pairs])))
  | case5 work left right pending seen hne hhash hseen ih => exact fun hall => ih h hall.tail
  | case6 work left right pending seen hne hhash hseen hnodes =>
    intro hall
    obtain ⟨owed, howed, _⟩ := (heap.term_eq_iff left right).mp
      (hall (left, right) (by simp [PendingEqual.pairs]))
    rw [hnodes] at howed
    cases howed
  | case8 work left right pending seen hne hhash hseen owed hnodes pushed hpush ih =>
    intro hall
    refine ih h fun pair hpair => ?_
    rw [pushWithin_eq hpush, List.flatMap_append, List.mem_append] at hpair
    rcases hpair with hchild | hpending
    · obtain ⟨found, hfound, hchildren⟩ := (heap.term_eq_iff left right).mp
        (hall (left, right) (by simp [PendingEqual.pairs]))
      rw [hnodes] at hfound
      obtain rfl := Option.some.inj hfound
      obtain ⟨comparison, hcomparison, hmem⟩ := List.mem_flatMap.mp hchild
      exact ((PendingEqual.holds_iff _ comparison).mp
        (hchildren comparison (List.mem_reverse.mp hcomparison))) pair hmem
    · exact hall.tail pair hpending
  | case9 work pending seen ih => exact fun hall => ih h hall.tail
  | case10 work key value otherKey otherValue entries pending seen ih =>
    exact fun hall => ih h (by simpa [AllEqual, PendingEqual.pairs, or_assoc] using hall)
  | case11 work pending seen ih => exact fun hall => ih h hall.tail
  | case12 work element otherElement elements pending seen ih =>
    exact fun hall => ih h (by simpa [AllEqual, PendingEqual.pairs] using hall)

/-- All pairs that wait or were seen are of equal terms where the loop finds no difference. -/
theorem Heap.equalBounded_true {work : Nat} {pending : List (PendingEqual α)}
    {seen : List (α × α)} (h : (heap.equalBounded work pending seen).1 = some true)
    (hclosed : heap.Closed pending seen) {pair : α × α} (hpair : Covered pending seen pair) :
    heap.term pair.1 = heap.term pair.2 := by
  fun_induction heap.equalBounded work pending seen with
  | case2 | case4 | case6 | case7 => cases h
  | case1 work seen => exact hclosed.term_eq hpair
  | case3 work node pending seen ih =>
    have hcovered : ∀ pair, Covered (.terms node node :: pending) seen pair →
        Covered pending seen pair := by
      rintro pair (hone | hseen | hwaits)
      · exact Or.inl hone
      · exact Or.inr (Or.inl hseen)
      · rw [List.flatMap_cons, PendingEqual.pairs, List.singleton_append, List.mem_cons] at hwaits
        rcases hwaits with rfl | hwaits
        · exact Or.inl rfl
        · exact Or.inr (Or.inr hwaits)
    exact ih h (hclosed.mono hcovered) (hcovered pair hpair)
  | case5 work left right pending seen hne hhash hseen ih =>
    have hcovered : ∀ pair, Covered (.terms left right :: pending) seen pair →
        Covered pending seen pair := by
      rintro pair (hone | hseen | hwaits)
      · exact Or.inl hone
      · exact Or.inr (Or.inl hseen)
      · rw [List.flatMap_cons, PendingEqual.pairs, List.singleton_append, List.mem_cons] at hwaits
        rcases hwaits with rfl | hwaits
        · exact Or.inr (Or.inl hseen)
        · exact Or.inr (Or.inr hwaits)
    exact ih h (hclosed.mono hcovered) (hcovered pair hpair)
  | case8 work left right pending seen hne hhash hseen owed hnodes pushed hpush ih =>
    have hpushed := pushWithin_eq hpush
    have hcovered : ∀ pair, Covered (.terms left right :: pending) seen pair →
        Covered pushed ((left, right) :: seen) pair := by
      rintro pair (hone | hseen | hwaits)
      · exact Or.inl hone
      · exact Or.inr (Or.inl (List.mem_cons_of_mem _ hseen))
      · rw [List.flatMap_cons, PendingEqual.pairs, List.singleton_append, List.mem_cons] at hwaits
        rcases hwaits with rfl | hwaits
        · exact Or.inr (Or.inl List.mem_cons_self)
        · refine Or.inr (Or.inr ?_)
          rw [hpushed, List.flatMap_append]
          exact List.mem_append_right _ hwaits
    refine ih h (fun seenPair hseenPair => ?_) (hcovered pair hpair)
    rcases List.mem_cons.mp hseenPair with rfl | hbefore
    · refine ⟨owed, hnodes, fun child hchild => Or.inr (Or.inr ?_)⟩
      rw [hpushed, List.flatMap_append]
      obtain ⟨comparison, hcomparison, hmem⟩ := List.mem_flatMap.mp hchild
      exact List.mem_append_left _
        (List.mem_flatMap_of_mem (List.mem_reverse.mpr hcomparison) hmem)
    · obtain ⟨children, hchildren, hall⟩ := hclosed seenPair hbefore
      exact ⟨children, hchildren, fun child hchild => hcovered child (hall child hchild)⟩
  | case9 work pending seen ih => exact ih h hclosed hpair
  | case10 work key value otherKey otherValue entries pending seen ih => exact ih h hclosed hpair
  | case11 work pending seen ih => exact ih h hclosed hpair
  | case12 work element otherElement elements pending seen ih => exact ih h hclosed hpair

/-- An answer within the work allowed is the answer of structural equality. -/
theorem Heap.equalTermsBounded_eq {left right : α} {work : Nat} {answer : Bool}
    (h : (heap.equalTermsBounded left right work).1 = some answer) :
    answer = decide (heap.term left = heap.term right) := by
  cases answer with
  | false =>
    have hdiffer := heap.equalBounded_false h
    refine (decide_eq_false fun heq => hdiffer ?_).symm
    simpa [AllEqual, PendingEqual.pairs] using heq
  | true =>
    have hcovered : Covered [.terms left right] [] (left, right) :=
      Or.inr (Or.inr (by simp [PendingEqual.pairs]))
    have heq := heap.equalBounded_true h (fun pair hpair => by cases hpair) hcovered
    exact (decide_eq_true heq).symm

end Bounded

section Claims

variable [DecidableEq α] (heap : Heap α S G B)

/-- Two variables and their injections, each allocated once. -/
def injectedVariables : Heap (Bool × Bool) Unit Unit ⟨5, by decide⟩ where
  kind handle :=
    if handle.1 then
      .injection (Term.simpleSort "SortInt") (Term.simpleSort "SortKItem") (false, handle.2)
    else .var ⟨.element, Term.simpleSort "SortInt", if handle.2 then "VarY" else "VarX"⟩
  hash _ := 0
  sharing _ _ :=
    ⟨fun _ _ _ => false, fun _ _ _ => false, fun _ _ _ => false, nofun, nofun, nofun⟩
  term handle :=
    let v : Term := .var ⟨.element, Term.simpleSort "SortInt", if handle.2 then "VarY" else "VarX"⟩
    if handle.1 then .injection (Term.simpleSort "SortInt") (Term.simpleSort "SortKItem") v else v
  term_layer := by rintro ⟨_ | _, _⟩ <;> rfl
  counted := by rintro ⟨_ | _, _⟩ <;> trivial
  hash_eq _ _ _ := rfl

end Claims

end KRust.Backend
