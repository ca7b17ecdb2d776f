import KRust.Backend.ExplorationMerge
import Mathlib.Algebra.Order.Group.Multiset
import Mathlib.Data.Multiset.Filter

/-!
The merge table answers what a scan over the recorded states would: whatever was hashed so far,
its buckets and its unhashed states together hold the states recorded and not evicted.
-/

namespace KRust.Backend.ExplorationMerge

open Lib

variable {P E F I D M : Type} {names : Comparison P E F I D}

section Absorbing

variable [DecidableEq P] [DecidableEq E] [DecidableEq F]

/-- The relation between an arriving state and a recorded one that absorbs it. -/
def absorbed (names : Comparison P E F I D) (arrival recorded : State P E I D M) : Bool :=
  (recorded.ioEnabled == arrival.ioEnabled
      && decide (names.fingerprint recorded.effects = names.fingerprint arrival.effects)
      && names.isSubsetIgnoringFacts arrival.diagnostics recorded.diagnostics)
    && (decide (names.stateKey recorded.pattern = names.stateKey arrival.pattern)
      && decide (recorded.effects = arrival.effects)
      && names.observedAlike recorded.io arrival.io)

omit [DecidableEq P] [DecidableEq E] [DecidableEq F] in
theorem shapeHash_eq (arrival : Arrival names M) :
    arrival.shapeHash = names.shapeHash arrival.state.pattern := by
  rw [Arrival.shapeHash]
  cases hshape : arrival.shape with
  | none => rfl
  | some hash => exact arrival.shape_eq hash hshape

omit [DecidableEq P] [DecidableEq E] [DecidableEq F] in
theorem stateKey_eq (arrival : Arrival names M) :
    arrival.stateKey = names.stateKey arrival.state.pattern := by
  rw [Arrival.stateKey]
  cases hkey : arrival.key with
  | none => rfl
  | some key => exact arrival.key_eq key hkey

theorem absorbedBy_spec (arrival recorded : Arrival names M) :
    (arrival.absorbedBy recorded).1 = absorbed names arrival.state recorded.state ∧
      (arrival.absorbedBy recorded).2.1.state = arrival.state ∧
      (arrival.absorbedBy recorded).2.2.state = recorded.state := by
  unfold Arrival.absorbedBy
  split
  · rename_i h
    rw [absorbed, h, stateKey_eq, stateKey_eq]
    exact ⟨rfl, rfl, rfl⟩
  · rename_i h
    rw [absorbed, Bool.eq_false_iff.mpr h]
    exact ⟨rfl, rfl, rfl⟩

/-- The first of the states that absorbs an arrival gives its mark; no state changes. -/
theorem find_spec (arrival : Arrival names M) (recorded : List (Arrival names M)) :
    (arrival.find recorded).1 =
        ((recorded.map Arrival.state).find? (absorbed names arrival.state)).map State.mark ∧
      (arrival.find recorded).2.1.state = arrival.state ∧
      (arrival.find recorded).2.2.map Arrival.state = recorded.map Arrival.state := by
  induction recorded generalizing arrival with
  | nil => exact ⟨rfl, rfl, rfl⟩
  | cons first rest ih =>
    obtain ⟨hanswer, harrival, hfirst⟩ := absorbedBy_spec arrival first
    rw [Arrival.find, List.map_cons, List.find?_cons]
    generalize arrival.absorbedBy first = compared at *
    obtain ⟨answer, arrival', first'⟩ := compared
    dsimp only at hanswer harrival hfirst ⊢
    rw [hanswer]
    cases hcase : absorbed names arrival.state first.state with
    | true => simp [harrival, hfirst]
    | false =>
      obtain ⟨hmark, hsame, hrest⟩ := ih arrival'
      rw [harrival] at hmark hsame
      simp [hmark, hsame, hrest, hfirst]

end Absorbing

section Holding

/-- The states of one depth, hashed or not. -/
def Depth.states (depth : Depth names M) : Multiset (State P E I D M) :=
  (depth.unhashed.map Arrival.state : Multiset _) +
    depth.byShape.total fun _ recorded => (recorded.map Arrival.state : Multiset _)

/-- The states of all depths. -/
def Table.states (table : Table names M) : Multiset (State P E I D M) :=
  table.depths.total fun _ depth => depth.states

theorem card_total {V α : Type} (m : SortedMap Nat V) (amount : Nat → V → Multiset α) :
    (m.total amount).card = m.total fun k v => (amount k v).card := by
  rw [SortedMap.total, SortedMap.total]
  induction m.entries with
  | nil => rfl
  | cons entry entries ih => simp [ih]

theorem mem_total {V α : Type} {m : SortedMap Nat V} {amount : Nat → V → Multiset α} {a : α} :
    a ∈ m.total amount ↔ ∃ k v, m.get k = some v ∧ a ∈ amount k v := by
  have hsum : ∀ bags : List (Multiset α), a ∈ bags.sum ↔ ∃ bag ∈ bags, a ∈ bag := by
    intro bags
    induction bags with
    | nil => simp
    | cons bag bags ih => rw [List.sum_cons, Multiset.mem_add, ih, List.exists_mem_cons_iff]
  rw [SortedMap.total, hsum]
  simp only [List.mem_map, SortedMap.get_eq_some]
  constructor
  · rintro ⟨bag, ⟨entry, hentry, rfl⟩, ha⟩
    exact ⟨entry.1, entry.2, hentry, ha⟩
  · rintro ⟨k, v, hentry, ha⟩
    exact ⟨_, ⟨(k, v), hentry, rfl⟩, ha⟩

theorem Depth.len_eq (depth : Depth names M) : depth.len = depth.states.card := by
  simp [Depth.len, Depth.states, card_total]

theorem file_states (byShape : SortedMap Nat (List (Arrival names M)))
    (recorded : Arrival names M) :
    ((Depth.file byShape recorded).total fun _ states =>
        (states.map Arrival.state : Multiset (State P E I D M))) =
      (byShape.total fun _ states => (states.map Arrival.state : Multiset _)) +
        {recorded.state} := by
  have htotal := byShape.total_alter recorded.shapeHash
    (fun states => states.getD [] ++ [recorded])
    fun _ states => (states.map Arrival.state : Multiset (State P E I D M))
  rw [Depth.file]
  cases hget : byShape.get recorded.shapeHash with
  | none =>
    rw [hget] at htotal
    simpa using htotal
  | some states =>
    rw [hget] at htotal
    simp only [Option.map_some, Option.getD_some, List.map_append, ← Multiset.coe_add] at htotal
    rw [← add_assoc, add_right_comm] at htotal
    exact add_right_cancel htotal

theorem drain_states (depth : Depth names M) : depth.drain.states = depth.states := by
  obtain ⟨unhashed, byShape⟩ := depth
  simp only [Depth.drain, Depth.states]
  induction unhashed generalizing byShape with
  | nil => rfl
  | cons first rest ih =>
    rw [List.foldl_cons, ih, file_states]
    simp only [List.map_cons, ← Multiset.cons_coe, ← Multiset.singleton_add]
    rw [← add_assoc, add_comm, ← add_assoc]

theorem push_states (depth : Depth names M) (arrival : Arrival names M) :
    (depth.push arrival).states = depth.states + {arrival.state} := by
  unfold Depth.push
  split
  · simp only [Depth.states]
    rw [file_states, add_assoc]
  · simp only [Depth.states, List.map_append, ← Multiset.coe_add]
    exact add_right_comm _ _ _

theorem record_states (table : Table names M) (arrival : Arrival names M) :
    (table.record arrival).states = table.states + {arrival.state} := by
  have htotal := table.depths.total_alter arrival.state.depth
    (fun depth => (depth.getD Depth.default).push arrival) fun _ depth => depth.states
  rw [Table.states, Table.record, Table.states]
  cases hget : table.depths.get arrival.state.depth with
  | none =>
    rw [hget, Option.getD_none, push_states] at htotal
    simpa [Depth.states, Depth.default] using htotal
  | some depth =>
    rw [hget, Option.getD_some, push_states] at htotal
    simp only [Option.map_some, Option.getD_some] at htotal
    rw [← add_assoc, add_right_comm] at htotal
    exact add_right_cancel htotal

/-- A depth with the same states takes the place of one. -/
theorem insert_states (table : Table names M) {d : Nat} {depth depth' : Depth names M}
    (hget : table.depths.get d = some depth) (hsame : depth'.states = depth.states) :
    ((table.depths.insert d depth').total fun _ depth => depth.states) = table.states := by
  have htotal := table.depths.total_alter d (fun _ => depth') fun _ depth => depth.states
  rw [hget, hsame] at htotal
  exact add_right_cancel htotal

end Holding

section Placing

/-- The states of a depth have that depth, and those of a bucket have its hash. -/
structure Depth.Placed (d : Nat) (depth : Depth names M) : Prop where
  unhashed : ∀ recorded ∈ depth.unhashed, recorded.state.depth = d
  byShape : ∀ hash states, depth.byShape.get hash = some states → ∀ recorded ∈ states,
    recorded.state.depth = d ∧ names.shapeHash recorded.state.pattern = hash

theorem file_placed {byShape : SortedMap Nat (List (Arrival names M))} {d : Nat}
    (h : ∀ hash states, byShape.get hash = some states → ∀ recorded ∈ states,
      recorded.state.depth = d ∧ names.shapeHash recorded.state.pattern = hash)
    {filed : Arrival names M} (hfiled : filed.state.depth = d) (hash : Nat)
    (states : List (Arrival names M)) (hget : (Depth.file byShape filed).get hash = some states) :
    ∀ recorded ∈ states,
      recorded.state.depth = d ∧ names.shapeHash recorded.state.pattern = hash := by
  rw [Depth.file, SortedMap.get_alter] at hget
  split at hget
  · rename_i hhash
    cases hget
    intro recorded hmem
    rcases List.mem_append.mp hmem with hold | hnew
    · cases hbucket : byShape.get hash with
      | none =>
        rw [← hhash, hbucket] at hold
        cases hold
      | some bucket =>
        rw [← hhash, hbucket] at hold
        exact h hash bucket hbucket recorded hold
    · rw [List.mem_singleton.mp hnew, hhash, shapeHash_eq]
      exact ⟨hfiled, rfl⟩
  · exact h hash states hget

theorem Depth.Placed.drain {d : Nat} {depth : Depth names M} (h : depth.Placed d) :
    depth.drain.Placed d := by
  obtain ⟨unhashed, byShape⟩ := depth
  obtain ⟨hunhashed, hbyShape⟩ := h
  refine ⟨nofun, ?_⟩
  simp only [Depth.drain]
  induction unhashed generalizing byShape with
  | nil => exact hbyShape
  | cons first rest ih =>
    obtain ⟨hfirst, hrest⟩ := List.forall_mem_cons.mp hunhashed
    exact ih _ hrest (file_placed hbyShape hfirst)

theorem Depth.Placed.push {d : Nat} {depth : Depth names M} (h : depth.Placed d)
    {arrival : Arrival names M} (harrival : arrival.state.depth = d) :
    (depth.push arrival).Placed d := by
  unfold Depth.push
  split
  · exact ⟨h.unhashed, file_placed h.byShape harrival⟩
  · refine ⟨fun recorded hmem => ?_, h.byShape⟩
    rcases List.mem_append.mp hmem with hold | hnew
    · exact h.unhashed recorded hold
    · rw [List.mem_singleton.mp hnew]
      exact harrival

/-- The states of a depth are those whose depth it is. -/
theorem Depth.Placed.depth_eq {d : Nat} {depth : Depth names M} (h : depth.Placed d)
    {state : State P E I D M} (hmem : state ∈ depth.states) : state.depth = d := by
  rcases Multiset.mem_add.mp hmem with hunhashed | hbucket
  · obtain ⟨recorded, hrecorded, rfl⟩ := List.mem_map.mp hunhashed
    exact h.unhashed recorded hrecorded
  · obtain ⟨hash, states, hget, hstate⟩ := mem_total.mp hbucket
    obtain ⟨recorded, hrecorded, rfl⟩ := List.mem_map.mp hstate
    exact (h.byShape hash states hget recorded hrecorded).1

/-- A table that holds the states of a list, each in its place, and counts them. -/
structure Table.Holds (table : Table names M) (held : List (State P E I D M)) : Prop where
  placed : ∀ d depth, table.depths.get d = some depth → depth.Placed d
  states_eq : table.states = held
  len_eq : table.len = held.length

theorem default_holds : (Table.default : Table names M).Holds [] :=
  ⟨by rintro _ _ ⟨⟩, rfl, rfl⟩

theorem Table.Holds.record {table : Table names M} {held : List (State P E I D M)}
    (h : table.Holds held) (arrival : Arrival names M) :
    (table.record arrival).Holds (held ++ [arrival.state]) where
  placed d depth hget := by
    rw [Table.record, SortedMap.get_alter] at hget
    split at hget
    · rename_i hd
      cases hget
      apply Depth.Placed.push _ hd.symm
      cases hdepth : table.depths.get arrival.state.depth with
      | none => exact ⟨nofun, nofun⟩
      | some depth => exact h.placed d depth (by rw [hd, hdepth])
    · exact h.placed d depth hget
  states_eq := by
    rw [record_states, h.states_eq]
    rfl
  len_eq := by
    rw [Table.record, List.length_append, List.length_singleton, h.len_eq]

/-- Eviction forgets the states of lower depths, and takes as many off the count. -/
theorem Table.Holds.evictBelow {table : Table names M} {held : List (State P E I D M)}
    (h : table.Holds held) (depth : Nat) :
    (table.evictBelow depth).Holds (held.filter fun state => decide (depth ≤ state.depth)) := by
  have hsplit := table.depths.total_retain (fun recorded => decide (depth ≤ recorded))
    fun _ depth => depth.states
  have hdepth : ∀ {keep : Nat → Bool}, ∀ state ∈ (table.depths.retain keep).total
      (fun _ depth => depth.states), keep state.depth = true := by
    intro keep state hmem
    obtain ⟨d, at_, hget, hstate⟩ := mem_total.mp hmem
    rw [SortedMap.get_retain] at hget
    split at hget
    · rename_i hkeep
      rw [(h.placed d at_ hget).depth_eq hstate]
      exact hkeep
    · cases hget
  have hstates : (table.evictBelow depth).states =
      (held.filter fun state => decide (depth ≤ state.depth) : Multiset _) := by
    have hheld := hsplit.trans h.states_eq
    have hfilter := congrArg (Multiset.filter fun state => depth ≤ state.depth) hheld
    rw [Multiset.filter_add, Multiset.filter_eq_self.mpr fun state hmem => by
      simpa using hdepth state hmem, Multiset.filter_eq_nil.mpr fun state hmem => by
      simpa using hdepth state hmem, add_zero] at hfilter
    exact hfilter
  refine ⟨fun d at_ hget => ?_, hstates, ?_⟩
  · rw [Table.evictBelow, SortedMap.get_retain] at hget
    split at hget
    · exact h.placed d at_ hget
    · cases hget
  · have hcards := congrArg Multiset.card (hsplit.trans h.states_eq)
    have hkept := congrArg Multiset.card hstates
    rw [Multiset.card_add, Multiset.coe_card, card_total (table.depths.retain fun recorded =>
      !decide (depth ≤ recorded))] at hcards
    rw [Multiset.coe_card] at hkept
    have hevicted : (table.depths.retain fun recorded => !decide (depth ≤ recorded)).total
        (fun _ depth => depth.states.card) =
        (table.depths.retain fun recorded => !decide (depth ≤ recorded)).total
          fun _ depth => depth.len := by
      simp only [Depth.len_eq]
    rw [hevicted] at hcards
    rw [Table.evictBelow, h.len_eq, ← hkept]
    simp only [Table.states, Table.evictBelow]
    omega

theorem Table.Holds.replace {table : Table names M} {held : List (State P E I D M)}
    (h : table.Holds held) {d : Nat} {depth depth' : Depth names M}
    (hget : table.depths.get d = some depth) (hplaced : depth'.Placed d)
    (hsame : depth'.states = depth.states) :
    Table.Holds { table with depths := table.depths.insert d depth' } held where
  placed other found hfound := by
    rw [SortedMap.get_insert] at hfound
    split at hfound
    · rename_i heq
      cases hfound
      rw [heq]
      exact hplaced
    · exact h.placed other found hfound
  states_eq := (insert_states table hget hsame).trans h.states_eq
  len_eq := h.len_eq

/-- A bucket whose states learned their keys takes the place of the one it was. -/
theorem Depth.Placed.refile {d : Nat} {depth : Depth names M} (h : depth.Placed d) {hash : Nat}
    {states states' : List (Arrival names M)} (hget : depth.byShape.get hash = some states)
    (hsame : states'.map Arrival.state = states.map Arrival.state) :
    Depth.Placed d { depth with byShape := depth.byShape.insert hash states' } ∧
      Depth.states { depth with byShape := depth.byShape.insert hash states' } = depth.states := by
  refine ⟨⟨h.unhashed, fun found bucket hbucket recorded hrecorded => ?_⟩, ?_⟩
  · rw [SortedMap.get_insert] at hbucket
    split at hbucket
    · rename_i heq
      cases hbucket
      obtain ⟨before, hbefore, hstate⟩ :=
        List.mem_map.mp (hsame ▸ List.mem_map_of_mem (f := Arrival.state) hrecorded)
      rw [← hstate, heq]
      exact h.byShape hash states hget before hbefore
    · exact h.byShape found bucket hbucket recorded hrecorded
  · have htotal := depth.byShape.total_alter hash (fun _ => states')
      fun _ states => (states.map Arrival.state : Multiset (State P E I D M))
    rw [hget, hsame] at htotal
    have hbuckets := add_right_cancel htotal
    simp only [Depth.states, SortedMap.insert]
    rw [hbuckets]

variable [DecidableEq P] [DecidableEq E] [DecidableEq F]

/-- The states that could absorb an arrival share its hash. -/
def ShapeNecessary (names : Comparison P E F I D) (M : Type) : Prop :=
  ∀ arrival recorded : State P E I D M, absorbed names arrival recorded = true →
    names.shapeHash recorded.pattern = names.shapeHash arrival.pattern

omit [DecidableEq P] [DecidableEq E] [DecidableEq F] in
/-- After every state of a depth is hashed, those of one hash are in its bucket. -/
theorem Depth.Placed.mem_bucket {d : Nat} {depth : Depth names M} (h : depth.Placed d)
    (hdrained : depth.unhashed = []) {state : State P E I D M} :
    state ∈ depth.states ↔ ∃ states,
      depth.byShape.get (names.shapeHash state.pattern) = some states ∧
        state ∈ states.map Arrival.state := by
  rw [Depth.states, hdrained, List.map_nil, Multiset.coe_nil, zero_add, mem_total]
  constructor
  · rintro ⟨hash, states, hget, hmem⟩
    obtain ⟨recorded, hrecorded, rfl⟩ := List.mem_map.mp hmem
    rw [(h.byShape hash states hget recorded hrecorded).2]
    exact ⟨states, hget, hmem⟩
  · rintro ⟨states, hget, hmem⟩
    exact ⟨_, states, hget, hmem⟩

/-- What a look-up says: a mark of a state that absorbs the arrival, or that none does. -/
def Answers (names : Comparison P E F I D) (held : List (State P E I D M))
    (arrival : State P E I D M) (answer : Option M) : Prop :=
  (∀ mark, answer = some mark → ∃ recorded ∈ held, recorded.depth = arrival.depth ∧
      absorbed names arrival recorded = true ∧ recorded.mark = mark) ∧
    (answer = none → ∀ recorded ∈ held, recorded.depth = arrival.depth →
      absorbed names arrival recorded = false)

/-- A look-up keeps what the table holds, and answers as a scan does. -/
theorem Table.Holds.absorbs {table : Table names M} {held : List (State P E I D M)}
    (h : table.Holds held) (hshape : ShapeNecessary names M) (arrival : Arrival names M) :
    (table.absorbs arrival).2.1.Holds held ∧
      (table.absorbs arrival).2.2.state = arrival.state ∧
      Answers names held arrival.state (table.absorbs arrival).1 := by
  have hmem : ∀ state, state ∈ held ↔ ∃ d depth, table.depths.get d = some depth ∧
      state ∈ depth.states := by
    intro state
    rw [← Multiset.mem_coe, ← h.states_eq, Table.states, mem_total]
  cases hget : table.depths.get arrival.state.depth with
  | none =>
    simp only [Table.absorbs, hget]
    refine ⟨h, trivial, nofun, fun _ recorded hrecorded hdepth => ?_⟩
    obtain ⟨d, depth, hd, hstate⟩ := (hmem recorded).mp hrecorded
    rw [← (h.placed d depth hd).depth_eq hstate, hdepth, hget] at hd
    cases hd
  | some depth =>
    have hplaced := (h.placed _ depth hget).drain
    have hbucket : ∀ state, state ∈ held ∧ state.depth = arrival.state.depth ↔ ∃ states,
        depth.drain.byShape.get (names.shapeHash state.pattern) = some states ∧
          state ∈ states.map Arrival.state := by
      intro state
      rw [← hplaced.mem_bucket rfl, drain_states, hmem]
      constructor
      · rintro ⟨⟨d, found, hfound, hstate⟩, hdepth⟩
        rw [← (h.placed d found hfound).depth_eq hstate, hdepth, hget] at hfound
        cases hfound
        exact hstate
      · exact fun hstate => ⟨⟨_, depth, hget, hstate⟩, (h.placed _ depth hget).depth_eq hstate⟩
    have hlook : ∀ recorded ∈ held, recorded.depth = arrival.state.depth →
        absorbed names arrival.state recorded = true → ∃ states,
          depth.drain.byShape.get arrival.shapeHash = some states ∧
            recorded ∈ states.map Arrival.state := by
      intro recorded hrecorded hdepth habsorbed
      rw [shapeHash_eq, ← hshape _ _ habsorbed]
      exact (hbucket recorded).mp ⟨hrecorded, hdepth⟩
    cases hstates : depth.drain.byShape.get arrival.shapeHash with
    | none =>
      simp only [Table.absorbs, hget, hstates]
      refine ⟨h.replace hget hplaced (drain_states depth), rfl, nofun, ?_⟩
      intro _ recorded hrecorded hdepth
      refine Bool.eq_false_iff.mpr fun habsorbed => ?_
      obtain ⟨states, hfound, -⟩ := hlook recorded hrecorded hdepth habsorbed
      rw [hstates] at hfound
      cases hfound
    | some states =>
      obtain ⟨hmark, harrival, hsame⟩ := find_spec arrival.withShape states
      obtain ⟨hrefiled, hkept⟩ := hplaced.refile hstates hsame
      simp only [Table.absorbs, hget, hstates]
      refine ⟨?_, harrival, fun mark hanswer => ?_, fun hanswer recorded hrecorded hdepth => ?_⟩
      · exact h.replace hget hrefiled (hkept.trans (drain_states depth))
      · rw [hmark] at hanswer
        obtain ⟨recorded, hfound, rfl⟩ := Option.map_eq_some_iff.mp hanswer
        have habsorbed := List.find?_some hfound
        have hinside := List.mem_of_find?_eq_some hfound
        have hhash : names.shapeHash recorded.pattern = arrival.shapeHash := by
          rw [shapeHash_eq]
          exact hshape _ _ habsorbed
        have hheld := (hbucket recorded).mpr ⟨states, by rw [hhash, hstates], hinside⟩
        exact ⟨recorded, hheld.1, hheld.2, habsorbed, rfl⟩
      · rw [hmark, Option.map_eq_none_iff, List.find?_eq_none] at hanswer
        refine Bool.eq_false_iff.mpr fun habsorbed => ?_
        obtain ⟨states', hfound, hinside⟩ := hlook recorded hrecorded hdepth habsorbed
        rw [hstates] at hfound
        cases hfound
        exact hanswer recorded hinside habsorbed

end Placing

section Runs

/-- The calls that an exploration makes. -/
inductive Call (names : Comparison P E F I D) (M : Type) where
  | absorbs (arrival : Arrival names M)
  | record (arrival : Arrival names M)
  | evictBelow (depth : Nat)
  | clear

/-- The states recorded and not evicted. -/
def Call.ledger : List (State P E I D M) → Call names M → List (State P E I D M)
  | held, .absorbs _ => held
  | held, .record arrival => held ++ [arrival.state]
  | held, .evictBelow depth => held.filter fun state => decide (depth ≤ state.depth)
  | _, .clear => []

variable [DecidableEq P] [DecidableEq E] [DecidableEq F]

def Call.apply (table : Table names M) : Call names M → Table names M
  | .absorbs arrival => (table.absorbs arrival).2.1
  | .record arrival => table.record arrival
  | .evictBelow depth => table.evictBelow depth
  | .clear => table.clear

theorem Table.Holds.apply {table : Table names M} {held : List (State P E I D M)}
    (h : table.Holds held) (hshape : ShapeNecessary names M) (call : Call names M) :
    (call.apply table).Holds (call.ledger held) := by
  cases call with
  | absorbs arrival => exact (h.absorbs hshape arrival).1
  | record arrival => exact h.record arrival
  | evictBelow depth => exact h.evictBelow depth
  | clear => exact default_holds

theorem foldl_holds (hshape : ShapeNecessary names M) (calls : List (Call names M))
    {table : Table names M} {held : List (State P E I D M)} (h : table.Holds held) :
    (calls.foldl Call.apply table).Holds (calls.foldl Call.ledger held) := by
  induction calls generalizing table held with
  | nil => exact h
  | cons call calls ih => exact ih (h.apply hshape call)

/-- After any calls, a look-up answers what a scan over the states recorded and not evicted does,
and their number is the one the table counts. -/
theorem absorbs_eq_scan (hshape : ShapeNecessary names M) (calls : List (Call names M))
    (arrival : Arrival names M) :
    ((calls.foldl Call.apply Table.default).absorbs arrival).1.isSome =
        ((calls.foldl Call.ledger []).any fun recorded =>
          recorded.depth == arrival.state.depth && absorbed names arrival.state recorded) ∧
      (∀ mark, ((calls.foldl Call.apply Table.default).absorbs arrival).1 = some mark →
        ∃ recorded ∈ calls.foldl Call.ledger [], recorded.depth = arrival.state.depth ∧
          absorbed names arrival.state recorded = true ∧ recorded.mark = mark) ∧
      ((calls.foldl Call.apply Table.default).absorbs arrival).2.2.state = arrival.state ∧
      (calls.foldl Call.apply Table.default).len = (calls.foldl Call.ledger []).length ∧
      (calls.foldl Call.apply Table.default).states =
        (↑(calls.foldl Call.ledger []) : Multiset (State P E I D M)) := by
  have hholds := foldl_holds hshape calls default_holds
  obtain ⟨-, hsame, hsome, hnone⟩ := hholds.absorbs hshape arrival
  refine ⟨?_, hsome, hsame, hholds.len_eq, hholds.states_eq⟩
  rw [Bool.eq_iff_iff, List.any_eq_true]
  simp only [Bool.and_eq_true, beq_iff_eq]
  constructor
  · intro hanswer
    obtain ⟨mark, hmark⟩ := Option.isSome_iff_exists.mp hanswer
    obtain ⟨recorded, hrecorded, hdepth, habsorbed, -⟩ := hsome mark hmark
    exact ⟨recorded, hrecorded, hdepth, habsorbed⟩
  · rintro ⟨recorded, hrecorded, hdepth, habsorbed⟩
    by_contra hanswer
    rw [Option.not_isSome_iff_eq_none] at hanswer
    rw [hnone hanswer recorded hrecorded hdepth] at habsorbed
    cases habsorbed

/-- Patterns that are numbers, taken up to their parity. -/
def parity : Comparison Nat Nat Nat Nat (List Nat) where
  shapeHash n := n % 2
  stateKey n := n % 2
  fingerprint := id
  isSubsetIgnoringFacts small large := small.all (large.contains ·)
  observedAlike a b := a == b

theorem absorbs_eq_scan_parity :
    let arrival : Arrival parity Nat := .new parity ⟨3, 4, 0, 0, true, [], 0⟩
    let calls : List (Call parity Nat) := [.record (.new parity ⟨2, 6, 0, 0, true, [], 1⟩),
      .record (.new parity ⟨3, 6, 0, 0, true, [], 2⟩), .evictBelow 3]
    ((calls.foldl Call.apply Table.default).absorbs arrival).1.isSome =
      (calls.foldl Call.ledger []).any fun recorded =>
        recorded.depth == arrival.state.depth && absorbed parity arrival.state recorded := by
  intro arrival calls
  have hshape : ShapeNecessary parity Nat := by
    intro arrival recorded habsorbed
    simp only [absorbed, Bool.and_eq_true] at habsorbed
    exact of_decide_eq_true habsorbed.2.1.1
  exact (absorbs_eq_scan hshape calls arrival).1

end Runs

end KRust.Backend.ExplorationMerge
