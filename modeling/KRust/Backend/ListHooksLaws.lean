import KRust.Backend.ListHooks
import KRust.Backend.ItemSummary
import KRust.Domain.CanonicalLaws

/-!
Which applications of a `LIST` hook stop the run: the concatenations whose joined tree would
count more items than a machine word holds.
-/

set_option linter.unusedSectionVars false

namespace KRust.Backend.ListHooks

open KRust.Kore KRust.Lib.Partial
open KRust.Term.Chunks (Item Summary Chunked Fits LawfulSummary LawfulGroup usizeMax
  checkedSub repeatItem fromVec join splitAt replaceAt groupValue get_eq join_yields
  fromVec_yields repeatItem_eq replaceAt_yields splitAt_yields)

variable {T K S G M A : Type} [Item T K S G] [LinearOrder K] [Summary S]
  [KRust.Term.Chunks.Group G] [AddMonoid M] [AddCancelCommMonoid A] [LawfulSummary S M]
  [LawfulGroup G A] [HookTerm T S G]

section Trees

/-- Items as many as a machine word counts have summaries that the machine holds. -/
def Counted (T : Type) {K S G M A : Type} [Item T K S G] [Summary S]
    [KRust.Term.Chunks.Group G] [AddMonoid M] [AddCancelCommMonoid A] [LawfulSummary S M]
    [LawfulGroup G A] : Prop :=
  ∀ items : List T, items.length ≤ usizeMax → Fits items

theorem len_le {tree : Tree T S G} (h : tree.Valid) : tree.items.length ≤ usizeMax := by
  obtain ⟨height, hwithin⟩ := h.within
  exact hwithin.fits.count

/-- Two trees are joined unless their items are too many to count. -/
theorem join_stops_iff (hcounted : Counted T) {one two : Tree T S G} (hone : one.Valid)
    (htwo : two.Valid) : join one two = none ↔ usizeMax < one.items.length + two.items.length := by
  have h := join_yields hone htwo
  cases hjoin : join one two with
  | none =>
    rw [hjoin, yields_none] at h
    have hlong : ¬ (one.items ++ two.items).length ≤ usizeMax := fun hle => h (hcounted _ hle)
    rw [List.length_append, not_le] at hlong
    simp [hlong]
  | some joined =>
    rw [hjoin] at h
    obtain ⟨hvalid, hitems⟩ : joined.Valid ∧ joined.items = one.items ++ two.items := h
    have hle := len_le hvalid
    rw [hitems, List.length_append] at hle
    simp [hle]

theorem join_returns (hcounted : Counted T) {one two : Tree T S G} (hone : one.Valid)
    (htwo : two.Valid) (hle : one.items.length + two.items.length ≤ usizeMax) :
    ∃ joined, join one two = some joined ∧ joined.Valid ∧
      joined.items = one.items ++ two.items := by
  rw [← List.length_append] at hle
  exact (join_yields hone htwo).total (hcounted _ hle)

theorem splitAt_returns {tree : Tree T S G} (h : tree.Valid) {index : Nat}
    (hindex : index ≤ tree.items.length) :
    ∃ before after, splitAt tree index = some (before, after) ∧ before.Valid ∧ after.Valid ∧
      before.items = tree.items.take index ∧ after.items = tree.items.drop index := by
  obtain ⟨height, hwithin⟩ := h.within
  have hsplit := splitAt_yields hwithin (tree.items.take index) (tree.items.drop index)
    (List.take_append_drop index tree.items).symm
  rw [List.length_take, Nat.min_eq_left hindex] at hsplit
  obtain ⟨⟨before, after⟩, hrun, hbefore, hafter⟩ := hsplit.total trivial
  exact ⟨before, after, hrun, hbefore.valid h, hafter.valid h, hbefore.items, hafter.items⟩

theorem fromVec_returns (hcounted : Counted T) {items : List T}
    (hle : items.length ≤ usizeMax) :
    ∃ tree : Tree T S G, fromVec listBranching items = some tree ∧ tree.Valid ∧
      tree.items = items :=
  (fromVec_yields listBranching items).total (hcounted items hle)

end Trees

section Results

/-- Whether items of a sort are items of the result, as they are or injected. -/
def ListResult.takes (into : ListResult) (source : KoreSort) : Bool :=
  source = into.definition.elementSort || below into.sorts source into.definition.elementSort

theorem convertAll_eq (into : ListResult) (elements : List T) (source : KoreSort) :
    ∃ converted : List T, converted.length = elements.length ∧
      convertAll into.sorts elements source into.definition.elementSort =
        if into.takes source = true then some converted else none := by
  unfold convertAll ListResult.takes
  by_cases hsame : source = into.definition.elementSort
  · exact ⟨elements, rfl, by simp [hsame]⟩
  · by_cases hbelow : below into.sorts source into.definition.elementSort = true
    · exact ⟨elements.map (HookTerm.injection source into.definition.elementSort),
        List.length_map _, by simp [hsame, hbelow]⟩
    · exact ⟨elements, rfl, by simp [hsame, hbelow]⟩

/-- The items of the result are as many as those they are built from. -/
theorem items_returns (hcounted : Counted T) (into : ListResult) {tree : Tree T S G}
    (h : tree.Valid) (source : KoreSort) :
    ∃ converted : Tree T S G, converted.Valid ∧ converted.items.length = tree.items.length ∧
      into.items tree source = some (if into.takes source = true then some converted else none) := by
  unfold ListResult.items
  by_cases hsame : source = into.definition.elementSort
  · exact ⟨tree, h, rfl, by simp [ListResult.takes, hsame]⟩
  · obtain ⟨elements, hlength, hconvert⟩ := convertAll_eq into tree.items source
    have hle : elements.length ≤ usizeMax := by
      rw [hlength]
      exact len_le h
    obtain ⟨converted, hrun, hvalid, hitems⟩ := fromVec_returns (S := S) (G := G) hcounted hle
    refine ⟨converted, hvalid, by rw [hitems, hlength], ?_⟩
    rw [if_neg hsame, hconvert]
    by_cases htakes : into.takes source = true
    · simp [htakes, hrun]
    · simp [htakes]

/-- A middle that is no list is left where it stands. -/
theorem listOfItems_returns (definition : ListDefinition) (heads : Tree T S G)
    (rest : Option (T × Tree T S G))
    (hmiddle : ∀ middle tails, rest = some (middle, tails) → HookTerm.asList middle = none) :
    ∃ term, listOfItems definition heads rest = some term := by
  unfold listOfItems
  cases rest with
  | none => exact ⟨_, rfl⟩
  | some entry =>
    obtain ⟨middle, tails⟩ := entry
    simp only [hmiddle middle tails rfl, Option.bind_eq_bind, Option.bind_some]
    split
    · exact ⟨_, rfl⟩
    · exact ⟨_, rfl⟩

theorem buildItems_returns (into : ListResult) (heads : Tree T S G)
    (rest : Option (T × Tree T S G))
    (hmiddle : ∀ middle tails, rest = some (middle, tails) → HookTerm.asList middle = none) :
    ∃ built, into.buildItems heads rest = some built := by
  obtain ⟨term, hterm⟩ := listOfItems_returns into.definition heads rest hmiddle
  unfold ListResult.buildItems
  cases rest with
  | none => exact ⟨some term, by simp [hterm]⟩
  | some entry =>
    obtain ⟨middle, tails⟩ := entry
    dsimp only
    split
    · exact ⟨some term, by simp [hterm]⟩
    · exact ⟨none, rfl⟩

theorem build_returns (hcounted : Counted T) (into : ListResult) {heads : List T}
    (hle : heads.length ≤ usizeMax) : ∃ built, into.build heads = some built := by
  obtain ⟨tree, hrun, -⟩ := fromVec_returns (S := S) (G := G) hcounted hle
  obtain ⟨built, hbuilt⟩ := buildItems_returns into tree none (fun _ _ h => nomatch h)
  exact ⟨built, by simp [ListResult.build, hrun, hbuilt]⟩

end Results

section Arguments

/-- What the constructors of terms keep of the lists that they build: the trees are valid, a
definition is the one of its list sort, and the middle of an open list is a collection of that
sort that is no list of the definition. -/
structure Stored (describe : String → ListDefinition) (term : T) : Prop where
  described : ∀ node, HookTerm.asList term = some node →
    describe node.definition.listSort = node.definition
  heads : ∀ node, HookTerm.asList term = some node → node.heads.Valid
  tails : ∀ node, HookTerm.asList term = some node →
    ∀ middle tails, node.rest = some (middle, tails) → tails.Valid
  middleSort : ∀ node, HookTerm.asList term = some node →
    ∀ middle tails, node.rest = some (middle, tails) →
    HookTerm.sort middle = .application node.definition.listSort []
  flattened : ∀ node, HookTerm.asList term = some node →
    ∀ middle tails, node.rest = some (middle, tails) →
    ∀ inner, HookTerm.asList middle = some inner →
    describe inner.definition.listSort = inner.definition ∧ inner.definition ≠ node.definition

variable {describe : String → ListDefinition} {term : T} {node : ListNode T S G}

/-- The middle of an open list is no list at all. -/
theorem Stored.middle (h : Stored describe term) (hnode : HookTerm.asList term = some node)
    {middle : T} {tails : Tree T S G} (hrest : node.rest = some (middle, tails)) :
    HookTerm.asList middle = none := by
  cases hinner : HookTerm.asList middle with
  | none => rfl
  | some inner =>
    obtain ⟨hdescribed, hne⟩ := h.flattened node hnode middle tails hrest inner hinner
    have hsort := (HookTerm.sort_of_asList hinner).symm.trans
      (h.middleSort node hnode middle tails hrest)
    have hname : inner.definition.listSort = node.definition.listSort := by
      injection hsort
    rw [hname, h.described node hnode] at hdescribed
    exact absurd hdescribed.symm hne

end Arguments

section Indices

variable {describe : String → ListDefinition} {node : ListNode T S G} {tree : Tree T S G}

/-- The argument of a hook that takes one more than the arguments it is given is an error. -/
theorem arity_cases (hook : String) (arguments : List T) (expected : Nat) :
    (arguments.length = expected ∧ expectArity hook arguments expected = .ok ()) ∨
      expectArity hook arguments expected =
        .error (.wrongArity hook expected arguments.length) := by
  unfold expectArity
  split
  · exact .inl ⟨‹_›, rfl⟩
  · exact .inr rfl

theorem answers_returns {α : Type} (test : Prop) [Decidable test] (yes no : α) :
    ∃ result, (if test then some yes else some no) = some result := by
  split
  · exact ⟨yes, rfl⟩
  · exact ⟨no, rfl⟩

theorem noInteger_returns (hook : String) (term : T) :
    ∃ result, (noInteger hook term : Option (HookResult T)) = some result := by
  unfold noInteger
  split
  · exact ⟨_, rfl⟩
  · exact ⟨_, rfl⟩

theorem itemAt_returns (h : tree.Valid) (index : Option Nat) :
    ∃ result, itemAt node tree index = some result := by
  unfold itemAt
  cases index with
  | none => exact ⟨_, rfl⟩
  | some index =>
    simp only [get_eq h index, Option.bind_eq_bind, Option.bind_some]
    split
    · exact ⟨_, rfl⟩
    · exact ⟨_, rfl⟩

theorem toUsize_le {n : Int} {index : Nat} (h : toUsize n = some index) : index ≤ usizeMax := by
  unfold toUsize at h
  split at h
  · cases h
    omega
  · cases h

end Indices

section Hooks

variable {describe : String → ListDefinition} {arguments : List T} {result : ResultCollection}
  (parseInt : List Char → Option Int)

theorem element_returns (hcounted : Counted T) :
    ∃ outcome, element arguments result = some outcome := by
  unfold element
  rcases arity_cases "LIST.element" arguments 1 with ⟨hlength, harity⟩ | harity
  · obtain ⟨argument, rfl⟩ := List.length_eq_one_iff.mp hlength
    simp only [harity]
    split
    · exact ⟨_, rfl⟩
    · rename_i into _
      split
      · exact ⟨_, rfl⟩
      · rename_i item _
        have hone : [item].length ≤ usizeMax := by
          rw [List.length_singleton]
          decide
        obtain ⟨built, hbuilt⟩ := build_returns hcounted into hone
        exact ⟨_, by rw [hbuilt]; rfl⟩
  · rw [harity]
    exact ⟨_, rfl⟩

theorem unit_returns (hcounted : Counted T) :
    ∃ outcome, unit arguments result = some outcome := by
  unfold unit
  rcases arity_cases "LIST.unit" arguments 0 with ⟨-, harity⟩ | harity
  · simp only [harity]
    split
    · exact ⟨_, rfl⟩
    · rename_i into _
      have hnone : ([] : List T).length ≤ usizeMax := Nat.zero_le _
      obtain ⟨built, hbuilt⟩ := build_returns hcounted into hnone
      exact ⟨_, by rw [hbuilt]; rfl⟩
  · rw [harity]
    exact ⟨_, rfl⟩

theorem size_returns : ∃ outcome, size arguments = some outcome := by
  unfold size
  rcases arity_cases "LIST.size" arguments 1 with ⟨hlength, harity⟩ | harity
  · obtain ⟨argument, rfl⟩ := List.length_eq_one_iff.mp hlength
    simp only [harity]
    split
    · exact ⟨_, rfl⟩
    · exact ⟨_, rfl⟩
  · rw [harity]
    exact ⟨_, rfl⟩

theorem contains_returns (sorts : Option SortGraph) :
    ∃ outcome, contains arguments sorts = some outcome := by
  unfold contains
  rcases arity_cases "LIST.in" arguments 2 with ⟨hlength, harity⟩ | harity
  · obtain ⟨item, list, rfl⟩ := List.length_eq_two.mp hlength
    simp only [harity]
    split
    · exact ⟨_, rfl⟩
    · split
      · exact ⟨_, rfl⟩
      · exact ⟨_, rfl⟩
      · split
        · exact answers_returns _ _ _
        · exact answers_returns _ _ _
  · rw [harity]
    exact ⟨_, rfl⟩

theorem get_returns (hstored : ∀ t ∈ arguments, Stored describe t) :
    ∃ outcome, get parseInt arguments = some outcome := by
  unfold get
  rcases arity_cases "LIST.get" arguments 2 with ⟨hlength, harity⟩ | harity
  · obtain ⟨list, index, rfl⟩ := List.length_eq_two.mp hlength
    have hlist := hstored list List.mem_cons_self
    simp only [harity]
    split
    · exact ⟨_, rfl⟩
    · rename_i node hnode
      split
      · exact ⟨_, rfl⟩
      · split
        · exact noInteger_returns _ _
        · split
          · exact itemAt_returns (hlist.heads node hnode) _
          · split
            · exact ⟨_, rfl⟩
            · rename_i distance hdistance
              split
              · exact ⟨_, rfl⟩
              · rename_i offset hoffset
                have hadd : Term.Chunks.checkedAdd offset 1 = some (offset + 1) := by
                  have := toUsize_le hdistance
                  unfold checkedSub at hoffset
                  split at hoffset
                  · cases hoffset
                    exact if_pos (by omega)
                  · cases hoffset
                simp only [hadd, Option.bind_eq_bind, Option.bind_some]
                apply itemAt_returns
                split
                · exact hlist.heads node hnode
                · rename_i middle tails hrest
                  exact hlist.tails node hnode middle tails hrest
  · rw [harity]
    exact ⟨_, rfl⟩

theorem make_returns (hcounted : Counted T) :
    ∃ outcome, make parseInt arguments result = some outcome := by
  unfold make
  rcases arity_cases "LIST.make" arguments 2 with ⟨hlength, harity⟩ | harity
  · obtain ⟨length, value, rfl⟩ := List.length_eq_two.mp hlength
    simp only [harity]
    split
    · exact noInteger_returns _ _
    · split
      · exact ⟨_, rfl⟩
      · rename_i into _
        split
        · exact ⟨_, rfl⟩
        · rename_i item _
          split
          · exact ⟨_, rfl⟩
          · split
            · exact ⟨_, rfl⟩
            · rename_i count hcount
              have hle : count ≤ usizeMax := by
                unfold boundedListLength at hcount
                split at hcount
                · rename_i found hfound
                  cases hcount
                  exact toUsize_le hfound
                · cases hcount
              have hlong : (List.replicate count item).length ≤ usizeMax := by
                rw [List.length_replicate]
                exact hle
              obtain ⟨copies, hcopies, -⟩ := fromVec_returns (S := S) (G := G) hcounted hlong
              obtain ⟨built, hbuilt⟩ := buildItems_returns into copies none (fun _ _ h => nomatch h)
              simp only [repeatItem_eq, hcopies, hbuilt, Option.bind_eq_bind, Option.bind_some]
              exact ⟨_, rfl⟩
  · rw [harity]
    exact ⟨_, rfl⟩

theorem checkedSub_of_le {left right : Nat} (h : right ≤ left) :
    checkedSub left right = some (left - right) := if_pos h

theorem checkedSub_eq_some {left right difference : Nat}
    (h : checkedSub left right = some difference) : right ≤ left ∧ difference = left - right := by
  unfold checkedSub at h
  split at h
  · exact ⟨‹_›, (Option.some.inj h).symm⟩
  · cases h

theorem rangeBetween_returns (hcounted : Counted T) {list : T} {node : ListNode T S G}
    (hstored : Stored describe list) (hnode : HookTerm.asList list = some node)
    (into : ListResult) (front back : Option Nat) :
    ∃ outcome, rangeBetween into node front back = some outcome := by
  have hheads := hstored.heads node hnode
  unfold rangeBetween
  split
  · rename_i front back hrest
    split
    · exact ⟨_, rfl⟩
    · rename_i stop hstop
      obtain ⟨hback, rfl⟩ := checkedSub_eq_some hstop
      rw [hheads.len_eq] at hback
      split
      · exact ⟨_, rfl⟩
      · rename_i hfront
        rw [hheads.len_eq] at hfront ⊢
        have hcut : front ≤ node.heads.items.length := by omega
        obtain ⟨before, kept, hsplit, -, hkept, -, hitems⟩ := splitAt_returns hheads hcut
        have hlength : node.heads.items.length - back - front ≤ kept.items.length := by
          rw [hitems, List.length_drop]
          omega
        obtain ⟨range, after, hsplit', hrange, -⟩ := splitAt_returns hkept hlength
        obtain ⟨converted, -, -, hconvert⟩ :=
          items_returns hcounted into hrange node.definition.elementSort
        obtain ⟨built, hbuilt⟩ := buildItems_returns into converted none (by rintro _ _ ⟨⟩)
        simp only [hsplit, checkedSub_of_le (not_lt.mp hfront), hsplit', hconvert,
          Option.bind_eq_bind, Option.bind_some]
        split
        · exact ⟨_, rfl⟩
        · rename_i range hrange
          split at hrange
          · cases hrange
            simp only [hbuilt, Option.bind_some]
            exact ⟨_, rfl⟩
          · cases hrange
  · exact ⟨_, rfl⟩
  · rename_i middle tails front back hrest
    have htails := hstored.tails node hnode middle tails hrest
    split
    · exact ⟨_, rfl⟩
    · rename_i hinside
      rw [hheads.len_eq, htails.len_eq, not_or, not_lt, not_lt] at hinside
      obtain ⟨before, heads, hsplit, -, hkept, -⟩ := splitAt_returns hheads hinside.1
      have hstop : tails.items.length - back ≤ tails.items.length := Nat.sub_le _ _
      obtain ⟨kept, after, hsplit', hkept', -⟩ := splitAt_returns htails hstop
      obtain ⟨heads', -, -, hconvert⟩ :=
        items_returns hcounted into hkept node.definition.elementSort
      obtain ⟨tails', -, -, hconvert'⟩ :=
        items_returns hcounted into hkept' node.definition.elementSort
      obtain ⟨built, hbuilt⟩ := buildItems_returns into heads' (some (middle, tails'))
        (fun _ _ h => by cases h; exact hstored.middle hnode hrest)
      simp only [hsplit, htails.len_eq, checkedSub_of_le hinside.2, hsplit', hconvert, hconvert',
        Option.bind_eq_bind, Option.bind_some]
      by_cases htakes : into.takes node.definition.elementSort = true
      · simp only [htakes, if_true, hbuilt, Option.bind_some]
        exact ⟨_, rfl⟩
      · simp only [htakes]
        exact ⟨_, rfl⟩
  · exact ⟨_, rfl⟩

theorem range_returns (hcounted : Counted T) (hstored : ∀ t ∈ arguments, Stored describe t) :
    ∃ outcome, range parseInt arguments result = some outcome := by
  unfold range
  rcases arity_cases "LIST.range" arguments 3 with ⟨hlength, harity⟩ | harity
  · obtain ⟨list, front, back, rfl⟩ := List.length_eq_three.mp hlength
    have hlist := hstored list List.mem_cons_self
    simp only [harity]
    split
    · exact ⟨_, rfl⟩
    · rename_i node hnode
      split
      · exact noInteger_returns _ _
      · split
        · exact noInteger_returns _ _
        · split
          · exact ⟨_, rfl⟩
          · rename_i into _
            split
            · exact ⟨_, rfl⟩
            · exact rangeBetween_returns hcounted hlist hnode into _ _
  · rw [harity]
    exact ⟨_, rfl⟩

theorem updateAllAt_returns (hcounted : Counted T) {original updates : Tree T S G}
    (horiginal : original.Valid) (hupdates : updates.Valid) (into : ListResult)
    (definition : ListDefinition) {index : Nat}
    (hstop : index + updates.items.length ≤ original.items.length) :
    ∃ outcome, updateAllAt into definition original updates index
      (index + updates.items.length) = some outcome := by
  obtain ⟨whole, hwhole, hlength, hconvert⟩ :=
    items_returns hcounted into horiginal definition.elementSort
  obtain ⟨inner, hinner, hlength', hconvert'⟩ :=
    items_returns hcounted into hupdates definition.elementSort
  have hle := len_le hwhole
  have hindex : index ≤ whole.items.length := by omega
  obtain ⟨before, replaced, hsplit, hbefore, hreplaced, hbeforeItems, hreplacedItems⟩ :=
    splitAt_returns hwhole hindex
  have hcut : updates.items.length ≤ replaced.items.length := by
    rw [hreplacedItems, List.length_drop]
    omega
  obtain ⟨old, after, hsplit', -, hafter, -, hafterItems⟩ := splitAt_returns hreplaced hcut
  have hbeforeLength : before.items.length = index := by
    rw [hbeforeItems, List.length_take]
    omega
  have hafterLength : after.items.length =
      original.items.length - index - updates.items.length := by
    rw [hafterItems, List.length_drop, hreplacedItems, List.length_drop, hlength]
  obtain ⟨start, hjoin, hstart, hstartItems⟩ :=
    join_returns hcounted hbefore hinner (by omega)
  have hstartLength : start.items.length = index + updates.items.length := by
    rw [hstartItems, List.length_append, hbeforeLength, hlength']
  obtain ⟨joined, hjoin', -⟩ := join_returns hcounted hstart hafter (by omega)
  obtain ⟨built, hbuilt⟩ := buildItems_returns into joined none (fun _ _ h => nomatch h)
  have hsub : checkedSub (index + updates.items.length) index = some updates.items.length := by
    rw [checkedSub_of_le (Nat.le_add_right _ _), Nat.add_sub_cancel_left]
  unfold updateAllAt
  simp only [hconvert, hconvert', Option.bind_eq_bind, Option.bind_some]
  by_cases htakes : into.takes definition.elementSort = true
  · simp only [htakes, if_true, hsplit, hsub, hsplit', hjoin, hjoin', hbuilt, Option.bind_some]
    exact ⟨_, rfl⟩
  · simp only [htakes]
    exact ⟨_, rfl⟩

theorem updateAll_returns (hcounted : Counted T) (hstored : ∀ t ∈ arguments, Stored describe t) :
    ∃ outcome, updateAll parseInt arguments result = some outcome := by
  unfold updateAll
  rcases arity_cases "LIST.updateAll" arguments 3 with ⟨hlength, harity⟩ | harity
  · obtain ⟨original, index, updates, rfl⟩ := List.length_eq_three.mp hlength
    simp only [harity]
    split
    · rename_i definition heads updateDefinition updateHeads horiginal hupdates
      have hheads := (hstored original List.mem_cons_self).heads _ horiginal
      have hupdateHeads := (hstored updates (by simp)).heads _ hupdates
      split
      · exact ⟨_, rfl⟩
      · split
        · exact noInteger_returns _ _
        · split
          · exact ⟨_, rfl⟩
          · rename_i into _
            split
            · exact ⟨_, rfl⟩
            · split
              · exact ⟨_, rfl⟩
              · split
                · exact ⟨_, rfl⟩
                · rename_i index _ stop hadd
                  split
                  · exact ⟨_, rfl⟩
                  · rename_i hinside
                    rw [hheads.len_eq, not_lt] at hinside
                    rw [hupdateHeads.len_eq] at hadd
                    unfold Term.Chunks.checkedAdd at hadd
                    split at hadd
                    · cases hadd
                      exact updateAllAt_returns hcounted hheads hupdateHeads into definition
                        hinside
                    · cases hadd
    · exact ⟨_, rfl⟩
  · rw [harity]
    exact ⟨_, rfl⟩

/-- The occurrences of variables in the items of an updated list are counted together with
those of the new value, before those of the value it replaces are taken away. -/
def UpdateCounted (arguments : List T) (result : ResultCollection) : Prop :=
  ∀ list index value node into heads new, arguments = [list, index, value] →
    HookTerm.asList list = some node → result.list (some node.definition) = some into →
    into.items node.heads node.definition.elementSort = some (some heads) →
    into.element value = some new →
    LawfulSummary.Representable G
      (groupValue heads.items + LawfulSummary.value (Item.group new) : A)

theorem updatedRest_returns (hcounted : Counted T) {list : T} {node : ListNode T S G}
    (hstored : Stored describe list) (hnode : HookTerm.asList list = some node)
    (into : ListResult) :
    ∃ rest, updatedRest into node = some rest ∧
      ∀ kept, rest = some kept → ∀ middle tails, kept = some (middle, tails) →
        HookTerm.asList middle = none := by
  unfold updatedRest
  split
  · exact ⟨_, rfl, fun kept hkept middle tails h => by cases hkept; cases h⟩
  · rename_i middle tails hrest
    obtain ⟨tails', -, -, hconvert⟩ := items_returns hcounted into
      (hstored.tails node hnode middle tails hrest) node.definition.elementSort
    have hmiddle := hstored.middle hnode hrest
    simp only [hconvert, Option.bind_eq_bind, Option.bind_some]
    split
    · exact ⟨_, rfl, nofun⟩
    · refine ⟨_, rfl, fun kept hkept middle' tails' h => ?_⟩
      cases hkept
      cases h
      exact hmiddle

theorem updateAt_returns (hcounted : Counted T) {list value : T} {node : ListNode T S G}
    (hstored : Stored describe list) (hnode : HookTerm.asList list = some node)
    (into : ListResult) {index : Nat} (hindex : index < node.heads.items.length)
    (hvalue : ∀ heads new, into.items node.heads node.definition.elementSort = some (some heads) →
      into.element value = some new → LawfulSummary.Representable G
        (groupValue heads.items + LawfulSummary.value (Item.group new) : A)) :
    ∃ outcome, updateAt into node index value = some outcome := by
  obtain ⟨heads, hheads, hlength, hconvert⟩ := items_returns hcounted into
    (hstored.heads node hnode) node.definition.elementSort
  have hle := len_le hheads
  obtain ⟨rest, hrun, hmiddle⟩ := updatedRest_returns hcounted hstored hnode into
  unfold updateAt
  simp only [hrun, hconvert, Option.bind_eq_bind, Option.bind_some]
  cases rest with
  | none => exact ⟨_, rfl⟩
  | some rest =>
    by_cases htakes : into.takes node.definition.elementSort = true
    · simp only [htakes, if_true]
      cases hnew : into.element value with
      | none => exact ⟨_, rfl⟩
      | some new =>
        rw [htakes, if_pos rfl] at hconvert
        have hgroup := hvalue heads new hconvert hnew
        have hinside : index < heads.items.length := by omega
        have hitems : heads.items =
            heads.items.take index ++ heads.items[index] :: heads.items.drop (index + 1) := by
          rw [List.getElem_cons_drop, List.take_append_drop]
        have hreplace := replaceAt_yields hheads _ _ _ hitems new
        have htake : (heads.items.take index).length = index := by
          rw [List.length_take]
          omega
        have hfits : Fits (heads.items.take index ++ new :: heads.items.drop (index + 1)) := by
          apply hcounted
          simp only [List.length_append, List.length_cons, List.length_drop, htake]
          omega
        rw [htake] at hreplace
        obtain ⟨replaced, hreplaced, -⟩ := hreplace.total ⟨hfits, hgroup⟩
        obtain ⟨built, hbuilt⟩ := buildItems_returns into replaced rest (hmiddle rest rfl)
        simp only [hreplaced, hbuilt, Option.bind_some]
        exact ⟨_, rfl⟩
    · simp only [htakes]
      exact ⟨_, rfl⟩

theorem update_returns (hcounted : Counted T) (hstored : ∀ t ∈ arguments, Stored describe t)
    (hupdate : UpdateCounted arguments result) :
    ∃ outcome, update parseInt arguments result = some outcome := by
  unfold update
  rcases arity_cases "LIST.update" arguments 3 with ⟨hlength, harity⟩ | harity
  · obtain ⟨list, index, value, rfl⟩ := List.length_eq_three.mp hlength
    have hlist := hstored list List.mem_cons_self
    simp only [harity]
    split
    · exact ⟨_, rfl⟩
    · rename_i node hnode
      split
      · exact noInteger_returns _ _
      · split
        · exact ⟨_, rfl⟩
        · rename_i into hinto
          split
          · exact ⟨_, rfl⟩
          · split
            · exact ⟨_, rfl⟩
            · split
              · exact ⟨_, rfl⟩
              · rename_i hinside
                rw [(hlist.heads node hnode).len_eq, not_le] at hinside
                exact updateAt_returns hcounted hlist hnode into hinside fun heads new h h' =>
                  hupdate list index value node into heads new rfl hnode hinto h h'
  · rw [harity]
    exact ⟨_, rfl⟩

end Hooks

section Concatenation

variable {describe : String → ListDefinition} {arguments : List T} {result : ResultCollection}

/-- The joined tree of a concatenation would hold more items than a machine word counts: the
heads of two lists, or the tails of an open list and the items of a closed one. -/
def JoinOverflows (left right : ListNode T S G) : Prop :=
  (left.rest = none ∧ usizeMax < left.heads.len + right.heads.len) ∨
    ∃ middle tails, left.rest = some (middle, tails) ∧ right.rest = none ∧
      usizeMax < tails.len + right.heads.len

/-- A concatenation of two lists of one definition, in a result that takes their items, whose
joined tree would overflow. -/
def ConcatOverflows (arguments : List T) (result : ResultCollection) : Prop :=
  ∃ left right leftNode rightNode into, arguments = [left, right] ∧
    HookTerm.asList left = some leftNode ∧ HookTerm.asList right = some rightNode ∧
    leftNode.definition = rightNode.definition ∧
    result.list (some leftNode.definition) = some into ∧
    into.takes leftNode.definition.elementSort = true ∧ JoinOverflows leftNode rightNode

/-- Joining stops exactly where the joined tree would overflow, and joins to a rest whose middle
is that of one of the lists. -/
theorem concatenated_stops_iff (hcounted : Counted T) {left right : T}
    {leftNode rightNode : ListNode T S G} (hleft : Stored describe left)
    (hright : Stored describe right) (hleftNode : HookTerm.asList left = some leftNode)
    (hrightNode : HookTerm.asList right = some rightNode) (into : ListResult) :
    (concatenated into leftNode rightNode = none ↔
        into.takes leftNode.definition.elementSort = true ∧ JoinOverflows leftNode rightNode) ∧
      ∀ heads middle tails,
        concatenated into leftNode rightNode = some (some (heads, some (middle, tails))) →
        HookTerm.asList middle = none := by
  have hleftHeads := hleft.heads leftNode hleftNode
  have hrightHeads := hright.heads rightNode hrightNode
  obtain ⟨l, hl, hlLength, hlConvert⟩ :=
    items_returns hcounted into hleftHeads leftNode.definition.elementSort
  obtain ⟨r, hr, hrLength, hrConvert⟩ :=
    items_returns hcounted into hrightHeads leftNode.definition.elementSort
  have hheads := join_stops_iff hcounted hl hr
  rw [hlLength, hrLength, ← hleftHeads.len_eq, ← hrightHeads.len_eq] at hheads
  unfold concatenated JoinOverflows
  simp only [hlConvert, hrConvert, Option.bind_eq_bind, Option.bind_some]
  by_cases htakes : into.takes leftNode.definition.elementSort = true
  · simp only [htakes, if_true, true_and]
    cases hleftRest : leftNode.rest with
    | none =>
      cases hrightRest : rightNode.rest with
      | none =>
        cases hjoin : join l r with
        | none => simp [hheads.mp hjoin]
        | some joined =>
          have hfit : ¬ usizeMax < leftNode.heads.len + rightNode.heads.len := fun h => by
            rw [hheads.mpr h] at hjoin
            cases hjoin
          simp [hfit]
      | some entry =>
        obtain ⟨middle, tails⟩ := entry
        have hmiddle := hright.middle hrightNode hrightRest
        obtain ⟨t, -, -, htConvert⟩ := items_returns hcounted into
          (hright.tails rightNode hrightNode middle tails hrightRest)
          leftNode.definition.elementSort
        simp only [htConvert, htakes, if_true, Option.bind_some]
        cases hjoin : join l r with
        | none => simp [hheads.mp hjoin]
        | some joined =>
          have hfit : ¬ usizeMax < leftNode.heads.len + rightNode.heads.len := fun h => by
            rw [hheads.mpr h] at hjoin
            cases hjoin
          simp [hfit, hmiddle]
    | some entry =>
      obtain ⟨middle, tails⟩ := entry
      have hmiddle := hleft.middle hleftNode hleftRest
      have htails := hleft.tails leftNode hleftNode middle tails hleftRest
      cases hrightRest : rightNode.rest with
      | some entry => simp
      | none =>
        obtain ⟨t, ht, htLength, htConvert⟩ :=
          items_returns hcounted into htails leftNode.definition.elementSort
        have hends := join_stops_iff hcounted ht hr
        rw [htLength, hrLength, ← htails.len_eq, ← hrightHeads.len_eq] at hends
        simp only [htConvert, htakes, if_true, Option.bind_some]
        cases hjoin : join t r with
        | none => simp [hends.mp hjoin]
        | some joined =>
          have hfit : ¬ usizeMax < tails.len + rightNode.heads.len := fun h => by
            rw [hends.mpr h] at hjoin
            cases hjoin
          simp [hfit, hmiddle]
  · simp [htakes]

/-- A list is put before or after a term that is no list. -/
theorem besideTerm_returns (hcounted : Counted T) {tree : Tree T S G} (htree : tree.Valid)
    (into : ListResult) (source : KoreSort)
    (place : Tree T S G → Tree T S G × Option (T × Tree T S G))
    (hplace : ∀ tree middle tails, (place tree).2 = some (middle, tails) →
      HookTerm.asList middle = none) :
    ∃ built, (do
      match ← into.items tree source with
      | none => return none
      | some items => into.buildItems (place items).1 (place items).2 : Option (Option T)) =
        some built := by
  obtain ⟨converted, -, -, hconvert⟩ := items_returns hcounted into htree source
  obtain ⟨built, hbuilt⟩ := buildItems_returns into (place converted).1 (place converted).2
    (hplace converted)
  simp only [hconvert, Option.bind_eq_bind, Option.bind_some]
  by_cases htakes : into.takes source = true
  · simp only [htakes, if_true, hbuilt]
    exact ⟨_, rfl⟩
  · simp only [htakes]
    exact ⟨_, rfl⟩

theorem concatTerms_stops_iff (hcounted : Counted T) {left right : T}
    (hleft : Stored describe left) (hright : Stored describe right) :
    concatTerms left right result = none ↔ ConcatOverflows [left, right] result := by
  have hnone (h : HookTerm.asList left = none ∨ HookTerm.asList right = none) :
      ¬ ConcatOverflows [left, right] result := by
    rintro ⟨l, r, leftNode, rightNode, into, heq, hl, hr, -⟩
    cases heq
    rcases h with h | h
    · rw [h] at hl
      cases hl
    · rw [h] at hr
      cases hr
  unfold concatTerms
  cases hl : HookTerm.asList left with
  | none =>
    have hfit := hnone (.inl hl)
    cases hr : HookTerm.asList right with
    | none => simp [hfit]
    | some node =>
      obtain ⟨definition, heads, rest⟩ := node
      cases rest with
      | some entry => simp [hfit]
      | none =>
        simp only [hfit, iff_false]
        cases result.list (some definition) with
        | none => exact nofun
        | some into =>
          obtain ⟨built, hbuilt⟩ := besideTerm_returns hcounted (hright.heads _ hr) into
            definition.elementSort (fun heads => (Chunked.new, some (left, heads)))
            (fun _ _ _ h => by cases h; exact hl)
          exact fun h => by cases h.symm.trans hbuilt
  | some leftNode =>
    cases hr : HookTerm.asList right with
    | none =>
      have hfit := hnone (.inr hr)
      obtain ⟨definition, heads, rest⟩ := leftNode
      cases rest with
      | some entry => simp [hfit]
      | none =>
        simp only [hfit, iff_false]
        cases result.list (some definition) with
        | none => exact nofun
        | some into =>
          obtain ⟨built, hbuilt⟩ := besideTerm_returns hcounted (hleft.heads _ hl) into
            definition.elementSort (fun heads => (heads, some (right, Chunked.new)))
            (fun _ _ _ h => by cases h; exact hr)
          exact fun h => by cases h.symm.trans hbuilt
    | some rightNode =>
      dsimp only
      have hoverflows : ConcatOverflows [left, right] result ↔
          leftNode.definition = rightNode.definition ∧
            ∃ into, result.list (some leftNode.definition) = some into ∧
              into.takes leftNode.definition.elementSort = true ∧
              JoinOverflows leftNode rightNode := by
        constructor
        · rintro ⟨l, r, node, node', into, heq, hl', hr', hsame, hinto, htakes, hjoin⟩
          cases heq
          cases hl.symm.trans hl'
          cases hr.symm.trans hr'
          exact ⟨hsame, into, hinto, htakes, hjoin⟩
        · rintro ⟨hsame, into, hinto, htakes, hjoin⟩
          exact ⟨left, right, leftNode, rightNode, into, rfl, hl, hr, hsame, hinto, htakes, hjoin⟩
      rw [hoverflows]
      by_cases hsame : leftNode.definition = rightNode.definition
      · cases hinto : result.list (some leftNode.definition) with
        | none => simp [hsame]
        | some into =>
          obtain ⟨hstops, hmiddle⟩ := concatenated_stops_iff hcounted hleft hright hl hr into
          simp only [hsame, not_true_eq_false, if_false, Option.some.injEq, exists_eq_left',
            true_and, ne_eq]
          rw [← hsame, ← hstops]
          cases hrun : concatenated into leftNode rightNode with
          | none => simp
          | some joined =>
            cases joined with
            | none => simp
            | some parts =>
              obtain ⟨heads, rest⟩ := parts
              obtain ⟨built, hbuilt⟩ := buildItems_returns into heads rest
                (fun middle tails h => hmiddle heads middle tails (h ▸ hrun))
              simp [hbuilt]
      · simp [hsame]

theorem concat_stops_iff (hcounted : Counted T) (hstored : ∀ t ∈ arguments, Stored describe t) :
    concat arguments result = none ↔ ConcatOverflows arguments result := by
  unfold concat
  rcases arity_cases "LIST.concat" arguments 2 with ⟨hlength, harity⟩ | harity
  · obtain ⟨left, right, rfl⟩ := List.length_eq_two.mp hlength
    have hstops : concatTerms left right result = none ↔ ConcatOverflows [left, right] result :=
      concatTerms_stops_iff hcounted (hstored left List.mem_cons_self) (hstored right (by simp))
    simp only [harity]
    rw [← hstops]
    cases concatTerms left right result with
    | none => simp
    | some built => simp
  · have hfit : ¬ ConcatOverflows arguments result := by
      rintro ⟨left, right, -, -, -, rfl, -⟩
      cases harity
    simp [harity, hfit]

end Concatenation

section Evaluation

variable {describe : String → ListDefinition}

end Evaluation

section StoredItems

variable {I : Type} [StoredItem I]

end StoredItems

section Copies

/-- Domain values and lists of them. -/
inductive ListedTerm where
  | token (sort : KoreSort) (value : List UInt8)
  | list (definition : ListDefinition) (heads : Chunked ListedTerm Unit Unit listBranching)
    (rest : Option (ListedTerm × Chunked ListedTerm Unit Unit listBranching))

instance : Item ListedTerm Nat Unit Unit where
  key _ := 0
  hash64 _ := 0
  summary _ := ()
  group _ := ()

namespace ListedTerm

def asNode : ListedTerm → Option (ListNode ListedTerm Unit Unit)
  | .list definition heads rest => some ⟨definition, heads, rest⟩
  | .token _ _ => none

def sortOf : ListedTerm → KoreSort
  | .list definition _ _ => .application definition.listSort []
  | .token sort _ => sort

def payload : ListedTerm → Option (KoreSort × List UInt8)
  | .token sort value => some (sort, value)
  | .list _ _ _ => none

end ListedTerm

instance : HookTerm ListedTerm Unit Unit where
  asList := ListedTerm.asNode
  asDomainValue := ListedTerm.payload
  asInjection _ := none
  sort := ListedTerm.sortOf
  list node := .list node.definition node.heads node.rest
  injection _ _ term := term
  int n := .token intSort (Lib.Utf8.encode (Domain.printInt n))
  bool b := .token (.application "SortBool" []) (Lib.Utf8.encode (toString b).toList)
  same left right := decide (left.payload = right.payload)
  constructorLike _ := true
  apart _ _ _ := false
  sort_of_asList {t node} h := by
    cases t with
    | token sort value => cases h
    | list definition heads rest =>
      cases h
      rfl

def itemList : ListDefinition := ⟨⟨"unit", "element", "concat"⟩, intSort, "SortItems"⟩

def intoItems : ResultCollection := ⟨.sort (some (.list itemList)), none⟩

theorem counted_listed : Counted ListedTerm := fun _ hle => ⟨hle, trivial, trivial⟩

theorem stored_listed {heads : Tree ListedTerm Unit Unit} (h : heads.Valid) :
    Stored (fun _ => itemList) (ListedTerm.list itemList heads none) where
  described node hnode := by
    cases hnode
    rfl
  heads node hnode := by
    cases hnode
    exact h
  tails node hnode := by
    cases hnode
    exact nofun
  middleSort node hnode := by
    cases hnode
    exact nofun
  flattened node hnode := by
    cases hnode
    exact nofun

/-- So many copies of an item are made. -/
theorem make_copies {count : Nat} (hcount : count ≤ usizeMax) (item : ListedTerm)
    (hitem : item.sortOf = intSort) :
    ∃ copies : Tree ListedTerm Unit Unit, copies.Valid ∧
      copies.items.length = count ∧
      evaluate Domain.decimalNumbers.parseInt "LIST.make" [HookTerm.int count, item] none
        intoItems = some (.ok (.value (.list itemList copies none))) := by
  have hlong : (List.replicate count item).length ≤ usizeMax := by
    rw [List.length_replicate]
    exact hcount
  obtain ⟨copies, hcopies, hvalid, hitems⟩ :=
    fromVec_returns (S := Unit) (G := Unit) counted_listed hlong
  refine ⟨copies, hvalid, by rw [hitems, List.length_replicate], ?_⟩
  have hread : readInt Domain.decimalNumbers.parseInt (HookTerm.int count : ListedTerm) =
      some (count : Int) := by
    obtain ⟨hnumeral, -, hvalue⟩ :=
      Domain.isNumeral_of_decimal (Domain.decimal_printInt (count : Int))
    simp only [readInt, HookTerm.asDomainValue, HookTerm.int, ListedTerm.payload,
      Option.bind_eq_bind, Option.bind_some, if_true, Lib.Utf8.decode_encode,
      Domain.decimalNumbers, hnumeral, hvalue]
  have hlength : boundedListLength (count : Int) = .ok count := by
    have hsmall : (0 : Int) ≤ count ∧ (count : Int) ≤ usizeMax := by omega
    simp only [boundedListLength, toUsize, if_pos hsmall, Int.toNat_natCast]
  have helement : (ListResult.mk itemList none).element item = some item := by
    simp only [ListResult.element, convert, HookTerm.sort, hitem, itemList, if_true]
  have hpos : ¬ (count : Int) < 0 := by omega
  simp only [evaluate, make, expectArity, List.length_cons, List.length_nil, if_true, hread,
    ResultCollection.list, intoItems, helement, hpos, if_false, hlength, repeatItem_eq, hcopies]
  rfl

end Copies

end KRust.Backend.ListHooks
