import KRust.Inner.Cycles
import KRust.Lib.Clauses

/-!
The sorts that the counting worklist finds nullable are those that the productions derive from
nothing, and each regular expression is analysed as it would be without the table of the ones
before it.
-/

namespace KRust.Inner.Cycles

open KRust.Lib
open Relation (ReflTransGen)

section Lexical

variable {minimumLen : MinimumLen}

/-- Whether an item that is no nonterminal may match the empty string. -/
def Item.mayBeEmpty (minimumLen : MinimumLen) : Item → Bool
  | .terminal value => value.isEmpty
  | .regex rustBody => mayMatchEmpty minimumLen rustBody
  | .nonTerminal => true

@[simp] theorem mayBeEmpty_nonTerminal (minimumLen : MinimumLen) :
    Item.nonTerminal.mayBeEmpty minimumLen = true := rfl

/-- The analysed bodies were analysed as they would be again. -/
def Analysed (minimumLen : MinimumLen) (regexes : Regexes) : Prop :=
  ∀ body mayBeEmpty, regexes.lookup body = some mayBeEmpty →
    mayBeEmpty = mayMatchEmpty minimumLen body

theorem blocks_spec {regexes : Regexes} (h : Analysed minimumLen regexes) (item : Item) :
    (blocks minimumLen regexes item).1 = !item.mayBeEmpty minimumLen ∧
      Analysed minimumLen (blocks minimumLen regexes item).2 := by
  cases item with
  | terminal value => exact ⟨rfl, h⟩
  | nonTerminal => exact ⟨rfl, h⟩
  | regex rustBody =>
    simp only [blocks]
    split
    · rename_i mayBeEmpty hlookup
      exact ⟨congrArg (fun b => !b) (h rustBody mayBeEmpty hlookup), h⟩
    · refine ⟨rfl, fun body mayBeEmpty hlookup => ?_⟩
      rw [List.lookup_cons] at hlookup
      split at hlookup
      · rename_i hbody
        rw [eq_of_beq hbody]
        exact (Option.some.inj hlookup).symm
      · exact h body mayBeEmpty hlookup

theorem countBlocking_spec {regexes : Regexes} (h : Analysed minimumLen regexes)
    (items : List Item) :
    (countBlocking minimumLen regexes items).1 =
        (items.filter fun item => !item.mayBeEmpty minimumLen).length ∧
      Analysed minimumLen (countBlocking minimumLen regexes items).2 := by
  induction items generalizing regexes with
  | nil => exact ⟨rfl, h⟩
  | cons item items ih =>
    obtain ⟨hblocks, hitem⟩ := blocks_spec h item
    obtain ⟨hcount, hitems⟩ := ih hitem
    refine ⟨?_, hitems⟩
    simp only [countBlocking, hblocks, hcount, List.filter_cons]
    split <;> rfl

variable {grammar : Grammar}

/-- The items of a production that block, by the bodies analysed for the ones before. -/
theorem foldl_lexical (indexes : List (Fin grammar.size)) (blocking : Fin grammar.size → Nat)
    {regexes : Regexes} (h : Analysed minimumLen regexes) (index : Fin grammar.size) :
    (indexes.foldl (fun (blocking, regexes) index =>
      let (count, regexes) := countBlocking minimumLen regexes (grammar.productions index).items
      (Function.update blocking index count, regexes)) (blocking, regexes)).1 index =
      if index ∈ indexes then
        ((grammar.productions index).items.filter fun item =>
          !item.mayBeEmpty minimumLen).length
      else blocking index := by
  induction indexes generalizing blocking regexes with
  | nil => simp
  | cons first indexes ih =>
    obtain ⟨hcount, hnext⟩ := countBlocking_spec h (grammar.productions first).items
    rw [List.foldl_cons, ih _ hnext]
    by_cases hrest : index ∈ indexes
    · simp [hrest]
    · by_cases hfirst : index = first
      · subst hfirst
        simp [hcount]
      · simp [hrest, hfirst]

theorem lexicalBlocking_eq {index : Fin grammar.size} (h : index ∈ grammar.active) :
    lexicalBlocking minimumLen grammar index =
      ((grammar.productions index).items.filter fun item =>
        !item.mayBeEmpty minimumLen).length := by
  have hempty : Analysed minimumLen [] := by
    intro body mayBeEmpty hlookup
    cases hlookup
  rw [lexicalBlocking, foldl_lexical _ _ hempty, if_pos h]

theorem lexicalBlocking_eq_zero_iff {index : Fin grammar.size} (h : index ∈ grammar.active) :
    lexicalBlocking minimumLen grammar index = 0 ↔
      ∀ item ∈ (grammar.productions index).items, item.mayBeEmpty minimumLen = true := by
  rw [lexicalBlocking_eq h, List.length_eq_zero_iff, List.filter_eq_nil_iff]
  simp

end Lexical

section Nullable

variable {grammar : Grammar} {blocking : Fin grammar.size → Nat}

/-- The productions that match the empty string once their nonterminals do. -/
def Clause (blocking : Fin grammar.size → Nat) (index : Fin grammar.size) : Prop :=
  index ∈ grammar.active ∧ blocking index = 0

/-- The least fixpoint over the productions. -/
def Derives (blocking : Fin grammar.size → Nat) : Fin grammar.sorts → Prop :=
  Derivable (Clause blocking) (fun index => (grammar.productions index).sortIds)
    fun index => (grammar.productions index).resultId

theorem derives_of {index : Fin grammar.size} (hclause : Clause blocking index)
    (h : ∀ sort ∈ (grammar.productions index).sortIds, Derives blocking sort) :
    Derives blocking (grammar.productions index).resultId := .of hclause h

namespace Nullability

variable {state : Nullability grammar}

/-- The result of a production without an occurrence left is nullable afterwards, and it is queued
if it was not before. -/
theorem prove_spec (state : Nullability grammar) (index : Fin grammar.size) :
    (state.prove index).remaining = state.remaining ∧
      (state.prove index).callers = state.callers ∧
      (state.remaining index = 0 →
        (state.prove index).nullable (grammar.productions index).resultId = true) ∧
      ∃ new, (state.prove index).pending = new ++ state.pending ∧ new.Nodup ∧
        (∀ sort, (state.prove index).nullable sort = true ↔
          state.nullable sort = true ∨ sort ∈ new) ∧
        ∀ sort ∈ new, ¬ state.nullable sort = true ∧
          (grammar.productions index).resultId = sort ∧ state.remaining index = 0 := by
  simp only [prove]
  split
  · rename_i hproved
    simp only [Bool.and_eq_true, decide_eq_true_eq, Bool.not_eq_true'] at hproved
    refine ⟨rfl, rfl, fun _ => mark_iff.mpr (.inl rfl), [_], rfl, List.nodup_singleton _, ?_, ?_⟩
    · intro sort
      simp only [mark_iff, List.mem_singleton]
      tauto
    · intro sort hsort
      rw [List.mem_singleton.mp hsort]
      exact ⟨by simp [hproved.2], rfl, hproved.1⟩
  · rename_i hkept
    refine ⟨rfl, rfl, ?_, [], rfl, .nil, by simp, by simp⟩
    intro hzero
    by_contra hfresh
    exact hkept (by simp [hzero, hfresh])

/-- The callers of a sort, discharged in turn. -/
theorem foldl_discharge (callers : List (Fin grammar.size)) (state : Nullability grammar)
    (hcount : ∀ index, callers.count index ≤ state.remaining index) :
    (∀ index, (callers.foldl discharge state).remaining index =
        state.remaining index - callers.count index) ∧
      (callers.foldl discharge state).callers = state.callers ∧
      (∀ index ∈ callers, (callers.foldl discharge state).remaining index = 0 →
        (callers.foldl discharge state).nullable (grammar.productions index).resultId = true) ∧
      ∃ new, (callers.foldl discharge state).pending = new ++ state.pending ∧ new.Nodup ∧
        (∀ sort, (callers.foldl discharge state).nullable sort = true ↔
          state.nullable sort = true ∨ sort ∈ new) ∧
        ∀ sort ∈ new, ¬ state.nullable sort = true ∧ ∃ index ∈ callers,
          (grammar.productions index).resultId = sort ∧
            (callers.foldl discharge state).remaining index = 0 := by
  induction callers generalizing state with
  | nil => exact ⟨fun _ => rfl, rfl, by simp, [], rfl, .nil, by simp, by simp⟩
  | cons caller callers ih =>
    obtain ⟨hremaining, hcallers, hproved, new, hpending, hnodup, hnullable, hnew⟩ :=
      prove_spec { state with
        remaining := Function.update state.remaining caller (state.remaining caller - 1) } caller
    have hone : ∀ index, (discharge state caller).remaining index =
        state.remaining index - if index = caller then 1 else 0 := by
      intro index
      rw [discharge, hremaining]
      by_cases hindex : index = caller
      · subst hindex
        simp
      · simp [hindex]
    have hrest : ∀ index, callers.count index ≤ (discharge state caller).remaining index := by
      intro index
      have := hcount index
      rw [List.count_cons] at this
      rw [hone]
      by_cases hindex : index = caller
      · subst hindex
        simp only [beq_self_eq_true, if_true] at this
        simp only [if_true]
        omega
      · rw [if_neg hindex]
        omega
    obtain ⟨hremaining', hcallers', hproved', new', hpending', hnodup', hnullable', hnew'⟩ :=
      ih (discharge state caller) hrest
    rw [List.foldl_cons]
    refine ⟨?_, hcallers'.trans hcallers, ?_, new' ++ new, ?_, ?_, ?_, ?_⟩
    · intro index
      rw [hremaining', hone, List.count_cons, Nat.sub_sub, Nat.add_comm]
      by_cases hindex : index = caller
      · simp [hindex]
      · simp [hindex, Ne.symm hindex]
    · intro index hindex hzero
      by_cases hmem : index ∈ callers
      · exact hproved' index hmem hzero
      · rcases List.mem_cons.mp hindex with rfl | hmem'
        · rw [hremaining', List.count_eq_zero_of_not_mem hmem, Nat.sub_zero] at hzero
          rw [discharge, hremaining] at hzero
          exact (hnullable' _).mpr (.inl (hproved hzero))
        · exact absurd hmem' hmem
    · rw [hpending', discharge, hpending, List.append_assoc]
    · refine List.nodup_append'.mpr ⟨hnodup', hnodup, fun sort hsort' hsort => ?_⟩
      exact (hnew' sort hsort').1 ((hnullable sort).mpr (.inr hsort))
    · intro sort
      rw [hnullable', discharge, hnullable, List.mem_append]
      tauto
    · intro sort hsort
      rcases List.mem_append.mp hsort with hsort | hsort
      · obtain ⟨hfresh, index, hindex, hresult⟩ := hnew' sort hsort
        exact ⟨fun hold => hfresh ((hnullable sort).mpr (.inl hold)), index,
          List.mem_cons_of_mem _ hindex, hresult⟩
      · obtain ⟨hfresh, hresult, hzero⟩ := hnew sort hsort
        refine ⟨hfresh, caller, List.mem_cons_self, hresult, ?_⟩
        rw [hremaining', discharge, hremaining, hzero, Nat.zero_sub]

/-- What registering a list of productions leads to. -/
structure Registered (blocking : Fin grammar.size → Nat) (seen : List (Fin grammar.size))
    (state : Nullability grammar) : Prop where
  remaining_eq : ∀ index, state.remaining index = ∑ sort, (state.callers sort).count index
  callers_iff : ∀ sort index, index ∈ state.callers sort ↔
    (index ∈ seen ∧ blocking index = 0) ∧ sort ∈ (grammar.productions index).sortIds
  once : state.pending.Nodup
  nullable_iff : ∀ sort, state.nullable sort = true ↔ sort ∈ state.pending
  derived : ∀ sort ∈ state.pending, Derives blocking sort
  proved : ∀ index ∈ seen, blocking index = 0 → state.remaining index = 0 →
    state.nullable (grammar.productions index).resultId = true

theorem count_remaining (index : Fin grammar.size) (state : Nullability grammar)
    (sort : Fin grammar.sorts)
    (h : ∀ other, state.remaining other = ∑ sort, (state.callers sort).count other)
    (other : Fin grammar.size) :
    (count index state sort).remaining other =
      ∑ caller, ((count index state sort).callers caller).count other := by
  have hsum := sum_update (fun _ (callers : List (Fin grammar.size)) => callers.count other)
    state.callers sort (state.callers sort ++ [index])
  rw [List.count_append, ← h other] at hsum
  by_cases hother : other = index
  · subst hother
    simp only [count, Function.update_self, List.count_singleton_self] at hsum ⊢
    omega
  · have hnone : [index].count other = 0 := List.count_eq_zero.mpr (by simpa using hother)
    simp only [count, Function.update_of_ne hother, hnone] at hsum ⊢
    omega

theorem foldl_count (index : Fin grammar.size) (sorts : List (Fin grammar.sorts))
    (state : Nullability grammar)
    (h : ∀ other, state.remaining other = ∑ sort, (state.callers sort).count other) :
    (∀ other, (sorts.foldl (count index) state).remaining other =
        ∑ sort, ((sorts.foldl (count index) state).callers sort).count other) ∧
      (∀ other, other ≠ index →
        (sorts.foldl (count index) state).remaining other = state.remaining other) ∧
      (∀ sort other, other ∈ (sorts.foldl (count index) state).callers sort ↔
        other ∈ state.callers sort ∨ (other = index ∧ sort ∈ sorts)) ∧
      (sorts.foldl (count index) state).nullable = state.nullable ∧
      (sorts.foldl (count index) state).pending = state.pending := by
  induction sorts generalizing state with
  | nil => exact ⟨h, fun _ _ => rfl, by simp, rfl, rfl⟩
  | cons first sorts ih =>
    obtain ⟨hsum, hother, hcallers, hnullable, hpending⟩ :=
      ih (count index state first) (count_remaining index state first h)
    refine ⟨hsum, ?_, ?_, hnullable, hpending⟩
    · intro other hne
      rw [List.foldl_cons, hother other hne]
      exact Function.update_of_ne hne _ _
    · intro sort other
      rw [List.foldl_cons, hcallers]
      by_cases hsort : sort = first
      · subst hsort
        simp only [count, Function.update_self, List.mem_append, List.mem_cons, List.not_mem_nil,
          or_false, true_or, and_true]
        tauto
      · simp only [count, Function.update_of_ne hsort, List.mem_cons, hsort, false_or]

theorem Registered.register {seen : List (Fin grammar.size)}
    (h : Registered blocking seen state) {index : Fin grammar.size}
    (hactive : index ∈ grammar.active) :
    Registered blocking (seen ++ [index]) (state.register blocking index) := by
  unfold Nullability.register
  split
  · rename_i hblocked
    refine ⟨h.remaining_eq, ?_, h.once, h.nullable_iff, h.derived, ?_⟩
    · intro sort other
      rw [h.callers_iff, List.mem_append, List.mem_singleton]
      constructor
      · tauto
      · rintro ⟨⟨hseen | rfl, hzero⟩, hsort⟩
        · exact ⟨⟨hseen, hzero⟩, hsort⟩
        · exact absurd hzero hblocked
    · intro other hother hzero
      rcases List.mem_append.mp hother with hseen | hnew
      · exact h.proved other hseen hzero
      · rw [List.mem_singleton.mp hnew] at hzero
        exact absurd hzero hblocked
  · rename_i hblocking
    have hblocking : blocking index = 0 := not_not.mp hblocking
    obtain ⟨hsum, hkept, hcallers, hnullable, hpending⟩ :=
      foldl_count index (grammar.productions index).sortIds state h.remaining_eq
    generalize (grammar.productions index).sortIds.foldl (count index) state = counted at *
    obtain ⟨hremaining', hcallers', hproved, new, hpending', hnodup, hnullable', hnew⟩ :=
      prove_spec counted index
    have hcallers_iff : ∀ sort other, other ∈ (counted.prove index).callers sort ↔
        (other ∈ seen ++ [index] ∧ blocking other = 0) ∧
          sort ∈ (grammar.productions other).sortIds := by
      intro sort other
      rw [hcallers', hcallers, h.callers_iff, List.mem_append, List.mem_singleton]
      constructor
      · rintro (⟨⟨hseen, hzero⟩, hsort⟩ | ⟨rfl, hsort⟩)
        · exact ⟨⟨.inl hseen, hzero⟩, hsort⟩
        · exact ⟨⟨.inr rfl, hblocking⟩, hsort⟩
      · rintro ⟨⟨hseen | rfl, hzero⟩, hsort⟩
        · exact .inl ⟨⟨hseen, hzero⟩, hsort⟩
        · exact .inr ⟨rfl, hsort⟩
    have hderives : ∀ sort ∈ new, Derives blocking sort := by
      intro sort hsort
      obtain ⟨-, rfl, hzero⟩ := hnew sort hsort
      refine derives_of ⟨hactive, hblocking⟩ fun premise hpremise => ?_
      have hcaller : index ∈ counted.callers premise := (hcallers premise index).mpr
        (.inr ⟨rfl, hpremise⟩)
      rw [hsum, Finset.sum_eq_zero_iff] at hzero
      exact absurd hcaller (List.count_eq_zero.mp (hzero premise (Finset.mem_univ _)))
    refine ⟨?_, hcallers_iff, ?_, ?_, ?_, ?_⟩
    · intro other
      rw [hremaining', hcallers']
      exact hsum other
    · rw [hpending', hpending]
      refine List.nodup_append'.mpr ⟨hnodup, h.once, fun sort hsort hold => ?_⟩
      exact (hnew sort hsort).1 (by rw [hnullable]; exact (h.nullable_iff sort).mpr hold)
    · intro sort
      rw [hnullable', hnullable, h.nullable_iff, hpending', hpending, List.mem_append]
      tauto
    · intro sort hsort
      rw [hpending', hpending] at hsort
      rcases List.mem_append.mp hsort with hsort | hsort
      · exact hderives sort hsort
      · exact h.derived sort hsort
    · intro other hother hzero hleft
      rw [hremaining'] at hleft
      by_cases hindex : other = index
      · subst hindex
        exact hproved hleft
      · have hseen : other ∈ seen := (List.mem_append.mp hother).resolve_right fun hmem =>
          hindex (List.mem_singleton.mp hmem)
        rw [hkept other hindex] at hleft
        refine (hnullable' _).mpr (.inl ?_)
        rw [hnullable]
        exact h.proved other hseen hzero hleft

theorem registered_initial : Registered blocking grammar.active (initial blocking) := by
  have hfold : ∀ indexes : List (Fin grammar.size), (∀ index ∈ indexes, index ∈ grammar.active) →
      ∀ seen state, Registered blocking seen state →
        Registered blocking (seen ++ indexes) (indexes.foldl (register blocking) state) := by
    intro indexes
    induction indexes with
    | nil =>
      intro _ seen state h
      rw [List.append_nil]
      exact h
    | cons index indexes ih =>
      intro hactive seen state h
      obtain ⟨hindex, hrest⟩ := List.forall_mem_cons.mp hactive
      rw [← List.singleton_append, ← List.append_assoc]
      exact ih hrest _ _ (h.register hindex)
  have hstart : Registered blocking [] (⟨fun _ => false, fun _ => 0, fun _ => [], []⟩ :
      Nullability grammar) :=
    ⟨by simp, by simp, .nil, by simp, by simp, by simp⟩
  exact hfold grammar.active (fun _ => id) [] _ hstart

/-- What every turn keeps: the occurrences that are left are those of the sorts that were not
taken from the queue. -/
structure Counted (blocking : Fin grammar.size → Nat) (state : Nullability grammar) : Prop where
  remaining_eq : ∀ index, state.remaining index =
    ∑ sort, if state.nullable sort = true ∧ sort ∉ state.pending then 0
      else (state.callers sort).count index
  callers_iff : ∀ sort index, index ∈ state.callers sort ↔
    Clause blocking index ∧ sort ∈ (grammar.productions index).sortIds
  once : state.pending.Nodup
  queued : ∀ sort ∈ state.pending, state.nullable sort = true
  derived : ∀ sort, state.nullable sort = true → Derives blocking sort
  proved : ∀ index, Clause blocking index → state.remaining index = 0 →
    state.nullable (grammar.productions index).resultId = true

theorem counted_initial : Counted blocking (initial blocking) where
  remaining_eq index := by
    rw [registered_initial.remaining_eq]
    refine Finset.sum_congr rfl fun sort _ => ?_
    rw [if_neg]
    rintro ⟨hnullable, hpending⟩
    exact hpending ((registered_initial.nullable_iff sort).mp hnullable)
  callers_iff := registered_initial.callers_iff
  once := registered_initial.once
  queued sort hsort := (registered_initial.nullable_iff sort).mpr hsort
  derived sort hsort :=
    registered_initial.derived sort ((registered_initial.nullable_iff sort).mp hsort)
  proved index hindex := registered_initial.proved index hindex.1 hindex.2

/-- The next sort of the queue is taken, and its callers are discharged. -/
theorem Counted.turn {state' : Nullability grammar} (h : Counted blocking state)
    (hturn : state.turn = .inr state') : Counted blocking state' := by
  unfold Nullability.turn at hturn
  split at hturn
  · cases hturn
  · rename_i sort pending hpending
    cases hturn
    have hsort : sort ∈ state.pending := by rw [hpending]; exact List.mem_cons_self
    have honce := h.once
    rw [hpending, List.nodup_cons] at honce
    -- What is left of a caller besides its occurrences of the sort.
    have hsplit : ∀ index, state.remaining index =
        (∑ other, if state.nullable other = true ∧ other ∉ pending then 0
          else (state.callers other).count index) + (state.callers sort).count index := by
      intro index
      have hrest : ∀ other ∈ Finset.univ.erase sort,
          (if state.nullable other = true ∧ other ∉ state.pending then 0
            else (state.callers other).count index) =
          if state.nullable other = true ∧ other ∉ pending then 0
            else (state.callers other).count index := by
        intro other hother
        rw [hpending]
        simp only [List.mem_cons, Finset.ne_of_mem_erase hother, false_or]
      rw [h.remaining_eq, ← Finset.add_sum_erase _ _ (Finset.mem_univ sort),
        ← Finset.add_sum_erase Finset.univ (fun other =>
          if state.nullable other = true ∧ other ∉ pending then 0
          else (state.callers other).count index) (Finset.mem_univ sort),
        Finset.sum_congr rfl hrest, if_neg (fun hdone => hdone.2 hsort),
        if_pos ⟨h.queued sort hsort, honce.1⟩]
      omega
    obtain ⟨hremaining, hcallers, hproved, new, hpending', hnodup, hnullable, hnew⟩ :=
      foldl_discharge (state.callers sort) { state with pending := pending } (by
        intro index
        rw [hsplit index]
        exact Nat.le_add_left _ _)
    have hleft : ∀ index,
        ((state.callers sort).foldl discharge { state with pending := pending }).remaining index =
          ∑ other, if state.nullable other = true ∧ other ∉ pending then 0
            else (state.callers other).count index := by
      intro index
      rw [hremaining, hsplit index, Nat.add_sub_cancel]
    refine ⟨?_, ?_, ?_, ?_, ?_, ?_⟩
    · intro index
      rw [hleft, hcallers]
      refine Finset.sum_congr rfl fun other _ => ?_
      have hiff : (state.nullable other = true ∧ other ∉ pending) ↔
          (((state.callers sort).foldl discharge { state with pending := pending }).nullable
              other = true ∧
            other ∉
              ((state.callers sort).foldl discharge { state with pending := pending }).pending) := by
        rw [hnullable, hpending', List.mem_append]
        constructor
        · rintro ⟨hold, hgone⟩
          exact ⟨.inl hold, not_or.mpr ⟨fun hmem => (hnew other hmem).1 hold, hgone⟩⟩
        · rintro ⟨hold | hmem, hgone⟩
          · exact ⟨hold, (not_or.mp hgone).2⟩
          · exact absurd hmem (not_or.mp hgone).1
      exact if_congr hiff rfl rfl
    · intro other index
      rw [hcallers]
      exact h.callers_iff other index
    · rw [hpending']
      refine List.nodup_append'.mpr ⟨hnodup, honce.2, fun other hmem hold => ?_⟩
      refine (hnew other hmem).1 (h.queued other ?_)
      rw [hpending]
      exact List.mem_cons_of_mem _ hold
    · intro other hother
      rw [hpending'] at hother
      rw [hnullable]
      rcases List.mem_append.mp hother with hmem | hold
      · exact .inr hmem
      · refine .inl (h.queued other ?_)
        rw [hpending]
        exact List.mem_cons_of_mem _ hold
    · intro other hother
      rcases (hnullable other).mp hother with hold | hmem
      · exact h.derived other hold
      · obtain ⟨-, index, hindex, rfl, hzero⟩ := hnew other hmem
        refine derives_of ((h.callers_iff sort index).mp hindex).1 fun premise hpremise => ?_
        rw [hleft, Finset.sum_eq_zero_iff] at hzero
        have hpremise' := hzero premise (Finset.mem_univ _)
        split at hpremise'
        · rename_i hdone
          exact h.derived premise hdone.1
        · exact absurd ((h.callers_iff premise index).mpr
            ⟨((h.callers_iff sort index).mp hindex).1, hpremise⟩) (List.count_eq_zero.mp hpremise')
    · intro index hindex hzero
      by_cases hcaller : index ∈ state.callers sort
      · exact hproved index hcaller hzero
      · rw [hremaining, List.count_eq_zero_of_not_mem hcaller, Nat.sub_zero] at hzero
        exact (hnullable _).mpr (.inl (h.proved index hindex hzero))

theorem Counted.run (h : Counted blocking state) (sort : Fin grammar.sorts) :
    (loop grammar).run state sort = true ↔ Derives blocking sort := by
  refine (loop grammar).run_spec (Q := fun state nullable => Counted blocking state →
    (nullable sort = true ↔ Derives blocking sort)) ?_ ?_ state h
  · intro state nullable hturn hcounted
    simp only [loop, Nullability.turn] at hturn
    split at hturn
    · rename_i hpending
      cases hturn
      refine derivable_iff (fun sort => state.nullable sort = true) ?_ hcounted.derived sort
      intro index hindex hpremises
      apply hcounted.proved index hindex
      rw [hcounted.remaining_eq, Finset.sum_eq_zero_iff]
      intro other _
      rw [hpending]
      by_cases hother : state.nullable other = true
      · rw [if_pos ⟨hother, List.not_mem_nil⟩]
      · rw [if_neg (fun hdone => hother hdone.1), List.count_eq_zero]
        intro hcaller
        exact hother (hpremises other ((hcounted.callers_iff other index).mp hcaller).2)
    · cases hturn
  · intro state next nullable hturn hrest hcounted
    exact hrest (hcounted.turn hturn)

end Nullability

variable {minimumLen : MinimumLen}

theorem nullable_iff (sort : Fin grammar.sorts) :
    nullable minimumLen grammar sort = true ↔
      Derives (lexicalBlocking minimumLen grammar) sort :=
  Nullability.counted_initial.run sort

end Nullable

end KRust.Inner.Cycles
