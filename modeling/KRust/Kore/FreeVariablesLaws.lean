import KRust.Kore.FreeVariables

/-!
The walk finds the variables that occur free, and a replacement is made where no binder is in its
way: it is then the pattern with the replacement for every free occurrence, and means what the
pattern means where the variable has the meaning of the replacement.
-/

set_option linter.unusedSectionVars false

namespace KRust.Kore

open KRust.Lib

namespace Pattern

section Scoping

def asVariable : Pattern → Option Variable
  | .var v => some v
  | _ => none

/-- A node without what is below it. -/
def label (p : Pattern) : Pattern := p.setChildren (p.children.map fun _ => .string [])

theorem asVariable_label (p : Pattern) : p.label.asVariable = p.asVariable := by
  cases p <;> rfl

theorem binder_label (p : Pattern) : p.label.binder = p.binder := by
  cases p <;> rfl

theorem children_of_asVariable {p : Pattern} {v : Variable} (h : p.asVariable = some v) :
    p = .var v := by
  cases p <;> cases h
  rfl

theorem label_setChildren {p : Pattern} {cs : List Pattern} (h : cs.length = p.children.length) :
    (p.setChildren cs).label = p.label := by
  have hmap : ∀ xs ys : List Pattern, xs.length = ys.length →
      xs.map (fun _ => Pattern.string []) = ys.map fun _ => Pattern.string [] := by
    intro xs ys hlength
    rw [List.map_const', List.map_const', hlength]
  unfold label
  rw [children_setChildren h, hmap cs p.children h]
  cases p <;> simp only [children, List.length_cons, List.length_nil] at h
  case application | and | or | associativeApplication => rfl
  case string | var | top | bottom | domainValue => rfl
  case implies | iff | rewrites | equals | «in» =>
    obtain ⟨c, d, rfl⟩ := List.length_eq_two.mp h
    rfl
  all_goals
    obtain ⟨c, rfl⟩ := List.length_eq_one_iff.mp h
    rfl

/-- The scopes of patterns. -/
def scoping : Binding Pattern Variable Pattern where
  label := label
  children := children
  leaf := asVariable
  leaf_children p v h := by
    rw [asVariable_label] at h
    rw [children_of_asVariable h]
    rfl
  binder := binder
  induct := children_induction

theorem leaf_scoping (p : Pattern) : scoping.leaf (scoping.label p) = p.asVariable :=
  asVariable_label p

theorem binder_scoping (p : Pattern) : scoping.binder (scoping.label p) = p.binder := binder_label p

/-- A variable is free in a node that is the variable, or below a node that binds another. -/
theorem free_iff {v : Variable} {p : Pattern} : scoping.Free v p ↔
    p = .var v ∨ ∃ c ∈ p.children, p.binder ≠ some v ∧ scoping.Free v c := by
  constructor
  · intro h
    cases h with
    | leaf hleaf =>
      rw [leaf_scoping] at hleaf
      exact .inl (children_of_asVariable hleaf)
    | under hc hv h =>
      rw [binder_scoping] at hv
      exact .inr ⟨_, hc, hv, h⟩
  · rintro (rfl | ⟨c, hc, hv, h⟩)
    · exact .leaf rfl
    · exact .under hc (by rwa [binder_scoping]) h

theorem binds_iff {v : Variable} {p : Pattern} : scoping.Binds v p ↔
    p.binder = some v ∨ ∃ c ∈ p.children, scoping.Binds v c := by
  constructor
  · intro h
    cases h with
    | here h =>
      rw [binder_scoping] at h
      exact .inl h
    | under hc h => exact .inr ⟨_, hc, h⟩
  · rintro (h | ⟨c, hc, h⟩)
    · exact .here (by rwa [binder_scoping])
    · exact .under hc h

end Scoping

section Walks

/-- The counts hold no zero. -/
def FreeState.Counted (s : FreeState) : Prop := ∀ v, s.bound v ≠ some 0

theorem FreeState.bound_setBound (s : FreeState) (v u : Variable) (count : Option Nat) :
    (s.setBound v count).bound u = if u = v then count else s.bound u := rfl

theorem FreeState.bound_enter (s : FreeState) (p : Pattern) (u : Variable) :
    (s.enter p).bound u =
      if p.binder = some u then some ((s.bound u).getD 0 + 1) else s.bound u := by
  cases p with
  | var v =>
    unfold enter binder
    by_cases hbound : (s.bound v).isSome <;> simp [hbound, insert]
  | «exists» | «forall» | mu | nu =>
    rename_i v _
    by_cases huv : u = v
    · subst huv
      simp [enter, binder, setBound]
    · simp [enter, binder, setBound, huv, Ne.symm huv]
  | _ => simp [enter, binder]

theorem FreeState.mem_result_enter (s : FreeState) (p : Pattern) (u : Variable) :
    u ∈ (s.enter p).result ↔ u ∈ s.result ∨ p = .var u ∧ s.bound u = none := by
  cases p with
  | var v =>
    unfold enter binder
    by_cases hbound : (s.bound v).isSome
    · simp only [hbound, if_true]
      constructor
      · exact .inl
      · rintro (h | ⟨heq, hnone⟩)
        · exact h
        · cases heq
          rw [hnone] at hbound
          cases hbound
    · have hnone : s.bound v = none := Option.not_isSome_iff_eq_none.mp hbound
      simp only [hbound, Bool.false_eq_true, if_false, insert, Finset.mem_insert]
      constructor
      · rintro (rfl | h)
        · exact .inr ⟨rfl, hnone⟩
        · exact .inl h
      · rintro (h | ⟨heq, -⟩)
        · exact .inr h
        · cases heq
          exact .inl rfl
  | «exists» | «forall» | mu | nu => simp [enter, binder, setBound]
  | _ => simp [enter, binder]

theorem FreeState.counted_enter {s : FreeState} (h : s.Counted) (p : Pattern) :
    (s.enter p).Counted := by
  intro v
  rw [bound_enter]
  split
  · simp
  · exact h v

/-- A walk of a pattern adds what is free in it and not bound yet, and leaves every binder. -/
def Walked (tasks : List Step) (patterns : List Pattern) : Prop :=
  ∀ s : FreeState, s.Counted → ∃ s', freeWalk.run tasks s = some s' ∧ s'.bound = s.bound ∧
    ∀ v, v ∈ s'.result ↔ v ∈ s.result ∨ s.bound v = none ∧ ∃ p ∈ patterns, scoping.Free v p

theorem walked_all {patterns : List Pattern} (h : ∀ p ∈ patterns, Walked [.enter p] [p]) :
    Walked (patterns.map .enter) patterns := by
  induction patterns with
  | nil =>
    intro s _
    exact ⟨s, freeWalk.run_nil s, rfl, by simp⟩
  | cons p patterns ih =>
    rw [List.forall_mem_cons] at h
    intro s hs
    obtain ⟨s', hrun, hbound, hresult⟩ := h.1 s hs
    have hs' : s'.Counted := by
      intro v
      rw [hbound]
      exact hs v
    obtain ⟨s'', hrun', hbound', hresult'⟩ := ih h.2 s' hs'
    refine ⟨s'', ?_, hbound'.trans hbound, fun v => ?_⟩
    · rw [List.map_cons, freeWalk.run_cons_of hrun, hrun']
    · rw [hresult', hresult, hbound]
      simp only [List.mem_cons, exists_eq_or_imp]
      tauto

theorem walked (p : Pattern) : Walked [.enter p] [p] := by
  induction p using children_induction with
  | node p ih =>
    intro s hs
    obtain ⟨inner, hrun, hbound, hresult⟩ := walked_all ih (s.enter p) (s.counted_enter hs p)
    have hfree : ∀ v, v ∈ inner.result ↔
        v ∈ s.result ∨ s.bound v = none ∧ ∃ q ∈ [p], scoping.Free v q := by
      intro v
      rw [hresult, s.mem_result_enter, s.bound_enter]
      simp only [List.mem_singleton, exists_eq_left]
      rw [free_iff (p := p)]
      by_cases hbinder : p.binder = some v
      · simp only [hbinder, if_true, reduceCtorEq, false_and, ne_eq, not_true_eq_false, and_false,
          exists_false, or_false]
        tauto
      · simp only [hbinder, if_false, ne_eq, not_false_eq_true, true_and]
        tauto
    cases hbinder : p.binder with
    | none =>
      have hpending : freeWalk.pending (.enter p) = p.children.map .enter := by
        simp [freeWalk, hbinder]
      refine ⟨inner, ?_, ?_, hfree⟩
      · exact freeWalk.run_single rfl (by rw [hpending, hrun])
      · rw [hbound]
        funext v
        rw [s.bound_enter, hbinder, if_neg (by simp)]
    | some v =>
      have hpending : freeWalk.pending (.enter p) = p.children.map .enter ++ [.leave v] := by
        simp [freeWalk, hbinder]
      have hcount : inner.bound v = some ((s.bound v).getD 0 + 1) := by
        rw [hbound, s.bound_enter, if_pos hbinder]
      have hleave : freeWalk.run [.leave v] inner =
          some (inner.setBound v (if (s.bound v).getD 0 = 0 then none
            else some ((s.bound v).getD 0))) := by
        refine freeWalk.run_single ?_ (freeWalk.run_nil _)
        change inner.leave v = _
        rw [FreeState.leave, hcount]
        rfl
      refine ⟨inner.setBound v (if (s.bound v).getD 0 = 0 then none
        else some ((s.bound v).getD 0)), freeWalk.run_single rfl ?_, ?_, hfree⟩
      · rw [hpending, freeWalk.run_append, hrun, Option.bind_some]
        exact hleave
      · funext u
        by_cases huv : u = v
        · subst huv
          rw [FreeState.bound_setBound, if_pos rfl]
          cases hold : s.bound u with
          | none => rfl
          | some count =>
            have hne : count ≠ 0 := by
              rintro rfl
              exact hs u hold
            rw [Option.getD_some, if_neg hne]
        · have hother : p.binder ≠ some u := by
            rw [hbinder]
            exact fun heq => huv (Option.some.inj heq).symm
          rw [FreeState.bound_setBound, if_neg huv, hbound, s.bound_enter, if_neg hother]

/-- The walk finds the variables that occur free. -/
theorem freeVariables_spec (p : Pattern) :
    ∃ free, p.freeVariables = some free ∧ ∀ v, v ∈ free ↔ scoping.Free v p := by
  have hstart : (⟨∅, fun _ => none⟩ : FreeState).Counted := by
    intro v h
    cases h
  obtain ⟨s, hrun, -, hresult⟩ := walked p _ hstart
  refine ⟨s.result, by rw [freeVariables, hrun, Option.map_some], fun v => ?_⟩
  rw [hresult]
  simp

/-- The visits of some patterns find the binders in the way. -/
def Noted (v : Variable) (free : Finset Variable) (tasks : List (Pattern × Bool))
    (patterns : List Pattern) : Prop :=
  ∀ captured, ∃ found, (postOrder (noteCaptured v free)).run tasks captured = some found ∧
    (found = true ↔
      captured = true ∨ ∃ u, (∃ p ∈ patterns, scoping.Binds u p) ∧ (u = v ∨ u ∈ free))

theorem noted_all {v : Variable} {free : Finset Variable} {patterns : List Pattern}
    (h : ∀ p ∈ patterns, Noted v free [(p, false)] [p]) :
    Noted v free (patterns.map (·, false)) patterns := by
  induction patterns with
  | nil =>
    intro captured
    exact ⟨captured, (postOrder _).run_nil captured, by simp⟩
  | cons p patterns ih =>
    rw [List.forall_mem_cons] at h
    intro captured
    obtain ⟨found, hrun, hfound⟩ := h.1 captured
    obtain ⟨found', hrun', hfound'⟩ := ih h.2 found
    refine ⟨found', ?_, ?_⟩
    · rw [List.map_cons, (postOrder _).run_cons_of hrun, hrun']
    · rw [hfound', hfound]
      simp only [List.mem_singleton, exists_eq_left, List.exists_mem_cons_iff, or_and_right,
        exists_or, or_assoc]

theorem noteCaptured_iff {v : Variable} {free : Finset Variable} {p : Pattern}
    {captured : Bool} : noteCaptured v free p captured = true ↔
      captured = true ∨ ∃ u, p.binder = some u ∧ (u = v ∨ u ∈ free) := by
  unfold noteCaptured
  cases p.binder with
  | none => simp
  | some bound => simp

theorem noted (v : Variable) (free : Finset Variable) (p : Pattern) :
    Noted v free [(p, false)] [p] := by
  induction p using children_induction with
  | node p ih =>
    intro captured
    obtain ⟨found, hrun, hfound⟩ := noted_all ih captured
    have hvisit : (postOrder (noteCaptured v free)).run [(p, true)] found =
        some (noteCaptured v free p found) :=
      (postOrder _).run_single rfl ((postOrder _).run_nil _)
    refine ⟨noteCaptured v free p found, (postOrder _).run_single rfl ?_, ?_⟩
    · change (postOrder _).run (p.children.map (·, false) ++ [(p, true)]) captured = _
      rw [(postOrder _).run_append, hrun, Option.bind_some, hvisit]
    · rw [noteCaptured_iff, hfound]
      simp only [List.mem_singleton, exists_eq_left, binds_iff (p := p), or_and_right, exists_or]
      rw [or_assoc]
      exact or_congr Iff.rfl or_comm

end Walks

section Replacement

theorem mapM_replaced {v : Variable} {r : Pattern} {f : Pattern → Option Pattern}
    {patterns : List Pattern} (h : ∀ p ∈ patterns, ∃ q, f p = some q ∧ scoping.Replaced v r p q) :
    ∃ qs, patterns.mapM f = some qs ∧ List.Forall₂ (scoping.Replaced v r) patterns qs := by
  induction patterns with
  | nil => exact ⟨[], rfl, .nil⟩
  | cons p patterns ih =>
    rw [List.forall_mem_cons] at h
    obtain ⟨q, hq, hreplaced⟩ := h.1
    obtain ⟨qs, hqs, hall⟩ := ih h.2
    refine ⟨q :: qs, ?_, .cons hreplaced hall⟩
    rw [List.mapM_cons, hq, hqs]
    rfl

theorem rebuild_replaceNode {v : Variable} {r p : Pattern} (hclear : scoping.Clear v r p) :
    ∃ q, p.rebuild (replaceNode v r) = some q ∧ scoping.Replaced v r p q := by
  induction p using children_induction with
  | node p ih =>
    have hchildren : ∃ qs, p.children.mapM (rebuild (replaceNode v r)) = some qs ∧
        List.Forall₂ (scoping.Replaced v r) p.children qs :=
      mapM_replaced fun c hc => ih c hc (hclear.below hc)
    obtain ⟨qs, hqs, hreplaced⟩ := hchildren
    rw [rebuild_eq, hqs, Option.bind_some]
    by_cases hvar : p = .var v
    · subst hvar
      exact ⟨r, if_pos rfl, .leaf rfl⟩
    · have hnode : replaceNode v r p qs = p.cloneNode qs := by
        cases p <;> try rfl
        case var found =>
          have hne : found ≠ v := fun heq => hvar (congrArg var heq)
          exact if_neg hne
      have hlength : qs.length = p.children.length := hreplaced.length_eq.symm
      refine ⟨p.setChildren qs, hnode.trans (cloneNode_of_length hlength), ?_⟩
      refine .node ?_ ?_ (label_setChildren hlength) ?_
      · rw [leaf_scoping]
        exact fun heq => hvar (children_of_asVariable heq)
      · exact fun heq => (hclear v (.here heq)).1 rfl
      · change List.Forall₂ _ p.children (p.setChildren qs).children
        rwa [children_setChildren hlength]

theorem clear_iff {v : Variable} {r p : Pattern} : scoping.Clear v r p ↔
    ¬ ∃ u, scoping.Binds u p ∧ (u = v ∨ scoping.Free u r) := by
  constructor
  · rintro h ⟨u, hu, rfl | hfree⟩
    · exact (h u hu).1 rfl
    · exact (h u hu).2 hfree
  · exact fun h u hu => ⟨fun heq => h ⟨u, hu, .inl heq⟩, fun hfree => h ⟨u, hu, .inr hfree⟩⟩

/-- A replacement is refused where a binder is in its way, and made where none is. -/
theorem substituteFree_spec (p : Pattern) (v : Variable) (r : Pattern) :
    (¬ scoping.Clear v r p ∧ p.substituteFree v r = some none) ∨
      (scoping.Clear v r p ∧ ∃ q, p.substituteFree v r = some (some q) ∧
        scoping.Replaced v r p q) := by
  obtain ⟨free, hfree, hmem⟩ := r.freeVariables_spec
  obtain ⟨captured, hrun, hcaptured⟩ := noted v free p false
  simp only [List.mem_singleton, exists_eq_left, Bool.false_eq_true, false_or, hmem] at hcaptured
  have hwalk : p.forEachPostOrder (noteCaptured v free) false = some captured := hrun
  unfold substituteFree
  rw [hfree, Option.bind_eq_bind, Option.bind_some, hwalk, Option.bind_eq_bind, Option.bind_some]
  by_cases hclear : scoping.Clear v r p
  · have hnot : captured ≠ true := fun h => clear_iff.mp hclear (hcaptured.mp h)
    obtain ⟨q, hq, hreplaced⟩ := rebuild_replaceNode hclear
    refine .inr ⟨hclear, q, ?_, hreplaced⟩
    rw [if_neg hnot, hq]
    rfl
  · have hyes : captured = true := hcaptured.mpr (not_not.mp fun h => hclear (clear_iff.mpr h))
    exact .inl ⟨hclear, if_pos hyes⟩

end Replacement

/-- The variables found are those that occur free. A replacement is refused exactly where a binder
binds the variable or a free variable of the replacement; else it puts the replacement for every
free occurrence, and the result means what the pattern means where the variable has the meaning of
the replacement. -/
theorem substituteFree_captures_nothing (p : Pattern) :
    (∃ free, p.freeVariables = some free ∧ ∀ v, v ∈ free ↔ scoping.Free v p) ∧
      ∀ (v : Variable) (replacement : Pattern),
        (p.substituteFree v replacement).isSome ∧
        (p.substituteFree v replacement = some none ↔
          ∃ u, scoping.Binds u p ∧ (u = v ∨ scoping.Free u replacement)) ∧
        ∀ q, p.substituteFree v replacement = some (some q) →
          scoping.Replaced v replacement p q ∧
          (∀ u, scoping.Free u q ↔
            u ≠ v ∧ scoping.Free u p ∨ scoping.Free v p ∧ scoping.Free u replacement) ∧
          ∀ (D : Type) (m : scoping.Meaning D) (ρ : Variable → D),
            m.eval ρ q = m.eval (Function.update ρ v (m.eval ρ replacement)) p := by
  refine ⟨p.freeVariables_spec, fun v r => ?_⟩
  rcases p.substituteFree_spec v r with ⟨hclear, hnone⟩ | ⟨hclear, q, hq, hreplaced⟩
  · rw [hnone]
    refine ⟨rfl, iff_of_true rfl ?_, fun q hq => by cases hq⟩
    exact not_not.mp fun h => hclear (clear_iff.mpr h)
  · rw [hq]
    refine ⟨rfl, iff_of_false (by simp) (clear_iff.mp hclear), fun q' hq' => ?_⟩
    cases hq'
    exact ⟨hreplaced, hreplaced.free_iff hclear, fun D m ρ => hreplaced.eval m hclear ρ⟩

theorem substituteFree_captures_nothing_under :
    (Pattern.exists (.var "S") ⟨.element, "X", .var "S"⟩
        (.var ⟨.element, "Y", .var "S"⟩)).substituteFree ⟨.element, "Y", .var "S"⟩
          (.var ⟨.element, "X", .var "S"⟩) = some none ∧
      ∃ q, (Pattern.exists (.var "S") ⟨.element, "X", .var "S"⟩
        (.var ⟨.element, "Y", .var "S"⟩)).substituteFree ⟨.element, "Y", .var "S"⟩
          (.var ⟨.element, "Z", .var "S"⟩) = some (some q) ∧
        scoping.Free ⟨.element, "Z", .var "S"⟩ q := by
  have hfree : ∀ v, scoping.Free v (.var v) := fun v => free_iff.mpr (.inl rfl)
  have hall := (substituteFree_captures_nothing (.exists (.var "S")
    ⟨.element, "X", .var "S"⟩ (.var ⟨.element, "Y", .var "S"⟩))).2
      ⟨.element, "Y", .var "S"⟩
  refine ⟨(hall _).2.1.mpr ⟨_, binds_iff.mpr (.inl rfl), .inr (hfree _)⟩, ?_⟩
  obtain ⟨hsome, hnone, hmade⟩ := hall (.var ⟨.element, "Z", .var "S"⟩)
  obtain ⟨result, hresult⟩ := Option.isSome_iff_exists.mp hsome
  cases result with
  | none =>
    -- The only binder is of `X`, which is neither `Y` nor free in `Z`.
    obtain ⟨u, hbinds, hu⟩ := hnone.mp hresult
    have hbound : u = ⟨.element, "X", .var "S"⟩ := by
      rcases binds_iff.mp hbinds with h | ⟨c, hc, h⟩
      · exact (Option.some.inj h).symm
      · rw [List.mem_singleton.mp hc] at h
        rcases binds_iff.mp h with h | ⟨c, hc, -⟩ <;> contradiction
    subst hbound
    rcases hu with hu | hu
    · exact absurd hu (by decide)
    · rcases free_iff.mp hu with h | ⟨c, hc, -⟩
      · exact absurd (Pattern.var.inj h) (by decide)
      · contradiction
  | some q =>
    refine ⟨q, hresult, ((hmade q hresult).2.1 _).mpr (.inr ⟨?_, hfree _⟩)⟩
    exact free_iff.mpr (.inr ⟨_, List.mem_singleton_self _, by decide, hfree _⟩)

end Pattern

end KRust.Kore
