import KRust.Backend.Order

/-!
The apartness skeleton of a term: the term without the texts of its domain values. Keys that
have a header are compared by their skeletons on a work list.
-/

namespace KRust.Backend.Term

open KRust.Kore

section Definitions

/-- The term with the texts of its domain values erased, down to the first node that is no
domain value, injection or application. -/
def skeleton : Term → Term
  | .application symbol sortArguments arguments =>
    .application symbol sortArguments (skeletons arguments)
  | .domainValue sort _ => .domainValue sort []
  | .injection source target term => .injection source target (skeleton term)
  | term => term
where
  skeletons : List Term → List Term
  | [] => []
  | term :: terms => skeleton term :: skeletons terms

/-- A term of domain values, injections and applications of free constructors. -/
def headed : Term → Bool
  | .application symbol _ arguments =>
    symbol.attributes.headRole = .freeConstructor && allHeaded arguments
  | .domainValue _ _ => true
  | .injection _ _ term => headed term
  | _ => false
where
  allHeaded : List Term → Bool
  | [] => true
  | term :: terms => headed term && allHeaded terms

/-- A term of domain values, injections and applications. -/
def bare : Term → Bool
  | .application _ _ arguments => allBare arguments
  | .domainValue _ _ => true
  | .injection _ _ term => bare term
  | _ => false
where
  allBare : List Term → Bool
  | [] => true
  | term :: terms => bare term && allBare terms

/-- The weight of what a walk has pending. -/
noncomputable def pendingWeight (pending : List Term) : Nat := (pending.map sizeOf).sum

theorem pendingWeight_cons (t : Term) (ts : List Term) :
    pendingWeight (t :: ts) = sizeOf t + pendingWeight ts := rfl

theorem pendingWeight_append (ts us : List Term) :
    pendingWeight (ts ++ us) = pendingWeight ts + pendingWeight us := by
  rw [pendingWeight, List.map_append, List.sum_append]
  rfl

theorem pendingWeight_reverse (ts : List Term) : pendingWeight ts.reverse = pendingWeight ts := by
  rw [pendingWeight, List.map_reverse, List.sum_reverse]
  rfl

theorem pendingWeight_lt (ts : List Term) : pendingWeight ts < sizeOf ts := by
  induction ts with
  | nil => simp [pendingWeight]
  | cons t ts ih =>
    rw [pendingWeight_cons, List.cons.sizeOf_spec]
    omega

theorem pendingWeight_zip (ts us : List Term) :
    pendingWeight ((ts.zip us).map Prod.fst) ≤ pendingWeight ts := by
  induction ts generalizing us with
  | nil => simp
  | cons t ts ih =>
    cases us with
    | nil => simp [pendingWeight]
    | cons u us =>
      simp only [List.zip_cons_cons, List.map_cons, pendingWeight_cons]
      have := ih us
      omega

/-- `key_header_walk`: the first argument is taken in place, the others are pending. -/
def keyHeaderWalk (node : Term) (pending : List Term) : Bool :=
  match node, pending with
  | .domainValue _ _, [] => true
  | .domainValue _ _, next :: pending => keyHeaderWalk next pending
  | .injection _ _ term, pending => keyHeaderWalk term pending
  | .application symbol _ arguments, pending =>
    if symbol.attributes.headRole = .freeConstructor then
      match arguments, pending with
      | first :: others, pending => keyHeaderWalk first (others.reverseAux pending)
      | [], next :: pending => keyHeaderWalk next pending
      | [], [] => true
    else false
  | _, _ => false
termination_by sizeOf node + pendingWeight pending
decreasing_by
  · simp only [pendingWeight_cons, domainValue.sizeOf_spec]
    omega
  · simp only [injection.sizeOf_spec]
    omega
  · simp only [List.reverseAux_eq, pendingWeight_append, pendingWeight_reverse,
      application.sizeOf_spec, List.cons.sizeOf_spec]
    have := pendingWeight_lt others
    omega
  · simp only [pendingWeight_cons, application.sizeOf_spec]
    omega

/-- `same_apart_skeleton` with the pairs that are pending. -/
def sameSkeletonWalk (left right : Term) (pending : List (Term × Term)) : Bool :=
  match left, right, pending with
  | .domainValue leftSort _, .domainValue rightSort _, pending =>
    if leftSort = rightSort then
      match pending with
      | [] => true
      | next :: pending => sameSkeletonWalk next.1 next.2 pending
    else false
  | .injection leftSource leftTarget left, .injection rightSource rightTarget right, pending =>
    if leftSource = rightSource ∧ leftTarget = rightTarget then
      sameSkeletonWalk left right pending
    else false
  | .application leftSymbol leftSorts leftArguments,
      .application rightSymbol rightSorts rightArguments, pending =>
    if leftSymbol = rightSymbol ∧ leftSorts = rightSorts ∧
        leftArguments.length = rightArguments.length then
      match leftArguments, rightArguments, pending with
      | left :: lefts, right :: rights, pending =>
        sameSkeletonWalk left right ((lefts.zip rights).reverseAux pending)
      | _, _, next :: pending => sameSkeletonWalk next.1 next.2 pending
      | _, _, [] => true
    else false
  | _, _, _ => false
termination_by sizeOf left + pendingWeight (pending.map Prod.fst)
decreasing_by
  · simp only [List.map_cons, pendingWeight_cons, domainValue.sizeOf_spec]
    omega
  · simp only [injection.sizeOf_spec]
    omega
  · have hle := pendingWeight_zip lefts rights
    have := pendingWeight_lt lefts
    simp only [List.reverseAux_eq, List.map_append, List.map_reverse, pendingWeight_append,
      pendingWeight_reverse,
      application.sizeOf_spec, List.cons.sizeOf_spec]
    omega
  · simp only [List.map_cons, pendingWeight_cons, application.sizeOf_spec]
    omega

/-- `same_apart_skeleton` -/
def sameApartSkeleton (left right : Term) : Bool := sameSkeletonWalk left right []

end Definitions

section Walks

@[simp]
theorem skeletons_eq (terms : List Term) : skeleton.skeletons terms = terms.map skeleton := by
  induction terms with
  | nil => rfl
  | cons term terms ih => rw [skeleton.skeletons, ih, List.map_cons]

@[simp]
theorem allHeaded_eq (terms : List Term) : headed.allHeaded terms = terms.all headed := by
  induction terms with
  | nil => rfl
  | cons term terms ih => rw [headed.allHeaded, ih, List.all_cons]

/-- The walk finds out whether all it has to walk is headed. -/
theorem keyHeaderWalk_eq (node : Term) (pending : List Term) :
    keyHeaderWalk node pending = (headed node && pending.all headed) := by
  fun_induction keyHeaderWalk node pending with
  | case1 => rfl
  | case2 sort value next pending ih =>
    rw [ih, headed, List.all_cons, Bool.true_and]
  | case3 source target term pending ih => rw [ih, headed]
  | case4 symbol _ hfree first others pending ih =>
    rw [List.reverseAux_eq] at ih
    simp [ih, headed, hfree, Bool.and_assoc]
  | case5 symbol _ hfree next pending ih =>
    simp [ih, headed, hfree]
  | case6 symbol _ hfree => simp [headed, hfree]
  | case7 symbol _ arguments pending hother => simp [headed, hother]
  | case8 node pending => cases node <;> cases pending <;> grind [headed]

@[simp]
theorem allBare_eq (terms : List Term) : bare.allBare terms = terms.all bare := by
  induction terms with
  | nil => rfl
  | cons term terms ih => rw [bare.allBare, ih, List.all_cons]

theorem bare_of_headed {t : Term} (h : headed t = true) : bare t = true := by
  induction t with
  | application symbol sortArguments arguments ih =>
    rw [headed, allHeaded_eq, Bool.and_eq_true, List.all_eq_true] at h
    rw [bare, allBare_eq, List.all_eq_true]
    exact fun a ha => ih a ha (h.2 a ha)
  | domainValue sort value => rfl
  | injection source target term ih => exact ih h
  | _ => cases h

theorem map_eq_map_iff_zip {α β : Type} {f : α → β} {xs ys : List α}
    (hlen : xs.length = ys.length) :
    xs.map f = ys.map f ↔ ∀ p ∈ xs.zip ys, f p.1 = f p.2 := by
  induction xs generalizing ys with
  | nil => cases List.length_eq_zero_iff.mp hlen.symm; simp
  | cons x xs ih =>
    cases ys with
    | nil => cases hlen
    | cons y ys =>
      rw [List.map_cons, List.map_cons, List.cons.injEq, ih (Nat.succ.inj hlen),
        List.zip_cons_cons, List.forall_mem_cons]

/-- A bare term has the skeleton of another term exactly when the walk over their pairs of nodes
finds no difference. -/
theorem sameSkeletonWalk_iff (left right : Term) (pending : List (Term × Term))
    (hleft : bare left = true) (hpending : ∀ p ∈ pending, bare p.1 = true) :
    sameSkeletonWalk left right pending = true ↔
      skeleton left = skeleton right ∧ ∀ p ∈ pending, skeleton p.1 = skeleton p.2 := by
  fun_induction sameSkeletonWalk left right pending with
  | case1 => simp [skeleton]
  | case2 _ _ _ next pending ih =>
    obtain ⟨hnext, hrest⟩ := List.forall_mem_cons.mp hpending
    rw [ih hnext hrest, List.forall_mem_cons]
    simp [skeleton]
  | case3 => simp_all [skeleton]
  | case4 =>
    rename_i hsorts ih
    rw [ih hleft hpending]
    simp [skeleton, hsorts]
  | case5 => simp_all [skeleton]
  | case6 =>
    rename_i left lefts right rights pending hsymbols ih
    obtain ⟨rfl, rfl, hlen⟩ := hsymbols
    have hlength : lefts.length = rights.length := Nat.succ.inj hlen
    rw [bare, allBare_eq, List.all_cons, Bool.and_eq_true, List.all_eq_true] at hleft
    rw [ih hleft.1 fun p hp => ?_]
    · simp only [List.reverseAux_eq, List.mem_append, List.mem_reverse, skeleton, skeletons_eq,
        List.map_cons, application.injEq, true_and, List.cons.injEq, map_eq_map_iff_zip hlength]
      constructor
      · exact fun h => ⟨⟨h.1, fun p hp => h.2 p (.inl hp)⟩, fun p hp => h.2 p (.inr hp)⟩
      · exact fun h => ⟨h.1.1, fun p hp => hp.elim (h.1.2 p) (h.2 p)⟩
    · rw [List.reverseAux_eq, List.mem_append, List.mem_reverse] at hp
      exact hp.elim (fun hp => hleft.2 _ (List.of_mem_zip hp).1) (hpending p)
  | case7 =>
    rename_i leftArguments _ _ rightArguments hsymbols next pending hempty ih
    obtain ⟨rfl, rfl, hlen⟩ := hsymbols
    obtain ⟨hnext, hrest⟩ := List.forall_mem_cons.mp hpending
    have hnil : leftArguments = [] ∧ rightArguments = [] := by
      cases leftArguments <;> cases rightArguments <;> grind
    rw [ih hnext hrest, List.forall_mem_cons, hnil.1, hnil.2]
    simp
  | case8 =>
    rename_i leftArguments _ _ rightArguments hsymbols hempty
    obtain ⟨rfl, rfl, hlen⟩ := hsymbols
    have hnil : leftArguments = [] ∧ rightArguments = [] := by
      cases leftArguments <;> cases rightArguments <;> grind
    rw [hnil.1, hnil.2]
    simp
  | case9 =>
    rename_i hsymbols
    simp only [skeleton, skeletons_eq, application.injEq, Bool.false_eq_true, false_iff]
    rintro ⟨⟨hsymbol, hsorts, harguments⟩, _⟩
    apply hsymbols
    refine ⟨hsymbol, hsorts, ?_⟩
    rw [← List.length_map skeleton, harguments, List.length_map]
  | case10 left right pending hvalue hinjection happlication =>
    simp only [Bool.false_eq_true, false_iff]
    rintro ⟨hskeleton, _⟩
    cases left <;> cases right <;> grind [skeleton, bare]

theorem sameApartSkeleton_iff {left : Term} (right : Term) (hleft : bare left = true) :
    sameApartSkeleton left right = true ↔ skeleton left = skeleton right := by
  rw [sameApartSkeleton, sameSkeletonWalk_iff left right [] hleft (by simp)]
  simp

end Walks

end KRust.Backend.Term
