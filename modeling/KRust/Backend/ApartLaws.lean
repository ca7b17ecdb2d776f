import KRust.Backend.ApartSearch
import Mathlib.Data.Set.Lattice
import Mathlib.Order.CompletePartialOrder

/-!
Apart terms have no common value, and two rigid terms of one skeleton are apart exactly when they
differ.
-/

set_option linter.unusedSectionVars false

namespace KRust.Backend

open KRust.Kore Lib
open KRust.Lib.Search (Answers)

section Meaning

theorem size_le_of_mem {a : Handle} {as : List Handle} (h : a ∈ as) :
    a.size ≤ (as.map Handle.size).sum := List.le_sum_of_mem (List.mem_map_of_mem h)

/-- A callback that gives smaller terms to compare makes every step go to smaller pairs. -/
theorem smaller_of_child {injections : Handle → Handle → InjectionComparison}
    (hsmaller : ∀ s t u s' t' w left right,
      injections (.injection s t u) (.injection s' t' w) = .compare left right →
        left.size + right.size < (Handle.injection s t u).size +
          (Handle.injection s' t' w).size)
    {pair : Handle × Handle} {pairs : List (Handle × Handle)}
    (h : expand injections pair = .children pairs) :
    ∀ child ∈ pairs, child.1.size + child.2.size < pair.1.size + pair.2.size := by
  obtain ⟨left, right⟩ := pair
  have hspec := apartStep_spec injections left right
  rw [expand] at h
  generalize apartStep injections left right = step at h hspec
  cases hspec with
  | undecided =>
    cases h
    simp
  | arguments hf hg hname hlen =>
    cases h
    intro child hchild
    obtain ⟨ha, hb⟩ := List.of_mem_zip hchild
    have hle := size_le_of_mem ha
    have hle' := size_le_of_mem hb
    simp only [Handle.size, Handle.sizes_eq]
    omega
  | operands s t u w =>
    cases h
    rw [List.forall_mem_singleton]
    simp only [Handle.size]
    omega
  | compared hcompare =>
    cases h
    rw [List.forall_mem_singleton]
    exact hsmaller _ _ _ _ _ _ _ _ hcompare
  | _ => cases h

/-- What terms denote under a valuation of their variables and sort variables, where the free
constructors and the normal forms are free, domain values are distinct constants and injections
are injective. -/
structure Denotation (V Env : Type) where
  sorts : Env → String → KoreSort
  denote : Env → Term → Set V
  /-- The applications of equation heads that no equation of the definition reaches. -/
  normal : Term → Prop
  constant : KoreSort → KoreString → V
  inject : KoreSort → KoreSort → V → V
  /-- The symbol, the sorts and the arguments of a value that is an application. -/
  root : V → Option (String × List KoreSort × List V)
  denote_domainValue : ∀ ρ s x,
    denote ρ (.domainValue s x) = {constant (assign (sorts ρ) s) x}
  denote_injection : ∀ ρ s t u, denote ρ (.injection s t u) =
    inject (assign (sorts ρ) s) (assign (sorts ρ) t) '' denote ρ u
  root_application : ∀ ρ (f : TermSymbol) ss as, (f.attributes.headRole = .freeConstructor ∨
      (f.attributes.headRole = .equationHead ∧ normal (.application f ss as))) →
    ∀ v ∈ denote ρ (.application f ss as),
      ∃ vs, root v = some (f.name, ss.map (assign (sorts ρ)), vs) ∧
        List.Forall₂ (fun v a => v ∈ denote ρ a) vs as
  root_inject : ∀ s t v, root (inject s t v) = none
  constant_injective : ∀ s t x y, constant s x = constant t y → s = t ∧ x = y
  inject_injective : ∀ s t, Function.Injective (inject s t)

/-- The marks of a stored term are on normal forms. -/
inductive Certified (normal : Term → Prop) : Handle → Prop where
  | and (left right : Term) : Certified normal (.and left right)
  | application {f : TermSymbol} {ss : List KoreSort} {as : List Handle} {claimed : Bool} :
    (∀ a ∈ as, Certified normal a) →
      (claimed = true → f.attributes.headRole = .equationHead →
        normal (.application f ss (as.map Handle.term))) →
          Certified normal (.application f ss as claimed)
  | domainValue (s : KoreSort) (x : KoreString) : Certified normal (.domainValue s x)
  | var (v : TermVariable) : Certified normal (.var v)
  | injection (s t : KoreSort) {u : Handle} :
    Certified normal u → Certified normal (.injection s t u)
  | map (d : MapDefinition) (entries : List (Term × Term)) (rest : Option Term) :
    Certified normal (.map d entries rest)
  | list (d : ListDefinition) (heads : List Term) (rest : Option (Term × List Term)) :
    Certified normal (.list d heads rest)
  | set (d : SetDefinition) (elements : List Term) (rest : Option Term) :
    Certified normal (.set d elements rest)

variable {V Env : Type} (M : Denotation V Env)

/-- No valuation gives the terms a common value. -/
def Denotation.Apart (left right : Handle) : Prop :=
  ∀ ρ, Disjoint (M.denote ρ left.term) (M.denote ρ right.term)

/-- The answers of a callback for injections are right. -/
structure Denotation.Right (injections : Handle → Handle → InjectionComparison) : Prop where
  distinct : ∀ s t u s' t' w, Certified M.normal u → Certified M.normal w →
    injections (.injection s t u) (.injection s' t' w) = .distinct →
      M.Apart (.injection s t u) (.injection s' t' w)
  compare : ∀ s t u s' t' w left right, Certified M.normal u → Certified M.normal w →
    injections (.injection s t u) (.injection s' t' w) = .compare left right →
      Certified M.normal left ∧ Certified M.normal right ∧
        (M.Apart left right ↔ M.Apart (.injection s t u) (.injection s' t' w))

variable {M}

theorem Denotation.root_free {f : TermSymbol} {ss : List KoreSort} {as : List Handle}
    {claimed : Bool} (hcertified : Certified M.normal (.application f ss as claimed))
    (hfree : FreeHead f claimed) (ρ : Env) {v : V}
    (hv : v ∈ M.denote ρ (Handle.application f ss as claimed).term) :
    ∃ vs, M.root v = some (f.name, ss.map (assign (M.sorts ρ)), vs) ∧
      List.Forall₂ (fun v a => v ∈ M.denote ρ a) vs (as.map Handle.term) := by
  rw [Handle.term, Handle.terms_eq] at hv
  refine M.root_application ρ f ss _ ?_ v hv
  cases hfree with
  | inl hrole => exact .inl hrole
  | inr hmark =>
    cases hcertified with
    | application _ hnormal => exact .inr ⟨hmark.1, hnormal hmark.2 hmark.1⟩

theorem Denotation.root_injection {s t : KoreSort} {u : Handle} {ρ : Env} {v : V}
    (hv : v ∈ M.denote ρ (Handle.injection s t u).term) : M.root v = none := by
  rw [Handle.term, M.denote_injection] at hv
  obtain ⟨w, _, rfl⟩ := hv
  exact M.root_inject _ _ _

/-- A pair of arguments without a common value, of two lists of values that are one. -/
theorem disjoint_of_pair {ρ : Env} {as bs : List Handle} {vs : List V}
    (hleft : List.Forall₂ (fun v a => v ∈ M.denote ρ a) vs (as.map Handle.term))
    (hright : List.Forall₂ (fun v a => v ∈ M.denote ρ a) vs (bs.map Handle.term))
    {pair : Handle × Handle} (hpair : pair ∈ as.zip bs) :
    ∃ v, v ∈ M.denote ρ pair.1.term ∧ v ∈ M.denote ρ pair.2.term := by
  induction vs generalizing as bs with
  | nil =>
    cases as with
    | nil => cases hpair
    | cons a as => cases hleft
  | cons v vs ih =>
    cases as with
    | nil => cases hleft
    | cons a as =>
      cases bs with
      | nil => cases hright
      | cons b bs =>
        rw [List.map_cons, List.forall₂_cons] at hleft hright
        rw [List.zip_cons_cons, List.mem_cons] at hpair
        cases hpair with
        | inl heq =>
          subst heq
          exact ⟨v, hleft.1, hright.1⟩
        | inr hrest => exact ih hleft.2 hright.2 hrest

variable {injections : Handle → Handle → InjectionComparison}

/-- What is apart at its roots has no common value. -/
theorem apart_of_step (hright : M.Right injections) {left right : Handle}
    (hl : Certified M.normal left) (hr : Certified M.normal right)
    (h : apartStep injections left right = .apart) : M.Apart left right := by
  have hspec := apartStep_spec injections left right
  rw [h] at hspec
  intro ρ
  rw [Set.disjoint_left]
  intro v hv hv'
  cases hspec with
  | applications as bs hf hg hdiffer =>
    obtain ⟨vs, hroot, _⟩ := Denotation.root_free hl hf ρ hv
    obtain ⟨ws, hroot', _⟩ := Denotation.root_free hr hg ρ hv'
    rw [hroot, Option.some.injEq, Prod.mk.injEq, Prod.mk.injEq] at hroot'
    cases hdiffer with
    | inl hname => exact hname hroot'.1
    | inr hsorts => exact map_assign_ne hsorts (M.sorts ρ) hroot'.2.1
  | applicationInjection ss as source target operand hf =>
    obtain ⟨vs, hroot, _⟩ := Denotation.root_free hl hf ρ hv
    have hnone := Denotation.root_injection hv'
    rw [hnone] at hroot
    cases hroot
  | injectionApplication ss as source target operand hf =>
    obtain ⟨vs, hroot, _⟩ := Denotation.root_free hr hf ρ hv'
    have hnone := Denotation.root_injection hv
    rw [hnone] at hroot
    cases hroot
  | domainValues hdiffer =>
    rw [Handle.term, M.denote_domainValue, Set.mem_singleton_iff] at hv hv'
    obtain ⟨hsort, hvalue⟩ := M.constant_injective _ _ _ _ (hv.symm.trans hv')
    cases hdiffer with
    | inl hne => exact hne hvalue
    | inr hsorts => exact assign_ne hsorts (M.sorts ρ) hsort
  | injections hdistinct =>
    cases hl with
    | injection _ _ hu =>
      cases hr with
      | injection _ _ hw =>
        exact Set.disjoint_left.mp (hright.distinct _ _ _ _ _ _ hu hw hdistinct ρ) hv hv'

/-- A pair is apart when one that it leads to is. -/
theorem apart_of_child (hright : M.Right injections) {pair : Handle × Handle}
    {pairs : List (Handle × Handle)}
    (hl : Certified M.normal pair.1) (hr : Certified M.normal pair.2)
    (h : expand injections pair = .children pairs) :
    ∀ child ∈ pairs, (Certified M.normal child.1 ∧ Certified M.normal child.2) ∧
      (M.Apart child.1 child.2 → M.Apart pair.1 pair.2) := by
  obtain ⟨left, right⟩ := pair
  have hspec := apartStep_spec injections left right
  rw [expand] at h
  generalize apartStep injections left right = step at h hspec
  cases hspec with
  | undecided =>
    cases h
    simp
  | arguments hf hg hname hlen =>
    rename_i f g ss as bs c d
    cases h
    intro child hchild
    obtain ⟨hleft, hright'⟩ := List.of_mem_zip hchild
    constructor
    · cases hl with
      | application has _ =>
        cases hr with
        | application hbs _ => exact ⟨has _ hleft, hbs _ hright'⟩
    · intro hapart ρ
      rw [Set.disjoint_left]
      intro v hv hv'
      obtain ⟨vs, hroot, hvs⟩ := Denotation.root_free hl hf ρ hv
      obtain ⟨ws, hroot', hws⟩ := Denotation.root_free hr hg ρ hv'
      rw [hroot, Option.some.injEq, Prod.mk.injEq, Prod.mk.injEq] at hroot'
      obtain ⟨w, hw, hw'⟩ := disjoint_of_pair hvs (hroot'.2.2 ▸ hws) hchild
      exact Set.disjoint_left.mp (hapart ρ) hw hw'
  | operands s t u w =>
    cases h
    intro child hchild
    obtain rfl := List.mem_singleton.mp hchild
    constructor
    · cases hl with
      | injection _ _ hu =>
        cases hr with
        | injection _ _ hw => exact ⟨hu, hw⟩
    · intro hapart ρ
      simp only [Handle.term, M.denote_injection]
      exact (Set.disjoint_image_iff (M.inject_injective _ _)).mpr (hapart ρ)
  | compared hcompare =>
    cases h
    intro child hchild
    obtain rfl := List.mem_singleton.mp hchild
    cases hl with
    | injection _ _ hu =>
      cases hr with
      | injection _ _ hw =>
        obtain ⟨hleft, hright', hiff⟩ := hright.compare _ _ _ _ _ _ _ _ hu hw hcompare
        exact ⟨⟨hleft, hright'⟩, hiff.mp⟩
  | _ => cases h

theorem apart_of_answer (hright : M.Right injections) {left right : Handle}
    (hl : Certified M.normal left) (hr : Certified M.normal right)
    (h : Answers (expand injections) [(left, right)] true) : M.Apart left right := by
  obtain ⟨depth, hdepth⟩ := Search.answers_singleton.mp h
  refine Search.sound (P := fun pair => Certified M.normal pair.1 ∧ Certified M.normal pair.2)
    (Q := fun pair => M.Apart pair.1 pair.2) (fun pair hpair hfound => ?_)
    (fun pair pairs hpair hchildren => ?_) ⟨hl, hr⟩ hdepth
  · refine apart_of_step hright hpair.1 hpair.2 ?_
    rw [expand] at hfound
    split at hfound <;> first | assumption | cases hfound
  · exact apart_of_child hright hpair.1 hpair.2 hchildren

end Meaning

section Rigid

/-- Every node is a domain value, an injection or an application with a fixed root. -/
def rigid : Handle → Bool
  | .domainValue _ _ => true
  | .injection _ _ term => rigid term
  | .application symbol sortArguments arguments claimed =>
    (apartRoot (.application symbol sortArguments arguments claimed)).isSome && allRigid arguments
  | _ => false
where
  allRigid : List Handle → Bool
  | [] => true
  | handle :: handles => rigid handle && allRigid handles

@[simp]
theorem allRigid_eq (handles : List Handle) : rigid.allRigid handles = handles.all rigid := by
  induction handles with
  | nil => rfl
  | cons handle handles ih => rw [rigid.allRigid, ih, List.all_cons]

theorem rigid_application {f : TermSymbol} {ss : List KoreSort} {as : List Handle} {c : Bool} :
    rigid (.application f ss as c) = true ↔ FreeHead f c ∧ ∀ a ∈ as, rigid a = true := by
  rw [rigid, allRigid_eq, Bool.and_eq_true, List.all_eq_true]
  refine and_congr_left fun _ => ?_
  constructor
  · intro h
    obtain ⟨root, hroot⟩ := Option.isSome_iff_exists.mp h
    exact (apartRoot_application hroot).1
  · intro h
    obtain ⟨root, hroot, _⟩ := h.apartRoot ss as
    rw [hroot]
    rfl

/-- The parts of a skeleton in preorder. -/
def skeletonParts : Term → List SkeletonPart
  | .domainValue sort _ => [.domainValue sort]
  | .injection source target term => .injection source target :: skeletonParts term
  | .application symbol sortArguments arguments =>
    .application symbol.name sortArguments arguments.length :: allParts arguments
  | _ => []
where
  allParts : List Term → List SkeletonPart
  | [] => []
  | term :: terms => skeletonParts term ++ allParts terms

@[simp]
theorem allParts_eq (terms : List Term) :
    skeletonParts.allParts terms = terms.flatMap skeletonParts := by
  induction terms with
  | nil => rfl
  | cons term terms ih => rw [skeletonParts.allParts, ih, List.flatMap_cons]

theorem skeletonParts_skeleton (t : Term) : skeletonParts t.skeleton = skeletonParts t := by
  induction t with
  | application symbol sortArguments arguments ih =>
    rw [Term.skeleton, Term.skeletons_eq, skeletonParts, skeletonParts, allParts_eq, allParts_eq,
      List.length_map, List.flatMap_map, List.flatMap_congr ih]
  | domainValue sort value => rfl
  | injection source target term ih => rw [Term.skeleton, skeletonParts, ih, skeletonParts]
  | _ => rfl

/-- The walk gives the parts of what it walks where all of it is rigid. -/
theorem rigidApartSkeletonWalk_eq (pending : List Handle) :
    rigidApartSkeletonWalk pending =
      if pending.all rigid then some (pending.flatMap fun t => skeletonParts t.term) else none := by
  fun_induction rigidApartSkeletonWalk pending with
  | case1 => rfl
  | case2 pending sort value ih =>
    rw [ih, List.all_cons, rigid, Bool.true_and, List.flatMap_cons]
    split <;> rfl
  | case3 pending source target term ih =>
    rw [ih, List.all_cons, List.all_cons, rigid, List.flatMap_cons, List.flatMap_cons]
    split <;> rfl
  | case4 pending symbol sortArguments arguments claimed root hroot ih =>
    rw [ih, List.all_append, List.all_cons, rigid, allRigid_eq, hroot, Option.isSome_some,
      Bool.true_and, List.flatMap_append, List.flatMap_cons, Handle.term, Handle.terms_eq,
      skeletonParts, allParts_eq, List.length_map, List.flatMap_map]
    split <;> rfl
  | case5 pending symbol sortArguments arguments claimed hroot =>
    rw [List.all_cons, rigid, hroot]
    rfl
  | case6 node pending hvalue hinjection happlication =>
    have hrigid : rigid node = false := by
      cases node with
      | domainValue sort value => exact absurd rfl (hvalue sort value)
      | injection source target term => exact absurd rfl (hinjection source target term)
      | application symbol sortArguments arguments claimed =>
        exact absurd rfl (happlication symbol sortArguments arguments claimed)
      | _ => rfl
    rw [List.all_cons, hrigid]
    rfl

theorem mayBeRigid_of_rigid {t : Handle} (h : rigid t = true) :
    t.term.attributes.mayBeRigid = true := by
  induction t with
  | domainValue sort value => rfl
  | injection source target term ih =>
    have hterm := ih h
    simp [Handle.term, Term.attributes, Layer.attributes, Layer.mayBeRigid, Layer.children, hterm]
  | application symbol sortArguments arguments claimed ih =>
    obtain ⟨hfree, hall⟩ := rigid_application.mp h
    have hrole : symbol.attributes.headRole = .freeConstructor ∨
        symbol.attributes.headRole = .equationHead := hfree.imp_right And.left
    rw [Handle.term, Handle.terms_eq, Term.attributes, Term.storedAll_eq, Layer.attributes,
      Layer.mayBeRigid, Layer.children]
    simp only [Bool.and_eq_true, List.all_eq_true, Bool.or_eq_true, decide_eq_true_iff]
    refine ⟨?_, hrole⟩
    intro s hs
    obtain ⟨u, hu, rfl⟩ := List.mem_map.mp hs
    obtain ⟨a, ha, rfl⟩ := List.mem_map.mp hu
    exact ih a ha (hall a ha)
  | _ => cases h

/-- The stored attribute answers as the walk does. -/
theorem rigidApartSkeletonHash_eq (t : Handle) : rigidApartSkeletonHash t =
    if rigid t then some (skeletonParts t.term) else none := by
  have hwalk : rigidApartSkeletonWalk [t] =
      if rigid t then some (skeletonParts t.term) else none := by
    rw [rigidApartSkeletonWalk_eq]
    simp
  rw [rigidApartSkeletonHash, hwalk]
  cases hrigid : rigid t with
  | false => simp
  | true => rw [if_pos (mayBeRigid_of_rigid hrigid)]

theorem bare_of_rigid {t : Handle} (h : rigid t = true) : t.term.bare = true := by
  induction t with
  | domainValue sort value => rfl
  | injection source target term ih => exact ih h
  | application symbol sortArguments arguments claimed ih =>
    obtain ⟨_, hall⟩ := rigid_application.mp h
    rw [Handle.term, Handle.terms_eq, Term.bare, Term.allBare_eq, List.all_map, List.all_eq_true]
    exact fun a ha => ih a ha (hall a ha)
  | _ => cases h

end Rigid

section SameSkeleton

variable {injections : Handle → Handle → InjectionComparison}

theorem apartStep_domainValues (s : KoreSort) {x y : KoreString} (h : x ≠ y) :
    apartStep injections (.domainValue s x) (.domainValue s y) = .apart := by
  rw [apartStep_eq, if_neg (by simpa [Handle.term] using h)]
  simp [apartRoot, compared, compareRoots, domainValuesApart, h]

theorem apartStep_injections (s t : KoreSort) {u w : Handle} (h : u.term ≠ w.term) :
    apartStep injections (.injection s t u) (.injection s t w) = .operands u w := by
  rw [apartStep_eq, if_neg (by simpa [Handle.term] using h)]
  simp [apartRoot, compared, compareRoots, injectionStep]

theorem apartStep_applications {f : TermSymbol} {ss : List KoreSort} {as bs : List Handle}
    {c d : Bool} (hc : FreeHead f c) (hd : FreeHead f d) (hlen : as.length = bs.length)
    (h : as.map Handle.term ≠ bs.map Handle.term) :
    apartStep injections (.application f ss as c) (.application f ss bs d) =
      .arguments (as.zip bs) := by
  rw [apartStep_eq, if_neg (by simpa [Handle.term] using h)]
  obtain ⟨leftRoot, hleft, hkind⟩ := hc.apartRoot ss as
  obtain ⟨rightRoot, hright, hkind'⟩ := hd.apartRoot ss bs
  rw [hleft, hright]
  have happlications : compareApplications (.application f ss as c) (.application f ss bs d) =
      .sameApplication (as.zip bs) := by
    simp [compareApplications, sortListRelation_self, hlen]
  obtain rfl | rfl := hkind <;> obtain rfl | rfl := hkind' <;>
    simp only [compared, compareRoots, happlications]

/-- Two rigid terms of one skeleton. -/
def Alike (pair : Handle × Handle) : Prop :=
  rigid pair.1 = true ∧ rigid pair.2 = true ∧ pair.1.term.skeleton = pair.2.term.skeleton

def differ (pair : Handle × Handle) : Bool := decide (pair.1.term ≠ pair.2.term)

theorem any_differ {as bs : List Handle} (hlen : as.length = bs.length) :
    (as.zip bs).any differ = decide (as.map Handle.term ≠ bs.map Handle.term) := by
  induction as generalizing bs with
  | nil =>
    obtain rfl := List.length_eq_zero_iff.mp hlen.symm
    simp
  | cons a as ih =>
    cases bs with
    | nil => cases hlen
    | cons b bs =>
      rw [List.zip_cons_cons, List.any_cons, ih (Nat.succ.inj hlen), differ]
      by_cases hhead : a.term = b.term <;> simp [hhead]

/-- The pairs that a pair of one skeleton leads to are of one skeleton, and one of them differs
where the pair does. -/
theorem children_alike {pair : Handle × Handle} {pairs : List (Handle × Handle)}
    (h : Alike pair) (hexpand : expand injections pair = .children pairs) :
    (∀ child ∈ pairs, Alike child ∧
        child.1.size + child.2.size < pair.1.size + pair.2.size) ∧
      differ pair = pairs.any differ := by
  obtain ⟨left, right⟩ := pair
  obtain ⟨hleft, hright, hskeleton⟩ := h
  by_cases heq : left.term = right.term
  · rw [expand, apartStep_of_eq injections heq] at hexpand
    cases hexpand
    simp [differ, heq]
  cases left with
  | domainValue s x =>
    cases right with
    | domainValue t y =>
      simp only [Handle.term, Term.skeleton, Term.domainValue.injEq, and_true] at hskeleton
      subst hskeleton
      have hne : x ≠ y := by simpa [Handle.term] using heq
      rw [expand, apartStep_domainValues s hne] at hexpand
      cases hexpand
    | injection s' t' w => cases hskeleton
    | application g ts bs d => cases hskeleton
    | _ => cases hright
  | injection s t u =>
    cases right with
    | injection s' t' w =>
      simp only [Handle.term, Term.skeleton, Term.injection.injEq] at hskeleton
      obtain ⟨rfl, rfl, hoperands⟩ := hskeleton
      have hne : u.term ≠ w.term := by simpa [Handle.term] using heq
      rw [expand, apartStep_injections s t hne] at hexpand
      cases hexpand
      refine ⟨List.forall_mem_singleton.mpr ⟨⟨hleft, hright, hoperands⟩, ?_⟩, ?_⟩
      · simp only [Handle.size]
        omega
      · simp [differ, hne, heq]
    | domainValue t y => cases hskeleton
    | application g ts bs d => cases hskeleton
    | _ => cases hright
  | application f ss as c =>
    cases right with
    | application g ts bs d =>
      simp only [Handle.term, Handle.terms_eq, Term.skeleton, Term.skeletons_eq,
        Term.application.injEq] at hskeleton
      obtain ⟨rfl, rfl, harguments⟩ := hskeleton
      obtain ⟨hf, has⟩ := rigid_application.mp hleft
      obtain ⟨hg, hbs⟩ := rigid_application.mp hright
      have hlen : as.length = bs.length := by simpa using congrArg List.length harguments
      have hne : as.map Handle.term ≠ bs.map Handle.term := by simpa [Handle.term] using heq
      rw [expand, apartStep_applications hf hg hlen hne] at hexpand
      cases hexpand
      constructor
      · intro child hchild
        obtain ⟨ha, hb⟩ := List.of_mem_zip hchild
        rw [List.map_map, List.map_map, Term.map_eq_map_iff_zip hlen] at harguments
        refine ⟨⟨has _ ha, hbs _ hb, harguments child hchild⟩, ?_⟩
        have hle := size_le_of_mem ha
        have hle' := size_le_of_mem hb
        simp only [Handle.size, Handle.sizes_eq]
        omega
      · rw [any_differ hlen]
        simp [differ, Handle.term]
    | domainValue t y => cases hskeleton
    | injection s' t' w => cases hskeleton
    | _ => cases hright
  | _ => cases hleft

theorem answers_alike {left right : Handle} (h : Alike (left, right)) :
    Answers (expand injections) [(left, right)] (differ (left, right)) := by
  refine Search.answers_value (P := Alike) (fun pair => pair.1.size + pair.2.size)
    (fun pair _ hfound => ?_) (fun _ _ => children_alike) h
  rw [differ, decide_eq_true_iff]
  intro heq
  rw [expand, apartStep_of_eq injections heq] at hfound
  cases hfound

end SameSkeleton

section Main

variable {injections : Handle → Handle → InjectionComparison}

/-- Apart terms have no common value, for a callback whose answers are right. The recursion that
hands over to the work list, at any level, answers as the recursion over every level does, and it
answers where the callback gives smaller terms to compare. Rigid terms of one skeleton have one
hash, and they are apart exactly when they differ. -/
theorem apartness_laws :
    (∀ {V Env : Type} (M : Denotation V Env), M.Right injections → ∀ left right,
      Certified M.normal left → Certified M.normal right → ∀ steps,
        apartWith injections steps left right = some true → M.Apart left right) ∧
      (∀ left right answer,
        ((∃ steps, apartWith injections steps left right = some answer) ↔
          ∃ depth, apartRecursively injections depth left right = some answer) ∧
        (∀ levels, (∃ steps, apartByRecursion injections steps levels left right = some answer) ↔
          ∃ depth, apartRecursively injections depth left right = some answer) ∧
        ((∃ steps, apartOnWorkList injections steps left right = some answer) ↔
          ∃ depth, apartRecursively injections depth left right = some answer)) ∧
      ((∀ s t u s' t' w left right,
        injections (.injection s t u) (.injection s' t' w) = .compare left right →
          left.size + right.size < (Handle.injection s t u).size +
            (Handle.injection s' t' w).size) →
        ∀ left right, ∃ answer steps, apartWith injections steps left right = some answer) ∧
      ∀ left right, (rigidApartSkeletonHash left).isSome → (rigidApartSkeletonHash right).isSome →
        Term.sameApartSkeleton left.term right.term = true →
          rigidApartSkeletonHash left = rigidApartSkeletonHash right ∧
            ∃ steps, apartWith injections steps left right =
              some (decide (left.term ≠ right.term)) := by
  refine ⟨fun M hright left right hl hr steps h => ?_, fun left right answer => ⟨?_, fun _ => ?_, ?_⟩,
    fun hsmaller left right => ?_, fun left right hl hr hsame => ?_⟩
  · exact apart_of_answer hright hl hr (apartByRecursion_iff.mp ⟨steps, h⟩)
  · exact apartByRecursion_iff.trans apartRecursively_iff.symm
  · exact apartByRecursion_iff.trans apartRecursively_iff.symm
  · exact apartOnWorkList_iff.trans apartRecursively_iff.symm
  · obtain ⟨answer, hanswer⟩ := Search.answers_of_decreasing (P := fun _ => True)
      (fun pair => pair.1.size + pair.2.size) (fun pair pairs _ hexpand child hchild =>
        ⟨trivial, smaller_of_child hsmaller hexpand child hchild⟩) (a := (left, right)) trivial
    exact ⟨answer, apartByRecursion_iff.mpr hanswer⟩
  · have hleft : rigid left = true := by
      rw [rigidApartSkeletonHash_eq] at hl
      exact Option.isSome_ite.mp hl
    have hright : rigid right = true := by
      rw [rigidApartSkeletonHash_eq] at hr
      exact Option.isSome_ite.mp hr
    have hskeleton : left.term.skeleton = right.term.skeleton :=
      (Term.sameApartSkeleton_iff right.term (bare_of_rigid hleft)).mp hsame
    constructor
    · rw [rigidApartSkeletonHash_eq, rigidApartSkeletonHash_eq, hleft, hright,
        ← skeletonParts_skeleton left.term, hskeleton, skeletonParts_skeleton]
    · exact apartByRecursion_iff.mpr (answers_alike ⟨hleft, hright, hskeleton⟩)

/-- The values of a model in which every application of a free constructor is a value. -/
inductive FreeValue where
  | constant (sort : KoreSort) (value : KoreString)
  | inject (source target : KoreSort) (value : FreeValue)
  | application (name : String) (sortArguments : List KoreSort) (arguments : List FreeValue)

/-- The values of a term of domain values, injections and free constructors. -/
def freeDenote (ρ : String → KoreSort) : Term → Set FreeValue
  | .domainValue s x => {.constant (assign ρ s) x}
  | .injection s t u => FreeValue.inject (assign ρ s) (assign ρ t) '' freeDenote ρ u
  | .application f ss as => {v | f.attributes.headRole = .freeConstructor ∧
      ∃ vs, v = .application f.name (ss.map (assign ρ)) vs ∧
        List.Forall₂ (fun v values => v ∈ values) vs (freeDenotes ρ as)}
  | _ => ∅
where
  freeDenotes (ρ : String → KoreSort) : List Term → List (Set FreeValue)
  | [] => []
  | term :: terms => freeDenote ρ term :: freeDenotes ρ terms

theorem freeDenotes_eq (ρ : String → KoreSort) (terms : List Term) :
    freeDenote.freeDenotes ρ terms = terms.map (freeDenote ρ) := by
  induction terms with
  | nil => rfl
  | cons term terms ih => rw [freeDenote.freeDenotes, ih, List.map_cons]

def freeModel : Denotation FreeValue (String → KoreSort) where
  sorts := id
  denote := freeDenote
  normal _ := False
  constant := .constant
  inject := .inject
  root
    | .application name ss vs => some (name, ss, vs)
    | _ => none
  denote_domainValue _ _ _ := rfl
  denote_injection _ _ _ _ := rfl
  root_application ρ f ss as _ v hv := by
    obtain ⟨_, vs, rfl, hvs⟩ := hv
    rw [freeDenotes_eq, List.forall₂_map_right_iff] at hvs
    exact ⟨vs, rfl, hvs⟩
  root_inject _ _ _ := rfl
  constant_injective _ _ _ _ h := by
    cases h
    exact ⟨rfl, rfl⟩
  inject_injective _ _ _ _ h := by
    cases h
    rfl

/-- Two literals of one sort are apart, and no model gives them a common value. -/
theorem apartness_laws_literals :
    freeModel.Apart (.domainValue (Term.simpleSort "SortInt") [49])
      (.domainValue (Term.simpleSort "SortInt") [50]) := by
  have hright : freeModel.Right fun _ _ => .undecided :=
    ⟨by intros; contradiction, by intros; contradiction⟩
  have hlaws := @apartness_laws fun _ _ => .undecided
  have hhash := hlaws.2.2.2 (.domainValue (Term.simpleSort "SortInt") [49])
    (.domainValue (Term.simpleSort "SortInt") [50]) (by simp [rigidApartSkeletonHash_eq, rigid])
    (by simp [rigidApartSkeletonHash_eq, rigid])
    ((Term.sameApartSkeleton_iff _ rfl).mpr rfl)
  obtain ⟨_, steps, hsteps⟩ := hhash
  have hne : Term.domainValue (Term.simpleSort "SortInt") [49] ≠
      .domainValue (Term.simpleSort "SortInt") [50] := by simp
  exact hlaws.1 freeModel hright _ _ (.domainValue _ _) (.domainValue _ _) steps
    (hsteps.trans (by simp [Handle.term]))

end Main

end KRust.Backend
