import KRust.Kompile.IdentityLaws
import KRust.Lib.Worklist
import Mathlib.Data.List.Nodup
import Mathlib.Logic.Relation

/-!
The places of a rule: a node with the side it is on, whether it is the top of a left side, and
whether it lies where nothing is to be bound. Gathering names the terms of the places on the left
that are free of both, each term once.
-/

set_option linter.unusedSectionVars false

namespace KRust.Kompile

open KRust.Kast Lib

variable {μ E : Type}

/-- A node where it stands in a rule. -/
structure Site (μ : Type) where
  address : Address
  term : Term μ
  position : Position
  top : Bool
  inside : Bool

section Sites

variable (hook : Label → Option String)

def sitesFrom (site : Nat → Term μ → Site μ) : Nat → List (Term μ) → List (Site μ)
  | _, [] => []
  | i, t :: ts => site i t :: sitesFrom site (i + 1) ts

/-- Whether an argument is below a collection hook or `#Or`, or is no value of a map element. -/
def insideArgument (label : Label) (index : Nat) : Bool :=
  isBlocked hook label || (hook label = some "MAP.element" && index != 1)

/-- The places of the children of a node. -/
def Site.children (s : Site μ) : List (Site μ) :=
  match s.term.unannotated with
  | .rewrite left right =>
    [⟨0 :: s.address, left, .left, s.top, s.inside⟩,
      ⟨1 :: s.address, right, .right, false, s.inside⟩]
  | .as pattern aliased =>
    [⟨0 :: s.address, pattern, s.position, false, s.inside⟩,
      ⟨1 :: s.address, aliased, s.position, false, s.inside⟩]
  | .sequence items =>
    sitesFrom (fun i t => ⟨i :: s.address, t, s.position, false, s.inside⟩) 0 items
  | .apply label arguments =>
    sitesFrom (fun i t =>
      ⟨i :: s.address, t, s.position, false, s.inside || insideArgument hook label i⟩) 0 arguments
  | .injectedLabel _ | .var _ _ | .token _ _ | .annotated _ _ => []

/-- The places of the terms of a rule. -/
def Rule.roots (rule : Rule μ) : List (Site μ) :=
  [⟨[0], rule.body, .both, true, false⟩, ⟨[1], rule.requires, .right, true, false⟩,
    ⟨[2], rule.ensures, .right, true, false⟩]

/-- The places of a rule. -/
def Rule.Has (rule : Rule μ) (s : Site μ) : Prop :=
  ∃ root ∈ rule.roots, Relation.ReflTransGen (fun s c => c ∈ s.children hook) root s

/-- A place whose term gets a variable. -/
def Site.Named (s : Site μ) : Prop :=
  s.position = .left ∧ s.top = false ∧ s.inside = false ∧ isVariable s.term.unannotated = false ∧
    isTrue s.term.unannotated = false

variable {hook}

theorem mem_sitesFrom {site : Nat → Term μ → Site μ} {i : Nat} {ts : List (Term μ)} {s : Site μ} :
    s ∈ sitesFrom site i ts ↔ ∃ j t, ts[j]? = some t ∧ site (i + j) t = s := by
  induction ts generalizing i with
  | nil => simp [sitesFrom]
  | cons t ts ih =>
    rw [sitesFrom, List.mem_cons, ih]
    constructor
    · rintro (rfl | ⟨j, u, hu, rfl⟩)
      · exact ⟨0, t, rfl, rfl⟩
      · exact ⟨j + 1, u, hu, by rw [Nat.add_right_comm, Nat.add_assoc]⟩
    · rintro ⟨_ | j, u, hu, rfl⟩
      · cases hu
        exact .inl rfl
      · exact .inr ⟨j, u, hu, by rw [Nat.add_right_comm, Nat.add_assoc]⟩

/-- The side that the children of a node with this head are on. -/
def childPosition : Head → Position → Nat → Position
  | .rewrite, _, 0 => .left
  | .rewrite, _, _ => .right
  | _, position, _ => position

variable (hook) in
def childInside : Head → Nat → Bool
  | .apply label, i => insideArgument hook label i
  | _, _ => false

def childTop : Head → Nat → Bool
  | .rewrite, 0 => true
  | _, _ => false

variable (hook) in
/-- The place of a child. -/
def Site.child (s : Site μ) (i : Nat) (t : Term μ) : Site μ where
  address := i :: s.address
  term := t
  position := childPosition (head s.term) s.position i
  top := childTop (head s.term) i && s.top
  inside := s.inside || childInside hook (head s.term) i

theorem head_unannotated (t : Term μ) : head t.unannotated = head t := by
  induction t with
  | annotated term metadata ih => exact ih
  | _ => rfl

theorem Site.mem_children {s c : Site μ} :
    c ∈ s.children hook ↔ ∃ i t, s.term.children[i]? = some t ∧ s.child hook i t = c := by
  have hpair : ∀ left right, s.term.unannotated.children = [left, right] →
      ((c = s.child hook 0 left ∨ c = s.child hook 1 right) ↔
        ∃ i t, s.term.children[i]? = some t ∧ s.child hook i t = c) := by
    intro left right hchildren
    rw [← Identities.children_unannotated, hchildren]
    constructor
    · rintro (rfl | rfl)
      · exact ⟨0, left, rfl, rfl⟩
      · exact ⟨1, right, rfl, rfl⟩
    · rintro ⟨_ | _ | i, t, ht, rfl⟩
      · exact .inl (by cases ht; rfl)
      · exact .inr (by cases ht; rfl)
      · cases ht
  unfold Site.children
  cases ht : s.term.unannotated with
  | rewrite left right | as left right =>
    rw [← hpair left right (by rw [ht]; rfl)]
    simp [Site.child, ← head_unannotated s.term, ht, head, childPosition, childInside, childTop]
  | sequence items =>
    rw [mem_sitesFrom, ← Identities.children_unannotated, ht]
    simp [Site.child, ← head_unannotated s.term, ht, head, childPosition, childInside, childTop]
    rfl
  | apply label arguments =>
    rw [mem_sitesFrom, ← Identities.children_unannotated, ht]
    simp [Site.child, ← head_unannotated s.term, ht, head, childPosition, childInside, childTop]
    rfl
  | annotated term metadata => exact absurd ht (s.term.unannotated_ne _ _)
  | injectedLabel | var | token =>
    rw [← Identities.children_unannotated, ht]
    simp [Term.children, Term.unannotated]

/-- A child's place is that of a child of the term. -/
theorem Site.getElem?_of_mem {s c : Site μ} (h : c ∈ s.children hook) :
    ∃ i, s.term.children[i]? = some c.term ∧ c.address = i :: s.address := by
  obtain ⟨i, t, ht, rfl⟩ := Site.mem_children.mp h
  exact ⟨i, ht, rfl⟩

theorem Site.size_lt {s c : Site μ} (h : c ∈ s.children hook) : c.term.size < s.term.size := by
  obtain ⟨i, hi, -⟩ := Site.getElem?_of_mem h
  exact Identities.size_child_lt (List.mem_of_getElem? hi)

theorem Site.below_of_reaches {s c : Site μ}
    (h : Relation.ReflTransGen (fun s c => c ∈ Site.children hook s) s c) :
    Below s.address s.term c.address c.term := by
  induction h using Relation.ReflTransGen.head_induction_on with
  | refl => exact .here _ _
  | head hchild h ih =>
    obtain ⟨i, hi, haddress⟩ := Site.getElem?_of_mem hchild
    rw [haddress] at ih
    exact .child hi ih

theorem Rule.Has.node {rule : Rule μ} {s : Site μ} (h : rule.Has hook s) :
    rule.Node s.address s.term := by
  obtain ⟨root, hroot, hreach⟩ := h
  have hbelow := Site.below_of_reaches hreach
  simp only [Rule.roots, List.mem_cons, List.not_mem_nil, or_false] at hroot
  rcases hroot with rfl | rfl | rfl
  · exact .inl hbelow
  · exact .inr (.inl hbelow)
  · exact .inr (.inr hbelow)

variable (hook) in
/-- The places that gathering visits, in its order. -/
def gathered (s : Site μ) : List (Site μ) :=
  s :: ((s.children hook).attach.filter fun c => !c.val.inside).flatMap fun c => gathered c.val
termination_by s.term.size
decreasing_by exact Site.size_lt c.property

theorem gathered_eq (s : Site μ) :
    gathered hook s = s :: ((s.children hook).filter fun c => !c.inside).flatMap (gathered hook) := by
  rw [gathered]
  conv_rhs => rw [← List.attach_map_subtype_val (s.children hook), List.filter_map, List.flatMap_map]
  rfl

theorem filter_sitesFrom_true {site : Nat → Term μ → Site μ} {i : Nat} {ts : List (Term μ)}
    (h : ∀ j t, i ≤ j → (site j t).inside = true) :
    (sitesFrom site i ts).filter (fun c => !c.inside) = [] := by
  rw [List.filter_eq_nil_iff]
  intro c hc
  obtain ⟨j, t, -, rfl⟩ := mem_sitesFrom.mp hc
  simp [h _ _ (Nat.le_add_right i j)]

theorem filter_sitesFrom_false {site : Nat → Term μ → Site μ} {i : Nat} {ts : List (Term μ)}
    (h : ∀ j t, i ≤ j → (site j t).inside = false) :
    (sitesFrom site i ts).filter (fun c => !c.inside) = sitesFrom site i ts := by
  rw [List.filter_eq_self]
  intro c hc
  obtain ⟨j, t, -, rfl⟩ := mem_sitesFrom.mp hc
  simp [h _ _ (Nat.le_add_right i j)]

variable (hook) in
/-- From a place to a child that is not where nothing is to be bound. -/
def Site.Opens (s c : Site μ) : Prop := c ∈ s.children hook ∧ c.inside = false

theorem mem_gathered {s c : Site μ} :
    c ∈ gathered hook s ↔ Relation.ReflTransGen (Site.Opens hook) s c := by
  induction hsize : s.term.size using Nat.strong_induction_on generalizing s with
  | _ size ih =>
    rw [gathered_eq, List.mem_cons, List.mem_flatMap, Relation.ReflTransGen.cases_head_iff]
    refine or_congr eq_comm ⟨?_, ?_⟩
    · rintro ⟨d, hd, hc⟩
      obtain ⟨hchild, hopen⟩ := List.mem_filter.mp hd
      exact ⟨d, ⟨hchild, by simpa using hopen⟩,
        (ih _ (hsize ▸ Site.size_lt hchild) rfl).mp hc⟩
    · rintro ⟨d, ⟨hchild, hopen⟩, hc⟩
      exact ⟨d, List.mem_filter.mpr ⟨hchild, by simpa using hopen⟩,
        (ih _ (hsize ▸ Site.size_lt hchild) rfl).mpr hc⟩

variable (hook) in
/-- The places of a rule that gathering visits. -/
def Rule.Gathers (rule : Rule μ) (s : Site μ) : Prop :=
  ∃ root ∈ rule.roots, Relation.ReflTransGen (Site.Opens hook) root s

theorem Rule.Gathers.has {rule : Rule μ} {s : Site μ} (h : rule.Gathers hook s) :
    rule.Has hook s := by
  obtain ⟨root, hroot, hreach⟩ := h
  exact ⟨root, hroot, Relation.ReflTransGen.mono (fun _ _ h => h.1) _ _ hreach⟩

theorem Rule.Gathers.open {rule : Rule μ} {s : Site μ} (h : rule.Gathers hook s) :
    s.inside = false := by
  obtain ⟨root, hroot, hreach⟩ := h
  rcases Relation.ReflTransGen.cases_tail hreach with rfl | ⟨d, -, hd⟩
  · simp only [Rule.roots, List.mem_cons, List.not_mem_nil, or_false] at hroot
    rcases hroot with rfl | rfl | rfl <;> rfl
  · exact hd.2

end Sites

section Gathering

variable {hook : Label → Option String} (inferSort mainInferSort : Term μ → Except E KSort)
  (identity : Address → Nat)

/-- The step of gathering at a place. -/
def nameSite (m : Minimizer) (s : Site μ) : Except E Minimizer :=
  nameTerm inferSort mainInferSort identity s.address s.term.unannotated s.position s.top false m

variable {inferSort mainInferSort identity}

theorem gatherAll_eq {address : Address} {position : Position} {ts : List (Term μ)}
    (ih : ∀ t ∈ ts, ∀ (address : Address) (position : Position) (top : Bool) (m : Minimizer),
      gatherTerms hook inferSort mainInferSort identity address t position top false m =
        (gathered hook ⟨address, t, position, top, false⟩).foldlM
          (nameSite inferSort mainInferSort identity) m) (i : Nat) (m : Minimizer) :
    gatherAll hook inferSort mainInferSort identity address i ts position false m =
      ((sitesFrom (fun i t => ⟨i :: address, t, position, false, false⟩) i ts).flatMap
        (gathered hook)).foldlM (nameSite inferSort mainInferSort identity) m := by
  induction ts generalizing i m with
  | nil => rfl
  | cons t ts iht =>
    obtain ⟨ht, hts⟩ := List.forall_mem_cons.mp ih
    rw [gatherAll, sitesFrom, List.flatMap_cons, List.foldlM_append, ht]
    exact bind_congr fun m => iht hts (i + 1) m

/-- Gathering names the terms of the places it visits, one after the other. -/
theorem gatherTerms_eq (t : Term μ) (address : Address) (position : Position) (top : Bool)
    (m : Minimizer) :
    gatherTerms hook inferSort mainInferSort identity address t position top false m =
      (gathered hook ⟨address, t, position, top, false⟩).foldlM
        (nameSite inferSort mainInferSort identity) m := by
  induction t generalizing address position top m with
  | annotated term metadata ih =>
    rw [gatherTerms, ih, gathered_eq, gathered_eq]
    rfl
  | rewrite left right ihl ihr =>
    rw [gatherTerms, gathered_eq, List.foldlM_cons]
    refine bind_congr fun m => ?_
    simp only [Site.children, Term.unannotated, Bool.not_false, List.filter_cons_of_pos,
      List.filter_nil, List.flatMap_cons, List.flatMap_nil, List.foldlM_append, List.append_nil,
      ihl, ihr]
  | as pattern aliased ihl ihr =>
    rw [gatherTerms, gathered_eq, List.foldlM_cons]
    refine bind_congr fun m => ?_
    simp only [Site.children, Term.unannotated, Bool.not_false, List.filter_cons_of_pos,
      List.filter_nil, List.flatMap_cons, List.flatMap_nil, List.foldlM_append, List.append_nil,
      ihl, ihr]
  | sequence items ih =>
    rw [gatherTerms, gathered_eq, List.foldlM_cons]
    refine bind_congr fun m => ?_
    rw [Site.children]
    simp only [Term.unannotated]
    rw [filter_sitesFrom_false (fun _ _ _ => rfl), gatherAll_eq ih]
  | apply label arguments ih =>
    rw [gatherTerms, gathered_eq, List.foldlM_cons]
    refine bind_congr fun m => ?_
    rw [Site.children]
    simp only [Term.unannotated, Bool.false_or]
    split
    · next hblocked =>
      rw [filter_sitesFrom_true fun j t _ => by simp [insideArgument, hblocked]]
      rfl
    next hblocked =>
    split
    · next hmap =>
      rw [Bool.not_eq_true] at hblocked
      rcases arguments with _ | ⟨key, _ | ⟨value, rest⟩⟩
      · rfl
      · simp [sitesFrom, insideArgument, hmap, gatherValue, pure, Except.pure]
      · have hkey : insideArgument hook label 0 = true := by simp [insideArgument, hmap]
        have hvalue : insideArgument hook label 1 = false := by simp [insideArgument, hblocked]
        have hrest : (sitesFrom (fun i t => (⟨i :: address, t, position, false,
            insideArgument hook label i⟩ : Site μ)) 2 rest).filter (fun c => !c.inside) = [] := by
          refine filter_sitesFrom_true fun j t hj => ?_
          simp only [insideArgument, hmap, Bool.or_eq_true, Bool.and_eq_true, bne_iff_ne]
          exact .inr ⟨rfl, by omega⟩
        rw [sitesFrom, sitesFrom, List.filter_cons_of_neg (by simp [hkey]),
          List.filter_cons_of_pos (by simp [hvalue]), hrest, List.flatMap_cons, List.flatMap_nil,
          List.append_nil, hvalue, gatherValue]
        exact ih value (by simp) _ _ _ _
    · next hmap =>
      rw [filter_sitesFrom_false fun j t _ => by simp [insideArgument, hblocked, hmap],
        gatherAll_eq ih]
      simp [insideArgument, hblocked, hmap]
  | injectedLabel | var | token =>
    rw [gatherTerms, gathered_eq, List.foldlM_cons]
    exact (bind_pure _).symm

/-- The names of the variables of a rule. -/
def Rule.variables (rule : Rule μ) : List String :=
  [rule.body, rule.requires, rule.ensures].flatMap variableNames

/-- The terms with these numbers have variables: each its own, and none of the reserved names. -/
structure Minimizer.Names (m : Minimizer) (reserved : List String) (numbered : Nat → Prop) :
    Prop where
  reserved_used : ∀ name ∈ reserved, name ∈ m.fresh.used
  used : ∀ entry ∈ m.cache, entry.2.1 ∈ m.fresh.used
  fresh : ∀ entry ∈ m.cache, entry.2.1 ∉ reserved
  distinct : (m.cache.map fun entry => entry.2.1).Nodup
  lookup_iff : ∀ n, (m.cache.lookup n).isSome = true ↔ numbered n

theorem mem_of_lookup {α β : Type} [DecidableEq α] {entries : List (α × β)} {a : α} {b : β}
    (h : entries.lookup a = some b) : (a, b) ∈ entries := by
  induction entries with
  | nil => cases h
  | cons entry entries ih =>
    rw [List.lookup_cons] at h
    by_cases ha : a = entry.1
    · subst ha
      rw [beq_self_eq_true] at h
      cases h
      exact List.mem_cons_self
    · rw [beq_false_of_ne ha] at h
      exact List.mem_cons_of_mem _ (ih h)

/-- A variable names one number. -/
theorem Minimizer.Names.inj {m : Minimizer} {reserved : List String} {numbered : Nat → Prop}
    (h : m.Names reserved numbered) {n n' : Nat} {name : String} {sort sort' : KSort}
    (hn : m.cache.lookup n = some (name, sort)) (hn' : m.cache.lookup n' = some (name, sort')) :
    n = n' := by
  have heq := List.inj_on_of_nodup_map h.distinct (mem_of_lookup hn) (mem_of_lookup hn') rfl
  exact congrArg Prod.fst heq

theorem nameSite_names {m m' : Minimizer} {reserved : List String} {numbered : Nat → Prop}
    (hm : m.Names reserved numbered) {s : Site μ} (hopen : s.inside = false)
    (h : nameSite inferSort mainInferSort identity m s = .ok m') :
    m'.Names reserved (fun n => numbered n ∨ s.Named ∧ identity s.address = n) ∧
      m'.usedOnRhs = m.usedOnRhs := by
  unfold nameSite nameTerm at h
  split at h
  · next hnew =>
    simp only [Bool.and_eq_true, decide_eq_true_eq, Bool.not_eq_eq_eq_not, Bool.not_true,
      Option.isNone_iff_eq_none, Bool.not_false] at hnew
    obtain ⟨⟨⟨⟨⟨hleft, -⟩, htop⟩, hvariable⟩, htrue⟩, hnone⟩ := hnew
    have hnamed : s.Named := ⟨hleft, htop, hopen, hvariable, htrue⟩
    obtain ⟨sort, -, hsort⟩ := Except.bind_eq_ok.mp h
    obtain ⟨hfresh, hused⟩ := FreshNames.mint_spec "_Gen" m.fresh
    cases hsort
    refine ⟨⟨?_, ?_, ?_, ?_, ?_⟩, rfl⟩
    · intro name hname
      rw [hused]
      exact List.mem_cons_of_mem _ (hm.reserved_used name hname)
    · rw [hused, List.forall_mem_cons]
      exact ⟨List.mem_cons_self, fun entry hentry => List.mem_cons_of_mem _ (hm.used entry hentry)⟩
    · rw [List.forall_mem_cons]
      exact ⟨fun hreserved => hfresh (hm.reserved_used _ hreserved), hm.fresh⟩
    · rw [List.map_cons, List.nodup_cons]
      refine ⟨fun hmem => ?_, hm.distinct⟩
      obtain ⟨entry, hentry, heq⟩ := List.mem_map.mp hmem
      exact hfresh (heq ▸ hm.used entry hentry)
    · intro n
      rw [List.lookup_cons]
      by_cases hn : n = identity s.address
      · simp [hn, hnamed]
      · rw [beq_false_of_ne hn, hm.lookup_iff]
        simp [Ne.symm hn]
  · next hold =>
    cases h
    refine ⟨{ hm with lookup_iff := fun n => ?_ }, rfl⟩
    rw [hm.lookup_iff, iff_self_or]
    rintro ⟨⟨hleft, htop, -, hvariable, htrue⟩, rfl⟩
    rw [← hm.lookup_iff]
    by_contra hnone
    exact hold (by simp_all)

theorem foldlM_names {sites : List (Site μ)} {m m' : Minimizer} {reserved : List String}
    {numbered : Nat → Prop} (hm : m.Names reserved numbered) (hopen : ∀ s ∈ sites, s.inside = false)
    (h : sites.foldlM (nameSite inferSort mainInferSort identity) m = .ok m') :
    m'.Names reserved (fun n => numbered n ∨ ∃ s ∈ sites, s.Named ∧ identity s.address = n) ∧
      m'.usedOnRhs = m.usedOnRhs := by
  induction sites generalizing m numbered with
  | nil =>
    cases h
    exact ⟨{ hm with lookup_iff := by simpa using hm.lookup_iff }, rfl⟩
  | cons s sites ih =>
    obtain ⟨hs, hsites⟩ := List.forall_mem_cons.mp hopen
    rw [List.foldlM_cons] at h
    obtain ⟨middle, hmiddle, hrest⟩ := Except.bind_eq_ok.mp h
    obtain ⟨hnames, hkept⟩ := nameSite_names hm hs hmiddle
    obtain ⟨hnames', hkept'⟩ := ih hnames hsites hrest
    refine ⟨{ hnames' with lookup_iff := fun n => ?_ }, hkept'.trans hkept⟩
    rw [hnames'.lookup_iff]
    simp only [List.mem_cons, exists_eq_or_imp, or_assoc]

end Gathering

end KRust.Kompile
