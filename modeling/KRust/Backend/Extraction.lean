import KRust.Backend.Compose
import KRust.Lib.Equations
import Mathlib.Data.List.Dedup

/-!
The substitution that a list of constraints gives. An equality that alone binds its variable is
taken, but for those that close a cycle; what is taken is substituted into one another in rounds,
and the other constraints are left.
-/

namespace KRust.Backend

open KRust.Kore Lib

namespace Term

section Variables

/-- All variables of a term are of a kind. -/
def VarsIn (p : TermVariable → Prop) (t : Term) : Prop := ∀ v ∈ t.vars, p v

variable {p : TermVariable → Prop}

@[simp] theorem varsIn_and {left right : Term} :
    VarsIn p (.and left right) ↔ VarsIn p left ∧ VarsIn p right := List.forall_mem_append

@[simp] theorem varsIn_application {symbol : TermSymbol} {sortArguments : List KoreSort}
    {arguments : List Term} :
    VarsIn p (.application symbol sortArguments arguments) ↔ ∀ a ∈ arguments, VarsIn p a := by
  simp only [VarsIn, vars, varsOf_eq, List.forall_mem_flatMap]

@[simp] theorem varsIn_domainValue {s : KoreSort} {value : KoreString} :
    VarsIn p (.domainValue s value) := fun _ hv => nomatch hv

@[simp] theorem varsIn_var {v : TermVariable} : VarsIn p (.var v) ↔ p v := by simp [VarsIn, vars]

@[simp] theorem varsIn_map {d : MapDefinition} {entries : List (Term × Term)}
    {rest : Option Term} : VarsIn p (.map d entries rest) ↔
      (∀ e ∈ entries, VarsIn p e.1 ∧ VarsIn p e.2) ∧ ∀ r ∈ rest, VarsIn p r := by
  simp only [VarsIn, vars, varsOfEntries_eq, varsOfRest_eq, List.forall_mem_append,
    List.forall_mem_flatMap, Option.mem_toList, Option.mem_def]

@[simp] theorem varsIn_list {d : ListDefinition} {heads : List Term}
    {rest : Option (Term × List Term)} : VarsIn p (.list d heads rest) ↔
      (∀ h ∈ heads, VarsIn p h) ∧ ∀ e ∈ rest, VarsIn p e.1 ∧ ∀ t ∈ e.2, VarsIn p t := by
  simp only [VarsIn, vars, varsOf_eq, varsOfMiddle_eq, List.forall_mem_append,
    List.forall_mem_flatMap, Option.mem_toList, Option.mem_def]

@[simp] theorem varsIn_set {d : SetDefinition} {elements : List Term} {rest : Option Term} :
    VarsIn p (.set d elements rest) ↔
      (∀ e ∈ elements, VarsIn p e) ∧ ∀ r ∈ rest, VarsIn p r := by
  simp only [VarsIn, vars, varsOf_eq, varsOfRest_eq, List.forall_mem_append,
    List.forall_mem_flatMap, Option.mem_toList, Option.mem_def]

theorem varsIn_mkInjection (source target : KoreSort) {t : Term} (h : VarsIn p t) :
    VarsIn p (mkInjection source target t) := by
  fun_induction mkInjection source target t with
  | case1 source innerSource inner ih => exact ih h
  | case2 => exact h
  | case3 => exact h

theorem varsIn_mapOfItems (d : MapDefinition) {entries : List (Term × Term)} {rest : Option Term}
    (hentries : ∀ e ∈ entries, VarsIn p e.1 ∧ VarsIn p e.2) (hrest : ∀ r ∈ rest, VarsIn p r) :
    VarsIn p (mapOfItems d entries rest) := by
  rw [mapOfItems_eq]
  exact Collection.build_forall (fun _ _ => varsIn_map) hentries hrest

theorem varsIn_setOfItems (d : SetDefinition) {elements : List Term} {rest : Option Term}
    (helements : ∀ e ∈ elements, VarsIn p e) (hrest : ∀ r ∈ rest, VarsIn p r) :
    VarsIn p (setOfItems d elements rest) := by
  rw [setOfItems_eq]
  exact Collection.build_forall (fun _ _ => varsIn_set) helements hrest

theorem varsIn_listNode (d : ListDefinition) {parts : List Term × Option (Term × List Term)}
    (hheads : ∀ h ∈ parts.1, VarsIn p h)
    (hrest : ∀ e ∈ parts.2, VarsIn p e.1 ∧ ∀ t ∈ e.2, VarsIn p t) :
    VarsIn p (listNode d parts) := by
  unfold listNode
  split
  · exact (hrest _ rfl).1
  · exact varsIn_list.mpr ⟨hheads, hrest⟩

theorem varsIn_listOfItems (d : ListDefinition) {heads : List Term}
    {rest : Option (Term × List Term)} (hheads : ∀ h ∈ heads, VarsIn p h)
    (hrest : ∀ e ∈ rest, VarsIn p e.1 ∧ ∀ t ∈ e.2, VarsIn p t) :
    VarsIn p (listOfItems d heads rest) := by
  cases rest with
  | none => exact varsIn_listNode d hheads hrest
  | some entry =>
    obtain ⟨middle, tails⟩ := entry
    obtain ⟨hmiddle, htails⟩ := hrest _ rfl
    cases middle with
    | list nested nestedHeads nestedRest =>
      obtain ⟨hnested, hnestedRest⟩ := varsIn_list.mp hmiddle
      by_cases hd : nested = d
      · simp only [listOfItems, hd, if_true]
        cases nestedRest with
        | none =>
          refine varsIn_listNode d (List.forall_mem_append.mpr
            ⟨List.forall_mem_append.mpr ⟨hheads, hnested⟩, htails⟩) ?_
          simp
        | some nestedEntry =>
          obtain ⟨hnestedMiddle, hnestedTails⟩ := hnestedRest _ rfl
          refine varsIn_listNode d (List.forall_mem_append.mpr ⟨hheads, hnested⟩) ?_
          intro e he
          cases he
          exact ⟨hnestedMiddle, List.forall_mem_append.mpr ⟨hnestedTails, htails⟩⟩
      · simp only [listOfItems, hd, if_false]
        exact varsIn_listNode d hheads hrest
    | _ => exact varsIn_listNode d hheads hrest

theorem varsIn_combineLists (d : ListDefinition) (symbol : TermSymbol)
    (sortArguments : List KoreSort) {left right : Term} (hleft : VarsIn p left)
    (hright : VarsIn p right) : VarsIn p (combineLists d symbol sortArguments left right) := by
  have hitems : ∀ {t heads}, VarsIn p t → itemsOnly d t = some heads → ∀ h ∈ heads, VarsIn p h := by
    intro t heads ht hheads
    unfold itemsOnly at hheads
    split at hheads
    · split at hheads
      · cases hheads
        exact (varsIn_list.mp ht).1
      · cases hheads
    · cases hheads
  have hone : ∀ {t : Term} {tails : List Term}, VarsIn p t → (∀ h ∈ tails, VarsIn p h) →
      ∀ e ∈ some (t, tails), VarsIn p e.1 ∧ ∀ h ∈ e.2, VarsIn p h := by
    intro t tails ht htails e he
    cases he
    exact ⟨ht, htails⟩
  unfold combineLists
  split
  · next heads tails hl hr =>
    exact varsIn_listOfItems d
      (List.forall_mem_append.mpr ⟨hitems hleft hl, hitems hright hr⟩) (by simp)
  · next heads hl hr =>
    have hheads := hitems hleft hl
    split
    · obtain ⟨hrightHeads, hrest⟩ := varsIn_list.mp hright
      split
      · exact varsIn_listOfItems d (List.forall_mem_append.mpr ⟨hheads, hrightHeads⟩) hrest
      · exact varsIn_listOfItems d hheads (hone hright (by simp))
    · exact varsIn_listOfItems d hheads (hone hright (by simp))
  · next tails hl hr =>
    have htails := hitems hright hr
    split
    · obtain ⟨hleftHeads, hrest⟩ := varsIn_list.mp hleft
      obtain ⟨hmiddle, hleftTails⟩ := hrest _ rfl
      split
      · exact varsIn_listOfItems d hleftHeads
          (hone hmiddle (List.forall_mem_append.mpr ⟨hleftTails, htails⟩))
      · exact varsIn_listOfItems d (by simp) (hone hleft htails)
    · exact varsIn_listOfItems d (by simp) (hone hleft htails)
  · simp [hleft, hright]

theorem varsIn_mkApplication (symbol : TermSymbol) (sortArguments : List KoreSort)
    {arguments : List Term} (h : ∀ a ∈ arguments, VarsIn p a) :
    VarsIn p (mkApplication symbol sortArguments arguments) := by
  rw [mkApplication_eq]
  generalize applicationForm symbol sortArguments arguments.length = form
  unfold Form.apply
  split
  · exact varsIn_mkInjection _ _ (h _ (by simp))
  · exact varsIn_map.mpr ⟨by simp, by simp⟩
  · exact varsIn_map.mpr ⟨by simpa using h, by simp⟩
  · rw [combineMaps_eq]
    refine Collection.combine_forall (fun _ _ => varsIn_map) (fun a b ha hb => ?_) (h _ (by simp))
      (h _ (by simp))
    simp [concatenation, ha, hb]
  · simp
  · simpa using h
  · exact varsIn_combineLists _ _ _ (h _ (by simp)) (h _ (by simp))
  · simp
  · simpa using h
  · rw [combineSets_eq]
    refine Collection.combine_forall (fun _ _ => varsIn_set) (fun a b ha hb => ?_) (h _ (by simp))
      (h _ (by simp))
    simp [concatenation, ha, hb]
  · exact varsIn_application.mpr h

end Variables

section Substituted

variable {p : TermVariable → Prop} {bind : TermVariable → Option Term}

/-- A substituted term has only variables that are not bound, and those of the values put in. -/
theorem varsIn_substitute {t : Term} (h : VarsIn (fun v => VarsIn p ((bind v).getD (.var v))) t) :
    VarsIn p (substitute bind t) := by
  have hkeep : ∀ t changed, VarsIn (fun v => VarsIn p ((bind v).getD (.var v))) t →
      VarsIn p changed → VarsIn p (keepUnlessBound bind t changed) := by
    intro t changed ht hchanged
    unfold keepUnlessBound
    split
    · next hall =>
      intro v hv
      have hnone : bind v = none := by simpa using List.all_eq_true.mp hall v hv
      have hvar : VarsIn p ((bind v).getD (.var v)) := ht v hv
      rw [hnone, Option.getD_none, varsIn_var] at hvar
      exact hvar
    · exact hchanged
  induction t with
  | and left right ihl ihr =>
    obtain ⟨hleft, hright⟩ := varsIn_and.mp h
    exact hkeep _ _ h (varsIn_and.mpr ⟨ihl hleft, ihr hright⟩)
  | application symbol sortArguments arguments ih =>
    refine hkeep _ _ h (varsIn_mkApplication _ _ ?_)
    rw [substituteAll_eq, List.forall_mem_map]
    exact fun a ha => ih a ha (varsIn_application.mp h a ha)
  | domainValue sort value => exact varsIn_domainValue
  | var v => exact varsIn_var.mp h
  | injection source target t ih => exact hkeep _ _ h (varsIn_mkInjection _ _ (ih h))
  | map d entries rest ihe ihr =>
    obtain ⟨hentries, hrest⟩ := varsIn_map.mp h
    refine hkeep _ _ h (varsIn_mapOfItems d (fun e he => ?_) fun r hr => ?_)
    · rw [List.mem_mergeSort, substituteEntries_eq] at he
      obtain ⟨e', he', rfl⟩ := List.mem_map.mp he
      exact ⟨(ihe e' he').1 (hentries e' he').1, (ihe e' he').2 (hentries e' he').2⟩
    · rw [substituteRest_eq] at hr
      obtain ⟨r', hr', rfl⟩ := Option.map_eq_some_iff.mp hr
      exact ihr r' hr' (hrest r' hr')
  | list d heads rest ihh ihr =>
    obtain ⟨hheads, hrest⟩ := varsIn_list.mp h
    refine hkeep _ _ h (varsIn_listOfItems d ?_ fun e he => ?_)
    · rw [substituteAll_eq, List.forall_mem_map]
      exact fun e he => ihh e he (hheads e he)
    · rw [substituteMiddle_eq] at he
      obtain ⟨e', he', rfl⟩ := Option.map_eq_some_iff.mp he
      refine ⟨(ihr e' he').1 (hrest e' he').1, List.forall_mem_map.mpr fun t ht => ?_⟩
      exact (ihr e' he').2 t ht ((hrest e' he').2 t ht)
  | set d elements rest ihe ihr =>
    obtain ⟨helements, hrest⟩ := varsIn_set.mp h
    refine hkeep _ _ h (varsIn_setOfItems d (fun e he => ?_) fun r hr => ?_)
    · rw [List.mem_mergeSort, substituteAll_eq] at he
      obtain ⟨e', he', rfl⟩ := List.mem_map.mp he
      exact ihe e' he' (helements e' he')
    · rw [substituteRest_eq] at hr
      obtain ⟨r', hr', rfl⟩ := Option.map_eq_some_iff.mp hr
      exact ihr r' hr' (hrest r' hr')

instance : Substitutive TermVariable Term where
  vars := vars
  apply := substitute
  mem_apply {bind t x} hx := by
    have hall : VarsIn (fun x => (x ∈ t.vars ∧ bind x = none) ∨
        ∃ y u, y ∈ t.vars ∧ bind y = some u ∧ x ∈ u.vars) (substitute bind t) := by
      apply varsIn_substitute
      intro v hv
      cases hbind : bind v with
      | none => exact varsIn_var.mpr (.inl ⟨hv, hbind⟩)
      | some u => exact fun x hx => .inr ⟨v, u, hv, hbind, hx⟩
    exact hall x hx

/-- Where no variable of a term is bound, substitution leaves the term. -/
theorem substitute_of_unbound {t : Term} (h : Unbound bind t) : substitute bind t = t := by
  have hkeep : ∀ changed, keepUnlessBound bind t changed = t := by
    intro changed
    refine if_pos (List.all_eq_true.mpr fun v hv => ?_)
    rw [h v hv]
    rfl
  cases t with
  | domainValue sort value => rfl
  | var v => rw [substitute, h v (by simp [vars]), Option.getD_none]
  | _ => exact hkeep _

end Substituted

end Term

section Definitions

/-- What `kosaraju_scc` gives: the strongly connected components of a graph. -/
structure Components where
  of : List TermVariable → (TermVariable → TermVariable → Bool) → List (List TermVariable)
  components : ∀ vertices edge, Equations.IsComponents vertices edge (of vertices edge)

def onlyOf {α : Type} : List α → Option α
  | [a] => some a
  | _ => none

/-- The bindings of each variable, with the positions of their constraints. -/
def potentialBindings (binding : Predicate → Option (TermVariable × Term))
    (constraints : List Predicate) : SortedMap TermVariable (List (Nat × Term)) :=
  constraints.zipIdx.foldl (fun potential entry =>
    match binding entry.1 with
    | some (v, value) => potential.alter v fun found => found.getD [] ++ [(entry.2, value)]
    | none => potential) .empty

/-- Duplicate bindings are no candidates. -/
def candidateBindings (binding : Predicate → Option (TermVariable × Term))
    (constraints : List Predicate) : SortedMap TermVariable (Nat × Term) :=
  (potentialBindings binding constraints).filterMap fun _ bindings => onlyOf bindings

/-- The candidates without the least variable of each component with a cycle, until no component
has one. -/
def acyclicBindings (components : Components) (binding : Predicate → Option (TermVariable × Term))
    (constraints : List Predicate) : SortedMap TermVariable (Nat × Term) :=
  let candidates := candidateBindings binding constraints
  Equations.breakCycles components.of Prod.snd candidates.size candidates

/-- `extract_substitution_with` -/
def extractSubstitutionWith (components : Components)
    (binding : Predicate → Option (TermVariable × Term)) (constraints : List Predicate) :
    Substitution × List Predicate :=
  let candidates := acyclicBindings components binding constraints
  let selected := candidates.entries.map fun entry => entry.2.1
  (Equations.saturate candidates.size (Equations.values Prod.snd candidates),
    (constraints.zipIdx.filter fun entry => !selected.contains entry.2).map Prod.fst)

/-- `extract_substitution` -/
def extractSubstitution (components : Components) (sorts : SortGraph)
    (constraints : List Predicate) : Substitution × List Predicate :=
  extractSubstitutionWith components (substitutionBinding sorts) constraints

/-- `restricted_binding` -/
def restrictedBinding (sorts : SortGraph) (bindable : TermVariable → Bool)
    (candidate value : Term) : Option (TermVariable × Term) :=
  match candidate with
  | .var v =>
    if bindable v && !value.vars.contains v then
      (alignBindingValue sorts v value).map (v, ·)
    else none
  | _ => none

/-- `peel_equal_injections` -/
def peelEqualInjections : Term → Term → Term × Term
  | .injection source target left, .injection source' target' right =>
    if source = source' ∧ target = target' then peelEqualInjections left right
    else (.injection source target left, .injection source' target' right)
  | left, right => (left, right)

def bindingFor (sorts : SortGraph) (bindable : TermVariable → Bool) (predicate : Predicate) :
    Option (TermVariable × Term) :=
  (substitutionEquality predicate).bind fun equality =>
    let (left, right) := peelEqualInjections equality.1 equality.2
    (restrictedBinding sorts bindable left right).or (restrictedBinding sorts bindable right left)

/-- `extract_substitution_for` -/
def extractSubstitutionFor (components : Components) (sorts : SortGraph)
    (bindable : TermVariable → Bool) (constraints : List Predicate) :
    Substitution × List Predicate :=
  extractSubstitutionWith components (bindingFor sorts bindable) constraints

end Definitions

section Candidates

variable {binding : Predicate → Option (TermVariable × Term)} {constraints : List Predicate}

/-- The positions and the values of the bindings of a variable. -/
def bindingsOf (binding : Predicate → Option (TermVariable × Term)) (v : TermVariable)
    (entries : List (Predicate × Nat)) : List (Nat × Term) :=
  entries.filterMap fun entry => (binding entry.1).bind fun found =>
    if found.1 = v then some (entry.2, found.2) else none

theorem mem_bindingsOf {v : TermVariable} {entries : List (Predicate × Nat)} {index : Nat}
    {value : Term} : (index, value) ∈ bindingsOf binding v entries ↔
      ∃ constraint, (constraint, index) ∈ entries ∧ binding constraint = some (v, value) := by
  simp only [bindingsOf, List.mem_filterMap, Option.bind_eq_some_iff]
  constructor
  · rintro ⟨⟨constraint, index'⟩, hmem, ⟨w, value'⟩, hbinding, heq⟩
    split at heq
    · next hw =>
      cases heq
      exact ⟨constraint, hmem, hw ▸ hbinding⟩
    · cases heq
  · rintro ⟨constraint, hmem, hbinding⟩
    exact ⟨_, hmem, _, hbinding, if_pos rfl⟩

theorem get_potentialBindings (v : TermVariable) :
    ((potentialBindings binding constraints).get v).getD [] =
      bindingsOf binding v constraints.zipIdx := by
  have hfold : ∀ (entries : List (Predicate × Nat))
      (found : SortedMap TermVariable (List (Nat × Term))),
      ((entries.foldl (fun potential entry =>
        match binding entry.1 with
        | some (v, value) => potential.alter v fun found => found.getD [] ++ [(entry.2, value)]
        | none => potential) found).get v).getD [] =
          (found.get v).getD [] ++ bindingsOf binding v entries := by
    intro entries
    induction entries with
    | nil => simp [bindingsOf]
    | cons entry entries ih =>
      intro found
      rw [List.foldl_cons, ih]
      cases hbinding : binding entry.1 with
      | none => simp [bindingsOf, hbinding]
      | some bound =>
        obtain ⟨w, value⟩ := bound
        by_cases hw : w = v
        · simp [bindingsOf, hbinding, hw]
        · simp [bindingsOf, hbinding, hw, Ne.symm hw]
  exact hfold constraints.zipIdx .empty

theorem onlyOf_eq_some {α : Type} {as : List α} {a : α} : onlyOf as = some a ↔ as = [a] := by
  unfold onlyOf
  split <;> simp_all

theorem get_candidateBindings (v : TermVariable) :
    (candidateBindings binding constraints).get v =
      onlyOf (bindingsOf binding v constraints.zipIdx) := by
  rw [← get_potentialBindings, candidateBindings, SortedMap.get_filterMap]
  cases (potentialBindings binding constraints).get v <;> rfl

/-- The values alone, which the order of the constraints does not change. -/
theorem get_values_candidateBindings (v : TermVariable) :
    (Equations.values Prod.snd (candidateBindings binding constraints)).get v =
      onlyOf ((constraints.filterMap binding).filterMap fun found =>
        if found.1 = v then some found.2 else none) := by
  have hmap : ∀ found : List (Nat × Term),
      (onlyOf found).map Prod.snd = onlyOf (found.map Prod.snd) := by
    intro found
    rcases found with _ | ⟨_, _ | _⟩ <;> rfl
  have hvalues : ∀ entries : List (Predicate × Nat),
      (bindingsOf binding v entries).map Prod.snd =
        ((entries.map Prod.fst).filterMap binding).filterMap fun found =>
          if found.1 = v then some found.2 else none := by
    intro entries
    rw [bindingsOf, List.map_filterMap, List.filterMap_filterMap, List.filterMap_map]
    refine List.filterMap_congr fun entry _ => ?_
    cases hbinding : binding entry.1 with
    | none => simp [hbinding]
    | some found => by_cases hv : found.1 = v <;> simp [hbinding, hv]
  rw [SortedMap.get_map, get_candidateBindings, hmap, hvalues, List.zipIdx_map_fst]

end Candidates

section Acyclic

variable {components : Components} {binding : Predicate → Option (TermVariable × Term)}
  {constraints : List Predicate}

theorem acyclic_acyclicBindings : Equations.Acyclic
    (Equations.values Prod.snd (acyclicBindings components binding constraints)) :=
  Equations.acyclic_breakCycles components.components le_rfl

/-- An entry that is left is the only binding of its variable. -/
theorem bindingsOf_acyclic {v : TermVariable} {found : Nat × Term}
    (h : (acyclicBindings components binding constraints).get v = some found) :
    bindingsOf binding v constraints.zipIdx = [found] := by
  have hcandidate := Equations.get_breakCycles h
  rw [get_candidateBindings] at hcandidate
  exact onlyOf_eq_some.mp hcandidate

/-- A constraint is selected where it binds a variable that is left. -/
theorem mem_selected {constraint : Predicate} {index : Nat}
    (hmem : (constraint, index) ∈ constraints.zipIdx) :
    index ∈ (acyclicBindings components binding constraints).entries.map (fun e => e.2.1) ↔
      ∃ found ∈ binding constraint,
        found.1 ∈ (acyclicBindings components binding constraints).keys := by
  rw [List.mem_map]
  constructor
  · rintro ⟨⟨v, index', value⟩, hentry, rfl⟩
    have hget := SortedMap.get_eq_some.mpr hentry
    have hbound : (index', value) ∈ bindingsOf binding v constraints.zipIdx := by
      rw [bindingsOf_acyclic hget]
      exact List.mem_singleton.mpr rfl
    obtain ⟨constraint', hmem', hbinding⟩ := mem_bindingsOf.mp hbound
    have hat := List.mem_zipIdx_iff_getElem?.mp hmem
    have hat' := List.mem_zipIdx_iff_getElem?.mp hmem'
    have heq : constraint' = constraint := Option.some.inj (hat'.symm.trans hat)
    rw [heq] at hbinding
    exact ⟨_, hbinding, SortedMap.mem_keys.mpr ⟨_, hget⟩⟩
  · rintro ⟨⟨v, value⟩, hbinding, hkey⟩
    obtain ⟨found, hget⟩ := SortedMap.mem_keys.mp hkey
    have hbound : (index, value) ∈ bindingsOf binding v constraints.zipIdx :=
      mem_bindingsOf.mpr ⟨constraint, hmem, hbinding⟩
    rw [bindingsOf_acyclic hget, List.mem_singleton] at hbound
    exact ⟨(v, found), SortedMap.get_eq_some.mp hget, by rw [← hbound]⟩

theorem get_values_acyclic {v : TermVariable} {value : Term} :
    (Equations.values Prod.snd (acyclicBindings components binding constraints)).get v =
        some value ↔
      v ∈ (acyclicBindings components binding constraints).keys ∧
        ∃ constraint ∈ constraints, binding constraint = some (v, value) := by
  rw [SortedMap.get_map, Option.map_eq_some_iff, SortedMap.mem_keys]
  have hzip : ∀ {constraint}, constraint ∈ constraints →
      ∃ i, (constraint, i) ∈ constraints.zipIdx := by
    intro constraint hmem
    obtain ⟨i, hi, rfl⟩ := List.getElem_of_mem hmem
    exact ⟨i, List.mem_zipIdx_iff_getElem?.mpr (List.getElem?_eq_getElem hi)⟩
  constructor
  · rintro ⟨found, hget, rfl⟩
    have hbound : found ∈ bindingsOf binding v constraints.zipIdx := by
      rw [bindingsOf_acyclic hget]
      exact List.mem_singleton.mpr rfl
    obtain ⟨constraint, hmem, hbinding⟩ := mem_bindingsOf.mp hbound
    exact ⟨⟨found, hget⟩, constraint, List.fst_mem_of_mem_zipIdx hmem, hbinding⟩
  · rintro ⟨⟨found, hget⟩, constraint, hmem, hbinding⟩
    obtain ⟨index, hmem⟩ := hzip hmem
    have hbound := mem_bindingsOf.mpr ⟨constraint, hmem, hbinding⟩
    rw [bindingsOf_acyclic hget, List.mem_singleton] at hbound
    exact ⟨found, hget, by rw [← hbound]⟩

theorem keys_extractSubstitutionWith :
    (extractSubstitutionWith components binding constraints).1.keys =
      (acyclicBindings components binding constraints).keys := by
  rw [extractSubstitutionWith, Equations.keys_saturate, SortedMap.keys_map]

/-- Whether the substitution holds a variable that the constraint binds. -/
def usedIn (binding : Predicate → Option (TermVariable × Term)) (substitution : Substitution)
    (constraint : Predicate) : Bool :=
  (binding constraint).any fun found => substitution.keys.contains found.1

theorem usedIn_iff {substitution : Substitution} {constraint : Predicate} :
    usedIn binding substitution constraint = true ↔
      ∃ found ∈ binding constraint, found.1 ∈ substitution.keys := by
  rw [usedIn, Option.any_eq_true]
  simp

/-- The constraints that are left, in their order, are those that were not used. -/
theorem remaining_eq_filter :
    (extractSubstitutionWith components binding constraints).2 = constraints.filter fun c =>
      !usedIn binding (extractSubstitutionWith components binding constraints).1 c := by
  have hused : ∀ entry ∈ constraints.zipIdx,
      (!((acyclicBindings components binding constraints).entries.map
          (fun e => e.2.1)).contains entry.2) =
        !usedIn binding (extractSubstitutionWith components binding constraints).1 entry.1 := by
    intro entry hentry
    congr 1
    rw [Bool.eq_iff_iff, List.contains_iff_mem, mem_selected hentry, usedIn_iff,
      keys_extractSubstitutionWith]
  have hfilter := List.filter_map (f := Prod.fst) (l := constraints.zipIdx) (p := fun c =>
    !usedIn binding (extractSubstitutionWith components binding constraints).1 c)
  rw [List.zipIdx_map_fst] at hfilter
  rw [hfilter, extractSubstitutionWith]
  exact congrArg _ (List.filter_congr hused)

end Acyclic

section Laws

variable (components : Components) (binding : Predicate → Option (TermVariable × Term))
  (constraints : List Predicate)

/-- No value mentions a bound variable. -/
theorem unbound_extracted {v : TermVariable} {t : Term}
    (h : (extractSubstitutionWith components binding constraints).1.get v = some t) :
    Term.Unbound (extractSubstitutionWith components binding constraints).1.get t := by
  intro w hw
  have hsize : (acyclicBindings components binding constraints).size =
      (Equations.values Prod.snd (acyclicBindings components binding constraints)).size :=
    (SortedMap.size_map _ _).symm
  have hsolved : Equations.Solved (extractSubstitutionWith components binding constraints).1 := by
    rw [extractSubstitutionWith, hsize]
    exact Equations.solved_saturate acyclic_acyclicBindings
  exact SortedMap.not_mem_keys.mp (hsolved v t w h hw)

/-- Substituting twice is substituting once. -/
theorem substitute_extracted (t : Term) :
    Term.substitute (extractSubstitutionWith components binding constraints).1.get
        (Term.substitute (extractSubstitutionWith components binding constraints).1.get t) =
      Term.substitute (extractSubstitutionWith components binding constraints).1.get t := by
  apply Term.substitute_of_unbound
  apply Term.varsIn_substitute
  intro v _
  cases hget : (extractSubstitutionWith components binding constraints).1.get v with
  | none => exact Term.varsIn_var.mpr hget
  | some t => exact unbound_extracted components binding constraints hget

theorem substitution_perm {constraints other : List Predicate} (h : constraints.Perm other) :
    (extractSubstitutionWith components binding constraints).1 =
      (extractSubstitutionWith components binding other).1 := by
  have honly : ∀ {first second : List Term}, first.Perm second → onlyOf first = onlyOf second := by
    intro first second hperm
    apply Option.ext
    intro t
    rw [onlyOf_eq_some, onlyOf_eq_some]
    constructor
    · rintro rfl
      exact List.perm_singleton.mp hperm.symm
    · rintro rfl
      exact List.perm_singleton.mp hperm
  have hcandidates : Equations.values Prod.snd (candidateBindings binding constraints) =
      Equations.values Prod.snd (candidateBindings binding other) := by
    apply SortedMap.ext_get
    intro v
    rw [get_values_candidateBindings, get_values_candidateBindings]
    exact honly ((h.filterMap _).filterMap _)
  have hsize : (candidateBindings binding constraints).size =
      (candidateBindings binding other).size := by
    have hvalues := congrArg SortedMap.size hcandidates
    rwa [SortedMap.size_map, SortedMap.size_map] at hvalues
  have hvalues : Equations.values Prod.snd (acyclicBindings components binding constraints) =
      Equations.values Prod.snd (acyclicBindings components binding other) := by
    rw [acyclicBindings, acyclicBindings, hsize]
    exact Equations.values_breakCycles hcandidates
  have hrounds := congrArg SortedMap.size hvalues
  rw [SortedMap.size_map, SortedMap.size_map] at hrounds
  rw [extractSubstitutionWith, extractSubstitutionWith, hvalues, hrounds]

theorem remaining_perm {constraints other : List Predicate} (h : constraints.Perm other) :
    (extractSubstitutionWith components binding constraints).2.Perm
      (extractSubstitutionWith components binding other).2 := by
  rw [remaining_eq_filter, remaining_eq_filter, substitution_perm components binding h]
  exact h.filter _

theorem length_bindingsOf (v : TermVariable) (entries : List (Predicate × Nat)) :
    (bindingsOf binding v entries).length =
      ((entries.map Prod.fst).filterMap fun c => (binding c).map Prod.fst).count v := by
  induction entries with
  | nil => rfl
  | cons entry entries ih =>
    cases hbinding : binding entry.1 with
    | none => simpa [bindingsOf, hbinding] using ih
    | some found =>
      by_cases hv : found.1 = v
      · simpa [bindingsOf, hbinding, hv] using ih
      · simpa [bindingsOf, hbinding, hv] using ih

/-- The variables that the used constraints bind are those of the substitution, each once. -/
theorem used_perm_keys :
    ((constraints.filter
        (usedIn binding (extractSubstitutionWith components binding constraints).1)).filterMap
      fun c => (binding c).map Prod.fst).Perm
        (extractSubstitutionWith components binding constraints).1.keys := by
  let names := constraints.filterMap fun c => (binding c).map Prod.fst
  let keys := (extractSubstitutionWith components binding constraints).1.keys
  have honce : ∀ v ∈ keys, names.count v = 1 := by
    intro v hv
    have hkey : v ∈ (acyclicBindings components binding constraints).keys := by
      rw [← keys_extractSubstitutionWith]
      exact hv
    obtain ⟨found, hget⟩ := SortedMap.mem_keys.mp hkey
    have hlength := length_bindingsOf binding v constraints.zipIdx
    rw [bindingsOf_acyclic hget, List.zipIdx_map_fst] at hlength
    exact hlength.symm
  have hused : (constraints.filter
      (usedIn binding (extractSubstitutionWith components binding constraints).1)).filterMap
        (fun c => (binding c).map Prod.fst) = names.filter fun v => decide (v ∈ keys) := by
    rw [List.filterMap_filter, List.filter_filterMap]
    refine List.filterMap_congr fun c _ => ?_
    cases hbinding : binding c with
    | none => simp [usedIn, hbinding]
    | some found => simp [usedIn, hbinding, keys, Option.filter]
  rw [hused]
  refine (List.perm_ext_iff_of_nodup ?_ (SortedMap.keys_nodup _)).mpr fun v => ?_
  · refine List.nodup_iff_count_le_one.mpr fun v => ?_
    by_cases hv : v ∈ keys
    · exact (List.filter_sublist.count_le v).trans_eq (honce v hv)
    · have hnot : v ∉ names.filter fun v => decide (v ∈ keys) :=
        fun h => hv (of_decide_eq_true (List.mem_filter.mp h).2)
      exact (List.count_eq_zero_of_not_mem hnot).trans_le (Nat.zero_le 1)
  · rw [List.mem_filter, decide_eq_true_eq]
    refine ⟨fun h => h.2, fun h => ⟨?_, h⟩⟩
    exact List.count_pos_iff.mp (by rw [honce v h]; exact Nat.one_pos)

end Laws

section Saturated

variable (components : Components) (binding : Predicate → Option (TermVariable × Term))

/-- What is extracted is saturated: no value mentions a bound variable, and substituting twice is
substituting once. -/
theorem extractSubstitutionWith_saturated (constraints : List Predicate) :
    (∀ v t, (extractSubstitutionWith components binding constraints).1.get v = some t →
      Term.Unbound (extractSubstitutionWith components binding constraints).1.get t) ∧
    ∀ t, Term.substitute (extractSubstitutionWith components binding constraints).1.get
        (Term.substitute (extractSubstitutionWith components binding constraints).1.get t) =
      Term.substitute (extractSubstitutionWith components binding constraints).1.get t :=
  ⟨fun _ _ => unbound_extracted components binding constraints,
    substitute_extracted components binding constraints⟩

/-- Each constraint is used for one binding or is left in its place. -/
theorem extractSubstitutionWith_partition (constraints : List Predicate) :
    ((constraints.filter
        (usedIn binding (extractSubstitutionWith components binding constraints).1)).filterMap
      fun c => (binding c).map Prod.fst).Perm
        (extractSubstitutionWith components binding constraints).1.keys ∧
    (extractSubstitutionWith components binding constraints).2 = constraints.filter fun c =>
      !usedIn binding (extractSubstitutionWith components binding constraints).1 c :=
  ⟨used_perm_keys components binding constraints, remaining_eq_filter⟩

/-- The order of the constraints changes neither the substitution nor what is left. -/
theorem extractSubstitutionWith_perm {constraints other : List Predicate}
    (h : constraints.Perm other) :
    (extractSubstitutionWith components binding constraints).1 =
        (extractSubstitutionWith components binding other).1 ∧
      (extractSubstitutionWith components binding constraints).2.Perm
        (extractSubstitutionWith components binding other).2 :=
  ⟨substitution_perm components binding h, remaining_perm components binding h⟩

open Classical in
/-- For each vertex, those that it reaches and that reach it. -/
noncomputable def Components.mutual : Components where
  of vertices edge := vertices.map fun x => vertices.dedup.filter fun y =>
    Relation.ReflTransGen (edge · · = true) x y ∧ Relation.ReflTransGen (edge · · = true) y x
  components vertices edge := by
    refine ⟨fun x hx => ?_, fun component h => ?_, fun component h x hx => ?_,
      fun component h x hx y hy hxy hyx => ?_⟩
    · refine ⟨_, List.mem_map_of_mem hx, List.mem_filter.mpr ⟨List.mem_dedup.mpr hx, ?_⟩⟩
      exact decide_eq_true ⟨.refl, .refl⟩
    · obtain ⟨z, -, rfl⟩ := List.mem_map.mp h
      exact (List.nodup_dedup _).filter _
    · obtain ⟨z, -, rfl⟩ := List.mem_map.mp h
      exact List.mem_dedup.mp (List.mem_of_mem_filter hx)
    · obtain ⟨z, -, rfl⟩ := List.mem_map.mp h
      obtain ⟨hzx, hxz⟩ := of_decide_eq_true (List.mem_filter.mp hx).2
      refine List.mem_filter.mpr ⟨List.mem_dedup.mpr hy, ?_⟩
      exact decide_eq_true ⟨hzx.trans hxy, hyx.trans hxz⟩

/-- An equality before and behind another constraint. -/
theorem extractSubstitutionWith_perm_of_swap :
    (extractSubstitutionWith .mutual (substitutionBinding ⟨[], [], []⟩)
        [.equals (.var ⟨.element, Term.simpleSort "S", "X"⟩)
          (.var ⟨.element, Term.simpleSort "S", "Y"⟩), .falsity]).1 =
      (extractSubstitutionWith .mutual (substitutionBinding ⟨[], [], []⟩)
        [.falsity, .equals (.var ⟨.element, Term.simpleSort "S", "X"⟩)
          (.var ⟨.element, Term.simpleSort "S", "Y"⟩)]).1 ∧
    (extractSubstitutionWith .mutual (substitutionBinding ⟨[], [], []⟩)
        [.equals (.var ⟨.element, Term.simpleSort "S", "X"⟩)
          (.var ⟨.element, Term.simpleSort "S", "Y"⟩), .falsity]).2.Perm
      (extractSubstitutionWith .mutual (substitutionBinding ⟨[], [], []⟩)
        [.falsity, .equals (.var ⟨.element, Term.simpleSort "S", "X"⟩)
          (.var ⟨.element, Term.simpleSort "S", "Y"⟩)]).2 :=
  extractSubstitutionWith_perm .mutual (substitutionBinding ⟨[], [], []⟩) (List.Perm.swap _ _ [])

end Saturated

section Meaning

/-- An equality hook is that of a plain symbol, and a sequence is no collection. -/
structure PlainSymbol (symbol : TermSymbol) : Prop where
  equality : symbol.attributes.hook ∈
      [some "INT.eq", some "KEQUAL.eq", some "INT.ne", some "KEQUAL.ne"] →
    symbol.attributes.collection = none ∧ symbol.name ≠ "inj" ∧ symbol.name ≠ "kseq"
  sequence : symbol.name = "kseq" → symbol.attributes.collection = none

def headSymbol : Term → Option TermSymbol
  | .application symbol _ _ => some symbol
  | _ => none

/-- The head of a term and those of its arguments. -/
def outerSymbols : Term → List TermSymbol
  | .application symbol _ arguments => symbol :: arguments.filterMap headSymbol
  | _ => []

def Predicate.Plain (c : Predicate) : Prop :=
  ∀ left right, c = .equals left right →
    ∀ symbol ∈ outerSymbols left ++ outerSymbols right, PlainSymbol symbol

/-- Constraints over the symbols of a definition. -/
structure PlainConstraints where
  constraints : List Predicate
  plain : ∀ c ∈ constraints, c.Plain

/-- The values of terms under valuations of their variables. The constructors keep them, the
injections into supersorts and the sequences of one item leave them, and the hooks of equality
compare them. -/
structure ConstraintMeaning (D : Type) where
  eval : (TermVariable → D) → Term → D
  holds : (TermVariable → D) → Predicate → Prop
  holds_equals : ∀ ρ left right, holds ρ (.equals left right) ↔ eval ρ left = eval ρ right
  eval_var : ∀ ρ v, eval ρ (.var v) = ρ v
  eval_and : ∀ ρ left right left' right', eval ρ left = eval ρ left' →
    eval ρ right = eval ρ right' → eval ρ (.and left right) = eval ρ (.and left' right')
  eval_application : ∀ ρ symbol sortArguments (arguments arguments' : List Term),
    arguments.map (eval ρ) = arguments'.map (eval ρ) →
      eval ρ (.application symbol sortArguments arguments) =
        eval ρ (Term.mkApplication symbol sortArguments arguments')
  eval_injection : ∀ ρ source target t, eval ρ (.injection source target t) = eval ρ t
  eval_map : ∀ ρ d (entries entries' : List (Term × Term)) (rest rest' : Option Term),
    entries.map (Prod.map (eval ρ) (eval ρ)) = entries'.map (Prod.map (eval ρ) (eval ρ)) →
      rest.map (eval ρ) = rest'.map (eval ρ) → eval ρ (.map d entries rest) =
        eval ρ (Term.mapOfItems d (entries'.mergeSort CollectionOrder.entryLe) rest')
  eval_list : ∀ ρ d (heads heads' : List Term) (rest rest' : Option (Term × List Term)),
    heads.map (eval ρ) = heads'.map (eval ρ) →
    rest.map (Prod.map (eval ρ) (List.map (eval ρ))) =
      rest'.map (Prod.map (eval ρ) (List.map (eval ρ))) →
        eval ρ (.list d heads rest) = eval ρ (Term.listOfItems d heads' rest')
  eval_set : ∀ ρ d (elements elements' : List Term) (rest rest' : Option Term),
    elements.map (eval ρ) = elements'.map (eval ρ) → rest.map (eval ρ) = rest'.map (eval ρ) →
      eval ρ (.set d elements rest) =
        eval ρ (Term.setOfItems d (elements'.mergeSort CollectionOrder.elementLe) rest')
  eval_kseq : ∀ ρ symbol tail sortArguments tailArguments first, PlainSymbol symbol →
    symbol.name = "kseq" → tail.name = "dotk" →
      eval ρ (.application symbol sortArguments [first, .application tail tailArguments []]) =
        eval ρ first
  eval_equality : ∀ ρ symbol sortArguments left right literal, PlainSymbol symbol →
    symbol.attributes.hook = some "INT.eq" ∨ symbol.attributes.hook = some "KEQUAL.eq" →
      booleanOf literal = some true →
        (eval ρ (.application symbol sortArguments [left, right]) = eval ρ literal ↔
          eval ρ left = eval ρ right)
  eval_inequality : ∀ ρ symbol sortArguments left right literal, PlainSymbol symbol →
    symbol.attributes.hook = some "INT.ne" ∨ symbol.attributes.hook = some "KEQUAL.ne" →
      booleanOf literal = some false →
        (eval ρ (.application symbol sortArguments [left, right]) = eval ρ literal ↔
          eval ρ left = eval ρ right)

namespace ConstraintMeaning

variable {D : Type} (M : ConstraintMeaning D) {ρ : TermVariable → D}

theorem eval_mkInjection (source target : KoreSort) (t : Term) :
    M.eval ρ (Term.mkInjection source target t) = M.eval ρ t := by
  fun_induction Term.mkInjection source target t with
  | case1 source innerSource inner ih => rw [ih, M.eval_injection]
  | case2 => exact M.eval_injection ..
  | case3 => exact M.eval_injection ..

/-- Substituting equals for equals keeps the value of a term. -/
theorem eval_substitute {bind : TermVariable → Option Term} {t : Term}
    (h : t.VarsIn fun v => ∀ u ∈ bind v, ρ v = M.eval ρ u) :
    M.eval ρ t = M.eval ρ (Term.substitute bind t) := by
  have hkeep : ∀ {t changed}, M.eval ρ t = M.eval ρ changed →
      M.eval ρ t = M.eval ρ (Term.keepUnlessBound bind t changed) := by
    intro t changed heval
    unfold Term.keepUnlessBound
    split
    · rfl
    · exact heval
  induction t with
  | and left right ihl ihr =>
    obtain ⟨hleft, hright⟩ := Term.varsIn_and.mp h
    exact hkeep (M.eval_and _ _ _ _ _ (ihl hleft) (ihr hright))
  | application symbol sortArguments arguments ih =>
    refine hkeep (M.eval_application _ _ _ _ _ ?_)
    rw [Term.substituteAll_eq, List.map_map]
    exact List.map_congr_left fun a ha => ih a ha (Term.varsIn_application.mp h a ha)
  | domainValue sort value => rfl
  | var v =>
    have hv := Term.varsIn_var.mp h
    rw [Term.substitute]
    cases hbind : bind v with
    | none => rfl
    | some u => exact (M.eval_var ρ v).trans (hv u hbind)
  | injection source target t ih =>
    refine hkeep ?_
    rw [M.eval_injection, M.eval_mkInjection]
    exact ih h
  | map d entries rest ihe ihr =>
    obtain ⟨hentries, hrest⟩ := Term.varsIn_map.mp h
    refine hkeep (M.eval_map _ _ _ _ _ _ ?_ ?_)
    · rw [Term.substituteEntries_eq, List.map_map]
      refine List.map_congr_left fun e he => Prod.ext ?_ ?_
      · exact (ihe e he).1 (hentries e he).1
      · exact (ihe e he).2 (hentries e he).2
    · rw [Term.substituteRest_eq, Option.map_map]
      exact Option.map_congr fun r hr => ihr r hr (hrest r hr)
  | list d heads rest ihh ihr =>
    obtain ⟨hheads, hrest⟩ := Term.varsIn_list.mp h
    refine hkeep (M.eval_list _ _ _ _ _ _ ?_ ?_)
    · rw [Term.substituteAll_eq, List.map_map]
      exact List.map_congr_left fun e he => ihh e he (hheads e he)
    · rw [Term.substituteMiddle_eq, Option.map_map]
      refine Option.map_congr fun e he => Prod.ext ?_ ?_
      · exact (ihr e he).1 (hrest e he).1
      · refine Eq.trans ?_ List.map_map.symm
        exact List.map_congr_left fun t ht => (ihr e he).2 t ht ((hrest e he).2 t ht)
  | set d elements rest ihe ihr =>
    obtain ⟨helements, hrest⟩ := Term.varsIn_set.mp h
    refine hkeep (M.eval_set _ _ _ _ _ _ ?_ ?_)
    · rw [Term.substituteAll_eq, List.map_map]
      exact List.map_congr_left fun e he => ihe e he (helements e he)
    · rw [Term.substituteRest_eq, Option.map_map]
      exact Option.map_congr fun r hr => ihr r hr (hrest r hr)

/-- Substituting equals for equals, as the equations need it. -/
def meaning : Meaning TermVariable Term D where
  eval := M.eval
  eval_apply h := (M.eval_substitute fun v hv u hu => h v u hv hu).symm

theorem eval_stripKseq {t : Term} (hplain : ∀ symbol ∈ headSymbol t, PlainSymbol symbol) :
    M.eval ρ (stripKseq t) = M.eval ρ t := by
  unfold stripKseq
  split
  · next symbol sortArguments first tail tailArguments =>
    have hsymbol : PlainSymbol symbol := hplain symbol rfl
    split
    · next hnames =>
      have hkseq := M.eval_kseq ρ symbol tail sortArguments tailArguments
      rw [hkseq _ hsymbol hnames.1 hnames.2]
      split
      · split
        · exact (M.eval_injection ..).symm
        · split
          · rfl
          · exact hkseq _ hsymbol hnames.1 hnames.2
      · split
        · rfl
        · exact hkseq _ hsymbol hnames.1 hnames.2
    · rfl
  · rfl

theorem eval_hookedEquality {t literal left right : Term} {expected : Bool}
    (hplain : ∀ symbol ∈ outerSymbols t, PlainSymbol symbol)
    (hliteral : booleanOf literal = some expected)
    (h : hookedEquality t expected = some (left, right)) :
    M.eval ρ t = M.eval ρ literal ↔ M.eval ρ left = M.eval ρ right := by
  unfold hookedEquality at h
  split at h
  · next symbol sortArguments arguments =>
    have hsymbol : PlainSymbol symbol := hplain symbol List.mem_cons_self
    split at h
    · cases h
    · next hook hhook =>
      split at h
      · next hexpected =>
        split at h
        · next first second =>
          have hoperands : M.eval ρ (.application symbol sortArguments [first, second]) =
              M.eval ρ literal ↔ M.eval ρ first = M.eval ρ second := by
            rcases hexpected with ⟨hname, rfl⟩ | ⟨hname, rfl⟩
            · refine M.eval_equality _ _ _ _ _ _ hsymbol ?_ hliteral
              rw [hhook, Option.some.injEq, Option.some.injEq]
              exact hname
            · refine M.eval_inequality _ _ _ _ _ _ hsymbol ?_ hliteral
              rw [hhook, Option.some.injEq, Option.some.injEq]
              exact hname
          split at h
          · cases h
            have hinner : ∀ a ∈ [first, second], ∀ symbol ∈ headSymbol a, PlainSymbol symbol :=
              fun a ha symbol hhead =>
                hplain symbol (List.mem_cons_of_mem _ (List.mem_filterMap.mpr ⟨a, ha, hhead⟩))
            rw [M.eval_stripKseq (hinner first (by simp)),
              M.eval_stripKseq (hinner second (by simp))]
            exact hoperands
          · cases h
            exact hoperands
        · cases h
      · cases h
  · cases h

/-- The operands of an equality are equal exactly where it holds. -/
theorem holds_substitutionEquality {c : Predicate} {left right : Term}
    (hplain : c.Plain) (h : substitutionEquality c = some (left, right)) :
    M.holds ρ c ↔ M.eval ρ left = M.eval ρ right := by
  unfold substitutionEquality at h
  split at h
  · next first second =>
    have hsymbols := List.forall_mem_append.mp (hplain first second rfl)
    rw [M.holds_equals]
    split at h
    · next operands hoperands =>
      cases h
      obtain ⟨expected, hliteral, hhook⟩ := Option.bind_eq_some_iff.mp hoperands
      exact M.eval_hookedEquality hsymbols.1 hliteral hhook
    · split at h
      · next operands hoperands =>
        cases h
        obtain ⟨expected, hliteral, hhook⟩ := Option.bind_eq_some_iff.mp hoperands
        exact eq_comm.trans (M.eval_hookedEquality hsymbols.2 hliteral hhook)
      · cases h
        exact Iff.rfl
  · cases h

theorem eval_alignBindingValue {sorts : SortGraph} {v : TermVariable} {value aligned : Term}
    (h : alignBindingValue sorts v value = some aligned) :
    M.eval ρ aligned = M.eval ρ value := by
  unfold alignBindingValue at h
  split at h
  · cases h
    rfl
  · split at h
    · cases h
      exact M.eval_mkInjection _ _ _
    · cases h

/-- A binding of a constraint holds exactly when the constraint does. -/
def Sound (binding : Predicate → Option (TermVariable × Term)) : Prop :=
  ∀ ρ (c : Predicate) v value, c.Plain → binding c = some (v, value) →
    (M.holds ρ c ↔ ρ v = M.eval ρ value)

theorem eval_orient {sorts : SortGraph} {left right : Term} {v : TermVariable} {value : Term}
    (h : orient sorts left right = some (v, value)) :
    M.eval ρ left = M.eval ρ right ↔ ρ v = M.eval ρ value := by
  unfold orient at h
  split at h
  · split at h
    · cases h
    · obtain ⟨aligned, haligned, heq⟩ := Option.map_eq_some_iff.mp h
      cases heq
      rw [M.eval_var, M.eval_alignBindingValue haligned]
  · cases h

theorem sound_substitutionBinding (sorts : SortGraph) : M.Sound (substitutionBinding sorts) := by
  intro ρ c v value hplain h
  unfold substitutionBinding at h
  split at h
  · cases h
  · next left right hequality =>
    rw [M.holds_substitutionEquality hplain hequality]
    rcases Option.or_eq_some_iff.mp h with h | ⟨-, h⟩
    · exact M.eval_orient h
    · exact eq_comm.trans (M.eval_orient h)

theorem eval_peelEqualInjections (left right : Term) :
    M.eval ρ (peelEqualInjections left right).1 = M.eval ρ left ∧
      M.eval ρ (peelEqualInjections left right).2 = M.eval ρ right := by
  fun_induction peelEqualInjections left right with
  | case1 source target left _ _ right _ ih =>
    rw [M.eval_injection, M.eval_injection]
    exact ih
  | case2 => exact ⟨rfl, rfl⟩
  | case3 => exact ⟨rfl, rfl⟩

theorem eval_restrictedBinding {sorts : SortGraph} {bindable : TermVariable → Bool}
    {left right : Term} {v : TermVariable} {value : Term}
    (h : restrictedBinding sorts bindable left right = some (v, value)) :
    M.eval ρ left = M.eval ρ right ↔ ρ v = M.eval ρ value := by
  unfold restrictedBinding at h
  split at h
  · split at h
    · obtain ⟨aligned, haligned, heq⟩ := Option.map_eq_some_iff.mp h
      cases heq
      rw [M.eval_var, M.eval_alignBindingValue haligned]
    · cases h
  · cases h

theorem sound_bindingFor (sorts : SortGraph) (bindable : TermVariable → Bool) :
    M.Sound (bindingFor sorts bindable) := by
  intro ρ c v value hplain h
  obtain ⟨⟨left, right⟩, hequality, h⟩ := Option.bind_eq_some_iff.mp h
  obtain ⟨hleft, hright⟩ := M.eval_peelEqualInjections (ρ := ρ) left right
  rw [M.holds_substitutionEquality hplain hequality, ← hleft, ← hright]
  rcases Option.or_eq_some_iff.mp h with h | ⟨-, h⟩
  · exact M.eval_restrictedBinding h
  · exact eq_comm.trans (M.eval_restrictedBinding h)

theorem holds_extracted {binding : Predicate → Option (TermVariable × Term)}
    (hsound : M.Sound binding) (components : Components) {constraints : List Predicate}
    (hplain : ∀ c ∈ constraints, c.Plain) :
    (∀ c ∈ constraints, M.holds ρ c) ↔
      (∀ v t, (extractSubstitutionWith components binding constraints).1.get v = some t →
        ρ v = M.eval ρ t) ∧
      ∀ c ∈ (extractSubstitutionWith components binding constraints).2, M.holds ρ c := by
  have hacyclic : Equations.Acyclic
      (Equations.values Prod.snd (acyclicBindings components binding constraints)) :=
    acyclic_acyclicBindings
  have hsaturate : Equations.Solves M.meaning ρ
      (extractSubstitutionWith components binding constraints).1 ↔
        Equations.Solves M.meaning ρ
          (Equations.values Prod.snd (acyclicBindings components binding constraints)) :=
    Equations.solves_saturate hacyclic _
  have hsolves : (∀ v t, (extractSubstitutionWith components binding constraints).1.get v =
      some t → ρ v = M.eval ρ t) ↔ ∀ c ∈ constraints,
        usedIn binding (extractSubstitutionWith components binding constraints).1 c = true →
          M.holds ρ c := by
    refine hsaturate.trans ?_
    constructor
    · intro hsolves c hc hused
      obtain ⟨⟨v, value⟩, hbinding, hkey⟩ := usedIn_iff.mp hused
      rw [keys_extractSubstitutionWith] at hkey
      exact (hsound ρ c v value (hplain c hc) hbinding).mpr
        (hsolves v value (get_values_acyclic.mpr ⟨hkey, c, hc, hbinding⟩))
    · intro hholds v value hget
      obtain ⟨hkey, c, hc, hbinding⟩ := get_values_acyclic.mp hget
      rw [← keys_extractSubstitutionWith] at hkey
      exact (hsound ρ c v value (hplain c hc) hbinding).mp
        (hholds c hc (usedIn_iff.mpr ⟨_, hbinding, hkey⟩))
  rw [hsolves, remaining_eq_filter]
  constructor
  · exact fun hholds => ⟨fun c hc _ => hholds c hc,
      fun c hc => hholds c (List.mem_of_mem_filter hc)⟩
  · rintro ⟨hused, hleft⟩ c hc
    cases hcase : usedIn binding (extractSubstitutionWith components binding constraints).1 c with
    | true => exact hused c hc hcase
    | false => exact hleft c (List.mem_filter.mpr ⟨hc, by rw [hcase]; rfl⟩)

end ConstraintMeaning

variable {D : Type} (M : ConstraintMeaning D) (ρ : TermVariable → D) (components : Components)
  (sorts : SortGraph) (constraints : PlainConstraints)

/-- A valuation satisfies the constraints exactly when it satisfies the equations of the
substitution and what is left. -/
theorem extractSubstitution_equivalent :
    (∀ c ∈ constraints.constraints, M.holds ρ c) ↔
      (∀ v t, (extractSubstitution components sorts constraints.constraints).1.get v = some t →
        ρ v = M.eval ρ t) ∧
      ∀ c ∈ (extractSubstitution components sorts constraints.constraints).2, M.holds ρ c :=
  M.holds_extracted (M.sound_substitutionBinding sorts) components constraints.plain

theorem bindable_of_bindingFor {sorts : SortGraph} {bindable : TermVariable → Bool}
    {c : Predicate} {found : TermVariable × Term} (h : bindingFor sorts bindable c = some found) :
    bindable found.1 = true := by
  have hrestricted : ∀ left right, restrictedBinding sorts bindable left right = some found →
      bindable found.1 = true := by
    intro left right h
    unfold restrictedBinding at h
    split at h
    · split at h
      · next hv =>
        obtain ⟨aligned, -, rfl⟩ := Option.map_eq_some_iff.mp h
        exact (Bool.and_eq_true_iff.mp hv).1
      · cases h
    · cases h
  obtain ⟨equality, -, h⟩ := Option.bind_eq_some_iff.mp h
  rcases Option.or_eq_some_iff.mp h with h | ⟨-, h⟩
  · exact hrestricted _ _ h
  · exact hrestricted _ _ h

/-- Only the given variables are bound, and no solution is lost or gained. -/
theorem extractSubstitutionFor_equivalent (bindable : TermVariable → Bool) :
    (∀ v ∈ (extractSubstitutionFor components sorts bindable constraints.constraints).1.keys,
      bindable v = true) ∧
    ((∀ c ∈ constraints.constraints, M.holds ρ c) ↔
      (∀ v t, (extractSubstitutionFor components sorts bindable
          constraints.constraints).1.get v = some t → ρ v = M.eval ρ t) ∧
        ∀ c ∈ (extractSubstitutionFor components sorts bindable constraints.constraints).2,
          M.holds ρ c) := by
  refine ⟨fun v hv => ?_, M.holds_extracted (M.sound_bindingFor sorts bindable) components
    constraints.plain⟩
  have hused := (used_perm_keys components (bindingFor sorts bindable)
    constraints.constraints).mem_iff.mpr hv
  obtain ⟨c, -, hc⟩ := List.mem_filterMap.mp hused
  obtain ⟨found, hfound, rfl⟩ := Option.map_eq_some_iff.mp hc
  exact bindable_of_bindingFor hfound

end Meaning

end KRust.Backend
