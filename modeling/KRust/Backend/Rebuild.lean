import KRust.Backend.Normal
import KRust.Backend.Substitution

/-!
Substitution in the terms that the constructors build: leaving out what mentions no bound variable
changes nothing, and substituting twice is substituting once.
-/

namespace KRust.Backend.Term

open KRust.Kore Lib

section Rebuild

variable (bind : TermVariable → Option Term)

/-- The plain rebuild: every occurrence of a bound variable is replaced and every node is
constructed anew. -/
def rebuild : Term → Term
  | .and left right => .and (rebuild left) (rebuild right)
  | .application symbol sortArguments arguments =>
    mkApplication symbol sortArguments (rebuildAll arguments)
  | .domainValue sort value => .domainValue sort value
  | .var v => (bind v).getD (.var v)
  | .injection source target term => mkInjection source target (rebuild term)
  | .map d entries rest => mkMap d (rebuildEntries entries) (rebuildRest rest)
  | .list d heads rest => listOfItems d (rebuildAll heads) (rebuildMiddle rest)
  | .set d elements rest => mkSet d (rebuildAll elements) (rebuildRest rest)
where
  rebuildAll : List Term → List Term
  | [] => []
  | term :: terms => rebuild term :: rebuildAll terms
  rebuildEntries : List (Term × Term) → List (Term × Term)
  | [] => []
  | (key, value) :: entries => (rebuild key, rebuild value) :: rebuildEntries entries
  rebuildRest : Option Term → Option Term
  | none => none
  | some rest => some (rebuild rest)
  rebuildMiddle : Option (Term × List Term) → Option (Term × List Term)
  | none => none
  | some (middle, tails) => some (rebuild middle, rebuildAll tails)

variable {bind}

def rebuildEntry (bind : TermVariable → Option Term) (entry : Term × Term) : Term × Term :=
  (rebuild bind entry.1, rebuild bind entry.2)

@[simp]
theorem rebuildAll_eq (terms : List Term) :
    rebuild.rebuildAll bind terms = terms.map (rebuild bind) := by
  induction terms with
  | nil => rfl
  | cons term terms ih => rw [rebuild.rebuildAll, ih, List.map_cons]

@[simp]
theorem rebuildEntries_eq (entries : List (Term × Term)) :
    rebuild.rebuildEntries bind entries = entries.map (rebuildEntry bind) := by
  induction entries with
  | nil => rfl
  | cons entry entries ih => rw [rebuild.rebuildEntries, ih, List.map_cons, rebuildEntry]

@[simp]
theorem rebuildRest_eq (rest : Option Term) :
    rebuild.rebuildRest bind rest = rest.map (rebuild bind) := by
  cases rest <;> rfl

@[simp]
theorem rebuildMiddle_eq (rest : Option (Term × List Term)) :
    rebuild.rebuildMiddle bind rest =
      rest.map fun entry => (rebuild bind entry.1, entry.2.map (rebuild bind)) := by
  cases rest with
  | none => rfl
  | some entry => rw [rebuild.rebuildMiddle, rebuildAll_eq, Option.map_some]

/-- Bindings whose values the constructors built. -/
def NormalBindings (bind : TermVariable → Option Term) : Prop := ∀ v, ∀ t ∈ bind v, Normal t

theorem normal_rebuild (hbind : NormalBindings bind) {t : Term} (h : Normal t) :
    Normal (rebuild bind t) := by
  induction t with
  | and left right ihl ihr =>
    cases h with
    | and hleft hright => exact .and (ihl hleft) (ihr hright)
  | application symbol sortArguments arguments ih =>
    cases h with
    | application harguments _ =>
      rw [rebuild, rebuildAll_eq]
      apply normal_mkApplication
      intro a ha
      obtain ⟨b, hb, rfl⟩ := List.mem_map.mp ha
      exact ih b hb (harguments b hb)
  | domainValue sort value => exact h
  | var v =>
    rw [rebuild]
    cases hv : bind v with
    | none => exact h
    | some t => exact hbind v t hv
  | injection source target term ih =>
    cases h with
    | injection hterm _ => exact normal_mkInjection source target (ih hterm)
  | map d entries rest ihe ihr =>
    cases h with
    | map hkeys hvalues hrest =>
      rw [rebuild, rebuildEntries_eq, rebuildRest_eq, mkMap]
      refine normal_mapOfItems (fun e he => ?_) (fun r hr => ?_)
        (isOrder_entryLe.sorted_mergeSort _)
      · obtain ⟨e', he', rfl⟩ := List.mem_map.mp (List.mem_mergeSort.mp he)
        exact ⟨(ihe e' he').1 (hkeys e' he'), (ihe e' he').2 (hvalues e' he')⟩
      · obtain ⟨r', hr', rfl⟩ := Option.map_eq_some_iff.mp hr
        exact ihr r' hr' (hrest r' hr')
  | list d heads rest ihh ihr =>
    cases h with
    | list hheads hmiddle htails =>
      rw [rebuild, rebuildAll_eq, rebuildMiddle_eq]
      refine normal_listOfItems (fun e he => ?_) (fun e he => ?_) (fun e he t ht => ?_)
      · obtain ⟨e', he', rfl⟩ := List.mem_map.mp he
        exact ihh e' he' (hheads e' he')
      · obtain ⟨e', he', rfl⟩ := Option.map_eq_some_iff.mp he
        exact (ihr e' he').1 (hmiddle e' he')
      · obtain ⟨e', he', rfl⟩ := Option.map_eq_some_iff.mp he
        obtain ⟨t', ht', rfl⟩ := List.mem_map.mp ht
        exact (ihr e' he').2 t' ht' (htails e' he' t' ht')
  | set d elements rest ihe ihr =>
    cases h with
    | set helements hrest =>
      rw [rebuild, rebuildAll_eq, rebuildRest_eq, mkSet]
      refine normal_setOfItems (fun e he => ?_) (fun r hr => ?_)
        (isOrder_elementLe.sorted_mergeSort _)
      · obtain ⟨e', he', rfl⟩ := List.mem_map.mp (List.mem_mergeSort.mp he)
        exact ihe e' he' (helements e' he')
      · obtain ⟨r', hr', rfl⟩ := Option.map_eq_some_iff.mp hr
        exact ihr r' hr' (hrest r' hr')

/-- What a rebuild puts in place of a term is made by the constructors. -/
theorem built_rebuild (hbind : ∀ v, ∀ t ∈ bind v, Built t) (t : Term) : Built (rebuild bind t) := by
  induction t with
  | and left right ihl ihr => exact .and ihl ihr
  | application symbol sortArguments arguments ih =>
    rw [rebuild, rebuildAll_eq]
    apply Built.application
    intro a ha
    obtain ⟨b, hb, rfl⟩ := List.mem_map.mp ha
    exact ih b hb
  | domainValue sort value => exact .domainValue sort value
  | var v =>
    rw [rebuild]
    cases hv : bind v with
    | none => exact .var v
    | some t => exact hbind v t hv
  | injection source target term ih => exact .injection source target ih
  | map d entries rest ihe ihr =>
    rw [rebuild, rebuildEntries_eq, rebuildRest_eq]
    refine .map d (fun e he => ?_) (fun e he => ?_) fun r hr => ?_
    · obtain ⟨e', he', rfl⟩ := List.mem_map.mp he
      exact (ihe e' he').1
    · obtain ⟨e', he', rfl⟩ := List.mem_map.mp he
      exact (ihe e' he').2
    · obtain ⟨r', hr', rfl⟩ := Option.map_eq_some_iff.mp hr
      exact ihr r' hr'
  | list d heads rest ihh ihr =>
    rw [rebuild, rebuildAll_eq, rebuildMiddle_eq]
    refine .list d (fun e he => ?_) (fun e he => ?_) fun e he t ht => ?_
    · obtain ⟨e', he', rfl⟩ := List.mem_map.mp he
      exact ihh e' he'
    · obtain ⟨e', he', rfl⟩ := Option.map_eq_some_iff.mp he
      exact (ihr e' he').1
    · obtain ⟨e', he', rfl⟩ := Option.map_eq_some_iff.mp he
      obtain ⟨t', ht', rfl⟩ := List.mem_map.mp ht
      exact (ihr e' he').2 t' ht'
  | set d elements rest ihe ihr =>
    rw [rebuild, rebuildAll_eq, rebuildRest_eq]
    refine .set d (fun e he => ?_) fun r hr => ?_
    · obtain ⟨e', he', rfl⟩ := List.mem_map.mp he
      exact ihe e' he'
    · obtain ⟨r', hr', rfl⟩ := Option.map_eq_some_iff.mp hr
      exact ihr r' hr'

end Rebuild

section Unbound

theorem varsOf_eq (terms : List Term) : vars.varsOf terms = terms.flatMap vars := by
  induction terms with
  | nil => rfl
  | cons term terms ih => rw [vars.varsOf, ih, List.flatMap_cons]

theorem varsOfEntries_eq (entries : List (Term × Term)) :
    vars.varsOfEntries entries = entries.flatMap fun entry => entry.1.vars ++ entry.2.vars := by
  induction entries with
  | nil => rfl
  | cons entry entries ih => rw [vars.varsOfEntries, ih, List.flatMap_cons]

theorem varsOfRest_eq (rest : Option Term) :
    vars.varsOfRest rest = rest.toList.flatMap vars := by
  cases rest <;> simp [vars.varsOfRest]

theorem varsOfMiddle_eq (rest : Option (Term × List Term)) :
    vars.varsOfMiddle rest =
      rest.toList.flatMap fun entry => entry.1.vars ++ entry.2.flatMap vars := by
  cases rest <;> simp [vars.varsOfMiddle, varsOf_eq]

/-- No variable of the term is bound. -/
def Unbound (bind : TermVariable → Option Term) (t : Term) : Prop := ∀ v ∈ t.vars, bind v = none

variable {bind : TermVariable → Option Term}

/-- The items of a map in their order, before a rest of another kind, are rebuilt as they are. -/
theorem Normal.mkMap {d : MapDefinition} {entries : List (Term × Term)} {rest : Option Term}
    (h : Normal (.map d entries rest)) : mkMap d entries rest = .map d entries rest := by
  cases h with
  | map _ _ _ hsorted hforeign hempty =>
    rw [Term.mkMap, List.mergeSort_of_pairwise hsorted, mapOfItems_eq,
      Collection.build_of_foreign hforeign]
    cases entries with
    | nil =>
      rw [hempty rfl]
      rfl
    | cons entry entries => rfl

theorem Normal.mkSet {d : SetDefinition} {elements : List Term} {rest : Option Term}
    (h : Normal (.set d elements rest)) : mkSet d elements rest = .set d elements rest := by
  cases h with
  | set _ _ hsorted hforeign hempty =>
    rw [Term.mkSet, List.mergeSort_of_pairwise hsorted, setOfItems_eq,
      Collection.build_of_foreign hforeign]
    cases elements with
    | nil =>
      rw [hempty rfl]
      rfl
    | cons element elements => rfl

theorem Normal.listOfItems {d : ListDefinition} {heads : List Term}
    {rest : Option (Term × List Term)} (h : Normal (.list d heads rest)) :
    listOfItems d heads rest = .list d heads rest := by
  cases h with
  | list _ _ _ hforeign hempty =>
    cases rest with
    | none =>
      rw [listOfItems_eq]
      rfl
    | some entry =>
      rw [listOfItems_foreign d heads entry.2 (hforeign entry rfl)]
      obtain ⟨middle, tails⟩ := entry
      rcases heads with _ | ⟨head, heads⟩
      · rcases tails with _ | ⟨tail, tails⟩
        · exact absurd rfl (hempty rfl _ rfl)
        · rfl
      · rfl

theorem Normal.mkInjection {source target : KoreSort} {t : Term}
    (h : Normal (.injection source target t)) :
    mkInjection source target t = .injection source target t := by
  cases h with
  | injection _ hne =>
    unfold Term.mkInjection
    split
    · rename_i innerSource innerTarget inner
      split
      · rename_i heq
        cases heq
        exact absurd rfl (hne _ _)
      · rfl
    · rfl

theorem map_eq_of_forall {α : Type} {f : α → α} {as : List α} (h : ∀ a ∈ as, f a = a) :
    as.map f = as :=
  (List.map_congr_left h).trans as.map_id

/-- Where nothing is bound, a rebuild gives the term itself. -/
theorem rebuild_of_unbound {t : Term} (h : Normal t) (hunbound : Unbound bind t) :
    rebuild bind t = t := by
  induction t with
  | and left right ihl ihr =>
    cases h with
    | and hleft hright =>
      rw [rebuild, ihl hleft fun v hv => hunbound v (List.mem_append_left _ hv),
        ihr hright fun v hv => hunbound v (List.mem_append_right _ hv)]
  | application symbol sortArguments arguments ih =>
    cases h with
    | application harguments hraw =>
      have hall : arguments.map (rebuild bind) = arguments := by
        refine map_eq_of_forall fun a ha => ih a ha (harguments a ha) fun v hv => hunbound v ?_
        rw [vars, varsOf_eq]
        exact List.mem_flatMap_of_mem ha hv
      rw [rebuild, rebuildAll_eq, hall, hraw]
  | domainValue sort value => rfl
  | var v => rw [rebuild, hunbound v (by simp [vars]), Option.getD_none]
  | injection source target term ih =>
    have hraw := h.mkInjection
    cases h with
    | injection hterm _ => rw [rebuild, ih hterm hunbound, hraw]
  | map d entries rest ihe ihr =>
    have hraw := h.mkMap
    have hfree : ∀ e ∈ entries, Unbound bind e.1 ∧ Unbound bind e.2 := fun e he => by
      constructor <;> intro v hv <;> apply hunbound <;>
        simp only [vars, varsOfEntries_eq, List.mem_append, List.mem_flatMap] <;>
        exact .inl ⟨e, he, by simp [hv]⟩
    have hfreeRest : ∀ r ∈ rest, Unbound bind r := fun r hr v hv => hunbound v <| by
      simp only [vars, varsOfRest_eq, List.mem_append, List.mem_flatMap]
      exact .inr ⟨r, by simpa using hr, hv⟩
    cases h with
    | map hkeys hvalues hrest =>
      have hentries : entries.map (rebuildEntry bind) = entries := map_eq_of_forall fun e he => by
        rw [rebuildEntry, (ihe e he).1 (hkeys e he) (hfree e he).1,
          (ihe e he).2 (hvalues e he) (hfree e he).2]
      have hrests : rest.map (rebuild bind) = rest := by
        cases rest with
        | none => rfl
        | some r => rw [Option.map_some, ihr r rfl (hrest r rfl) (hfreeRest r rfl)]
      rw [rebuild, rebuildEntries_eq, rebuildRest_eq, hentries, hrests, hraw]
  | list d heads rest ihh ihr =>
    have hraw := h.listOfItems
    have hfree : ∀ e ∈ heads, Unbound bind e := fun e he v hv => hunbound v <| by
      simp only [vars, varsOf_eq, List.mem_append, List.mem_flatMap]
      exact .inl ⟨e, he, hv⟩
    have hfreeRest : ∀ e ∈ rest, Unbound bind e.1 ∧ ∀ t ∈ e.2, Unbound bind t := fun e he => by
      constructor
      · intro v hv
        apply hunbound
        simp only [vars, varsOfMiddle_eq, List.mem_append, List.mem_flatMap]
        exact .inr ⟨e, by simpa using he, .inl hv⟩
      · intro t ht v hv
        apply hunbound
        simp only [vars, varsOfMiddle_eq, List.mem_append, List.mem_flatMap]
        exact .inr ⟨e, by simpa using he, .inr ⟨t, ht, hv⟩⟩
    cases h with
    | list hheads hmiddle htails =>
      have hall : heads.map (rebuild bind) = heads :=
        map_eq_of_forall fun e he => ihh e he (hheads e he) (hfree e he)
      have hrests : rest.map (fun e => (rebuild bind e.1, e.2.map (rebuild bind))) = rest := by
        cases rest with
        | none => rfl
        | some e =>
          rw [Option.map_some, (ihr e rfl).1 (hmiddle e rfl) (hfreeRest e rfl).1,
            map_eq_of_forall fun t ht =>
              (ihr e rfl).2 t ht (htails e rfl t ht) ((hfreeRest e rfl).2 t ht)]
      rw [rebuild, rebuildAll_eq, rebuildMiddle_eq, hall, hrests, hraw]
  | set d elements rest ihe ihr =>
    have hraw := h.mkSet
    have hfree : ∀ e ∈ elements, Unbound bind e := fun e he v hv => hunbound v <| by
      simp only [vars, varsOf_eq, List.mem_append, List.mem_flatMap]
      exact .inl ⟨e, he, hv⟩
    have hfreeRest : ∀ r ∈ rest, Unbound bind r := fun r hr v hv => hunbound v <| by
      simp only [vars, varsOfRest_eq, List.mem_append, List.mem_flatMap]
      exact .inr ⟨r, by simpa using hr, hv⟩
    cases h with
    | set helements hrest =>
      have hall : elements.map (rebuild bind) = elements :=
        map_eq_of_forall fun e he => ihe e he (helements e he) (hfree e he)
      have hrests : rest.map (rebuild bind) = rest := by
        cases rest with
        | none => rfl
        | some r => rw [Option.map_some, ihr r rfl (hrest r rfl) (hfreeRest r rfl)]
      rw [rebuild, rebuildAll_eq, rebuildRest_eq, hall, hrests, hraw]

end Unbound

section Pruned

variable {bind : TermVariable → Option Term}

theorem substituteAll_eq (terms : List Term) :
    substitute.substituteAll bind terms = terms.map (substitute bind) := by
  induction terms with
  | nil => rfl
  | cons term terms ih => rw [substitute.substituteAll, ih, List.map_cons]

theorem substituteEntries_eq (entries : List (Term × Term)) :
    substitute.substituteEntries bind entries =
      entries.map fun entry => (substitute bind entry.1, substitute bind entry.2) := by
  induction entries with
  | nil => rfl
  | cons entry entries ih => rw [substitute.substituteEntries, ih, List.map_cons]

theorem substituteRest_eq (rest : Option Term) :
    substitute.substituteRest bind rest = rest.map (substitute bind) := by
  cases rest <;> rfl

theorem substituteMiddle_eq (rest : Option (Term × List Term)) :
    substitute.substituteMiddle bind rest =
      rest.map fun entry => (substitute bind entry.1, entry.2.map (substitute bind)) := by
  cases rest with
  | none => rfl
  | some entry => rw [substitute.substituteMiddle, substituteAll_eq, Option.map_some]

/-- Skipping a term without bound variables is exact. -/
theorem keepUnlessBound_rebuild {t : Term} (h : Normal t) :
    keepUnlessBound bind t (rebuild bind t) = rebuild bind t := by
  unfold keepUnlessBound
  split
  · rename_i hall
    apply Eq.symm
    apply rebuild_of_unbound h
    intro v hv
    simpa using List.all_eq_true.mp hall v hv
  · rfl

/-- Substitution gives the plain rebuild of the term. -/
theorem substitute_eq_rebuild {t : Term} (h : Normal t) : substitute bind t = rebuild bind t := by
  have hkeep : keepUnlessBound bind t (rebuild bind t) = rebuild bind t :=
    keepUnlessBound_rebuild h
  induction t with
  | and left right ihl ihr =>
    cases h with
    | and hleft hright =>
      rw [substitute, ihl hleft (keepUnlessBound_rebuild hleft),
        ihr hright (keepUnlessBound_rebuild hright)]
      exact hkeep
  | application symbol sortArguments arguments ih =>
    cases h with
    | application harguments _ =>
      have hall : arguments.map (substitute bind) = arguments.map (rebuild bind) :=
        List.map_congr_left fun a ha =>
          ih a ha (harguments a ha) (keepUnlessBound_rebuild (harguments a ha))
      rw [rebuild, rebuildAll_eq] at hkeep
      rw [substitute, substituteAll_eq, hall, hkeep, rebuild, rebuildAll_eq]
  | domainValue sort value => rfl
  | var v => rfl
  | injection source target term ih =>
    cases h with
    | injection hterm _ =>
      rw [substitute, ih hterm (keepUnlessBound_rebuild hterm)]
      exact hkeep
  | map d entries rest ihe ihr =>
    cases h with
    | map hkeys hvalues hrest =>
      have hentries : (entries.map fun e => (substitute bind e.1, substitute bind e.2)) =
          entries.map (rebuildEntry bind) := List.map_congr_left fun e he => by
        rw [(ihe e he).1 (hkeys e he) (keepUnlessBound_rebuild (hkeys e he)),
          (ihe e he).2 (hvalues e he) (keepUnlessBound_rebuild (hvalues e he)), rebuildEntry]
      have hrests : rest.map (substitute bind) = rest.map (rebuild bind) :=
        Option.map_congr fun r hr => ihr r hr (hrest r hr) (keepUnlessBound_rebuild (hrest r hr))
      rw [rebuild, rebuildEntries_eq, rebuildRest_eq] at hkeep
      rw [substitute, substituteEntries_eq, substituteRest_eq, hentries, hrests, rebuild,
        rebuildEntries_eq, rebuildRest_eq]
      exact hkeep
  | list d heads rest ihh ihr =>
    cases h with
    | list hheads hmiddle htails =>
      have hall : heads.map (substitute bind) = heads.map (rebuild bind) :=
        List.map_congr_left fun e he =>
          ihh e he (hheads e he) (keepUnlessBound_rebuild (hheads e he))
      have hrests : (rest.map fun e => (substitute bind e.1, e.2.map (substitute bind))) =
          rest.map fun e => (rebuild bind e.1, e.2.map (rebuild bind)) :=
        Option.map_congr fun e he => by
          rw [(ihr e he).1 (hmiddle e he) (keepUnlessBound_rebuild (hmiddle e he)),
            List.map_congr_left fun t ht => (ihr e he).2 t ht (htails e he t ht)
              (keepUnlessBound_rebuild (htails e he t ht))]
      rw [rebuild, rebuildAll_eq, rebuildMiddle_eq] at hkeep
      rw [substitute, substituteAll_eq, substituteMiddle_eq, hall, hrests, hkeep, rebuild,
        rebuildAll_eq, rebuildMiddle_eq]
  | set d elements rest ihe ihr =>
    cases h with
    | set helements hrest =>
      have hall : elements.map (substitute bind) = elements.map (rebuild bind) :=
        List.map_congr_left fun e he =>
          ihe e he (helements e he) (keepUnlessBound_rebuild (helements e he))
      have hrests : rest.map (substitute bind) = rest.map (rebuild bind) :=
        Option.map_congr fun r hr => ihr r hr (hrest r hr) (keepUnlessBound_rebuild (hrest r hr))
      rw [rebuild, rebuildAll_eq, rebuildRest_eq] at hkeep
      rw [substitute, substituteAll_eq, substituteRest_eq, hall, hrests, rebuild, rebuildAll_eq,
        rebuildRest_eq]
      exact hkeep

end Pruned

section Commutes

theorem mkInjection_mkInjection (source inner target : KoreSort) (t : Term) :
    mkInjection inner target (mkInjection source inner t) = mkInjection source target t := by
  fun_induction mkInjection source inner t with
  | case1 =>
    rename_i ih
    rw [ih]
    conv_rhs => rw [mkInjection, if_pos rfl]
  | case2 => simp [mkInjection]
  | case3 => simp [mkInjection]

variable {bind : TermVariable → Option Term}

theorem rebuild_mkInjection (source target : KoreSort) (t : Term) :
    rebuild bind (mkInjection source target t) = mkInjection source target (rebuild bind t) := by
  fun_induction mkInjection source target t with
  | case1 =>
    rename_i ih
    rw [ih, rebuild, mkInjection_mkInjection]
  | case2 => rfl
  | case3 => rfl

variable (hbind : NormalBindings bind)
include hbind

theorem mapChange (d : MapDefinition) : (mapCollection d).Change CollectionOrder.entryLe Normal
    (rebuild bind) (rebuildEntry bind) where
  flat t ht := ht.flatMap d
  rest t ht := (ht.mapParts d).2
  keeps t ht := normal_rebuild hbind ht
  node entries rest := by
    show rebuild bind (.map d entries rest) = _
    rw [rebuild, rebuildEntries_eq, rebuildRest_eq, mkMap, mapOfItems_eq]

theorem setChange (d : SetDefinition) : (setCollection d).Change CollectionOrder.elementLe Normal
    (rebuild bind) (rebuild bind) where
  flat t ht := ht.flatSet d
  rest t ht := (ht.setParts d).2
  keeps t ht := normal_rebuild hbind ht
  node elements rest := by
    show rebuild bind (.set d elements rest) = _
    rw [rebuild, rebuildAll_eq, rebuildRest_eq, mkSet, setOfItems_eq]

theorem listChange (d : ListDefinition) :
    (listSequence d).Change Normal (rebuild bind) where
  flat t ht := ht.flatList d
  middle t ht m tails hm := ((ht.listParts d).2 m tails hm).1
  keeps t ht := normal_rebuild hbind ht
  node heads rest := by
    show rebuild bind (.list d heads rest) = _
    rw [rebuild, rebuildAll_eq, rebuildMiddle_eq, listOfItems_eq]

theorem rebuild_mkMap {d : MapDefinition} (entries : List (Term × Term)) {rest : Option Term}
    (hrest : ∀ r ∈ rest, Normal r) :
    rebuild bind (mkMap d entries rest) =
      mkMap d (entries.map (rebuildEntry bind)) (rest.map (rebuild bind)) := by
  have hsort : ((entries.mergeSort CollectionOrder.entryLe).map (rebuildEntry bind)).mergeSort
      CollectionOrder.entryLe =
        (entries.map (rebuildEntry bind)).mergeSort CollectionOrder.entryLe :=
    isOrder_entryLe.mergeSort_mergeSort_map _ _ _
  rw [mkMap, mapOfItems_eq, (mapChange hbind d).build isOrder_entryLe _ hrest, hsort, mkMap,
    mapOfItems_eq]

theorem rebuild_mkSet {d : SetDefinition} (elements : List Term) {rest : Option Term}
    (hrest : ∀ r ∈ rest, Normal r) :
    rebuild bind (mkSet d elements rest) =
      mkSet d (elements.map (rebuild bind)) (rest.map (rebuild bind)) := by
  have hsort : ((elements.mergeSort CollectionOrder.elementLe).map (rebuild bind)).mergeSort
      CollectionOrder.elementLe =
        (elements.map (rebuild bind)).mergeSort CollectionOrder.elementLe :=
    isOrder_elementLe.mergeSort_mergeSort_map _ _ _
  rw [mkSet, setOfItems_eq, (setChange hbind d).build isOrder_elementLe _ hrest, hsort, mkSet,
    setOfItems_eq]

theorem rebuild_listOfItems {d : ListDefinition} (heads : List Term)
    {rest : Option (Term × List Term)} (hmiddle : ∀ e ∈ rest, Normal e.1) :
    rebuild bind (listOfItems d heads rest) =
      listOfItems d (heads.map (rebuild bind))
        (rest.map fun e => (rebuild bind e.1, e.2.map (rebuild bind))) := by
  rw [listOfItems_eq, (listChange hbind d).build heads hmiddle, listOfItems_eq]

/-- The constructor of applications keeps its meaning under a rebuild of the arguments. -/
theorem rebuild_mkApplication (symbol : TermSymbol) (sortArguments : List KoreSort)
    {arguments : List Term} (h : ∀ a ∈ arguments, Normal a) :
    rebuild bind (mkApplication symbol sortArguments arguments) =
      mkApplication symbol sortArguments (arguments.map (rebuild bind)) := by
  by_cases hraw : mkApplication symbol sortArguments arguments =
      .application symbol sortArguments arguments
  · rw [hraw, rebuild, rebuildAll_eq]
  have hform := mkApplication_eq symbol sortArguments arguments
  have hform' := mkApplication_eq symbol sortArguments (arguments.map (rebuild bind))
  rw [hform, hform', List.length_map]
  rw [hform] at hraw
  generalize heq : applicationForm symbol sortArguments arguments.length = form at hraw ⊢
  unfold Form.apply at hraw
  split at hraw <;> rename_i heq
  · exact rebuild_mkInjection _ _ _
  · simp [Form.apply, rebuild, mkMap, mapOfItems]
  · simp [Form.apply, rebuild, rebuildEntry, mkMap, mapOfItems]
  · rename_i d left right
    have hleft : Normal left := h left (by simp)
    have hright : Normal right := h right (by simp)
    simp only [Form.apply, List.map_cons, List.map_nil, combineMaps_eq]
    have hforeign : ∀ a b, (mapCollection d).Foreign (concatenation symbol sortArguments a b) :=
      fun a b => rfl
    refine (mapChange hbind d).combine isOrder_entryLe hforeign (fun a b => ?_)
      (fun a b ha hb hfa hfb => normal_concatenation ha hb ?_) hleft hright
    · rw [concatenation, rebuild, rebuildAll_eq]
      exact mkApplication_maps heq
    · rw [mkApplication_maps heq]
      exact Collection.combine_of_foreign hfa hfb rfl
  · simp [Form.apply, rebuild, listOfItems]
  · simp [Form.apply, rebuild, listOfItems]
  · rename_i d left right
    have hleft : Normal left := h left (by simp)
    have hright : Normal right := h right (by simp)
    have hleft' := normal_rebuild hbind hleft
    have hright' := normal_rebuild hbind hright
    simp only [Form.apply, List.map_cons, List.map_nil]
    rw [combineLists_eq _ _ d (hleft.flatList d) (hright.flatList d),
      combineLists_eq _ _ d (hleft'.flatList d) (hright'.flatList d)]
    apply (listChange hbind d).combine hleft hright
    rw [concatenation, rebuild, rebuildAll_eq]
    exact mkApplication_lists hleft' hright' heq
  · simp [Form.apply, rebuild, mkSet, setOfItems]
  · simp [Form.apply, rebuild, mkSet, setOfItems]
  · rename_i d left right
    have hleft : Normal left := h left (by simp)
    have hright : Normal right := h right (by simp)
    simp only [Form.apply, List.map_cons, List.map_nil, combineSets_eq]
    have hforeign : ∀ a b, (setCollection d).Foreign (concatenation symbol sortArguments a b) :=
      fun a b => rfl
    refine (setChange hbind d).combine isOrder_elementLe hforeign
      (fun a b => ?_) (fun a b ha hb hfa hfb => normal_concatenation ha hb ?_) hleft hright
    · rw [concatenation, rebuild, rebuildAll_eq]
      exact mkApplication_sets heq
    · rw [mkApplication_sets heq]
      exact Collection.combine_of_foreign hfa hfb rfl
  · exact absurd rfl hraw

end Commutes

end KRust.Backend.Term
