import KRust.Term.Chunks.Rebuild
import KRust.Backend.Attributes
import KRust.Backend.Compose

/-!
Substitution in the trees of items of a collection: the tree is entered where the variables of a
subtree meet the substitution, and the items that change are replaced, in a map or a set at the
places that the order gives them.
-/

set_option linter.unusedSectionVars false

namespace KRust.Backend

open KRust.Kore Lib KRust.Lib.Partial
open KRust.Term.Chunks (Item Seek Chunked NodeSummary Summarizes LawfulSummary Fits FitsChange
  marks newItems oldItems addedItems mapWhere rebuildWhere mapWhere_same rebuildWhere_same
  extraValue extraValue_cons groupValue groupValue_cons usizeMax)

section Definitions

variable [TermHash]

/-- The items of a substituted collection, with the attributes of the recursive definitions. -/
instance : StoredItem Term where
  key item := item.stored
  terms item := [item.stored]
  hash64 item := TermHash.hash item

instance : StoredItem (Term ×ₗ Term) where
  key entry := (ofLex entry).1.stored
  terms entry := [(ofLex entry).1.stored, (ofLex entry).2.stored]
  hash64 entry := TermHash.ofPair (TermHash.hash (ofLex entry).1) (TermHash.hash (ofLex entry).2)

/-- `disjoint`: the variables of the smaller side are looked up in the larger one. -/
def disjoint (group : Multiset TermVariable) (substitution : Substitution) : Bool :=
  if group.toFinset.card ≤ substitution.size then
    decide (∀ v ∈ group, substitution.get v = none)
  else substitution.keys.all fun v => decide (v ∉ group)

variable {I : Type} [StoredItem I]

/-- The subtrees with a variable that the substitution binds. -/
def boundSeek (substitution : Substitution) : Seek I ItemSummary (Multiset TermVariable) :=
  .ofTests (fun summary => !disjoint summary.group substitution) fun _ => true

/-- The closure of the rebuilds: an item is replaced when its change is another allocation. -/
def changeItem (fresh : I → Bool) (change : I → I) (state : Unit) (item : I) : Option I × Unit :=
  (if fresh item then some (change item) else none, state)

def substituteEntry (substitution : Substitution) (entry : Term × Term) : Term × Term :=
  (Term.substitute substitution.get entry.1, Term.substitute substitution.get entry.2)

/-- Which terms a substitution gives as another allocation: none without a bound variable, and
each that it changes. -/
structure Allocations (substitution : Substitution) where
  fresh : Term → Bool
  skipped : ∀ t : Term, (∀ v ∈ t.vars, substitution.get v = none) → fresh t = false
  same : ∀ t : Term, fresh t = false → Term.substitute substitution.get t = t

variable {substitution : Substitution} (allocations : Allocations substitution)

/-- The entries of a substituted map. -/
def substituteEntries (entries : Items (Term ×ₗ Term)) :
    Option (Chunked (Term ×ₗ Term) ItemSummary (Multiset TermVariable) branching × Unit) :=
  rebuildWhere entries.tree (boundSeek substitution)
    (changeItem
      (fun entry => allocations.fresh (ofLex entry).1 || allocations.fresh (ofLex entry).2)
      fun entry => toLex (substituteEntry substitution (ofLex entry))) ()

/-- The elements of a substituted set. -/
def substituteElements (elements : Items Term) :
    Option (Chunked Term ItemSummary (Multiset TermVariable) branching × Unit) :=
  rebuildWhere elements.tree (boundSeek substitution)
    (changeItem allocations.fresh (Term.substitute substitution.get)) ()

/-- The items of a substituted list, each replaced where it stands. -/
def substituteItems (items : Items Term) :
    Option (Chunked Term ItemSummary (Multiset TermVariable) branching × Unit) :=
  mapWhere items.tree (boundSeek substitution)
    (changeItem allocations.fresh (Term.substitute substitution.get)) ()

end Definitions

section Seeks

theorem disjoint_iff {group : Multiset TermVariable} {substitution : Substitution} :
    disjoint group substitution = true ↔ ∀ v ∈ group, substitution.get v = none := by
  unfold disjoint
  split
  · exact decide_eq_true_iff
  · rw [List.all_eq_true]
    constructor
    · intro h v hv
      rw [← SortedMap.not_mem_keys]
      exact fun hkey => of_decide_eq_true (h v hkey) hv
    · intro h v hkey
      rw [decide_eq_true_iff]
      exact fun hv => SortedMap.not_mem_keys.mpr (h v hv) hkey

variable {I : Type} [StoredItem I] {substitution : Substitution}

/-- The item mentions a variable that is bound. -/
def mentionsBound (substitution : Substitution) (item : I) : Bool :=
  !disjoint (mentioned (StoredItem.terms item)) substitution

/-- The seek that asks of an item what its subtrees are asked. -/
def mentionsSeek (substitution : Substitution) : Seek I ItemSummary (Multiset TermVariable) :=
  .ofTests (fun summary => !disjoint summary.group substitution) (mentionsBound substitution)

theorem mem_groupValue {items : List I} {item : I} (hitem : item ∈ items) {v : TermVariable}
    (hv : v ∈ mentioned (StoredItem.terms item)) :
    v ∈ (groupValue items : Multiset TermVariable) := by
  induction items with
  | nil => cases hitem
  | cons i is ih =>
    rw [groupValue_cons]
    refine Multiset.mem_add.mpr ?_
    cases List.mem_cons.mp hitem with
    | inl heq =>
      subst heq
      exact .inl hv
    | inr hitem => exact .inr (ih hitem)

theorem mentionsSeek_lawful :
    (mentionsSeek substitution : Seek I ItemSummary (Multiset TermVariable)).Lawful where
  admits position summary items hsummary offset item hitem hwants := by
    have hmem : item ∈ items := List.mem_of_getElem? hitem
    have hgroup : summary.group = groupValue items := hsummary.group
    simp only [mentionsSeek, Seek.ofTests, mentionsBound, Bool.not_eq_true',
      ← Bool.not_eq_true, disjoint_iff] at hwants ⊢
    intro hall
    apply hwants
    intro v hv
    apply hall
    rw [hgroup]
    exact mem_groupValue hmem hv

/-- The counts of items fit the machine where their number does. -/
theorem fits_of_length {items : List I} (hlen : items.length ≤ usizeMax) : Fits items := by
  have hbounds : (∀ flag, (extraValue items : ItemSummary.Value).1 flag ≤ items.length) ∧
      (extraValue items : ItemSummary.Value).2.2.2.2 ≤ items.length := by
    clear hlen
    induction items with
    | nil => exact ⟨fun _ => Nat.zero_le _, Nat.zero_le _⟩
    | cons i is ih =>
      rw [extraValue_cons]
      constructor
      · intro flag
        have hitem : (ItemSummary.of (StoredItem.key i) (StoredItem.terms i)).failing.failing flag
            ≤ 1 := by
          simp only [ItemSummary.of, KRust.Term.Chunks.Failing.of]
          split <;> simp
        have hrest := ih.1 flag
        have hadd : (LawfulSummary.value (Item.summary i) + extraValue is :
            ItemSummary.Value).1 flag =
              (ItemSummary.of (StoredItem.key i) (StoredItem.terms i)).failing.failing flag +
                (extraValue is : ItemSummary.Value).1 flag := rfl
        rw [hadd, List.length_cons]
        omega
      · have hitem : (ItemSummary.of (StoredItem.key i) (StoredItem.terms i)).symbolicKeys.count
            ≤ 1 := by
          simp only [ItemSummary.of, KRust.Term.Chunks.Count.of]
          split <;> simp
        have hrest := ih.2
        have hadd : (LawfulSummary.value (Item.summary i) + extraValue is :
            ItemSummary.Value).2.2.2.2 =
              (ItemSummary.of (StoredItem.key i) (StoredItem.terms i)).symbolicKeys.count +
                (extraValue is : ItemSummary.Value).2.2.2.2 := rfl
        rw [hadd, List.length_cons]
        omega
  exact ⟨hlen, ⟨fun flag => (hbounds.1 flag).trans hlen, hbounds.2.trans hlen⟩, trivial⟩

section Rebuilds

variable {fresh : I → Bool} {change : I → I}

theorem marks_mentionsSeek (position : Nat) (items : List I) :
    marks (mentionsSeek substitution) (changeItem fresh change) position () items =
      (items.map fun i =>
        (i, if mentionsBound substitution i && fresh i then some (change i) else none), ()) := by
  induction items generalizing position with
  | nil => rfl
  | cons i is ih =>
    have hwants : (mentionsSeek substitution).wants position i = mentionsBound substitution i := rfl
    rw [marks, hwants, List.map_cons]
    cases mentionsBound substitution i with
    | false => simp [ih]
    | true => simp [ih, changeItem]

/-- An item without a bound variable is not changed, and one that is no other allocation is the
same item. -/
structure Exact (substitution : Substitution) (fresh : I → Bool) (change : I → I)
    (items : List I) : Prop where
  skipped : ∀ i, mentionsBound substitution i = false → fresh i = false
  kept : ∀ i ∈ items, fresh i = false → change i = i

variable {items : Items I} (hexact : Exact substitution fresh change items.toList)
include hexact

theorem newItems_marks :
    newItems (marks (mentionsSeek substitution) (changeItem fresh change) 0 () items.toList).1 =
      items.toList.map change := by
  rw [marks_mentionsSeek, newItems, List.map_map]
  refine List.map_congr_left fun i hi => ?_
  rw [Function.comp_apply]
  split
  · rfl
  · rename_i hnone
    have hfresh : fresh i = false := by
      cases hmentions : mentionsBound substitution i with
      | false => exact hexact.skipped i hmentions
      | true => simpa [hmentions] using hnone
    exact (hexact.kept i hi hfresh).symm

theorem fitsChange_marks :
    FitsChange (marks (mentionsSeek substitution) (changeItem fresh change) 0 ()
      items.toList).1 where
  fits := by
    rw [newItems_marks hexact]
    apply fits_of_length
    rw [List.length_map]
    exact items.summarizes.count_le
  group := trivial

theorem boundSeek_same (position : Nat) (state : Unit) (item : I) :
    (boundSeek substitution).apply (changeItem fresh change) position state item =
      (mentionsSeek substitution).apply (changeItem fresh change) position state item := by
  have hall : (boundSeek substitution).wants position item = true := rfl
  have hwants : (mentionsSeek substitution).wants position item =
      mentionsBound substitution item := rfl
  rw [Seek.apply, Seek.apply, hall, hwants, if_pos rfl]
  cases hmentions : mentionsBound substitution item with
  | true => rfl
  | false =>
    rw [changeItem, hexact.skipped item hmentions]
    rfl

/-- Skipping the subtrees without a bound variable changes nothing of what a rebuild gives. -/
theorem rebuild_items [LinearOrder I] (hsorted : items.toList.Pairwise (· ≤ ·)) :
    ∃ result, rebuildWhere items.tree (boundSeek substitution) (changeItem fresh change) () =
      some result ∧ result.1.Valid ∧
        result.1.items = (items.toList.map change).insertionSort (· ≤ ·) := by
  have hadmits : (boundSeek substitution : Seek I ItemSummary (Multiset TermVariable)).admits =
      (mentionsSeek substitution).admits := rfl
  have hrun := rebuildWhere_same hadmits (boundSeek_same hexact) items.tree ()
  have hlawful : (mentionsSeek substitution : Seek I ItemSummary (Multiset TermVariable)).Lawful :=
    mentionsSeek_lawful
  have hyields := @KRust.Term.Chunks.rebuildWhere_yields _ _ _ _ _ _ _ _ _ _ _ _ _ _ _ _ _ _ _
    (changeItem fresh change) items.valid hsorted hlawful ()
  have hnew : newItems (marks (mentionsSeek substitution) (changeItem fresh change) 0 ()
      items.tree.items).1 = items.toList.map change := newItems_marks hexact
  rw [hnew] at hyields
  have hfits : Fits ((items.toList.map change).insertionSort (· ≤ ·)) := by
    apply fits_of_length
    rw [List.length_insertionSort, List.length_map]
    exact items.summarizes.count_le
  obtain ⟨result, hresult, hvalid, hitems, _⟩ := hyields.total ⟨fitsChange_marks hexact, hfits⟩
  exact ⟨result, hrun.trans hresult, hvalid, hitems⟩

theorem map_items :
    ∃ result, mapWhere items.tree (boundSeek substitution) (changeItem fresh change) () =
      some result ∧ result.1.Valid ∧ result.1.items = items.toList.map change := by
  have hadmits : (boundSeek substitution : Seek I ItemSummary (Multiset TermVariable)).admits =
      (mentionsSeek substitution).admits := rfl
  have hrun := mapWhere_same hadmits (boundSeek_same hexact) items.tree ()
  have hlawful : (mentionsSeek substitution : Seek I ItemSummary (Multiset TermVariable)).Lawful :=
    mentionsSeek_lawful
  have hyields := KRust.Term.Chunks.mapWhere_yields (changeItem fresh change) items.valid hlawful ()
  obtain ⟨result, hresult, hvalid, hitems, _⟩ := hyields.total (fitsChange_marks hexact)
  exact ⟨result, hrun.trans hresult, hvalid, hitems.trans (newItems_marks hexact)⟩

end Rebuilds

end Seeks

section Attributes

/-- The stored variables of a term are those that occur in it. -/
theorem mem_attributes_vars {t : Term} {v : TermVariable} : v ∈ t.attributes.vars ↔ v ∈ t.vars := by
  have hunite : ∀ ts : List Term, (∀ t ∈ ts, v ∈ t.attributes.vars ↔ v ∈ t.vars) →
      (v ∈ unite (ts.map Term.stored) ↔ v ∈ ts.flatMap Term.vars) := by
    intro ts hts
    simp only [Items.mem_unite, List.mem_map, exists_exists_and_eq_and, List.mem_flatMap]
    exact exists_congr fun t => and_congr_right fun ht => hts t ht
  have hchildren : ∀ t : Term, (∀ w, t ≠ .var w) →
      (∀ c ∈ t.layer.children, v ∈ c.attributes.vars ↔ v ∈ c.vars) →
      (v ∈ t.attributes.vars ↔ v ∈ t.layer.children.flatMap Term.vars) := by
    intro t hvar ht
    rw [← hunite _ ht, ← Layer.children_change, Term.attributes_eq]
    cases t with
    | var w => exact absurd rfl (hvar w)
    | _ => exact Iff.rfl
  induction t with
  | and left right ihl ihr =>
    refine (hchildren (.and left right) (by simp) ?_).trans ?_
    · intro c hc
      simp only [Term.layer, Layer.children, List.mem_cons, List.not_mem_nil, or_false] at hc
      rcases hc with rfl | rfl
      · exact ihl
      · exact ihr
    · simp [Term.layer, Layer.children, Term.vars]
  | application symbol sortArguments arguments ih =>
    refine (hchildren (.application symbol sortArguments arguments) (by simp) ih).trans ?_
    rw [Term.vars, Term.varsOf_eq]
    rfl
  | domainValue sort value => exact Iff.rfl
  | var w => simp [Term.attributes, Layer.attributes, Layer.vars, Term.vars]
  | injection source target term ih =>
    refine (hchildren (.injection source target term) (by simp) ?_).trans ?_
    · intro c hc
      obtain rfl := List.mem_singleton.mp hc
      exact ih
    · simp [Term.layer, Layer.children, Term.vars]
  | map d entries rest ihe ihr =>
    refine (hchildren (.map d entries rest) (by simp) ?_).trans ?_
    · intro c hc
      simp only [Term.layer, Layer.children, List.mem_append, List.mem_flatMap, List.mem_cons,
        List.not_mem_nil, or_false, Option.mem_toList] at hc
      rcases hc with ⟨e, he, rfl | rfl⟩ | hc
      · exact (ihe e he).1
      · exact (ihe e he).2
      · exact ihr c hc
    · rw [Term.vars, Term.varsOfEntries_eq, Term.varsOfRest_eq, Term.layer, Layer.children,
        List.flatMap_append, List.flatMap_assoc]
      simp
  | list d heads rest ihh ihr =>
    refine (hchildren (.list d heads rest) (by simp) ?_).trans ?_
    · intro c hc
      simp only [Term.layer, Layer.children, List.mem_append, List.mem_flatMap, List.mem_cons,
        Option.mem_toList] at hc
      rcases hc with hc | ⟨e, he, rfl | hc⟩
      · exact ihh c hc
      · exact (ihr e he).1
      · exact (ihr e he).2 c hc
    · rw [Term.vars, Term.varsOf_eq, Term.varsOfMiddle_eq, Term.layer, Layer.children,
        List.flatMap_append, List.flatMap_assoc]
      simp
  | set d elements rest ihe ihr =>
    refine (hchildren (.set d elements rest) (by simp) ?_).trans ?_
    · intro c hc
      simp only [Term.layer, Layer.children, List.mem_append, Option.mem_toList] at hc
      rcases hc with hc | hc
      · exact ihe c hc
      · exact ihr c hc
    · rw [Term.vars, Term.varsOf_eq, Term.varsOfRest_eq, Term.layer, Layer.children,
        List.flatMap_append]

end Attributes

section Trees

variable [TermHash] {substitution : Substitution} (allocations : Allocations substitution)

theorem unbound_of_not_mentioned {terms : List Term}
    (h : disjoint (mentioned (terms.map Term.stored)) substitution = true) :
    ∀ t ∈ terms, ∀ v ∈ t.vars, substitution.get v = none := by
  rw [disjoint_iff] at h
  intro t ht v hv
  apply h
  refine Items.mem_unite.mpr ⟨t.stored, List.mem_map_of_mem ht, ?_⟩
  exact mem_attributes_vars.mpr hv

theorem exact_terms (items : List Term) :
    Exact substitution allocations.fresh (Term.substitute substitution.get) items where
  skipped t h := by
    have hdisjoint : disjoint (mentioned (StoredItem.terms t)) substitution = true := by
      simpa [mentionsBound] using h
    have hunbound : ∀ u ∈ [t], ∀ v ∈ u.vars, substitution.get v = none :=
      unbound_of_not_mentioned hdisjoint
    exact allocations.skipped t (hunbound t List.mem_cons_self)
  kept t _ := allocations.same t

theorem exact_entries (items : List (Term ×ₗ Term)) :
    Exact substitution
      (fun entry => allocations.fresh (ofLex entry).1 || allocations.fresh (ofLex entry).2)
      (fun entry => toLex (substituteEntry substitution (ofLex entry))) items where
  skipped e h := by
    have hdisjoint : disjoint (mentioned (StoredItem.terms e)) substitution = true := by
      simpa [mentionsBound] using h
    have hunbound : ∀ u ∈ [(ofLex e).1, (ofLex e).2], ∀ v ∈ u.vars, substitution.get v = none :=
      unbound_of_not_mentioned hdisjoint
    rw [allocations.skipped _ (hunbound _ (by simp)), allocations.skipped _ (hunbound _ (by simp))]
    rfl
  kept e _ h := by
    obtain ⟨hkey, hvalue⟩ := Bool.or_eq_false_iff.mp h
    rw [substituteEntry, allocations.same _ hkey, allocations.same _ hvalue]
    rfl

theorem mergeSort_entries (entries : List (Term ×ₗ Term)) :
    (entries.insertionSort (· ≤ ·)).map ofLex =
      (entries.map ofLex).mergeSort CollectionOrder.entryLe := by
  apply isOrder_entryLe.eq_of_perm
  · rw [List.pairwise_map]
    exact (List.pairwise_insertionSort (· ≤ ·) entries).imp decide_eq_true
  · exact isOrder_entryLe.sorted_mergeSort _
  · refine ((List.perm_insertionSort (· ≤ ·) entries).map ofLex).trans ?_
    exact (List.mergeSort_perm ..).symm

theorem mergeSort_elements (elements : List Term) :
    elements.insertionSort (· ≤ ·) = elements.mergeSort CollectionOrder.elementLe := by
  apply isOrder_elementLe.eq_of_perm
  · exact (List.pairwise_insertionSort (· ≤ ·) elements).imp decide_eq_true
  · exact isOrder_elementLe.sorted_mergeSort _
  · exact (List.perm_insertionSort (· ≤ ·) elements).trans (List.mergeSort_perm ..).symm

/-- The entries of a map, substituted in its tree, make the map of the plain rebuild. -/
theorem substituteEntries_rebuild (d : MapDefinition) {entries : Items (Term ×ₗ Term)}
    {rest : Option Term} (h : Term.Normal (.map d (entries.toList.map ofLex) rest)) :
    ∃ result, substituteEntries allocations entries = some result ∧ result.1.Valid ∧
      Term.mapOfItems d (result.1.items.map ofLex) (rest.map (Term.substitute substitution.get)) =
        Term.rebuild substitution.get (.map d (entries.toList.map ofLex) rest) := by
  cases h with
  | map hkeys hvalues hrest hsorted =>
    have hle : entries.toList.Pairwise (· ≤ ·) :=
      (List.pairwise_map.mp hsorted).imp of_decide_eq_true
    obtain ⟨result, hresult, hvalid, hitems⟩ := rebuild_items (exact_entries allocations _) hle
    refine ⟨result, hresult, hvalid, ?_⟩
    have hentries : (entries.toList.map fun entry =>
        toLex (substituteEntry substitution (ofLex entry))).map ofLex =
          (entries.toList.map ofLex).map (Term.rebuildEntry substitution.get) := by
      rw [List.map_map, List.map_map]
      refine List.map_congr_left fun e he => ?_
      have hmem : ofLex e ∈ entries.toList.map ofLex := List.mem_map_of_mem he
      rw [Function.comp_apply, Function.comp_apply, ofLex_toLex, substituteEntry,
        Term.rebuildEntry, Term.substitute_eq_rebuild (hkeys _ hmem),
        Term.substitute_eq_rebuild (hvalues _ hmem)]
    have hrests : rest.map (Term.substitute substitution.get) =
        rest.map (Term.rebuild substitution.get) :=
      Option.map_congr fun r hr => Term.substitute_eq_rebuild (hrest r hr)
    rw [hitems, mergeSort_entries, hentries, hrests, Term.rebuild, Term.rebuildEntries_eq,
      Term.rebuildRest_eq, Term.mkMap]

theorem substituteElements_rebuild (d : SetDefinition) {elements : Items Term}
    {rest : Option Term} (h : Term.Normal (.set d elements.toList rest)) :
    ∃ result, substituteElements allocations elements = some result ∧ result.1.Valid ∧
      Term.setOfItems d result.1.items (rest.map (Term.substitute substitution.get)) =
        Term.rebuild substitution.get (.set d elements.toList rest) := by
  cases h with
  | set helements hrest hsorted =>
    have hle : elements.toList.Pairwise (· ≤ ·) := hsorted.imp of_decide_eq_true
    obtain ⟨result, hresult, hvalid, hitems⟩ := rebuild_items (exact_terms allocations _) hle
    refine ⟨result, hresult, hvalid, ?_⟩
    have hall : elements.toList.map (Term.substitute substitution.get) =
        elements.toList.map (Term.rebuild substitution.get) :=
      List.map_congr_left fun e he => Term.substitute_eq_rebuild (helements e he)
    have hrests : rest.map (Term.substitute substitution.get) =
        rest.map (Term.rebuild substitution.get) :=
      Option.map_congr fun r hr => Term.substitute_eq_rebuild (hrest r hr)
    rw [hitems, mergeSort_elements, hall, hrests, Term.rebuild, Term.rebuildAll_eq,
      Term.rebuildRest_eq, Term.mkSet]

theorem substituteItems_rebuild {items : Items Term} (h : ∀ t ∈ items.toList, Term.Normal t) :
    ∃ result, substituteItems allocations items = some result ∧ result.1.Valid ∧
      result.1.items = items.toList.map (Term.rebuild substitution.get) := by
  obtain ⟨result, hresult, hvalid, hitems⟩ := map_items (exact_terms allocations items.toList)
  refine ⟨result, hresult, hvalid, hitems.trans ?_⟩
  exact List.map_congr_left fun e he => Term.substitute_eq_rebuild (h e he)

end Trees

section Laws

variable [TermHash]

/-- The substitution of the trees of a collection gives what the plain rebuild makes of their
items: maps and sets with a rest, and lists with a middle between two trees. -/
structure TreeLaws {s : Substitution} (allocations : Allocations s) : Prop where
  map : ∀ d entries rest, Term.Built (.map d (entries.toList.map ofLex) rest) →
    ∃ result, substituteEntries allocations entries = some result ∧ result.1.Valid ∧
      Term.mapOfItems d (result.1.items.map ofLex) (rest.map (Term.substitute s.get)) =
        Term.rebuild s.get (.map d (entries.toList.map ofLex) rest)
  set : ∀ d elements rest, Term.Built (.set d elements.toList rest) →
    ∃ result, substituteElements allocations elements = some result ∧ result.1.Valid ∧
      Term.setOfItems d result.1.items (rest.map (Term.substitute s.get)) =
        Term.rebuild s.get (.set d elements.toList rest)
  list : ∀ d heads, Term.Built (.list d heads.toList none) →
    ∃ result, substituteItems allocations heads = some result ∧ result.1.Valid ∧
      Term.listOfItems d result.1.items none = Term.rebuild s.get (.list d heads.toList none)
  middle : ∀ d heads middle tails, Term.Built (.list d heads.toList (some (middle, tails.toList))) →
    ∃ first second, substituteItems allocations heads = some first ∧ first.1.Valid ∧
      substituteItems allocations tails = some second ∧ second.1.Valid ∧
        Term.listOfItems d first.1.items (some (Term.substitute s.get middle, second.1.items)) =
          Term.rebuild s.get (.list d heads.toList (some (middle, tails.toList)))

theorem treeLaws {s : Substitution} (allocations : Allocations s) : TreeLaws allocations where
  map d _ _ h := substituteEntries_rebuild allocations d h.normal
  set d _ _ h := substituteElements_rebuild allocations d h.normal
  list d heads h := by
    have hnormal := h.normal
    cases hnormal with
    | list hheads =>
      obtain ⟨result, hresult, hvalid, hitems⟩ := substituteItems_rebuild allocations hheads
      refine ⟨result, hresult, hvalid, ?_⟩
      rw [hitems, Term.rebuild, Term.rebuildAll_eq, Term.rebuildMiddle_eq, Option.map_none]
  middle d heads middle tails h := by
    have hnormal := h.normal
    cases hnormal with
    | list hheads hmiddle htails =>
      obtain ⟨first, hfirst, hvalid, hitems⟩ := substituteItems_rebuild allocations hheads
      obtain ⟨second, hsecond, hvalid', hitems'⟩ :=
        substituteItems_rebuild allocations (htails _ rfl)
      refine ⟨first, second, hfirst, hvalid, hsecond, hvalid', ?_⟩
      rw [hitems, hitems', Term.substitute_eq_rebuild (hmiddle _ rfl), Term.rebuild,
        Term.rebuildAll_eq, Term.rebuildMiddle_eq, Option.map_some]

end Laws

def itemVariable (name : String) : TermVariable where
  kind := .element
  name := name
  sort := .application "SortKItem" []

/-- The substitution that binds one variable. -/
def Substitution.single (v : TermVariable) (term : Term) : Substitution :=
  ⟨[(v, term)], List.pairwise_singleton _ _⟩

theorem built_single {v w : TermVariable} {term u : Term} (h : Term.Built term)
    (hu : u ∈ (Substitution.single v term).get w) : Term.Built u := by
  have hmem : (w, u) ∈ [(v, term)] := SortedMap.get_eq_some.mp hu
  obtain ⟨_, rfl⟩ := Prod.mk.inj (List.mem_singleton.mp hmem)
  exact h

end KRust.Backend
