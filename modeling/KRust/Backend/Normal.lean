import KRust.Backend.Order

/-!
The form that the constructors keep terms in: injections composed, maps and sets in order and
without a rest of their own kind, lists without a middle of their own kind. Rebuilding such a
term changes nothing.
-/

namespace KRust.Backend.Term

open KRust.Kore Lib

section Kinds

def mapCollection (d : MapDefinition) : Collection Term (Term × Term) where
  node := .map d
  parts := mapParts d
  parts_node entries rest := by simp [mapParts]
  node_or_rest t := by
    cases t with
    | map found entries rest =>
      by_cases hfound : found = d
      · exact .inl ⟨entries, rest, by rw [hfound]⟩
      · exact .inr (by simp [mapParts, hfound])
    | _ => exact .inr rfl

def setCollection (d : SetDefinition) : Collection Term Term where
  node := .set d
  parts := setParts d
  parts_node elements rest := by simp [setParts]
  node_or_rest t := by
    cases t with
    | set found elements rest =>
      by_cases hfound : found = d
      · exact .inl ⟨elements, rest, by rw [hfound]⟩
      · exact .inr (by simp [setParts, hfound])
    | _ => exact .inr rfl

/-- The items of a list and its middle; another term is its own middle. -/
def listParts (d : ListDefinition) : Term → List Term × Option (Term × List Term)
  | .list found heads rest =>
    if found = d then (heads, rest) else ([], some (.list found heads rest, []))
  | term => ([], some (term, []))

def listSequence (d : ListDefinition) : Sequence Term where
  node := .list d
  parts := listParts d
  parts_node heads rest := by simp [listParts]
  node_or_middle t := by
    cases t with
    | list found heads rest =>
      by_cases hfound : found = d
      · exact .inl ⟨heads, rest, by rw [hfound]⟩
      · exact .inr (by simp [listParts, hfound])
    | _ => exact .inr rfl

theorem mapOfItems_eq (d : MapDefinition) (entries : List (Term × Term)) (rest : Option Term) :
    mapOfItems d entries rest = (mapCollection d).build CollectionOrder.entryLe entries rest := by
  have hparts : ∀ p, mapNode d p = (mapCollection d).ofParts p := by
    rintro ⟨_ | _, _ | _⟩ <;> rfl
  refine (hparts _).trans (congrArg _ ?_)
  cases rest with
  | none => simp [Collection.restParts]
  | some rest =>
    simp only [Collection.restParts, mapCollection]
    cases rest with
    | map found nested nestedRest => by_cases hfound : found = d <;> simp [mapParts, hfound]
    | _ => simp [mapParts]

theorem setOfItems_eq (d : SetDefinition) (elements : List Term) (rest : Option Term) :
    setOfItems d elements rest =
      (setCollection d).build CollectionOrder.elementLe elements rest := by
  have hparts : ∀ p, setNode d p = (setCollection d).ofParts p := by
    rintro ⟨_ | _, _ | _⟩ <;> rfl
  refine (hparts _).trans (congrArg _ ?_)
  cases rest with
  | none => simp [Collection.restParts]
  | some rest =>
    simp only [Collection.restParts, setCollection]
    cases rest with
    | set found nested nestedRest => by_cases hfound : found = d <;> simp [setParts, hfound]
    | _ => simp [setParts]

theorem listOfItems_eq (d : ListDefinition) (heads : List Term)
    (rest : Option (Term × List Term)) :
    listOfItems d heads rest = (listSequence d).build heads rest := by
  have hparts : ∀ p, listNode d p = (listSequence d).ofParts p := by
    rintro ⟨_ | _, _ | ⟨_, _ | _⟩⟩ <;> rfl
  refine (hparts _).trans ?_
  cases rest with
  | none => exact Sequence.ofParts_none heads
  | some entry =>
    obtain ⟨middle, tails⟩ := entry
    refine congrArg _ ?_
    simp only [listSequence]
    cases middle with
    | list found nested nestedRest =>
      by_cases hfound : found = d
      · rcases nestedRest with _ | ⟨nestedMiddle, nestedTails⟩ <;>
          simp [listParts, Sequence.wrap, hfound]
      · simp [listParts, Sequence.wrap, hfound]
    | _ => simp [listParts, Sequence.wrap]

variable (symbol : TermSymbol) (sortArguments : List KoreSort)

/-- The raw concatenation of two terms. -/
def concatenation (left right : Term) : Term :=
  .application symbol sortArguments [left, right]

theorem combineRests_eq (left right : Option Term) :
    combineRests symbol sortArguments left right =
      Collection.joinRests (concatenation symbol sortArguments) left right := by
  cases left <;> cases right <;> rfl

theorem combineMaps_eq (d : MapDefinition) (left right : Term) :
    combineMaps d symbol sortArguments left right =
      (mapCollection d).combine CollectionOrder.entryLe (concatenation symbol sortArguments) left
        right := by
  rw [combineMaps, mapOfItems_eq, combineRests_eq]
  rfl

theorem combineSets_eq (d : SetDefinition) (left right : Term) :
    combineSets d symbol sortArguments left right =
      (setCollection d).combine CollectionOrder.elementLe (concatenation symbol sortArguments)
        left right := by
  rw [combineSets, setOfItems_eq, combineRests_eq]
  rfl

theorem itemsOnly_eq (d : ListDefinition) (t : Term) :
    itemsOnly d t = match listParts d t with
      | (heads, none) => some heads
      | _ => none := by
  cases t with
  | list found heads rest =>
    by_cases hfound : found = d <;> cases rest <;> simp [itemsOnly, listParts, hfound]
  | _ => rfl

/-- Items around a middle that is no list of the definition. -/
theorem listOfItems_foreign (d : ListDefinition) (heads tails : List Term) {middle : Term}
    (h : (listSequence d).Foreign middle) :
    listOfItems d heads (some (middle, tails)) =
      (listSequence d).ofParts (heads, some (middle, tails)) := by
  have hparts : (listSequence d).parts middle = ([], some (middle, [])) := h
  rw [listOfItems_eq, Sequence.build, hparts]
  simp [Sequence.wrap]

theorem combineLists_eq (d : ListDefinition) {left right : Term}
    (hleft : (listSequence d).Flat left) (hright : (listSequence d).Flat right) :
    combineLists d symbol sortArguments left right =
      (listSequence d).combine (concatenation symbol sortArguments) left right := by
  have hitems : ∀ t, itemsOnly d t = match (listSequence d).parts t with
      | (heads, none) => some heads
      | _ => none := itemsOnly_eq d
  rcases hl : (listSequence d).parts left with ⟨heads, _ | ⟨middle, leftTails⟩⟩
  · rw [Sequence.combine_left _ _ hl]
    rcases hr : (listSequence d).parts right with ⟨tails, _ | ⟨middle, rightTails⟩⟩
    · simp only [combineLists, hitems, hl, hr]
      rw [listOfItems_eq, Sequence.build]
      simp [Sequence.wrap]
    · simp only [combineLists, hitems, hl, hr]
      have hmiddle := hright.middle middle rightTails (by rw [hr])
      simp only [listSequence] at hr
      cases right with
      | list found rightHeads rest =>
        by_cases hfound : found = d
        · simp only [listParts, hfound, if_true, Prod.mk.injEq] at hr
          obtain ⟨rfl, rfl⟩ := hr
          simp only [hfound, if_true]
          rw [listOfItems_foreign d _ _ hmiddle]
          simp [Sequence.wrap]
        · simp only [listParts, hfound, if_false, Prod.mk.injEq, Option.some.injEq] at hr
          obtain ⟨rfl, rfl, rfl⟩ := hr
          simp only [hfound, if_false]
          rw [listOfItems_foreign d _ _ hmiddle]
          simp [Sequence.wrap]
      | _ =>
        obtain ⟨rfl, rfl, rfl⟩ := hr
        simpa [Sequence.wrap] using listOfItems_foreign d heads [] hmiddle
  have hmiddle := hleft.middle middle leftTails (by rw [hl])
  rcases hr : (listSequence d).parts right with ⟨tails, _ | ⟨middle', rightTails⟩⟩
  · rw [Sequence.combine_right _ _ hr]
    simp only [combineLists, hitems, hl, hr]
    simp only [listSequence] at hl
    cases left with
    | list found leftHeads rest =>
      by_cases hfound : found = d
      · simp only [listParts, hfound, if_true, Prod.mk.injEq] at hl
        obtain ⟨rfl, rfl⟩ := hl
        simp only [hfound, if_true]
        exact listOfItems_foreign d _ _ hmiddle
      · simp only [listParts, hfound, if_false, Prod.mk.injEq, Option.some.injEq] at hl
        obtain ⟨rfl, rfl, rfl⟩ := hl
        rcases rest with _ | ⟨inner, innerTails⟩
        · exact listOfItems_foreign d [] tails hmiddle
        · simp only [hfound, if_false]
          exact listOfItems_foreign d [] tails hmiddle
    | _ =>
      obtain ⟨rfl, rfl, rfl⟩ := hl
      exact listOfItems_foreign d [] tails hmiddle
  · rw [Sequence.combine_join _ hl hr]
    simp only [combineLists, hitems, hl, hr]
    rfl

end Kinds

section Applications

/-- What an application of a symbol to a number of arguments stands for. -/
inductive Form where
  | raw
  | injection (source target : KoreSort)
  | emptyMap (d : MapDefinition)
  | oneEntry (d : MapDefinition)
  | maps (d : MapDefinition)
  | emptyList (d : ListDefinition)
  | oneItem (d : ListDefinition)
  | lists (d : ListDefinition)
  | emptySet (d : SetDefinition)
  | oneElement (d : SetDefinition)
  | sets (d : SetDefinition)

def CollectionMetadata.form (name : String) (count : Nat) : CollectionMetadata → Form
  | .map d =>
    if count = 0 ∧ name = d.symbols.unit then .emptyMap d
    else if count = 2 ∧ name = d.symbols.element then .oneEntry d
    else if count = 2 ∧ name = d.symbols.concat then .maps d
    else .raw
  | .list d =>
    if count = 0 ∧ name = d.symbols.unit then .emptyList d
    else if count = 1 ∧ name = d.symbols.element then .oneItem d
    else if count = 2 ∧ name = d.symbols.concat then .lists d
    else .raw
  | .set d =>
    if count = 0 ∧ name = d.symbols.unit then .emptySet d
    else if count = 1 ∧ name = d.symbols.element then .oneElement d
    else if count = 2 ∧ name = d.symbols.concat then .sets d
    else .raw

variable (symbol : TermSymbol) (sortArguments : List KoreSort)

def applicationForm (count : Nat) : Form :=
  match decide (symbol.name = "inj"), sortArguments, count with
  | true, [source, target], 1 => .injection source target
  | _, _, _ =>
    match symbol.attributes.collection with
    | some collection => CollectionMetadata.form symbol.name count collection
    | none => .raw

/-- The term that a form gives of the arguments. -/
def Form.apply : Form → List Term → Term
  | .injection source target, [argument] => mkInjection source target argument
  | .emptyMap d, [] => .map d [] none
  | .oneEntry d, [key, value] => .map d [(key, value)] none
  | .maps d, [left, right] => combineMaps d symbol sortArguments left right
  | .emptyList d, [] => .list d [] none
  | .oneItem d, [item] => .list d [item] none
  | .lists d, [left, right] => combineLists d symbol sortArguments left right
  | .emptySet d, [] => .set d [] none
  | .oneElement d, [element] => .set d [element] none
  | .sets d, [left, right] => combineSets d symbol sortArguments left right
  | _, arguments => .application symbol sortArguments arguments

theorem collectionApplication_eq (arguments : List Term) (collection : CollectionMetadata) :
    collectionApplication symbol sortArguments arguments collection =
      (CollectionMetadata.form symbol.name arguments.length collection).apply symbol
        sortArguments arguments := by
  unfold collectionApplication CollectionMetadata.form
  cases collection <;> rcases arguments with _ | ⟨first, _ | ⟨second, _ | ⟨third, rest⟩⟩⟩ <;>
    simp only [List.length_nil, List.length_cons] <;> split_ifs <;> first | rfl | simp_all [Form.apply]

theorem mkApplication_eq (arguments : List Term) :
    mkApplication symbol sortArguments arguments =
      (applicationForm symbol sortArguments arguments.length).apply symbol sortArguments
        arguments := by
  have hcollection : (match symbol.attributes.collection with
      | some collection => collectionApplication symbol sortArguments arguments collection
      | none => .application symbol sortArguments arguments) =
      (match symbol.attributes.collection with
      | some collection => CollectionMetadata.form symbol.name arguments.length collection
      | none => Form.raw).apply symbol sortArguments arguments := by
    cases symbol.attributes.collection with
    | none => rfl
    | some collection => exact collectionApplication_eq symbol sortArguments arguments collection
  unfold mkApplication applicationForm
  split
  · rename_i source target argument hname
    rw [hname]
    rfl
  · rename_i hother
    refine hcollection.trans ?_
    congr 1
    apply Eq.symm
    split
    · rename_i source target hname hlength
      obtain ⟨argument, hargument⟩ := List.length_eq_one_iff.mp hlength
      exact absurd hargument (hother source target argument hname rfl)
    · rfl

end Applications

section Normal

/-- A term in the form that the constructors give. -/
inductive Normal : Term → Prop where
  | and {left right : Term} : Normal left → Normal right → Normal (.and left right)
  | application {symbol : TermSymbol} {sortArguments : List KoreSort} {arguments : List Term} :
    (∀ a ∈ arguments, Normal a) →
    mkApplication symbol sortArguments arguments = .application symbol sortArguments arguments →
    Normal (.application symbol sortArguments arguments)
  | domainValue (sort : KoreSort) (value : KoreString) : Normal (.domainValue sort value)
  | var (v : TermVariable) : Normal (.var v)
  | injection {source target : KoreSort} {term : Term} : Normal term →
    (∀ innerSource inner, term ≠ .injection innerSource source inner) →
    Normal (.injection source target term)
  | map {d : MapDefinition} {entries : List (Term × Term)} {rest : Option Term} :
    (∀ e ∈ entries, Normal e.1) → (∀ e ∈ entries, Normal e.2) → (∀ r ∈ rest, Normal r) →
    entries.Pairwise (CollectionOrder.entryLe · ·) → (∀ r ∈ rest, (mapCollection d).Foreign r) →
    (entries = [] → rest = none) → Normal (.map d entries rest)
  | list {d : ListDefinition} {heads : List Term} {rest : Option (Term × List Term)} :
    (∀ h ∈ heads, Normal h) → (∀ e ∈ rest, Normal e.1) → (∀ e ∈ rest, ∀ t ∈ e.2, Normal t) →
    (∀ e ∈ rest, (listSequence d).Foreign e.1) → (heads = [] → ∀ e ∈ rest, e.2 ≠ []) →
    Normal (.list d heads rest)
  | set {d : SetDefinition} {elements : List Term} {rest : Option Term} :
    (∀ e ∈ elements, Normal e) → (∀ r ∈ rest, Normal r) →
    elements.Pairwise (CollectionOrder.elementLe · ·) →
    (∀ r ∈ rest, (setCollection d).Foreign r) → (elements = [] → rest = none) →
    Normal (.set d elements rest)

theorem Normal.flatMap {t : Term} (h : Normal t) (d : MapDefinition) :
    (mapCollection d).Flat CollectionOrder.entryLe t := by
  rcases (mapCollection d).node_or_rest t with ⟨entries, rest, rfl⟩ | hforeign
  · have hparts : (mapCollection d).parts (.map d entries rest) = (entries, rest) :=
      (mapCollection d).parts_node entries rest
    cases h with
    | map _ _ _ hsorted hforeign hempty =>
      constructor
      · show ((mapCollection d).parts (.map d entries rest)).1.Pairwise _
        rwa [hparts]
      · show ∀ r ∈ ((mapCollection d).parts (.map d entries rest)).2, _
        rwa [hparts]
      · show (mapCollection d).ofParts ((mapCollection d).parts (.map d entries rest)) = _
        rw [hparts]
        cases entries with
        | nil =>
          rw [hempty rfl]
          rfl
        | cons entry entries => rfl
  · exact Collection.Foreign.flat hforeign

theorem Normal.flatSet {t : Term} (h : Normal t) (d : SetDefinition) :
    (setCollection d).Flat CollectionOrder.elementLe t := by
  rcases (setCollection d).node_or_rest t with ⟨elements, rest, rfl⟩ | hforeign
  · have hparts : (setCollection d).parts (.set d elements rest) = (elements, rest) :=
      (setCollection d).parts_node elements rest
    cases h with
    | set _ _ hsorted hforeign hempty =>
      constructor
      · show ((setCollection d).parts (.set d elements rest)).1.Pairwise _
        rwa [hparts]
      · show ∀ r ∈ ((setCollection d).parts (.set d elements rest)).2, _
        rwa [hparts]
      · show (setCollection d).ofParts ((setCollection d).parts (.set d elements rest)) = _
        rw [hparts]
        cases elements with
        | nil =>
          rw [hempty rfl]
          rfl
        | cons element elements => rfl
  · exact Collection.Foreign.flat hforeign

theorem Normal.flatList {t : Term} (h : Normal t) (d : ListDefinition) :
    (listSequence d).Flat t := by
  rcases (listSequence d).node_or_middle t with ⟨heads, rest, rfl⟩ | hforeign
  · have hparts : (listSequence d).parts (.list d heads rest) = (heads, rest) :=
      (listSequence d).parts_node heads rest
    cases h with
    | list _ _ _ hforeign hempty =>
      constructor
      · intro m tails hm
        have hrest : rest = some (m, tails) := by
          rw [← hm]
          exact (congrArg Prod.snd hparts).symm
        exact hforeign (m, tails) hrest
      · show (listSequence d).ofParts ((listSequence d).parts (.list d heads rest)) = _
        rw [hparts]
        rcases heads with _ | ⟨head, heads⟩
        · rcases rest with _ | ⟨middle, _ | ⟨tail, tails⟩⟩
          · rfl
          · exact absurd rfl (hempty rfl _ rfl)
          · rfl
        · rfl
  · exact Sequence.Foreign.flat hforeign

theorem Normal.mapParts {t : Term} (h : Normal t) (d : MapDefinition) :
    (∀ e ∈ ((mapCollection d).parts t).1, Normal e.1 ∧ Normal e.2) ∧
      ∀ r ∈ ((mapCollection d).parts t).2, Normal r := by
  rcases (mapCollection d).node_or_rest t with ⟨entries, rest, rfl⟩ | hforeign
  · rw [(mapCollection d).parts_node]
    cases h with
    | map hkeys hvalues hrest => exact ⟨fun e he => ⟨hkeys e he, hvalues e he⟩, hrest⟩
  · rw [hforeign]
    simpa using h

theorem Normal.setParts {t : Term} (h : Normal t) (d : SetDefinition) :
    (∀ e ∈ ((setCollection d).parts t).1, Normal e) ∧
      ∀ r ∈ ((setCollection d).parts t).2, Normal r := by
  rcases (setCollection d).node_or_rest t with ⟨elements, rest, rfl⟩ | hforeign
  · rw [(setCollection d).parts_node]
    cases h with
    | set helements hrest => exact ⟨helements, hrest⟩
  · rw [hforeign]
    simpa using h

theorem Normal.listParts {t : Term} (h : Normal t) (d : ListDefinition) :
    (∀ e ∈ ((listSequence d).parts t).1, Normal e) ∧
      ∀ m tails, ((listSequence d).parts t).2 = some (m, tails) →
        Normal m ∧ ∀ e ∈ tails, Normal e := by
  rcases (listSequence d).node_or_middle t with ⟨heads, rest, rfl⟩ | hforeign
  · rw [(listSequence d).parts_node]
    cases h with
    | list hheads hmiddle htails =>
      exact ⟨hheads, fun m tails hrest => ⟨hmiddle (m, tails) hrest, htails (m, tails) hrest⟩⟩
  · rw [hforeign]
    simpa using h

section Builds

variable {d : MapDefinition} {s : SetDefinition} {l : ListDefinition}

theorem normal_mkInjection (source target : KoreSort) {t : Term} (h : Normal t) :
    Normal (mkInjection source target t) := by
  fun_induction mkInjection source target t with
  | case1 =>
    rename_i ih
    cases h with
    | injection hinner => exact ih hinner
  | case2 =>
    rename_i hne
    apply Normal.injection h
    rintro _ _ ⟨⟩
    exact hne rfl
  | case3 =>
    rename_i hother
    exact .injection h fun innerSource inner heq => hother _ _ _ heq

theorem normal_mapOfParts {p : List (Term × Term) × Option Term}
    (hitems : ∀ e ∈ p.1, Normal e.1 ∧ Normal e.2) (hrest : ∀ r ∈ p.2, Normal r)
    (hsorted : p.1.Pairwise (CollectionOrder.entryLe · ·))
    (hforeign : ∀ r ∈ p.2, (mapCollection d).Foreign r) : Normal ((mapCollection d).ofParts p) := by
  obtain ⟨entries, rest⟩ := p
  unfold Collection.ofParts
  split
  · rename_i rest' heq
    cases heq
    exact hrest rest' rfl
  · rename_i hnone heq
    cases heq
    refine .map (fun e he => (hitems e he).1) (fun e he => (hitems e he).2) hrest hsorted
      hforeign ?_
    rintro rfl
    cases rest with
    | none => rfl
    | some rest => exact absurd rfl (hnone rest rfl)

theorem normal_mapOfItems {entries : List (Term × Term)} {rest : Option Term}
    (hitems : ∀ e ∈ entries, Normal e.1 ∧ Normal e.2) (hrest : ∀ r ∈ rest, Normal r)
    (hsorted : entries.Pairwise (CollectionOrder.entryLe · ·)) :
    Normal (mapOfItems d entries rest) := by
  have hflat : ∀ r ∈ rest, (mapCollection d).Flat CollectionOrder.entryLe r :=
    fun r hr => (hrest r hr).flatMap d
  have hparts : (∀ e ∈ ((mapCollection d).restParts rest).1, Normal e.1 ∧ Normal e.2) ∧
      ∀ r ∈ ((mapCollection d).restParts rest).2, Normal r := by
    cases rest with
    | none => simp [Collection.restParts]
    | some rest => exact (hrest rest rfl).mapParts d
  rw [mapOfItems_eq]
  refine normal_mapOfParts (fun e he => ?_) hparts.2
    (isOrder_entryLe.sorted_merge (Collection.restParts_sorted hflat) hsorted)
    (Collection.restParts_rest hflat)
  cases List.mem_merge.mp he with
  | inl he => exact hparts.1 e he
  | inr he => exact hitems e he

theorem normal_setOfParts {p : List Term × Option Term}
    (hitems : ∀ e ∈ p.1, Normal e) (hrest : ∀ r ∈ p.2, Normal r)
    (hsorted : p.1.Pairwise (CollectionOrder.elementLe · ·))
    (hforeign : ∀ r ∈ p.2, (setCollection s).Foreign r) : Normal ((setCollection s).ofParts p) := by
  obtain ⟨elements, rest⟩ := p
  unfold Collection.ofParts
  split
  · rename_i rest' heq
    cases heq
    exact hrest rest' rfl
  · rename_i hnone heq
    cases heq
    refine .set hitems hrest hsorted hforeign ?_
    rintro rfl
    cases rest with
    | none => rfl
    | some rest => exact absurd rfl (hnone rest rfl)

theorem normal_setOfItems {elements : List Term} {rest : Option Term}
    (hitems : ∀ e ∈ elements, Normal e) (hrest : ∀ r ∈ rest, Normal r)
    (hsorted : elements.Pairwise (CollectionOrder.elementLe · ·)) :
    Normal (setOfItems s elements rest) := by
  have hflat : ∀ r ∈ rest, (setCollection s).Flat CollectionOrder.elementLe r :=
    fun r hr => (hrest r hr).flatSet s
  have hparts : (∀ e ∈ ((setCollection s).restParts rest).1, Normal e) ∧
      ∀ r ∈ ((setCollection s).restParts rest).2, Normal r := by
    cases rest with
    | none => simp [Collection.restParts]
    | some rest => exact (hrest rest rfl).setParts s
  rw [setOfItems_eq]
  refine normal_setOfParts (fun e he => ?_) hparts.2
    (isOrder_elementLe.sorted_merge (Collection.restParts_sorted hflat) hsorted)
    (Collection.restParts_rest hflat)
  cases List.mem_merge.mp he with
  | inl he => exact hparts.1 e he
  | inr he => exact hitems e he

/-- Parts of a list that are normal. -/
structure NormalParts (l : ListDefinition) (p : List Term × Option (Term × List Term)) : Prop where
  heads : ∀ h ∈ p.1, Normal h
  middle : ∀ m tails, p.2 = some (m, tails) → Normal m ∧ ∀ e ∈ tails, Normal e
  foreign : ∀ m tails, p.2 = some (m, tails) → (listSequence l).Foreign m

theorem Normal.parts {t : Term} (h : Normal t) : NormalParts l ((listSequence l).parts t) :=
  ⟨(h.listParts l).1, (h.listParts l).2, (h.flatList l).middle⟩

theorem NormalParts.wrap {p : List Term × Option (Term × List Term)} (h : NormalParts l p)
    {heads tails : List Term} (hheads : ∀ e ∈ heads, Normal e) (htails : ∀ e ∈ tails, Normal e) :
    NormalParts l (Sequence.wrap heads tails p) := by
  obtain ⟨inner, _ | ⟨middle, innerTails⟩⟩ := p
  · constructor
    · intro e he
      simp only [Sequence.wrap, List.mem_append] at he
      rcases he with (he | he) | he
      · exact hheads e he
      · exact h.heads e he
      · exact htails e he
    · rintro m ts ⟨⟩
    · rintro m ts ⟨⟩
  · obtain ⟨hmiddle, hinner⟩ := h.middle middle innerTails rfl
    constructor
    · intro e he
      cases List.mem_append.mp he with
      | inl he => exact hheads e he
      | inr he => exact h.heads e he
    · rintro m ts ⟨⟩
      refine ⟨hmiddle, fun e he => ?_⟩
      cases List.mem_append.mp he with
      | inl he => exact hinner e he
      | inr he => exact htails e he
    · rintro m ts ⟨⟩
      exact h.foreign middle innerTails rfl

theorem NormalParts.normal {p : List Term × Option (Term × List Term)} (h : NormalParts l p) :
    Normal ((listSequence l).ofParts p) := by
  obtain ⟨heads, rest⟩ := p
  unfold Sequence.ofParts
  split
  · rename_i middle heq
    cases heq
    exact (h.middle middle [] rfl).1
  · rename_i hnone heq
    cases heq
    refine .list h.heads (fun e he => (h.middle e.1 e.2 he).1)
      (fun e he => (h.middle e.1 e.2 he).2) (fun e he => h.foreign e.1 e.2 he) ?_
    rintro rfl ⟨middle, tails⟩ rfl rfl
    exact hnone middle rfl rfl

theorem normal_listOfItems {heads : List Term} {rest : Option (Term × List Term)}
    (hheads : ∀ h ∈ heads, Normal h) (hmiddle : ∀ e ∈ rest, Normal e.1)
    (htails : ∀ e ∈ rest, ∀ t ∈ e.2, Normal t) : Normal (listOfItems l heads rest) := by
  rw [listOfItems_eq]
  cases rest with
  | none =>
    have hparts : NormalParts l (heads, none) :=
      ⟨hheads, by rintro m ts ⟨⟩, by rintro m ts ⟨⟩⟩
    have hnormal := hparts.normal
    rwa [Sequence.ofParts_none] at hnormal
  | some entry => exact ((hmiddle entry rfl).parts.wrap hheads (htails entry rfl)).normal

variable {symbol : TermSymbol} {sortArguments : List KoreSort}

section Concatenations

variable {left right : Term}

theorem mkApplication_maps (hform : applicationForm symbol sortArguments 2 = .maps d) :
    mkApplication symbol sortArguments [left, right] =
      (mapCollection d).combine CollectionOrder.entryLe (concatenation symbol sortArguments) left
        right := by
  rw [mkApplication_eq, List.length_cons, List.length_cons, List.length_nil, hform, Form.apply,
    combineMaps_eq]

theorem mkApplication_sets (hform : applicationForm symbol sortArguments 2 = .sets s) :
    mkApplication symbol sortArguments [left, right] =
      (setCollection s).combine CollectionOrder.elementLe (concatenation symbol sortArguments)
        left right := by
  rw [mkApplication_eq, List.length_cons, List.length_cons, List.length_nil, hform, Form.apply,
    combineSets_eq]

variable (hleft : Normal left) (hright : Normal right)
include hleft hright

theorem mkApplication_lists (hform : applicationForm symbol sortArguments 2 = .lists l) :
    mkApplication symbol sortArguments [left, right] =
      (listSequence l).combine (concatenation symbol sortArguments) left right := by
  rw [mkApplication_eq, List.length_cons, List.length_cons, List.length_nil, hform, Form.apply,
    combineLists_eq _ _ l (hleft.flatList l) (hright.flatList l)]

theorem normal_concatenation (hraw : mkApplication symbol sortArguments [left, right] =
    concatenation symbol sortArguments left right) :
    Normal (concatenation symbol sortArguments left right) :=
  .application (by simp [hleft, hright]) hraw

theorem normal_combineMaps (hform : applicationForm symbol sortArguments 2 = .maps d) :
    Normal (combineMaps d symbol sortArguments left right) := by
  have hl := hleft.mapParts d
  have hr := hright.mapParts d
  refine normal_mapOfItems (fun e he => ?_) ?_
    (isOrder_entryLe.sorted_merge (hleft.flatMap d).sorted (hright.flatMap d).sorted)
  · cases List.mem_merge.mp he with
    | inl he => exact hl.1 e he
    | inr he => exact hr.1 e he
  · rw [combineRests_eq]
    refine Collection.joinRests_forall hl.2 hr.2 fun a ha b hb =>
      normal_concatenation (hl.2 a ha) (hr.2 b hb) ?_
    rw [mkApplication_maps hform]
    exact Collection.combine_of_foreign ((hleft.flatMap d).rest a ha)
      ((hright.flatMap d).rest b hb) rfl

theorem normal_combineSets (hform : applicationForm symbol sortArguments 2 = .sets s) :
    Normal (combineSets s symbol sortArguments left right) := by
  have hl := hleft.setParts s
  have hr := hright.setParts s
  refine normal_setOfItems (fun e he => ?_) ?_
    (isOrder_elementLe.sorted_merge (hleft.flatSet s).sorted (hright.flatSet s).sorted)
  · cases List.mem_merge.mp he with
    | inl he => exact hl.1 e he
    | inr he => exact hr.1 e he
  · rw [combineRests_eq]
    refine Collection.joinRests_forall hl.2 hr.2 fun a ha b hb =>
      normal_concatenation (hl.2 a ha) (hr.2 b hb) ?_
    rw [mkApplication_sets hform]
    exact Collection.combine_of_foreign ((hleft.flatSet s).rest a ha)
      ((hright.flatSet s).rest b hb) rfl

theorem normal_combineLists (hform : applicationForm symbol sortArguments 2 = .lists l) :
    Normal (combineLists l symbol sortArguments left right) := by
  rw [combineLists_eq _ _ l (hleft.flatList l) (hright.flatList l)]
  rcases hl : (listSequence l).parts left with ⟨heads, _ | entry⟩
  · rw [Sequence.combine_left _ _ hl]
    have hheads := (hleft.listParts l).1
    rw [hl] at hheads
    exact (hright.parts.wrap hheads (by simp)).normal
  rcases hr : (listSequence l).parts right with ⟨tails, _ | entry'⟩
  · rw [Sequence.combine_right _ _ hr]
    have htails := (hright.listParts l).1
    rw [hr] at htails
    exact (hleft.parts.wrap (by simp) htails).normal
  · rw [Sequence.combine_join _ hl hr]
    apply normal_concatenation hleft hright
    rw [mkApplication_lists hleft hright hform, Sequence.combine_join _ hl hr]

end Concatenations

theorem normal_mkApplication {arguments : List Term} (h : ∀ a ∈ arguments, Normal a) :
    Normal (mkApplication symbol sortArguments arguments) := by
  by_cases hraw : mkApplication symbol sortArguments arguments =
      .application symbol sortArguments arguments
  · rw [hraw]
    exact .application h hraw
  have heq := mkApplication_eq symbol sortArguments arguments
  rw [heq] at hraw ⊢
  generalize hform : applicationForm symbol sortArguments arguments.length = form at hraw ⊢
  unfold Form.apply at hraw ⊢
  split at hraw <;> rename_i hform
  · exact normal_mkInjection _ _ (h _ (by simp))
  · exact .map (by simp) (by simp) (by simp) .nil (by simp) (by simp)
  · exact .map (by simpa using h _ (by simp)) (by simpa using h _ (by simp)) (by simp)
      (List.pairwise_singleton _ _) (by simp) (by simp)
  · exact normal_combineMaps (h _ (by simp)) (h _ (by simp)) hform
  · exact .list (by simp) (by simp) (by simp) (by simp) (by simp)
  · exact .list (by simpa using h) (by simp) (by simp) (by simp) (by simp)
  · exact normal_combineLists (h _ (by simp)) (h _ (by simp)) hform
  · exact .set (by simp) (by simp) .nil (by simp) (by simp)
  · exact .set (by simpa using h) (by simp) (List.pairwise_singleton _ _) (by simp) (by simp)
  · exact normal_combineSets (h _ (by simp)) (h _ (by simp)) hform
  · exact absurd rfl hraw

end Builds

section Built

/-- `Term::map` -/
def mkMap (d : MapDefinition) (entries : List (Term × Term)) (rest : Option Term) : Term :=
  mapOfItems d (entries.mergeSort CollectionOrder.entryLe) rest

/-- `Term::set` -/
def mkSet (d : SetDefinition) (elements : List Term) (rest : Option Term) : Term :=
  setOfItems d (elements.mergeSort CollectionOrder.elementLe) rest

/-- A term made by the constructors alone. -/
inductive Built : Term → Prop where
  | and {left right : Term} : Built left → Built right → Built (.and left right)
  | application (symbol : TermSymbol) (sortArguments : List KoreSort) {arguments : List Term} :
    (∀ a ∈ arguments, Built a) → Built (mkApplication symbol sortArguments arguments)
  | domainValue (sort : KoreSort) (value : KoreString) : Built (.domainValue sort value)
  | var (v : TermVariable) : Built (.var v)
  | injection (source target : KoreSort) {term : Term} : Built term →
    Built (mkInjection source target term)
  | map (d : MapDefinition) {entries : List (Term × Term)} {rest : Option Term} :
    (∀ e ∈ entries, Built e.1) → (∀ e ∈ entries, Built e.2) → (∀ r ∈ rest, Built r) →
    Built (mkMap d entries rest)
  | list (d : ListDefinition) {heads : List Term} {rest : Option (Term × List Term)} :
    (∀ h ∈ heads, Built h) → (∀ e ∈ rest, Built e.1) → (∀ e ∈ rest, ∀ t ∈ e.2, Built t) →
    Built (listOfItems d heads rest)
  | set (d : SetDefinition) {elements : List Term} {rest : Option Term} :
    (∀ e ∈ elements, Built e) → (∀ r ∈ rest, Built r) → Built (mkSet d elements rest)

theorem Built.normal {t : Term} (h : Built t) : Normal t := by
  induction h with
  | and _ _ ihl ihr => exact .and ihl ihr
  | application symbol sortArguments _ ih => exact normal_mkApplication ih
  | domainValue sort value => exact .domainValue sort value
  | var v => exact .var v
  | injection source target _ ih => exact normal_mkInjection source target ih
  | map d _ _ _ ihk ihv ihr =>
    exact normal_mapOfItems (fun e he => ⟨ihk e (List.mem_mergeSort.mp he),
      ihv e (List.mem_mergeSort.mp he)⟩) ihr (isOrder_entryLe.sorted_mergeSort _)
  | list d _ _ _ ihh ihm iht => exact normal_listOfItems ihh ihm iht
  | set d _ _ ihe ihr =>
    exact normal_setOfItems (fun e he => ihe e (List.mem_mergeSort.mp he)) ihr
      (isOrder_elementLe.sorted_mergeSort _)

end Built

end Normal

end KRust.Backend.Term
