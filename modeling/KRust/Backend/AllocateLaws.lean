import KRust.Backend.Allocate
import KRust.Backend.Rebuild

/-!
Whatever marks a node and its parts were given, the attributes that are stored are those of the
recursive definitions over the whole term.
-/

set_option linter.unusedSectionVars false

namespace KRust.Backend

open KRust.Kore Lib
open KRust.Term.Chunks (hasCollision collides anyAdjacent)

theorem normal_children {layer : Layer Term} (h : layer.term.Normal) :
    ∀ child ∈ layer.children, child.Normal := by
  intro child hchild
  cases layer with
  | and left right =>
    cases h with
    | and hleft hright =>
      simp only [Layer.children, List.mem_cons, List.not_mem_nil, or_false] at hchild
      rcases hchild with rfl | rfl
      · exact hleft
      · exact hright
  | application symbol sortArguments arguments =>
    cases h with
    | application harguments _ => exact harguments child hchild
  | domainValue sort value => cases hchild
  | var v => cases hchild
  | injection source target term =>
    cases h with
    | injection hterm _ => exact List.mem_singleton.mp hchild ▸ hterm
  | map d entries rest =>
    cases h with
    | map hkeys hvalues hrest =>
      simp only [Layer.children, List.mem_append, List.mem_flatMap, List.mem_cons,
        List.not_mem_nil, or_false, Option.mem_toList] at hchild
      rcases hchild with ⟨e, he, rfl | rfl⟩ | hchild
      · exact hkeys e he
      · exact hvalues e he
      · exact hrest child hchild
  | list d heads rest =>
    cases h with
    | list hheads hmiddle htails =>
      simp only [Layer.children, List.mem_append, List.mem_flatMap, List.mem_cons,
        Option.mem_toList] at hchild
      rcases hchild with hchild | ⟨e, he, rfl | hchild⟩
      · exact hheads child hchild
      · exact hmiddle e he
      · exact htails e he child hchild
  | set d elements rest =>
    cases h with
    | set helements hrest =>
      simp only [Layer.children, List.mem_append, Option.mem_toList] at hchild
      rcases hchild with hchild | hchild
      · exact helements child hchild
      · exact hrest child hchild

section Agreement

variable [TermHash]

/-- The attributes that no mark changes are the same. -/
structure TermAttributes.Agrees (one two : TermAttributes) : Prop where
  vars : one.vars = two.vars
  constructorLike : one.constructorLike = two.constructorLike
  concreteAfterNormalization : one.concreteAfterNormalization = two.concreteAfterNormalization
  canBeEvaluated : one.canBeEvaluated = two.canBeEvaluated
  ceilFree : one.ceilFree = two.ceilFree
  hasMacroOrAlias : one.hasMacroOrAlias = two.hasMacroOrAlias
  kCells : one.kCells = two.kCells
  mayBeRigid : one.mayBeRigid = two.mayBeRigid
  firstConjunct : one.firstConjunct = two.firstConjunct

namespace TermAttributes.Agrees

variable {one two three : TermAttributes}

theorem trans (h : one.Agrees two) (h' : two.Agrees three) : one.Agrees three where
  vars := h.vars.trans h'.vars
  constructorLike := h.constructorLike.trans h'.constructorLike
  concreteAfterNormalization := h.concreteAfterNormalization.trans h'.concreteAfterNormalization
  canBeEvaluated := h.canBeEvaluated.trans h'.canBeEvaluated
  ceilFree := h.ceilFree.trans h'.ceilFree
  hasMacroOrAlias := h.hasMacroOrAlias.trans h'.hasMacroOrAlias
  kCells := h.kCells.trans h'.kCells
  mayBeRigid := h.mayBeRigid.trans h'.mayBeRigid
  firstConjunct := h.firstConjunct.trans h'.firstConjunct

end TermAttributes.Agrees

/-- The node stores what the recursive definitions give. -/
def StoredTerm.Sound (t : StoredTerm) : Prop := t.attributes.Agrees t.term.attributes

section Combine

variable (terms : List StoredTerm) (start : TermAttributes)

theorem foldl_addChild_vars : (terms.foldl addChild start).vars = start.vars ∪ unite terms := by
  induction terms generalizing start with
  | nil => simp [unite]
  | cons t ts ih => rw [List.foldl_cons, ih, addChild, unite, unite, List.foldr_cons,
      Finset.union_assoc]

theorem foldl_addChild_constructorLike : (terms.foldl addChild start).constructorLike =
    (start.constructorLike && terms.all fun t => Flag.constructorLike.holdsOf t) := by
  induction terms generalizing start with
  | nil => simp
  | cons t ts ih =>
    rw [List.foldl_cons, ih, List.all_cons, ← Bool.and_assoc]
    rfl

theorem foldl_addChild_concrete : (terms.foldl addChild start).concreteAfterNormalization =
    (start.concreteAfterNormalization &&
      terms.all fun t => Flag.concreteAfterNormalization.holdsOf t) := by
  induction terms generalizing start with
  | nil => simp
  | cons t ts ih =>
    rw [List.foldl_cons, ih, List.all_cons, ← Bool.and_assoc]
    rfl

theorem foldl_addChild_canBeEvaluated : (terms.foldl addChild start).canBeEvaluated =
    (start.canBeEvaluated && terms.all fun t => Flag.canBeEvaluated.holdsOf t) := by
  induction terms generalizing start with
  | nil => simp
  | cons t ts ih =>
    rw [List.foldl_cons, ih, List.all_cons, ← Bool.and_assoc]
    rfl

theorem foldl_addVars_vars :
    (terms.foldl (fun attributes item => addVars attributes item.attributes.vars) start).vars =
      start.vars ∪ unite terms := by
  induction terms generalizing start with
  | nil => simp [unite]
  | cons t ts ih => rw [List.foldl_cons, ih, addVars, unite, unite, List.foldr_cons,
      Finset.union_assoc]

theorem foldl_addVars_flags :
    (terms.foldl (fun attributes item => addVars attributes item.attributes.vars)
        start).constructorLike = start.constructorLike ∧
      (terms.foldl (fun attributes item => addVars attributes item.attributes.vars)
        start).concreteAfterNormalization = start.concreteAfterNormalization ∧
      (terms.foldl (fun attributes item => addVars attributes item.attributes.vars)
        start).canBeEvaluated = start.canBeEvaluated := by
  induction terms generalizing start with
  | nil => exact ⟨rfl, rfl, rfl⟩
  | cons t ts ih => exact ih _

theorem foldl_or (found : Bool) :
    terms.foldl (fun found child => found || child.attributes.hasMacroOrAlias) found =
      (found || terms.any fun t => t.attributes.hasMacroOrAlias) := by
  induction terms generalizing found with
  | nil => simp
  | cons t ts ih => rw [List.foldl_cons, ih, List.any_cons, Bool.or_assoc]

theorem foldl_kCells (count : Nat) (hcount : count ≤ 2) :
    terms.foldl (fun count child => min (count + child.attributes.kCells) 2) count =
      min (count + (terms.map fun t => t.attributes.kCells).sum) 2 := by
  induction terms generalizing count with
  | nil => simpa using hcount
  | cons t ts ih =>
    rw [List.foldl_cons, ih _ (Nat.min_le_right _ _), List.map_cons, List.sum_cons]
    omega

end Combine

section ItemsOf

variable (items : Items StoredTerm)

theorem terms_elements (ts : List StoredTerm) : ts.flatMap StoredItem.terms = ts := by
  induction ts with
  | nil => rfl
  | cons t ts ih => rw [List.flatMap_cons, ih]; rfl

theorem addItemsVars_vars (start : TermAttributes) :
    (addItemsVars start items).vars = start.vars ∪ unite items.toList := by
  unfold addItemsVars largeItemsVars
  split
  · rename_i vars hvars
    split at hvars
    · cases hvars
      ext v
      rw [addVars, Finset.mem_union, Finset.mem_union, Multiset.mem_toFinset, Items.mem_group,
        terms_elements, Items.mem_unite]
    · cases hvars
  · exact foldl_addVars_vars items.toList start

theorem addItemsVars_flags (start : TermAttributes) :
    (addItemsVars start items).constructorLike = start.constructorLike ∧
      (addItemsVars start items).concreteAfterNormalization = start.concreteAfterNormalization ∧
      (addItemsVars start items).canBeEvaluated = start.canBeEvaluated := by
  unfold addItemsVars
  split
  · exact ⟨rfl, rfl, rfl⟩
  · exact foldl_addVars_flags items.toList start

end ItemsOf

section Collisions

variable {I : Type} [StoredItem I]

/-- In the order of the keys, a key that is repeated follows itself. -/
theorem hasCollision_eq {is : List I}
    (hsorted : (is.map fun i => (StoredItem.key i).term).Pairwise (· ≤ ·)) :
    hasCollision is = !decide (is.map fun i => (StoredItem.key i).term).Nodup := by
  have htest : ∀ i j : I, collides (some i) (some j) =
      decide ((StoredItem.key i).term = (StoredItem.key j).term) := fun i j => rfl
  induction is with
  | nil => rfl
  | cons i is ih =>
    cases is with
    | nil =>
      simp only [List.map_cons, List.map_nil, List.nodup_singleton, decide_true, Bool.not_true]
      rfl
    | cons j is =>
      obtain ⟨hhead, htail⟩ := List.pairwise_cons.mp hsorted
      have hij : (StoredItem.key i).term ≤ (StoredItem.key j).term :=
        hhead _ List.mem_cons_self
      have hmem : (StoredItem.key i).term ∈ (j :: is).map (fun i => (StoredItem.key i).term) ↔
          (StoredItem.key i).term = (StoredItem.key j).term := by
        constructor
        · intro hmem
          rw [List.map_cons] at hmem htail
          cases List.mem_cons.mp hmem with
          | inl heq => exact heq
          | inr hmem => exact hij.antisymm ((List.pairwise_cons.mp htail).1 _ hmem)
        · intro heq
          rw [heq]
          exact List.mem_cons_self
      have hstep : hasCollision (i :: j :: is) =
          (collides (some i) (some j) || hasCollision (j :: is)) := rfl
      rw [hstep, htest, ih htail, List.map_cons (a := i)]
      simp only [List.nodup_cons (a := (StoredItem.key i).term), hmem]
      simp

/-- The order of map entries is one of their keys. -/
theorem keys_sorted_of_entries {entries : List (StoredTerm × StoredTerm)}
    (hsorted : (entries.map fun e => (e.1.term, e.2.term)).Pairwise
      (CollectionOrder.entryLe · ·)) :
    (entries.map fun e => (StoredItem.key e).term).Pairwise (· ≤ ·) := by
  rw [List.pairwise_map] at hsorted ⊢
  refine hsorted.imp fun {a b} hab => ?_
  have hle : toLex (a.1.term, a.2.term) ≤ toLex (b.1.term, b.2.term) := of_decide_eq_true hab
  exact Prod.Lex.monotone_fst _ _ hle

theorem collision_map {d : MapDefinition} {entries : Items (StoredTerm × StoredTerm)}
    {rest : Option StoredTerm} (hnormal : (TermKind.map d entries rest).term.Normal) :
    entries.summary.collision = !(TermKind.map d entries rest).layer.distinctKeys := by
  have hsorted : (entries.toList.map fun e => (e.1.term, e.2.term)).Pairwise
      (CollectionOrder.entryLe · ·) := by
    cases hnormal with
    | map _ _ _ hsorted => exact hsorted
  rw [entries.summarizes.collision, hasCollision_eq (keys_sorted_of_entries hsorted),
    Layer.distinctKeys, TermKind.layer, Layer.keys, List.map_map]
  rfl

theorem collision_set {d : SetDefinition} {elements : Items StoredTerm}
    {rest : Option StoredTerm} (hnormal : (TermKind.set d elements rest).term.Normal) :
    elements.summary.collision = !(TermKind.set d elements rest).layer.distinctKeys := by
  have hsorted : (elements.toList.map StoredTerm.term).Pairwise
      (CollectionOrder.elementLe · ·) := by
    cases hnormal with
    | set _ _ hsorted => exact hsorted
  have hle : (elements.toList.map fun e => (StoredItem.key e).term).Pairwise (· ≤ ·) :=
    hsorted.imp fun h => of_decide_eq_true h
  rw [elements.summarizes.collision, hasCollision_eq hle, Layer.distinctKeys, TermKind.layer,
    Layer.keys]
  rfl

end Collisions

section Headers

theorem mayBeRigid_of_headed {t : Term} (h : t.headed = true) : t.attributes.mayBeRigid = true := by
  induction t with
  | application symbol sortArguments arguments ih =>
    rw [Term.headed, Term.allHeaded_eq, Bool.and_eq_true, List.all_eq_true] at h
    rw [Term.attributes_eq]
    simp only [Term.layer, Layer.change, Layer.attributes, Layer.mayBeRigid, Layer.children,
      List.all_map, Bool.and_eq_true, List.all_eq_true]
    exact ⟨fun a ha => ih a ha (h.2 a ha), by simp [of_decide_eq_true h.1]⟩
  | domainValue sort value => rfl
  | injection source target term ih =>
    rw [Term.attributes_eq]
    simp only [Term.layer, Layer.change, Layer.attributes, Layer.mayBeRigid, Layer.children,
      List.all_cons, List.all_nil, Bool.and_true]
    exact ih h
  | _ => cases h

theorem hasKeyHeader_eq {key : StoredTerm} (hsound : key.Sound) :
    hasKeyHeader key = key.term.headed := by
  rw [hasKeyHeader, hsound.mayBeRigid, Term.keyHeaderWalk_eq, List.all_nil, Bool.and_true]
  cases hheaded : key.term.headed with
  | false => rw [Bool.and_false]
  | true => rw [mayBeRigid_of_headed hheaded, Bool.and_true]

variable {I : Type} [StoredItem I]

theorem keysShareOneHeader_eq (items : Items I) {layer : Layer StoredTerm}
    (hkeys : layer.keys = items.toList.map StoredItem.key) (hsound : ∀ k ∈ layer.keys, k.Sound) :
    items.summary.extra.keysShareOneHeader = layer.oneHeader := by
  rw [Bool.eq_iff_iff, Items.keysShareOneHeader_iff, Layer.oneHeader, decide_eq_true_iff, hkeys]
  rw [hkeys] at hsound
  simp only [List.mem_map, forall_exists_index, and_imp, forall_apply_eq_imp_iff₂] at hsound ⊢
  constructor
  · intro h i hi
    exact ⟨(hasKeyHeader_eq (hsound i hi)).symm.trans (h i hi).1, (h i hi).2⟩
  · intro h i hi
    exact ⟨(hasKeyHeader_eq (hsound i hi)).trans (h i hi).1, (h i hi).2⟩

end Headers

section Structural

theorem terms_entries (entries : List (StoredTerm × StoredTerm)) :
    entries.flatMap StoredItem.terms = entries.flatMap fun entry => [entry.1, entry.2] := rfl

theorem unite_append (ts us : List StoredTerm) : unite (ts ++ us) = unite ts ∪ unite us := by
  ext v
  simp only [Items.mem_unite, Finset.mem_union, List.mem_append, or_and_right, exists_or]

theorem group_toFinset {I : Type} [StoredItem I] (items : Items I) :
    items.summary.group.toFinset = unite (items.toList.flatMap StoredItem.terms) := by
  ext v
  rw [Multiset.mem_toFinset, Items.mem_group, Items.mem_unite]

variable {kind : TermKind}

theorem vars_structural : (structuralAttributes kind).vars = kind.layer.vars := by
  show (synthesizeAttributes kind).1.vars = _
  cases kind with
  | and left right =>
    refine (foldl_addChild_vars [left, right] _).trans ?_
    exact Finset.empty_union _
  | application symbol sortArguments arguments =>
    exact (foldl_addChild_vars arguments _).trans (Finset.empty_union _)
  | domainValue sort value => rfl
  | var v => rfl
  | injection source target term =>
    exact (Finset.union_empty _).symm
  | map d entries rest =>
    have hitems : (addVars (itemsShape entries.summary.extra.holds)
        entries.summary.group.toFinset).vars = unite (entries.toList.flatMap StoredItem.terms) := by
      rw [addVars, group_toFinset]
      exact Finset.empty_union _
    have hexclude : ∀ c a, (excludeCollision c a).vars = a.vars := by
      intro c a
      cases c <;> rfl
    simp only [synthesizeAttributes, hexclude, TermKind.layer, Layer.vars, Layer.children,
      unite_append]
    cases rest with
    | none => exact hitems.trans (Finset.union_empty _).symm
    | some rest =>
      refine congrArg₂ (· ∪ ·) hitems ?_
      exact (Finset.union_empty _).symm
  | list d heads rest =>
    have hheads : (addItemsVars (itemsShape (listItemsHold heads rest)) heads).vars =
        unite heads.toList := (addItemsVars_vars heads _).trans (Finset.empty_union _)
    simp only [synthesizeAttributes, TermKind.layer, Layer.vars, Layer.children, unite_append]
    cases rest with
    | none => exact hheads.trans (Finset.union_empty _).symm
    | some entry =>
      obtain ⟨middle, tails⟩ := entry
      refine (addItemsVars_vars tails _).trans ?_
      rw [addChild, hheads, Finset.union_assoc]
      simp only [Option.map_some, Option.toList_some, List.flatMap_cons, List.flatMap_nil,
        List.append_nil]
      rfl
  | set d elements rest =>
    have hitems : (addItemsVars (itemsShape elements.summary.extra.holds) elements).vars =
        unite elements.toList := (addItemsVars_vars elements _).trans (Finset.empty_union _)
    have hexclude : ∀ c a, (excludeCollision c a).vars = a.vars := by
      intro c a
      cases c <;> rfl
    simp only [synthesizeAttributes, hexclude, TermKind.layer, Layer.vars, Layer.children,
      unite_append]
    cases rest with
    | none => exact hitems.trans (Finset.union_empty _).symm
    | some rest =>
      refine congrArg₂ (· ∪ ·) hitems ?_
      exact (Finset.union_empty _).symm

theorem hasMacroOrAlias_structural :
    (structuralAttributes kind).hasMacroOrAlias = kind.layer.hasMacroOrAlias := by
  show hasMacroOrAliasOf kind = _
  cases kind with
  | and left right =>
    rw [hasMacroOrAliasOf, foldl_or, Bool.false_or]
    exact (Bool.or_false _).symm
  | application symbol sortArguments arguments =>
    rw [hasMacroOrAliasOf, foldl_or, Bool.or_comm]
    rfl
  | domainValue sort value => rfl
  | var v => rfl
  | injection source target term => simp [hasMacroOrAliasOf, TermKind.layer, Layer.hasMacroOrAlias,
      Layer.children]
  | map d entries rest =>
    rw [hasMacroOrAliasOf, Items.hasMacroOrAlias_eq, terms_entries]
    cases rest <;> simp [TermKind.layer, Layer.hasMacroOrAlias, Layer.children]
  | list d heads rest =>
    rw [hasMacroOrAliasOf, Items.hasMacroOrAlias_eq, terms_elements]
    cases rest <;> simp [TermKind.layer, Layer.hasMacroOrAlias, Layer.children,
      Items.hasMacroOrAlias_eq, terms_elements]
  | set d elements rest =>
    rw [hasMacroOrAliasOf, Items.hasMacroOrAlias_eq, terms_elements]
    cases rest <;> simp [TermKind.layer, Layer.hasMacroOrAlias, Layer.children]

theorem kCells_structural : (structuralAttributes kind).kCells = kind.layer.kCells := by
  show kCellsOf kind = _
  cases kind with
  | and left right =>
    rw [kCellsOf, foldl_kCells _ _ (Nat.zero_le _), Nat.zero_add]
    rfl
  | application symbol sortArguments arguments =>
    rw [kCellsOf, foldl_kCells _ _ (Nat.zero_le _), Nat.zero_add]
    rfl
  | domainValue sort value => rfl
  | var v => rfl
  | injection source target term => simp [kCellsOf, TermKind.layer, Layer.kCells, Layer.children]
  | map d entries rest =>
    rw [kCellsOf, Items.kCells_eq, terms_entries, foldl_kCells _ _ (Nat.min_le_right _ _)]
    simp only [TermKind.layer, Layer.kCells, Layer.children, List.map_append, List.sum_append]
    omega
  | list d heads rest =>
    cases rest with
    | none => simp [kCellsOf, Items.kCells_eq, terms_elements, TermKind.layer, Layer.kCells,
        Layer.children]
    | some entry =>
      simp only [kCellsOf, TermKind.layer, Layer.kCells, Layer.children, Items.kCells_eq, terms_elements,
        Option.map_some, Option.toList_some, List.flatMap_cons, List.flatMap_nil,
        List.append_nil, List.map_append, List.sum_append, List.map_cons, List.sum_cons]
      omega
  | set d elements rest =>
    rw [kCellsOf, Items.kCells_eq, terms_elements, foldl_kCells _ _ (Nat.min_le_right _ _)]
    simp only [TermKind.layer, Layer.kCells, Layer.children, List.map_append, List.sum_append]
    omega

theorem mayBeRigid_structural :
    (structuralAttributes kind).mayBeRigid = kind.layer.mayBeRigid := by
  show mayBeRigidOf kind = _
  cases kind with
  | application symbol sortArguments arguments => exact Bool.and_comm _ _
  | injection source target term => simp [mayBeRigidOf, TermKind.layer, Layer.mayBeRigid,
      Layer.children]
  | domainValue sort value => rfl
  | _ => exact (Bool.and_false _).symm

theorem firstConjunct_structural :
    (structuralAttributes kind).firstConjunct = kind.layer.firstConjunct := by
  cases kind <;> rfl

/-- A shape that a repeated key excludes. -/
def Flag.OfShape (flag : Flag) : Prop :=
  flag = .constructorLike ∨ flag = .concreteAfterNormalization

/-- A flag that a node's children give together. -/
def Flag.OfChildren (flag : Flag) : Prop := flag.OfShape ∨ flag = .canBeEvaluated

theorem excludeCollision_flag {flag : Flag} (hflag : flag.OfShape) (collision : Bool)
    (t : Term) (attributes : TermAttributes) :
    flag.holdsOf ⟨t, excludeCollision collision attributes⟩ =
      (flag.holdsOf ⟨t, attributes⟩ && !collision) := by
  rcases hflag with rfl | rfl <;> cases collision <;> simp [excludeCollision, Flag.holdsOf]

theorem addChild_flag {flag : Flag} (hflag : flag.OfChildren) (t : Term)
    (attributes : TermAttributes) (child : StoredTerm) :
    flag.holdsOf ⟨t, addChild attributes child⟩ =
      (flag.holdsOf ⟨t, attributes⟩ && flag.holdsOf child) := by
  rcases hflag with (rfl | rfl) | rfl <;> rfl

theorem elim_addChild_flag {flag : Flag} (hflag : flag.OfChildren) (t : Term)
    (attributes : TermAttributes) (rest : Option StoredTerm) :
    flag.holdsOf ⟨t, rest.elim attributes (addChild attributes)⟩ =
      (flag.holdsOf ⟨t, attributes⟩ && rest.toList.all fun t => flag.holdsOf t) := by
  cases rest with
  | none => exact (Bool.and_true _).symm
  | some rest =>
    refine (addChild_flag hflag t attributes rest).trans ?_
    rw [Option.toList_some, List.all_cons, List.all_nil, Bool.and_true]

theorem addItemsVars_flag {flag : Flag} (hflag : flag.OfChildren) (t : Term)
    (attributes : TermAttributes) (items : Items StoredTerm) :
    flag.holdsOf ⟨t, addItemsVars attributes items⟩ = flag.holdsOf ⟨t, attributes⟩ := by
  have hflags := addItemsVars_flags items attributes
  rcases hflag with (rfl | rfl) | rfl
  · exact hflags.1
  · exact hflags.2.1
  · exact hflags.2.2

theorem itemsShape_flag {flag : Flag} (hflag : flag.OfChildren) (t : Term) (holds : Flag → Bool)
    (vars : Finset TermVariable) :
    flag.holdsOf ⟨t, addVars (itemsShape holds) vars⟩ = holds flag ∧
      flag.holdsOf ⟨t, itemsShape holds⟩ = holds flag := by
  rcases hflag with (rfl | rfl) | rfl <;> exact ⟨rfl, rfl⟩

theorem map_flag {flag : Flag} (hflag : flag.OfShape) {d : MapDefinition}
    {entries : Items (StoredTerm × StoredTerm)} {rest : Option StoredTerm} (t : Term)
    (hnormal : (TermKind.map d entries rest).term.Normal) :
    flag.holdsOf ⟨t, (synthesizeAttributes (.map d entries rest)).1⟩ =
      ((TermKind.map d entries rest).layer.allHold flag &&
        (TermKind.map d entries rest).layer.distinctKeys) := by
  rw [synthesizeAttributes, excludeCollision_flag hflag, collision_map hnormal, Bool.not_not,
    elim_addChild_flag (.inl hflag), (itemsShape_flag (.inl hflag) t _ _).1, Items.holds_eq, terms_entries,
    Layer.allHold, TermKind.layer, Layer.children, List.all_append]

theorem set_flag {flag : Flag} (hflag : flag.OfShape) {d : SetDefinition}
    {elements : Items StoredTerm} {rest : Option StoredTerm} (t : Term)
    (hnormal : (TermKind.set d elements rest).term.Normal) :
    flag.holdsOf ⟨t, (synthesizeAttributes (.set d elements rest)).1⟩ =
      ((TermKind.set d elements rest).layer.allHold flag &&
        (TermKind.set d elements rest).layer.distinctKeys) := by
  rw [synthesizeAttributes, excludeCollision_flag hflag, collision_set hnormal, Bool.not_not,
    elim_addChild_flag (.inl hflag), addItemsVars_flag (.inl hflag),
    (itemsShape_flag (.inl hflag) t _ ∅).2, Items.holds_eq, terms_elements, Layer.allHold, TermKind.layer, Layer.children,
    List.all_append]

theorem listItemsHold_eq (heads : Items StoredTerm) (rest : Option (StoredTerm × Items StoredTerm))
    (flag : Flag) : (listItemsHold heads rest flag &&
        rest.all fun entry => flag.holdsOf entry.1) =
      ((heads.toList ++ (rest.map fun entry => (entry.1, entry.2.toList)).toList.flatMap
        fun entry => entry.1 :: entry.2).all fun t => flag.holdsOf t) := by
  cases rest with
  | none => simp [listItemsHold, Items.holds_eq, terms_elements]
  | some entry =>
    simp only [listItemsHold, Items.holds_eq, terms_elements, Option.all_some, Option.map_some,
      Option.toList_some, List.flatMap_cons, List.flatMap_nil, List.append_nil, List.all_append,
      List.all_cons, Bool.and_assoc]
    rw [Bool.and_comm (x := flag.holdsOf entry.1)]

theorem list_flag {flag : Flag} (hflag : flag.OfChildren) {d : ListDefinition}
    {heads : Items StoredTerm} {rest : Option (StoredTerm × Items StoredTerm)} (t : Term) :
    flag.holdsOf ⟨t, (synthesizeAttributes (.list d heads rest)).1⟩ =
      (TermKind.list d heads rest).layer.allHold flag := by
  rw [Layer.allHold, TermKind.layer, Layer.children, ← listItemsHold_eq]
  cases rest with
  | none =>
    refine (addItemsVars_flag hflag t _ heads).trans ?_
    rw [(itemsShape_flag hflag t _ ∅).2, Option.all_none, Bool.and_true]
  | some entry =>
    refine (addItemsVars_flag hflag t _ entry.2).trans ?_
    rw [addChild_flag hflag, addItemsVars_flag hflag, (itemsShape_flag hflag t _ ∅).2,
      Option.all_some]

theorem constructorLike_structural (hnormal : kind.term.Normal) :
    (structuralAttributes kind).constructorLike = kind.layer.constructorLike := by
  have hflag : Flag.constructorLike.OfShape := .inl rfl
  show (synthesizeAttributes kind).1.constructorLike = _
  cases kind with
  | and left right => exact (Bool.and_false _).symm
  | application symbol sortArguments arguments =>
    refine congrArg (· && symbol.free) ?_
    exact (foldl_addChild_constructorLike arguments _).trans (Bool.true_and _)
  | domainValue sort value => rfl
  | var v => rfl
  | injection source target term =>
    simp [synthesizeAttributes, TermKind.layer, Layer.constructorLike, Layer.allHold,
      Layer.children, Layer.distinctKeys, Layer.keys, Flag.holdsOf]
  | map d entries rest => exact map_flag hflag (TermKind.map d entries rest).term hnormal
  | list d heads rest =>
    refine (list_flag (d := d) (.inl hflag) (TermKind.list d heads rest).term).trans ?_
    exact (Bool.and_true _).symm
  | set d elements rest => exact set_flag hflag (TermKind.set d elements rest).term hnormal

theorem concrete_structural (hnormal : kind.term.Normal) :
    (structuralAttributes kind).concreteAfterNormalization =
      kind.layer.concreteAfterNormalization := by
  have hflag : Flag.concreteAfterNormalization.OfShape := .inr rfl
  show (synthesizeAttributes kind).1.concreteAfterNormalization = _
  cases kind with
  | and left right => exact (Bool.and_false _).symm
  | application symbol sortArguments arguments =>
    refine congrArg (· && symbol.concreteHead) ?_
    exact (foldl_addChild_concrete arguments _).trans (Bool.true_and _)
  | domainValue sort value => rfl
  | var v => rfl
  | injection source target term =>
    simp [synthesizeAttributes, TermKind.layer, Layer.concreteAfterNormalization, Layer.allHold,
      Layer.children, Layer.distinctKeys, Layer.keys, Flag.holdsOf]
  | map d entries rest => exact map_flag hflag (TermKind.map d entries rest).term hnormal
  | list d heads rest =>
    refine (list_flag (d := d) (.inl hflag) (TermKind.list d heads rest).term).trans ?_
    exact (Bool.and_true _).symm
  | set d elements rest => exact set_flag hflag (TermKind.set d elements rest).term hnormal

theorem canBeEvaluated_structural :
    (structuralAttributes kind).canBeEvaluated = kind.layer.canBeEvaluated := by
  have hflag : Flag.canBeEvaluated.OfChildren := .inr rfl
  have hexclude : ∀ c a, (excludeCollision c a).canBeEvaluated = a.canBeEvaluated := by
    intro c a
    cases c <;> rfl
  show (synthesizeAttributes kind).1.canBeEvaluated = _
  cases kind with
  | and left right =>
    refine (foldl_addChild_canBeEvaluated [left, right] _).trans ?_
    exact Bool.and_comm _ _
  | application symbol sortArguments arguments =>
    refine congrArg (· && symbol.attributes.hasEvaluators) ?_
    exact (foldl_addChild_canBeEvaluated arguments _).trans (Bool.true_and _)
  | domainValue sort value => rfl
  | var v => rfl
  | injection source target term =>
    simp [synthesizeAttributes, TermKind.layer, Layer.canBeEvaluated, Layer.allHold,
      Layer.children, Flag.holdsOf]
  | map d entries rest =>
    simp only [synthesizeAttributes, hexclude, Layer.canBeEvaluated, Layer.allHold,
      TermKind.layer, Layer.children, List.all_append, Bool.and_true]
    refine (elim_addChild_flag hflag (TermKind.map d entries rest).term _ rest).trans ?_
    rw [(itemsShape_flag hflag _ _ _).1, Items.holds_eq, terms_entries]
  | list d heads rest =>
    refine (list_flag (d := d) hflag (TermKind.list d heads rest).term).trans ?_
    exact (Bool.and_true _).symm
  | set d elements rest =>
    simp only [synthesizeAttributes, hexclude, Layer.canBeEvaluated, Layer.allHold,
      TermKind.layer, Layer.children, List.all_append, Bool.and_true]
    refine (elim_addChild_flag hflag (TermKind.set d elements rest).term _ rest).trans ?_
    rw [addItemsVars_flag hflag, (itemsShape_flag hflag _ _ ∅).2, Items.holds_eq, terms_elements]

theorem ceilFree_structural (hsound : ∀ child ∈ kind.layer.children, child.Sound)
    (hnormal : kind.term.Normal) : (structuralAttributes kind).ceilFree = kind.layer.ceilFree := by
  have hkeys : ∀ k ∈ kind.layer.keys, k.Sound := fun k hk => hsound k (kind.layer.keys_subset k hk)
  show ceilFreeOf kind = _
  cases kind with
  | and left right =>
    simp [ceilFreeOf, TermKind.layer, Layer.ceilFree, Layer.allHold, Layer.children, Flag.holdsOf,
      Bool.and_assoc]
  | application symbol sortArguments arguments => exact Bool.and_comm _ _
  | domainValue sort value => rfl
  | var v => rfl
  | injection source target term =>
    simp [ceilFreeOf, TermKind.layer, Layer.ceilFree, Layer.allHold, Layer.children, Flag.holdsOf]
  | map d entries rest =>
    have hheader : entries.summary.extra.keysShareOneHeader =
        (TermKind.map d entries rest).layer.oneHeader := keysShareOneHeader_eq entries rfl hkeys
    rw [ceilFreeOf, collision_map hnormal, hheader, Items.holds_eq, terms_entries]
    cases rest with
    | none => simp [TermKind.layer, Layer.ceilFree, Layer.allHold, Layer.children, Bool.and_assoc]
    | some rest => simp [TermKind.layer, Layer.ceilFree]
  | list d heads rest =>
    refine (listItemsHold_eq heads rest .ceilFree).trans ?_
    exact (Bool.and_true _).symm
  | set d elements rest =>
    have hheader : elements.summary.extra.keysShareOneHeader =
        (TermKind.set d elements rest).layer.oneHeader :=
      keysShareOneHeader_eq elements (List.map_id _).symm hkeys
    rw [ceilFreeOf, collision_set hnormal, hheader, Items.holds_eq, terms_elements]
    cases rest with
    | none => simp [TermKind.layer, Layer.ceilFree, Layer.allHold, Layer.children, Bool.and_assoc]
    | some rest => simp [TermKind.layer, Layer.ceilFree]

theorem structural_agrees (hsound : ∀ child ∈ kind.layer.children, child.Sound)
    (hnormal : kind.term.Normal) : (structuralAttributes kind).Agrees kind.layer.attributes where
  vars := vars_structural
  constructorLike := constructorLike_structural hnormal
  concreteAfterNormalization := concrete_structural hnormal
  canBeEvaluated := canBeEvaluated_structural
  ceilFree := ceilFree_structural hsound hnormal
  hasMacroOrAlias := hasMacroOrAlias_structural
  kCells := kCells_structural
  mayBeRigid := mayBeRigid_structural
  firstConjunct := firstConjunct_structural

end Structural

section Recursion

theorem Layer.term_layer (layer : Layer Term) : layer.term.layer = layer := by
  cases layer <;> rfl

theorem TermKind.term_attributes (kind : TermKind) :
    kind.term.attributes = (kind.layer.change fun child => child.term.stored).attributes := by
  rw [Term.attributes_eq, TermKind.term, Layer.term_layer, Layer.change_change]
  rfl

section Sound

variable {children : List StoredTerm} (hsound : ∀ child ∈ children, child.Sound)
include hsound

theorem unite_stored : unite (children.map fun child => child.term.stored) = unite children := by
  ext v
  simp only [Items.mem_unite, List.mem_map, exists_exists_and_eq_and]
  constructor
  · rintro ⟨child, hchild, hv⟩
    exact ⟨child, hchild, (hsound child hchild).vars ▸ hv⟩
  · rintro ⟨child, hchild, hv⟩
    exact ⟨child, hchild, by rwa [(hsound child hchild).vars] at hv⟩

theorem all_stored {p : StoredTerm → Bool}
    (hp : ∀ child : StoredTerm, child.Sound → p child.term.stored = p child) :
    (children.map fun child => child.term.stored).all p = children.all p := by
  rw [List.all_map, Bool.eq_iff_iff, List.all_eq_true, List.all_eq_true]
  exact forall₂_congr fun child hchild => by
    rw [Function.comp_apply, hp child (hsound child hchild)]

theorem any_stored {p : StoredTerm → Bool}
    (hp : ∀ child : StoredTerm, child.Sound → p child.term.stored = p child) :
    (children.map fun child => child.term.stored).any p = children.any p := by
  rw [List.any_map, Bool.eq_iff_iff, List.any_eq_true, List.any_eq_true]
  exact exists_congr fun child => and_congr_right fun hchild => by
    rw [Function.comp_apply, hp child (hsound child hchild)]

theorem kCells_stored :
    ((children.map fun child => child.term.stored).map fun t => t.attributes.kCells) =
      children.map fun t => t.attributes.kCells := by
  rw [List.map_map]
  exact List.map_congr_left fun child hchild => (hsound child hchild).kCells.symm

end Sound

theorem firstConjunct_stored {t : StoredTerm} (hsound : t.Sound) :
    t.term.stored.firstConjunct = t.firstConjunct := by
  rw [StoredTerm.firstConjunct, StoredTerm.firstConjunct, hsound.firstConjunct]
  rfl

/-- The attributes of a node over sound parts are those of the node over the parts' recursive
definitions. -/
theorem Layer.attributes_stored {layer : Layer StoredTerm}
    (hsound : ∀ child ∈ layer.children, child.Sound) :
    layer.attributes.Agrees (layer.change fun child => child.term.stored).attributes := by
  have hchildren := Layer.children_change (fun child : StoredTerm => child.term.stored) layer
  have hkeys : (layer.change fun child => child.term.stored).keys.map StoredTerm.term =
      layer.keys.map StoredTerm.term := by
    rw [Layer.keys_change, List.map_map]
    rfl
  have hdistinct : (layer.change fun child => child.term.stored).distinctKeys =
      layer.distinctKeys := by rw [Layer.distinctKeys, hkeys, Layer.distinctKeys]
  have hheader : (layer.change fun child => child.term.stored).oneHeader = layer.oneHeader := by
    rw [Layer.oneHeader, Layer.oneHeader, hkeys]
  have hlike : (layer.change fun child => child.term.stored).allHold .constructorLike =
      layer.allHold .constructorLike := by
    rw [Layer.allHold, hchildren]
    exact all_stored hsound fun child h => h.constructorLike.symm
  have hconcrete :
      (layer.change fun child => child.term.stored).allHold .concreteAfterNormalization =
        layer.allHold .concreteAfterNormalization := by
    rw [Layer.allHold, hchildren]
    exact all_stored hsound fun child h => h.concreteAfterNormalization.symm
  have hevaluated : (layer.change fun child => child.term.stored).allHold .canBeEvaluated =
      layer.allHold .canBeEvaluated := by
    rw [Layer.allHold, hchildren]
    exact all_stored hsound fun child h => h.canBeEvaluated.symm
  have hfree : (layer.change fun child => child.term.stored).allHold .ceilFree =
      layer.allHold .ceilFree := by
    rw [Layer.allHold, hchildren]
    exact all_stored hsound fun child h => h.ceilFree.symm
  have hresidual := any_stored hsound (p := fun t => t.attributes.hasMacroOrAlias)
    fun child h => h.hasMacroOrAlias.symm
  have hrigid := all_stored hsound (p := fun t => t.attributes.mayBeRigid)
    fun child h => h.mayBeRigid.symm
  have hcells := kCells_stored hsound
  have hvars := unite_stored hsound
  rw [← hchildren] at hresidual hrigid hcells hvars
  constructor
  · cases layer <;> first | rfl | exact hvars.symm
  · simp only [Layer.attributes, Layer.constructorLike]
    rw [hlike]
    cases layer <;> first | rfl | exact congrArg (_ && ·) hdistinct.symm
  · simp only [Layer.attributes, Layer.concreteAfterNormalization]
    rw [hconcrete]
    cases layer <;> first | rfl | exact congrArg (_ && ·) hdistinct.symm
  · simp only [Layer.attributes, Layer.canBeEvaluated]
    rw [hevaluated]
    cases layer <;> rfl
  · simp only [Layer.attributes, Layer.ceilFree]
    rw [hfree]
    cases layer with
    | and left right =>
      have hleft := firstConjunct_stored (hsound left List.mem_cons_self)
      have hright := firstConjunct_stored (hsound right (List.mem_cons_of_mem _ List.mem_cons_self))
      simp only [Layer.change, hleft, hright]
    | map d entries rest =>
      cases rest with
      | none => exact congrArg₂ (fun a b => _ && (true && a && b)) hheader.symm hdistinct.symm
      | some rest => rfl
    | set d elements rest =>
      cases rest with
      | none => exact congrArg₂ (fun a b => _ && (true && a && b)) hheader.symm hdistinct.symm
      | some rest => rfl
    | _ => rfl
  · simp only [Layer.attributes, Layer.hasMacroOrAlias]
    rw [hresidual]
    cases layer <;> rfl
  · cases layer <;> first | rfl | exact congrArg (fun l : List Nat => min l.sum 2) hcells.symm | skip
    rename_i symbol _ arguments
    exact congrArg (fun l : List Nat => if symbol.isKCell then 1 else min l.sum 2) hcells.symm
  · simp only [Layer.attributes, Layer.mayBeRigid]
    rw [hrigid]
    cases layer <;> rfl
  · cases layer with
    | and left right =>
      exact congrArg some (firstConjunct_stored (hsound left List.mem_cons_self)).symm
    | _ => rfl

theorem TermKind.normal_children {kind : TermKind} (h : kind.term.Normal) :
    ∀ child ∈ kind.layer.children, child.term.Normal := by
  intro child hchild
  apply KRust.Backend.normal_children h
  rw [Layer.children_change]
  exact List.mem_map_of_mem hchild

theorem structural_sound {kind : TermKind} (hsound : ∀ child ∈ kind.layer.children, child.Sound)
    (hnormal : kind.term.Normal) :
    (structuralAttributes kind).Agrees kind.term.attributes := by
  rw [TermKind.term_attributes]
  exact (structural_agrees hsound hnormal).trans (Layer.attributes_stored hsound)

/-- A mark changes none of the attributes. -/
theorem marked_agrees {kind : TermKind} {source : TermAttributes}
    (hsource : source.Agrees (structuralAttributes kind)) (value : Bool) :
    (markedAttributes source kind value).Agrees (structuralAttributes kind) := by
  cases kind with
  | application symbol sortArguments arguments =>
    exact ⟨hsource.vars, hsource.constructorLike, hsource.concreteAfterNormalization,
      hsource.canBeEvaluated, hsource.ceilFree, hsource.hasMacroOrAlias, hsource.kCells, hsource.mayBeRigid,
      hsource.firstConjunct⟩
  | _ => exact ⟨rfl, rfl, rfl, rfl, rfl, rfl, rfl, rfl, rfl⟩

theorem TermAttributes.Agrees.symm {one two : TermAttributes} (h : one.Agrees two) :
    two.Agrees one :=
  ⟨h.vars.symm, h.constructorLike.symm, h.concreteAfterNormalization.symm, h.canBeEvaluated.symm, h.ceilFree.symm,
    h.hasMacroOrAlias.symm, h.kCells.symm, h.mayBeRigid.symm, h.firstConjunct.symm⟩

/-- Every node that is allocated stores what the recursive definitions give. -/
theorem Allocated.sound {s : StoredTerm} (h : Allocated s) (hnormal : s.term.Normal) :
    s.Sound := by
  induction h with
  | structural _ ih =>
    exact structural_sound (fun child hchild =>
      ih child hchild (TermKind.normal_children hnormal child hchild)) hnormal
  | marked value _ _ ih ihsource =>
    have hstructural := structural_sound (fun child hchild =>
      ih child hchild (TermKind.normal_children hnormal child hchild)) hnormal
    have hsource := (ihsource hnormal).trans hstructural.symm
    exact (marked_agrees hsource value).trans hstructural

end Recursion

end Agreement

section Subterms

/-- The terms within a term. -/
inductive Within (t : Term) : Term → Prop where
  | self : Within t t
  | part {u part : Term} : Within t u → part ∈ u.layer.children → Within t part

/-- The items of a map or a set are in order, and what stands for the rest or the middle of a
collection is no collection of the same definition. -/
def InOrder : Term → Prop
  | .map d entries rest =>
    entries.Pairwise (CollectionOrder.entryLe · ·) ∧
      ∀ nested nestedRest, rest ≠ some (.map d nested nestedRest)
  | .set d elements rest =>
    elements.Pairwise (CollectionOrder.elementLe · ·) ∧
      ∀ nested nestedRest, rest ≠ some (.set d nested nestedRest)
  | .list d _ rest => ∀ nested nestedRest tails, rest ≠ some (.list d nested nestedRest, tails)
  | _ => True

theorem Within.normal {t u : Term} (h : Within t u) (hnormal : t.Normal) : u.Normal := by
  induction h with
  | self => exact hnormal
  | @part u part _ hpart ih =>
    have hlayer : u.layer.term.Normal := by rwa [Term.layer_term]
    exact normal_children hlayer part hpart

theorem map_not_foreign (d : MapDefinition) (entries : List (Term × Term)) (rest : Option Term) :
    ¬ (Term.mapCollection d).Foreign (.map d entries rest) := by
  intro h
  have hparts : (entries, rest) = ([], some (.map d entries rest)) :=
    ((Term.mapCollection d).parts_node entries rest).symm.trans h
  have hsize := congrArg (fun p => sizeOf p.2) hparts
  simp only [Option.some.sizeOf_spec, Term.map.sizeOf_spec] at hsize
  omega

theorem set_not_foreign (d : SetDefinition) (elements : List Term) (rest : Option Term) :
    ¬ (Term.setCollection d).Foreign (.set d elements rest) := by
  intro h
  have hparts : (elements, rest) = ([], some (.set d elements rest)) :=
    ((Term.setCollection d).parts_node elements rest).symm.trans h
  have hsize := congrArg (fun p => sizeOf p.2) hparts
  simp only [Option.some.sizeOf_spec, Term.set.sizeOf_spec] at hsize
  omega

theorem list_not_foreign (d : ListDefinition) (heads : List Term)
    (rest : Option (Term × List Term)) :
    ¬ (Term.listSequence d).Foreign (.list d heads rest) := by
  intro h
  have hparts : (heads, rest) = ([], some (.list d heads rest, [])) :=
    ((Term.listSequence d).parts_node heads rest).symm.trans h
  have hsize := congrArg (fun p => sizeOf p.2) hparts
  simp only [Option.some.sizeOf_spec, Prod.mk.sizeOf_spec, Term.list.sizeOf_spec] at hsize
  omega

theorem inOrder_of_normal {t : Term} (h : t.Normal) : InOrder t := by
  cases h with
  | map _ _ _ hsorted hforeign _ =>
    refine ⟨hsorted, ?_⟩
    rintro nested nestedRest rfl
    exact map_not_foreign _ _ _ (hforeign _ rfl)
  | set _ _ hsorted hforeign _ =>
    refine ⟨hsorted, ?_⟩
    rintro nested nestedRest rfl
    exact set_not_foreign _ _ _ (hforeign _ rfl)
  | list _ _ _ hforeign _ =>
    rintro nested nestedRest tails rfl
    exact list_not_foreign _ _ _ (hforeign _ rfl)
  | _ => trivial

theorem constructorLike_parts {t : Term} (h : t.attributes.constructorLike = true) :
    (∀ part ∈ t.layer.children, part.attributes.constructorLike = true) ∧
      t.layer.keys.Nodup := by
  rw [Term.attributes_eq] at h
  obtain ⟨hall, hroot⟩ := Bool.and_eq_true_iff.mp h
  constructor
  · intro part hpart
    rw [Layer.allHold, Layer.children_change, List.all_map, List.all_eq_true] at hall
    exact hall part hpart
  · have hkeys : (t.layer.change Term.stored).keys.map StoredTerm.term = t.layer.keys := by
      rw [Layer.keys_change, List.map_map]
      exact List.map_id _
    have hdistinct : (t.layer.change Term.stored).distinctKeys = true → t.layer.keys.Nodup := by
      rw [Layer.distinctKeys, hkeys]
      exact of_decide_eq_true
    cases t with
    | map d entries rest => exact hdistinct hroot
    | set d elements rest => exact hdistinct hroot
    | _ => exact List.nodup_nil

/-- No key of a map and no element of a set within a constructor-like term is repeated. -/
theorem Within.distinct {t u : Term} (h : Within t u)
    (hlike : t.attributes.constructorLike = true) :
    u.attributes.constructorLike = true ∧ u.layer.keys.Nodup := by
  induction h with
  | self => exact ⟨hlike, (constructorLike_parts hlike).2⟩
  | part _ hpart ih =>
    have hpart := (constructorLike_parts ih.1).1 _ hpart
    exact ⟨hpart, (constructorLike_parts hpart).2⟩

end Subterms

section Kept

/-- A map keeps the entries given and those of its rest, with repetition. -/
theorem mapParts_mkMap (d : MapDefinition) (entries : List (Term × Term)) {rest : Option Term}
    (hrest : ∀ r ∈ rest, r.Normal) :
    (Term.mapParts d (Term.mkMap d entries rest)).1.Perm
      (((Term.mapCollection d).restParts rest).1 ++ entries) := by
  have hparts : (Term.mapCollection d).parts ((Term.mapCollection d).build
      CollectionOrder.entryLe (entries.mergeSort CollectionOrder.entryLe) rest) = _ :=
    Collection.parts_build fun r hr => (hrest r hr).flatMap d
  rw [Term.mkMap, Term.mapOfItems_eq]
  refine (List.Perm.of_eq (congrArg Prod.fst hparts)).trans ?_
  exact (List.merge_perm_append ..).trans ((List.mergeSort_perm ..).append_left _)

theorem setParts_mkSet (d : SetDefinition) (elements : List Term) {rest : Option Term}
    (hrest : ∀ r ∈ rest, r.Normal) :
    (Term.setParts d (Term.mkSet d elements rest)).1.Perm
      (((Term.setCollection d).restParts rest).1 ++ elements) := by
  have hparts : (Term.setCollection d).parts ((Term.setCollection d).build
      CollectionOrder.elementLe (elements.mergeSort CollectionOrder.elementLe) rest) = _ :=
    Collection.parts_build fun r hr => (hrest r hr).flatSet d
  rw [Term.mkSet, Term.setOfItems_eq]
  refine (List.Perm.of_eq (congrArg Prod.fst hparts)).trans ?_
  exact (List.merge_perm_append ..).trans ((List.mergeSort_perm ..).append_left _)

/-- The items of a concatenation are those of both sides. -/
theorem parts_combine {ι : Type} {c : Collection Term ι} {le : ι → ι → Bool}
    {join : Term → Term → Term} (hjoin : ∀ a b, c.Foreign (join a b)) {left right : Term}
    (hleft : c.Flat le left) (hright : c.Flat le right) :
    (c.parts (c.combine le join left right)).1.Perm ((c.parts left).1 ++ (c.parts right).1) := by
  have hrests := Collection.joinRests_foreign hjoin hleft.rest hright.rest
  rw [Collection.combine, Collection.build_of_foreign hrests, Collection.parts_ofParts hrests]
  exact List.merge_perm_append ..

theorem mapParts_combineMaps (d : MapDefinition) (symbol : TermSymbol)
    (sortArguments : List KoreSort) {left right : Term} (hleft : left.Normal)
    (hright : right.Normal) :
    (Term.mapParts d (Term.combineMaps d symbol sortArguments left right)).1.Perm
      ((Term.mapParts d left).1 ++ (Term.mapParts d right).1) := by
  have hforeign : ∀ a b,
      (Term.mapCollection d).Foreign (Term.concatenation symbol sortArguments a b) :=
    fun a b => rfl
  rw [Term.combineMaps_eq]
  exact parts_combine hforeign (hleft.flatMap d) (hright.flatMap d)

theorem setParts_combineSets (d : SetDefinition) (symbol : TermSymbol)
    (sortArguments : List KoreSort) {left right : Term} (hleft : left.Normal)
    (hright : right.Normal) :
    (Term.setParts d (Term.combineSets d symbol sortArguments left right)).1.Perm
      ((Term.setParts d left).1 ++ (Term.setParts d right).1) := by
  have hforeign : ∀ a b,
      (Term.setCollection d).Foreign (Term.concatenation symbol sortArguments a b) :=
    fun a b => rfl
  rw [Term.combineSets_eq]
  exact parts_combine hforeign (hleft.flatSet d) (hright.flatSet d)

end Kept

/-- What a term built by the constructors stores, whatever marks were set: the attributes of the
recursive definitions. Its maps and sets are in order and its collections flat, and no key or
element is repeated within a constructor-like term. Repeated keys and elements are kept, and
a substitution builds what the constructors build. -/
theorem stored_attributes_recursive [TermHash] :
    (∀ s : StoredTerm, Allocated s → s.term.Built →
      s.attributes.Agrees s.term.attributes ∧
        (∀ u, Within s.term u → InOrder u) ∧
        (s.attributes.constructorLike = true → ∀ u, Within s.term u → u.layer.keys.Nodup)) ∧
      (∀ d entries rest, (∀ r ∈ rest, Term.Built r) →
        (Term.mapParts d (Term.mkMap d entries rest)).1.Perm
          (((Term.mapCollection d).restParts rest).1 ++ entries)) ∧
      (∀ d elements rest, (∀ r ∈ rest, Term.Built r) →
        (Term.setParts d (Term.mkSet d elements rest)).1.Perm
          (((Term.setCollection d).restParts rest).1 ++ elements)) ∧
      (∀ d e symbol sortArguments left right, Term.Built left → Term.Built right →
        (Term.mapParts d (Term.combineMaps d symbol sortArguments left right)).1.Perm
            ((Term.mapParts d left).1 ++ (Term.mapParts d right).1) ∧
          (Term.setParts e (Term.combineSets e symbol sortArguments left right)).1.Perm
            ((Term.setParts e left).1 ++ (Term.setParts e right).1)) ∧
      ∀ bind t, (∀ v, ∀ u ∈ bind v, Term.Built u) → Term.Built t →
        Term.Built (Term.substitute bind t) := by
  refine ⟨fun s hallocated hbuilt => ?_, fun d entries rest hrest => ?_,
    fun d elements rest hrest => ?_, fun d e symbol sortArguments left right hl hr => ?_,
    fun bind t hbind ht => ?_⟩
  · have hsound := hallocated.sound hbuilt.normal
    refine ⟨hsound, fun u hu => inOrder_of_normal (hu.normal hbuilt.normal), fun hlike u hu => ?_⟩
    exact (hu.distinct (hsound.constructorLike.symm.trans hlike)).2
  · exact mapParts_mkMap d entries fun r hr => (hrest r hr).normal
  · exact setParts_mkSet d elements fun r hr => (hrest r hr).normal
  · exact ⟨mapParts_combineMaps d symbol sortArguments hl.normal hr.normal,
      setParts_combineSets e symbol sortArguments hl.normal hr.normal⟩
  · rw [Term.substitute_eq_rebuild ht.normal]
    exact Term.built_rebuild hbind t

/-- A symbol with an equation of its own. -/
def anywhereSymbol : TermSymbol where
  name := "Lblwrap"
  sortVariables := []
  argumentSorts := []
  resultSort := .application "SortK" []
  attributes := { SymbolAttributes.ofConstructor with anywhere := true }

/-- A mark that the simplifier sets leaves the other attributes as they are. -/
theorem stored_attributes_recursive_marked :
    ∃ s : StoredTerm, s.attributes.evaluated = true ∧
      s.term.attributes.evaluated = false ∧ s.attributes.Agrees s.term.attributes := by
  let hash : TermHash := ⟨fun _ => 0, fun _ _ => 0⟩
  let kind := @TermKind.application hash anywhereSymbol [] []
  have hnone : ∀ child ∈ kind.layer.children, Allocated child := by
    intro child hchild
    cases hchild
  have hallocated : Allocated ⟨kind.term, markedAttributes (structuralAttributes kind) kind true⟩ :=
    .marked true hnone (.structural hnone)
  have harguments : ∀ a ∈ ([] : List Term), Term.Built a := by simp
  have hbuilt : Term.Built kind.term := Term.Built.application anywhereSymbol [] harguments
  exact ⟨_, rfl, rfl, (stored_attributes_recursive.1 _ hallocated hbuilt).1⟩

end KRust.Backend
