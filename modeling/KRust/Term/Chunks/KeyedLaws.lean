import KRust.Term.Chunks.Keyed

/-!
What a batch of keyed edits does. `keyedEdit` is the edit of a plain list; it splits
where both the list and the batch are cut at one key, which is how a node's edit is
put together from those of its children.
-/

set_option linter.unusedSectionVars false

namespace KRust.Term.Chunks

open KRust.Lib KRust.Lib.Partial

variable {I K S G : Type} {B : Branching}

section Lists

variable [Item I K S G] [LinearOrder K] {both : I → I → Option (List I)}
  {only : I → Option (List I)}

/-- Ordered by key with one item per key. -/
def KeyOrdered (xs : List I) : Prop := xs.Pairwise fun x y => Item.key x < Item.key y

/-- All keys of `xs` lie below all of `ys`. -/
def KeysBelow (xs ys : List I) : Prop := ∀ x ∈ xs, ∀ y ∈ ys, Item.key x < Item.key y

/-- The edit of a list by a batch: `both` replaces an item by what it and the batch's
item of its key come to, `only` gives what an item of a new key comes to. -/
def keyedEdit (both : I → I → Option (List I)) (only : I → Option (List I)) :
    List I → List I → Option (List I)
  | xs, [] => some xs
  | [], y :: ys => do
    let new ← only y
    return new ++ (← keyedEdit both only [] ys)
  | x :: xs, y :: ys =>
    if Item.key x < Item.key y then do return x :: (← keyedEdit both only xs (y :: ys))
    else if Item.key x = Item.key y then do
      let new ← both x y
      return new ++ (← keyedEdit both only xs ys)
    else do
      let new ← only y
      return new ++ (← keyedEdit both only (x :: xs) ys)
termination_by xs ys => xs.length + ys.length

theorem keyOrdered_append {xs ys : List I} :
    KeyOrdered (xs ++ ys) ↔ KeyOrdered xs ∧ KeyOrdered ys ∧ KeysBelow xs ys :=
  List.pairwise_append

theorem keyedEdit_nil_right (xs : List I) : keyedEdit both only xs [] = some xs := by
  cases xs <;> rw [keyedEdit]

/-- An edit cut at one key on both sides. -/
theorem keyedEdit_append (both : I → I → Option (List I)) (only : I → Option (List I))
    (xs ys xs' ys' : List I) (hitems : KeysBelow xs ys')
    (hbatch : KeysBelow ys xs') :
    keyedEdit both only (xs ++ xs') (ys ++ ys') = (do
      let first ← keyedEdit both only xs ys
      let second ← keyedEdit both only xs' ys'
      return first ++ second) := by
  induction xs, ys using keyedEdit.induct with
  | case1 xs =>
    -- The batch has nothing here: these items come first.
    rw [keyedEdit_nil_right, List.nil_append]
    simp only [Option.bind_eq_bind, Option.bind_some]
    induction xs with
    | nil => cases h : keyedEdit both only xs' ys' <;> simp [h]
    | cons x xs ih =>
      have hrest := ih fun a ha => hitems a (by simp [ha])
      cases ys' with
      | nil => simp [keyedEdit_nil_right]
      | cons y ys' =>
        have hlt := hitems x (by simp) y (by simp)
        rw [List.cons_append, keyedEdit, if_pos hlt, hrest]
        cases keyedEdit both only xs' (y :: ys') <;> simp
  | case2 y ys ih =>
    have hrest := ih (by simp [KeysBelow]) fun a ha => hbatch a (by simp [ha])
    rw [keyedEdit, List.nil_append, List.cons_append]
    rw [List.nil_append] at hrest
    have hstep : keyedEdit both only xs' (y :: (ys ++ ys')) = (do
        let new ← only y
        return new ++ (← keyedEdit both only xs' (ys ++ ys'))) := by
      cases xs' with
      | nil => rw [keyedEdit]
      | cons x xs' =>
        have hlt := hbatch y (by simp) x (by simp)
        rw [keyedEdit, if_neg hlt.not_gt, if_neg hlt.ne']
    rw [hstep, hrest]
    cases only y with
    | none => rfl
    | some new =>
      cases keyedEdit both only [] ys <;> cases keyedEdit both only xs' ys' <;> simp
  | case3 x xs y ys hlt ih =>
    have hrest := ih (fun a ha => hitems a (by simp [ha])) hbatch
    rw [List.cons_append, List.cons_append, keyedEdit, if_pos hlt, keyedEdit, if_pos hlt,
      ← List.cons_append, hrest]
    cases keyedEdit both only xs (y :: ys) <;> cases keyedEdit both only xs' ys' <;> simp
  | case4 x xs y ys hlt heq ih =>
    have hrest := ih (fun a ha => hitems a (by simp [ha])) fun a ha => hbatch a (by simp [ha])
    rw [List.cons_append, List.cons_append, keyedEdit, if_neg hlt, if_pos heq, keyedEdit,
      if_neg hlt, if_pos heq, hrest]
    cases both x y with
    | none => rfl
    | some new =>
      cases keyedEdit both only xs ys <;> cases keyedEdit both only xs' ys' <;> simp
  | case5 x xs y ys hlt hne ih =>
    have hrest := ih hitems fun a ha => hbatch a (by simp [ha])
    rw [List.cons_append] at hrest
    rw [List.cons_append, List.cons_append, keyedEdit, if_neg hlt, if_neg hne, keyedEdit,
      if_neg hlt, if_neg hne, hrest]
    cases only y with
    | none => rfl
    | some new =>
      cases keyedEdit both only (x :: xs) ys <;> cases keyedEdit both only xs' ys' <;> simp

/-- An edit keeps a list ordered when each item becomes at most one, of its key. -/
theorem keyedEdit_ordered
    (hboth : ∀ x y zs, Item.key x = Item.key y → both x y = some zs →
      zs.length ≤ 1 ∧ ∀ z ∈ zs, Item.key z = Item.key x)
    (honly : ∀ y zs, only y = some zs → zs.length ≤ 1 ∧ ∀ z ∈ zs, Item.key z = Item.key y)
    {xs ys ws : List I} (hxs : KeyOrdered xs) (hys : KeyOrdered ys)
    (hws : keyedEdit both only xs ys = some ws) :
    KeyOrdered ws ∧ ∀ w ∈ ws, (∃ x ∈ xs, Item.key x = Item.key w) ∨
      ∃ y ∈ ys, Item.key y = Item.key w := by
  -- A new item or two of one key put before items of greater keys.
  have hput : ∀ (zs rest : List I) (key : K), zs.length ≤ 1 → (∀ z ∈ zs, Item.key z = key) →
      (∀ w ∈ rest, key < Item.key w) → KeyOrdered rest → KeyOrdered (zs ++ rest) := by
    intro zs rest key hone hkey hbelow hrest
    refine keyOrdered_append.mpr ⟨?_, hrest, fun z hz w hw => hkey z hz ▸ hbelow w hw⟩
    match zs, hone with
    | [], _ => exact List.Pairwise.nil
    | [z], _ => exact List.pairwise_singleton _ _
  induction xs, ys using keyedEdit.induct generalizing ws with
  | case1 xs =>
    rw [keyedEdit_nil_right] at hws
    obtain rfl := Option.some.inj hws
    exact ⟨hxs, fun w hw => Or.inl ⟨w, hw, rfl⟩⟩
  | case2 y ys ih =>
    rw [keyedEdit] at hws
    obtain ⟨zs, hzs, hws⟩ := Option.bind_eq_some_iff.mp hws
    obtain ⟨rest, hrest, hret⟩ := Option.bind_eq_some_iff.mp hws
    obtain rfl := Option.some.inj hret
    obtain ⟨hone, hkey⟩ := honly y zs hzs
    obtain ⟨hordered, hfrom⟩ := ih hxs hys.of_cons hrest
    have hbelow : ∀ w ∈ rest, Item.key y < Item.key w := by
      intro w hw
      rcases hfrom w hw with ⟨x, hx, _⟩ | ⟨y', hy', heq⟩
      · cases hx
      · exact heq ▸ List.rel_of_pairwise_cons hys hy'
    refine ⟨hput zs rest _ hone hkey hbelow hordered, fun w hw => Or.inr ?_⟩
    rcases List.mem_append.mp hw with hw | hw
    · exact ⟨y, by simp, (hkey w hw).symm⟩
    · rcases hfrom w hw with ⟨x, hx, _⟩ | ⟨y', hy', heq⟩
      · cases hx
      · exact ⟨y', by simp [hy'], heq⟩
  | case3 x xs y ys hlt ih =>
    rw [keyedEdit, if_pos hlt] at hws
    obtain ⟨rest, hrest, hret⟩ := Option.bind_eq_some_iff.mp hws
    obtain rfl := Option.some.inj hret
    obtain ⟨hordered, hfrom⟩ := ih hxs.of_cons hys hrest
    have hbelow : ∀ w ∈ rest, Item.key x < Item.key w := by
      intro w hw
      rcases hfrom w hw with ⟨x', hx', heq⟩ | ⟨y', hy', heq⟩
      · exact heq ▸ List.rel_of_pairwise_cons hxs hx'
      · rcases List.mem_cons.mp hy' with rfl | hy'
        · exact heq ▸ hlt
        · exact heq ▸ hlt.trans (List.rel_of_pairwise_cons hys hy')
    refine ⟨List.pairwise_cons.mpr ⟨hbelow, hordered⟩, fun w hw => ?_⟩
    rcases List.mem_cons.mp hw with rfl | hw
    · exact Or.inl ⟨w, by simp, rfl⟩
    · rcases hfrom w hw with ⟨x', hx', heq⟩ | hy
      · exact Or.inl ⟨x', by simp [hx'], heq⟩
      · exact Or.inr hy
  | case4 x xs y ys hlt heq ih =>
    rw [keyedEdit, if_neg hlt, if_pos heq] at hws
    obtain ⟨zs, hzs, hws⟩ := Option.bind_eq_some_iff.mp hws
    obtain ⟨rest, hrest, hret⟩ := Option.bind_eq_some_iff.mp hws
    obtain rfl := Option.some.inj hret
    obtain ⟨hone, hkey⟩ := hboth x y zs heq hzs
    obtain ⟨hordered, hfrom⟩ := ih hxs.of_cons hys.of_cons hrest
    have hbelow : ∀ w ∈ rest, Item.key x < Item.key w := by
      intro w hw
      rcases hfrom w hw with ⟨x', hx', hkeys⟩ | ⟨y', hy', hkeys⟩
      · exact hkeys ▸ List.rel_of_pairwise_cons hxs hx'
      · rw [heq, ← hkeys]
        exact List.rel_of_pairwise_cons hys hy'
    refine ⟨hput zs rest _ hone hkey hbelow hordered, fun w hw => ?_⟩
    rcases List.mem_append.mp hw with hw | hw
    · exact Or.inl ⟨x, by simp, (hkey w hw).symm⟩
    · rcases hfrom w hw with ⟨x', hx', hkeys⟩ | ⟨y', hy', hkeys⟩
      · exact Or.inl ⟨x', by simp [hx'], hkeys⟩
      · exact Or.inr ⟨y', by simp [hy'], hkeys⟩
  | case5 x xs y ys hlt hne ih =>
    rw [keyedEdit, if_neg hlt, if_neg hne] at hws
    obtain ⟨zs, hzs, hws⟩ := Option.bind_eq_some_iff.mp hws
    obtain ⟨rest, hrest, hret⟩ := Option.bind_eq_some_iff.mp hws
    obtain rfl := Option.some.inj hret
    obtain ⟨hone, hkey⟩ := honly y zs hzs
    obtain ⟨hordered, hfrom⟩ := ih hxs hys.of_cons hrest
    have hyx : Item.key y < Item.key x := lt_of_le_of_ne (not_lt.mp hlt) (Ne.symm hne)
    have hbelow : ∀ w ∈ rest, Item.key y < Item.key w := by
      intro w hw
      rcases hfrom w hw with ⟨x', hx', hkeys⟩ | ⟨y', hy', hkeys⟩
      · rcases List.mem_cons.mp hx' with rfl | hx'
        · exact hkeys ▸ hyx
        · exact hkeys ▸ hyx.trans (List.rel_of_pairwise_cons hxs hx')
      · exact hkeys ▸ List.rel_of_pairwise_cons hys hy'
    refine ⟨hput zs rest _ hone hkey hbelow hordered, fun w hw => ?_⟩
    rcases List.mem_append.mp hw with hw | hw
    · exact Or.inr ⟨y, by simp, (hkey w hw).symm⟩
    · rcases hfrom w hw with hx | ⟨y', hy', hkeys⟩
      · exact Or.inl hx
      · exact Or.inr ⟨y', by simp [hy'], hkeys⟩

/-- An edit keeps what holds of the list's items and of all it puts in. -/
theorem keyedEdit_forall {p : I → Prop}
    (hboth : ∀ x y zs, p x → both x y = some zs → ∀ z ∈ zs, p z)
    (honly : ∀ y zs, only y = some zs → ∀ z ∈ zs, p z) {xs ys ws : List I} (hxs : ∀ x ∈ xs, p x)
    (hws : keyedEdit both only xs ys = some ws) : ∀ w ∈ ws, p w := by
  induction xs, ys using keyedEdit.induct generalizing ws with
  | case1 xs =>
    rw [keyedEdit_nil_right] at hws
    obtain rfl := Option.some.inj hws
    exact hxs
  | case2 y ys ih =>
    rw [keyedEdit] at hws
    obtain ⟨zs, hzs, hws⟩ := Option.bind_eq_some_iff.mp hws
    obtain ⟨rest, hrest, hret⟩ := Option.bind_eq_some_iff.mp hws
    obtain rfl := Option.some.inj hret
    exact List.forall_mem_append.mpr ⟨honly y zs hzs, ih hxs hrest⟩
  | case3 x xs y ys hlt ih =>
    rw [keyedEdit, if_pos hlt] at hws
    obtain ⟨rest, hrest, hret⟩ := Option.bind_eq_some_iff.mp hws
    obtain rfl := Option.some.inj hret
    obtain ⟨hx, hxs⟩ := List.forall_mem_cons.mp hxs
    exact List.forall_mem_cons.mpr ⟨hx, ih hxs hrest⟩
  | case4 x xs y ys hlt heq ih =>
    rw [keyedEdit, if_neg hlt, if_pos heq] at hws
    obtain ⟨zs, hzs, hws⟩ := Option.bind_eq_some_iff.mp hws
    obtain ⟨rest, hrest, hret⟩ := Option.bind_eq_some_iff.mp hws
    obtain rfl := Option.some.inj hret
    obtain ⟨hx, hxs⟩ := List.forall_mem_cons.mp hxs
    exact List.forall_mem_append.mpr ⟨hboth x y zs hx hzs, ih hxs hrest⟩
  | case5 x xs y ys hlt hne ih =>
    rw [keyedEdit, if_neg hlt, if_neg hne] at hws
    obtain ⟨zs, hzs, hws⟩ := Option.bind_eq_some_iff.mp hws
    obtain ⟨rest, hrest, hret⟩ := Option.bind_eq_some_iff.mp hws
    obtain rfl := Option.some.inj hret
    exact List.forall_mem_append.mpr ⟨honly y zs hzs, ih hxs hrest⟩

theorem keysBelow_nil_left (xs : List I) : KeysBelow [] xs := by simp [KeysBelow]

theorem keysBelow_nil_right (xs : List I) : KeysBelow xs [] := by simp [KeysBelow]

/-- Items below every key of the batch come first, unchanged. -/
theorem keyedEdit_append_left (xs xs' ys : List I) (hitems : KeysBelow xs ys) :
    keyedEdit both only (xs ++ xs') ys = (do return xs ++ (← keyedEdit both only xs' ys)) := by
  have h := keyedEdit_append both only xs [] xs' ys hitems (by simp [KeysBelow])
  rw [keyedEdit_nil_right] at h
  exact h

/-- The leaf's items below a key, and those from it on. -/
theorem exists_partition (xs : List I) (hxs : KeyOrdered xs) (y : I) :
    ∃ low high, xs = low ++ high ∧
      partitionSlice (fun item => decide (Item.key item < Item.key y)) xs = low.length ∧
      (∀ x ∈ low, Item.key x < Item.key y) ∧ ∀ x ∈ high, Item.key y ≤ Item.key x := by
  refine ⟨xs.takeWhile fun item => decide (Item.key item < Item.key y),
    xs.dropWhile fun item => decide (Item.key item < Item.key y),
    List.takeWhile_append_dropWhile.symm, rfl,
    fun x hx => by simpa using List.mem_takeWhile_imp hx, ?_⟩
  have hhead := List.head?_dropWhile_not (fun item => decide (Item.key item < Item.key y)) xs
  have hsuffix : KeyOrdered (xs.dropWhile fun item => decide (Item.key item < Item.key y)) :=
    hxs.sublist (List.dropWhile_sublist _)
  intro x hx
  cases hdrop : xs.dropWhile (fun item => decide (Item.key item < Item.key y)) with
  | nil => simp [hdrop] at hx
  | cons z zs =>
    rw [hdrop] at hx hhead hsuffix
    have hz : Item.key y ≤ Item.key z := by
      have : ¬ Item.key z < Item.key y := by simpa using hhead
      exact not_lt.mp this
    rcases List.mem_cons.mp hx with rfl | hx
    · exact hz
    · exact hz.trans (List.rel_of_pairwise_cons hsuffix hx).le

/-- The loop over a leaf's items so far: it keeps `keep`, has replaced `removed` by
`added`, and has `rest` left. -/
structure Editing (items : List I) (edit : LeafEdit I) : Prop where
  kept : ∃ keep removed added, items = keep ++ removed ++ edit.rest ∧
    edit.written = keep ++ added ∧ edit.keptFirst = some keep.length

theorem editLeafItem_eq (both : I → I → Option (List I)) (only : I → Option (List I))
    {items : List I} {edit : LeafEdit I} (new : I) (more : List I)
    (hrest : KeyOrdered edit.rest) (hbatch : KeyOrdered (new :: more))
    (hediting : edit.keptFirst = none ∧ edit.written = [] ∧ items = edit.rest ∨ Editing items edit) :
    (do return edit.written ++ (← keyedEdit both only edit.rest (new :: more))) = (do
      let edit ← editLeafItem both only edit new
      return edit.written ++ (← keyedEdit both only edit.rest more)) ∧
    ∀ edit', editLeafItem both only edit new = some edit' →
      KeyOrdered edit'.rest ∧ Editing items edit' := by
  obtain ⟨low, high, hsplit, hpart, hlow, hhigh⟩ := exists_partition edit.rest hrest new
  have hmore : ∀ y ∈ more, Item.key new < Item.key y := fun y hy =>
    List.rel_of_pairwise_cons hbatch hy
  have htake : edit.rest.take low.length = low := by rw [hsplit, List.take_left]
  have hdrop : edit.rest.drop low.length = high := by rw [hsplit, List.drop_left]
  have hlowBatch : KeysBelow low (new :: more) := by
    intro x hx y hy
    rcases List.mem_cons.mp hy with rfl | hy
    · exact hlow x hx
    · exact (hlow x hx).trans (hmore y hy)
  have hhighOrdered : KeyOrdered high := by
    rw [hsplit] at hrest
    exact (keyOrdered_append.mp hrest).2.1
  -- What is kept once more items of the leaf are passed and one is edited.
  have hkeeps : ∀ (passed written' : List I) (rest' : List I), high = passed ++ rest' →
      Editing items { written := edit.written ++ low ++ written', rest := rest'
                      keptFirst := some (edit.keptFirst.getD (edit.written ++ low).length) } := by
    intro passed written' rest' hhighEq
    rcases hediting with ⟨hnone, hwritten, hitems⟩ | ⟨keep, removed, added, hitems, hwritten, hfirst⟩
    · exact ⟨low, passed, written', by rw [hitems, hsplit, hhighEq]; simp, by simp [hwritten],
        by simp [hnone, hwritten]⟩
    · exact ⟨keep, removed ++ low ++ passed, added ++ low ++ written',
        by rw [hitems, hsplit, hhighEq]; simp, by simp [hwritten], by simp [hfirst]⟩
  rw [hsplit, keyedEdit_append_left low high (new :: more) hlowBatch]
  unfold editLeafItem
  simp only [hpart, htake, hdrop]
  cases high with
  | nil =>
    rw [keyedEdit]
    constructor
    · cases honly : only new with
      | none => simp
      | some only' => cases hkeyed : keyedEdit both only [] more <;> simp [hkeyed]
    · intro edit' hedit
      cases honly : only new with
      | none => simp [honly] at hedit
      | some only' =>
        simp only [honly, Option.bind_eq_bind, Option.bind_some, Option.pure_def,
          Option.some.injEq] at hedit
        subst hedit
        exact ⟨by simp [KeyOrdered], hkeeps [] only' [] rfl⟩
  | cons held after =>
    have hheld : ¬ Item.key held < Item.key new := not_lt.mpr (hhigh held (by simp))
    rw [keyedEdit, if_neg hheld]
    by_cases heq : Item.key held = Item.key new
    · simp only [if_pos heq]
      constructor
      · cases hboth : both held new with
        | none => simp
        | some both' => cases hkeyed : keyedEdit both only after more <;> simp [hkeyed]
      · intro edit' hedit
        cases hboth : both held new with
        | none => simp [hboth] at hedit
        | some both' =>
          simp only [hboth, Option.bind_eq_bind, Option.bind_some, Option.pure_def,
            Option.some.injEq] at hedit
          subst hedit
          exact ⟨hhighOrdered.of_cons, hkeeps [held] both' after rfl⟩
    · simp only [if_neg heq]
      constructor
      · cases honly : only new with
        | none => simp
        | some only' => cases hkeyed : keyedEdit both only (held :: after) more <;> simp [hkeyed]
      · intro edit' hedit
        cases honly : only new with
        | none => simp [honly] at hedit
        | some only' =>
          simp only [honly, Option.bind_eq_bind, Option.bind_some, Option.pure_def,
            Option.some.injEq] at hedit
          subst hedit
          exact ⟨hhighOrdered, hkeeps [] only' _ rfl⟩

/-- A leaf's loop writes the edited list, keeping its first and last items as it says. -/
theorem editLeaf_eq (both : I → I → Option (List I)) (only : I → Option (List I))
    (items batch : List I) (hitems : KeyOrdered items) (hbatch : KeyOrdered batch) :
    (do return (← editLeaf both only items batch).1) = keyedEdit both only items batch ∧
    ∀ result, editLeaf both only items batch = some result → batch ≠ [] →
      ∃ keep removed added tail, items = keep ++ removed ++ tail ∧
        result = (keep ++ added ++ tail, keep.length, tail.length) := by
  have hloop : ∀ (batch : List I) (edit : LeafEdit I), KeyOrdered batch → KeyOrdered edit.rest →
      (edit.keptFirst = none ∧ edit.written = [] ∧ items = edit.rest ∨ Editing items edit) →
      (do return edit.written ++ (← keyedEdit both only edit.rest batch)) = (do
        let edit ← batch.foldlM (editLeafItem both only) edit
        return edit.written ++ edit.rest) ∧
      ∀ edit', batch.foldlM (editLeafItem both only) edit = some edit' →
        batch ≠ [] ∨ Editing items edit → Editing items edit' := by
    intro batch
    induction batch with
    | nil =>
      intro edit _ _ _
      refine ⟨by simp [keyedEdit_nil_right], ?_⟩
      intro edit' hedit hor
      simp only [List.foldlM_nil, Option.pure_def, Option.some.injEq] at hedit
      subst hedit
      exact hor.resolve_left (by simp)
    | cons new more ih =>
      intro edit hbatch hrest hediting
      obtain ⟨heq, hkeep⟩ := editLeafItem_eq both only new more hrest hbatch hediting
      rw [heq, List.foldlM_cons]
      cases hstep : editLeafItem both only edit new with
      | none => exact ⟨rfl, by simp⟩
      | some edit' =>
        obtain ⟨hrest', hediting'⟩ := hkeep edit' hstep
        obtain ⟨hmore, hdone⟩ := ih edit' hbatch.of_cons hrest' (Or.inr hediting')
        simp only [Option.bind_eq_bind, Option.bind_some] at hmore ⊢
        refine ⟨hmore, ?_⟩
        intro final hfinal _
        exact hdone final hfinal (Or.inr hediting')
  obtain ⟨heq, hkeep⟩ := hloop batch { written := [], rest := items, keptFirst := none } hbatch
    hitems (Or.inl ⟨rfl, rfl, rfl⟩)
  constructor
  · simp only [List.nil_append] at heq
    refine Eq.trans ?_ (heq.symm.trans (bind_pure _))
    unfold editLeaf
    cases batch.foldlM (editLeafItem both only)
      { written := [], rest := items, keptFirst := none } <;> rfl
  · intro result hresult hne
    unfold editLeaf at hresult
    obtain ⟨edit, hedit, hret⟩ := Option.bind_eq_some_iff.mp hresult
    obtain rfl := Option.some.inj hret
    obtain ⟨keep, removed, added, hsplit, hwritten, hfirst⟩ := (hkeep edit hedit (Or.inl hne)).kept
    exact ⟨keep, removed, added, edit.rest, hsplit, by rw [hwritten, hfirst]; rfl⟩

end Lists

section Batches

variable {M A : Type} [Item I K S G] [LinearOrder K] [Summary S] [Group G]
  [AddMonoid M] [AddCancelCommMonoid A] [LawfulSummary S M] [LawfulGroup G A] {h : Nat}

/-- A batch cut by children: the parts, each with its child's slot counted from
`start`. A part's keys and its child's items lie below what comes after either. -/
inductive Batched : Nat → List (Node I S G) → List I → List (Nat × List I) → Prop
  | done (start : Nat) (children : List (Node I S G)) : Batched start children [] []
  | part (start : Nat) (before : List (Node I S G)) (child : Node I S G)
      (later : List (Node I S G)) (part batch : List I) (parts : List (Nat × List I))
      (nonempty : part ≠ [])
      (skipped : KeysBelow (before.flatMap Node.items) (part ++ batch))
      (items : KeysBelow child.items batch) (keys : KeysBelow part (later.flatMap Node.items))
      (rest : Batched (start + before.length + 1) later batch parts) :
      Batched start (before ++ child :: later) (part ++ batch)
        ((start + before.length, part) :: parts)

/-- The first keys of children. -/
theorem mapM_firstKey (children : List (Node I S G)) (hchildren : ∀ c ∈ children, c.Full B h) :
    ∃ firsts, children.mapM firstKey = some firsts ∧
      List.Forall₂ (fun child first => ∃ x xs, child.items = x :: xs ∧ first = Item.key x)
        children firsts := by
  have hmap : Yields True (children.mapM firstKey)
      (List.Forall₂ (fun child first => ∃ x xs, child.items = x :: xs ∧ first = Item.key x)
        children) := by
    refine yields_mapM _ fun child hchild => ?_
    have hfull := hchildren child hchild
    obtain ⟨x, xs, hx⟩ := List.exists_cons_of_ne_nil hfull.items_ne_nil
    rw [firstKey, hfull.shaped.summarizes.first, hx]
    exact ⟨x, xs, rfl, rfl⟩
  exact hmap.total trivial

/-- The children whose first key is not above `key`, when the first keys ascend. -/
theorem exists_slot {children : List (Node I S G)} {firsts : List K} (key : K)
    (hfirsts : List.Forall₂ (fun child first => ∃ x xs, child.items = x :: xs ∧ first = Item.key x)
      children firsts) :
    ∃ low later, children = low ++ later ∧
      partitionSlice (fun first => decide (first ≤ key)) firsts = low.length ∧
      (∀ c ∈ low, ∃ x xs, c.items = x :: xs ∧ Item.key x ≤ key) ∧
      ∀ c, later.head? = some c → ∃ x xs, c.items = x :: xs ∧ key < Item.key x := by
  induction hfirsts with
  | nil => exact ⟨[], [], rfl, rfl, by simp, by simp⟩
  | @cons child first children firsts hfirst _ ih =>
    obtain ⟨x, xs, hx, rfl⟩ := hfirst
    by_cases hle : Item.key x ≤ key
    · obtain ⟨low, later, rfl, hlen, hlow, hlater⟩ := ih
      refine ⟨child :: low, later, rfl, ?_, ?_, hlater⟩
      · rw [partitionSlice] at hlen ⊢
        rw [List.takeWhile_cons_of_pos (by simpa using hle), List.length_cons, hlen,
          List.length_cons]
      · rintro c hc
        rcases List.mem_cons.mp hc with rfl | hc
        · exact ⟨x, xs, hx, hle⟩
        · exact hlow c hc
    · refine ⟨[], child :: children, rfl, ?_, by simp, ?_⟩
      · rw [partitionSlice, List.takeWhile_cons_of_neg (by simpa using hle)]
        rfl
      · rintro c hc
        obtain rfl := Option.some.inj hc
        exact ⟨x, xs, hx, not_le.mp hle⟩

theorem batchParts_eq (pre children : List (Node I S G)) (batch : List I)
    (hchildren : ∀ c ∈ children, c.Full B h) (hsorted : KeyOrdered (children.flatMap Node.items))
    (hbatch : KeyOrdered batch) (hne : batch ≠ [] → children ≠ []) :
    ∃ parts, batchParts (pre ++ children) pre.length batch = some parts ∧
      Batched pre.length children batch parts := by
  induction hn : children.length using Nat.strong_induction_on generalizing pre children batch with
  | _ n ih =>
    subst hn
    cases batch with
    | nil => exact ⟨[], by rw [batchParts], .done _ _⟩
    | cons item more =>
      obtain ⟨first, rest, rfl⟩ := List.exists_cons_of_ne_nil (hne (by simp))
      obtain ⟨firsts, hmap, hfirsts⟩ := mapM_firstKey rest fun c hc => hchildren c (by simp [hc])
      obtain ⟨low, later, rfl, hslot, hlow, hlater⟩ := exists_slot (Item.key item) hfirsts
      obtain ⟨before, child, hchild⟩ : ∃ before child, first :: low = before ++ [child] := by
        rcases List.eq_nil_or_concat (first :: low) with hnil | ⟨before, child, hconcat⟩
        · cases hnil
        · exact ⟨before, child, by simpa using hconcat⟩
      have hwhole : first :: (low ++ later) = before ++ child :: later := by
        rw [← List.cons_append, hchild]
        simp
      have hlen : low.length = before.length := by
        have := congrArg List.length hchild
        simpa using this
      have hfull : ∀ c ∈ before ++ child :: later, c.Full B h := hwhole ▸ hchildren
      rw [hwhole] at hsorted ⊢
      rw [List.flatMap_append, List.flatMap_cons] at hsorted
      obtain ⟨_, hchildLater, hcross⟩ := keyOrdered_append.mp hsorted
      obtain ⟨_, hlaterSorted, hchildBelow⟩ := keyOrdered_append.mp hchildLater
      have hitem : ∀ y ∈ item :: more, Item.key item ≤ Item.key y := by
        rintro y hy
        rcases List.mem_cons.mp hy with rfl | hy
        · exact le_rfl
        · exact (List.rel_of_pairwise_cons hbatch hy).le
      -- The children skipped lie below the first key of the child found.
      have hskipped : KeysBelow (before.flatMap Node.items) (item :: more) := by
        rintro x hx y hy
        obtain ⟨c, hc, _⟩ := List.mem_flatMap.mp hx
        cases hbefore : before with
        | nil => simp [hbefore] at hc
        | cons b bs =>
          have hmem : child ∈ low := by
            rw [hbefore, List.cons_append, List.cons.injEq] at hchild
            rw [hchild.2]
            simp
          obtain ⟨z, zs, hz, hle⟩ := hlow child hmem
          have hlt := hcross x hx z (by simp [hz])
          exact lt_of_lt_of_le hlt (hle.trans (hitem y hy))
      have hdrop : (pre ++ (before ++ child :: later)).drop (pre.length + 1) = low ++ later := by
        rw [← hwhole]
        simp
      have hstart : pre.length + 1 ≤ (pre ++ (before ++ child :: later)).length := by
        simp only [List.length_append, List.length_cons]
        omega
      have hget : (pre ++ (before ++ child :: later))[pre.length + before.length + 1]? =
          later.head? := by
        have hlist : pre ++ (before ++ child :: later) = (pre ++ before ++ [child]) ++ later := by
          simp
        have hindex : pre.length + before.length + 1 = (pre ++ before ++ [child]).length := by
          simp [Nat.add_assoc]
        rw [hlist, hindex, List.getElem?_append_right le_rfl, Nat.sub_self, List.head?_eq_getElem?]
      rw [batchParts, dif_pos hstart]
      simp only [hdrop, hmap, hslot, hlen, hget, Option.bind_eq_bind, Option.bind_some]
      cases later with
      | nil =>
        simp only [List.head?_nil, Option.bind_some, List.take_length, List.drop_length]
        rw [batchParts]
        refine ⟨_, rfl, ?_⟩
        have hpart := Batched.part (S := S) (G := G) pre.length before child [] (item :: more) [] []
          (by simp) (by simpa using hskipped) (keysBelow_nil_right _) (keysBelow_nil_right _)
          (.done _ _)
        simpa using hpart
      | cons next after =>
        obtain ⟨x, xs, hx, hlt⟩ := hlater next rfl
        have hnext : firstKey next = some (Item.key x) := by
          rw [firstKey, (hfull next (by simp)).shaped.summarizes.first, hx]
          rfl
        obtain ⟨part, rest, hsplit, hstop, hpartBelow, hrestAbove⟩ :=
          exists_partition (item :: more) hbatch x
        have htake : (item :: more).take part.length = part := by rw [hsplit, List.take_left]
        have hdropBatch : (item :: more).drop part.length = rest := by
          rw [hsplit, List.drop_left]
        simp only [List.head?_cons, hnext, Option.bind_some, Option.pure_def, hstop, htake,
          hdropBatch]
        have hlaterBound : ∀ y ∈ (next :: after).flatMap Node.items, Item.key x ≤ Item.key y := by
          rintro y hy
          rw [List.flatMap_cons, hx, List.cons_append] at hlaterSorted hy
          rcases List.mem_cons.mp hy with rfl | hy
          · exact le_rfl
          · exact (List.rel_of_pairwise_cons hlaterSorted hy).le
        have hbound : x ∈ (next :: after).flatMap Node.items := by simp [hx]
        have hrestOrdered : KeyOrdered rest := by
          rw [hsplit] at hbatch
          exact (keyOrdered_append.mp hbatch).2.1
        obtain ⟨parts, hparts, hbatched⟩ := ih (next :: after).length (by
            have := congrArg List.length hwhole
            simp only [List.length_append, List.length_cons] at this ⊢
            omega) (pre ++ before ++ [child]) (next :: after) rest
          (fun c hc => hfull c (by
            rcases List.mem_cons.mp hc with rfl | hc
            · simp
            · simp [hc])) hlaterSorted hrestOrdered (by simp) rfl
        have hpre : (pre ++ before ++ [child]).length = pre.length + before.length + 1 := by
          simp [Nat.add_assoc]
        have hlist : pre ++ before ++ [child] ++ next :: after =
            pre ++ (before ++ child :: next :: after) := by simp
        rw [hpre, hlist] at hparts
        rw [hpre] at hbatched
        rw [hparts]
        refine ⟨_, rfl, ?_⟩
        rw [hsplit]
        refine .part pre.length before child (next :: after) part rest parts ?_ ?_ ?_ ?_ hbatched
        · rintro rfl
          have hmem : item ∈ rest := by
            rw [List.nil_append] at hsplit
            simp [← hsplit]
          exact absurd hlt (not_lt.mpr (hrestAbove item hmem))
        · rw [← hsplit]
          exact hskipped
        · rintro a ha y hy
          exact lt_of_lt_of_le (hchildBelow a ha x hbound) (hrestAbove y hy)
        · rintro y hy a ha
          exact lt_of_lt_of_le (hpartBelow y hy) (hlaterBound a ha)

variable {both : I → I → Option (List I)} {only : I → Option (List I)}

/-- The edit of a list fits: it does not stop and its result's counts do not either. -/
def EditFits (both : I → I → Option (List I)) (only : I → Option (List I)) (xs ys : List I) :
    Prop :=
  ∃ edited, keyedEdit both only xs ys = some edited ∧ Fits edited

variable {before later : List (Node I S G)} {child : Node I S G} {part batch : List I}

/-- The edit of children's items, put together from that of one child and those of
the children after it. -/
theorem keyedEdit_children (both : I → I → Option (List I)) (only : I → Option (List I))
    (hskipped : KeysBelow (before.flatMap Node.items) (part ++ batch))
    (hitems : KeysBelow child.items batch) (hkeys : KeysBelow part (later.flatMap Node.items)) :
    keyedEdit both only ((before ++ child :: later).flatMap Node.items) (part ++ batch) = (do
      let first ← keyedEdit both only child.items part
      let second ← keyedEdit both only (later.flatMap Node.items) batch
      return before.flatMap Node.items ++ (first ++ second)) := by
  rw [List.flatMap_append, List.flatMap_cons, keyedEdit_append_left _ _ _ hskipped,
    keyedEdit_append both only _ _ _ _ hitems hkeys]
  cases keyedEdit both only child.items part with
  | none => rfl
  | some first => cases keyedEdit both only (later.flatMap Node.items) batch <;> rfl

theorem EditFits.children (both : I → I → Option (List I)) (only : I → Option (List I))
    (hskipped : KeysBelow (before.flatMap Node.items) (part ++ batch))
    (hitems : KeysBelow child.items batch) (hkeys : KeysBelow part (later.flatMap Node.items))
    (hfits : EditFits both only ((before ++ child :: later).flatMap Node.items) (part ++ batch)) :
    EditFits both only child.items part ∧ EditFits both only (later.flatMap Node.items) batch := by
  obtain ⟨edited, hedited, hfitsEdited⟩ := hfits
  rw [keyedEdit_children both only hskipped hitems hkeys] at hedited
  obtain ⟨first, hfirst, hrest⟩ := Option.bind_eq_some_iff.mp hedited
  obtain ⟨second, hsecond, hret⟩ := Option.bind_eq_some_iff.mp hrest
  obtain rfl := Option.some.inj hret
  exact ⟨⟨first, hfirst, hfitsEdited.right.left⟩, ⟨second, hsecond, hfitsEdited.right.right⟩⟩

/-- With one value, a group summary is that of any items. -/
theorem value_of_subsingleton [Subsingleton G] (group : G) (items : List I) :
    LawfulSummary.value group = (groupValue items : A) := by
  have hzero : ∀ group : G, LawfulSummary.value group = (0 : A) := by
    intro group
    rw [Subsingleton.elim group Summary.identity]
    exact LawfulSummary.value_identity
  have hitems : (groupValue items : A) = 0 := List.sum_eq_zero (by simp [hzero])
  rw [hzero, hitems]

end Batches

end KRust.Term.Chunks
