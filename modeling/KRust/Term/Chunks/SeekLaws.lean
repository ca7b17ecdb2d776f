import KRust.Term.Chunks.Seek

/-!
What an item-wise rebuild does. `marks` runs the closure over the items as over a
plain list, giving each item with what replaces it; the tree's rebuild denotes the
list those marks give, and records their positions.
-/

set_option linter.unusedSectionVars false

namespace KRust.Term.Chunks

open KRust.Lib KRust.Lib.Partial

section Marks

variable {I S G σ : Type}

/-- The items in order, each with its replacement, and the closure's last state. -/
def marks (seek : Seek I S G) (change : σ → I → Option I × σ) :
    Nat → σ → List I → List (I × Option I) × σ
  | _, state, [] => ([], state)
  | position, state, item :: rest =>
    let (new, state) := if seek.wants position item then change state item else (none, state)
    let (more, state) := marks seek change (position + 1) state rest
    ((item, new) :: more, state)

def oldItems (ms : List (I × Option I)) : List I := ms.map Prod.fst

def newItems (ms : List (I × Option I)) : List I := ms.map fun m => m.2.getD m.1

/-- The items that are replaced. -/
def removedItems (ms : List (I × Option I)) : List I :=
  ms.filterMap fun m => m.2.map fun _ => m.1

/-- Their replacements. -/
def addedItems (ms : List (I × Option I)) : List I := ms.filterMap Prod.snd

/-- The positions of the replaced items, the first mark being at `position`. -/
def changedFrom (position : Nat) : List (I × Option I) → List Nat
  | [] => []
  | (_, none) :: rest => changedFrom (position + 1) rest
  | (_, some _) :: rest => position :: changedFrom (position + 1) rest

/-- No item is replaced. -/
def Unchanged (ms : List (I × Option I)) : Prop := ∀ m ∈ ms, m.2 = none

variable {seek : Seek I S G} {change : σ → I → Option I × σ}

theorem marks_append (seek : Seek I S G) (change : σ → I → Option I × σ) (position : Nat) (state : σ) (xs ys : List I) :
    marks seek change position state (xs ++ ys) =
      ((marks seek change position state xs).1 ++
        (marks seek change (position + xs.length) (marks seek change position state xs).2 ys).1,
       (marks seek change (position + xs.length) (marks seek change position state xs).2 ys).2) := by
  induction xs generalizing position state with
  | nil => rfl
  | cons x xs ih =>
    simp only [List.cons_append, marks, ih, List.length_cons, Nat.add_assoc, Nat.add_comm 1]

theorem oldItems_marks (seek : Seek I S G) (change : σ → I → Option I × σ) (position : Nat) (state : σ) (xs : List I) :
    oldItems (marks seek change position state xs).1 = xs := by
  induction xs generalizing position state with
  | nil => rfl
  | cons x xs ih =>
    simp only [marks, oldItems, List.map_cons]
    rw [← oldItems, ih]

/-- Where the seek wants nothing the closure is not run. -/
theorem marks_of_unwanted (seek : Seek I S G) (change : σ → I → Option I × σ) (position : Nat) (state : σ) (xs : List I)
    (h : ∀ offset x, xs[offset]? = some x → seek.wants (position + offset) x = false) :
    Unchanged (marks seek change position state xs).1 ∧
      (marks seek change position state xs).2 = state := by
  induction xs generalizing position with
  | nil => exact ⟨by simp [marks, Unchanged], rfl⟩
  | cons x xs ih =>
    have hx := h 0 x rfl
    have hrest := ih (position + 1) fun offset y hy => by
      have := h (offset + 1) y (by simpa using hy)
      rwa [Nat.add_right_comm, Nat.add_assoc]
    rw [Nat.add_zero] at hx
    simp only [marks, hx, Bool.false_eq_true, if_false]
    refine ⟨?_, hrest.2⟩
    intro m hm
    rcases List.mem_cons.mp hm with rfl | hm
    · rfl
    · exact hrest.1 m hm

@[simp] theorem length_newItems (ms : List (I × Option I)) : (newItems ms).length = ms.length := by
  simp [newItems]

@[simp] theorem length_oldItems (ms : List (I × Option I)) : (oldItems ms).length = ms.length := by
  simp [oldItems]

@[simp] theorem newItems_append (xs ys : List (I × Option I)) :
    newItems (xs ++ ys) = newItems xs ++ newItems ys := by simp [newItems]

@[simp] theorem oldItems_append (xs ys : List (I × Option I)) :
    oldItems (xs ++ ys) = oldItems xs ++ oldItems ys := by simp [oldItems]

@[simp] theorem removedItems_append (xs ys : List (I × Option I)) :
    removedItems (xs ++ ys) = removedItems xs ++ removedItems ys := by simp [removedItems]

@[simp] theorem addedItems_append (xs ys : List (I × Option I)) :
    addedItems (xs ++ ys) = addedItems xs ++ addedItems ys := by simp [addedItems]

theorem changedFrom_append (position : Nat) (xs ys : List (I × Option I)) :
    changedFrom position (xs ++ ys) =
      changedFrom position xs ++ changedFrom (position + xs.length) ys := by
  induction xs generalizing position with
  | nil => rfl
  | cons m xs ih =>
    obtain ⟨x, new⟩ := m
    cases new <;> simp [changedFrom, ih, Nat.add_assoc, Nat.add_comm 1]

namespace Unchanged

variable {ms : List (I × Option I)}

theorem newItems_eq (h : Unchanged ms) : newItems ms = oldItems ms :=
  List.map_congr_left fun m hm => by rw [h m hm]; rfl

theorem removedItems_eq (h : Unchanged ms) : removedItems ms = [] :=
  List.filterMap_eq_nil_iff.mpr fun m hm => by rw [h m hm]; rfl

theorem addedItems_eq (h : Unchanged ms) : addedItems ms = [] :=
  List.filterMap_eq_nil_iff.mpr fun m hm => h m hm

theorem changedFrom_eq (h : Unchanged ms) (position : Nat) : changedFrom position ms = [] := by
  induction ms generalizing position with
  | nil => rfl
  | cons m ms ih =>
    obtain ⟨x, new⟩ := m
    obtain rfl : new = none := h (x, new) (by simp)
    exact ih (fun m hm => h m (by simp [hm])) _

end Unchanged

theorem unchanged_append {xs ys : List (I × Option I)} :
    Unchanged (xs ++ ys) ↔ Unchanged xs ∧ Unchanged ys := by
  constructor
  · intro h
    exact ⟨fun m hm => h m (by simp [hm]), fun m hm => h m (by simp [hm])⟩
  · rintro ⟨hx, hy⟩ m hm
    rcases List.mem_append.mp hm with hm | hm
    · exact hx m hm
    · exact hy m hm

theorem unchanged_snoc_none (ms : List (I × Option I)) (x : I) :
    Unchanged (ms ++ [(x, none)]) ↔ Unchanged ms := by
  rw [unchanged_append]
  simp [Unchanged]

instance (ms : List (I × Option I)) : Decidable (Unchanged ms) :=
  decidable_of_iff (∀ m ∈ ms, m.2.isNone) (by simp [Unchanged])

theorem unchanged_cons (m : I × Option I) (ms : List (I × Option I)) :
    Unchanged (m :: ms) ↔ m.2 = none ∧ Unchanged ms := List.forall_mem_cons

theorem exists_first_change {ms : List (I × Option I)} (h : ¬ Unchanged ms) :
    ∃ pre x y rest, ms = pre ++ (x, some y) :: rest ∧ Unchanged pre := by
  induction ms with
  | nil => exact absurd (by simp [Unchanged]) h
  | cons m ms ih =>
    obtain ⟨x, new⟩ := m
    cases new with
    | some y => exact ⟨[], x, y, ms, rfl, by simp [Unchanged]⟩
    | none =>
      have hcons : ∀ ms' : List (I × Option I), Unchanged ms' → Unchanged ((x, none) :: ms') :=
        fun ms' hms' => (unchanged_cons (x, none) ms').mpr ⟨rfl, hms'⟩
      obtain ⟨pre, x', y, rest, rfl, hpre⟩ := ih fun hrest => h (hcons ms hrest)
      exact ⟨(x, none) :: pre, x', y, rest, rfl, hcons pre hpre⟩

theorem exists_last_change {ms : List (I × Option I)} (h : ¬ Unchanged ms) :
    ∃ init x y post, ms = init ++ (x, some y) :: post ∧ Unchanged post := by
  induction ms using List.reverseRecOn with
  | nil => exact absurd (by simp [Unchanged]) h
  | append_singleton ms m ih =>
    obtain ⟨x, new⟩ := m
    cases new with
    | some y => exact ⟨ms, x, y, [], rfl, by simp [Unchanged]⟩
    | none =>
      have hsnoc : ∀ ms' : List (I × Option I), Unchanged ms' → Unchanged (ms' ++ [(x, none)]) :=
        fun ms' hms' => unchanged_append.mpr ⟨hms', by simp [Unchanged]⟩
      obtain ⟨init, x', y, post, rfl, hpost⟩ := ih fun hms => h (hsnoc ms hms)
      exact ⟨init, x', y, post ++ [(x, none)], by simp, hsnoc post hpost⟩

/-- Marks with a change: those from the first change to the last, and the unchanged
ones around. -/
theorem exists_changed_run {ms : List (I × Option I)} (h : ¬ Unchanged ms) :
    ∃ pre mid post, ms = pre ++ mid ++ post ∧ Unchanged pre ∧ Unchanged post ∧
      ∀ position, (changedFrom position mid).head? = some position ∧
        (changedFrom position mid).getLast? = some (position + mid.length - 1) := by
  obtain ⟨pre, x, y, rest, rfl, hpre⟩ := exists_first_change h
  have hrest : ¬ Unchanged ((x, some y) :: rest) := fun hall => by
    have := hall (x, some y) (by simp)
    cases this
  obtain ⟨init, x', y', post, heq, hpost⟩ := exists_last_change hrest
  refine ⟨pre, init ++ [(x', some y')], post, by rw [heq]; simp, hpre, hpost, fun position => ?_⟩
  constructor
  · obtain ⟨mid, hmid⟩ : ∃ mid, init ++ [(x', some y')] = (x, some y) :: mid := by
      cases init with
      | nil => exact ⟨[], by simpa using (List.cons.inj heq).1.symm⟩
      | cons m init => exact ⟨init ++ [(x', some y')], by
          rw [List.cons_append, List.cons.injEq] at heq
          rw [heq.1, List.cons_append]⟩
    rw [hmid]
    rfl
  · rw [changedFrom_append]
    simp [changedFrom]

end Marks

section Values

variable {I K S G M A : Type} [Item I K S G] [LinearOrder K] [Summary S] [Group G]
  [AddMonoid M] [AddCancelCommMonoid A] [LawfulSummary S M] [LawfulGroup G A]

/-- The group summary loses the replaced items' and gains their replacements'. -/
theorem groupValue_marks (ms : List (I × Option I)) :
    (groupValue (oldItems ms) + groupValue (addedItems ms) : A) =
      groupValue (removedItems ms) + groupValue (newItems ms) := by
  induction ms with
  | nil => simp [oldItems, addedItems, removedItems, newItems]
  | cons m ms ih =>
    obtain ⟨x, new⟩ := m
    simp only [oldItems, addedItems, removedItems, newItems, List.map_cons,
      List.filterMap_cons] at ih ⊢
    cases new with
    | none =>
      simp only [Option.map_none, Option.getD_none, groupValue_cons]
      rw [add_assoc, ih, add_left_comm]
    | some y =>
      simp only [Option.map_some, Option.getD_some, groupValue_cons]
      rw [add_add_add_comm, ih, add_add_add_comm]

theorem groupValue_oldItems (ms : List (I × Option I)) :
    ∃ kept : A, (groupValue (oldItems ms) : A) = groupValue (removedItems ms) + kept := by
  induction ms with
  | nil => exact ⟨0, by simp [oldItems, removedItems]⟩
  | cons m ms ih =>
    obtain ⟨kept, hkept⟩ := ih
    obtain ⟨x, new⟩ := m
    simp only [oldItems, removedItems, List.map_cons, List.filterMap_cons] at hkept ⊢
    cases new with
    | none =>
      refine ⟨LawfulSummary.value (Item.group x) + kept, ?_⟩
      simp only [Option.map_none, groupValue_cons]
      rw [hkept, add_left_comm]
    | some y =>
      refine ⟨kept, ?_⟩
      simp only [Option.map_some, groupValue_cons]
      rw [hkept, add_assoc]

/-- The counts a rebuild computes are machine numbers: those of the new items, and
those of the old items with the replacements, from which the replaced are taken. -/
structure FitsChange (ms : List (I × Option I)) : Prop where
  fits : Fits (newItems ms)
  group : LawfulSummary.Representable G (groupValue (oldItems ms) + groupValue (addedItems ms) : A)

/-- A part of representable contents is representable. -/
theorem representable_le {x y : A} (h : LawfulSummary.Representable G (x + y)) :
    LawfulSummary.Representable G x := by
  have hdrop := LawfulSummary.representable_drop (S := G) x y 0
  rw [add_zero, add_zero] at hdrop
  exact hdrop h

theorem FitsChange.part {xs ys zs : List (I × Option I)} (h : FitsChange (xs ++ ys ++ zs)) :
    FitsChange ys where
  fits := by
    have hfits := h.fits
    rw [newItems_append, newItems_append] at hfits
    exact hfits.left.right
  group := by
    have hgroup := h.group
    simp only [oldItems_append, addedItems_append, groupValue_append] at hgroup
    refine representable_le (y := (groupValue (oldItems xs) + groupValue (oldItems zs)) +
      (groupValue (addedItems xs) + groupValue (addedItems zs))) ?_
    convert hgroup using 1
    abel

theorem FitsChange.left {xs ys : List (I × Option I)} (h : FitsChange (xs ++ ys)) :
    FitsChange xs := by
  rw [← List.nil_append (xs ++ ys), ← List.append_assoc] at h
  exact h.part

theorem FitsChange.removed {ms : List (I × Option I)} (h : FitsChange ms) :
    LawfulSummary.Representable G (groupValue (removedItems ms) : A) := by
  obtain ⟨kept, hkept⟩ := groupValue_oldItems (A := A) ms
  have hgroup := h.group
  rw [hkept, add_assoc] at hgroup
  exact representable_le hgroup

theorem FitsChange.added {ms : List (I × Option I)} (h : FitsChange ms) :
    LawfulSummary.Representable G (groupValue (addedItems ms) : A) := by
  have hgroup := h.group
  rw [add_comm] at hgroup
  exact representable_le hgroup

section Leaf

variable {σ : Type} {seek : Seek I S G} {change : σ → I → Option I × σ}

/-- The loop over a leaf once the items of `ms` are done and `rest` is left. -/
def leafRun (position : Nat) (changed : List Nat) (ms : List (I × Option I)) (rest : List I)
    (state : σ) : LeafRun I G σ where
  replaced := if Unchanged ms then none else some (newItems ms ++ rest)
  removed := (removedItems ms).map Item.group
  added := (addedItems ms).map Item.group
  state := state
  changed := changed ++ changedFrom position ms

theorem mapItem_leafRun (position : Nat) (changed : List Nat) (ms : List (I × Option I)) (x : I)
    (rest : List I) (state : σ) (items : List I) (hitems : items = oldItems ms ++ x :: rest) :
    mapItem seek change position items (leafRun position changed ms (x :: rest) state)
        (x, ms.length) =
      leafRun position changed (ms ++ (marks seek change (position + ms.length) state [x]).1) rest
        (marks seek change (position + ms.length) state [x]).2 := by
  have hkept : ∀ state' : σ,
      ({ leafRun (G := G) position changed ms (x :: rest) state with state := state' }) =
        leafRun position changed (ms ++ [(x, none)]) rest state' := by
    intro state'
    simp only [leafRun, unchanged_snoc_none, newItems_append, removedItems_append,
      addedItems_append, changedFrom_append]
    simp [newItems, removedItems, addedItems, changedFrom]
  simp only [mapItem, marks]
  by_cases hwants : seek.wants (position + ms.length) x = true
  · simp only [hwants, if_true]
    have hstate : (leafRun (G := G) position changed ms (x :: rest) state).state = state := rfl
    rw [hstate]
    rcases hchange : change state x with ⟨new, state'⟩
    cases new with
    | none => exact hkept state'
    | some y =>
      have hset : ((leafRun (G := G) position changed ms (x :: rest) state).replaced.getD items).set
          ms.length y = newItems ms ++ y :: rest := by
        have hbase : (leafRun (G := G) position changed ms (x :: rest) state).replaced.getD items =
            newItems ms ++ x :: rest := by
          by_cases hun : Unchanged ms
          · simp [leafRun, hun, hitems, hun.newItems_eq]
          · simp [leafRun, hun]
        rw [hbase, ← length_newItems ms, set_middle]
      simp only [hset]
      simp only [leafRun, unchanged_append, newItems_append, removedItems_append,
        addedItems_append, changedFrom_append]
      simp [Unchanged, newItems, removedItems, addedItems, changedFrom]
  · simp only [hwants]
    exact hkept state

theorem foldl_mapItem (seek : Seek I S G) (change : σ → I → Option I × σ) (position : Nat) (changed : List Nat) (items : List I)
    (ms : List (I × Option I)) (rest : List I) (state : σ) (hitems : items = oldItems ms ++ rest) :
    (rest.zipIdx ms.length).foldl (mapItem seek change position items)
        (leafRun position changed ms rest state) =
      leafRun (G := G) position changed
        (ms ++ (marks seek change (position + ms.length) state rest).1) []
        (marks seek change (position + ms.length) state rest).2 := by
  induction rest generalizing ms state with
  | nil => simp [marks]
  | cons x rest ih =>
    rw [List.zipIdx_cons, List.foldl_cons, mapItem_leafRun position changed ms x rest state items
      hitems]
    have hone : (marks seek change (position + ms.length) state [x]).1.length = 1 := by
      simp [marks]
    have hlen : ms.length + 1 =
        (ms ++ (marks seek change (position + ms.length) state [x]).1).length := by
      rw [List.length_append, hone]
    have hsplit := marks_append seek change (position + ms.length) state
      [x] rest
    rw [List.singleton_append] at hsplit
    rw [hlen, ih, hsplit, ← hlen]
    · simp only [List.append_assoc, List.length_singleton, Nat.add_assoc]
    · rw [hitems, oldItems_append, oldItems_marks]
      simp

/-- What the rebuild of a node says of the marks of its items. -/
structure MapsNode (B : Branching) (h : Nat) (node : Node I S G) (changed : List Nat)
    (position : Nat) (ms : List (I × Option I)) (state : σ) (mapped : Mapped I S G σ) : Prop where
  recorded : mapped.2 = (state, changed ++ changedFrom position ms)
  kept : mapped.1 = none → Unchanged ms
  copied : ∀ node' difference, mapped.1 = some (node', difference) →
    ¬ Unchanged ms ∧ node'.Shaped B h ∧ node'.width = node.width ∧ node'.items = newItems ms ∧
      LawfulSummary.value difference.removed = (groupValue (removedItems ms) : A) ∧
      LawfulSummary.value difference.added = (groupValue (addedItems ms) : A)

/-- The group summary of a copied node. -/
theorem apply_yields {ms : List (I × Option I)} {difference : Difference G} {group : G}
    (hgroup : LawfulSummary.value group = (groupValue (oldItems ms) : A))
    (hremoved : LawfulSummary.value difference.removed = (groupValue (removedItems ms) : A))
    (hadded : LawfulSummary.value difference.added = (groupValue (addedItems ms) : A)) :
    Yields (FitsChange ms) (difference.apply group)
      (fun result => LawfulSummary.value result = (groupValue (newItems ms) : A)) := by
  unfold Difference.apply
  have hcombine := LawfulSummary.combine_yields group difference.added
  rw [hgroup, hadded] at hcombine
  refine (hcombine.mono FitsChange.group fun _ hc => hc).bind fun whole hwhole => ?_
  refine (LawfulGroup.subtract_yields whole difference.removed (groupValue (newItems ms)) ?_).mono
    (fun _ => trivial) fun _ hr => hr
  rw [hwhole, hremoved, groupValue_marks]

theorem fold_removed_yields (ms : List (I × Option I)) :
    Yields (FitsChange ms) (foldGroups ((removedItems ms).map Item.group))
      (fun removed => LawfulSummary.value removed = (groupValue (removedItems ms) : A)) := by
  exact (foldGroups_items_yields (removedItems ms)).mono FitsChange.removed fun _ hr => hr

theorem fold_added_yields (ms : List (I × Option I)) :
    Yields (FitsChange ms) (foldGroups ((addedItems ms).map Item.group))
      (fun added => LawfulSummary.value added = (groupValue (addedItems ms) : A)) := by
  exact (foldGroups_items_yields (addedItems ms)).mono FitsChange.added fun _ ha => ha

theorem mapNode_leaf_yields {items : List I} {summary : NodeSummary I S G} {B : Branching}
    (hnode : (Node.leaf items summary).Shaped B 0) (position : Nat) (state : σ)
    (changed : List Nat) :
    Yields (FitsChange (marks seek change position state items).1)
      (mapNode seek change (.leaf items summary) position state changed)
      (MapsNode (A := A) B 0 (.leaf items summary) changed position
        (marks seek change position state items).1 (marks seek change position state items).2) := by
  obtain ⟨hlen, hsummary⟩ := hnode
  have hrun := foldl_mapItem (G := G) seek change position changed items []
    items state rfl
  have hstart : leafRun (G := G) position changed ([] : List (I × Option I)) items state =
      { replaced := none, removed := [], added := [], state, changed } := by
    simp [leafRun, Unchanged, removedItems, addedItems, changedFrom]
  rw [hstart] at hrun
  simp only [List.length_nil, List.nil_append, Nat.add_zero] at hrun
  have hold := oldItems_marks seek change position state items
  rw [mapNode, hrun]
  generalize (marks seek change position state items).1 = ms at *
  generalize (marks seek change position state items).2 = state' at *
  by_cases hun : Unchanged ms
  · simp only [leafRun, if_pos hun]
    exact ⟨rfl, fun _ => hun, by simp⟩
  · obtain ⟨pre, mid, post, rfl, hpre, hpost, hbounds⟩ := exists_changed_run hun
    obtain ⟨hhead, hlast⟩ := hbounds (position + pre.length)
    have hchanged : changedFrom position (pre ++ mid ++ post) =
        changedFrom (position + pre.length) mid := by
      rw [changedFrom_append, changedFrom_append, hpre.changedFrom_eq, hpost.changedFrom_eq]
      simp
    have hmid : mid ≠ [] := by
      rintro rfl
      simp [changedFrom] at hhead
    have hmidPos := List.length_pos_iff.mpr hmid
    simp only [leafRun, if_neg hun, hchanged]
    have hfirst : (changed ++ changedFrom (position + pre.length) mid)[changed.length]? =
        some (position + pre.length) := by
      rw [List.getElem?_append_right le_rfl, Nat.sub_self, ← List.head?_eq_getElem?, hhead]
    have hfinal : (changed ++ changedFrom (position + pre.length) mid).getLast? =
        some (position + pre.length + mid.length - 1) := by
      rw [List.getLast?_append, hlast]
      rfl
    have hprefix : checkedSub (position + pre.length) position = some pre.length := by
      rw [checkedSub_of_le (by omega)]
      simp
    have hwidth : (newItems (pre ++ mid ++ post)).length =
        pre.length + mid.length + post.length := by
      rw [length_newItems, List.length_append, List.length_append]
    have hend : checkedSub (position + (pre.length + mid.length + post.length)) 1 =
        some (position + (pre.length + mid.length + post.length) - 1) :=
      checkedSub_of_le (by omega)
    have hsuffix : checkedSub (position + (pre.length + mid.length + post.length) - 1)
        (position + pre.length + mid.length - 1) = some post.length := by
      rw [checkedSub_of_le (by omega)]
      congr 1
      omega
    simp only [hfirst, hfinal, hprefix, List.append_nil, hwidth, hend, hsuffix,
      Option.bind_eq_bind, Option.bind_some]
    have hgroup : LawfulSummary.value summary.group =
        (groupValue (oldItems (pre ++ mid ++ post)) : A) := by
      rw [hsummary.group, hold]
    refine (fold_removed_yields _).bind fun removed hremoved => ?_
    refine (fold_added_yields _).bind fun added hadded => ?_
    refine (apply_yields hgroup hremoved hadded).bind fun group hvalue => ?_
    have hitems : items = newItems pre ++ oldItems mid ++ newItems post := by
      rw [hpre.newItems_eq, hpost.newItems_eq, ← hold]
      simp
    have hedit := Node.leafEdited_yields (B := B) (newItems pre) (oldItems mid) (newItems mid)
      (newItems post) summary group (by simpa [hitems] using hlen) (by rw [← hitems]; exact hsummary)
      (by simpa using hvalue)
    rw [← hitems, length_newItems, length_newItems, ← newItems_append, ← newItems_append] at hedit
    refine (hedit.mono FitsChange.fits fun _ hn => hn).bind fun leaf hleaf => ?_
    obtain ⟨hshaped, hleafWidth, hleafItems⟩ := hleaf
    refine ⟨by rw [hchanged], by simp, ?_⟩
    intro node' difference heq
    obtain ⟨rfl, rfl⟩ : leaf = node' ∧ { removed, added } = difference := by
      simpa using heq
    refine ⟨hun, hshaped, ?_, hleafItems, hremoved, hadded⟩
    rw [hleafWidth, hitems]
    simp

/-- What the trait documents of `admits`: every subtree holding a wanted item. -/
structure Seek.Lawful (seek : Seek I S G) : Prop where
  admits : ∀ position (summary : NodeSummary I S G) items, Summarizes summary items →
    ∀ offset x, items[offset]? = some x → seek.wants (position + offset) x = true →
      seek.admits position summary = true

/-- The loop over an internal node's children: `new` stands for those of `seen`, whose
items have the marks `ms`, and `rest` is left. -/
structure ChildrenDone (B : Branching) (h : Nat) (changed : List Nat) (position : Nat)
    (seen new rest : List (Node I S G)) (ms : List (I × Option I)) (state : σ)
    (run : ChildRun I S G σ) : Prop where
  full : ∀ c ∈ new, c.Full B h
  length : new.length = seen.length
  items : new.flatMap Node.items = newItems ms
  same : Unchanged ms → new = seen
  replaced : run.replaced = if Unchanged ms then none else some (new ++ rest)
  state : run.state = state
  recorded : run.changed = changed ++ changedFrom position ms
  removed : LawfulSummary.value run.difference.removed = (groupValue (removedItems ms) : A)
  added : LawfulSummary.value run.difference.added = (groupValue (addedItems ms) : A)

variable {B : Branching} {h : Nat} {changed : List Nat} {position : Nat}
  {seen new rest : List (Node I S G)} {ms : List (I × Option I)} {state : σ}
  {run : ChildRun I S G σ} {child : Node I S G}

/-- A child below which no item changed. -/
theorem ChildrenDone.keep (hdone : ChildrenDone B h changed position seen new (child :: rest) ms
    state run) (hchild : child.Full B h) {more : List (I × Option I)} (hmore : Unchanged more)
    (hitems : oldItems more = child.items) (state' : σ) (changed' : List Nat)
    (hchanged : changed' = run.changed) :
    ChildrenDone B h changed position (seen ++ [child]) (new ++ [child]) rest (ms ++ more) state'
      { run with state := state', changed := changed' } where
  full := by
    intro c hc
    rcases List.mem_append.mp hc with hc | hc
    · exact hdone.full c hc
    · rw [List.mem_singleton.mp hc]
      exact hchild
  length := by simp [hdone.length]
  items := by simp [hdone.items, hmore.newItems_eq, hitems]
  same := fun hun => by rw [hdone.same (unchanged_append.mp hun).1]
  replaced := by
    have hiff : Unchanged (ms ++ more) ↔ Unchanged ms := by simp [unchanged_append, hmore]
    simp only [hdone.replaced, hiff]
    simp
  state := rfl
  recorded := by
    simp [hchanged, hdone.recorded, changedFrom_append, hmore.changedFrom_eq]
  removed := by simp [hdone.removed, hmore.removedItems_eq]
  added := by simp [hdone.added, hmore.addedItems_eq]

/-- A child taken into account by the loop. -/
theorem put_yields (hdone : ChildrenDone B h changed position seen new (child :: rest) ms state run)
    (hchild : child.Full B h) {more : List (I × Option I)} (hitems : oldItems more = child.items)
    {state' : σ} {mapped : Mapped I S G σ}
    (hmapped : MapsNode B h child run.changed (position + ms.length) more state' mapped) :
    Yields (FitsChange (ms ++ more))
      (run.put (seen ++ child :: rest) seen.length mapped.1 mapped.2.1 mapped.2.2)
      (fun run' => ∃ new', ChildrenDone B h changed position (seen ++ [child]) new' rest (ms ++ more)
        state' run') := by
  obtain ⟨result, state'', changed'⟩ := mapped
  obtain ⟨rfl, rfl⟩ := Prod.mk.inj hmapped.recorded
  cases result with
  | none =>
    have hmore := hmapped.kept rfl
    exact ⟨_, hdone.keep hchild hmore hitems _ _ (by simp [hmore.changedFrom_eq])⟩
  | some result =>
    obtain ⟨child', below⟩ := result
    obtain ⟨hchange, hshaped, hwidth, hchildItems, hremoved, hadded⟩ := hmapped.copied _ _ rfl
    have hremovedSum := LawfulSummary.combine_yields run.difference.removed below.removed
    rw [hdone.removed, hremoved, ← groupValue_append, ← removedItems_append] at hremovedSum
    have haddedSum := LawfulSummary.combine_yields run.difference.added below.added
    rw [hdone.added, hadded, ← groupValue_append, ← addedItems_append] at haddedSum
    refine (hremovedSum.mono FitsChange.removed fun _ hr => hr).bind fun removed hr => ?_
    refine (haddedSum.mono FitsChange.added fun _ ha => ha).bind fun added ha => ?_
    have hnot : ¬ Unchanged (ms ++ more) := fun hun => hchange (unchanged_append.mp hun).2
    have hset : (run.replaced.getD (seen ++ child :: rest)).set seen.length child' =
        (new ++ [child']) ++ rest := by
      have hbase : run.replaced.getD (seen ++ child :: rest) = new ++ child :: rest := by
        rw [hdone.replaced]
        by_cases hun : Unchanged ms
        · simp [hun, hdone.same hun]
        · simp [hun]
      rw [hbase, ← hdone.length, set_middle]
      simp
    refine ⟨new ++ [child'], ?_, ?_, ?_, fun hun => absurd hun hnot, ?_, rfl, ?_, hr, ha⟩
    · intro c hc
      rcases List.mem_append.mp hc with hc | hc
      · exact hdone.full c hc
      · rw [List.mem_singleton.mp hc]
        exact ⟨hshaped, by rw [hwidth]; exact hchild.wide⟩
    · simp [hdone.length]
    · simp [hdone.items, hchildItems]
    · simp only [hset, if_neg hnot]
    · rw [changedFrom_append, ← List.append_assoc, ← hdone.recorded]

/-- The loop over the children, given what the rebuild of a child does. -/
theorem mapChildren_yields (hseek : seek.Lawful)
    (hnode : ∀ (node : Node I S G), node.Shaped B h → ∀ position state changed,
      Yields (FitsChange (marks seek change position state node.items).1)
        (mapNode seek change node position state changed)
        (MapsNode B h node changed position (marks seek change position state node.items).1
          (marks seek change position state node.items).2))
    (hrest : ∀ c ∈ rest, c.Full B h) (hold : ms.length = (seen.flatMap Node.items).length)
    (hdone : ChildrenDone B h changed position seen new rest ms state run) :
    Yields (FitsChange (ms ++
        (marks seek change (position + ms.length) state (rest.flatMap Node.items)).1))
      (mapChildren seek change (seen ++ rest) rest seen.length (position + ms.length) run)
      (fun run' => ∃ new', ChildrenDone B h changed position (seen ++ rest) new' []
        (ms ++ (marks seek change (position + ms.length) state (rest.flatMap Node.items)).1)
        (marks seek change (position + ms.length) state (rest.flatMap Node.items)).2 run') := by
  induction rest generalizing seen new ms state run with
  | nil =>
    rw [mapChildren]
    exact ⟨new, by simpa [marks] using hdone⟩
  | cons child rest ih =>
    have hchild := hrest child (by simp)
    have hitems := oldItems_marks seek change (position + ms.length) state
      child.items
    have hmarks := marks_append seek change (position + ms.length) state
      child.items (rest.flatMap Node.items)
    have hlength : (marks seek change (position + ms.length) state child.items).1.length =
        child.items.length := by rw [← length_oldItems, hitems]
    have hunwanted := marks_of_unwanted seek change (position + ms.length)
      state child.items
    have hmapped := hnode child hchild.shaped (position + ms.length) state run.changed
    rw [List.flatMap_cons, hmarks]
    simp only
    generalize (marks seek change (position + ms.length) state child.items).1 = more at *
    generalize (marks seek change (position + ms.length) state child.items).2 = state' at *
    have hput : Yields (FitsChange (ms ++ more))
        (if seek.admits (position + ms.length) child.summary then
          mapNode seek change child (position + ms.length) run.state run.changed >>= fun mapped =>
            run.put (seen ++ child :: rest) seen.length mapped.1 mapped.2.1 mapped.2.2
        else some run)
        (fun run' => ∃ new', ChildrenDone B h changed position (seen ++ [child]) new' rest
          (ms ++ more) state' run') := by
      rw [hdone.state]
      split
      · refine (hmapped.mono (fun hfits => ?_) fun _ hm => hm).bind fun mapped hm => ?_
        · rw [← List.append_nil (ms ++ more)] at hfits
          exact hfits.part
        · exact put_yields hdone hchild hitems hm
      · next hadmits =>
        obtain ⟨hmore, hstate⟩ := hunwanted fun offset x hx => by
          by_contra hwants
          exact hadmits (hseek.admits _ _ _ hchild.shaped.summarizes offset x hx (by simpa using hwants))
        have hkeep : ChildrenDone B h changed position (seen ++ [child]) (new ++ [child]) rest
            (ms ++ more) run.state run := hdone.keep hchild hmore hitems run.state run.changed rfl
        rw [hdone.state, ← hstate] at hkeep
        exact ⟨_, hkeep⟩
    rw [mapChildren]
    rw [← List.append_assoc]
    refine (hput.mono FitsChange.left fun _ hp => hp).bind fun run' hrun' => ?_
    obtain ⟨new', hdone'⟩ := hrun'
    have hnext := ih (fun c hc => hrest c (by simp [hc])) (by simp [hold, hlength]) hdone'
    have hslot : seen.length + 1 = (seen ++ [child]).length := by simp
    have hstart : position + ms.length + child.summary.count = position + (ms ++ more).length := by
      rw [hchild.shaped.count_eq, List.length_append, hlength, Nat.add_assoc]
    have hwhole : seen ++ child :: rest = (seen ++ [child]) ++ rest := by simp
    have hposition : position + ms.length + child.items.length = position + (ms ++ more).length := by
      rw [List.length_append, hlength, Nat.add_assoc]
    rw [hslot, hstart, hwhole, hposition]
    exact hnext

theorem mapNode_yields (hseek : seek.Lawful) {node : Node I S G} (hnode : node.Shaped B h)
    (position : Nat) (state : σ) (changed : List Nat) :
    Yields (FitsChange (marks seek change position state node.items).1)
      (mapNode seek change node position state changed)
      (MapsNode B h node changed position (marks seek change position state node.items).1
        (marks seek change position state node.items).2) := by
  induction h generalizing node position state changed with
  | zero =>
    obtain ⟨items, summary, rfl, _⟩ := hnode.leaf_of_zero
    rw [Node.items_leaf]
    exact mapNode_leaf_yields hnode position state changed
  | succ h ih =>
    obtain ⟨children, summary, rfl, hlen, hne, hchildren, hsummary⟩ := hnode.internal_of_succ
    have hstart : ChildrenDone B h changed position [] [] children ([] : List (I × Option I)) state
        { replaced := none, difference := { removed := Summary.identity, added := Summary.identity }
          state, changed } := by
      refine ⟨by simp, rfl, rfl, fun _ => rfl, ?_, rfl, ?_, ?_, ?_⟩
      · simp [Unchanged]
      · simp [changedFrom]
      · simp [removedItems, LawfulSummary.value_identity]
      · simp [addedItems, LawfulSummary.value_identity]
    have hloop := mapChildren_yields hseek (fun node hn => ih hn) hchildren (by simp) hstart
    have hold := oldItems_marks seek change position state
      (children.flatMap Node.items)
    simp only [List.nil_append, List.length_nil, Nat.add_zero] at hloop
    rw [mapNode, Node.items_internal]
    refine hloop.bind fun run hrun => ?_
    obtain ⟨new, hdone⟩ := hrun
    generalize (marks seek change position state (children.flatMap Node.items)).1 = ms at *
    generalize (marks seek change position state (children.flatMap Node.items)).2 = state' at *
    rw [hdone.replaced]
    by_cases hun : Unchanged ms
    · simp only [if_pos hun]
      exact ⟨by rw [← hdone.state, ← hdone.recorded], fun _ => hun, by simp⟩
    · simp only [if_neg hun, List.append_nil]
      have hgroup : LawfulSummary.value summary.group = (groupValue (oldItems ms) : A) := by
        rw [hsummary.group, hold]
      refine (apply_yields hgroup hdone.removed hdone.added).bind fun group hvalue => ?_
      have hnewNe : new ≠ [] := by
        rw [← List.length_pos_iff, hdone.length]
        exact List.length_pos_iff.mpr hne
      have hbuild := Node.internalWith_yields (B := B) new group (by rw [hdone.length]; exact hlen)
        hnewNe hdone.full (by rw [hdone.items]; exact hvalue)
      rw [hdone.items] at hbuild
      refine (hbuild.mono FitsChange.fits fun _ hn => hn).bind fun built hbuilt => ?_
      obtain ⟨hshaped, hwidth, hbuiltItems⟩ := hbuilt
      refine ⟨by rw [← hdone.state, ← hdone.recorded], by simp, ?_⟩
      rintro node' difference heq
      obtain ⟨rfl, rfl⟩ : built = node' ∧ run.difference = difference := by simpa using heq
      refine ⟨hun, hshaped, ?_, hbuiltItems, hdone.removed, hdone.added⟩
      rw [hwidth, hdone.length]
      rfl

/-- A rebuild of the whole sequence: the items its marks give, and the positions of
those that changed. -/
theorem mapWhereRecording_yields (change : σ → I → Option I × σ) {tree : Chunked I S G B} (hvalid : tree.Valid)
    (hseek : seek.Lawful) (state : σ) :
    Yields (FitsChange (marks seek change 0 state tree.items).1)
      (mapWhereRecording tree seek change state)
      (fun result => result.1.Valid ∧
        result.1.items = newItems (marks seek change 0 state tree.items).1 ∧
        result.2 = ((marks seek change 0 state tree.items).2,
          changedFrom 0 (marks seek change 0 state tree.items).1)) := by
  have hkept : ∀ tree : Chunked I S G B, tree.Valid →
      Unchanged (marks seek change 0 state tree.items).1 →
      tree.Valid ∧ tree.items = newItems (marks seek change 0 state tree.items).1 ∧
        changedFrom 0 (marks seek change 0 state tree.items).1 = [] := by
    intro tree hvalid hun
    exact ⟨hvalid, by rw [hun.newItems_eq, oldItems_marks], hun.changedFrom_eq 0⟩
  obtain ⟨root⟩ := tree
  cases root with
  | none => exact ⟨hvalid, rfl, rfl⟩
  | some root =>
    obtain ⟨h, hroot⟩ := hvalid root rfl
    simp only [mapWhereRecording]
    split
    · refine (mapNode_yields hseek hroot.shaped 0 state []).bind fun mapped hmapped => ?_
      obtain ⟨result, state', changed⟩ := mapped
      obtain ⟨rfl, rfl⟩ := Prod.mk.inj hmapped.recorded
      cases result with
      | none =>
        have hun := hmapped.kept rfl
        obtain ⟨hv, hitems, hchanged⟩ := hkept ⟨some root⟩ hvalid hun
        exact ⟨hv, hitems, rfl⟩
      | some result =>
        obtain ⟨node, difference⟩ := result
        obtain ⟨_, hshaped, hwidth, hitems, _⟩ := hmapped.copied _ _ rfl
        refine ⟨Node.IsRoot.valid ⟨⟨hshaped, ?_, ?_⟩, ?_⟩, hitems, rfl⟩
        · rw [hwidth]
          exact hroot.nonempty
        · rw [hwidth]
          exact hroot.branches
        · intro hfew
          apply hroot.small
          have hlen : node.items.length = root.items.length := by
            rw [hitems, length_newItems, ← length_oldItems, oldItems_marks]
          omega
    · next hadmits =>
      obtain ⟨hun, hstate⟩ := marks_of_unwanted seek change 0 state
        root.items fun offset x hx => by
          by_contra hwants
          exact hadmits (hseek.admits _ _ _ hroot.shaped.summarizes offset x hx
            (by simpa using hwants))
      obtain ⟨hv, hitems, hchanged⟩ := hkept ⟨some root⟩ hvalid hun
      refine ⟨hv, hitems, ?_⟩
      simp only [Chunked.items_some] at hchanged ⊢
      rw [hchanged, hstate]

theorem mapWhere_yields (change : σ → I → Option I × σ) {tree : Chunked I S G B} (hvalid : tree.Valid) (hseek : seek.Lawful)
    (state : σ) :
    Yields (FitsChange (marks seek change 0 state tree.items).1)
      (mapWhere tree seek change state)
      (fun result => result.1.Valid ∧
        result.1.items = newItems (marks seek change 0 state tree.items).1 ∧
        result.2 = (marks seek change 0 state tree.items).2) := by
  refine (mapWhereRecording_yields change hvalid hseek state).bind fun result hresult => ?_
  obtain ⟨hv, hitems, hrecord⟩ := hresult
  exact ⟨hv, hitems, congrArg Prod.fst hrecord⟩

theorem Seek.atPosition_lawful (index : Nat) : (Seek.atPosition index : Seek I S G).Lawful where
  admits position summary items hsummary offset x hx hwants := by
    have hlt := (List.getElem?_eq_some_iff.mp hx).1
    simp only [Seek.atPosition, beq_iff_eq] at hwants
    simp only [Seek.atPosition, hsummary.count, Bool.and_eq_true, decide_eq_true_eq]
    omega

/-- The marks of a replacement at one position. -/
theorem marks_atPosition (before : List I) (old new : I) (after : List I) :
    (marks (Seek.atPosition before.length : Seek I S G) (fun item _ => (item, none)) 0 (some new)
      (before ++ old :: after)).1 =
        before.map (fun x => (x, none)) ++ (old, some new) :: after.map fun x => (x, none) := by
  have hskip : ∀ (xs : List I) (position : Nat) (state : Option I),
      (position + xs.length ≤ before.length ∨ before.length < position) →
      marks (Seek.atPosition before.length : Seek I S G) (fun item _ => (item, none)) position state
        xs = (xs.map fun x => (x, none), state) := by
    intro xs
    induction xs with
    | nil => intros; rfl
    | cons x xs ih =>
      intro position state hout
      rw [List.length_cons] at hout
      have hne : (position == before.length) = false := by
        rw [beq_eq_false_iff_ne]
        omega
      simp only [marks, Seek.atPosition, hne, Bool.false_eq_true, if_false]
      have hrest := ih (position + 1) state (by omega)
      simp only [Seek.atPosition] at hrest
      rw [hrest, List.map_cons]
  rw [marks_append, hskip before 0 (some new) (by omega), Nat.zero_add]
  simp only [marks, Seek.atPosition, beq_self_eq_true, if_true]
  have hrest := hskip after (before.length + 1) none (by omega)
  simp only [Seek.atPosition] at hrest
  rw [hrest]

theorem replaceAt_yields {tree : Chunked I S G B} (hvalid : tree.Valid) (before : List I)
    (old : I) (after : List I) (hitems : tree.items = before ++ old :: after) (new : I) :
    Yields (Fits (before ++ new :: after) ∧ LawfulSummary.Representable G
        (groupValue tree.items + LawfulSummary.value (Item.group new) : A))
      (replaceAt tree before.length new)
      (fun result => result.Valid ∧ result.items = before ++ new :: after) := by
  unfold replaceAt
  rw [if_pos (by rw [hvalid.len_eq, hitems]; simp)]
  have hmarks := marks_atPosition (S := S) (G := G) before old new after
  have hnew : newItems (before.map (fun x => (x, none)) ++ (old, some new) ::
      after.map fun x => (x, none)) = before ++ new :: after := by
    simp [newItems, Function.comp_def]
  have hold : oldItems (before.map (fun x => (x, none)) ++ (old, some new) ::
      after.map fun x => (x, none)) = before ++ old :: after := by
    simp [oldItems, Function.comp_def]
  have hadded : addedItems (before.map (fun x => (x, none)) ++ (old, some new) ::
      after.map fun x => (x, none)) = [new] := by
    simp [addedItems, List.filterMap_map]
  have hmap := mapWhere_yields (fun (item : Option I) _ => (item, none)) hvalid
    (Seek.atPosition_lawful before.length) (some new)
  rw [hitems] at hmap ⊢
  rw [hmarks, hnew] at hmap
  refine (hmap.mono (fun hfits => ⟨by rw [hnew]; exact hfits.1, ?_⟩) fun _ hr => hr).bind
    fun result hresult => ⟨hresult.1, hresult.2.1⟩
  rw [hold, hadded]
  simpa using hfits.2

end Leaf

end Values

end KRust.Term.Chunks
