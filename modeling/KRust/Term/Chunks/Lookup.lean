import KRust.Term.Chunks.KeyedLaws

/-!
The search of a sequence ordered by key: the position of the item of a key, or that at which one
would go.
-/

set_option linter.unusedSectionVars false

namespace KRust.Term.Chunks

open KRust.Lib

section Definitions

variable {I K S G : Type} [Item I K S G] [LinearOrder K] {B : Branching}

/-- The loop of `search`, from the node whose items start at `position`. -/
def searchFrom (key : K) (node : Node I S G) (position : Nat) : Option (Except Nat Nat) :=
  match node with
  | .leaf items _ =>
    let offset := partitionSlice (fun item => decide (Item.key item < key)) items
    match items[offset]? with
    | some item =>
      some (if Item.key item = key then .ok (position + offset) else .error (position + offset))
    | none => some (.error (position + offset))
  | .internal _ children _ => do
    let tests ← children.mapM fun child =>
      child.summary.last.map fun last => decide (Item.key last < key)
    let index := partitionSlice id tests
    let position := position + ((children.take index).map fun child => child.summary.count).sum
    match _hchild : children[index]? with
    | none => some (.error position)
    | some child => searchFrom key child position
termination_by node
decreasing_by
  have := List.sizeOf_lt_of_mem (List.mem_of_getElem? _hchild)
  simp_wf
  omega

/-- `Chunked::search` -/
def search (tree : Chunked I S G B) (key : K) : Option (Except Nat Nat) :=
  match tree.root with
  | none => some (.error 0)
  | some root => searchFrom key root 0

/-- What a search of a list answers. -/
def searchList (key : K) (position : Nat) (xs : List I) : Except Nat Nat :=
  let before := fun item : I => decide (Item.key item < key)
  match (xs.dropWhile before).head? with
  | some item =>
    if Item.key item = key then .ok (position + (xs.takeWhile before).length)
    else .error (position + (xs.takeWhile before).length)
  | none => .error (position + (xs.takeWhile before).length)

end Definitions

section Laws

variable {I K S G M A : Type} [Item I K S G] [LinearOrder K] [Summary S] [Group G]
  [AddMonoid M] [AddCancelCommMonoid A] [LawfulSummary S M] [LawfulGroup G A] {B : Branching}
  {h : Nat} {tree : Chunked I S G B} {node : Node I S G}

theorem getElem?_takeWhile_length {α : Type} (p : α → Bool) (xs : List α) :
    xs[(xs.takeWhile p).length]? = (xs.dropWhile p).head? := by
  induction xs with
  | nil => rfl
  | cons x xs ih =>
    cases hx : p x with
    | true => simp [hx, ih]
    | false => simp [hx]

/-- Items below the key come first, and where one is not below it the items after do not matter. -/
theorem searchList_append {key : K} {xs ys : List I} {position : Nat}
    (hbelow : ∀ x ∈ xs, Item.key x < key) :
    searchList key position (xs ++ ys) = searchList key (position + xs.length) ys := by
  have hpass : ∀ x ∈ xs, decide (Item.key x < key) = true := fun x hx => decide_eq_true (hbelow x hx)
  simp only [searchList, List.dropWhile_append_of_pos hpass, List.takeWhile_append_of_pos hpass,
    List.length_append, Nat.add_assoc]

theorem searchList_append_right {key : K} {xs ys : List I} {position : Nat}
    (hnot : ∃ x ∈ xs, decide (Item.key x < key) = false) :
    searchList key position (xs ++ ys) = searchList key position xs := by
  obtain ⟨x, hx, hfails⟩ := hnot
  have htake : (xs ++ ys).takeWhile (fun item => decide (Item.key item < key)) =
      xs.takeWhile fun item => decide (Item.key item < key) :=
    takeWhile_append_of_fails hx hfails ys
  have hhead : ((xs ++ ys).dropWhile fun item => decide (Item.key item < key)).head? =
      (xs.dropWhile fun item => decide (Item.key item < key)).head? := by
    rw [← getElem?_takeWhile_length, ← getElem?_takeWhile_length, htake]
    refine List.getElem?_append_left ?_
    rw [← not_le]
    intro hle
    have hall := (List.takeWhile_prefix
      (fun item : I => decide (Item.key item < key)) (l := xs)).eq_of_length_le hle
    have hpass := List.mem_takeWhile_imp (hall ▸ hx)
    rw [hfails] at hpass
    cases hpass
  simp only [searchList, hhead, htake]

theorem searchFrom_eq {key : K} (hnode : node.Shaped B h) (hordered : KeyOrdered node.items)
    (position : Nat) : searchFrom key node position = some (searchList key position node.items) := by
  induction h generalizing node position with
  | zero =>
    obtain ⟨items, summary, rfl, _⟩ := hnode.leaf_of_zero
    rw [searchFrom, Node.items_leaf, partitionSlice, getElem?_takeWhile_length, searchList]
    cases (items.dropWhile fun item => decide (Item.key item < key)).head? with
    | none => rfl
    | some item => rfl
  | succ h ih =>
    obtain ⟨children, summary, rfl, _, _, hchildren, _⟩ := hnode.internal_of_succ
    rw [Node.items_internal] at hordered ⊢
    have hmono : (children.flatMap Node.items).Pairwise fun x y =>
        decide (Item.key y < key) → decide (Item.key x < key) :=
      hordered.imp fun hxy hy => by
        simp only [decide_eq_true_eq] at hy ⊢
        exact hxy.trans hy
    obtain ⟨pre, post, hturns⟩ := exists_turnsAt hchildren hmono
    have hslot := hturns.slot
    rw [searchFrom]
    simp only [hturns.tests, Option.bind_eq_bind, Option.bind_some, hslot]
    obtain rfl := hturns.split
    have hbelow : ∀ x ∈ pre.flatMap Node.items, Item.key x < key :=
      fun x hx => of_decide_eq_true (hturns.pass x hx)
    rw [List.take_left, hturns.count, List.flatMap_append, searchList_append hbelow]
    split
    · next hnone =>
      rw [hslot] at hnone
      obtain rfl : post = [] := by simpa using hnone
      rfl
    · next child hchild =>
      rw [hslot] at hchild
      obtain ⟨rest, rfl⟩ : ∃ rest, post = child :: rest := by
        cases post with
        | nil => simp at hchild
        | cons c rest => exact ⟨rest, by simpa using hchild⟩
      rw [List.flatMap_append, List.flatMap_cons] at hordered
      have hchildOrdered := (List.pairwise_append.mp (List.pairwise_append.mp hordered).2.1).1
      rw [ih (hchildren child (by simp)).shaped hchildOrdered, List.flatMap_cons,
        searchList_append_right (hturns.fail child rfl)]

theorem search_eq (hvalid : tree.Valid) (hordered : KeyOrdered tree.items) (key : K) :
    search tree key = some (searchList key 0 tree.items) := by
  obtain ⟨root⟩ := tree
  cases root with
  | none => rfl
  | some root =>
    obtain ⟨h, hroot⟩ := hvalid root rfl
    exact searchFrom_eq hroot.shaped hordered 0

/-- A search finds a key that an item has. -/
theorem searchList_isOk {key : K} {xs : List I} (hordered : KeyOrdered xs) (position : Nat) :
    (searchList key position xs).isOk = decide (key ∈ xs.map Item.key) := by
  induction xs generalizing position with
  | nil => rfl
  | cons x xs ih =>
    obtain ⟨hhead, htail⟩ := List.pairwise_cons.mp hordered
    rcases lt_trichotomy (Item.key x) key with hlt | heq | hgt
    · have happend : searchList key position ([x] ++ xs) =
          searchList key (position + [x].length) xs :=
        searchList_append (List.forall_mem_singleton.mpr hlt)
      rw [List.singleton_append] at happend
      rw [happend, ih htail, List.map_cons]
      simp [hlt.ne']
    · simp [searchList, heq, Except.isOk, Except.toBool]
    · have hnot : ¬ Item.key x < key := hgt.not_gt
      have hmem : key ∉ (x :: xs).map Item.key := by
        simp only [List.map_cons, List.mem_cons, List.mem_map, not_or, not_exists, not_and]
        exact ⟨hgt.ne, fun y hy heq => (hgt.trans (hhead y hy)).ne heq.symm⟩
      rw [decide_eq_false hmem]
      simp [searchList, hnot, hgt.ne', Except.isOk, Except.toBool]

end Laws

end KRust.Term.Chunks
