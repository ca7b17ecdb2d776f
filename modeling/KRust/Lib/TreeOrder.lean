import KRust.Lib.Worklist
import KRust.Lib.Spelling

/-!
Trees compared by what their nodes hold, then by their subtrees from left to right. A list of
comparisons that are owed decides as the recursion over the trees does, and the comparison of
spellings is that recursion where a spelling is the node's own before those of the subtrees.
-/

namespace KRust.Lib

/-- Trees whose nodes are compared by what they hold besides their subtrees. -/
structure TreeOrder (T : Type) where
  head : T → T → Ordering
  children : T → List T
  nodes : T → ℕ
  lighter : ∀ t, ((children t).map nodes).sum < nodes t

namespace TreeOrder

/-- A comparison that is owed, or one of the numbers of subtrees, made already. -/
inductive Step (T : Type) where
  | compare (left right : T)
  | prefixLength (order : Ordering)

variable {T : Type} (trees : TreeOrder T)

def Step.weight : Step T → ℕ
  | .compare left _ => 2 * trees.nodes left
  | .prefixLength _ => 1

/-- The comparisons that a comparison of two subtrees leaves. -/
def pending (left right : T) : List (Step T) :=
  ((trees.children left).zip (trees.children right)).map (fun pair => .compare pair.1 pair.2) ++
    [.prefixLength (Ord.compare (trees.children left).length (trees.children right).length)]

/-- A step taken from the work list: an answer, or the list that is left. -/
def turn : List (Step T) → Ordering ⊕ List (Step T)
  | [] => .inl .eq
  | .prefixLength order :: work => if order = .eq then .inr work else .inl order
  | .compare left right :: work =>
    if trees.head left right = .eq then .inr (trees.pending left right ++ work)
    else .inl (trees.head left right)

theorem weight_zip (lefts rights : List T) :
    ((lefts.zip rights).map fun pair => 2 * trees.nodes pair.1).sum ≤
      2 * (lefts.map trees.nodes).sum := by
  induction lefts generalizing rights with
  | nil => exact Nat.zero_le _
  | cons left lefts ih =>
    cases rights with
    | nil => exact Nat.zero_le _
    | cons right rights =>
      have hrest := ih rights
      simp only [List.zip_cons_cons, List.map_cons, List.sum_cons]
      omega

theorem weight_pending (left right : T) :
    ((trees.pending left right).map (Step.weight trees)).sum < 2 * trees.nodes left := by
  have hzip := trees.weight_zip (trees.children left) (trees.children right)
  have hlighter := trees.lighter left
  have hpairs : (((trees.children left).zip (trees.children right)).map fun pair =>
      Step.weight trees (.compare pair.1 pair.2)).sum ≤
        2 * ((trees.children left).map trees.nodes).sum := hzip
  rw [pending, List.map_append, List.map_map, List.sum_append, List.map_singleton,
    List.sum_singleton]
  simp only [Function.comp_def]
  have hlength (order : Ordering) : Step.weight trees (.prefixLength order) = 1 := rfl
  rw [hlength]
  omega

theorem turn_lighter (work next : List (Step T)) (h : trees.turn work = .inr next) :
    (next.map (Step.weight trees)).sum < (work.map (Step.weight trees)).sum := by
  rcases work with _ | ⟨⟨left, right⟩ | order, work⟩
  · cases h
  · rw [turn] at h
    split at h
    · cases h
      have hpending := trees.weight_pending left right
      have hweight : Step.weight trees (.compare left right) = 2 * trees.nodes left := rfl
      rw [List.map_append, List.sum_append, List.map_cons, List.sum_cons, hweight]
      omega
    · cases h
  · rw [turn] at h
    split at h
    · cases h
      have hweight : Step.weight trees (.prefixLength order) = 1 := rfl
      rw [List.map_cons, List.sum_cons, hweight]
      omega
    · cases h

def loop : Loop (List (Step T)) Ordering := ⟨trees.turn, _, trees.turn_lighter⟩

/-- The comparison of two trees with a work list. -/
def cmpIteratively (left right : T) : Ordering := trees.loop.run [.compare left right]

/-- A comparison by the nodes, then by the subtrees from left to right, then by their number. -/
def Derived (cmp : T → T → Ordering) : Prop :=
  ∀ a b, cmp a b =
    (trees.head a b).then (List.compareLex cmp (trees.children a) (trees.children b))

/-- What the comparisons owed come to. -/
def owed (cmp : T → T → Ordering) (work : List (Step T)) : Ordering :=
  work.foldr (fun step rest => (match step with
    | .compare left right => cmp left right
    | .prefixLength order => order).then rest) .eq

variable {trees}

/-- Items one by one, then their numbers, are compared as the lists are. -/
theorem foldr_then_length {I : Type} (cmp : I → I → Ordering) (xs ys : List I) :
    (xs.zip ys).foldr (fun pair rest => (cmp pair.1 pair.2).then rest)
      (compare xs.length ys.length) = List.compareLex cmp xs ys := by
  induction xs generalizing ys with
  | nil =>
    cases ys with
    | nil => rfl
    | cons y ys =>
      rw [List.zip_nil_left, List.foldr_nil]
      exact compare_lt_iff_lt.mpr (Nat.succ_pos _)
  | cons x xs ih =>
    cases ys with
    | nil =>
      rw [List.zip_nil_right, List.foldr_nil]
      exact compare_gt_iff_gt.mpr (Nat.succ_pos _)
    | cons y ys =>
      have hlength : compare (x :: xs).length (y :: ys).length =
          compare xs.length ys.length := by
        rw [List.length_cons, List.length_cons]
        rcases lt_trichotomy xs.length ys.length with h | h | h
        · rw [compare_lt_iff_lt.mpr h, compare_lt_iff_lt]
          omega
        · rw [h, compare_eq_iff_eq.mpr rfl, compare_eq_iff_eq.mpr rfl]
        · rw [compare_gt_iff_gt.mpr h, compare_gt_iff_gt]
          omega
      rw [List.zip_cons_cons, List.foldr_cons, hlength, ih, List.compareLex_cons_cons]

theorem foldr_then {I : Type} (f : I → Ordering) (xs : List I) (order : Ordering) :
    (xs.foldr (fun x rest => (f x).then rest) .eq).then order =
      xs.foldr (fun x rest => (f x).then rest) order := by
  induction xs with
  | nil => rfl
  | cons x xs ih => rw [List.foldr_cons, List.foldr_cons, Ordering.then_assoc, ih]

theorem owed_pending {cmp : T → T → Ordering} (left right : T) (work : List (Step T)) :
    owed cmp (trees.pending left right ++ work) =
      (List.compareLex cmp (trees.children left) (trees.children right)).then (owed cmp work) := by
  rw [← foldr_then_length, ← foldr_then, owed, pending, List.foldr_append, List.foldr_append,
    List.foldr_map, List.foldr_cons, List.foldr_nil, ← foldr_then, Ordering.then_assoc]
  rfl

/-- A work list comes to the comparisons that it owes. -/
theorem Derived.run_eq {cmp : T → T → Ordering} (h : trees.Derived cmp) (work : List (Step T)) :
    trees.loop.run work = owed cmp work := by
  refine (trees.loop.run_spec (Q := fun work order => order = owed cmp work) ?_ ?_ work)
  · intro work order hturn
    change trees.turn work = .inl order at hturn
    rcases work with _ | ⟨⟨left, right⟩ | length, work⟩
    · cases hturn
      rfl
    · rw [turn] at hturn
      split at hturn
      · cases hturn
      · rename_i hne
        cases hturn
        have hcmp := h left right
        cases hhead : trees.head left right with
        | eq => exact absurd hhead hne
        | lt => simp [owed, hcmp, hhead]
        | gt => simp [owed, hcmp, hhead]
    · rw [turn] at hturn
      split at hturn
      · cases hturn
      · cases hturn
        cases order with
        | eq => contradiction
        | lt => rfl
        | gt => rfl
  · intro work next order hturn hnext
    change trees.turn work = .inr next at hturn
    rcases work with _ | ⟨⟨left, right⟩ | length, work⟩
    · cases hturn
    · rw [turn] at hturn
      split at hturn
      · rename_i hhead
        cases hturn
        rw [hnext, owed_pending]
        change _ = (cmp left right).then (owed cmp work)
        rw [h left right, hhead, Ordering.eq_then]
      · cases hturn
    · rw [turn] at hturn
      split at hturn
      · rename_i hlength
        cases hturn
        rw [hnext, hlength]
        rfl
      · cases hturn

/-- The work list compares as the recursion does. -/
theorem Derived.cmpIteratively_eq {cmp : T → T → Ordering} (h : trees.Derived cmp) (a b : T) :
    trees.cmpIteratively a b = cmp a b := by
  have hrun := h.run_eq [.compare a b]
  rw [cmpIteratively, hrun]
  exact Ordering.then_eq

section Spelled

open Spelling

/-- The nodes are compared by a spelling that is found again in front of any tokens, and tells
together with the subtrees which tree it is. -/
structure Spelled (trees : TreeOrder T) (spellHead : T → List Token) : Prop where
  head_eq : ∀ a b, trees.head a b = compare (spellHead a) (spellHead b)
  read : ∀ {a b : T} {r s : List Token}, spellHead a ++ r = spellHead b ++ s →
    spellHead a = spellHead b ∧ r = s
  eq_of_children : ∀ {a b : T}, spellHead a = spellHead b →
    trees.children a = trees.children b → a = b

theorem nodes_lt {t c : T} (h : c ∈ trees.children t) : trees.nodes c < trees.nodes t :=
  (List.single_le_sum (fun _ _ => Nat.zero_le _) _ (List.mem_map_of_mem h)).trans_lt
    (trees.lighter t)

variable (trees) in
/-- Induction on a tree through its subtrees. -/
theorem induct {P : T → Prop} (node : ∀ t, (∀ c ∈ trees.children t, P c) → P t) (t : T) : P t :=
  node t fun c _ => induct node c
termination_by trees.nodes t
decreasing_by exact nodes_lt ‹_›

variable (trees) in
/-- A node's own spelling, then those of its subtrees. -/
def spelling (spellHead : T → List Token) (t : T) : List Token :=
  spellHead t ++ items (fun c : {c // c ∈ trees.children t} => spelling spellHead c.1)
    (trees.children t).attach
termination_by trees.nodes t
decreasing_by exact nodes_lt c.2

variable {spellHead : T → List Token}

theorem items_attach {I : Type} (spell : I → List Token) (xs : List I) (keep : I → Prop)
    (ys : List {x // keep x}) (h : ys.map Subtype.val = xs) :
    items (fun y => spell y.1) ys = items spell xs := by
  induction ys generalizing xs with
  | nil =>
    subst h
    rfl
  | cons y ys ih =>
    subst h
    rw [items, ih _ rfl]
    rfl

theorem spelling_eq (t : T) : trees.spelling spellHead t =
    spellHead t ++ items (trees.spelling spellHead) (trees.children t) := by
  rw [spelling, items_attach _ (trees.children t) _ _ (List.attach_map_subtype_val _)]

theorem Spelled.unique (h : trees.Spelled spellHead) (t : T) :
    Unique (trees.spelling spellHead) t := by
  induction t using trees.induct with
  | _ t ih =>
    constructor
    intro t' r s hread
    rw [spelling_eq, spelling_eq, List.append_assoc, List.append_assoc] at hread
    obtain ⟨hhead, hrest⟩ := h.read hread
    obtain ⟨hchildren, rfl⟩ := (Unique.items ih).read hrest
    exact ⟨h.eq_of_children hhead hchildren, rfl⟩

/-- The comparison of the spellings is the one by the nodes and the subtrees. -/
theorem Spelled.derived (h : trees.Spelled spellHead) :
    trees.Derived (compareBy (trees.spelling spellHead)) := by
  intro a b
  have hitems : compareBy (items (trees.spelling spellHead)) (trees.children a)
      (trees.children b) = _ := compareBy_items (fun t _ => h.unique t) _
  rw [h.head_eq, ← hitems, compareBy, spelling_eq, spelling_eq,
    compare_append_of_read fun r s hread => (h.read hread).1]
  rfl

/-- There is one comparison by the nodes and the subtrees. -/
theorem Derived.unique {cmp cmp' : T → T → Ordering} (h : trees.Derived cmp)
    (h' : trees.Derived cmp') : cmp = cmp' := by
  funext a b
  rw [← h.cmpIteratively_eq, h'.cmpIteratively_eq]

/-- It is a linear order. -/
theorem Derived.linear {cmp : T → T → Ordering} (h : trees.Derived cmp)
    (hspelled : trees.Spelled spellHead) : Std.TransCmp cmp ∧ Std.LawfulEqCmp cmp := by
  have heq : cmp = fun a b => @compare T (order hspelled.unique).toOrd a b := by
    rw [h.unique hspelled.derived]
    funext a b
    exact compareBy_eq_compare hspelled.unique a b
  let _ := order hspelled.unique
  rw [heq]
  exact ⟨inferInstanceAs (Std.TransCmp (compare : T → T → Ordering)),
    inferInstanceAs (Std.LawfulEqCmp (compare : T → T → Ordering))⟩

end Spelled

end TreeOrder

end KRust.Lib
