import KRust.Term.Chunks.CompareLaws
import KRust.Term.Chunks.Lookup
import KRust.Term.Chunks.MultisetLaws
import Mathlib.Data.Finset.Sort

/-!
The set of variables of `variables.rs`: nothing, a slice or a tree, as its size says. Whether two
sets are one handle is asked of `shares`, the answers of `Arc::ptr_eq`; all that is known of it is
that one handle is one set.
-/

set_option linter.unusedSectionVars false

namespace KRust.Term.Chunks

open KRust.Lib KRust.Lib.Partial

/-- `Variables`, as its backing. -/
inductive Variables (E : Type) (B : Branching) where
  | empty
  | slice (elements : List E)
  | tree (entries : Chunked (Occurrences E) Unit Unit B)

variable {E : Type} [LinearOrder E] {B : Branching}

namespace Variables

section Lists

/-- `Vec::dedup` -/
def dedup : List E → List E
  | [] => []
  | [v] => [v]
  | v :: w :: rest => if v = w then dedup (w :: rest) else v :: dedup (w :: rest)

theorem mem_dedup {v : E} (vs : List E) : v ∈ dedup vs ↔ v ∈ vs := by
  induction vs using dedup.induct with
  | case1 => rfl
  | case2 w => rfl
  | case3 w rest ih =>
    rw [dedup, if_pos rfl, ih]
    simp only [List.mem_cons, or_self_left]
  | case4 w u rest hne ih =>
    simp only [dedup, if_neg hne, List.mem_cons, ih]

theorem dedup_ordered {vs : List E} (hsorted : vs.Pairwise (· ≤ ·)) :
    (dedup vs).Pairwise (· < ·) := by
  induction vs using dedup.induct with
  | case1 => exact List.Pairwise.nil
  | case2 w => exact List.pairwise_singleton _ _
  | case3 w rest ih =>
    rw [dedup, if_pos rfl]
    exact ih (List.pairwise_cons.mp hsorted).2
  | case4 w u rest hne ih =>
    obtain ⟨hhead, htail⟩ := List.pairwise_cons.mp hsorted
    rw [dedup, if_neg hne, List.pairwise_cons]
    refine ⟨fun x hx => ?_, ih htail⟩
    have hwu : w < u := lt_of_le_of_ne (hhead u List.mem_cons_self) hne
    rcases List.mem_cons.mp ((mem_dedup _).mp hx) with rfl | hx
    · exact hwu
    · exact hwu.trans_le ((List.pairwise_cons.mp htail).1 x hx)

/-- `merge` of two ordered sequences with no element in common. -/
def merge (left : List E) : List E → List E
  | [] => left
  | v :: right =>
    left.takeWhile (fun next => decide (next < v)) ++
      v :: merge (left.dropWhile fun next => decide (next < v)) right

theorem merge_perm (left right : List E) : (merge left right).Perm (left ++ right) := by
  induction right generalizing left with
  | nil => rw [merge, List.append_nil]
  | cons v right ih =>
    have hsplit : left.takeWhile (fun next => decide (next < v)) ++
        left.dropWhile (fun next => decide (next < v)) = left := List.takeWhile_append_dropWhile
    rw [merge]
    refine (((ih _).cons v).append_left _).trans ?_
    refine (List.perm_middle.symm.append_left _).trans ?_
    rw [← List.append_assoc, hsplit]

theorem merge_ordered {left right : List E} (hleft : left.Pairwise (· < ·))
    (hright : right.Pairwise (· < ·)) (hdisjoint : ∀ v ∈ right, v ∉ left) :
    (merge left right).Pairwise (· < ·) := by
  induction right generalizing left with
  | nil => exact hleft
  | cons v right ih =>
    have hsplit : left.takeWhile (fun next => decide (next < v)) ++
        left.dropWhile (fun next => decide (next < v)) = left := List.takeWhile_append_dropWhile
    have hbelow : ∀ x ∈ left.takeWhile (fun next => decide (next < v)), x < v :=
      fun x hx => by simpa using List.mem_takeWhile_imp hx
    have hhead := List.head?_dropWhile_not (fun next => decide (next < v)) left
    obtain ⟨hv, hright⟩ := List.pairwise_cons.mp hright
    have hvLeft := hdisjoint v List.mem_cons_self
    have hrestDisjoint : ∀ w ∈ right, w ∉ left.dropWhile fun next => decide (next < v) :=
      fun w hw hmem => hdisjoint w (List.mem_cons_of_mem _ hw)
        ((List.dropWhile_sublist _).mem hmem)
    rw [merge]
    rw [← hsplit] at hleft hvLeft
    generalize left.takeWhile (fun next => decide (next < v)) = low at *
    generalize left.dropWhile (fun next => decide (next < v)) = high at *
    obtain ⟨hlow, hhigh, hcross⟩ := List.pairwise_append.mp hleft
    have habove : ∀ x ∈ high, v < x := by
      intro x hx
      cases high with
      | nil => cases hx
      | cons y high =>
        have hy : v < y := by
          have hle : v ≤ y := by simpa using hhead
          exact lt_of_le_of_ne hle fun heq => hvLeft (by simp [heq])
        rcases List.mem_cons.mp hx with rfl | hx
        · exact hy
        · exact hy.trans (List.rel_of_pairwise_cons hhigh hx)
    have hmem : ∀ x ∈ merge high right, v < x := by
      intro x hx
      rcases List.mem_append.mp ((merge_perm high right).mem_iff.mp hx) with hx | hx
      · exact habove x hx
      · exact hv x hx
    refine List.pairwise_append.mpr ⟨hlow, List.pairwise_cons.mpr
      ⟨hmem, ih hhigh hright hrestDisjoint⟩, fun x hx y hy => ?_⟩
    have hxv := hbelow x hx
    rcases List.mem_cons.mp hy with rfl | hy
    · exact hxv
    · exact hxv.trans (hmem y hy)

end Lists

section Definitions

variable [FxHash E]

def singleton (v : E) : Variables E B := .slice [v]

/-- `of_ordered` -/
def ofOrdered (vs : List E) : Option (Variables E B) :=
  if vs.isEmpty then some .empty
  else if vs.length ≤ B.factor then some (.slice vs)
  else do return .tree (← fromVec B (vs.map fun element => ⟨element, 1⟩))

/-- `Variables::of` -/
def of (vs : List E) : Option (Variables E B) :=
  ofOrdered (dedup (vs.mergeSort fun v w => decide (v ≤ w)))

/-- `of_multiset`: the support. -/
def ofMultiset (multiset : Multiset E B) : Option (Variables E B) :=
  if multiset.len ≤ B.factor then do
    ofOrdered ((← toVec multiset.entries).map Occurrences.element)
  else some (.tree multiset.entries)

def len : Variables E B → Nat
  | .empty => 0
  | .slice vs => vs.length
  | .tree entries => entries.len

def isEmpty : Variables E B → Bool
  | .empty => true
  | _ => false

/-- What `iter` yields. -/
def iter : Variables E B → Option (List E)
  | .empty => some []
  | .slice vs => some vs
  | .tree entries => do return (← toVec entries).map Occurrences.element

theorem lawfulBEq (E : Type) [LinearOrder E] : LawfulBEq E := inferInstance

attribute [local instance] lawfulBEq in
/-- `contains`, where `binary_search` finds the elements of an ordered slice. -/
def contains (vs : Variables E B) (v : E) : Option Bool :=
  match vs with
  | .empty => some false
  | .slice vs => some (decide (v ∈ vs))
  | .tree entries => do return (← search entries v).isOk

/-- `Union`: the first largest operand, and the variables of the others. -/
structure Union (E : Type) (B : Branching) where
  largest : Option (Variables E B)
  others : List E

namespace Union

def new : Union E B := ⟨none, []⟩

def add (shares : Variables E B → Variables E B → Bool) (union : Union E B)
    (operand : Variables E B) : Option (Union E B) :=
  if operand.isEmpty then some union
  else
    match union.largest with
    | none => some { union with largest := some operand }
    | some largest =>
      if shares largest operand then some union
      else if operand.len > largest.len then do
        return ⟨some operand, union.others ++ (← largest.iter)⟩
      else do return { union with others := union.others ++ (← operand.iter) }

/-- `add_variables` -/
def addAll (union : Union E B) (vs : List E) : Union E B :=
  { union with others := union.others ++ vs }

/-- `others.retain`: the variables that the largest operand lacks. -/
def retain (largest : Variables E B) : List E → Option (List E)
  | [] => some []
  | v :: others => do
    if ← largest.contains v then retain largest others
    else return v :: (← retain largest others)

/-- `finish`, whose batch merges no variable with one that the tree has. -/
def finish (union : Union E B) : Option (Variables E B) :=
  match union.largest with
  | none => of union.others
  | some largest => do
    let others ← retain largest union.others
    if others.isEmpty then return largest
    else
      let others := dedup (others.mergeSort fun v w => decide (v ≤ w))
      match largest with
      | .tree entries =>
        return .tree (← addByKey entries (others.map fun element => ⟨element, 1⟩) fun _ _ => none)
      | largest => ofOrdered (merge (← largest.iter) others)

end Union

/-- `Variables::insert`; the new union asks nothing of `shares`. -/
def insert (vs : Variables E B) (v : E) : Option (Variables E B) := do
  let union ← Union.new.add (fun _ _ => false) vs
  (union.addAll [v]).finish

/-- `union_all`; `shares` is asked for each operand. -/
def unionAll (shares : Nat → Variables E B → Variables E B → Bool)
    (operands : List (Variables E B)) : Option (Variables E B) := do
  let union ← operands.zipIdx.foldlM (fun (union : Union E B) entry =>
    union.add (shares entry.2) entry.1) Union.new
  union.finish

/-- `Variables::union` -/
def union (shares : Nat → Variables E B → Variables E B → Bool) (left right : Variables E B) :
    Option (Variables E B) := unionAll shares [left, right]

/-- `PartialEq::eq`, whose walk of two trees compares the elements only. -/
def eq (slices : List E → List E → Bool)
    (nodes : Nat → Node (Occurrences E) Unit Unit → Node (Occurrences E) Unit Unit → Bool) :
    Variables E B → Variables E B → Option Bool
  | .empty, .empty => some true
  | .slice left, .slice right => some (slices left right || decide (left = right))
  | .tree left, .tree right =>
    Chunked.eqBy nodes (fun l r => decide (l.element = r.element)) left right
  | _, _ => some false

end Definitions

end Variables

end KRust.Term.Chunks
