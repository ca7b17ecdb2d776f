import KRust.Lib.Partial
import KRust.Term.Chunks.Hash
import Mathlib.Algebra.Ring.BooleanRing

/-!
The summaries a node of the chunked sequence stores. An addition of machine
counts that overflows stops the run, so combining two summaries is partial; the
laws the traits document are stated on the values the summaries stand for.
-/

set_option linter.unusedSectionVars false

namespace KRust.Term.Chunks

open KRust.Lib KRust.Lib.Partial

def usizeMax : Nat := 2 ^ 64 - 1

def checkedAdd (left right : Nat) : Option Nat :=
  if left + right ≤ usizeMax then some (left + right) else none

def checkedSub (left right : Nat) : Option Nat :=
  if right ≤ left then some (left - right) else none

/-- The length of a vector, which is a `usize`. -/
def vecLen {α : Type} (xs : List α) : Option Nat := checkedAdd 0 xs.length

/-- `xs[start..stop]`, which stops outside the bounds. -/
def slice {α : Type} (xs : List α) (start stop : Nat) : Option (List α) :=
  if start ≤ stop ∧ stop ≤ xs.length then some ((xs.take stop).drop start) else none

/-- The trait `Summary`. -/
class Summary (S : Type) where
  identity : S
  combine : S → S → Option S
  /-- `CONSTANT`: every value is the identity. -/
  constant : Bool

/-- The trait `Group`. -/
class Group (G : Type) extends Summary G where
  subtract : G → G → Option G
  weight : G → Nat

/-- The trait `Item`, with its associated types. -/
class Item (I : Type) (K S G : outParam Type) where
  key : I → K
  hash64 : I → UInt64
  summary : I → S
  group : I → G

def foldGroups {G : Type} [Group G] (groups : List G) : Option G :=
  groups.foldlM Summary.combine Summary.identity

/-- What the trait documents: a monoid. `value` is what a summary says, equal
summaries saying the same; `Representable` holds of the values the machine can
hold, and a combination stops only where its value is not one of these. -/
class LawfulSummary (S : Type) (M : outParam Type) [AddMonoid M] [Summary S] where
  value : S → M
  Representable : M → Prop
  representable_value : ∀ s, Representable (value s)
  representable_drop : ∀ x y z, Representable (x + y + z) → Representable (x + z)
  value_identity : value Summary.identity = 0
  combine_yields : ∀ left right,
    Yields (Representable (value left + value right)) (Summary.combine left right)
      (fun result => value result = value left + value right)
  value_constant : Summary.constant S = true → ∀ s, value s = 0

/-- A commutative summary whose combination can be undone. -/
class LawfulGroup (G : Type) (A : outParam Type) [AddCancelCommMonoid A] [Group G]
    extends LawfulSummary G A where
  subtract_yields : ∀ (whole part : G) (rest : A), value whole = value part + rest →
    Yields True (Group.subtract whole part) (fun result => value result = rest)

/-! `impl Summary for ()` and `impl Group for ()`. -/

instance : Summary Unit where
  identity := ()
  combine _ _ := some ()
  constant := true

instance : Group Unit where
  subtract _ _ := some ()
  weight _ := 0

instance : LawfulSummary Unit Unit where
  value := id
  Representable _ := True
  representable_value _ := trivial
  representable_drop _ _ _ _ := trivial
  value_identity := rfl
  combine_yields _ _ := rfl
  value_constant _ _ := rfl

instance : LawfulGroup Unit Unit where
  subtract_yields _ _ _ _ := rfl

/-- Plain numbers, with no summary of their own. -/
instance : Item Nat Nat Unit Unit where
  key := id
  hash64 := UInt64.ofNat
  summary _ := ()
  group _ := ()

structure NodeSummary (I S G : Type) where
  count : Nat
  first : Option I
  last : Option I
  collision : Bool
  hash : SequenceHash
  extra : S
  group : G

section Definitions

variable {I K S G : Type} [Item I K S G] [LinearOrder K]

/-- Whether the junction of a run ending with `last` and one starting with
`first` puts two items of one key side by side. -/
def collides (last first : Option I) : Bool :=
  match last, first with
  | some last, some first => Item.key last == Item.key first
  | _, _ => false

/-- `windows(2).any(..)`. -/
def anyAdjacent {α : Type} (test : α → α → Bool) : List α → Bool
  | x :: y :: rest => test x y || anyAdjacent test (y :: rest)
  | _ => false

def hasCollision (items : List I) : Bool :=
  anyAdjacent (fun left right => collides (some left) (some right)) items

def hashOf (items : List I) : SequenceHash := SequenceHash.ofItems (items.map Item.hash64)

namespace NodeSummary

variable [Summary S] [Group G]

/-- `of_items_with`. -/
def ofItemsWith (items : List I) (group : G) : Option (NodeSummary I S G) := do
  let count ← vecLen items
  let extra ← items.foldlM (fun extra item => Summary.combine extra (Item.summary item))
    Summary.identity
  return {
    count, first := items.head?, last := items.getLast?, collision := hasCollision items,
    hash := hashOf items, extra, group }

def ofItems (items : List I) : Option (NodeSummary I S G) := do
  let group ← foldGroups (items.map Item.group)
  ofItemsWith items group

/-- `of_edited_items`: the summary of `items`, which are `old`'s with all but the
first `keptPrefix` and the last `keptSuffix` replaced. -/
def ofEditedItems (old : List I) (summary : NodeSummary I S G) (items : List I)
    (kept : Nat × Nat) (group : G) : Option (NodeSummary I S G) := do
  let (keptPrefix, keptSuffix) := kept
  let count ← vecLen items
  let oldEnd ← checkedSub old.length keptSuffix
  let removed ← slice old keptPrefix oldEnd
  let newEnd ← checkedSub items.length keptSuffix
  let added ← slice items keptPrefix newEnd
  if !Summary.constant S || summary.collision ||
      removed.length + added.length + min keptPrefix keptSuffix ≥ items.length then
    ofItemsWith items group
  else
    let removedHash := hashOf removed
    let addedHash := hashOf added
    let hash :=
      if keptPrefix ≤ keptSuffix then
        let head := hashOf (items.take keptPrefix)
        let tail := SequenceHash.ofValue
          (difference summary.hash.value
            (multiply (head.combine removedHash).value (power radix keptSuffix)))
          keptSuffix
        (head.combine addedHash).combine tail
      else
        let tail := hashOf (items.drop newEnd)
        let head := multiply
          (multiply (difference summary.hash.value (removedHash.combine tail).value)
            (power radix added.length))
          (power inverseRadix removed.length)
        { value := Chunks.add head (addedHash.combine tail).value,
          power := Chunks.power radix items.length }
    let junctions ← slice items (keptPrefix - 1) (min (newEnd + 1) items.length)
    return {
      count, first := items.head?, last := items.getLast?,
      collision := hasCollision junctions, hash, extra := Summary.identity, group }

/-- `of_children_with`, over the children's summaries. -/
def ofChildrenWith (children : List (NodeSummary I S G)) (group : G) :
    Option (NodeSummary I S G) := do
  let count ← children.foldlM (fun count child => checkedAdd count child.count) 0
  let extra ← children.foldlM (fun extra child => Summary.combine extra child.extra)
    Summary.identity
  return {
    count
    first := children.head?.bind (·.first)
    last := children.getLast?.bind (·.last)
    collision := children.any (·.collision) ||
      anyAdjacent (fun left right => collides left.last right.first) children
    hash := children.foldl (fun hash child => hash.combine child.hash) SequenceHash.empty
    extra, group }

def ofChildren (children : List (NodeSummary I S G)) : Option (NodeSummary I S G) := do
  let group ← foldGroups (children.map (·.group))
  ofChildrenWith children group

end NodeSummary

end Definitions

/-! What a summary says of items. -/

section Meaning

variable {I K S G M A : Type} [Item I K S G] [LinearOrder K] [Summary S] [Group G]
  [AddMonoid M] [AddCancelCommMonoid A] [LawfulSummary S M] [LawfulGroup G A]

def extraValue (items : List I) : M :=
  (items.map fun item => LawfulSummary.value (Item.summary item)).sum

def groupValue (items : List I) : A :=
  (items.map fun item => LawfulSummary.value (Item.group item)).sum

@[simp] theorem extraValue_nil : extraValue ([] : List I) = (0 : M) := rfl

@[simp] theorem groupValue_nil : groupValue ([] : List I) = (0 : A) := rfl

@[simp] theorem extraValue_append (xs ys : List I) :
    (extraValue (xs ++ ys) : M) = extraValue xs + extraValue ys := by
  simp [extraValue]

@[simp] theorem groupValue_append (xs ys : List I) :
    (groupValue (xs ++ ys) : A) = groupValue xs + groupValue ys := by
  simp [groupValue]

@[simp] theorem extraValue_cons (x : I) (xs : List I) :
    (extraValue (x :: xs) : M) = LawfulSummary.value (Item.summary x) + extraValue xs := by
  simp [extraValue]

@[simp] theorem groupValue_cons (x : I) (xs : List I) :
    (groupValue (x :: xs) : A) = LawfulSummary.value (Item.group x) + groupValue xs := by
  simp [groupValue]

theorem groupValue_perm {xs ys : List I} (h : xs.Perm ys) :
    (groupValue xs : A) = groupValue ys :=
  (h.map _).sum_eq

/-- The counts of the items are machine numbers. -/
structure Fits (items : List I) : Prop where
  count : items.length ≤ usizeMax
  extra : LawfulSummary.Representable S (extraValue items : M)
  group : LawfulSummary.Representable G (groupValue items : A)

theorem Fits.drop_mid {xs ys zs : List I} (h : Fits (xs ++ ys ++ zs)) : Fits (xs ++ zs) where
  count := by
    have := h.count
    simp only [List.length_append] at *
    omega
  extra := by
    have := h.extra
    simp only [extraValue_append] at *
    exact LawfulSummary.representable_drop _ _ _ this
  group := by
    have := h.group
    simp only [groupValue_append] at *
    exact LawfulSummary.representable_drop _ _ _ this

theorem Fits.left {xs ys : List I} (h : Fits (xs ++ ys)) : Fits xs := by
  rw [← List.append_nil (xs ++ ys)] at h
  simpa using h.drop_mid

theorem Fits.right {xs ys : List I} (h : Fits (xs ++ ys)) : Fits ys := by
  rw [← List.nil_append (xs ++ ys), ← List.append_assoc] at h
  simpa using h.drop_mid

/-- A node summary is the one computed from scratch over `items`. -/
structure Summarizes (summary : NodeSummary I S G) (items : List I) : Prop where
  count : summary.count = items.length
  count_le : items.length ≤ usizeMax
  first : summary.first = items.head?
  last : summary.last = items.getLast?
  collision : summary.collision = hasCollision items
  hash : summary.hash = hashOf items
  extra : LawfulSummary.value summary.extra = (extraValue items : M)
  group : LawfulSummary.value summary.group = (groupValue items : A)

theorem Summarizes.fits {summary : NodeSummary I S G} {items : List I}
    (h : Summarizes summary items) : Fits items where
  count := h.count_le
  extra := h.extra ▸ LawfulSummary.representable_value _
  group := h.group ▸ LawfulSummary.representable_value _

/-! The code's own computations of a summary give the one from scratch. -/

theorem checkedAdd_yields (left right : Nat) :
    Yields (left + right ≤ usizeMax) (checkedAdd left right)
      (fun sum => sum = left + right ∧ left + right ≤ usizeMax) := by
  unfold checkedAdd
  split
  · next h => exact ⟨rfl, h⟩
  · assumption

theorem vecLen_yields {α : Type} (xs : List α) :
    Yields (xs.length ≤ usizeMax) (vecLen xs)
      (fun count => count = xs.length ∧ xs.length ≤ usizeMax) := by
  have h := checkedAdd_yields 0 xs.length
  simp only [zero_add] at h
  exact h

theorem checkedSub_of_le {left right : Nat} (h : right ≤ left) :
    checkedSub left right = some (left - right) := if_pos h

theorem slice_append {α : Type} (xs ys zs : List α) :
    slice (xs ++ ys ++ zs) xs.length (xs.length + ys.length) = some ys := by
  unfold slice
  rw [if_pos (by simp), List.take_append_of_le_length (by simp),
    List.take_of_length_le (by simp), List.drop_left]

theorem anyAdjacent_append {α : Type} (test : α → α → Bool) (xs ys : List α) :
    anyAdjacent test (xs ++ ys) =
      (anyAdjacent test xs || anyAdjacent test ys ||
        match xs.getLast?, ys.head? with
        | some x, some y => test x y
        | _, _ => false) := by
  induction xs with
  | nil => simp [anyAdjacent]
  | cons x xs ih =>
    cases xs with
    | nil => cases ys <;> simp [anyAdjacent, Bool.or_comm]
    | cons x' xs =>
      simp only [List.cons_append, anyAdjacent] at ih ⊢
      rw [ih]
      simp [Bool.or_assoc]

theorem hasCollision_append (xs ys : List I) :
    hasCollision (xs ++ ys) =
      (hasCollision xs || hasCollision ys || collides xs.getLast? ys.head?) := by
  rw [hasCollision, anyAdjacent_append]
  cases xs.getLast? <;> cases ys.head? <;> rfl

theorem hashOf_append (xs ys : List I) :
    hashOf (xs ++ ys) = (hashOf xs).combine (hashOf ys) := by
  simp [hashOf, SequenceHash.ofItems_append]

/-- Folding the items' own summaries. -/
theorem foldExtra_yields (items : List I) :
    Yields (LawfulSummary.Representable S (extraValue items : M))
      (items.foldlM (fun extra item => Summary.combine extra (Item.summary item))
        Summary.identity)
      (fun extra => LawfulSummary.value extra = (extraValue items : M)) := by
  refine yields_foldlM
    (fun seen (extra : S) => LawfulSummary.value extra = (extraValue seen : M)) ?_ ?_
  · exact LawfulSummary.value_identity
  · intro seen x rest acc hitems hacc
    refine (LawfulSummary.combine_yields acc (Item.summary x)).mono ?_ ?_
    · intro hrep
      have hdrop := LawfulSummary.representable_drop (S := S)
        (LawfulSummary.value acc + LawfulSummary.value (Item.summary x)) (extraValue rest) 0
      rw [add_zero, add_zero] at hdrop
      apply hdrop
      rw [hitems] at hrep
      simpa [hacc, add_assoc] using hrep
    · intro result hresult
      simp [hresult, hacc]

end Meaning

end KRust.Term.Chunks
