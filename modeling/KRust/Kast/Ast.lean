import Mathlib.Data.List.Basic
import Mathlib.Algebra.GroupWithZero.Nat

/-!
K terms: sorts and labels with sort parameters, and the tree of rewrites, aliases,
sequences, applications, variables and tokens. What an annotation records is left open.
-/

set_option linter.unusedSectionVars false

namespace KRust.Kast

/-- `Sort`: a name applied to sort parameters. -/
inductive KSort where
  | mk (name : String) (parameters : List KSort)

namespace KSort

def name : KSort → String
  | .mk name _ => name

def parameters : KSort → List KSort
  | .mk _ parameters => parameters

@[simp] theorem name_mk (name : String) (parameters : List KSort) :
    (KSort.mk name parameters).name = name := rfl

@[simp] theorem parameters_mk (name : String) (parameters : List KSort) :
    (KSort.mk name parameters).parameters = parameters := rfl

@[elab_as_elim, induction_eliminator]
theorem induct {P : KSort → Prop}
    (mk : ∀ name parameters, (∀ s ∈ parameters, P s) → P (.mk name parameters)) : ∀ s, P s
  | .mk name parameters => mk name parameters fun s _ => induct mk s

mutual

def decEq : (s t : KSort) → Decidable (s = t)
  | .mk n ps, .mk m qs =>
    @decidable_of_iff _ (n = m ∧ ps = qs) (by simp)
      (@instDecidableAnd _ _ inferInstance (decEqList ps qs))

def decEqList : (ps qs : List KSort) → Decidable (ps = qs)
  | [], [] => .isTrue rfl
  | [], _ :: _ => .isFalse (by simp)
  | _ :: _, [] => .isFalse (by simp)
  | p :: ps, q :: qs =>
    @decidable_of_iff _ (p = q ∧ ps = qs) (by simp)
      (@instDecidableAnd _ _ (decEq p q) (decEqList ps qs))

end

instance : DecidableEq KSort := decEq

mutual

/-- The names of a sort. -/
def size : KSort → Nat
  | .mk _ parameters => 1 + sizeList parameters

def sizeList : List KSort → Nat
  | [] => 0
  | s :: sorts => size s + sizeList sorts

end

theorem sizeList_eq (sorts : List KSort) : sizeList sorts = (sorts.map size).sum := by
  induction sorts with
  | nil => rfl
  | cons s sorts ih => rw [sizeList, ih, List.map_cons, List.sum_cons]

end KSort

/-- How a name spells a natural number in decimal; the canonical spelling has no leading
zeros. -/
inductive NumeralSpelling where
  | canonical
  | nonCanonical (canonical : List Char)
  | notNumeral
  deriving DecidableEq

/-- The digits without the zeros before them, the last digit apart. -/
def withoutLeadingZeros : List Char → List Char
  | '0' :: c :: rest => withoutLeadingZeros (c :: rest)
  | digits => digits

def numeralSpelling (name : List Char) : NumeralSpelling :=
  if name.isEmpty || !name.all Char.isDigit then .notNumeral
  else if name.length = 1 || name.head? ≠ some '0' then .canonical
  else .nonCanonical (withoutLeadingZeros name)

structure Label where
  name : String
  parameters : List KSort
  deriving DecidableEq

/-- `Term`, where `μ` is what an annotation records. -/
inductive Term (μ : Type) where
  | injectedLabel (label : Label)
  | rewrite (left right : Term μ)
  | as (pattern aliased : Term μ)
  | var (name : String) (sort : Option KSort)
  | sequence (items : List (Term μ))
  | apply (label : Label) (arguments : List (Term μ))
  | token (token : String) (sort : KSort)
  | annotated (term : Term μ) (metadata : μ)

namespace Term

variable {μ : Type}

@[elab_as_elim, induction_eliminator]
theorem induct {P : Term μ → Prop} (injectedLabel : ∀ label, P (.injectedLabel label))
    (rewrite : ∀ left right, P left → P right → P (.rewrite left right))
    (as : ∀ pattern aliased, P pattern → P aliased → P (.as pattern aliased))
    (var : ∀ name sort, P (.var name sort))
    (sequence : ∀ items, (∀ t ∈ items, P t) → P (.sequence items))
    (apply : ∀ label arguments, (∀ t ∈ arguments, P t) → P (.apply label arguments))
    (token : ∀ token sort, P (.token token sort))
    (annotated : ∀ term metadata, P term → P (.annotated term metadata)) : ∀ t, P t
  | .injectedLabel label => injectedLabel label
  | .rewrite left right =>
    rewrite left right (induct injectedLabel rewrite as var sequence apply token annotated left)
      (induct injectedLabel rewrite as var sequence apply token annotated right)
  | .as pattern aliased =>
    as pattern aliased (induct injectedLabel rewrite as var sequence apply token annotated pattern)
      (induct injectedLabel rewrite as var sequence apply token annotated aliased)
  | .var name sort => var name sort
  | .sequence items => sequence items fun t _ =>
    induct injectedLabel rewrite as var sequence apply token annotated t
  | .apply label arguments => apply label arguments fun t _ =>
    induct injectedLabel rewrite as var sequence apply token annotated t
  | .token text sort => token text sort
  | .annotated term metadata => annotated term metadata
    (induct injectedLabel rewrite as var sequence apply token annotated term)

/-- The term with the annotations at its root removed. -/
def unannotated : Term μ → Term μ
  | .annotated term _ => unannotated term
  | t => t

/-- The children of a term in step order, each as stored. -/
def children (t : Term μ) : List (Term μ) :=
  match t.unannotated with
  | .rewrite left right => [left, right]
  | .as pattern aliased => [pattern, aliased]
  | .sequence items | .apply _ items => items
  | .injectedLabel _ | .var _ _ | .token _ _ | .annotated _ _ => []

mutual

/-- The term without its annotations. -/
def strip : Term μ → Term μ
  | .injectedLabel label => .injectedLabel label
  | .rewrite left right => .rewrite (strip left) (strip right)
  | .as pattern aliased => .as (strip pattern) (strip aliased)
  | .var name sort => .var name sort
  | .sequence items => .sequence (stripList items)
  | .apply label arguments => .apply label (stripList arguments)
  | .token text sort => .token text sort
  | .annotated term _ => strip term

def stripList : List (Term μ) → List (Term μ)
  | [] => []
  | t :: ts => strip t :: stripList ts

end

@[simp] theorem stripList_eq (ts : List (Term μ)) : stripList ts = ts.map strip := by
  induction ts with
  | nil => rfl
  | cons t ts ih => rw [stripList, ih, List.map_cons]

mutual

/-- The nodes of a term. -/
def size : Term μ → Nat
  | .injectedLabel _ | .var _ _ | .token _ _ => 1
  | .rewrite left right | .as left right => 1 + size left + size right
  | .sequence items | .apply _ items => 1 + sizeList items
  | .annotated term _ => 1 + size term

def sizeList : List (Term μ) → Nat
  | [] => 0
  | t :: ts => size t + sizeList ts

end

theorem sizeList_eq (ts : List (Term μ)) : sizeList ts = (ts.map size).sum := by
  induction ts with
  | nil => rfl
  | cons t ts ih => rw [sizeList, ih, List.map_cons, List.sum_cons]

theorem unannotated_idem (t : Term μ) : t.unannotated.unannotated = t.unannotated := by
  induction t with
  | annotated term metadata ih => exact ih
  | _ => rfl

/-- What is left at the root is no annotation. -/
theorem unannotated_ne (t term : Term μ) (metadata : μ) :
    t.unannotated ≠ .annotated term metadata := by
  induction t with
  | annotated _ _ ih => exact ih
  | _ => exact nofun

theorem strip_unannotated (t : Term μ) : t.unannotated.strip = t.strip := by
  induction t with
  | annotated term metadata ih =>
    rw [strip]
    exact ih
  | _ => rfl

theorem size_unannotated (t : Term μ) : t.unannotated.size ≤ t.size := by
  induction t with
  | annotated term metadata ih =>
    rw [size]
    exact Nat.le_trans ih (Nat.le_add_left _ _)
  | _ => exact Nat.le_refl _

theorem sum_children_lt (t : Term μ) : (t.children.map size).sum < t.size := by
  have hroot := t.size_unannotated
  have hsum : (t.children.map size).sum < t.unannotated.size := by
    unfold children
    cases hroot : t.unannotated with
    | annotated term metadata => exact absurd hroot (t.unannotated_ne _ _)
    | _ => simp [size, sizeList_eq]
  omega

end Term

end KRust.Kast
