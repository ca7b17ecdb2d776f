import KRust.Term.Chunks.Summary

/-!
The summaries an item type composes its own from: counts of items failing named flags, a
saturating count, a disjunction and the one value all items share.
-/

namespace KRust.Term.Chunks

open KRust.Lib KRust.Lib.Partial

/-- `Failing`: for each flag the number of items that fail it. -/
@[ext] structure Failing (F : Type) where
  failing : F → Nat
  le : ∀ f, failing f ≤ usizeMax

namespace Failing

variable {F : Type}

def of (holds : F → Bool) : Failing F where
  failing f := if holds f then 0 else 1
  le f := by
    split <;> simp [usizeMax]

def holds (summary : Failing F) (f : F) : Bool := summary.failing f = 0

instance [Fintype F] : Summary (Failing F) where
  identity := ⟨fun _ => 0, fun _ => Nat.zero_le _⟩
  combine left right :=
    if h : ∀ f, left.failing f + right.failing f ≤ usizeMax then
      some ⟨fun f => left.failing f + right.failing f, h⟩
    else none
  constant := false

instance [Fintype F] : LawfulSummary (Failing F) (F → Nat) where
  value := failing
  Representable counts := ∀ f, counts f ≤ usizeMax
  representable_value := le
  representable_drop x y z h f := by
    have hf := h f
    simp only [Pi.add_apply] at hf ⊢
    omega
  value_identity := rfl
  combine_yields left right := by
    simp only [Summary.combine]
    split
    · rfl
    · assumption
  value_constant h := absurd h (by simp [Summary.constant])

end Failing

/-- `Count`: the number of items that count. -/
@[ext] structure Count where
  count : Nat
  le : count ≤ usizeMax

namespace Count

def of (counts : Bool) : Count where
  count := if counts then 1 else 0
  le := by
    split <;> simp [usizeMax]

instance : Summary Count where
  identity := ⟨0, Nat.zero_le _⟩
  combine left right :=
    if h : left.count + right.count ≤ usizeMax then some ⟨left.count + right.count, h⟩ else none
  constant := false

instance : LawfulSummary Count Nat where
  value := count
  Representable count := count ≤ usizeMax
  representable_value := le
  representable_drop x y z h := by omega
  value_identity := rfl
  combine_yields left right := by
    simp only [Summary.combine]
    split
    · rfl
    · assumption
  value_constant h := absurd h (by simp [Summary.constant])

end Count

/-- `Saturating`: a count that stops at `cap`. -/
@[ext] structure Saturating (cap : Nat) where
  count : Nat
  le : count ≤ cap
  deriving DecidableEq

namespace Saturating

variable {cap : Nat}

def of (count : Nat) : Saturating cap := ⟨min count cap, Nat.min_le_right _ _⟩

instance : Zero (Saturating cap) := ⟨0, Nat.zero_le _⟩

instance : Add (Saturating cap) := ⟨fun left right => of (left.count + right.count)⟩

instance : AddMonoid (Saturating cap) where
  zero_add x := Saturating.ext (by
    have := x.le
    show min (0 + x.count) cap = x.count
    omega)
  add_zero x := Saturating.ext (by
    have := x.le
    show min (x.count + 0) cap = x.count
    omega)
  add_assoc x y z := Saturating.ext (by
    show min (min (x.count + y.count) cap + z.count) cap =
      min (x.count + min (y.count + z.count) cap) cap
    omega)
  nsmul := nsmulRec

theorem count_add (x y : Saturating cap) : (x + y).count = min (x.count + y.count) cap := rfl

theorem count_zero : (0 : Saturating cap).count = 0 := rfl

/-- A sum of saturated counts is the saturated sum. -/
theorem count_sum {α : Type} (counts : α → Nat) (xs : List α) :
    (xs.map fun x => (of (counts x) : Saturating cap)).sum.count =
      min (xs.map counts).sum cap := by
  induction xs with
  | nil => simp [count_zero]
  | cons x xs ih =>
    rw [List.map_cons, List.sum_cons, count_add, ih, List.map_cons, List.sum_cons]
    simp only [of]
    omega

instance : Summary (Saturating cap) where
  identity := 0
  combine left right := some (left + right)
  constant := false

instance : LawfulSummary (Saturating cap) (Saturating cap) where
  value := id
  Representable _ := True
  representable_value _ := trivial
  representable_drop _ _ _ _ := trivial
  value_identity := rfl
  combine_yields _ _ := rfl
  value_constant h := absurd h (by simp [Summary.constant])

end Saturating

/-- `Any`: whether some item has a property. -/
@[ext] structure Any where
  any : Bool
  deriving DecidableEq

namespace Any

instance : Zero Any := ⟨⟨false⟩⟩

instance : Add Any := ⟨fun left right => ⟨left.any || right.any⟩⟩

instance : AddMonoid Any where
  zero_add _ := rfl
  add_zero x := Any.ext (Bool.or_false x.any)
  add_assoc x y z := Any.ext (Bool.or_assoc x.any y.any z.any)
  nsmul := nsmulRec

theorem any_sum {α : Type} (holds : α → Bool) (xs : List α) :
    (xs.map fun x => (⟨holds x⟩ : Any)).sum.any = xs.any holds := by
  induction xs with
  | nil => rfl
  | cons x xs ih =>
    rw [List.map_cons, List.sum_cons, List.any_cons, ← ih]
    rfl

instance : Summary Any where
  identity := 0
  combine left right := some (left + right)
  constant := false

instance : LawfulSummary Any Any where
  value := id
  Representable _ := True
  representable_value _ := trivial
  representable_drop _ _ _ _ := trivial
  value_identity := rfl
  combine_yields _ _ := rfl
  value_constant h := absurd h (by simp [Summary.constant])

end Any

/-- `Uniform`: the value every item has, when they all have the same one. -/
inductive Uniform (T : Type) where
  | empty
  | one (value : T)
  | mixed

namespace Uniform

variable {T V : Type}

def combine (same : T → T → Bool) : Uniform T → Uniform T → Uniform T
  | .empty, right => right
  | left, .empty => left
  | .one left, .one right => if same left right then .one left else .mixed
  | _, _ => .mixed

def map (f : T → V) : Uniform T → Uniform V
  | .empty => .empty
  | .one value => .one (f value)
  | .mixed => .mixed

variable [DecidableEq V]

instance : Zero (Uniform V) := ⟨.empty⟩

instance : Add (Uniform V) := ⟨combine fun left right => decide (left = right)⟩

instance : AddMonoid (Uniform V) where
  zero_add x := by cases x <;> rfl
  add_zero x := by cases x <;> rfl
  add_assoc x y z := by
    show combine _ (combine _ x y) z = combine _ x (combine _ y z)
    cases x <;> cases y <;> cases z <;> simp only [combine] <;> grind [combine]
  nsmul := nsmulRec

theorem add_def (x y : Uniform V) :
    x + y = combine (fun left right => decide (left = right)) x y := rfl

/-- Values compared by what they say of themselves. -/
theorem map_combine {same : T → T → Bool} {f : T → V}
    (hsame : ∀ left right, same left right = true ↔ f left = f right) (x y : Uniform T) :
    (combine same x y).map f = x.map f + y.map f := by
  rw [add_def]
  cases x <;> cases y <;> simp only [combine, map]
  rename_i left right
  by_cases h : f left = f right
  · rw [if_pos ((hsame _ _).mpr h), if_pos (decide_eq_true h)]
  · rw [if_neg (fun heq => h ((hsame _ _).mp heq)), if_neg (by simpa using h)]

/-- All items have one value, when there is one. -/
theorem sum_eq_one {α : Type} (f : α → V) (x : α) (xs : List α) :
    ((x :: xs).map fun y => (Uniform.one (f y))).sum =
      if ∀ y ∈ xs, f y = f x then .one (f x) else .mixed := by
  have hmixed : ∀ ys : List α, (.mixed : Uniform V) + (ys.map fun y => .one (f y)).sum =
      .mixed := by
    intro ys
    generalize (ys.map fun y => Uniform.one (f y)).sum = rest
    cases rest <;> rfl
  induction xs generalizing x with
  | nil => simp
  | cons y ys ih =>
    rw [List.map_cons, List.sum_cons, ih y]
    by_cases hy : f y = f x
    · by_cases hall : ∀ z ∈ ys, f z = f y
      · rw [if_pos hall, if_pos (by simpa [hy] using hall), add_def]
        simp [combine, hy]
      · rw [if_neg hall, if_neg (by simpa [hy] using hall)]
        rfl
    · have hsome : ¬ ∀ z ∈ y :: ys, f z = f x := fun h => hy (h y List.mem_cons_self)
      rw [if_neg hsome]
      split
      · simp [add_def, combine, Ne.symm hy]
      · rfl

end Uniform

end KRust.Term.Chunks
