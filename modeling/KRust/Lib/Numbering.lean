import Mathlib.Data.List.Basic

/-!
Trees numbered so that equal trees get one number: a tree is known by its head and the numbers
of its children, and each such key gets the next number when it is first seen.
-/

namespace KRust.Lib

/-- Finite trees of heads. -/
inductive Rose (H : Type) where
  | node (head : H) (children : List (Rose H))

variable {H : Type}

@[elab_as_elim]
theorem Rose.induct {P : Rose H → Prop}
    (node : ∀ head children, (∀ t ∈ children, P t) → P (.node head children)) : ∀ t, P t
  | .node head children => node head children fun t _ => induct node t

/-- The number of each key, the latest first. -/
structure Numbering (H : Type) where
  entries : List ((H × List Nat) × Nat)

namespace Numbering

variable [DecidableEq H]

def empty : Numbering H := ⟨[]⟩

def get (keys : Numbering H) (key : H × List Nat) : Option Nat := keys.entries.lookup key

/-- The number of a key, which is the next one for a new key. -/
def entry (keys : Numbering H) (key : H × List Nat) : Nat × Numbering H :=
  match keys.get key with
  | some n => (n, keys)
  | none => (keys.entries.length, ⟨(key, keys.entries.length) :: keys.entries⟩)

mutual

/-- The number of a tree whose keys were all seen. -/
def number (keys : Numbering H) : Rose H → Option Nat
  | .node head children => do keys.get (head, ← numberAll keys children)

def numberAll (keys : Numbering H) : List (Rose H) → Option (List Nat)
  | [] => some []
  | t :: ts => do return (← number keys t) :: (← numberAll keys ts)

end

/-- Numbers are given in turn, so no two keys share one. -/
structure Valid (keys : Numbering H) : Prop where
  below : ∀ key n, keys.get key = some n → n < keys.entries.length
  inj : ∀ key key' n, keys.get key = some n → keys.get key' = some n → key = key'

/-- Numbers that were given stay. -/
def Extends (keys new : Numbering H) : Prop := ∀ key n, keys.get key = some n → new.get key = some n

variable {keys new later : Numbering H}

theorem Extends.refl (keys : Numbering H) : keys.Extends keys := fun _ _ h => h

theorem Extends.trans (h : keys.Extends new) (h' : new.Extends later) : keys.Extends later :=
  fun key n hn => h' key n (h key n hn)

theorem valid_empty : (empty : Numbering H).Valid :=
  ⟨by rintro _ _ ⟨⟩, by rintro _ _ _ ⟨⟩⟩

@[simp] theorem get_nil (key : H × List Nat) : get ⟨[]⟩ key = none := rfl

theorem get_cons (key key' : H × List Nat) (n : Nat) (entries : List ((H × List Nat) × Nat)) :
    get ⟨(key', n) :: entries⟩ key = if key = key' then some n else get ⟨entries⟩ key := by
  rw [get, List.lookup_cons]
  by_cases h : key = key'
  · simp [h]
  · rw [if_neg h, beq_false_of_ne h]
    rfl

theorem entry_of_some {key : H × List Nat} {n : Nat} (h : keys.get key = some n) :
    keys.entry key = (n, keys) := by rw [entry, h]

theorem entry_of_none {key : H × List Nat} (h : keys.get key = none) :
    keys.entry key = (keys.entries.length, ⟨(key, keys.entries.length) :: keys.entries⟩) := by
  rw [entry, h]

theorem get_entry (keys : Numbering H) (key : H × List Nat) :
    (keys.entry key).2.get key = some (keys.entry key).1 := by
  cases h : keys.get key with
  | some n => rw [entry_of_some h, h]
  | none => rw [entry_of_none h, get_cons, if_pos rfl]

theorem extends_entry (keys : Numbering H) (key : H × List Nat) :
    keys.Extends (keys.entry key).2 := by
  intro key' n hn
  cases h : keys.get key with
  | some m => rwa [entry_of_some h]
  | none =>
    have hne : key' ≠ key := by
      rintro rfl
      rw [h] at hn
      cases hn
    rw [entry_of_none h, get_cons, if_neg hne, hn]

theorem Valid.entry (hvalid : keys.Valid) (key : H × List Nat) : (keys.entry key).2.Valid := by
  cases h : keys.get key with
  | some n => rwa [entry_of_some h]
  | none =>
    rw [entry_of_none h]
    constructor
    · intro key' n hn
      rw [get_cons] at hn
      rw [List.length_cons]
      split at hn
      · cases hn
        exact Nat.lt_succ_self _
      · exact Nat.lt_succ_of_lt (hvalid.below key' n hn)
    · intro key₁ key₂ n h₁ h₂
      rw [get_cons] at h₁ h₂
      split at h₁ <;> split at h₂
      · next h₁' h₂' => rw [h₁', h₂']
      · cases h₁
        exact absurd (hvalid.below _ _ h₂) (Nat.lt_irrefl _)
      · cases h₂
        exact absurd (hvalid.below _ _ h₁) (Nat.lt_irrefl _)
      · exact hvalid.inj key₁ key₂ n h₁ h₂

theorem numberAll_eq (children : List (Rose H)) :
    keys.numberAll children = children.mapM keys.number := by
  induction children with
  | nil => rfl
  | cons t ts ih => rw [numberAll, List.mapM_cons, ih]

theorem number_node (head : H) (children : List (Rose H)) :
    keys.number (.node head children) = (children.mapM keys.number).bind fun ns =>
      keys.get (head, ns) := by
  rw [number, numberAll_eq]
  rfl

theorem number_extends (h : keys.Extends new) (t : Rose H) {n : Nat}
    (hn : keys.number t = some n) : new.number t = some n := by
  induction t using Rose.induct generalizing n with
  | node head children ih =>
    rw [number_node, Option.bind_eq_some_iff] at hn ⊢
    obtain ⟨ns, hns, hkey⟩ := hn
    refine ⟨ns, ?_, h _ _ hkey⟩
    clear hkey
    induction children generalizing ns with
    | nil => exact hns
    | cons t ts iht =>
      simp only [List.mapM_cons, Option.bind_eq_bind, Option.bind_eq_some_iff] at hns ⊢
      obtain ⟨m, hm, ms, hms, heq⟩ := hns
      exact ⟨m, ih t List.mem_cons_self hm, ms,
        iht (fun u hu => ih u (List.mem_cons_of_mem t hu)) ms hms, heq⟩

/-- Trees with one number are one tree. -/
theorem Valid.number_inj (hvalid : keys.Valid) (t u : Rose H) {n : Nat}
    (ht : keys.number t = some n) (hu : keys.number u = some n) : t = u := by
  induction t using Rose.induct generalizing u n with
  | node head children ih =>
    obtain ⟨head', children'⟩ := u
    rw [number_node, Option.bind_eq_some_iff] at ht hu
    obtain ⟨ns, hns, hkey⟩ := ht
    obtain ⟨ns', hns', hkey'⟩ := hu
    obtain ⟨rfl, rfl⟩ := Prod.mk.inj (hvalid.inj _ _ _ hkey hkey')
    congr 1
    clear hkey hkey'
    induction children generalizing children' ns with
    | nil =>
      cases hns
      cases children' with
      | nil => rfl
      | cons t ts =>
        simp only [List.mapM_cons, Option.bind_eq_bind, Option.bind_eq_some_iff] at hns'
        obtain ⟨m', hm', ms', hms', heq⟩ := hns'
        cases heq
    | cons t ts iht =>
      simp only [List.mapM_cons, Option.bind_eq_bind, Option.bind_eq_some_iff] at hns
      obtain ⟨m, hm, ms, hms, heq⟩ := hns
      cases heq
      cases children' with
      | nil => cases hns'
      | cons t' ts' =>
        simp only [List.mapM_cons, Option.bind_eq_bind, Option.bind_eq_some_iff] at hns'
        obtain ⟨m', hm', ms', hms', heq⟩ := hns'
        cases heq
        rw [ih t List.mem_cons_self t' hm hm',
          iht (fun u hu => ih u (List.mem_cons_of_mem t hu)) ts' ms hms hms']

end Numbering

end KRust.Lib
