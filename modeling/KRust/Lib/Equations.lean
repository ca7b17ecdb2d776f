import KRust.Lib.SortedMap
import Mathlib.Data.List.Lattice
import Mathlib.Logic.Function.Iterate
import Mathlib.Logic.Relation
import Mathlib.Order.MinMax

/-!
Systems of equations between variables and terms: the cycles of their dependencies are broken
by leaving out one equation of each component, and what is left is solved by substituting the
equations into one another in rounds. No more rounds are needed than there are equations, and
every round keeps the solutions.
-/

namespace KRust.Lib

/-- Terms with variables and simultaneous substitution. A substituted term has only the
variables that are not bound and those of the values put in. -/
class Substitutive (K T : Type) where
  vars : T → List K
  apply : (K → Option T) → T → T
  mem_apply : ∀ {bind : K → Option T} {t : T} {x : K}, x ∈ vars (apply bind t) →
    (x ∈ vars t ∧ bind x = none) ∨
      ∃ y u, y ∈ vars t ∧ bind y = some u ∧ x ∈ vars u

/-- A value for each term under each valuation, which substituting equals for equals keeps. -/
structure Meaning (K T D : Type) [Substitutive K T] where
  eval : (K → D) → T → D
  eval_apply : ∀ {valuation : K → D} {bind : K → Option T} {t : T},
    (∀ y u, y ∈ Substitutive.vars t → bind y = some u → valuation y = eval valuation u) →
      eval valuation (Substitutive.apply bind t) = eval valuation t

namespace Equations

open Substitutive

variable {K T W D : Type} [LinearOrder K] [Substitutive K T]

section Dependencies

/-- The value of one key mentions another key. -/
def DependsOn (m : SortedMap K T) (x y : K) : Prop :=
  ∃ t, m.get x = some t ∧ y ∈ vars t ∧ y ∈ m.keys

def Acyclic (m : SortedMap K T) : Prop := ∀ x, ¬ Relation.TransGen (DependsOn m) x x

/-- No value mentions a key. -/
def Solved (m : SortedMap K T) : Prop :=
  ∀ x t y, m.get x = some t → y ∈ vars t → y ∉ m.keys

/-- The keys in a value come more than `k` below the key itself. -/
def Ranked (rank : K → Nat) (k : Nat) (m : SortedMap K T) : Prop :=
  ∀ x t y, m.get x = some t → y ∈ vars t → y ∈ m.keys → rank y + k < rank x

open Classical in
/-- The number of keys that a key depends on, through others too. -/
noncomputable def depth (m : SortedMap K T) (x : K) : Nat :=
  (m.keys.filter fun y => Relation.TransGen (DependsOn m) x y).length

theorem DependsOn.mem_keys {m : SortedMap K T} {x y : K} (h : DependsOn m x y) : x ∈ m.keys := by
  obtain ⟨t, ht, -⟩ := h
  exact SortedMap.mem_keys.mpr ⟨t, ht⟩

theorem depth_lt {m : SortedMap K T} (h : Acyclic m) {x y : K} (hxy : DependsOn m x y) :
    depth m y < depth m x := by
  classical
  have hy : y ∈ m.keys := by
    obtain ⟨_, _, _, hy⟩ := hxy
    exact hy
  have hmem : y ∈ m.keys.filter fun z => Relation.TransGen (DependsOn m) x z := by
    rw [List.mem_filter]
    exact ⟨hy, decide_eq_true (.single hxy)⟩
  have hsub : (m.keys.filter fun z => Relation.TransGen (DependsOn m) y z) ⊆
      (m.keys.filter fun z => Relation.TransGen (DependsOn m) x z).erase y := by
    intro z hz
    obtain ⟨hz, hreach⟩ := List.mem_filter.mp hz
    have hreach := of_decide_eq_true hreach
    rw [List.Nodup.mem_erase_iff (m.keys_nodup.filter _), List.mem_filter]
    refine ⟨?_, hz, decide_eq_true (hreach.head hxy)⟩
    rintro rfl
    exact h z hreach
  have hlen := (List.Nodup.subperm (m.keys_nodup.filter _) hsub).length_le
  have hpos := List.length_pos_of_mem hmem
  rw [List.length_erase_of_mem hmem] at hlen
  unfold depth
  omega

theorem depth_lt_size {m : SortedMap K T} (h : Acyclic m) {x : K} (hx : x ∈ m.keys) :
    depth m x < m.size := by
  classical
  have hsub : (m.keys.filter fun z => Relation.TransGen (DependsOn m) x z) ⊆ m.keys.erase x := by
    intro z hz
    obtain ⟨hz, hreach⟩ := List.mem_filter.mp hz
    rw [List.Nodup.mem_erase_iff m.keys_nodup]
    refine ⟨?_, hz⟩
    rintro rfl
    exact h z (of_decide_eq_true hreach)
  have hlen := (List.Nodup.subperm (m.keys_nodup.filter _) hsub).length_le
  have hpos := List.length_pos_of_mem hx
  rw [List.length_erase_of_mem hx, SortedMap.length_keys] at hlen
  rw [SortedMap.length_keys] at hpos
  unfold depth
  omega

theorem Acyclic.ranked {m : SortedMap K T} (h : Acyclic m) : Ranked (depth m) 0 m :=
  fun _ t _ ht hy hkey => depth_lt h ⟨t, ht, hy, hkey⟩

end Dependencies

section Rounds

/-- Each value with the equations of the other keys substituted into it. -/
def round (m : SortedMap K T) : SortedMap K T :=
  m.map fun x t => apply (fun y => if y = x then none else m.get y) t

/-- Rounds, a number of times at most, until one changes nothing. -/
def saturate [DecidableEq T] : Nat → SortedMap K T → SortedMap K T
  | 0, m => m
  | n + 1, m => if round m = m then m else saturate n (round m)

theorem saturate_eq_iterate [DecidableEq T] (n : Nat) (m : SortedMap K T) :
    saturate n m = round^[n] m := by
  induction n generalizing m with
  | zero => rfl
  | succ n ih =>
    rw [saturate, Function.iterate_succ_apply]
    split
    · rename_i hfixed
      rw [hfixed, Function.iterate_fixed hfixed]
    · exact ih (round m)

@[simp] theorem keys_round (m : SortedMap K T) : (round m).keys = m.keys := SortedMap.keys_map m _

@[simp] theorem keys_iterate (n : Nat) (m : SortedMap K T) : (round^[n] m).keys = m.keys := by
  induction n with
  | zero => rfl
  | succ n ih => rw [Function.iterate_succ_apply', keys_round, ih]

theorem get_round {m : SortedMap K T} {x : K} {t : T} (h : (round m).get x = some t) :
    ∃ u, m.get x = some u ∧ t = apply (fun y => if y = x then none else m.get y) u := by
  rw [round, SortedMap.get_map, Option.map_eq_some_iff] at h
  obtain ⟨u, hu, rfl⟩ := h
  exact ⟨u, hu, rfl⟩

/-- A round takes the keys in a value one further down. -/
theorem Ranked.round {rank : K → Nat} {k : Nat} {m : SortedMap K T} (h : Ranked rank k m) :
    Ranked rank (k + 1) (round m) := by
  intro x t y ht hy hkey
  rw [keys_round] at hkey
  obtain ⟨u, hu, rfl⟩ := get_round ht
  rcases mem_apply hy with ⟨hmention, hnone⟩ | ⟨z, v, hz, hbind, hmention⟩
  · by_cases hyx : y = x
    · rw [hyx] at hmention hkey
      have := h x u x hu hmention hkey
      omega
    · rw [if_neg hyx] at hnone
      exact absurd hkey (SortedMap.not_mem_keys.mpr hnone)
  · by_cases hzx : z = x
    · rw [if_pos hzx] at hbind
      cases hbind
    · rw [if_neg hzx] at hbind
      have hlow := h z v y hbind hmention hkey
      have hhigh := h x u z hu hz (SortedMap.mem_keys.mpr ⟨v, hbind⟩)
      omega

theorem Ranked.iterate {rank : K → Nat} {m : SortedMap K T} (h : Ranked rank 0 m) (n : Nat) :
    Ranked rank n (Equations.round^[n] m) := by
  induction n with
  | zero => exact h
  | succ n ih =>
    rw [Function.iterate_succ_apply']
    exact ih.round

/-- As many rounds as there are equations solve a system without cycles. -/
theorem solved_saturate [DecidableEq T] {m : SortedMap K T} (h : Acyclic m) :
    Solved (saturate m.size m) := by
  rw [saturate_eq_iterate]
  intro x t y ht hy hkey
  have hrank := h.ranked.iterate m.size x t y ht hy hkey
  have hx : x ∈ m.keys := by
    rw [← keys_iterate m.size m]
    exact SortedMap.mem_keys.mpr ⟨t, ht⟩
  have := depth_lt_size h hx
  omega

theorem keys_saturate [DecidableEq T] (n : Nat) (m : SortedMap K T) :
    (saturate n m).keys = m.keys := by
  rw [saturate_eq_iterate, keys_iterate]

end Rounds

section Solutions

/-- The valuation satisfies every equation. -/
def Solves (M : Meaning K T D) (valuation : K → D) (m : SortedMap K T) : Prop :=
  ∀ x t, m.get x = some t → valuation x = M.eval valuation t

variable {M : Meaning K T D} {valuation : K → D}

theorem solves_round {rank : K → Nat} {k : Nat} {m : SortedMap K T} (h : Ranked rank k m) :
    Solves M valuation (round m) ↔ Solves M valuation m := by
  constructor
  · intro hround x
    -- The values below a key hold by induction, so substituting them changes nothing.
    induction hrank : rank x using Nat.strongRecOn generalizing x with
    | ind n ih =>
      intro t ht
      have hx : (round m).get x = some (apply (fun y => if y = x then none else m.get y) t) := by
        rw [round, SortedMap.get_map, ht]
        rfl
      rw [hround x _ hx]
      apply M.eval_apply
      intro y u hy hbind
      by_cases hyx : y = x
      · rw [if_pos hyx] at hbind
        cases hbind
      · rw [if_neg hyx] at hbind
        have hlow := h x t y ht hy (SortedMap.mem_keys.mpr ⟨u, hbind⟩)
        exact ih (rank y) (by omega) y rfl u hbind
  · intro hm x t ht
    obtain ⟨u, hu, rfl⟩ := get_round ht
    rw [hm x u hu]
    apply Eq.symm
    apply M.eval_apply
    intro y v _ hbind
    by_cases hyx : y = x
    · rw [if_pos hyx] at hbind
      cases hbind
    · rw [if_neg hyx] at hbind
      exact hm y v hbind

/-- Saturating a system without cycles keeps its solutions. -/
theorem solves_saturate [DecidableEq T] {m : SortedMap K T} (h : Acyclic m) (n : Nat) :
    Solves M valuation (saturate n m) ↔ Solves M valuation m := by
  rw [saturate_eq_iterate]
  induction n with
  | zero => exact Iff.rfl
  | succ n ih =>
    rw [Function.iterate_succ_apply', solves_round (h.ranked.iterate n), ih]

end Solutions

section Cycles

/-- Reading the value in an entry of a map. -/
abbrev values (value : W → T) (m : SortedMap K W) : SortedMap K T := m.map fun _ w => value w

def edge (m : SortedMap K T) (x y : K) : Bool :=
  (m.get x).any (fun t => decide (y ∈ vars t)) && decide (y ∈ m.keys)

theorem edge_iff {m : SortedMap K T} {x y : K} : edge m x y = true ↔ DependsOn m x y := by
  simp only [edge, Bool.and_eq_true, Option.any_eq_true, decide_eq_true_eq, DependsOn]
  constructor
  · rintro ⟨⟨t, ht, hy⟩, hkey⟩
    exact ⟨t, ht, hy, hkey⟩
  · rintro ⟨t, ht, hy, hkey⟩
    exact ⟨⟨t, ht, hy⟩, hkey⟩

/-- The lists of components of a graph: each vertex is in one, and two vertices are in the same
one exactly when each reaches the other. -/
structure IsComponents (vertices : List K) (edge : K → K → Bool) (components : List (List K)) :
    Prop where
  cover : ∀ x ∈ vertices, ∃ component ∈ components, x ∈ component
  nodup : ∀ component ∈ components, component.Nodup
  vertex : ∀ component ∈ components, ∀ x ∈ component, x ∈ vertices
  joined : ∀ component ∈ components, ∀ x ∈ component, ∀ y ∈ vertices,
    Relation.ReflTransGen (edge · · = true) x y → Relation.ReflTransGen (edge · · = true) y x →
      y ∈ component

/-- The least vertex of each component that has a cycle. -/
def leastOfCycles (components : List (List K)) (edge : K → K → Bool) : List K :=
  components.filterMap fun component =>
    if 1 < component.length || component.head?.any (fun x => edge x x) then component.min?
    else none

/-- Equations left out round after round: in each, the least key of each component with a
cycle, until there is none. -/
def breakCycles (components : List K → (K → K → Bool) → List (List K)) (value : W → T) :
    Nat → SortedMap K W → SortedMap K W
  | 0, m => m
  | n + 1, m =>
    let removed := leastOfCycles (components m.keys (edge (values value m)))
      (edge (values value m))
    if removed.isEmpty then m
    else breakCycles components value n (m.retain fun x => !removed.contains x)

theorem acyclic_of_leastOfCycles {m : SortedMap K T} {components : List (List K)}
    (h : IsComponents m.keys (edge m) components)
    (hnone : leastOfCycles components (edge m) = []) : Acyclic m := by
  intro x hcycle
  obtain ⟨y, hxy, hyx⟩ := Relation.TransGen.head'_iff.mp hcycle
  have hreach : ∀ {a b}, Relation.ReflTransGen (DependsOn m) a b →
      Relation.ReflTransGen (edge m · · = true) a b := fun hab =>
    Relation.ReflTransGen.mono (fun _ _ => edge_iff.mpr) _ _ hab
  obtain ⟨component, hcomponent, hx⟩ := h.cover x hxy.mem_keys
  have hcyclic : (1 < component.length || component.head?.any (fun x => edge m x x)) = true := by
    rw [Bool.or_eq_true, decide_eq_true_eq]
    by_cases hne : y = x
    · cases component with
      | nil => cases hx
      | cons z rest =>
        cases rest with
        | nil =>
          cases List.mem_singleton.mp hx
          right
          rw [hne] at hxy
          exact edge_iff.mpr hxy
        | cons w rest =>
          left
          simp
    · left
      have hykey : y ∈ m.keys := by
        obtain ⟨_, _, _, hy⟩ := hxy
        exact hy
      have hy := h.joined component hcomponent x hx y hykey (hreach (.single hxy)) (hreach hyx)
      match component, hx, hy with
      | [z], hx, hy =>
        exact absurd ((List.mem_singleton.mp hy).trans (List.mem_singleton.mp hx).symm) hne
      | _ :: _ :: _, _, _ => simp
  have hleast := List.filterMap_eq_nil_iff.mp hnone component hcomponent
  rw [if_pos hcyclic, List.min?_eq_none_iff] at hleast
  rw [hleast] at hx
  cases hx

theorem mem_of_leastOfCycles {vertices : List K} {edge : K → K → Bool}
    {components : List (List K)} (h : IsComponents vertices edge components) {x : K}
    (hx : x ∈ leastOfCycles components edge) : x ∈ vertices := by
  obtain ⟨component, hcomponent, hleast⟩ := List.mem_filterMap.mp hx
  split at hleast
  · have : Std.MinEqOr K := ⟨min_choice⟩
    exact h.vertex component hcomponent x (List.min?_mem hleast)
  · cases hleast

variable {components : List K → (K → K → Bool) → List (List K)}
  (hcomponents : ∀ vertices edge, IsComponents vertices edge (components vertices edge))
include hcomponents

/-- What is left has no cycle. -/
theorem acyclic_breakCycles {value : W → T} {n : Nat} {m : SortedMap K W} (h : m.size ≤ n) :
    Acyclic (values value (breakCycles components value n m)) := by
  induction n generalizing m with
  | zero =>
    intro x hcycle
    obtain ⟨y, hxy, -⟩ := Relation.TransGen.head'_iff.mp hcycle
    have hkey := hxy.mem_keys
    rw [breakCycles, SortedMap.keys_map] at hkey
    have := List.length_pos_of_mem hkey
    rw [SortedMap.length_keys] at this
    omega
  | succ n ih =>
    rw [breakCycles]
    have hkeys : m.keys = (values value m).keys := (SortedMap.keys_map m _).symm
    split
    · rename_i hnone
      apply acyclic_of_leastOfCycles (hcomponents _ _)
      rw [← hkeys]
      exact List.isEmpty_iff.mp hnone
    · rename_i hsome
      apply ih
      obtain ⟨x, hx⟩ := List.exists_mem_of_ne_nil _ (mt List.isEmpty_iff.mpr hsome)
      have hlt := @SortedMap.size_retain_lt _ _ _ m
        (fun x => !(leastOfCycles (components m.keys (edge (values value m)))
          (edge (values value m))).contains x) x
        (mem_of_leastOfCycles (hcomponents _ _) hx) (by simpa using hx)
      omega

omit hcomponents

/-- An entry that is left is one of the entries. -/
theorem get_breakCycles {value : W → T} {n : Nat} {m : SortedMap K W} {x : K} {w : W}
    (h : (breakCycles components value n m).get x = some w) : m.get x = some w := by
  induction n generalizing m with
  | zero => exact h
  | succ n ih =>
    rw [breakCycles] at h
    split at h
    · exact h
    · have hretained := ih h
      rw [SortedMap.get_retain] at hretained
      split at hretained
      · exact hretained
      · cases hretained

/-- Which entries are left depends on their values alone. -/
theorem values_breakCycles {value : W → T} {V : Type} {other : V → T} {n : Nat}
    {first : SortedMap K W} {second : SortedMap K V}
    (h : values value first = values other second) :
    values value (breakCycles components value n first) =
      values other (breakCycles components other n second) := by
  induction n generalizing first second with
  | zero => exact h
  | succ n ih =>
    have hkeys : first.keys = second.keys := by
      have hvalues := congrArg SortedMap.keys h
      simpa only [SortedMap.keys_map] using hvalues
    simp only [breakCycles, h, hkeys]
    split
    · exact h
    · apply ih
      apply SortedMap.ext_get
      intro x
      have hx : (values value first).get x = (values other second).get x := by rw [h]
      simp only [SortedMap.get_map, SortedMap.get_retain] at hx ⊢
      split
      · exact hx
      · rfl

end Cycles

end Equations

end KRust.Lib
