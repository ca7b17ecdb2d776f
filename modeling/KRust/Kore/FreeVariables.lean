import KRust.Kore.Walk
import KRust.Lib.Worklist
import KRust.Lib.Binding
import Mathlib.Algebra.BigOperators.Ring.List
import Mathlib.Algebra.Ring.Nat
import Mathlib.Data.Finset.Basic

/-!
The free variables of a pattern, collected by a walk that counts the binders it has entered and
not yet left, and the replacement of a free variable in a pattern.
-/

set_option linter.unusedSectionVars false

namespace KRust.Kore

open KRust.Lib

namespace Pattern

section Definitions

/-- The variable that a quantifier or a fixed point binds. -/
def binder : Pattern → Option Variable
  | .exists _ v _ | .forall _ v _ | .mu v _ | .nu v _ => some v
  | _ => none

theorem sum_double (cs : List Pattern) :
    (cs.map fun c => 2 * c.nodes).sum = 2 * (cs.map nodes).sum := List.sum_map_mul_left ..

theorem sum_nodes_children (p : Pattern) : (p.children.map nodes).sum < p.nodes := by
  rw [nodes_eq p]
  omega

/-- `for_each_post_order`: the visits of the nodes below a node come before its own. -/
def postOrder {σ : Type} (visit : Pattern → σ → σ) : Worklist (Pattern × Bool) σ where
  step task s := some (if task.2 then visit task.1 s else s)
  pending task :=
    if task.2 then [] else task.1.children.map (·, false) ++ [(task.1, true)]
  weight task := if task.2 then 1 else 2 * task.1.nodes
  lighter task := by
    obtain ⟨p, complete⟩ := task
    have hsum : ((p.children.map fun c => (c, false)).map
        fun task : Pattern × Bool => if task.2 then 1 else 2 * task.1.nodes).sum =
          2 * (p.children.map nodes).sum := by
      rw [List.map_map]
      exact sum_double _
    have hless := sum_nodes_children p
    cases complete with
    | true => simp
    | false =>
      simp only [Bool.false_eq_true, if_false, List.map_append, List.sum_append, hsum]
      simp only [List.map_cons, List.map_nil, if_true, List.sum_cons, List.sum_nil]
      omega

def forEachPostOrder {σ : Type} (visit : Pattern → σ → σ) (p : Pattern) (s : σ) : Option σ :=
  (postOrder visit).run [(p, false)] s

inductive Step where
  | enter (p : Pattern)
  | leave (v : Variable)

/-- The variables found and, for each variable, the binders entered and not yet left. -/
structure FreeState where
  result : Finset Variable
  bound : Variable → Option Nat

namespace FreeState

/-- The entry of a variable in the counts, replaced or removed. -/
def setBound (s : FreeState) (v : Variable) (count : Option Nat) : FreeState :=
  { s with bound := fun u => if u = v then count else s.bound u }

def insert (s : FreeState) (v : Variable) : FreeState := { s with result := Insert.insert v s.result }

/-- `none` where the source expects a binder to be active. -/
def leave (s : FreeState) (v : Variable) : Option FreeState :=
  match s.bound v with
  | none => none
  | some count => some (s.setBound v (if count - 1 = 0 then none else some (count - 1)))

def enter (s : FreeState) (p : Pattern) : FreeState :=
  let s := match p with
    | .var v => if (s.bound v).isSome then s else s.insert v
    | _ => s
  match p.binder with
  | some v => s.setBound v (some ((s.bound v).getD 0 + 1))
  | none => s

end FreeState

/-- The walk of `free_variables`. -/
def freeWalk : Worklist Step FreeState where
  step
    | .enter p, s => some (s.enter p)
    | .leave v, s => s.leave v
  pending
    | .enter p => p.children.map .enter ++ p.binder.toList.map .leave
    | .leave _ => []
  weight
    | .enter p => 2 * p.nodes
    | .leave _ => 1
  lighter task := by
    cases task with
    | leave v => exact Nat.one_pos
    | enter p =>
      have hsum : ((p.children.map Step.enter).map fun task : Step => match task with
          | .enter p => 2 * p.nodes
          | .leave _ => 1).sum = 2 * (p.children.map nodes).sum := by
        rw [List.map_map]
        exact sum_double _
      have hless := sum_nodes_children p
      simp only [List.map_append, List.sum_append, hsum]
      cases p.binder with
      | none =>
        simp only [Option.toList_none, List.map_nil, List.sum_nil]
        omega
      | some v =>
        simp only [Option.toList_some, List.map_cons, List.map_nil, List.sum_cons, List.sum_nil]
        omega

def freeVariables (p : Pattern) : Option (Finset Variable) :=
  (freeWalk.run [.enter p] ⟨∅, fun _ => none⟩).map FreeState.result

/-- The visit of `substitute_free` that looks for a binder in the way. -/
def noteCaptured (v : Variable) (free : Finset Variable) (p : Pattern) (captured : Bool) : Bool :=
  match p.binder with
  | some bound => captured || (decide (bound = v) || decide (bound ∈ free))
  | none => captured

/-- What `substitute_free` builds of a node. -/
def replaceNode (v : Variable) (replacement : Pattern) (p : Pattern) (children : List Pattern) :
    Option Pattern :=
  match p with
  | .var found => if found = v then some replacement else p.cloneNode children
  | p => p.cloneNode children

/-- `substitute_free`: the outer `none` is a panic. -/
def substituteFree (p : Pattern) (v : Variable) (replacement : Pattern) :
    Option (Option Pattern) := do
  let free ← replacement.freeVariables
  let captured ← p.forEachPostOrder (noteCaptured v free) false
  if captured then return none
  else return some (← p.rebuild (replaceNode v replacement))

end Definitions

end Pattern

end KRust.Kore
