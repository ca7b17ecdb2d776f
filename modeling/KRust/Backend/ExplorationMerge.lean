import KRust.Lib.SortedMap
import Mathlib.Algebra.Order.Group.Nat

/-!
The merge table of a state-set execution: the states of each depth whose expansion completed.
Nothing is computed from a recorded state until a second one arrives at its depth; then the
states of the depth are hashed, and keys are built where hashes agree.
-/

namespace KRust.Backend.ExplorationMerge

open Lib

/-- What two states are compared by: the names of the request give the hash and the key of a
pattern, and effects, consoles and diagnostics bring their own comparisons. -/
structure Comparison (P E F I D : Type) where
  shapeHash : P → Nat
  stateKey : P → P
  fingerprint : E → F
  isSubsetIgnoringFacts : D → D → Bool
  observedAlike : I → I → Bool

/-- A state as it arrives at a depth. -/
structure State (P E I D M : Type) where
  depth : Nat
  pattern : P
  effects : E
  io : I
  ioEnabled : Bool
  diagnostics : D
  mark : M

variable {P E F I D M : Type}

/-- A state with its hash and its key, each once it was needed. -/
structure Arrival (names : Comparison P E F I D) (M : Type) where
  state : State P E I D M
  shape : Option Nat
  key : Option P
  shape_eq : ∀ hash ∈ shape, hash = names.shapeHash state.pattern
  key_eq : ∀ built ∈ key, built = names.stateKey state.pattern

namespace Arrival

variable {names : Comparison P E F I D}

/-- An arrival of which nothing is known. -/
def new (names : Comparison P E F I D) (state : State P E I D M) : Arrival names M :=
  ⟨state, none, none, nofun, nofun⟩

/-- The match mark is set once the state was matched. -/
def withMark (arrival : Arrival names M) (mark : M) : Arrival names M :=
  { arrival with state := { arrival.state with mark := mark } }

def shapeHash (arrival : Arrival names M) : Nat :=
  arrival.shape.getD (names.shapeHash arrival.state.pattern)

/-- The arrival with its hash kept. -/
def withShape (arrival : Arrival names M) : Arrival names M where
  state := arrival.state
  shape := some arrival.shapeHash
  key := arrival.key
  shape_eq := by
    intro hash hhash
    cases Option.mem_some_iff.mp hhash
    rw [shapeHash]
    cases hshape : arrival.shape with
    | none => rfl
    | some hash => exact arrival.shape_eq hash hshape
  key_eq := arrival.key_eq

def stateKey (arrival : Arrival names M) : P :=
  arrival.key.getD (names.stateKey arrival.state.pattern)

/-- The arrival with its key kept. -/
def withKey (arrival : Arrival names M) : Arrival names M where
  state := arrival.state
  shape := arrival.shape
  key := some arrival.stateKey
  shape_eq := arrival.shape_eq
  key_eq := by
    intro built hbuilt
    cases Option.mem_some_iff.mp hbuilt
    rw [stateKey]
    cases hkey : arrival.key with
    | none => rfl
    | some key => exact arrival.key_eq key hkey

variable [DecidableEq P] [DecidableEq E] [DecidableEq F]

/-- Whether every leaf of the arrival's subtree would be one of the recorded state's, and both
states with the keys that were built to tell. -/
def absorbedBy (arrival recorded : Arrival names M) : Bool × Arrival names M × Arrival names M :=
  if recorded.state.ioEnabled == arrival.state.ioEnabled
      && decide (names.fingerprint recorded.state.effects = names.fingerprint arrival.state.effects)
      && names.isSubsetIgnoringFacts arrival.state.diagnostics recorded.state.diagnostics then
    (decide (recorded.stateKey = arrival.stateKey)
        && decide (recorded.state.effects = arrival.state.effects)
        && names.observedAlike recorded.state.io arrival.state.io,
      arrival.withKey, recorded.withKey)
  else (false, arrival, recorded)

/-- The first recorded state that absorbs the arrival. -/
def find (arrival : Arrival names M) :
    List (Arrival names M) → Option M × Arrival names M × List (Arrival names M)
  | [] => (none, arrival, [])
  | recorded :: rest =>
    let (absorbed, arrival, recorded) := arrival.absorbedBy recorded
    if absorbed then (some recorded.state.mark, arrival, recorded :: rest)
    else
      let (mark, arrival, rest) := find arrival rest
      (mark, arrival, recorded :: rest)

end Arrival

/-- The recorded states of one depth: those not yet hashed, and the others by shape hash. -/
structure Depth (names : Comparison P E F I D) (M : Type) where
  unhashed : List (Arrival names M)
  byShape : SortedMap Nat (List (Arrival names M))

namespace Depth

variable {names : Comparison P E F I D}

def default : Depth names M := ⟨[], .empty⟩

def len (depth : Depth names M) : Nat :=
  depth.unhashed.length + depth.byShape.total fun _ states => states.length

/-- A state joins those of its hash. -/
def file (byShape : SortedMap Nat (List (Arrival names M))) (recorded : Arrival names M) :
    SortedMap Nat (List (Arrival names M)) :=
  byShape.alter recorded.shapeHash fun states => states.getD [] ++ [recorded]

/-- Every state is hashed. -/
def drain (depth : Depth names M) : Depth names M where
  unhashed := []
  byShape := depth.unhashed.foldl (fun byShape recorded =>
    file byShape { recorded with
      shape := some (names.shapeHash recorded.state.pattern)
      shape_eq := fun _ hhash => (Option.mem_some_iff.mp hhash).symm }) depth.byShape

def push (depth : Depth names M) (arrival : Arrival names M) : Depth names M :=
  match arrival.shape with
  | some _ => { depth with byShape := file depth.byShape arrival }
  | none => { depth with unhashed := depth.unhashed ++ [arrival] }

end Depth

/-- The recorded states of the depths still reachable. -/
structure Table (names : Comparison P E F I D) (M : Type) where
  depths : SortedMap Nat (Depth names M)
  len : Nat

namespace Table

variable {names : Comparison P E F I D}

def default : Table names M := ⟨.empty, 0⟩

def isEmpty (table : Table names M) : Bool := table.len == 0

/-- Records a state whose expansion completed. -/
def record (table : Table names M) (arrival : Arrival names M) : Table names M where
  depths := table.depths.alter arrival.state.depth fun depth =>
    (depth.getD Depth.default).push arrival
  len := table.len + 1

/-- Forgets the depths below one. -/
def evictBelow (table : Table names M) (depth : Nat) : Table names M where
  depths := table.depths.retain fun recorded => decide (depth ≤ recorded)
  len := table.len -
    (table.depths.retain fun recorded => !decide (depth ≤ recorded)).total fun _ states => states.len

def clear (_ : Table names M) : Table names M := default

variable [DecidableEq P] [DecidableEq E] [DecidableEq F]

/-- The mark of a recorded state of the arrival's depth that absorbs it, if one does. -/
def absorbs (table : Table names M) (arrival : Arrival names M) :
    Option M × Table names M × Arrival names M :=
  let index := arrival.state.depth
  match table.depths.get index with
  | none => (none, table, arrival)
  | some depth =>
    let depth := depth.drain
    let shape := arrival.shapeHash
    let arrival := arrival.withShape
    match depth.byShape.get shape with
    | none =>
      (none, { table with depths := table.depths.insert index depth }, arrival)
    | some recorded =>
      let (mark, arrival, recorded) := arrival.find recorded
      let depth := { depth with byShape := depth.byShape.insert shape recorded }
      (mark, { table with depths := table.depths.insert index depth }, arrival)

end Table

end KRust.Backend.ExplorationMerge
