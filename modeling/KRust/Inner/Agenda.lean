import KRust.Lib.Buckets
import Mathlib.Data.Finset.Basic

/-!
The agenda of one chart: the states whose new derivations are still to be dispatched, popped by
decreasing origin, and in the order they were queued among states of one origin. A pop reports
whether a state may have grown since it was last popped.
-/

namespace KRust.Inner

open KRust.Lib

@[ext] structure State where
  production : Nat
  dot : Nat
  origin : Nat
  deriving DecidableEq, Repr

namespace Agenda

/-- What a queued copy of a state is. -/
inductive QueuedCopy where
  /-- A copy of a state whose growths are not tracked. -/
  | untracked
  /-- The copy queued when a tracked state was created. -/
  | created
  /-- A copy queued when a tracked state grew after it was created. -/
  | grown
  deriving DecidableEq, Repr

/-- A queued copy of a state, in the queue of the state's origin. -/
structure Queued where
  production : Nat
  dot : Nat
  copy : QueuedCopy
  deriving DecidableEq, Repr

structure Queues where
  byOrigin : SortedMap Nat (List Queued)
  /-- The tracked states that grew, after they were created, since they were last popped. -/
  grown : Finset State

/-- A state taken from the agenda, and whether it may have grown since it was last popped. -/
structure Popped where
  state : State
  grown : Bool
  deriving DecidableEq, Repr

end Agenda

/-- The queues, once a state was pushed. -/
structure Agenda where
  queues : Option Agenda.Queues

namespace Agenda

/-- `Agenda::default` -/
def default : Agenda := ⟨none⟩

/-- `Queues::default` -/
def Queues.default : Queues := ⟨SortedMap.empty, ∅⟩

def copyOf (track created : Bool) : QueuedCopy :=
  match track, created with
  | false, _ => .untracked
  | true, true => .created
  | true, false => .grown

/-- `push`: a state that has just grown (been created when `created`) is queued, and its growth
recorded when `track` is set. -/
def push (agenda : Agenda) (state : State) (track created : Bool) : Agenda :=
  let queues := agenda.queues.getD Queues.default
  let copy := copyOf track created
  let grown := if copy = .grown then insert state queues.grown else queues.grown
  ⟨some ⟨Buckets.pushBack queues.byOrigin state.origin ⟨state.production, state.dot, copy⟩, grown⟩⟩

/-- Whether the state of a popped copy may have grown, with the growths that stay recorded. -/
def readGrowth (grown : Finset State) (state : State) : QueuedCopy → Bool × Finset State
  | .untracked => (true, grown)
  | .created => (true, if grown.Nonempty then grown.erase state else grown)
  | .grown => (decide (state ∈ grown), grown.erase state)

def pop (agenda : Agenda) : Option Popped × Agenda :=
  match agenda.queues with
  | none => (none, agenda)
  | some queues =>
    match Buckets.popFront queues.byOrigin with
    | none => (none, agenda)
    | some ((origin, queued), byOrigin) =>
      let state : State := ⟨queued.production, queued.dot, origin⟩
      let (grown, left) := readGrowth queues.grown state queued.copy
      (some ⟨state, grown⟩, ⟨some ⟨byOrigin, left⟩⟩)

def isEmpty (agenda : Agenda) : Bool :=
  match agenda.queues with
  | none => true
  | some queues => queues.byOrigin.entries.isEmpty

end Agenda

end KRust.Inner
