import Mathlib.Data.List.Basic

/-!
Runs of a machine that is moved by actions and shows an event at every step: what holds of
every state reached, together with the events that led there, and what held just before an
event.
-/

set_option linter.unusedSectionVars false

namespace KRust.Lib

/-- A machine: an action moves the state and shows an event, or is not possible. -/
structure Machine (σ α ε : Type) where
  initial : σ
  step : σ → α → Option (ε × σ)

namespace Machine

variable {σ α ε : Type}

/-- One more action after a run. -/
def extend (m : Machine σ α ε) (run : List ε × σ) (a : α) : Option (List ε × σ) :=
  (m.step run.2 a).map fun (e, t) => (run.1 ++ [e], t)

/-- The state after some actions, with the events that they showed. -/
def run (m : Machine σ α ε) (actions : List α) : Option (List ε × σ) :=
  actions.foldlM m.extend ([], m.initial)

/-- A state that is reached, and the events that were shown on the way. -/
inductive Reaches (m : Machine σ α ε) : List ε → σ → Prop where
  | start : Reaches m [] m.initial
  | next {events : List ε} {s t : σ} {a : α} {e : ε} :
    Reaches m events s → m.step s a = some (e, t) → Reaches m (events ++ [e]) t

variable {m : Machine σ α ε}

theorem Reaches.foldlM {events : List ε} {s : σ} (h : m.Reaches events s) (actions : List α)
    {final : List ε} {t : σ} (hrun : actions.foldlM m.extend (events, s) = some (final, t)) :
    m.Reaches final t := by
  induction actions generalizing events s with
  | nil =>
    cases hrun
    exact h
  | cons a actions ih =>
    rw [List.foldlM_cons, Option.bind_eq_bind, Option.bind_eq_some_iff] at hrun
    obtain ⟨_, hextend, hrest⟩ := hrun
    obtain ⟨⟨e, u⟩, hstep, rfl⟩ := Option.map_eq_some_iff.mp hextend
    exact ih (h.next hstep) hrest

theorem Reaches.of_run {actions : List α} {events : List ε} {s : σ}
    (h : m.run actions = some (events, s)) : m.Reaches events s :=
  Reaches.start.foldlM actions h

/-- What holds at the start and is kept by every step from a state that is reached holds of
every state that is reached. -/
theorem Reaches.invariant {P : List ε → σ → Prop} (start : P [] m.initial)
    (next : ∀ {events s a e t}, m.Reaches events s → P events s → m.step s a = some (e, t) →
      P (events ++ [e]) t) {events : List ε} {s : σ} (h : m.Reaches events s) : P events s := by
  induction h with
  | start => exact start
  | next hreach hstep ih => exact next hreach ih hstep

/-- An event was shown by a step from a state that was reached by the events before it. -/
theorem Reaches.before {events : List ε} {t : σ} (h : m.Reaches events t) {before after : List ε}
    {e : ε} (hevents : events = before ++ e :: after) :
    ∃ s a u, m.Reaches before s ∧ m.step s a = some (e, u) := by
  induction h generalizing after with
  | start => simp at hevents
  | @next events s t a f hreach hstep ih =>
    rcases List.eq_nil_or_concat after with rfl | ⟨after, g, rfl⟩
    · obtain ⟨rfl, hlast⟩ := List.append_inj' hevents rfl
      obtain rfl : f = e := by simpa using hlast
      exact ⟨s, a, t, hreach, hstep⟩
    · have hsplit : events ++ [f] = (before ++ e :: after) ++ [g] := by
        rw [hevents, List.concat_eq_append, List.append_assoc, List.cons_append]
      exact ih (List.append_inj' hsplit rfl).1

end Machine

end KRust.Lib
