import KRust.Inner.Agenda

/-!
Skipping the pops of states that did not grow loses no growth, however pushes and pops are
interleaved. A state of which no growth is recorded was popped, and reported as grown, after each
of its growths; a state of which one is recorded has a copy queued that will report it.
-/

namespace KRust.Inner.Agenda

open KRust.Lib

/-- What is done to an agenda. -/
inductive Operation where
  | push (state : State) (track created : Bool)
  | pop
  deriving DecidableEq

inductive Event where
  | pushed (state : State) (track created : Bool)
  | popped (popped : Popped)
  /-- A pop that found nothing. -/
  | exhausted
  deriving DecidableEq

section Definitions

def step (agenda : Agenda) : Operation → Event × Agenda
  | .push state track created => (.pushed state track created, agenda.push state track created)
  | .pop =>
    match agenda.pop with
    | (none, agenda) => (.exhausted, agenda)
    | (some popped, agenda) => (.popped popped, agenda)

def run (agenda : Agenda) : List Operation → List Event × Agenda
  | [] => ([], agenda)
  | operation :: operations =>
    let (event, agenda) := step agenda operation
    let (events, agenda) := run agenda operations
    (event :: events, agenda)

/-- The copies that an event leaves queued, in the order they were queued. -/
def queuedAfter (waiting : List (State × QueuedCopy)) : Event → List (State × QueuedCopy)
  | .pushed state track created => waiting ++ [(state, copyOf track created)]
  | .popped popped => waiting.eraseP fun queued => queued.1 = popped.state
  | .exhausted => waiting

/-- The copies that are queued after some events. -/
def queued (events : List Event) : List (State × QueuedCopy) := events.foldl queuedAfter []

/-- A growth of a tracked state. -/
def growth (state : State) : Event := .pushed state true false

/-- A pop of a state that is dispatched. -/
def dispatched (state : State) : Event := .popped ⟨state, true⟩

/-- What holds of an event after the ones before it. -/
def Sound (before : List Event) : Event → Prop
  | .pushed _ _ _ => True
  | .popped popped =>
    (∃ front copy back, queued before = front ++ (popped.state, copy) :: back ∧
      queued (before ++ [.popped popped]) = front ++ back ∧
      (∀ other ∈ front, other.1.origin < popped.state.origin) ∧
      ∀ other ∈ back, other.1.origin ≤ popped.state.origin) ∧
    (popped.grown = false →
      ∃ start grown since, before = start ++ .popped ⟨popped.state, grown⟩ :: since ∧
        (∀ grown, .popped ⟨popped.state, grown⟩ ∉ since) ∧ growth popped.state ∉ since)
  | .exhausted => queued before = []

/-- The states whose growth is recorded. -/
def recorded (agenda : Agenda) : Finset State :=
  match agenda.queues with
  | none => ∅
  | some queues => queues.grown

/-- The growths of states that are recorded no more were all read by a later pop. -/
def Read (events : List Event) (state : State) : Prop :=
  ∀ before after, events = before ++ growth state :: after → dispatched state ∈ after

end Definitions

section Histories

variable {events : List Event} {state : State}

theorem queued_append_singleton (events : List Event) (event : Event) :
    queued (events ++ [event]) = queuedAfter (queued events) event :=
  List.foldl_append

/-- A split of the events after one more was added is at that one or is a split before it. -/
theorem split_append_singleton {before after : List Event} {event last : Event}
    (h : events ++ [last] = before ++ event :: after) :
    (before = events ∧ event = last ∧ after = []) ∨
      ∃ after', after = after' ++ [last] ∧ events = before ++ event :: after' := by
  rcases List.eq_nil_or_concat after with rfl | ⟨after', final, rfl⟩
  · obtain ⟨hevents, hlast⟩ := List.append_inj' h rfl
    exact Or.inl ⟨hevents.symm, (List.singleton_inj.mp hlast).symm, rfl⟩
  · rw [List.concat_eq_append, ← List.cons_append, ← List.append_assoc] at h
    obtain ⟨hevents, hlast⟩ := List.append_inj' h rfl
    rw [List.concat_eq_append, ← List.singleton_inj.mp hlast]
    exact Or.inr ⟨after', rfl, hevents⟩

theorem Read.append_singleton {event : Event} (h : Read events state)
    (hevent : event ≠ growth state) : Read (events ++ [event]) state := by
  intro before after heq
  rcases split_append_singleton heq with ⟨-, hlast, -⟩ | ⟨after', rfl, hsplit⟩
  · exact absurd hlast.symm hevent
  · exact List.mem_append_left _ (h before after' hsplit)

theorem read_dispatched (events : List Event) (state : State) :
    Read (events ++ [dispatched state]) state := by
  intro before after heq
  rcases split_append_singleton heq with ⟨-, hlast, -⟩ | ⟨after', rfl, -⟩
  · cases hlast
  · exact List.mem_append_right _ (List.mem_singleton_self _)

/-- A copy that is queued for a growth was queued by that growth. -/
theorem growth_mem (h : (state, QueuedCopy.grown) ∈ queued events) : growth state ∈ events := by
  induction events using List.reverseRecOn with
  | nil => cases h
  | append_singleton events event ih =>
    rw [queued_append_singleton] at h
    cases event with
    | pushed pushed track created =>
      rcases List.mem_append.mp h with hqueued | hlast
      · exact List.mem_append_left _ (ih hqueued)
      · obtain ⟨rfl, hcopy⟩ := Prod.mk.inj (List.mem_singleton.mp hlast)
        have hpushed : Event.pushed state track created = growth state := by
          cases track <;> cases created <;> cases hcopy
          rfl
        rw [hpushed]
        exact List.mem_append_right _ (List.mem_singleton_self _)
    | popped popped => exact List.mem_append_left _ (ih (List.mem_of_mem_eraseP h))
    | exhausted => exact List.mem_append_left _ (ih h)

/-- The last pop of a state that was popped. -/
theorem last_pop (h : ∃ grown, Event.popped ⟨state, grown⟩ ∈ events) :
    ∃ start grown since, events = start ++ .popped ⟨state, grown⟩ :: since ∧
      ∀ grown, .popped ⟨state, grown⟩ ∉ since := by
  induction events with
  | nil =>
    obtain ⟨grown, hmem⟩ := h
    cases hmem
  | cons event events ih =>
    by_cases hlater : ∃ grown, .popped ⟨state, grown⟩ ∈ events
    · obtain ⟨start, grown, since, rfl, hsince⟩ := ih hlater
      exact ⟨event :: start, grown, since, rfl, hsince⟩
    · obtain ⟨grown, hmem⟩ := h
      rcases List.mem_cons.mp hmem with rfl | hmem
      · exact ⟨[], grown, events, rfl, fun grown hmem => hlater ⟨grown, hmem⟩⟩
      · exact absurd ⟨grown, hmem⟩ hlater

end Histories

section Steps

variable {events : List Event} {agenda : Agenda}

/-- A queued copy, in the queue of its origin. -/
def entry (queued : State × QueuedCopy) : Nat × Queued :=
  (queued.1.origin, ⟨queued.1.production, queued.1.dot, queued.2⟩)

def byOrigin (agenda : Agenda) : SortedMap Nat (List Queued) :=
  match agenda.queues with
  | none => SortedMap.empty
  | some queues => queues.byOrigin

/-- What holds of an agenda after the events so far. -/
structure Follows (agenda : Agenda) (events : List Event) : Prop where
  holds : Buckets.Holds (byOrigin agenda) ((queued events).map entry)
  marked : ∀ state ∈ recorded agenda, (state, .grown) ∈ queued events
  read : ∀ state, state ∉ recorded agenda → Read events state
  sound : ∀ before event after, events = before ++ event :: after → Sound before event

theorem follows_default : Follows default [] where
  holds := Buckets.holds_empty
  marked _ h := absurd h (Finset.notMem_empty _)
  read _ _ _ _ h := by simp at h
  sound _ _ _ h := by simp at h

theorem Follows.isEmpty_iff (h : Follows agenda events) :
    agenda.isEmpty = true ↔ queued events = [] := by
  have hempty : agenda.isEmpty = true ↔ (byOrigin agenda).entries = [] := by
    unfold isEmpty byOrigin
    cases agenda.queues with
    | none => exact ⟨fun _ => rfl, fun _ => rfl⟩
    | some queues => exact List.isEmpty_iff
  rw [hempty, h.holds.isEmpty_iff, List.map_eq_nil_iff]

theorem sound_append_singleton {event : Event}
    (h : ∀ before event after, events = before ++ event :: after → Sound before event)
    (hevent : Sound events event) (before : List Event) (found : Event) (after : List Event)
    (heq : events ++ [event] = before ++ found :: after) : Sound before found := by
  rcases split_append_singleton heq with ⟨rfl, rfl, -⟩ | ⟨after', -, hsplit⟩
  · exact hevent
  · exact h before found after' hsplit

@[simp] theorem byOrigin_push (agenda : Agenda) (state : State) (track created : Bool) :
    byOrigin (agenda.push state track created) = Buckets.pushBack (byOrigin agenda) state.origin
      ⟨state.production, state.dot, copyOf track created⟩ := by
  unfold byOrigin push
  cases agenda.queues <;> rfl

theorem mem_recorded_push (agenda : Agenda) (state : State) (track created : Bool)
    (other : State) : other ∈ recorded (agenda.push state track created) ↔
      (other = state ∧ copyOf track created = .grown) ∨ other ∈ recorded agenda := by
  have hgrown : recorded (agenda.push state track created) =
      if copyOf track created = .grown then insert state (recorded agenda) else recorded agenda := by
    unfold recorded push
    cases agenda.queues <;> rfl
  rw [hgrown]
  split
  · rename_i hcopy
    simp [hcopy]
  · rename_i hcopy
    simp [hcopy]

theorem Follows.push (h : Follows agenda events) (state : State) (track created : Bool) :
    Follows (agenda.push state track created) (events ++ [.pushed state track created]) where
  holds := by
    rw [queued_append_singleton, queuedAfter, List.map_append, byOrigin_push]
    exact h.holds.pushBack _ _
  marked other hother := by
    rw [queued_append_singleton, queuedAfter]
    rcases (mem_recorded_push _ _ _ _ _).mp hother with ⟨rfl, hcopy⟩ | hother
    · rw [hcopy]
      exact List.mem_append_right _ (List.mem_singleton_self _)
    · exact List.mem_append_left _ (h.marked other hother)
  read other hother := by
    rw [mem_recorded_push, not_or] at hother
    apply (h.read other hother.2).append_singleton
    intro heq
    cases heq
    exact hother.1 ⟨rfl, rfl⟩
  sound := sound_append_singleton h.sound trivial

/-- What a pop finds, and what it leaves. -/
theorem pop_cases (agenda : Agenda) :
    (Buckets.popFront (byOrigin agenda) = none ∧ agenda.pop = (none, agenda)) ∨
      ∃ origin queued left, Buckets.popFront (byOrigin agenda) = some ((origin, queued), left) ∧
        let read := readGrowth (recorded agenda) ⟨queued.production, queued.dot, origin⟩ queued.copy
        agenda.pop = (some ⟨⟨queued.production, queued.dot, origin⟩, read.1⟩, ⟨some ⟨left, read.2⟩⟩) := by
  obtain ⟨queues⟩ := agenda
  cases queues with
  | none => exact Or.inl ⟨rfl, rfl⟩
  | some queues =>
    cases hpop : Buckets.popFront queues.byOrigin with
    | none => exact Or.inl ⟨hpop, by simp only [pop, hpop]⟩
    | some popped => exact Or.inr ⟨_, _, _, hpop, by simp only [pop, hpop, recorded]⟩

theorem mem_readGrowth (grown : Finset State) (state : State) (copy : QueuedCopy) (other : State) :
    other ∈ (readGrowth grown state copy).2 ↔
      other ∈ grown ∧ (copy = .untracked ∨ other ≠ state) := by
  cases copy with
  | untracked => simp [readGrowth]
  | created =>
    have hgrown : (readGrowth grown state .created).2 = grown.erase state := by
      change (if grown.Nonempty then grown.erase state else grown) = grown.erase state
      split
      · rfl
      · rename_i hempty
        rw [Finset.not_nonempty_iff_eq_empty.mp hempty]
        rfl
    rw [hgrown, Finset.mem_erase]
    simp [and_comm]
  | grown => simp [readGrowth, and_comm]

/-- A pop that reports no growth is of a copy queued for a growth that is not recorded. -/
theorem readGrowth_false {grown : Finset State} {state : State} {copy : QueuedCopy}
    (h : (readGrowth grown state copy).1 = false) : copy = .grown ∧ state ∉ grown := by
  cases copy with
  | untracked => cases h
  | created => cases h
  | grown => exact ⟨rfl, of_decide_eq_false h⟩

theorem entry_eq {queued : State × QueuedCopy} {origin : Nat} {copy : Queued}
    (h : entry queued = (origin, copy)) :
    queued = (⟨copy.production, copy.dot, origin⟩, copy.copy) := by
  cases h
  rfl

theorem Follows.pop_exhausted (h : Follows agenda events)
    (hpop : Buckets.popFront (byOrigin agenda) = none) :
    Follows agenda (events ++ [.exhausted]) where
  holds := by
    rw [queued_append_singleton]
    exact h.holds
  marked state hstate := by
    rw [queued_append_singleton]
    exact h.marked state hstate
  read state hstate := (h.read state hstate).append_singleton nofun
  sound := by
    apply sound_append_singleton h.sound
    exact List.map_eq_nil_iff.mp (h.holds.popFront_none hpop)

/-- A tracked state that did not grow since its last pop was popped, and no growth of it is later
than that pop. -/
theorem Follows.last_pop_since (h : Follows agenda events) {state : State}
    (hqueued : (state, .grown) ∈ queued events) (hstate : state ∉ recorded agenda) :
    ∃ start grown since, events = start ++ .popped ⟨state, grown⟩ :: since ∧
      (∀ grown, .popped ⟨state, grown⟩ ∉ since) ∧ growth state ∉ since := by
  have hread := h.read state hstate
  obtain ⟨before, after, hgrowth⟩ := List.append_of_mem (growth_mem hqueued)
  have hpopped : dispatched state ∈ events := by
    rw [hgrowth]
    exact List.mem_append_right _ (List.mem_cons_of_mem _ (hread before after hgrowth))
  obtain ⟨start, grown, since, hevents, hsince⟩ := last_pop ⟨true, hpopped⟩
  refine ⟨start, grown, since, hevents, hsince, ?_⟩
  intro hlater
  obtain ⟨middle, rest, rfl⟩ := List.append_of_mem hlater
  have hdispatched := hread (start ++ .popped ⟨state, grown⟩ :: middle) rest (by simp [hevents])
  exact hsince true (List.mem_append_right _ (List.mem_cons_of_mem _ hdispatched))

theorem Follows.pop_popped (h : Follows agenda events) {state : State} {copy : QueuedCopy}
    {left : SortedMap Nat (List Queued)} {rest : List (State × QueuedCopy)}
    (htakes : Takes (fun queued => queued.1.origin) (queued events) (state, copy) rest)
    (hleft : Buckets.Holds left (rest.map entry)) :
    let read := readGrowth (recorded agenda) state copy
    Follows ⟨some ⟨left, read.2⟩⟩ (events ++ [.popped ⟨state, read.1⟩]) := by
  intro read
  have hqueued : queued (events ++ [.popped ⟨state, read.1⟩]) = rest := by
    rw [queued_append_singleton]
    apply htakes.eraseP (decide_eq_true rfl)
    intro other hother
    rw [of_decide_eq_true hother]
  refine ⟨hqueued ▸ hleft, ?_, ?_, sound_append_singleton h.sound ⟨?_, ?_⟩⟩
  · intro other hother
    obtain ⟨hmarked, hkept⟩ := (mem_readGrowth _ _ _ _).mp hother
    rw [hqueued]
    apply (htakes.mem_iff.mp (h.marked other hmarked)).resolve_left
    intro heq
    obtain ⟨rfl, rfl⟩ := Prod.mk.inj heq
    exact hkept.elim nofun (absurd rfl)
  · intro other hother
    by_cases hmarked : other ∈ recorded agenda
    · obtain rfl : other = state := by
        by_contra hne
        exact hother ((mem_readGrowth _ _ _ _).mpr ⟨hmarked, Or.inr hne⟩)
      have hread : read.1 = true := by
        by_contra hfalse
        exact (readGrowth_false (Bool.eq_false_iff.mpr hfalse)).2 hmarked
      rw [hread]
      exact read_dispatched events other
    · exact (h.read other hmarked).append_singleton nofun
  · rw [hqueued]
    generalize hwaiting : queued events = waiting at htakes
    cases htakes with
    | latest hfront hback => exact ⟨_, copy, _, rfl, rfl, hfront, hback⟩
  · intro hfalse
    obtain ⟨rfl, hstate⟩ := readGrowth_false hfalse
    exact h.last_pop_since (htakes.mem_iff.mpr (Or.inl rfl)) hstate

theorem Follows.step (h : Follows agenda events) (operation : Operation) :
    Follows (step agenda operation).2 (events ++ [(step agenda operation).1]) := by
  cases operation with
  | push state track created => exact h.push state track created
  | pop =>
    unfold Agenda.step
    rcases pop_cases agenda with ⟨hnone, hpop⟩ | ⟨origin, copy, left, hsome, hpop⟩
    · simp only [hpop]
      exact h.pop_exhausted hnone
    · simp only [hpop]
      obtain ⟨rest, htakes, hleft⟩ := h.holds.popFront_some hsome
      obtain ⟨popped, kept, htakes, hentry, rfl⟩ := takes_of_map htakes
      obtain rfl := entry_eq hentry
      exact h.pop_popped htakes hleft

theorem Follows.run (h : Follows agenda events) (operations : List Operation) :
    Follows (run agenda operations).2 (events ++ (run agenda operations).1) := by
  induction operations generalizing agenda events with
  | nil =>
    rw [Agenda.run, List.append_nil]
    exact h
  | cons operation operations ih =>
    have hrest := ih (h.step operation)
    rw [List.append_assoc] at hrest
    exact hrest

/-- Each pop leaves one copy less. -/
theorem Follows.queued_pop (h : Follows agenda events) :
    (queued (events ++ [(Agenda.step agenda .pop).1])).length = (queued events).length - 1 := by
  have hsound := (h.step .pop).sound events _ [] rfl
  have hnone : ∀ state track created, (Agenda.step agenda .pop).1 ≠ .pushed state track created := by
    intro state track created
    rcases pop_cases agenda with ⟨-, hpop⟩ | ⟨origin, copy, left, -, hpop⟩ <;>
      simp [Agenda.step, hpop]
  cases hevent : (Agenda.step agenda .pop).1 with
  | pushed state track created => exact absurd hevent (hnone state track created)
  | popped popped =>
    rw [hevent] at hsound
    obtain ⟨⟨front, copy, back, hbefore, hafter, -⟩, -⟩ := hsound
    rw [hafter, hbefore]
    simp
  | exhausted =>
    rw [hevent] at hsound
    have hsound : queued events = [] := hsound
    rw [queued_append_singleton, queuedAfter, hsound]
    rfl

/-- As many pops as copies are queued empty the agenda. -/
theorem Follows.drained (h : Follows agenda events) {count : Nat}
    (hcount : (queued events).length ≤ count) :
    (Agenda.run agenda (List.replicate count .pop)).2.isEmpty = true := by
  induction count generalizing agenda events with
  | zero => exact h.isEmpty_iff.mpr (List.length_eq_zero_iff.mp (Nat.le_zero.mp hcount))
  | succ count ih =>
    apply ih (h.step .pop)
    rw [h.queued_pop]
    omega

end Steps

section Runs

/-- In every run, a pop takes the earliest copy of the greatest origin, and one that reports no
growth is of a state that was popped since its last growth; each growth is reported by a later pop,
at the latest when the agenda is drained; and an empty agenda records no growth. -/
theorem skips_stale_pops (operations : List Operation) :
    let (events, agenda) := run default operations
    (∀ before event after, events = before ++ event :: after → Sound before event) ∧
      (∀ before state after, events = before ++ growth state :: after →
        (agenda.isEmpty = true → dispatched state ∈ after) ∧
        ∀ count, (queued events).length ≤ count →
          dispatched state ∈ after ++ (run agenda (List.replicate count .pop)).1) ∧
      (agenda.isEmpty = true → recorded agenda = ∅) := by
  have hfollows := follows_default.run operations
  rw [List.nil_append] at hfollows
  generalize run default operations = outcome at hfollows
  obtain ⟨events, agenda⟩ := outcome
  have hcleared : ∀ {agenda events}, Follows agenda events → agenda.isEmpty = true →
      recorded agenda = ∅ := by
    intro agenda events h hempty
    apply Finset.eq_empty_of_forall_notMem
    intro state hstate
    have hmem := h.marked state hstate
    rw [h.isEmpty_iff.mp hempty] at hmem
    cases hmem
  have hread : ∀ {agenda events}, Follows agenda events → agenda.isEmpty = true →
      ∀ state, Read events state := by
    intro agenda events h hempty state
    apply h.read state
    rw [hcleared h hempty]
    exact Finset.notMem_empty state
  refine ⟨hfollows.sound, ?_, hcleared hfollows⟩
  intro before state after heq
  refine ⟨fun hempty => hread hfollows hempty state before after heq, ?_⟩
  intro count hcount
  have hlater := hfollows.run (List.replicate count .pop)
  apply hread hlater (hfollows.drained hcount) state before
  rw [heq, List.append_assoc, List.cons_append]

end Runs

end KRust.Inner.Agenda
