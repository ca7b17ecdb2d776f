import KRust.Rpc.SessionLaws

/-!
Every order of the steps of reader and worker gives an orderly session: a request is answered
at most once, results come in the order of admission, and a cancel takes the oldest request
that is not finished.
-/

set_option linter.unusedSectionVars false

namespace KRust.Rpc.Session

open KRust.Lib

variable {Frame Service : Type} {environment : Environment Frame Service}

/-- What holds of a session in every state that it reaches. -/
structure Orderly (environment : Environment Frame Service) (events : List (Event Frame))
    (s : State Frame) : Prop where
  /-- Requests are numbered in the order of admission. -/
  numbered : admissions events = List.range s.requests.length
  answered_once : ∀ control, (answers control events).length ≤ 1
  justified : ∀ control answer, .answered control answer ∈ events →
    Justified environment events control answer
  /-- A request that is answered with its result was completed and never cancelled. -/
  result : ∀ control response, .answered control (.result response) ∈ events →
    .completed control ∈ events ∧ ∀ canceller, .cancelled control canceller ∉ events
  cancellation : ∀ control response, .answered control (.cancellation response) ∈ events →
    .cancelled control .client ∈ events ∧ .completed control ∉ events
  in_order : (results events).Pairwise (· < ·)
  /-- A standalone cancel takes the oldest unfinished request, and cancels no other. -/
  active : ∀ {before after control}, events = before ++ Event.active control :: after →
    control = (unfinished before).head?
  cancels : ∀ {before after control}, events = before ++ Event.cancelled control .client :: after →
    (unfinished before).head? = some control
  /-- Nothing is sent for a request that the end of the session cancelled. -/
  ended : ∀ control, .cancelled control .ending ∈ events → answers control events = []
  queue : s.controls = unfinished events
  pops : ∀ control removed, .finished control removed ∈ events → removed = some control

/-- The invariants of a session. -/
structure Invariant (environment : Environment Frame Service) (events : List (Event Frame))
    (s : State Frame) : Prop where
  queue : Queue events s
  settled : Settled events s
  finished : Finished events s
  ordered : Ordered events s
  owed : Owed events s
  payload : Payload environment events s

variable {events : List (Event Frame)} {s t : State Frame} {e : Event Frame}

theorem Invariant.start : Invariant environment [] (State.start : State Frame) where
  queue := .start
  settled := .start
  finished := by rintro c ⟨⟩
  ordered := ⟨.nil, by rintro c ⟨⟩⟩
  owed := .start
  payload := .start

theorem Invariant.reader (h : Invariant environment events s)
    (hstep : ReaderStep environment s e t) : Invariant environment (events ++ [e]) t where
  queue := h.queue.reader hstep
  settled := h.settled.step hstep.settles
  finished := h.finished.reader hstep
  ordered := h.ordered.reader hstep
  owed := h.owed.reader hstep
  payload := h.payload.reader hstep

theorem Invariant.worker (h : Invariant environment events s)
    (hstep : WorkerStep environment s e t) : Invariant environment (events ++ [e]) t where
  queue := h.queue.worker hstep
  settled := h.settled.step hstep.settles
  finished := h.finished.worker h.queue h.settled hstep
  ordered := h.ordered.worker h.queue h.settled hstep
  owed := h.owed.worker hstep
  payload := h.payload.worker hstep

theorem Invariant.reaches (h : (session environment).Reaches events s) :
    Invariant environment events s := by
  apply h.invariant Invariant.start
  intro events s a e t _ h hstep
  cases a with
  | inl a => exact h.reader (stepReader_cases hstep)
  | inr a => exact h.worker (stepWorker_cases hstep)

section Consequences

/-- The queue holds the unfinished requests. -/
theorem Queue.unfinished (h : Queue events s) : s.controls = unfinished events := by
  have hnodup : (finishes events ++ s.controls).Nodup := by
    rw [← h.queued, h.numbered]
    exact List.nodup_range
  rw [Session.unfinished, h.queued, List.filter_append, List.filter_eq_nil_iff.mpr,
    List.filter_eq_self.mpr, List.nil_append]
  · intro c hmem
    have hnot : c ∉ finishes events :=
      fun hfinished => (List.nodup_append.mp hnodup).2.2 c hfinished c hmem rfl
    exact decide_eq_true hnot
  · intro c hmem hnot
    exact of_decide_eq_true hnot hmem

/-- A request is settled in one way. -/
theorem Settled.unique (h : Settled events s) {control : Nat} {first second : Option Canceller}
    (hfirst : (control, first) ∈ settlements events)
    (hsecond : (control, second) ∈ settlements events) : first = second := by
  have heq := List.inj_on_of_nodup_map h.once hfirst hsecond rfl
  exact congrArg Prod.snd heq

theorem mem_results {control : Nat} : control ∈ results events ↔
    ∃ response, .answered control (.result response) ∈ events := by
  rw [results, List.mem_filterMap]
  constructor
  · rintro ⟨e, hmem, he⟩
    split at he
    · cases he
      exact ⟨_, hmem⟩
    · cases he
  · rintro ⟨response, hmem⟩
    exact ⟨_, hmem, rfl⟩

theorem mem_cancellations {control : Nat} : control ∈ cancellations events ↔
    ∃ response, .answered control (.cancellation response) ∈ events := by
  rw [cancellations, List.mem_filterMap]
  constructor
  · rintro ⟨e, hmem, he⟩
    split at he
    · cases he
      exact ⟨_, hmem⟩
    · cases he
  · rintro ⟨response, hmem⟩
    exact ⟨_, hmem, rfl⟩

theorem mem_clientCancels {control : Nat} :
    control ∈ clientCancels events ↔ .cancelled control .client ∈ events := by
  rw [clientCancels, List.mem_filterMap]
  constructor
  · rintro ⟨e, hmem, he⟩
    split at he
    · cases he
      exact hmem
    · cases he
  · intro hmem
    exact ⟨_, hmem, rfl⟩

theorem clientCancels_sublist (events : List (Event Frame)) :
    (clientCancels events).Sublist ((settlements events).map Prod.fst) := by
  induction events with
  | nil => exact .refl _
  | cons e events ih =>
    cases e with
    | completed control => exact .cons _ ih
    | cancelled control canceller =>
      cases canceller with
      | client => exact .cons_cons _ ih
      | ending => exact .cons _ ih
    | _ => exact ih

/-- The answers to a request are its results and its cancellations. -/
theorem length_answers (control : Nat) (events : List (Event Frame)) :
    (answers control events).length
      = (results events).count control + (cancellations events).count control := by
  induction events with
  | nil => rfl
  | cons e events ih =>
    cases e with
    | answered c answer =>
      cases answer with
      | result response =>
        show (answers control ([_] ++ events)).length
          = (c :: results events).count control + (cancellations events).count control
        rw [answers, List.filterMap_append, List.length_append, List.count_cons, Nat.add_right_comm,
          ← ih, Nat.add_comm]
        by_cases h : c = control
        · simp [h, answers]
        · simp [h, answers]
      | cancellation response =>
        show (answers control ([_] ++ events)).length
          = (results events).count control + (c :: cancellations events).count control
        rw [answers, List.filterMap_append, List.length_append, List.count_cons, ← Nat.add_assoc,
          ← ih, Nat.add_comm]
        by_cases h : c = control
        · simp [h, answers]
        · simp [h, answers]
    | _ => exact ih

namespace Invariant

/-- A request that is answered with its result was completed. -/
theorem completed (h : Invariant environment events s) {control : Nat}
    (hresult : control ∈ results events) : (control, none) ∈ settlements events := by
  apply mem_settlements.mpr
  apply mem_completions.mp
  exact h.owed.results.subset (List.mem_append_left _ hresult)

theorem cancelled (h : Invariant environment events s) {control : Nat}
    (hcancellation : control ∈ cancellations events) :
    (control, some .client) ∈ settlements events := by
  apply mem_settlements.mpr
  apply mem_clientCancels.mp
  exact h.owed.cancellations.subset (List.mem_append_left _ hcancellation)

theorem nodup_results (h : Invariant environment events s) : (results events).Nodup := by
  have hcompletions : (completions events).Nodup := h.ordered.increasing.imp Nat.ne_of_lt
  exact hcompletions.sublist ((List.sublist_append_left _ _).trans h.owed.results)

theorem nodup_cancellations (h : Invariant environment events s) :
    (cancellations events).Nodup := by
  have hcancels : (clientCancels events).Nodup :=
    h.settled.once.sublist (clientCancels_sublist events)
  exact hcancels.sublist ((List.sublist_append_left _ _).trans h.owed.cancellations)

theorem answered_once (h : Invariant environment events s) (control : Nat) :
    (answers control events).length ≤ 1 := by
  rw [length_answers]
  have hresults := List.nodup_iff_count_le_one.mp h.nodup_results control
  have hcancellations := List.nodup_iff_count_le_one.mp h.nodup_cancellations control
  by_cases hresult : control ∈ results events
  · have hnot : control ∉ cancellations events := by
      intro hcancellation
      cases h.settled.unique (h.completed hresult) (h.cancelled hcancellation)
    rw [List.count_eq_zero_of_not_mem hnot]
    exact hresults
  · rw [List.count_eq_zero_of_not_mem hresult, Nat.zero_add]
    exact hcancellations

/-- Nothing is sent for a request that the end of the session cancelled. -/
theorem unanswered (h : Invariant environment events s) {control : Nat}
    (hended : .cancelled control .ending ∈ events) : answers control events = [] := by
  have hsettled : (control, some .ending) ∈ settlements events := mem_settlements.mpr hended
  rw [← List.length_eq_zero_iff, length_answers, List.count_eq_zero_of_not_mem,
    List.count_eq_zero_of_not_mem]
  · intro hcancellation
    cases h.settled.unique hsettled (h.cancelled hcancellation)
  · intro hresult
    cases h.settled.unique hsettled (h.completed hresult)

/-- The request that a standalone cancel cancels is at the front of the queue: it was there
when it was taken, and it was not settled since. -/
theorem cancels (h : Invariant environment events s) {control : Nat} {t : State Frame}
    (hreader : s.reader = .cancelling control)
    (hexchange : s.exchange control .cancelled = some t) : s.controls.head? = some control := by
  rcases h.queue.cancelling control hreader with hfinished | hhead
  · have hsettled := h.finished control (List.mem_append_left _ hfinished)
    obtain ⟨state, hne, hstate⟩ := (h.settled.settled control).mp hsettled
    rw [(exchange_eq_some.mp hexchange).1] at hstate
    cases hstate
    exact absurd rfl hne
  · exact hhead

end Invariant

/-- What a step shows, by who took it. -/
theorem step_cases {a : ReaderAction Frame ⊕ WorkerAction Service}
    (h : (session environment).step s a = some (e, t)) :
    ReaderStep environment s e t ∨ WorkerStep environment s e t := by
  cases a with
  | inl a => exact .inl (stepReader_cases h)
  | inr a => exact .inr (stepWorker_cases h)

end Consequences

/-- Every state that a session reaches is orderly, in whatever order reader and worker take
their steps and wherever the session ends. -/
theorem session_orderly (h : (session environment).Reaches events s) :
    Orderly environment events s := by
  have hinv := Invariant.reaches h
  constructor
  · exact hinv.queue.numbered
  · exact hinv.answered_once
  · exact hinv.payload.answered
  · intro control response hmem
    have hcompleted := hinv.completed (mem_results.mpr ⟨response, hmem⟩)
    refine ⟨mem_settlements.mp hcompleted, fun canceller hcancelled => ?_⟩
    have hsettled : (control, some canceller) ∈ settlements events :=
      mem_settlements.mpr hcancelled
    cases hinv.settled.unique hcompleted hsettled
  · intro control response hmem
    have hcancelled := hinv.cancelled (mem_cancellations.mpr ⟨response, hmem⟩)
    refine ⟨mem_settlements.mp hcancelled, fun hcompleted => ?_⟩
    have hsettled : (control, none) ∈ settlements events := mem_settlements.mpr hcompleted
    cases hinv.settled.unique hcancelled hsettled
  · exact hinv.ordered.increasing.sublist
      ((List.sublist_append_left _ _).trans hinv.owed.results)
  · intro before after control hevents
    obtain ⟨u, a, v, hreach, hstep⟩ := h.before hevents
    rw [← (Invariant.reaches hreach).queue.unfinished]
    rcases step_cases hstep with hstep | hstep
    · cases hstep with
      | active _ hempty => rw [hempty]; rfl
      | takes _ hhead => exact hhead.symm
      | retires he => rcases he with he | he <;> cases he
    · cases hstep
  · intro before after control hevents
    obtain ⟨u, a, v, hreach, hstep⟩ := h.before hevents
    rw [← (Invariant.reaches hreach).queue.unfinished]
    rcases step_cases hstep with hstep | hstep
    · cases hstep with
      | cancels hreader hexchange => exact (Invariant.reaches hreach).cancels hreader hexchange
      | retires he => rcases he with he | he <;> cases he
    · cases hstep
  · exact fun control hended => hinv.unanswered hended
  · exact hinv.queue.unfinished
  · intro control removed hmem
    obtain ⟨before, after, hevents⟩ := List.append_of_mem hmem
    obtain ⟨u, a, v, hreach, hstep⟩ := h.before hevents
    rcases step_cases hstep with hstep | hstep
    · cases hstep with
      | retires he => rcases he with he | he <;> cases he
    · cases hstep with
      | pops hworker =>
        obtain ⟨rest, hcontrols⟩ :=
          (Invariant.reaches hreach).queue.front (by rw [hworker]; rfl)
        rw [hcontrols]
        rfl

/-- Messages that are cancels, and requests that are answered by their text. -/
def echo : Environment (Option String) Unit where
  isStandaloneCancel := Option.isNone
  cancellationResponse := fun text => text.map ("cancelled " ++ ·)
  handleParsed := fun _ message => message.bind id

/-- A request that is cancelled while the service handles it, and one that is answered. -/
def cancelledAndAnswered : List (ReaderAction (Option String) ⊕ WorkerAction Unit) :=
  [.inl (.read (some (some "1"))), .inl .send, .inr .receive, .inr .look,
    .inl (.read (some (some "2"))), .inr (.lockService false), .inl .send,
    .inl (.read (some none)), .inr (.handle ()), .inl .exchange, .inr .complete,
    .inl .signal, .inr (.pop false), .inl (.write true), .inr .receive, .inr .look,
    .inr (.lockService false), .inl (.read (some none)), .inr (.handle ()), .inr .complete,
    .inl .exchange, .inr (.write true), .inr (.pop false), .inl .close]

theorem session_orderly_cancelled_and_answered :
    ∃ events s, (session echo).run cancelledAndAnswered = some (events, s) ∧
      answers 0 events = [.cancellation "cancelled 1"] ∧ answers 1 events = [.result "2"] ∧
      Orderly echo events s := by
  refine ⟨_, _, rfl, by decide, by decide, ?_⟩
  exact session_orderly (@Machine.Reaches.of_run _ _ _ _ cancelledAndAnswered _ _ rfl)

end KRust.Rpc.Session
