import KRust.Rpc.Session
import Mathlib.Data.List.Nodup
import Mathlib.Data.List.Range

/-!
What every order of the steps of reader and worker keeps: the queue holds the unfinished
requests, a request is settled once, and an answer is owed to the one that settled it.
-/

set_option linter.unusedSectionVars false

namespace KRust.Rpc.Session

open KRust.Lib

variable {Frame Service : Type} {environment : Environment Frame Service}

section Views

/-- The session is served: every admitted request but the one in `admit` was sent. -/
def Reader.unsent : Reader Frame → Option (List Nat)
  | .reading | .cancelling _ | .signalling _ | .answering _ _ => some []
  | .admitting _ control => some [control]
  | _ => none

/-- The request that the reader cancelled and still has to answer. -/
def Reader.owed : Reader Frame → List Nat
  | .signalling control | .answering control _ => [control]
  | _ => []

/-- The request that the worker took from the channel. -/
def Worker.current : Worker Frame → List Nat
  | .received _ control | .locking _ control | .handling _ control | .handled control _
  | .answering control _ | .popping control => [control]
  | .receiving | .returning | .stopped => []

def Worker.left : Worker Frame → Bool
  | .returning | .stopped => true
  | _ => false

/-- The request that the worker completed and still has to answer. -/
def Worker.owed : Worker Frame → List Nat
  | .answering control _ => [control]
  | _ => []

def admissions (events : List (Event Frame)) : List Nat :=
  events.filterMap fun
    | .admitted control _ => some control
    | _ => none

def finishes (events : List (Event Frame)) : List Nat :=
  events.filterMap fun
    | .finished control _ => some control
    | _ => none

/-- The requests that were settled, each with who cancelled it. -/
def settlements (events : List (Event Frame)) : List (Nat × Option Canceller) :=
  events.filterMap fun
    | .completed control => some (control, none)
    | .cancelled control canceller => some (control, some canceller)
    | _ => none

def completions (events : List (Event Frame)) : List Nat :=
  events.filterMap fun
    | .completed control => some control
    | _ => none

def clientCancels (events : List (Event Frame)) : List Nat :=
  events.filterMap fun
    | .cancelled control .client => some control
    | _ => none

/-- The requests that were answered with their result, in the order of the answers. -/
def results (events : List (Event Frame)) : List Nat :=
  events.filterMap fun
    | .answered control (.result _) => some control
    | _ => none

def cancellations (events : List (Event Frame)) : List Nat :=
  events.filterMap fun
    | .answered control (.cancellation _) => some control
    | _ => none

def answers (control : Nat) (events : List (Event Frame)) : List Answer :=
  events.filterMap fun
    | .answered c answer => if c = control then some answer else none
    | _ => none

/-- The admitted requests that the worker is not done with, in the order of admission. -/
def unfinished (events : List (Event Frame)) : List Nat :=
  (admissions events).filter (· ∉ finishes events)

end Views

section Steps

/-- What a step of the reader can do. -/
inductive ReaderStep (environment : Environment Frame Service) (s : State Frame) :
    Event Frame → State Frame → Prop where
  | active : s.reader = .reading → s.controls = [] →
    ReaderStep environment s (.active none) { s with reader := .reading }
  | takes {control : Nat} : s.reader = .reading → s.controls.head? = some control →
    ReaderStep environment s (.active (some control)) { s with reader := .cancelling control }
  | admits {message : Option Frame} : s.reader = .reading →
    ReaderStep environment s (.admitted s.requests.length message)
      { s with
        requests := s.requests ++ [RequestControl.new environment message]
        controls := s.controls ++ [s.requests.length]
        reader := .admitting message s.requests.length }
  | sends {message : Option Frame} {control : Nat} : s.reader = .admitting message control →
    ReaderStep environment s .silent
      { s with channel := s.channel ++ [(message, control)], reader := .reading }
  | cancels {control : Nat} {t : State Frame} : s.reader = .cancelling control →
    s.exchange control .cancelled = some t →
    ReaderStep environment s (.cancelled control .client) { t with reader := .signalling control }
  | keeps {control : Nat} : s.reader = .cancelling control →
    ReaderStep environment s .silent { s with reader := .reading }
  | signals {control : Nat} {response : String} : s.reader = .signalling control →
    s.cancellationResponse control = some response →
    ReaderStep environment s .silent
      { s.signal control with reader := .answering control response }
  | unanswered {control : Nat} : s.reader = .signalling control →
    ReaderStep environment s .silent { s.signal control with reader := .reading }
  | answers {control : Nat} {response : String} {reader : Reader Frame} :
    s.reader = .answering control response → reader = .reading ∨ reader.unsent = none →
    reader.owed = [] →
    ReaderStep environment s (.answered control (.cancellation response))
      { s with reader := reader }
  | cancelsAll {control : Nat} {t : State Frame} {reader : Reader Frame} :
    s.exchange control .cancelled = some t → reader.unsent = none → reader.owed = [] →
    ReaderStep environment s (.cancelled control .ending) { t with reader := reader }
  | signalsAll {control : Nat} {reader : Reader Frame} : reader.unsent = none →
    reader.owed = [] → ReaderStep environment s .silent { s.signal control with reader := reader }
  /-- The end of the session goes on, and the requests stay as they are. -/
  | retires {sender : Bool} {reader : Reader Frame} {e : Event Frame} : e = .silent ∨ e = .ended →
    reader.unsent = none → reader.owed = [] →
    ReaderStep environment s e { s with sender := sender, reader := reader }

theorem stepReader_cases {s t : State Frame} {a : ReaderAction Frame} {e : Event Frame}
    (h : stepReader environment s a = some (e, t)) : ReaderStep environment s e t := by
  unfold stepReader at h
  split at h
  case h_1 =>
    rw [Option.some.injEq, readMessage] at h
    split at h
    · split at h
      · cases h
        exact .active ‹_› (List.head?_eq_none_iff.mp ‹_›)
      · cases h
        exact .takes ‹_› ‹_›
    · cases h
      exact .admits ‹_›
  case h_3 =>
    split at h
    · cases h
      exact .retires (.inl rfl) rfl rfl
    · cases h
      exact .sends ‹_›
  case h_4 =>
    split at h
    · cases h
      exact .cancels ‹_› ‹_›
    · cases h
      exact .keeps ‹_›
  case h_5 =>
    split at h
    · cases h
      exact .signals ‹_› ‹_›
    · cases h
      exact .unanswered ‹_›
  case h_6 written hreader =>
    cases h
    cases written
    · exact .answers hreader (.inr rfl) rfl
    · exact .answers hreader (.inl rfl) rfl
  case h_13 =>
    split at h
    · cases h
      exact .cancelsAll ‹_› rfl rfl
    · cases h
      exact .retires (.inl rfl) rfl rfl
  case h_14 =>
    cases h
    exact .signalsAll rfl rfl
  case h_17 =>
    split at h
    · split at h
      · cases h
        exact .retires (.inl rfl) rfl rfl
      · cases h
        exact .retires (.inr rfl) rfl rfl
    · cases h
  case h_18 => cases h
  all_goals
    cases h
    exact .retires (.inl rfl) rfl rfl

/-- What a step of the worker can do. -/
inductive WorkerStep (environment : Environment Frame Service) (s : State Frame) :
    Event Frame → State Frame → Prop where
  | receives {message : Option Frame} {control : Nat} {channel : List (Option Frame × Nat)} :
    s.worker = .receiving → s.channel = (message, control) :: channel →
    WorkerStep environment s .silent
      { s with channel := channel, worker := .received message control }
  | looks {message : Option Frame} {control : Nat} : s.worker = .received message control →
    WorkerStep environment s .silent { s with worker := .locking message control }
  | skips {message : Option Frame} {control : Nat} :
    s.worker = .received message control ∨ s.worker = .locking message control →
    WorkerStep environment s .silent { s with worker := .handled control none }
  | starts {message : Option Frame} {control : Nat} : s.worker = .locking message control →
    WorkerStep environment s (.started control) { s with worker := .handling message control }
  | handles {message : Option Frame} {control : Nat} (service : Service) :
    s.worker = .handling message control →
    WorkerStep environment s .silent
      { s with worker := .handled control (environment.handleParsed service message) }
  | completes {control : Nat} {response : Option String} {t : State Frame} :
    s.worker = .handled control response → s.exchange control .completed = some t →
    WorkerStep environment s (.completed control)
      { t with worker := match response with
        | some response => .answering control response
        | none => .popping control }
  | refused {control : Nat} {response : Option String} : s.worker = .handled control response →
    s.exchange control .completed = none →
    WorkerStep environment s .silent { s with worker := .popping control }
  | answers {control : Nat} {response : String} {worker : Worker Frame} :
    s.worker = .answering control response → worker = .popping control ∨ worker = .returning →
    WorkerStep environment s (.answered control (.result response)) { s with worker := worker }
  | pops {control : Nat} : s.worker = .popping control →
    WorkerStep environment s (.finished control s.controls.head?)
      { s with controls := s.controls.tail, worker := .receiving }
  /-- The worker leaves its loop. -/
  | leaves {worker : Worker Frame} : worker.left = true →
    WorkerStep environment s .silent { s with worker := worker }

theorem stepWorker_cases {s t : State Frame} {a : WorkerAction Service} {e : Event Frame}
    (h : stepWorker environment s a = some (e, t)) : WorkerStep environment s e t := by
  unfold stepWorker at h
  split at h
  case h_1 =>
    split at h
    · cases h
      exact .receives ‹_› ‹_›
    · split at h
      · cases h
      · cases h
        exact .leaves rfl
  case h_2 =>
    split at h
    · cases h
      exact .skips (.inl ‹_›)
    · cases h
      exact .looks ‹_›
  case h_3 =>
    split at h
    · cases h
      exact .leaves rfl
    · split at h
      · cases h
        exact .skips (.inr ‹_›)
      · cases h
        exact .starts ‹_›
  case h_4 service hworker =>
    cases h
    exact .handles service hworker
  case h_5 =>
    cases h
    exact .leaves rfl
  case h_6 =>
    split at h
    · cases h
      exact @WorkerStep.completes _ _ _ _ _ (some _) _ ‹_› ‹_›
    · cases h
      exact @WorkerStep.completes _ _ _ _ _ none _ ‹_› ‹_›
    · cases h
      exact .refused ‹_› ‹_›
  case h_7 written hworker =>
    cases h
    cases written
    · exact .answers hworker (.inr rfl)
    · exact .answers hworker (.inl rfl)
  case h_8 =>
    split at h
    · cases h
    · split at h
      · cases h
        exact .leaves rfl
      · cases h
        exact .pops ‹_›
  case h_9 =>
    cases h
    exact .leaves rfl
  case h_10 => cases h

/-- What an exchange changes: the state of a request that was pending. -/
theorem exchange_eq_some {s t : State Frame} {control : Nat} {new : RequestState} :
    s.exchange control new = some t ↔ s.stateOf control = some .pending ∧
      t = { s with requests := s.requests.modify control fun r => { r with state := new } } := by
  unfold State.exchange
  split
  · rw [Option.some.injEq, eq_comm]
    exact (and_iff_right ‹_›).symm
  · exact ⟨nofun, fun h => absurd h.1 ‹_›⟩

theorem stateOf_exchange {s t : State Frame} {control : Nat} {new : RequestState}
    (h : s.exchange control new = some t) (c : Nat) :
    t.stateOf c = if control = c then some new else s.stateOf c := by
  obtain ⟨hpending, rfl⟩ := exchange_eq_some.mp h
  simp only [State.stateOf, List.getElem?_modify, Option.map_eq_map, Option.map_map] at hpending ⊢
  split
  · subst control
    obtain ⟨r, hr, -⟩ := Option.map_eq_some_iff.mp hpending
    rw [hr]
    rfl
  · rfl

theorem stateOf_signal (s : State Frame) (control c : Nat) :
    (s.signal control).stateOf c = s.stateOf c := by
  simp only [State.stateOf, State.signal, List.getElem?_modify, Option.map_eq_map, Option.map_map]
  congr 1
  split <;> rfl

end Steps

section Queue

/-- The queue holds what was admitted and is not finished: the request that the worker is at,
those in the channel, and the one that the reader is sending. -/
structure Queue (events : List (Event Frame)) (s : State Frame) : Prop where
  numbered : admissions events = List.range s.requests.length
  queued : admissions events = finishes events ++ s.controls
  sent : s.worker.left = false → ∃ unsent,
    s.controls = s.worker.current ++ s.channel.map Prod.snd ++ unsent ∧
      ∀ control ∈ s.reader.unsent, unsent = control
  cancelling : ∀ control, s.reader = .cancelling control →
    control ∈ finishes events ∨ s.controls.head? = some control

theorem admissions_append (events : List (Event Frame)) (e : Event Frame) :
    admissions (events ++ [e]) = admissions events ++ admissions [e] := List.filterMap_append

theorem finishes_append (events : List (Event Frame)) (e : Event Frame) :
    finishes (events ++ [e]) = finishes events ++ finishes [e] := List.filterMap_append

variable {events : List (Event Frame)} {s t : State Frame} {e : Event Frame}

theorem Queue.start : Queue [] (State.start : State Frame) where
  numbered := rfl
  queued := rfl
  sent _ := ⟨[], rfl, by rintro _ ⟨⟩; rfl⟩
  cancelling := by rintro _ ⟨⟩

/-- A step that leaves the queue as it is and sends nothing. -/
theorem Queue.quiet (h : Queue events s) (he : admissions [e] = [] ∧ finishes [e] = [])
    (hrequests : t.requests.length = s.requests.length) (hcontrols : t.controls = s.controls)
    (hsent : t.worker.left = false → s.worker.left = false ∧
      t.worker.current ++ t.channel.map Prod.snd = s.worker.current ++ s.channel.map Prod.snd)
    (hunsent : ∀ control ∈ t.reader.unsent, control ∈ s.reader.unsent)
    (hcancelling : ∀ control, t.reader = .cancelling control →
      s.reader = .cancelling control ∨ s.controls.head? = some control) :
    Queue (events ++ [e]) t := by
  constructor
  · rw [admissions_append, he.1, List.append_nil, hrequests]
    exact h.numbered
  · rw [admissions_append, finishes_append, he.1, he.2, List.append_nil, List.append_nil, hcontrols]
    exact h.queued
  · intro hleft
    obtain ⟨hleft, heq⟩ := hsent hleft
    obtain ⟨unsent, hqueue, hread⟩ := h.sent hleft
    refine ⟨unsent, ?_, fun control hmem => hread control (hunsent control hmem)⟩
    rw [heq, hcontrols]
    exact hqueue
  · intro control hreader
    rw [finishes_append, he.2, List.append_nil, hcontrols]
    rcases hcancelling control hreader with hsame | hhead
    · exact h.cancelling control hsame
    · exact .inr hhead

theorem unsent_none {reader : Reader Frame} (h : reader.unsent = none) {P : List Nat → Prop} :
    ∀ control ∈ reader.unsent, P control := by
  rw [h]
  rintro _ ⟨⟩

theorem cancelling_none {reader : Reader Frame} (h : reader.unsent = none) {P : Nat → Prop} :
    ∀ control, reader = .cancelling control → P control := by
  rintro _ rfl
  cases h

theorem length_exchange {control : Nat} {new : RequestState}
    (h : s.exchange control new = some t) :
    t.requests.length = s.requests.length ∧ t.controls = s.controls ∧ t.channel = s.channel ∧
      t.worker = s.worker ∧ t.reader = s.reader := by
  obtain ⟨-, rfl⟩ := exchange_eq_some.mp h
  exact ⟨List.length_modify .., rfl, rfl, rfl, rfl⟩

theorem Queue.reader (h : Queue events s) (hstep : ReaderStep environment s e t) :
    Queue (events ++ [e]) t := by
  cases hstep with
  | active hreader hempty =>
    refine h.quiet ⟨rfl, rfl⟩ rfl rfl (fun hleft => ⟨hleft, rfl⟩) ?_ ?_
    · rw [hreader]
      exact fun _ hmem => hmem
    · rintro _ ⟨⟩
  | takes hreader hhead =>
    refine h.quiet ⟨rfl, rfl⟩ rfl rfl (fun hleft => ⟨hleft, rfl⟩) ?_ ?_
    · rw [hreader]
      exact fun _ hmem => hmem
    · rintro _ ⟨⟩
      exact .inr hhead
  | @admits message hreader =>
    constructor
    · rw [admissions_append, h.numbered, List.length_append, List.length_singleton,
        List.range_succ]
      rfl
    · rw [admissions_append, finishes_append, h.queued, List.append_assoc]
      show _ = (finishes events ++ []) ++ (s.controls ++ [s.requests.length])
      rw [List.append_nil]
      rfl
    · intro hleft
      obtain ⟨unsent, hqueue, hread⟩ := h.sent hleft
      rw [hreader] at hread
      obtain rfl : unsent = [] := hread [] rfl
      refine ⟨[s.requests.length], ?_, by rintro _ ⟨⟩; rfl⟩
      rw [hqueue, List.append_nil]
    · rintro _ ⟨⟩
  | @sends message control hreader =>
    constructor
    · rw [admissions_append, h.numbered]
      exact List.append_nil _
    · rw [admissions_append, finishes_append, h.queued]
      simp [admissions, finishes]
    · intro hleft
      obtain ⟨unsent, hqueue, hread⟩ := h.sent hleft
      rw [hreader] at hread
      obtain rfl : unsent = [control] := hread [control] rfl
      refine ⟨[], ?_, by rintro _ ⟨⟩; rfl⟩
      rw [List.map_append, List.append_nil, ← List.append_assoc]
      exact hqueue
    · rintro _ ⟨⟩
  | cancels hreader hexchange =>
    obtain ⟨hrequests, hcontrols, hchannel, hworker, hsame⟩ := length_exchange hexchange
    refine h.quiet ⟨rfl, rfl⟩ hrequests hcontrols ?_ ?_ ?_
    · intro hleft
      rw [← hworker, ← hchannel]
      exact ⟨hleft, rfl⟩
    · rw [hreader]
      exact fun _ hmem => hmem
    · rintro _ ⟨⟩
  | keeps hreader =>
    refine h.quiet ⟨rfl, rfl⟩ rfl rfl (fun hleft => ⟨hleft, rfl⟩) ?_ ?_
    · rw [hreader]
      exact fun _ hmem => hmem
    · rintro _ ⟨⟩
  | signals hreader _ | unanswered hreader =>
    refine h.quiet ⟨rfl, rfl⟩ (List.length_modify ..) rfl (fun hleft => ⟨hleft, rfl⟩) ?_ ?_
    · rw [hreader]
      exact fun _ hmem => hmem
    · rintro _ ⟨⟩
  | answers hreader hnext _ =>
    refine h.quiet ⟨rfl, rfl⟩ rfl rfl (fun hleft => ⟨hleft, rfl⟩) ?_ ?_
    · rcases hnext with rfl | hnone
      · rw [hreader]
        exact fun _ hmem => hmem
      · exact unsent_none hnone
    · rcases hnext with rfl | hnone
      · rintro _ ⟨⟩
      · exact cancelling_none hnone
  | cancelsAll hexchange hnone _ =>
    obtain ⟨hrequests, hcontrols, hchannel, hworker, hsame⟩ := length_exchange hexchange
    refine h.quiet ⟨rfl, rfl⟩ hrequests hcontrols ?_ ?_ ?_
    · intro hleft
      rw [← hworker, ← hchannel]
      exact ⟨hleft, rfl⟩
    · exact unsent_none hnone
    · exact cancelling_none hnone
  | signalsAll hnone _ =>
    exact h.quiet ⟨rfl, rfl⟩ (List.length_modify ..) rfl (fun hleft => ⟨hleft, rfl⟩)
      (unsent_none hnone) (cancelling_none hnone)
  | retires he hnone _ =>
    refine h.quiet ?_ rfl rfl (fun hleft => ⟨hleft, rfl⟩) (unsent_none hnone)
      (cancelling_none hnone)
    rcases he with rfl | rfl
    · exact ⟨rfl, rfl⟩
    · exact ⟨rfl, rfl⟩

/-- The worker is at the front of the queue. -/
theorem Queue.front (h : Queue events s) {control : Nat} (hworker : s.worker.current = [control]) :
    ∃ rest, s.controls = control :: rest := by
  have hleft : s.worker.left = false := by
    cases hw : s.worker with
    | returning | stopped => rw [hw] at hworker; cases hworker
    | _ => rfl
  obtain ⟨unsent, hqueue, -⟩ := h.sent hleft
  rw [hworker] at hqueue
  exact ⟨_, hqueue⟩

theorem Queue.worker (h : Queue events s) (hstep : WorkerStep environment s e t) :
    Queue (events ++ [e]) t := by
  have hquiet {worker : Worker Frame} (he : admissions [e] = [] ∧ finishes [e] = [])
      (ht : t.worker = worker ∧ t.requests.length = s.requests.length ∧ t.controls = s.controls ∧
        t.channel = s.channel ∧ t.reader = s.reader)
      (hcurrent : s.worker.left = false ∧ worker.current = s.worker.current) :
      Queue (events ++ [e]) t := by
    obtain ⟨rfl, hrequests, hcontrols, hchannel, hreader⟩ := ht
    refine h.quiet he hrequests hcontrols ?_ ?_ ?_
    · intro _
      rw [hchannel, hcurrent.2]
      exact ⟨hcurrent.1, rfl⟩
    · rw [hreader]
      exact fun _ hmem => hmem
    · rw [hreader]
      exact fun _ hmem => .inl hmem
  cases hstep with
  | receives hworker hchannel =>
    refine h.quiet ⟨rfl, rfl⟩ rfl rfl ?_ ?_ ?_
    · intro _
      rw [hworker, hchannel]
      exact ⟨rfl, rfl⟩
    · exact fun _ hmem => hmem
    · exact fun _ hmem => .inl hmem
  | looks hworker | starts hworker | handles _ hworker | refused hworker _ =>
    refine hquiet ⟨rfl, rfl⟩ ⟨rfl, rfl, rfl, rfl, rfl⟩ ?_
    rw [hworker]
    exact ⟨rfl, rfl⟩
  | skips hworker =>
    refine hquiet ⟨rfl, rfl⟩ ⟨rfl, rfl, rfl, rfl, rfl⟩ ?_
    rcases hworker with hworker | hworker
    · rw [hworker]
      exact ⟨rfl, rfl⟩
    · rw [hworker]
      exact ⟨rfl, rfl⟩
  | @completes control response _ hworker hexchange =>
    obtain ⟨hrequests, hcontrols, hchannel, -, hreader⟩ := length_exchange hexchange
    refine hquiet ⟨rfl, rfl⟩ ⟨rfl, hrequests, hcontrols, hchannel, hreader⟩ ?_
    rw [hworker]
    cases response with
    | none => exact ⟨rfl, rfl⟩
    | some response => exact ⟨rfl, rfl⟩
  | answers hworker hnext =>
    rcases hnext with rfl | rfl
    · refine hquiet ⟨rfl, rfl⟩ ⟨rfl, rfl, rfl, rfl, rfl⟩ ?_
      rw [hworker]
      exact ⟨rfl, rfl⟩
    · refine h.quiet ⟨rfl, rfl⟩ rfl rfl ?_ ?_ ?_
      · rintro ⟨⟩
      · exact fun _ hmem => hmem
      · exact fun _ hmem => .inl hmem
  | @pops control hworker =>
    have hcurrent : s.worker.current = [control] := by rw [hworker]; rfl
    obtain ⟨rest, hcontrols⟩ := h.front hcurrent
    constructor
    · rw [admissions_append, h.numbered]
      exact List.append_nil _
    · rw [admissions_append, finishes_append, h.queued, hcontrols]
      simp [admissions, finishes]
    · intro _
      obtain ⟨unsent, hqueue, hread⟩ := h.sent (by rw [hworker]; rfl)
      refine ⟨unsent, ?_, hread⟩
      rw [hcurrent, List.append_assoc, List.singleton_append] at hqueue
      show s.controls.tail = _
      rw [hqueue]
      rfl
    · intro other hreader
      rw [finishes_append, hcontrols]
      left
      rcases h.cancelling other hreader with hmem | hhead
      · exact List.mem_append_left _ hmem
      · rw [hcontrols] at hhead
        cases hhead
        exact List.mem_append_right _ List.mem_cons_self
  | @leaves worker hleft =>
    refine h.quiet ⟨rfl, rfl⟩ rfl rfl ?_ ?_ ?_
    · intro hstays
      rw [hleft] at hstays
      cases hstays
    · exact fun _ hmem => hmem
    · exact fun _ hmem => .inl hmem

end Queue

section Settled

variable {events : List (Event Frame)} {s t : State Frame} {e : Event Frame}

/-- A step settles no request, and a request that is settled stays what it is; or it settles
one that was pending. -/
inductive Settles (s : State Frame) (e : Event Frame) (t : State Frame) : Prop where
  | none : settlements [e] = [] →
    (∀ c state, state ≠ .pending → (t.stateOf c = some state ↔ s.stateOf c = some state)) →
    Settles s e t
  | one {control : Nat} {canceller : Option Canceller} {new : RequestState} :
    settlements [e] = [(control, canceller)] → s.stateOf control = some .pending →
    new ≠ .pending → (∀ c, t.stateOf c = if control = c then some new else s.stateOf c) →
    Settles s e t

theorem Settles.of_exchange {u : State Frame} {control : Nat} {canceller : Option Canceller}
    {new : RequestState} (hexchange : s.exchange control new = some t)
    (he : settlements [e] = [(control, canceller)]) (hnew : new ≠ .pending)
    (hrequests : u.requests = t.requests) : Settles s e u := by
  refine .one he (exchange_eq_some.mp hexchange).1 hnew fun c => ?_
  rw [← stateOf_exchange hexchange, State.stateOf, State.stateOf, hrequests]

theorem ReaderStep.settles (hstep : ReaderStep environment s e t) : Settles s e t := by
  cases hstep with
  | active | takes | sends | keeps | answers => exact .none rfl fun _ _ _ => Iff.rfl
  | @admits message _ =>
    refine .none rfl fun c state hstate => ?_
    simp only [State.stateOf, List.getElem?_append]
    split
    · rfl
    · rw [List.getElem?_eq_none (l := s.requests) (Nat.not_lt.mp ‹_›), List.getElem?_singleton]
      split
      · constructor
        · rintro ⟨⟩
          exact absurd rfl hstate
        · rintro ⟨⟩
      · rfl
  | cancels _ hexchange => exact .of_exchange hexchange rfl (by decide) rfl
  | cancelsAll hexchange _ _ => exact .of_exchange hexchange rfl (by decide) rfl
  | signals | unanswered | signalsAll =>
    refine .none rfl fun c state _ => ?_
    rw [← stateOf_signal s]
    rfl
  | retires he _ _ =>
    refine .none ?_ fun _ _ _ => Iff.rfl
    rcases he with rfl | rfl
    · rfl
    · rfl

theorem WorkerStep.settles (hstep : WorkerStep environment s e t) : Settles s e t := by
  cases hstep with
  | completes _ hexchange => exact .of_exchange hexchange rfl (by decide) rfl
  | _ => exact .none rfl fun _ _ _ => Iff.rfl

/-- The settled requests are those that are not pending, and each was settled once. -/
structure Settled (events : List (Event Frame)) (s : State Frame) : Prop where
  settled : ∀ c, c ∈ (settlements events).map Prod.fst ↔
    ∃ state, state ≠ .pending ∧ s.stateOf c = some state
  once : ((settlements events).map Prod.fst).Nodup

theorem settlements_append (events : List (Event Frame)) (e : Event Frame) :
    settlements (events ++ [e]) = settlements events ++ settlements [e] := List.filterMap_append

theorem Settled.start : Settled [] (State.start : State Frame) where
  settled c := by
    constructor
    · rintro ⟨⟩
    · rintro ⟨_, _, ⟨⟩⟩
  once := List.nodup_nil

theorem Settled.step (h : Settled events s) (hstep : Settles s e t) :
    Settled (events ++ [e]) t := by
  cases hstep with
  | none he hstate =>
    constructor
    · intro c
      rw [settlements_append, he, List.append_nil, h.settled c]
      refine exists_congr fun state => and_congr_right fun hne => ?_
      exact (hstate c state hne).symm
    · rw [settlements_append, he, List.append_nil]
      exact h.once
  | @one control canceller new he hpending hnew hstate =>
    constructor
    · intro c
      rw [settlements_append, he, List.map_append, List.mem_append, h.settled c, hstate c]
      split
      · subst control
        simp [hnew]
      · simp [Ne.symm ‹_›]
    · rw [settlements_append, he, List.map_append]
      refine List.nodup_append.mpr ⟨h.once, List.nodup_singleton _, ?_⟩
      rintro c hmem _ (_ | ⟨_, ⟨⟩⟩) rfl
      obtain ⟨state, hne, hstate⟩ := (h.settled _).mp hmem
      rw [hpending] at hstate
      cases hstate
      exact hne rfl

/-- The worker is past `complete`. -/
def Worker.past : Worker Frame → List Nat
  | .answering control _ | .popping control => [control]
  | _ => []

/-- A request that is finished, or that the worker is done completing, is settled. -/
def Finished (events : List (Event Frame)) (s : State Frame) : Prop :=
  ∀ c ∈ finishes events ++ s.worker.past, c ∈ (settlements events).map Prod.fst

theorem Finished.quiet (h : Finished events s) (he : finishes [e] = [])
    (hworker : ∀ c ∈ t.worker.past, c ∈ s.worker.past) : Finished (events ++ [e]) t := by
  intro c hmem
  rw [finishes_append, he, List.append_nil, List.mem_append] at hmem
  rw [settlements_append, List.map_append, List.mem_append]
  left
  apply h c
  rw [List.mem_append]
  rcases hmem with hmem | hmem
  · exact .inl hmem
  · exact .inr (hworker c hmem)

theorem Finished.reader (h : Finished events s) (hstep : ReaderStep environment s e t) :
    Finished (events ++ [e]) t := by
  cases hstep with
  | cancels _ hexchange | cancelsAll hexchange _ _ =>
    refine h.quiet rfl fun c hmem => ?_
    rw [← (length_exchange hexchange).2.2.2.1]
    exact hmem
  | retires he _ _ =>
    refine h.quiet ?_ fun _ hmem => hmem
    rcases he with rfl | rfl
    · rfl
    · rfl
  | _ => exact h.quiet rfl fun _ hmem => hmem

theorem Finished.worker (h : Finished events s) (hqueue : Queue events s)
    (hsettled : Settled events s) (hstep : WorkerStep environment s e t) :
    Finished (events ++ [e]) t := by
  cases hstep with
  | receives | looks | skips | starts | handles =>
    exact h.quiet rfl (by rintro c ⟨⟩)
  | @completes control response _ hworker hexchange =>
    intro c hmem
    rw [settlements_append, List.map_append]
    rcases List.mem_append.mp hmem with hmem | hmem
    · rw [finishes_append] at hmem
      exact List.mem_append_left _ (h c (List.mem_append_left _ (by simpa [finishes] using hmem)))
    · have hc : c = control := by
        cases response with
        | none => simpa [Worker.past] using hmem
        | some response => simpa [Worker.past] using hmem
      exact List.mem_append_right _ (List.mem_singleton.mpr hc)
  | @refused control response hworker hexchange =>
    intro c hmem
    rw [settlements_append, List.map_append]
    apply List.mem_append_left
    rcases List.mem_append.mp hmem with hmem | hmem
    · rw [finishes_append] at hmem
      exact h c (List.mem_append_left _ (by simpa [finishes] using hmem))
    · obtain rfl : c = control := by simpa [Worker.past] using hmem
      -- The request is in the queue, so it is known; it was not pending, so it is settled.
      obtain ⟨rest, hcontrols⟩ := hqueue.front (by rw [hworker]; rfl)
      have hknown : c ∈ List.range s.requests.length := by
        rw [← hqueue.numbered, hqueue.queued, hcontrols]
        exact List.mem_append_right _ List.mem_cons_self
      obtain ⟨r, hr⟩ : ∃ r, s.requests[c]? = some r :=
        ⟨_, List.getElem?_eq_getElem (List.mem_range.mp hknown)⟩
      have hstate : s.stateOf c = some r.state := by rw [State.stateOf, hr]; rfl
      refine (hsettled.settled c).mpr ⟨r.state, ?_, hstate⟩
      intro hpending
      rw [State.exchange, if_pos (by rw [hstate, hpending])] at hexchange
      cases hexchange
  | answers hworker hnext =>
    refine h.quiet rfl fun c hmem => ?_
    rw [hworker]
    rcases hnext with rfl | rfl
    · exact hmem
    · cases hmem
  | @pops control hworker =>
    intro c hmem
    rw [settlements_append, List.map_append]
    apply List.mem_append_left
    apply h c
    rw [hworker]
    rw [finishes_append] at hmem
    simpa [finishes, Worker.past] using hmem
  | leaves hleft =>
    refine h.quiet rfl fun c hmem => ?_
    rename_i worker
    cases worker with
    | returning | stopped => cases hmem
    | _ => cases hleft

end Settled

section Order

variable {events : List (Event Frame)} {s t : State Frame} {e : Event Frame}

/-- Requests are completed in the order of the queue. -/
structure Ordered (events : List (Event Frame)) (s : State Frame) : Prop where
  increasing : (completions events).Pairwise (· < ·)
  before : ∀ c ∈ completions events, c ∈ finishes events ∨ s.controls.head? = some c

theorem completions_append (events : List (Event Frame)) (e : Event Frame) :
    completions (events ++ [e]) = completions events ++ completions [e] := List.filterMap_append

theorem mem_completions {c : Nat} : c ∈ completions events ↔ .completed c ∈ events := by
  rw [completions, List.mem_filterMap]
  constructor
  · rintro ⟨e, hmem, he⟩
    cases e with
    | completed => cases he; exact hmem
    | _ => cases he
  · intro hmem
    exact ⟨_, hmem, rfl⟩

theorem mem_settlements {c : Nat} {canceller : Option Canceller} :
    (c, canceller) ∈ settlements events ↔
      match canceller with
      | none => .completed c ∈ events
      | some canceller => .cancelled c canceller ∈ events := by
  rw [settlements, List.mem_filterMap]
  constructor
  · rintro ⟨e, hmem, he⟩
    cases e with
    | completed | cancelled => cases he; exact hmem
    | _ => cases he
  · intro hmem
    cases canceller with
    | none => exact ⟨_, hmem, rfl⟩
    | some canceller => exact ⟨_, hmem, rfl⟩

theorem Ordered.quiet (h : Ordered events s) (he : completions [e] = [] ∧ finishes [e] = [])
    (hcontrols : ∀ c, s.controls.head? = some c → t.controls.head? = some c) :
    Ordered (events ++ [e]) t := by
  constructor
  · rw [completions_append, he.1, List.append_nil]
    exact h.increasing
  · intro c hmem
    rw [completions_append, he.1, List.append_nil] at hmem
    rw [finishes_append, he.2, List.append_nil]
    rcases h.before c hmem with hmem | hhead
    · exact .inl hmem
    · exact .inr (hcontrols c hhead)

theorem Ordered.reader (h : Ordered events s) (hstep : ReaderStep environment s e t) :
    Ordered (events ++ [e]) t := by
  cases hstep with
  | admits _ =>
    refine h.quiet ⟨rfl, rfl⟩ fun c hhead => ?_
    rw [List.head?_append, hhead]
    rfl
  | cancels _ hexchange | cancelsAll hexchange _ _ =>
    refine h.quiet ⟨rfl, rfl⟩ fun c hhead => ?_
    rw [← (length_exchange hexchange).2.1] at hhead
    exact hhead
  | retires he _ _ =>
    refine h.quiet ?_ fun _ hhead => hhead
    rcases he with rfl | rfl
    · exact ⟨rfl, rfl⟩
    · exact ⟨rfl, rfl⟩
  | _ => exact h.quiet ⟨rfl, rfl⟩ fun _ hhead => hhead

theorem Ordered.worker (h : Ordered events s) (hqueue : Queue events s)
    (hsettled : Settled events s) (hstep : WorkerStep environment s e t) :
    Ordered (events ++ [e]) t := by
  cases hstep with
  | @completes control response _ hworker hexchange =>
    obtain ⟨rest, hcontrols⟩ := hqueue.front (by rw [hworker]; rfl)
    have hpending := (exchange_eq_some.mp hexchange).1
    have hnot : control ∉ completions events := by
      intro hmem
      have hsettle : (control, none) ∈ settlements events :=
        mem_settlements.mpr (mem_completions.mp hmem)
      obtain ⟨state, hne, hstate⟩ := (hsettled.settled control).mp
        (List.mem_map_of_mem (f := Prod.fst) hsettle)
      rw [hpending] at hstate
      cases hstate
      exact hne rfl
    have hbefore : ∀ c ∈ completions events, c ∈ finishes events := by
      intro c hmem
      rcases h.before c hmem with hfinished | hhead
      · exact hfinished
      · rw [hcontrols] at hhead
        cases hhead
        exact absurd hmem hnot
    have hsorted : (finishes events ++ s.controls).Pairwise (· < ·) := by
      rw [← hqueue.queued, hqueue.numbered]
      exact List.pairwise_lt_range
    constructor
    · rw [completions_append]
      refine List.pairwise_append.mpr ⟨h.increasing, List.pairwise_singleton _ _, ?_⟩
      rintro c hmem _ (_ | ⟨_, ⟨⟩⟩)
      exact (List.pairwise_append.mp hsorted).2.2 c (hbefore c hmem) control
        (by rw [hcontrols]; exact List.mem_cons_self)
    · intro c hmem
      rw [completions_append] at hmem
      rw [finishes_append]
      rcases List.mem_append.mp hmem with hmem | hmem
      · exact .inl (List.mem_append_left _ (hbefore c hmem))
      · right
        rw [List.mem_singleton.mp hmem, (length_exchange hexchange).2.1, hcontrols]
        rfl
  | @pops control hworker =>
    obtain ⟨rest, hcontrols⟩ := hqueue.front (by rw [hworker]; rfl)
    constructor
    · rw [completions_append]
      exact (List.append_nil (completions events)).symm ▸ h.increasing
    · intro c hmem
      rw [completions_append] at hmem
      rw [finishes_append]
      left
      rcases h.before c (by simpa [completions] using hmem) with hfinished | hhead
      · exact List.mem_append_left _ hfinished
      · rw [hcontrols] at hhead
        cases hhead
        exact List.mem_append_right _ List.mem_cons_self
  | _ => exact h.quiet ⟨rfl, rfl⟩ fun _ hhead => hhead

end Order

section Owed

variable {events : List (Event Frame)} {s t : State Frame} {e : Event Frame}

/-- Every answer, and every answer still owed, is for a request that was completed or that
a client cancelled, once each. -/
structure Owed (events : List (Event Frame)) (s : State Frame) : Prop where
  results : (results events ++ s.worker.owed).Sublist (completions events)
  cancellations : (cancellations events ++ s.reader.owed).Sublist (clientCancels events)

theorem Owed.start : Owed [] (State.start : State Frame) := ⟨.refl _, .refl _⟩

/-- A step that answers what is owed, or drops it, or owes the answer to what it settles. -/
theorem Owed.step (h : Owed events s)
    (hworker : (Session.results [e] ++ t.worker.owed).Sublist (s.worker.owed ++ completions [e]))
    (hreader : (Session.cancellations [e] ++ t.reader.owed).Sublist
      (s.reader.owed ++ clientCancels [e])) : Owed (events ++ [e]) t := by
  constructor
  · rw [Session.results, completions_append, List.filterMap_append, List.append_assoc]
    refine ((List.Sublist.refl _).append hworker).trans ?_
    rw [← List.append_assoc]
    exact h.results.append (.refl _)
  · rw [Session.cancellations, clientCancels, List.filterMap_append, List.filterMap_append,
      List.append_assoc]
    refine ((List.Sublist.refl _).append hreader).trans ?_
    rw [← List.append_assoc]
    exact h.cancellations.append (.refl _)

theorem Owed.reader (h : Owed events s) (hstep : ReaderStep environment s e t) :
    Owed (events ++ [e]) t := by
  have hworker {u : State Frame} (he : Session.results [e] = [] ∧ completions [e] = [])
      (hu : u.worker = s.worker) :
      (Session.results [e] ++ u.worker.owed).Sublist (s.worker.owed ++ completions [e]) := by
    rw [he.1, he.2, hu, List.append_nil]
    exact .refl _
  cases hstep with
  | active hreader | takes hreader | admits hreader | sends hreader | keeps hreader =>
    exact h.step (hworker ⟨rfl, rfl⟩ rfl) (List.nil_sublist _)
  | cancels hreader hexchange =>
    obtain ⟨-, -, -, hsame, -⟩ := length_exchange hexchange
    exact h.step (hworker ⟨rfl, rfl⟩ hsame) (List.sublist_append_right _ _)
  | signals hreader =>
    refine h.step (hworker ⟨rfl, rfl⟩ rfl) ?_
    rw [hreader]
    exact .refl _
  | unanswered hreader => exact h.step (hworker ⟨rfl, rfl⟩ rfl) (List.nil_sublist _)
  | answers hreader _ howed =>
    refine h.step (hworker ⟨rfl, rfl⟩ rfl) ?_
    rw [hreader]
    show List.Sublist (_ ++ Reader.owed _) _
    rw [howed]
    exact .refl _
  | cancelsAll hexchange _ howed =>
    obtain ⟨-, -, -, hsame, -⟩ := length_exchange hexchange
    refine h.step (hworker ⟨rfl, rfl⟩ hsame) ?_
    show List.Sublist (_ ++ Reader.owed _) _
    rw [howed]
    exact List.nil_sublist _
  | signalsAll _ howed =>
    refine h.step (hworker ⟨rfl, rfl⟩ rfl) ?_
    show List.Sublist (_ ++ Reader.owed _) _
    rw [howed]
    exact List.nil_sublist _
  | retires he _ howed =>
    rcases he with rfl | rfl
    all_goals
      refine h.step (hworker ⟨rfl, rfl⟩ rfl) ?_
      show List.Sublist (_ ++ Reader.owed _) _
      rw [howed]
      exact List.nil_sublist _

theorem Owed.worker (h : Owed events s) (hstep : WorkerStep environment s e t) :
    Owed (events ++ [e]) t := by
  have hreader {u : State Frame} (he : Session.cancellations [e] = [])
      (hu : u.reader = s.reader) : (Session.cancellations [e] ++ u.reader.owed).Sublist
        (s.reader.owed ++ clientCancels [e]) := by
    rw [he, hu]
    exact List.sublist_append_left _ _
  cases hstep with
  | receives | looks | skips | starts | handles | refused | pops =>
    exact h.step (List.nil_sublist _) (hreader rfl rfl)
  | @completes control response _ _ hexchange =>
    obtain ⟨-, -, -, -, hsame⟩ := length_exchange hexchange
    refine h.step ?_ (hreader rfl hsame)
    cases response with
    | none => exact List.nil_sublist _
    | some response => exact List.sublist_append_right _ _
  | answers hworker hnext =>
    refine h.step ?_ (hreader rfl rfl)
    rw [hworker]
    rcases hnext with rfl | rfl
    · exact .refl _
    · exact .refl _
  | @leaves worker hleft =>
    refine h.step ?_ (hreader rfl rfl)
    cases worker with
    | answering => cases hleft
    | _ => exact List.nil_sublist _

end Owed

section Payload

variable {events : List (Event Frame)} {s t : State Frame} {e : Event Frame}

/-- What an answer to a request may say: what the service makes of its message, or the answer
to the cancel of that message. -/
inductive Justified (environment : Environment Frame Service) (events : List (Event Frame))
    (control : Nat) : Answer → Prop where
  | result {message : Option Frame} {response : String} (service : Service) :
    .admitted control message ∈ events →
    environment.handleParsed service message = some response →
    Justified environment events control (.result response)
  | cancellation {message : Option Frame} {response : String} :
    .admitted control message ∈ events →
    message.bind environment.cancellationResponse = some response →
    Justified environment events control (.cancellation response)

/-- The message that the reader is sending. -/
def Reader.carries : Reader Frame → List (Option Frame × Nat)
  | .admitting message control => [(message, control)]
  | _ => []

/-- The message that the worker is at. -/
def Worker.carries : Worker Frame → List (Option Frame × Nat)
  | .received message control | .locking message control | .handling message control =>
    [(message, control)]
  | _ => []

/-- The answers that reader and worker are about to write. -/
def State.prepared (s : State Frame) : List (Nat × Answer) :=
  (match s.worker with
    | .handled control (some response) | .answering control response =>
      [(control, .result response)]
    | _ => []) ++
  (match s.reader with
    | .answering control response => [(control, .cancellation response)]
    | _ => [])

def State.carries (s : State Frame) : List (Option Frame × Nat) :=
  s.worker.carries ++ s.channel ++ s.reader.carries

/-- Messages stay with their requests. -/
structure Payload (environment : Environment Frame Service) (events : List (Event Frame))
    (s : State Frame) : Prop where
  carried : ∀ message control, (message, control) ∈ s.carries → .admitted control message ∈ events
  controls : ∀ control r, s.requests[control]? = some r → ∃ message,
    .admitted control message ∈ events ∧
      r.cancellationResponse = message.bind environment.cancellationResponse
  prepared : ∀ control answer, (control, answer) ∈ s.prepared →
    Justified environment events control answer
  answered : ∀ control answer, .answered control answer ∈ events →
    Justified environment events control answer

theorem Justified.mono {control : Nat} {answer : Answer}
    (h : Justified environment events control answer) :
    Justified environment (events ++ [e]) control answer := by
  cases h with
  | result service hmem hresponse => exact .result service (List.mem_append_left _ hmem) hresponse
  | cancellation hmem hresponse => exact .cancellation (List.mem_append_left _ hmem) hresponse

/-- The requests of a state keep their answers to a cancel. -/
def Keeps (s t : State Frame) : Prop :=
  ∀ (control : Nat) (r : RequestControl), t.requests[control]? = some r →
    ∃ r' : RequestControl, s.requests[control]? = some r' ∧
      r.cancellationResponse = r'.cancellationResponse

theorem Keeps.modify {control : Nat} {f : RequestControl → RequestControl}
    (hrequests : t.requests = s.requests.modify control f)
    (hf : ∀ r, (f r).cancellationResponse = r.cancellationResponse) : Keeps s t := by
  intro c r hr
  rw [hrequests, List.getElem?_modify] at hr
  obtain ⟨r', hr', rfl⟩ := Option.map_eq_some_iff.mp hr
  refine ⟨r', hr', ?_⟩
  split
  · exact hf r'
  · rfl

theorem Keeps.exchange {u : State Frame} {control : Nat} {new : RequestState}
    (hexchange : s.exchange control new = some t) (hrequests : u.requests = t.requests) :
    Keeps s u := by
  obtain ⟨-, rfl⟩ := exchange_eq_some.mp hexchange
  exact .modify hrequests fun _ => rfl

theorem Keeps.same (h : t.requests = s.requests) : Keeps s t := by
  intro control r hr
  rw [h] at hr
  exact ⟨r, hr, rfl⟩

/-- A step that admits nothing, and prepares only what it may. -/
theorem Payload.step (h : Payload environment events s)
    (hcarried : ∀ entry ∈ t.carries, entry ∈ s.carries) (hkeeps : Keeps s t)
    (hprepared : ∀ control answer, (control, answer) ∈ t.prepared →
      (control, answer) ∈ s.prepared ∨ Justified environment events control answer)
    (hanswered : ∀ control answer, .answered control answer = e →
      (control, answer) ∈ s.prepared) : Payload environment (events ++ [e]) t := by
  constructor
  · intro message control hmem
    exact List.mem_append_left _ (h.carried message control (hcarried _ hmem))
  · intro control r hr
    obtain ⟨r', hr', heq⟩ := hkeeps control r hr
    obtain ⟨message, hmem, hresponse⟩ := h.controls control r' hr'
    exact ⟨message, List.mem_append_left _ hmem, heq.trans hresponse⟩
  · intro control answer hmem
    rcases hprepared control answer hmem with hmem | hjustified
    · exact (h.prepared control answer hmem).mono
    · exact hjustified.mono
  · intro control answer hmem
    rcases List.mem_append.mp hmem with hmem | hmem
    · exact (h.answered control answer hmem).mono
    · exact (h.prepared control answer (hanswered control answer (List.mem_singleton.mp hmem))).mono

theorem Payload.start : Payload environment [] (State.start : State Frame) := by
  constructor
  · rintro _ _ ⟨⟩
  · rintro _ _ ⟨⟩
  · rintro _ _ ⟨⟩
  · rintro _ _ ⟨⟩

/-- What only the reader of a state decides. -/
theorem carries_reader (hchannel : t.channel = s.channel) (hworker : t.worker = s.worker)
    (hreader : t.reader.carries = []) : ∀ entry ∈ t.carries, entry ∈ s.carries := by
  intro entry hmem
  rw [State.carries, hchannel, hworker, hreader, List.append_nil] at hmem
  exact List.mem_append_left _ hmem

theorem prepared_reader (hworker : t.worker = s.worker)
    (hreader : ∀ control response, t.reader ≠ .answering control response) (control : Nat)
    (answer : Answer) (hmem : (control, answer) ∈ t.prepared) :
    (control, answer) ∈ s.prepared ∨ Justified environment events control answer := by
  rw [State.prepared, hworker] at hmem
  rcases List.mem_append.mp hmem with hmem | hmem
  · exact .inl (List.mem_append_left _ hmem)
  · cases hr : t.reader with
    | answering => exact absurd hr (hreader _ _)
    | _ => rw [hr] at hmem; cases hmem

theorem carries_none {reader : Reader Frame} (h : reader.unsent = none) : reader.carries = [] := by
  cases reader with
  | admitting => cases h
  | _ => rfl

theorem answering_none {reader : Reader Frame} (h : reader.unsent = none) (control : Nat)
    (response : String) : reader ≠ .answering control response := by
  rintro rfl
  cases h

theorem Payload.reader (h : Payload environment events s)
    (hstep : ReaderStep environment s e t) : Payload environment (events ++ [e]) t := by
  cases hstep with
  | active | takes | keeps =>
    refine h.step (carries_reader rfl rfl rfl) (.same rfl) (prepared_reader rfl (by rintro _ _ ⟨⟩))
      (by rintro _ _ ⟨⟩)
  | @admits message hreader =>
    have hnew : .admitted s.requests.length message ∈
        events ++ [Event.admitted s.requests.length message] := by simp
    constructor
    · intro m c hmem
      rcases List.mem_append.mp hmem with hmem | hmem
      · exact List.mem_append_left _ (h.carried m c (List.mem_append_left _ hmem))
      · cases List.mem_singleton.mp hmem
        exact hnew
    · intro c r hr
      rw [List.getElem?_append] at hr
      split at hr
      · obtain ⟨m, hmem, hresponse⟩ := h.controls c r hr
        exact ⟨m, List.mem_append_left _ hmem, hresponse⟩
      · rw [List.getElem?_singleton] at hr
        split at hr
        · cases hr
          obtain rfl : c = s.requests.length := by omega
          exact ⟨message, hnew, rfl⟩
        · cases hr
    · intro c a hmem
      have hprepared : (c, a) ∈ s.prepared ∨ Justified environment events c a :=
        prepared_reader (by rfl) (by rintro _ _ ⟨⟩) c a hmem
      rcases hprepared with hmem | hjustified
      · exact (h.prepared c a hmem).mono
      · exact hjustified.mono
    · intro c a hmem
      rcases List.mem_append.mp hmem with hmem | hmem
      · exact (h.answered c a hmem).mono
      · cases List.mem_singleton.mp hmem
  | @sends message control hreader =>
    refine h.step ?_ (.same rfl) (prepared_reader rfl (by rintro _ _ ⟨⟩)) (by rintro _ _ ⟨⟩)
    intro entry hmem
    show entry ∈ s.worker.carries ++ s.channel ++ s.reader.carries
    rw [hreader]
    simpa [State.carries, Reader.carries] using hmem
  | cancels _ hexchange =>
    obtain ⟨-, -, hchannel, hworker, -⟩ := length_exchange hexchange
    refine h.step (carries_reader hchannel hworker rfl) (.exchange hexchange rfl)
      (prepared_reader hworker (by rintro _ _ ⟨⟩)) (by rintro _ _ ⟨⟩)
  | @signals control response hreader hresponse =>
    refine h.step (carries_reader rfl rfl rfl) (.modify rfl fun _ => rfl) (fun c a hmem => ?_)
      (by rintro _ _ ⟨⟩)
    rcases List.mem_append.mp hmem with hmem | hmem
    · exact .inl (List.mem_append_left _ hmem)
    · cases List.mem_singleton.mp hmem
      obtain ⟨r, hr, hanswer⟩ := Option.bind_eq_some_iff.mp hresponse
      obtain ⟨message, hadmitted, heq⟩ := h.controls control r hr
      exact .inr (.cancellation hadmitted (heq.symm.trans hanswer))
  | unanswered =>
    refine h.step (carries_reader rfl rfl rfl) (.modify rfl fun _ => rfl) 
      (prepared_reader rfl (by rintro _ _ ⟨⟩)) (by rintro _ _ ⟨⟩)
  | @answers control response reader hreader hnext _ =>
    have hnext : reader.carries = [] ∧ ∀ c r, reader ≠ .answering c r := by
      rcases hnext with rfl | hnone
      · exact ⟨rfl, by rintro _ _ ⟨⟩⟩
      · exact ⟨carries_none hnone, answering_none hnone⟩
    refine h.step (carries_reader rfl rfl hnext.1) (.same rfl) (prepared_reader rfl hnext.2) ?_
    · rintro _ _ ⟨⟩
      rw [State.prepared, hreader]
      exact List.mem_append_right _ (List.mem_singleton.mpr rfl)
  | cancelsAll hexchange hnone _ =>
    obtain ⟨-, -, hchannel, hworker, -⟩ := length_exchange hexchange
    refine h.step (carries_reader hchannel hworker (carries_none hnone)) (.exchange hexchange rfl)
      (prepared_reader hworker (answering_none hnone)) (by rintro _ _ ⟨⟩)
  | signalsAll hnone _ =>
    refine h.step (carries_reader rfl rfl (carries_none hnone)) (.modify rfl fun _ => rfl)
      (prepared_reader rfl (answering_none hnone)) (by rintro _ _ ⟨⟩)
  | retires he hnone _ =>
    refine h.step (carries_reader rfl rfl (carries_none hnone)) (.same rfl)
      (prepared_reader rfl (answering_none hnone)) ?_
    rcases he with rfl | rfl
    · rintro _ _ ⟨⟩
    · rintro _ _ ⟨⟩

/-- What only the worker of a state decides. -/
theorem carries_worker (hchannel : t.channel = s.channel) (hreader : t.reader = s.reader)
    (hworker : ∀ entry ∈ t.worker.carries, entry ∈ s.worker.carries) :
    ∀ entry ∈ t.carries, entry ∈ s.carries := by
  intro entry hmem
  rw [State.carries, List.append_assoc, hchannel, hreader] at hmem
  rw [State.carries, List.append_assoc]
  rcases List.mem_append.mp hmem with hmem | hmem
  · exact List.mem_append_left _ (hworker entry hmem)
  · exact List.mem_append_right _ hmem

/-- The result that the worker holds. -/
def Worker.holds : Worker Frame → Option (Nat × String)
  | .handled control (some response) | .answering control response => some (control, response)
  | _ => none

theorem prepared_worker (hreader : t.reader = s.reader) (control : Nat) (answer : Answer)
    (hmem : (control, answer) ∈ t.prepared) : (control, answer) ∈ s.prepared ∨
      ∃ response, answer = .result response ∧ t.worker.holds = some (control, response) := by
  rw [State.prepared, hreader] at hmem
  rcases List.mem_append.mp hmem with hmem | hmem
  · right
    split at hmem
    · cases List.mem_singleton.mp hmem
      exact ⟨_, rfl, by rw [‹t.worker = _›]; rfl⟩
    · cases List.mem_singleton.mp hmem
      exact ⟨_, rfl, by rw [‹t.worker = _›]; rfl⟩
    · cases hmem
  · exact .inl (List.mem_append_right _ hmem)

theorem mem_prepared {control : Nat} {response : String}
    (h : s.worker.holds = some (control, response)) :
    (control, .result response) ∈ s.prepared := by
  apply List.mem_append_left
  cases hw : s.worker with
  | answering => rw [hw] at h; cases h; exact List.mem_cons_self
  | handled c r =>
    rw [hw] at h
    cases r with
    | none => cases h
    | some r => cases h; exact List.mem_cons_self
  | _ => rw [hw] at h; cases h

theorem Payload.worker (h : Payload environment events s)
    (hstep : WorkerStep environment s e t) : Payload environment (events ++ [e]) t := by
  -- The worker holds nothing that it did not hold before, or that is justified.
  have hprepared {u : State Frame} (hreader : u.reader = s.reader)
      (hholds : ∀ c r, u.worker.holds = some (c, r) →
        s.worker.holds = some (c, r) ∨ Justified environment events c (.result r)) (c : Nat)
      (a : Answer) (hmem : (c, a) ∈ u.prepared) :
      (c, a) ∈ s.prepared ∨ Justified environment events c a := by
    rcases prepared_worker hreader c a hmem with hmem | ⟨response, rfl, hheld⟩
    · exact .inl hmem
    · rcases hholds c response hheld with hheld | hjustified
      · exact .inl (mem_prepared hheld)
      · exact .inr hjustified
  cases hstep with
  | @receives message control channel hworker hchannel =>
    refine h.step ?_ (.same rfl) (hprepared rfl (by rintro _ _ ⟨⟩)) (by rintro _ _ ⟨⟩)
    intro entry hmem
    rw [State.carries, hworker, hchannel]
    exact hmem
  | looks hworker | starts hworker =>
    refine h.step (carries_worker rfl rfl ?_) (.same rfl) (hprepared rfl (by rintro _ _ ⟨⟩))
      (by rintro _ _ ⟨⟩)
    rw [hworker]
    exact fun _ hmem => hmem
  | skips hworker | refused hworker _ | pops hworker =>
    exact h.step (carries_worker rfl rfl (by rintro _ ⟨⟩)) (.same rfl)
      (hprepared rfl (by rintro _ _ ⟨⟩)) (by rintro _ _ ⟨⟩)
  | @handles message control service hworker =>
    refine h.step (carries_worker rfl rfl (by rintro _ ⟨⟩)) (.same rfl) (hprepared rfl ?_)
      (by rintro _ _ ⟨⟩)
    intro c r hheld
    right
    have hadmitted : .admitted control message ∈ events := by
      apply h.carried
      rw [State.carries, hworker]
      exact List.mem_cons_self
    cases hresponse : environment.handleParsed service message with
    | none => simp [hresponse, Worker.holds] at hheld
    | some response =>
      simp only [hresponse, Worker.holds, Option.some.injEq, Prod.mk.injEq] at hheld
      obtain ⟨rfl, rfl⟩ := hheld
      exact .result service hadmitted hresponse
  | @completes control response u hworker hexchange =>
    obtain ⟨-, -, hchannel, -, hreader⟩ := length_exchange hexchange
    refine h.step (carries_worker hchannel hreader ?_) (.exchange hexchange rfl)
      (hprepared hreader ?_) (by rintro _ _ ⟨⟩)
    · cases response with
      | none => rintro _ ⟨⟩
      | some response => rintro _ ⟨⟩
    · rw [hworker]
      cases response with
      | none => rintro _ _ ⟨⟩
      | some response => exact fun _ _ hheld => .inl hheld
  | @answers control response worker hworker hnext =>
    have hnext : worker.carries = [] ∧ worker.holds = none := by
      rcases hnext with rfl | rfl
      · exact ⟨rfl, rfl⟩
      · exact ⟨rfl, rfl⟩
    refine h.step (carries_worker rfl rfl ?_) (.same rfl) (hprepared rfl ?_) ?_
    · rw [hnext.1]
      rintro _ ⟨⟩
    · rw [hnext.2]
      rintro _ _ ⟨⟩
    · rintro _ _ ⟨⟩
      apply mem_prepared
      rw [hworker]
      rfl
  | @leaves worker hleft =>
    have hnext : worker.carries = [] ∧ worker.holds = none := by
      cases worker with
      | returning | stopped => exact ⟨rfl, rfl⟩
      | _ => cases hleft
    refine h.step (carries_worker rfl rfl ?_) (.same rfl) (hprepared rfl ?_) (by rintro _ _ ⟨⟩)
    · rw [hnext.1]
      rintro _ ⟨⟩
    · rw [hnext.2]
      rintro _ _ ⟨⟩

end Payload

end KRust.Rpc.Session
