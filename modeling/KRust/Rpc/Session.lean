import KRust.Lib.Machine

/-!
The session of a connection: the reader admits requests and cancels them, the worker runs
them one at a time and answers. A step is one operation on what the two share: the queue of
controls under its lock, the state of a request, the channel between them, the connection.
-/

set_option linter.unusedSectionVars false

namespace KRust.Rpc.Session

open KRust.Lib

/-- `REQUEST_PENDING`, `REQUEST_CANCELLED`, `REQUEST_COMPLETED` -/
inductive RequestState where
  | pending
  | cancelled
  | completed
  deriving DecidableEq

structure RequestControl where
  token : Bool
  state : RequestState
  cancellationResponse : Option String
  deriving DecidableEq

/-- Where the reader is. It may be in `end`, which an orderly end runs twice: in `finish`,
and when the session is dropped after it. -/
inductive Reader (Frame : Type) where
  /-- Waits for the next message. -/
  | reading
  /-- In `admit`, between the queue and the channel. -/
  | admitting (message : Option Frame) (control : Nat)
  /-- In `active.cancel()`, before the exchange and between it and the token. -/
  | cancelling (control : Nat)
  | signalling (control : Nat)
  /-- Writes the answer to a standalone cancel. -/
  | answering (control : Nat) (response : String)
  /-- In `end`: before the lock, over the controls under the lock, before the sender is
  dropped, in `join`. -/
  | leaving (finishing : Bool)
  | cancellingAll (finishing : Bool) (controls : List Nat)
  | signallingAll (finishing : Bool) (control : Nat) (controls : List Nat)
  | closing (finishing : Bool)
  | joining (finishing : Bool)
  | ended
  deriving DecidableEq

/-- Where the worker is. -/
inductive Worker (Frame : Type) where
  /-- Waits on the channel. -/
  | receiving
  /-- Before the first look at the request. -/
  | received (message : Option Frame) (control : Nat)
  /-- Waits for the service. -/
  | locking (message : Option Frame) (control : Nat)
  | handling (message : Option Frame) (control : Nat)
  /-- Before `complete`, with the response. -/
  | handled (control : Nat) (response : Option String)
  | answering (control : Nat) (response : String)
  | popping (control : Nat)
  /-- Has left its loop and still holds the receiver. -/
  | returning
  | stopped
  deriving DecidableEq

structure State (Frame : Type) where
  /-- The requests that were admitted; a control stands for its place here. -/
  requests : List RequestControl
  controls : List Nat
  channel : List (Option Frame × Nat)
  /-- Whether the session holds the sender. -/
  sender : Bool
  reader : Reader Frame
  worker : Worker Frame
  deriving DecidableEq

def State.start {Frame : Type} : State Frame := ⟨[], [], [], true, .reading, .receiving⟩

/-- What moves the reader. A message and what becomes of a write come from outside. -/
inductive ReaderAction (Frame : Type) where
  | read (message : Option Frame)
  | send
  | exchange
  | signal
  | write (written : Bool)
  | close
  | leave
  | lock
  | unlock
  | dropSender
  | join

/-- What moves the worker. The service that a request is handled with and what becomes of a
lock or a write come from outside. -/
inductive WorkerAction (Service : Type) where
  | receive
  | look
  | lockService (poisoned : Bool)
  | handle (service : Service)
  | panic
  | complete
  | write (written : Bool)
  | pop (poisoned : Bool)
  | stop

/-- Who cancels a request: a standalone cancel or the end of the session. -/
inductive Canceller where
  | client
  | ending
  deriving DecidableEq

inductive Answer where
  | result (response : String)
  | cancellation (response : String)
  deriving DecidableEq

/-- What a step shows. -/
inductive Event (Frame : Type) where
  | admitted (control : Nat) (message : Option Frame)
  /-- A standalone cancel takes the active request. -/
  | active (control : Option Nat)
  | cancelled (control : Nat) (canceller : Canceller)
  | started (control : Nat)
  | completed (control : Nat)
  /-- An answer is written to the connection. -/
  | answered (control : Nat) (answer : Answer)
  /-- The worker is done with a request, and what it removed from the queue. -/
  | finished (control : Nat) (removed : Option Nat)
  | ended
  | silent
  deriving DecidableEq

section Steps

variable {Frame Service : Type}

namespace State

def stateOf (s : State Frame) (control : Nat) : Option RequestState :=
  s.requests[control]?.map RequestControl.state

/-- `compare_exchange` of a pending state. -/
def exchange (s : State Frame) (control : Nat) (new : RequestState) : Option (State Frame) :=
  if s.stateOf control = some .pending then
    some { s with requests := s.requests.modify control fun r => { r with state := new } }
  else none

def isCancelled (s : State Frame) (control : Nat) : Bool := s.stateOf control = some .cancelled

def signal (s : State Frame) (control : Nat) : State Frame :=
  { s with requests := s.requests.modify control fun r => { r with token := true } }

def cancellationResponse (s : State Frame) (control : Nat) : Option String :=
  s.requests[control]?.bind RequestControl.cancellationResponse

end State

/-- What the session is given: which messages are standalone cancels, the answer to the
cancel of a request, and the handling of a request by the service. -/
structure Environment (Frame Service : Type) where
  isStandaloneCancel : Frame → Bool
  cancellationResponse : Frame → Option String
  handleParsed : Service → Option Frame → Option String

variable (environment : Environment Frame Service)

def RequestControl.new (message : Option Frame) : RequestControl :=
  ⟨false, .pending, message.bind environment.cancellationResponse⟩

/-- A message that was read: a standalone cancel takes the front of the queue, anything else
is admitted at its back. -/
def readMessage (s : State Frame) (message : Option Frame) : Event Frame × State Frame :=
  if message.any environment.isStandaloneCancel then
    match s.controls.head? with
    | none => (.active none, { s with reader := .reading })
    | some control => (.active (some control), { s with reader := .cancelling control })
  else
    let control := s.requests.length
    (.admitted control message,
      { s with
        requests := s.requests ++ [RequestControl.new environment message]
        controls := s.controls ++ [control]
        reader := .admitting message control })

def Worker.hasStopped : Worker Frame → Bool
  | .stopped => true
  | _ => false

/-- `serve_connection` with `end` of the session. -/
def stepReader (s : State Frame) (a : ReaderAction Frame) : Option (Event Frame × State Frame) :=
  match s.reader, a with
  | .reading, .read message => some (readMessage environment s message)
  | .reading, .close => some (.silent, { s with reader := .leaving true })
  | .admitting message control, .send =>
    if s.worker.hasStopped then some (.silent, { s with reader := .leaving true })
    else some (.silent, { s with channel := s.channel ++ [(message, control)], reader := .reading })
  | .cancelling control, .exchange =>
    match s.exchange control .cancelled with
    | some s => some (.cancelled control .client, { s with reader := .signalling control })
    | none => some (.silent, { s with reader := .reading })
  | .signalling control, .signal =>
    match s.cancellationResponse control with
    | some response =>
      some (.silent, { s.signal control with reader := .answering control response })
    | none => some (.silent, { s.signal control with reader := .reading })
  | .answering control response, .write written =>
    some (.answered control (.cancellation response),
      { s with reader := if written then .reading else .leaving true })
  -- An early return or an unwinding ends the session when it is dropped.
  | .reading, .leave | .admitting _ _, .leave | .cancelling _, .leave | .signalling _, .leave
  | .answering _ _, .leave => some (.silent, { s with reader := .leaving false })
  | .leaving finishing, .lock =>
    some (.silent, { s with reader := .cancellingAll finishing s.controls })
  | .cancellingAll finishing (control :: controls), .exchange =>
    match s.exchange control .cancelled with
    | some s =>
      some (.cancelled control .ending,
        { s with reader := .signallingAll finishing control controls })
    | none => some (.silent, { s with reader := .cancellingAll finishing controls })
  | .signallingAll finishing control controls, .signal =>
    some (.silent, { s.signal control with reader := .cancellingAll finishing controls })
  | .cancellingAll finishing [], .unlock => some (.silent, { s with reader := .closing finishing })
  | .closing finishing, .dropSender =>
    some (.silent, { s with sender := false, reader := .joining finishing })
  | .joining finishing, .join =>
    if s.worker.hasStopped then
      if finishing then some (.silent, { s with reader := .leaving false })
      else some (.ended, { s with reader := .ended })
    else none
  | _, _ => none

/-- Whether the reader holds the lock of the queue from one step to the next. -/
def Reader.holdsLock : Reader Frame → Bool
  | .cancellingAll _ _ | .signallingAll _ _ _ => true
  | _ => false

/-- The worker that `start` spawns. -/
def stepWorker (s : State Frame) (a : WorkerAction Service) : Option (Event Frame × State Frame) :=
  match s.worker, a with
  | .receiving, .receive =>
    match s.channel with
    | (message, control) :: channel =>
      some (.silent, { s with channel := channel, worker := .received message control })
    | [] => if s.sender then none else some (.silent, { s with worker := .returning })
  | .received message control, .look =>
    if s.isCancelled control then some (.silent, { s with worker := .handled control none })
    else some (.silent, { s with worker := .locking message control })
  | .locking message control, .lockService poisoned =>
    if poisoned then some (.silent, { s with worker := .returning })
    else if s.isCancelled control then some (.silent, { s with worker := .handled control none })
    else some (.started control, { s with worker := .handling message control })
  | .handling message control, .handle service =>
    some (.silent,
      { s with worker := .handled control (environment.handleParsed service message) })
  | .handling _ _, .panic => some (.silent, { s with worker := .returning })
  | .handled control response, .complete =>
    match s.exchange control .completed, response with
    | some s, some response =>
      some (.completed control, { s with worker := .answering control response })
    | some s, none => some (.completed control, { s with worker := .popping control })
    | none, _ => some (.silent, { s with worker := .popping control })
  | .answering control response, .write written =>
    some (.answered control (.result response),
      { s with worker := if written then .popping control else .returning })
  | .popping control, .pop poisoned =>
    if s.reader.holdsLock then none
    else if poisoned then some (.silent, { s with worker := .returning })
    else some (.finished control s.controls.head?,
      { s with controls := s.controls.tail, worker := .receiving })
  | .returning, .stop => some (.silent, { s with worker := .stopped })
  | _, _ => none

/-- Reader and worker take turns in any order. -/
def session : Machine (State Frame) (ReaderAction Frame ⊕ WorkerAction Service) (Event Frame) where
  initial := .start
  step s := Sum.elim (stepReader environment s) (stepWorker environment s)

end Steps

end KRust.Rpc.Session
