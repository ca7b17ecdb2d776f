import KRust.Lib.Utf8
import Mathlib.Data.List.Basic
import Mathlib.Data.Prod.Lex

/-!
The scanner that frames a stream of bytes into messages: a state machine over the open arrays
and objects that stops where it needs another byte and goes on from there, and the members of
a request that it records on the way.
-/

set_option linter.unusedSectionVars false

namespace KRust.Rpc.Framing

open KRust.Lib

/-- The bytes of a text. -/
def ascii (text : String) : List UInt8 := text.toList.map fun c => c.toNat.toUInt8

/-- `bytes[first..last]` -/
def slice (bytes : List UInt8) (range : Nat × Nat) : List UInt8 :=
  (bytes.drop range.1).take (range.2 - range.1)

/-- The byte of a character of ASCII. -/
def byte (c : Char) : UInt8 := c.toNat.toUInt8

def isWhitespace (b : UInt8) : Bool :=
  b = byte ' ' || b = byte '\n' || b = byte '\t' || b = byte '\r'

def isDigit (b : UInt8) : Bool := byte '0' ≤ b && b ≤ byte '9'

def isHexDigit (b : UInt8) : Bool :=
  isDigit b || (byte 'a' ≤ b && b ≤ byte 'f') || (byte 'A' ≤ b && b ≤ byte 'F')

/-- The byte after a scalar message does not go on with it. -/
def mayFollow (b : UInt8) : Bool :=
  isWhitespace b || b = byte '"' || b = byte '[' || b = byte ']' || b = byte '\x7b' ||
    b = byte '\x7d' || b = byte ',' || b = byte ':'

section Members

/-- `REQUEST_MEMBERS` -/
def requestMembers : List String := ["jsonrpc", "method", "id", "params"]

/-- `PARAMS` -/
def params : Fin 4 := 3

structure MemberScan where
  namesDecode : Bool
  request : Fin 4 → Option (Nat × Nat)
  haskellLogging : Option (Nat × Nat)
  member : Option (Fin 4)
  memberStart : Nat
  inParams : Bool
  paramsNamesDecode : Bool
  paramsLogging : Option (Nat × Nat)
  loggingMember : Bool
  loggingStart : Nat

def MemberScan.start : MemberScan :=
  ⟨true, fun _ => none, none, none, 0, false, true, none, false, 0⟩

/-- How the serialization library reads a string with escapes. -/
structure Names where
  fromStr : List Char → Option (List Char)

variable (names : Names)

/-- `decode_name`: the name that a string, with its quotes, gives. -/
def decodeName (key : List UInt8) : Option (List Char) := do
  let text ← Utf8.decode key
  let inner := text.tail.dropLast
  if '\\' ∈ inner then names.fromStr text else some inner

/-- The place of a name among the request members. -/
def memberOf (name : List Char) : Option (Fin 4) := requestMembers.finIdxOf? (String.ofList name)

namespace MemberScan

def key (m : MemberScan) (depth : Nat) (key : List UInt8) : MemberScan :=
  let name := decodeName names key
  if depth = 1 then
    { m with namesDecode := m.namesDecode && name.isSome, member := name.bind memberOf }
  else if depth = 2 ∧ m.inParams then
    { m with
      paramsNamesDecode := m.paramsNamesDecode && name.isSome
      loggingMember := name.any fun name => name = "haskell-logging".toList }
  else m

def valueStarts (m : MemberScan) (depth start : Nat) (first : UInt8) : MemberScan :=
  if depth = 1 then
    if m.member = some params then
      { m with
        memberStart := start
        inParams := first = byte '\x7b'
        paramsNamesDecode := true
        paramsLogging := none }
    else { m with memberStart := start }
  else if depth = 2 ∧ m.inParams then { m with loggingStart := start }
  else m

def valueEnds (m : MemberScan) (depth stop : Nat) : MemberScan :=
  if depth = 1 then
    let request := fun i => if m.member = some i then some (m.memberStart, stop) else m.request i
    if m.member = some params then
      { m with
        request := request
        haskellLogging :=
          m.paramsLogging.filter fun _ => m.inParams && m.paramsNamesDecode
        paramsLogging := none
        inParams := false }
    else { m with request := request }
  else if depth = 2 ∧ m.inParams ∧ m.loggingMember then
    { m with paramsLogging := some (m.loggingStart, stop) }
  else m

end MemberScan

end Members

inductive Outcome where
  | complete (stop : Nat)
  | syntaxError
  | eof
  | needByte
  deriving DecidableEq

inductive Role where
  | value
  | key
  deriving DecidableEq

/-- Where the scanner is in the grammar. -/
inductive State where
  | start
  | value
  | literal (rest : List UInt8)
  | integerFirst
  | integerZero
  | integerDigits
  | numberTail
  | fractionFirst
  | fractionDigits
  | fractionTail
  | exponentSign
  | exponentFirst
  | exponentDigits
  | string (role : Role)
  | escape (role : Role)
  | hex (role : Role) (digit : Nat)
  | inner (acceptComma : Bool)
  | keyQuote
  | colon
  | peekEnd
  | done
  deriving DecidableEq

/-- How many turns at most the scanner takes before it reads another byte. -/
def State.rank : State → Nat
  | .integerZero | .integerDigits => 5
  | .fractionDigits => 4
  | .numberTail | .fractionTail | .exponentDigits => 3
  | .start | .inner _ => 2
  | .value | .exponentSign | .peekEnd => 1
  | .literal _ | .integerFirst | .fractionFirst | .exponentFirst | .string _ | .escape _
  | .hex _ _ | .keyQuote | .colon | .done => 0

structure Scanner where
  state : State
  /-- The next byte to examine. -/
  pos : Nat
  /-- The open arrays and objects, innermost first. -/
  stack : List UInt8
  /-- The first byte of the value. -/
  root : Option UInt8
  valueStart : Nat
  keyStart : Nat
  members : MemberScan

namespace Scanner

def start : Scanner := ⟨.start, 0, [], none, 0, 0, .start⟩

def isScalar (s : Scanner) : Bool :=
  s.root.any fun b =>
    b = byte 't' || b = byte 'f' || b = byte 'n' || b = byte '-' || isDigit b

/-- The members of an object every member name of which decodes. -/
def recorded (s : Scanner) : Option ((Fin 4 → Option (Nat × Nat)) × Option (Nat × Nat)) :=
  if s.root = some (byte '\x7b') ∧ s.members.namesDecode then
    some (s.members.request, s.members.haskellLogging)
  else none

/-- `self.pos += 1` with a new state. -/
def move (s : Scanner) (state : State) : Scanner := { s with pos := s.pos + 1, state := state }

def goto (s : Scanner) (state : State) : Scanner := { s with state := state }

/-- A value has ended: the scanner goes on in its array or object, or ends the message. -/
def valueDone (s : Scanner) : Scanner :=
  { s with
    members := s.members.valueEnds s.stack.length s.pos
    state :=
      if !s.stack.isEmpty then .inner true else if s.isScalar then .peekEnd else .done }

def afterComma (opened : UInt8) : State := if opened = byte '\x7b' then .keyQuote else .value

def close (s : Scanner) : Scanner :=
  valueDone { s with pos := s.pos + 1, stack := s.stack.tail }

variable (names : Names)

def stringDone (s : Scanner) (role : Role) (bytes : List UInt8) : Scanner :=
  match role with
  | .value => s.valueDone
  | .key =>
    { s with
      members := s.members.key names s.stack.length (slice bytes (s.keyStart, s.pos))
      state := .colon }

/-- A byte at which a string cannot be skipped. -/
def stopsString (b : UInt8) : Bool := b = byte '"' || b = byte '\\' || b < 0x20

/-- The bytes of a string up to the next at which it ends or escapes. -/
def skipString (s : Scanner) (role : Role) (bytes : List UInt8) : Scanner × Option Outcome :=
  match (bytes.drop s.pos).findIdx? stopsString with
  | none => ({ s with pos := bytes.length }, none)
  | some offset =>
    let b := (bytes.drop s.pos).getD offset 0
    let s := { s with pos := s.pos + offset + 1 }
    if b = byte '"' then (s.stringDone names role bytes, none)
    else if b = byte '\\' then (s.goto (.escape role), none)
    else (s, some .syntaxError)

/-- The first byte of a value. -/
def firstByte (s : Scanner) (b : UInt8) : Scanner × Option Outcome :=
  if b = byte 'n' then (s.move (.literal (ascii "ull")), none)
  else if b = byte 't' then (s.move (.literal (ascii "rue")), none)
  else if b = byte 'f' then (s.move (.literal (ascii "alse")), none)
  else if b = byte '-' then (s.move .integerFirst, none)
  else if isDigit b then (s.goto .integerFirst, none)
  else if b = byte '"' then (s.move (.string .value), none)
  else if b = byte '[' || b = byte '\x7b' then
    ({ s with stack := b :: s.stack, pos := s.pos + 1, state := .inner false }, none)
  else (s, some .syntaxError)

/-- One turn of `scan`: the byte is the one at `pos`, or none at the end of the stream. The
scanner goes on, or is done with an outcome. -/
def step (bytes : List UInt8) (next : Option UInt8) (s : Scanner) : Scanner × Option Outcome :=
  match s.state, next with
  | .start, some b =>
    if isWhitespace b then (s.move .start, none)
    else ({ s with root := some b, valueStart := s.pos, state := .value }, none)
  | .value, some b =>
    if isWhitespace b then (s.move .value, none)
    else firstByte { s with members := s.members.valueStarts s.stack.length s.pos b } b
  | .literal rest, some b =>
    match rest with
    -- `rest[0]`
    | [] => (s, some .syntaxError)
    | expected :: rest =>
      if b = expected then
        if rest.isEmpty then (valueDone { s with pos := s.pos + 1 }, none) else (s.move (.literal rest), none)
      else (s, some .syntaxError)
  | .integerFirst, some b =>
    if b = byte '0' then (s.move .integerZero, none)
    else if isDigit b then (s.move .integerDigits, none)
    else (s, some .syntaxError)
  | .integerFirst, none => (s, some .syntaxError)
  | .integerZero, some b =>
    if isDigit b then (s, some .syntaxError) else (s.goto .numberTail, none)
  | .integerZero, none => (s.goto .numberTail, none)
  | .integerDigits, some b =>
    if isDigit b then (s.move .integerDigits, none) else (s.goto .numberTail, none)
  | .integerDigits, none => (s.goto .numberTail, none)
  | .numberTail, some b =>
    if b = byte '.' then (s.move .fractionFirst, none)
    else if b = byte 'e' || b = byte 'E' then (s.move .exponentSign, none)
    else (s.valueDone, none)
  | .numberTail, none => (s.valueDone, none)
  | .fractionFirst, some b =>
    if isDigit b then (s.move .fractionDigits, none) else (s, some .syntaxError)
  | .fractionFirst, none => (s, some .syntaxError)
  | .fractionDigits, some b =>
    if isDigit b then (s.move .fractionDigits, none) else (s.goto .fractionTail, none)
  | .fractionDigits, none => (s.goto .fractionTail, none)
  | .fractionTail, some b =>
    if b = byte 'e' || b = byte 'E' then (s.move .exponentSign, none) else (s.valueDone, none)
  | .fractionTail, none => (s.valueDone, none)
  | .exponentSign, some b =>
    if b = byte '+' || b = byte '-' then (s.move .exponentFirst, none)
    else (s.goto .exponentFirst, none)
  | .exponentSign, none => (s.goto .exponentFirst, none)
  | .exponentFirst, some b =>
    if isDigit b then (s.move .exponentDigits, none) else (s, some .syntaxError)
  | .exponentFirst, none => (s, some .syntaxError)
  | .exponentDigits, some b =>
    if isDigit b then (s.move .exponentDigits, none) else (s.valueDone, none)
  | .exponentDigits, none => (s.valueDone, none)
  | .string role, some _ => s.skipString names role bytes
  | .escape role, some b =>
    if b ∈ ascii "\"\\/bfnrt" then (s.move (.string role), none)
    else if b = byte 'u' then (s.move (.hex role 0), none)
    else (s, some .syntaxError)
  | .hex role digit, some _ =>
    if digit < 3 then (s.move (.hex role (digit + 1)), none)
    else if (slice bytes (s.pos + 1 - 4, s.pos + 1)).all isHexDigit then
      (s.move (.string role), none)
    else (s.move (.hex role digit), some .syntaxError)
  | .inner acceptComma, some b =>
    match s.stack with
    -- `expect("an open array or object")`
    | [] => (s, some .syntaxError)
    | opened :: _ =>
      if isWhitespace b then (s.move (.inner acceptComma), none)
      else if b = byte ',' && acceptComma then (s.move (afterComma opened), none)
      else if b = byte ']' && opened = byte '[' then (s.close, none)
      else if b = byte '\x7d' && opened = byte '\x7b' then (s.close, none)
      else if acceptComma then (s, some .syntaxError)
      else (s.goto (afterComma opened), none)
  | .keyQuote, some b =>
    if isWhitespace b then (s.move .keyQuote, none)
    else if b = byte '"' then ({ s.move (.string .key) with keyStart := s.pos }, none)
    else (s, some .syntaxError)
  | .colon, some b =>
    if isWhitespace b then (s.move .colon, none)
    else if b = byte ':' then (s.move .value, none)
    else (s, some .syntaxError)
  | .peekEnd, some b => if mayFollow b then (s.goto .done, none) else (s, some .syntaxError)
  | .peekEnd, none => (s.goto .done, none)
  | .done, _ => (s, some (.complete s.pos))
  | .start, none | .value, none | .literal _, none | .string _, none | .escape _, none
  | .hex _ _, none | .inner _, none | .keyQuote, none | .colon, none => (s, some .eof)

theorem rank_valueDone (s : Scanner) : s.valueDone.state.rank ≤ 2 := by
  unfold valueDone
  dsimp only
  split
  · decide
  · split <;> decide

theorem rank_afterComma (opened : UInt8) : (afterComma opened).rank < 2 := by
  unfold afterComma
  split <;> decide

/-- A turn that goes on reads bytes, or is one of the turns before one. -/
def Decreases (bytes : List UInt8) (s t : Scanner) : Prop :=
  Prod.Lex (· < ·) (· < ·) (bytes.length - t.pos, t.state.rank)
    (bytes.length - s.pos, s.state.rank)

theorem Decreases.read {bytes : List UInt8} {s t : Scanner} {b : UInt8}
    (hnext : bytes[s.pos]? = some b) (h : s.pos < t.pos) : Decreases bytes s t := by
  have hpos : s.pos < bytes.length := (List.getElem?_eq_some_iff.mp hnext).1
  exact .left _ _ (by omega)

theorem Decreases.stay {bytes : List UInt8} {s t : Scanner} (hpos : t.pos = s.pos)
    (hrank : t.state.rank < s.state.rank) : Decreases bytes s t := by
  rw [Decreases, hpos]
  exact .right _ hrank

theorem firstByte_decreases {bytes : List UInt8} {s t u : Scanner} {b : UInt8}
    (hnext : bytes[s.pos]? = some b) (hs : s.state = .value) (hu : u.pos = s.pos)
    (h : firstByte u b = (t, none)) : Decreases bytes s t := by
  unfold firstByte at h
  split_ifs at h
  all_goals first
    | (cases h; done)
    | (cases h; exact .read hnext (by rw [← hu]; exact Nat.lt_succ_self _))
    | (cases h; exact .stay hu (by rw [hs]; exact Nat.zero_lt_one))

theorem step_decreases {bytes : List UInt8} {s t : Scanner} {next : Option UInt8}
    (hnext : next = bytes[s.pos]?) (h : step names bytes next s = (t, none)) :
    Decreases bytes s t := by
  -- What a turn without a byte leaves is of a smaller rank.
  have hdone (hrank : 2 < s.state.rank) : Decreases bytes s s.valueDone :=
    .stay rfl (Nat.lt_of_le_of_lt (rank_valueDone s) hrank)
  have hgoto {state : State} (hrank : state.rank < s.state.rank) : Decreases bytes s (s.goto state) :=
    .stay rfl hrank
  unfold step at h
  split at h
  case h_2 =>
    split at h
    · cases h
      exact .read hnext.symm (Nat.lt_succ_self _)
    · exact firstByte_decreases hnext.symm ‹_› (by rfl) h
  case h_3 =>
    split at h
    · cases h
    · split_ifs at h
      · cases h
        exact .read hnext.symm (Nat.lt_succ_self _)
      · cases h
        exact .read hnext.symm (Nat.lt_succ_self _)
      · cases h
  case h_24 =>
    have hpos := (List.getElem?_eq_some_iff.mp hnext.symm).1
    unfold skipString at h
    split at h
    · cases h
      exact .read hnext.symm hpos
    · rename_i role _ _ _ _ _
      dsimp only at h
      split_ifs at h
      · cases h
        cases role with
        | value => exact .read hnext.symm (Nat.lt_succ_of_le (Nat.le_add_right _ _))
        | key => exact .read hnext.symm (Nat.lt_succ_of_le (Nat.le_add_right _ _))
      · cases h
        exact .read hnext.symm (Nat.lt_succ_of_le (Nat.le_add_right _ _))
      · cases h
  case h_27 =>
    split at h
    · cases h
    · split_ifs at h
      all_goals cases h
      · exact .read hnext.symm (Nat.lt_succ_self _)
      · exact .read hnext.symm (Nat.lt_succ_self _)
      · exact .read hnext.symm (Nat.lt_succ_self _)
      · exact .read hnext.symm (Nat.lt_succ_self _)
      · apply hgoto
        rw [‹s.state = _›]
        exact rank_afterComma _
  -- A byte is read, or the state is one of a smaller rank.
  all_goals
    try split_ifs at h
    all_goals first
      | (cases h; done)
      | (cases h; exact .read hnext.symm (Nat.lt_succ_self _))
      | (cases h; exact hgoto (by rw [‹s.state = _›]; decide))
      | (cases h; exact hdone (by rw [‹s.state = _›]; decide))

/-- `scan`; a scanner that needs a byte stays where it is. -/
def scan (bytes : List UInt8) (atEnd : Bool) (s : Scanner) : Outcome × Scanner :=
  if bytes[s.pos]? = none ∧ !atEnd ∧ s.state ≠ .done then (.needByte, s)
  else
    match _h : step names bytes bytes[s.pos]? s with
    | (s, some outcome) => (outcome, s)
    | (s, none) => scan bytes atEnd s
termination_by (bytes.length - s.pos, s.state.rank)
decreasing_by exact step_decreases names rfl _h

/-- The scanning of a stream that arrives in chunks: after each chunk the scanner goes on with
the bytes so far, and after the last one it may be told that no byte follows. -/
def feed (atEnd : Bool) (s : Scanner) (buffer : List UInt8) (chunks : List (List UInt8)) :
    Outcome × Scanner :=
  match scan names buffer false s with
  | (.needByte, t) =>
    match chunks with
    | [] => scan names buffer atEnd t
    | chunk :: chunks => feed atEnd t (buffer ++ chunk) chunks
  | result => result

end Scanner

structure Frame where
  text : List UInt8
  start : Nat
  members : Option ((Fin 4 → Option (Nat × Nat)) × Option (Nat × Nat))

namespace Frame

/-- `value` -/
def value (frame : Frame) : List UInt8 := frame.text.drop frame.start

/-- `members`: the text of each request member, and of the logging member. -/
def texts (frame : Frame) : Option ((Fin 4 → Option (List UInt8)) × Option (List UInt8)) :=
  frame.members.map fun (request, logging) =>
    (fun i => (request i).map (slice frame.text), logging.map (slice frame.text))

/-- `take`: the message that ends at `stop`, and the buffer without it. -/
def take (buffer : List UInt8) (scanner : Scanner) (stop : Nat) : Option Frame × List UInt8 :=
  match Utf8.decode (buffer.take stop) with
  | some _ =>
    (some ⟨buffer.take stop, scanner.valueStart, scanner.recorded⟩, buffer.drop stop)
  | none => (none, buffer)

end Frame

end KRust.Rpc.Framing
