import KRust.Lib.Reader

/-!
JSON syntax trees and the parser that reads them: a state machine over the open arrays
and objects and what may come next. What it takes from the serialization library, the
reading and writing of numbers and of strings with escapes, is a parameter.
-/

set_option linter.unusedSectionVars false

namespace KRust.Json

open KRust.Lib

inductive Node where
  | null
  | bool (value : Bool)
  | number (token : List Char)
  | string (value : String)
  | array (values : List Node)
  | object (members : List (String × Node))

namespace Node

def kind : Node → String
  | .null => "null"
  | .bool _ => "boolean"
  | .number _ => "number"
  | .string _ => "string"
  | .array _ => "array"
  | .object _ => "object"

def intoArray : Node → Option (List Node)
  | .array values => some values
  | _ => none

def intoObject : Node → Option (List (String × Node))
  | .object members => some members
  | _ => none

def intoString : Node → Option String
  | .string value => some value
  | _ => none

mutual

/-- The nodes of a tree. -/
def size : Node → Nat
  | .array values => 1 + sizeValues values
  | .object members => 1 + sizeMembers members
  | .null | .bool _ | .number _ | .string _ => 1

def sizeValues : List Node → Nat
  | [] => 0
  | value :: values => size value + sizeValues values

def sizeMembers : List (String × Node) → Nat
  | [] => 0
  | member :: members => sizeMember member + sizeMembers members

def sizeMember : String × Node → Nat
  | (_, value) => size value

end

theorem sizeValues_eq (values : List Node) : sizeValues values = (values.map size).sum := by
  induction values with
  | nil => rfl
  | cons value values ih => rw [sizeValues, ih, List.map_cons, List.sum_cons]

theorem sizeMembers_eq (members : List (String × Node)) :
    sizeMembers members = (members.map fun member => size member.2).sum := by
  induction members with
  | nil => rfl
  | cons member members ih =>
    rcases member with ⟨key, value⟩
    rw [sizeMembers, ih, List.map_cons, List.sum_cons, sizeMember]

theorem one_le_size (root : Node) : 1 ≤ root.size := by
  cases root <;> simp [size]

end Node

/-- `Error`: a message and the place in the text. -/
structure Error where
  line : Nat
  column : Nat
  message : String
  deriving DecidableEq

/-- What the parser takes from the serialization library: its check of a number token and
its reading of a string token that has escapes. -/
structure TokenReader where
  number : List Char → Except String Unit
  string : List Char → Except String String

namespace Parse

section Positions

/-- `Parser::error`, where `rest` is what is left of the text. -/
def errorAt (input rest : List Char) (message : String) : Error :=
  let before := input.take (input.length - rest.length)
  { line := before.count '\n' + 1
    column := (before.reverse.takeWhile (· ≠ '\n')).length + 1
    message }

abbrev Parser := Reader Char Error

variable (input : List Char)

def error {α : Type} (message : String) : Parser α := do
  Reader.fail (errorAt input (← Reader.ahead) message)

end Positions

section Tokens

def isSpace (c : Char) : Bool := c = ' ' || c = '\t' || c = '\r' || c = '\n'

/-- What ends the token of a number. -/
def isDelimiter (c : Char) : Bool := isSpace c || c = ',' || c = ']' || c = '}'

def whitespace : Parser (List Char) := Reader.takeWhile isSpace

variable (tokens : TokenReader) (input : List Char)

def consume (c : Char) : Parser Bool := do
  return (← Reader.take (· = c)).isSome

def expect (c : Char) (message : String) : Parser Unit := do
  if ← consume c then return () else error input message

def literal (token : List Char) (value : Node) : Parser Node := do
  if ← Reader.takeAll token then return value
  else error input ("expected `" ++ String.ofList token ++ "`")

def number : Parser (List Char) := do
  let token ← Reader.takeWhile (!isDelimiter ·)
  match tokens.number token with
  | .ok () => return token
  | .error message => error input message

/-- What was read of a string: its text so far, and whether it has escapes. -/
structure StringState where
  escaped : Bool
  text : List Char

/-- A character of a string, an escape, or the end of the string. -/
def stringStep (s : StringState) : Parser (StringState ⊕ StringState) := do
  match ← Reader.take (fun c => 0x20 ≤ c.toNat) with
  | none =>
    if (← Reader.ahead).isEmpty then error input "unterminated string"
    else error input "control character in string"
  | some '"' => return .inr s
  | some '\\' =>
    match ← Reader.take (fun _ => true) with
    | none => error input "unterminated escape sequence"
    | some c => return .inl ⟨true, s.text ++ ['\\', c]⟩
  | some c => return .inl ⟨s.escaped, s.text ++ [c]⟩

theorem stringStep_advances (s : StringState) : (stringStep input s).Advances := by
  apply Reader.Advances.take
  apply Reader.Advances.bind
  intro ahead
  split <;> exact (Reader.Strict.bind_right fun _ => Reader.Strict.fail _).advances

/-- The text between the quotes, or what its escapes make of it. -/
def string : Parser String := do
  expect input '"' "expected a string"
  let s ← Reader.loop (stringStep input) (stringStep_advances input) ⟨false, []⟩
  if s.escaped then
    match tokens.string ('"' :: s.text ++ ['"']) with
    | .ok value => return value
    | .error message => error input message
  else return String.ofList s.text

inductive ValueStart where
  | value (value : Node)
  | array
  | object

def value : Parser ValueStart := do
  match (← Reader.ahead).head? with
  | some '\x7b' =>
    let _ ← consume '\x7b'
    return .object
  | some '[' =>
    let _ ← consume '['
    return .array
  | some '"' => return .value (.string (← string tokens input))
  | some 't' => return .value (← literal input "true".toList (.bool true))
  | some 'f' => return .value (← literal input "false".toList (.bool false))
  | some 'n' => return .value (← literal input "null".toList .null)
  | some c =>
    if c = '-' || c.isDigit then return .value (.number (← number tokens input))
    else error input "expected a JSON value"
  | none => error input "expected a JSON value"

end Tokens

section Machine

/-- An array or an object that was opened, with what it holds so far. -/
inductive Frame where
  | array (values : List Node)
  | object (members : List (String × Node)) (key : Option String)

inductive Action where
  | value
  | arrayValueOrEnd
  | arrayDelimiter
  | objectKeyOrEnd
  | objectKey
  | objectDelimiter
  | finished

/-- What the loop keeps: the open arrays and objects, innermost first, the value of the
whole text once it is known, and what may come next. -/
structure State where
  stack : List Frame
  root : Option Node
  action : Action

def attach (value : Node) (stack : List Frame) (root : Option Node) : Except String State :=
  match stack with
  | .array values :: rest => .ok ⟨.array (values ++ [value]) :: rest, root, .arrayDelimiter⟩
  | .object members (some key) :: rest =>
    .ok ⟨.object (members ++ [(key, value)]) none :: rest, root, .objectDelimiter⟩
  | .object _ none :: _ => .error "object value has no key"
  | [] => .ok ⟨[], some value, .finished⟩

variable (tokens : TokenReader) (input : List Char)

def attached (value : Node) (stack : List Frame) (root : Option Node) : Parser (State ⊕ Node) :=
  match attach value stack root with
  | .ok state => pure (.inl state)
  | .error message => error input message

/-- The end of an array; the frame on top is always one of an array. -/
def closeArray (state : State) : Parser (State ⊕ Node) :=
  match state.stack with
  | .array values :: stack => attached input (.array values) stack state.root
  | _ => error input "array action has an array frame"

def closeObject (state : State) : Parser (State ⊕ Node) :=
  match state.stack with
  | .object members _ :: stack => attached input (.object members) stack state.root
  | _ => error input "object action has an object frame"

def valueStep (state : State) : Parser (State ⊕ Node) := do
  match ← value tokens input with
  | .value value => attached input value state.stack state.root
  | .array => return .inl ⟨.array [] :: state.stack, state.root, .arrayValueOrEnd⟩
  | .object => return .inl ⟨.object [] none :: state.stack, state.root, .objectKeyOrEnd⟩

def keyStep (state : State) : Parser (State ⊕ Node) := do
  let key ← string tokens input
  match state.stack with
  | .object members _ :: stack =>
    if members.any fun member => member.1 = key then
      error input ("duplicate field `" ++ key ++ "`")
    else
      let _ ← whitespace
      expect input ':' "expected `:` after object key"
      return .inl ⟨.object members (some key) :: stack, state.root, .value⟩
  | _ => error input "object-key action has an object frame"

/-- A turn of the loop, after the whitespace. -/
def turn (state : State) : Parser (State ⊕ Node) := do
  match state.action with
  | .value => valueStep tokens input state
  | .arrayValueOrEnd =>
    if ← consume ']' then closeArray input state
    else
      -- the turn of the loop for a value, which the source takes next
      let _ ← whitespace
      valueStep tokens input state
  | .arrayDelimiter =>
    if ← consume ',' then return .inl { state with action := .value }
    else if ← consume ']' then closeArray input state
    else error input "expected `,` or `]`"
  | .objectKeyOrEnd =>
    if ← consume '\x7d' then closeObject input state else keyStep tokens input state
  | .objectKey => keyStep tokens input state
  | .objectDelimiter =>
    if ← consume ',' then return .inl { state with action := .objectKey }
    else if ← consume '\x7d' then closeObject input state
    else error input "expected `,` or `\x7d`"
  | .finished =>
    if (← Reader.ahead).isEmpty then
      match state.root with
      | some value => return .inr value
      | none => error input "expected a JSON value"
    else error input "trailing characters"

def step (state : State) : Parser (State ⊕ Node) := do
  let _ ← whitespace
  turn tokens input state

section Advances

theorem error_strict {α : Type} (message : String) : (error input message : Parser α).Strict :=
  Reader.Strict.bind_right fun _ => Reader.Strict.fail _

@[simp] theorem run_consume_nil (c : Char) : (consume c).run [] = .ok (false, []) := rfl

theorem run_consume_cons (c d : Char) (chars : List Char) :
    (consume c).run (d :: chars)
      = if d = c then .ok (true, chars) else .ok (false, d :: chars) := by
  rw [consume, Reader.run_bind, Reader.run_take_cons]
  by_cases h : d = c <;> simp [h]

/-- A character that has to be there is read. -/
theorem expect_strict (c : Char) (message : String) : (expect input c message).Strict := by
  rintro (_ | ⟨d, chars⟩) a rest h
  · cases h
  · rw [expect, Reader.run_bind, run_consume_cons] at h
    by_cases hd : d = c
    · rw [if_pos hd] at h
      cases h
      simp
    · rw [if_neg hd] at h
      cases h

/-- A token that has to be there is read. -/
theorem literal_strict {token : List Char} (htoken : token ≠ []) (value : Node) :
    (literal input token value).Strict := by
  intro chars a rest h
  rw [literal, Reader.run_bind, Reader.run_takeAll] at h
  by_cases hahead : token.isPrefixOf chars = true
  · rw [if_pos hahead] at h
    cases h
    have hlength := (List.isPrefixOf_iff_prefix.mp hahead).length_le
    have := List.length_pos_iff.mpr htoken
    rw [List.length_drop]
    omega
  · rw [if_neg hahead] at h
    cases h

theorem advances_consume {σ α : Type} {c : Char} {f : Bool → Parser (σ ⊕ α)}
    (hfalse : (f false).Advances) : (consume c >>= f).Advances := by
  rw [consume, bind_assoc]
  exact Reader.Advances.take hfalse

theorem string_strict : (string tokens input).Strict :=
  (expect_strict input '"' "expected a string").bind_left _

/-- A number starts with a character that does not end one. -/
theorem number_shorter {c : Char} {chars rest token : List Char} (hc : isDelimiter c = false)
    (h : (number tokens input).run (c :: chars) = .ok (token, rest)) :
    rest.length < (c :: chars).length := by
  obtain ⟨text, middle, htext, h⟩ := Reader.bind_ok h
  have hmiddle : middle = chars.dropWhile (!isDelimiter ·) := by
    rw [Reader.run_takeWhile, List.dropWhile_cons_of_pos (by simp [hc])] at htext
    cases htext
    rfl
  rw [hmiddle] at h
  have hle := (Reader.suffix _ h).length_le
  have hdrop := (List.dropWhile_suffix (l := chars) (!isDelimiter ·)).length_le
  rw [List.length_cons]
  omega

theorem digit_not_delimiter {c : Char} (h : (c = '-' || c.isDigit) = true) :
    isDelimiter c = false := by
  simp only [Bool.or_eq_true, decide_eq_true_eq] at h
  rcases h with rfl | h
  · rfl
  · unfold isDelimiter isSpace
    simp only [Bool.or_eq_false_iff, decide_eq_false_iff_not]
    refine ⟨⟨⟨⟨⟨⟨?_, ?_⟩, ?_⟩, ?_⟩, ?_⟩, ?_⟩, ?_⟩ <;> rintro rfl <;> exact absurd h (by decide)

theorem value_strict : (value tokens input).Strict := by
  rintro (_ | ⟨c, chars⟩) start rest h
  · cases h
  · obtain ⟨ahead, middle, hahead, h⟩ := Reader.bind_ok h
    cases hahead
    simp only [List.head?_cons] at h
    split at h
    case h_1 hc | h_2 hc =>
      cases hc
      rw [Reader.run_bind, run_consume_cons, if_pos rfl] at h
      cases h
      simp
    case h_3 => exact (string_strict tokens input).bind_left _ _ _ _ h
    case h_4 | h_5 | h_6 => exact (literal_strict input (by decide) _).bind_left _ _ _ _ h
    case h_7 d hd =>
      cases hd
      by_cases hdigit : (c = '-' || c.isDigit) = true
      · rw [if_pos hdigit] at h
        obtain ⟨token, middle, htoken, h⟩ := Reader.bind_ok h
        cases h
        exact number_shorter tokens input (digit_not_delimiter hdigit) htoken
      · rw [if_neg hdigit] at h
        cases h
    case h_8 => cases h

theorem valueStep_advances (state : State) : (valueStep tokens input state).Advances :=
  ((value_strict tokens input).bind_left _).advances

theorem keyStep_advances (state : State) : (keyStep tokens input state).Advances :=
  ((string_strict tokens input).bind_left _).advances

theorem turn_advances (state : State) : (turn tokens input state).Advances := by
  unfold turn
  split
  case h_1 => exact valueStep_advances tokens input state
  case h_2 =>
    apply advances_consume
    apply Reader.Advances.bind
    intro _
    exact valueStep_advances tokens input state
  case h_3 | h_6 =>
    apply advances_consume
    apply advances_consume
    exact (error_strict input _).advances
  case h_4 =>
    apply advances_consume
    exact keyStep_advances tokens input state
  case h_5 => exact keyStep_advances tokens input state
  case h_7 =>
    apply Reader.Advances.bind
    intro _
    split
    · split
      · exact Reader.Advances.pure _
      · exact (error_strict input _).advances
    · exact (error_strict input _).advances

theorem step_advances (state : State) : (step tokens input state).Advances :=
  Reader.Advances.bind fun _ => turn_advances tokens input state

end Advances

def loop : State → Parser Node := Reader.loop (step tokens input) (step_advances tokens input)

end Machine

end Parse

/-- The tree of a whole text. -/
def parse (tokens : TokenReader) (input : List Char) : Except Error Node :=
  Prod.fst <$> (Parse.loop tokens input ⟨[], none, .value⟩).run input

end KRust.Json
