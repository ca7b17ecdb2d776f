import KRust.Lib.Reader
import KRust.Regex.Ast
import KRust.Regex.Printer

/-!
The parser of regular expressions. Its readers leave the characters from the cursor on; the
index of an error is the place of the cursor in the input.
-/

set_option linter.unusedSectionVars false

namespace KRust.Regex

open KRust.Lib

structure ParseError where
  /-- Counted in characters. -/
  index : Nat
  message : String
  input : String
  deriving DecidableEq

namespace Parser

/-- `Parser<A>`, a reader of the characters from the cursor on. -/
abbrev Run (α : Type) := Reader Char ParseError α

variable (input : String) {α : Type}

def errorAt (index : Nat) (message : String) : Run α := Reader.fail ⟨index, message, input⟩

/-- The place of the cursor before these characters. -/
def cursor (remaining : List Char) : Nat := input.length - remaining.length

def error (message : String) : Run α := do
  let remaining ← Reader.ahead
  errorAt input (cursor input remaining) message

def unescapedMessage (token : Char) : String :=
  "Unexpected token '" ++ token.toString ++ "'. Did you mean '\\" ++ token.toString ++ "'?"

def unescaped (token : Char) : Run α := error input (unescapedMessage token)

/-- `unescaped` after the cursor moved back by one. -/
def unescapedBefore (token : Char) : Run α := do
  let remaining ← Reader.ahead
  errorAt input (cursor input remaining - 1) (unescapedMessage token)

def expect (expected : Char) : Run Unit := do
  match ← Reader.next with
  | some actual =>
    if actual = expected then return ()
    else
      let remaining ← Reader.ahead
      errorAt input (cursor input remaining - 1)
        ("Expected '" ++ expected.toString ++ "', but found '" ++ actual.toString ++ "'")
  | none => error input ("Unexpected end of string. Expected '" ++ expected.toString ++ "'")

/-- The character that an escape stands for. -/
def escaped (c : Char) : Char :=
  match c with
  | 'n' => '\n'
  | 'r' => '\r'
  | 't' => '\t'
  | other => other

def parseCharacter (inClass : Bool) : Run Char := do
  match ← Reader.take (· == '\\') with
  | some _ =>
    match ← Reader.next with
    | some c => return escaped c
    | none => error input "Unexpected end of string after '\\'."
  | none =>
    match ← Reader.ahead with
    | [] => error input "Unexpected end of string."
    | c :: _ =>
      if (if inClass then isReservedClass c else isReserved c) then unescaped input c
      else
        let _ ← Reader.next
        return c

def parseClassMember : Run CharClass := do
  let first ← parseCharacter input true
  match ← Reader.take (· == '-') with
  | some _ =>
    match ← Reader.ahead with
    | ']' :: _ => unescapedBefore input '-'
    | _ => return .range first (← parseCharacter input true)
  | none => return .char first

/-- A member of a class, or the bracket that closes it. -/
def classStep (members : List CharClass) : Run (List CharClass ⊕ List CharClass) := do
  match ← Reader.take (· == ']') with
  | some _ => return .inr members
  | none =>
    match ← Reader.ahead with
    | [] => error input "Unexpected end of string. Expected ']'"
    | _ :: _ => return .inl (members ++ [← parseClassMember input])

theorem parseCharacter_strict (inClass : Bool) : Reader.Strict (parseCharacter input inClass) := by
  apply Reader.Strict.take
  rintro (_ | ⟨c, tokens⟩) a rest h
  · cases h
  · replace h : (if (if inClass then isReservedClass c else isReserved c) then unescaped input c
        else Reader.next >>= fun _ => pure c).run (c :: tokens) = .ok (a, rest) := h
    cases hreserved : if inClass then isReservedClass c else isReserved c with
    | true => rw [hreserved] at h; cases h
    | false => rw [hreserved] at h; exact Reader.next_lt h

theorem parseClassMember_strict : Reader.Strict (parseClassMember input) :=
  (parseCharacter_strict input true).bind_left _

theorem classStep_advances (members : List CharClass) :
    Reader.Advances (classStep input members) := by
  apply Reader.Strict.advances
  apply Reader.Strict.take
  rintro (_ | ⟨c, tokens⟩) a rest h
  · cases h
  · exact (parseClassMember_strict input).bind_left _ _ _ _ h

/-- `i32::MAX` -/
def maxCount : Nat := 2 ^ 31 - 1

def parseInteger : Run Nat := do
  let start ← Reader.ahead
  let digits ← Reader.takeWhile Char.isDigit
  if digits.isEmpty then error input "Expected a digit 0-9."
  else
    let value := Nat.ofDigitChars 10 digits 0
    if value > maxCount then errorAt input (cursor input start) "Repetition count is too large."
    else return value

def parseRepetition (body : RegexBody) : Run RegexBody := do
  let lower ← parseInteger input
  match ← Reader.take (· == '\x7d') with
  | some _ => return .exactly body lower
  | none =>
    expect input ','
    match ← Reader.take (· == '\x7d') with
    | some _ => return .atLeast body lower
    | none =>
      let upper ← parseInteger input
      expect input '\x7d'
      return .range body lower upper

/-- A postfix operator on what was read, or the end of them. -/
def repeatStep (body : RegexBody) : Run (RegexBody ⊕ RegexBody) := do
  match ← Reader.ahead with
  | '?' :: _ =>
    let _ ← Reader.next
    return .inl (.zeroOrOne body)
  | '*' :: _ =>
    let _ ← Reader.next
    return .inl (.zeroOrMore body)
  | '+' :: _ =>
    let _ ← Reader.next
    return .inl (.oneOrMore body)
  | '\x7b' :: c :: _ =>
    if c.isDigit then
      let _ ← Reader.next
      return .inl (← parseRepetition input body)
    else return .inr body
  | _ => return .inr body

theorem repeatStep_advances (body : RegexBody) : Reader.Advances (repeatStep input body) := by
  intro tokens s rest h
  obtain ⟨_, _, ⟨⟩, h⟩ := Reader.bind_ok h
  split at h
  · exact Reader.next_lt h
  · exact Reader.next_lt h
  · exact Reader.next_lt h
  · split at h
    · exact Reader.next_lt h
    · cases h
  · cases h

def validIdentifier (name : List Char) : Bool :=
  match (if name.head? = some '#' then name.tail else name) with
  | [] => false
  | first :: rest => first.isUpper && rest.all Char.isAlphanum

def parseNamed : Run RegexBody := do
  let name ← Reader.takeWhile (· ≠ '\x7d')
  match ← Reader.take (· == '\x7d') with
  | none => error input "Unexpected end of string. Expected '\x7d'"
  | some _ =>
    if validIdentifier name then return .named (String.ofList name)
    else
      let remaining ← Reader.ahead
      errorAt input (cursor input remaining - 1)
        ("Lexical identifier \x7b" ++ String.ofList name ++ "\x7d is invalid. Identifiers should " ++
          "match the regular expression \"#?[A-Z][a-zA-Z0-9]*\".")

section Nested

-- The readers under `parse_union`, which they call for what is in parentheses.
variable (self : Run RegexBody)

def parseSimple : Run RegexBody := do
  match ← Reader.take (· == '.') with
  | some _ => return .anyChar
  | none =>
    match ← Reader.take (· == '(') with
    | some _ =>
      let body ← self
      expect input ')'
      return body
    | none =>
      match ← Reader.take (· == '\x7b') with
      | some _ => parseNamed input
      | none => return .char (← parseCharacter input false)

def parseCharClass : Run RegexBody := do
  match ← Reader.take (· == '[') with
  | none => parseSimple input self
  | some _ =>
    let negated ← Reader.take (· == '^')
    let members ← Reader.loop (classStep input) (classStep_advances input) []
    if members.isEmpty then error input "Character class cannot be empty."
    else return .charClass negated.isSome members

def parseRepeat : Run RegexBody := do
  let body ← parseCharClass input self
  Reader.loop (repeatStep input) (repeatStep_advances input) body

/-- Another member of a concatenation, or its end. -/
def concatStep (members : List RegexBody) : Run (List RegexBody ⊕ List RegexBody) := do
  match ← Reader.ahead with
  | [] => return .inr members
  | c :: _ =>
    if c = ')' || c = '|' || c = '$' then return .inr members
    else return .inl (members ++ [← parseRepeat input self])

theorem parseSimple_strict : Reader.Strict (parseSimple input self) := by
  apply Reader.Strict.take
  apply Reader.Strict.take
  apply Reader.Strict.take
  exact (parseCharacter_strict input false).bind_left _

theorem parseRepeat_strict : Reader.Strict (parseRepeat input self) := by
  apply Reader.Strict.bind_left
  apply Reader.Strict.take
  exact parseSimple_strict input self

theorem concatStep_advances (members : List RegexBody) :
    Reader.Advances (concatStep input self members) := by
  intro tokens s rest h
  obtain ⟨_, _, ⟨⟩, h⟩ := Reader.bind_ok h
  split at h
  · cases h
  · split at h
    · cases h
    · exact (parseRepeat_strict input self).bind_left _ _ _ _ h

def parseConcat : Run RegexBody := do
  let first ← parseRepeat input self
  let members ← Reader.loop (concatStep input self) (concatStep_advances input self) [first]
  match members with
  | [body] => return body
  | members => return .concat members

/-- `parse_union`, where `self` is `parse_union` again. -/
def unionBody : Run RegexBody := do
  let left ← parseConcat input self
  match ← Reader.take (· == '|') with
  | none => return left
  | some _ =>
    match ← Reader.ahead with
    | [] => unescapedBefore input '|'
    | _ :: _ => return .union left (← self)

end Nested

def parseUnion : Run RegexBody :=
  Reader.fix ⟨0, "internal error: entered unreachable code", input⟩ (unionBody input)

def parseRegex : Run Regex := do
  let startLine ← Reader.take (· == '^')
  let body ← parseUnion input
  let endLine ← Reader.take (· == '$')
  match ← Reader.ahead with
  | [] => return ⟨startLine.isSome, body, endLine.isSome⟩
  | c :: _ => if endLine.isSome then unescapedBefore input '$' else unescaped input c

end Parser

/-- `parse` -/
def parse (input : String) : Except ParseError Regex :=
  match input with
  | "" => .error ⟨0, "Cannot be empty.", input⟩
  | "^" | "$" =>
    .error ⟨0, "Cannot consist of only line anchors. Did you mean '\\" ++ input ++ "'?", input⟩
  | "^$" =>
    .error ⟨0, "Cannot consist of only line anchors. Did you mean '\\^' or '\\$'?", input⟩
  | _ => Prod.fst <$> (Parser.parseRegex input).run input.toList

end KRust.Regex
