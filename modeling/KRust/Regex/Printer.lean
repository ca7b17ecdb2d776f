import KRust.Regex.Ast

/-!
The canonical text of a regular expression: the precedence printers, each of which leaves a
node that is not its own to the next, and the last of which puts it in parentheses.
-/

set_option linter.unusedSectionVars false

namespace KRust.Regex

def isReserved (c : Char) : Bool :=
  c ∈ ['^', '$', '|', '?', '*', '+', '(', ')', '\x7b', '\x7d', '[', ']', '\\', '.', '"']

def isReservedClass (c : Char) : Bool := c ∈ ['^', '-', '\\', '[', ']']

def printCharacter (c : Char) (inClass : Bool) : List Char :=
  match c with
  | '\n' => "\\n".toList
  | '\r' => "\\r".toList
  | '\t' => "\\t".toList
  | c => if (if inClass then isReservedClass c else isReserved c) then ['\\', c] else [c]

def printClassMember : CharClass → List Char
  | .char c => printCharacter c true
  | .range first last => printCharacter first true ++ '-' :: printCharacter last true

/-- A number in decimal. -/
def printCount (n : Nat) : List Char := Nat.toDigits 10 n

-- Every printer leaves a node that is not its own to the next one; the measure counts the
-- printers that the node still goes through before its own.
mutual

def printUnion (body : RegexBody) : List Char :=
  match _h : body with
  | .union left right => printConcat left ++ '|' :: printConcat right
  | .concat _ | .zeroOrMore _ | .zeroOrOne _ | .oneOrMore _ | .exactly _ _ | .atLeast _ _
  | .range _ _ _ | .charClass _ _ | .char _ | .anyChar | .named _ => printConcat body
termination_by (body.size, body.level)
decreasing_by
  all_goals subst _h; simp [RegexBody.size, RegexBody.level, Prod.lex_def]; try omega

def printConcat (body : RegexBody) : List Char :=
  match _h : body with
  | .concat members => members.flatMap fun member => printRepeat member
  | .union _ _ | .zeroOrMore _ | .zeroOrOne _ | .oneOrMore _ | .exactly _ _ | .atLeast _ _
  | .range _ _ _ | .charClass _ _ | .char _ | .anyChar | .named _ => printRepeat body
termination_by (body.size, (body.level + 4) % 5)
decreasing_by
  · subst _h
    have hsize := RegexBody.size_mem ‹_›
    simp [RegexBody.size, Prod.lex_def]
    omega
  all_goals subst _h; simp [RegexBody.size, RegexBody.level, Prod.lex_def]

def printRepeat (body : RegexBody) : List Char :=
  match _h : body with
  | .zeroOrOne body => printClass body ++ ['?']
  | .zeroOrMore body => printClass body ++ ['*']
  | .oneOrMore body => printClass body ++ ['+']
  | .exactly body count => printClass body ++ '\x7b' :: printCount count ++ ['\x7d']
  | .atLeast body count => printClass body ++ '\x7b' :: printCount count ++ [',', '\x7d']
  | .range body least most =>
    printClass body ++ '\x7b' :: printCount least ++ ',' :: printCount most ++ ['\x7d']
  | .union _ _ | .concat _ | .charClass _ _ | .char _ | .anyChar | .named _ => printClass body
termination_by (body.size, (body.level + 3) % 5)
decreasing_by
  all_goals subst _h; simp [RegexBody.size, RegexBody.level, Prod.lex_def]; try omega

def printClass (body : RegexBody) : List Char :=
  match _h : body with
  | .charClass negated members =>
    '[' :: (if negated then ['^'] else []) ++ members.flatMap printClassMember ++ [']']
  | .union _ _ | .concat _ | .zeroOrMore _ | .zeroOrOne _ | .oneOrMore _ | .exactly _ _
  | .atLeast _ _ | .range _ _ _ | .char _ | .anyChar | .named _ => printSimple body
termination_by (body.size, (body.level + 2) % 5)
decreasing_by
  all_goals subst _h; simp [RegexBody.size, RegexBody.level, Prod.lex_def]; try omega

def printSimple (body : RegexBody) : List Char :=
  match _h : body with
  | .char c => printCharacter c false
  | .anyChar => ['.']
  | .named name => '\x7b' :: name.toList ++ ['\x7d']
  | .union _ _ | .concat _ | .zeroOrMore _ | .zeroOrOne _ | .oneOrMore _ | .exactly _ _
  | .atLeast _ _ | .range _ _ _ | .charClass _ _ => '(' :: printUnion body ++ [')']
termination_by (body.size, (body.level + 1) % 5)
decreasing_by
  all_goals subst _h; simp [RegexBody.size, RegexBody.level, Prod.lex_def]; try omega

end

section Equations

variable {body : RegexBody}

theorem printUnion_next (h : body.level ≠ 0) : printUnion body = printConcat body := by
  cases body with
  | union => exact absurd rfl h
  | _ => rw [printUnion]

theorem printConcat_next (h : body.level ≠ 1) : printConcat body = printRepeat body := by
  cases body with
  | concat => exact absurd rfl h
  | _ => rw [printConcat]

theorem printRepeat_next (h : body.level ≠ 2) : printRepeat body = printClass body := by
  cases body with
  | zeroOrMore | zeroOrOne | oneOrMore | exactly | atLeast | range => exact absurd rfl h
  | _ => rw [printRepeat]

theorem printClass_next (h : body.level ≠ 3) : printClass body = printSimple body := by
  cases body with
  | charClass => exact absurd rfl h
  | _ => rw [printClass]

theorem printSimple_next (h : body.level ≠ 4) :
    printSimple body = '(' :: printUnion body ++ [')'] := by
  cases body with
  | char | anyChar | named => exact absurd rfl h
  | _ => rw [printSimple]

end Equations

/-- `to_canonical_string` -/
def toCanonicalString (regex : Regex) : List Char :=
  (if regex.startLine then ['^'] else []) ++ printUnion regex.body ++
    (if regex.endLine then ['$'] else [])

end KRust.Regex
