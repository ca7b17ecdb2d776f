import Mathlib.Data.List.Basic
import Mathlib.Algebra.GroupWithZero.Nat

/-!
K's structured regular expressions: a body with character classes, repetitions and named
references, and the line anchors around it.
-/

set_option linter.unusedSectionVars false

namespace KRust

inductive CharClass where
  | char (c : Char)
  | range (first last : Char)
  deriving DecidableEq

inductive RegexBody where
  | char (c : Char)
  | anyChar
  | named (name : String)
  | charClass (negated : Bool) (members : List CharClass)
  | union (left right : RegexBody)
  | concat (members : List RegexBody)
  | zeroOrMore (body : RegexBody)
  | zeroOrOne (body : RegexBody)
  | oneOrMore (body : RegexBody)
  | exactly (body : RegexBody) (count : Nat)
  | atLeast (body : RegexBody) (count : Nat)
  | range (body : RegexBody) (least most : Nat)

structure Regex where
  startLine : Bool
  body : RegexBody
  endLine : Bool

namespace RegexBody

@[elab_as_elim, induction_eliminator]
theorem induct {P : RegexBody → Prop} (char : ∀ c, P (.char c)) (anyChar : P .anyChar)
    (named : ∀ name, P (.named name))
    (charClass : ∀ negated members, P (.charClass negated members))
    (union : ∀ left right, P left → P right → P (.union left right))
    (concat : ∀ members, (∀ b ∈ members, P b) → P (.concat members))
    (zeroOrMore : ∀ body, P body → P (.zeroOrMore body))
    (zeroOrOne : ∀ body, P body → P (.zeroOrOne body))
    (oneOrMore : ∀ body, P body → P (.oneOrMore body))
    (exactly : ∀ body count, P body → P (.exactly body count))
    (atLeast : ∀ body count, P body → P (.atLeast body count))
    (range : ∀ body least most, P body → P (.range body least most)) : ∀ body, P body
  | .char c => char c
  | .anyChar => anyChar
  | .named name => named name
  | .charClass negated members => charClass negated members
  | .union left right => union left right (part left) (part right)
  | .concat members => concat members fun b _ => part b
  | .zeroOrMore body => zeroOrMore body (part body)
  | .zeroOrOne body => zeroOrOne body (part body)
  | .oneOrMore body => oneOrMore body (part body)
  | .exactly body count => exactly body count (part body)
  | .atLeast body count => atLeast body count (part body)
  | .range body least most => range body least most (part body)
where
  /-- The rule at a part. -/
  part (b : RegexBody) : P b :=
    induct char anyChar named charClass union concat zeroOrMore zeroOrOne oneOrMore exactly atLeast
      range b

mutual

/-- The nodes of a body. -/
def size : RegexBody → Nat
  | .char _ | .anyChar | .named _ | .charClass _ _ => 1
  | .union left right => 1 + size left + size right
  | .concat members => 1 + sizeList members
  | .zeroOrMore body | .zeroOrOne body | .oneOrMore body | .exactly body _ | .atLeast body _
  | .range body _ _ => 1 + size body

def sizeList : List RegexBody → Nat
  | [] => 0
  | b :: bs => size b + sizeList bs

end

theorem size_mem {b : RegexBody} {bs : List RegexBody} (h : b ∈ bs) : size b ≤ sizeList bs := by
  induction h with
  | head => exact Nat.le_add_right _ _
  | tail _ _ ih => exact Nat.le_trans ih (Nat.le_add_left _ _)

/-- The printer that writes a node by itself: 0 for a union, 1 for a concatenation, 2 for a
repetition, 3 for a class and 4 for what is simple. -/
def level : RegexBody → Nat
  | .union _ _ => 0
  | .concat _ => 1
  | .zeroOrMore _ | .zeroOrOne _ | .oneOrMore _ | .exactly _ _ | .atLeast _ _ | .range _ _ _ => 2
  | .charClass _ _ => 3
  | .char _ | .anyChar | .named _ => 4

end RegexBody

end KRust
