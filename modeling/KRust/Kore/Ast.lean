import Mathlib.Data.List.Basic
import Mathlib.Algebra.GroupWithZero.Nat

/-!
The syntax tree of textual KORE, and the view of a pattern as a node over its direct
subpatterns that every traversal uses.
-/

set_option linter.unusedSectionVars false

namespace KRust.Kore

/-- The bytes that hold the code points of a literal. -/
abbrev KoreString := List UInt8

/-- `Sort` of the syntax tree. -/
inductive KoreSort where
  | var (name : String)
  | application (name : String) (arguments : List KoreSort)

mutual

def KoreSort.decEq : (s t : KoreSort) → Decidable (s = t)
  | .var n, .var m => decidable_of_iff (n = m) (by simp)
  | .var _, .application _ _ => .isFalse (by simp)
  | .application _ _, .var _ => .isFalse (by simp)
  | .application n as, .application m bs =>
    @decidable_of_iff _ (n = m ∧ as = bs) (by simp)
      (@instDecidableAnd _ _ (inferInstance) (KoreSort.decEqList as bs))

def KoreSort.decEqList : (as bs : List KoreSort) → Decidable (as = bs)
  | [], [] => .isTrue rfl
  | [], _ :: _ => .isFalse (by simp)
  | _ :: _, [] => .isFalse (by simp)
  | a :: as, b :: bs =>
    @decidable_of_iff _ (a = b ∧ as = bs) (by simp)
      (@instDecidableAnd _ _ (KoreSort.decEq a b) (KoreSort.decEqList as bs))

end

instance : DecidableEq KoreSort := KoreSort.decEq

structure Symbol where
  name : String
  sortParameters : List KoreSort
  deriving DecidableEq

inductive VariableKind where
  | element
  | set
  deriving DecidableEq

structure Variable where
  kind : VariableKind
  name : String
  sort : KoreSort
  deriving DecidableEq

inductive Associativity where
  | left
  | right
  deriving DecidableEq

inductive Pattern where
  | string (value : KoreString)
  | var (v : Variable)
  | application (symbol : Symbol) (arguments : List Pattern)
  | top (sort : KoreSort)
  | bottom (sort : KoreSort)
  | and (sort : KoreSort) (arguments : List Pattern)
  | or (sort : KoreSort) (arguments : List Pattern)
  | not (sort : KoreSort) (argument : Pattern)
  | next (sort : KoreSort) (argument : Pattern)
  | implies (sort : KoreSort) (left right : Pattern)
  | iff (sort : KoreSort) (left right : Pattern)
  | rewrites (sort : KoreSort) (left right : Pattern)
  | exists (sort : KoreSort) (v : Variable) (body : Pattern)
  | forall (sort : KoreSort) (v : Variable) (body : Pattern)
  | mu (v : Variable) (body : Pattern)
  | nu (v : Variable) (body : Pattern)
  | ceil (operandSort resultSort : KoreSort) (argument : Pattern)
  | floor (operandSort resultSort : KoreSort) (argument : Pattern)
  | equals (operandSort resultSort : KoreSort) (left right : Pattern)
  | in (operandSort resultSort : KoreSort) (left right : Pattern)
  | domainValue (sort : KoreSort) (value : KoreString)
  | associativeApplication (associativity : Associativity) (symbol : Symbol)
      (arguments : List Pattern)

structure Attributes where
  patterns : List Pattern

inductive Sentence where
  | importModule (name : String) (attributes : Attributes)
  | sortDeclaration (hooked : Bool) (name : String) (parameters : List String)
      (attributes : Attributes)
  | symbolDeclaration (hooked : Bool) (symbol : Symbol) (argumentSorts : List KoreSort)
      (resultSort : KoreSort) (attributes : Attributes)
  | aliasDeclaration (symbol : Symbol) (argumentSorts : List KoreSort) (resultSort : KoreSort)
      (left right : Pattern) (attributes : Attributes)
  | axiomSentence (parameters : List String) (pattern : Pattern) (attributes : Attributes)
  | claimSentence (parameters : List String) (pattern : Pattern) (attributes : Attributes)

structure Module where
  name : String
  sentences : List Sentence
  attributes : Attributes

structure Definition where
  attributes : Attributes
  modules : List Module

end KRust.Kore
