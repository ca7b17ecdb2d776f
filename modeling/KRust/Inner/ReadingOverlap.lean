import KRust.Inner.Forest
import KRust.Lib.Memo

/-!
Whether two different trees of a parse forest are one reading of the text: a reading does not show
the brackets, nor which instance of a labelled production was used. The trees are not enumerated:
pairs of nodes are compared, each once.
-/

namespace KRust.Inner

open KRust.Lib

/-- What a grammar says of its productions, as far as readings depend on it. -/
structure ReadingGrammar where
  bracket : Nat → Bool
  label : Nat → Option String

/-- What a production node contributes to the reading of its trees: its label and arity, or, for
an unlabelled production, the production itself. -/
inductive ReadingHead where
  | label (name : String) (arity : Nat)
  | production (index : Nat)
  deriving DecidableEq

inductive Reading (B : Type) where
  | node (head : ReadingHead) (children : List (Reading B))
  | leaf (leaf : B)

/-- The memo of `oneReadingTwice`, by the addresses of nodes. -/
structure ReadingOverlap where
  twice : List (Nat × Bool)
  overlaps : List ((Nat × Nat) × Bool)
  distinctOverlaps : List ((Nat × Nat) × Bool)

namespace ReadingOverlap

def empty : ReadingOverlap := ⟨[], [], []⟩

def twiceTable : Table ReadingOverlap Nat Bool where
  read memo key := memo.twice.lookup key
  write key result memo := { memo with twice := (key, result) :: memo.twice }

def overlapTable : Table ReadingOverlap (Nat × Nat) Bool where
  read memo key := memo.overlaps.lookup key
  write key result memo := { memo with overlaps := (key, result) :: memo.overlaps }

def distinctTable : Table ReadingOverlap (Nat × Nat) Bool where
  read memo key := memo.distinctOverlaps.lookup key
  write key result memo := { memo with distinctOverlaps := (key, result) :: memo.distinctOverlaps }

end ReadingOverlap

namespace ReadingGrammar

variable (grammar : ReadingGrammar) {I M B N : Type}

def head (production arity : Nat) : ReadingHead :=
  match grammar.label production with
  | some name => .label name arity
  | none => .production production

/-- The node with its outer bracket nodes stripped. -/
def content : PackedTerm I M B N → PackedTerm I M B N
  | .production address production none [child] metadata =>
    if grammar.bracket production then content child
    else .production address production none [child] metadata
  | node => node

/-- The production of a bracket node, and its child. -/
def bracketOf : PackedTerm I M B N → Option (Nat × PackedTerm I M B N)
  | .production _ production none [child] _ =>
    if grammar.bracket production then some (production, child) else none
  | _ => none

variable [DecidableEq I] [DecidableEq B]

/-- Whether a pair of nodes shares a reading, for nodes that are not brackets. -/
def overlapNodes (overlap : PackedTerm I M B N → PackedTerm I M B N → StateM ReadingOverlap Bool) :
    PackedTerm I M B N → PackedTerm I M B N → StateM ReadingOverlap Bool
  | .ambiguity _ alternatives, right => alternatives.anyM fun alternative =>
    overlap alternative right
  | left, .ambiguity _ alternatives => alternatives.anyM fun alternative =>
    overlap left alternative
  | .term _ left _, .term _ right _ => pure (left = right)
  | .production _ left _ lefts _, .production _ right _ rights _ =>
    if grammar.head left lefts.length = grammar.head right rights.length then
      (lefts.zip rights).allM fun pair => overlap pair.1 pair.2
    else pure false
  | _, _ => pure false

/-- Whether some tree of the one node and some tree of the other are one reading. -/
def overlap : Nat → PackedTerm I M B N → PackedTerm I M B N → StateM ReadingOverlap Bool
  | 0, _, _ => pure false
  | levels + 1, left, right =>
    let left := grammar.content left
    let right := grammar.content right
    if left.ptrEq right then pure true
    else ReadingOverlap.overlapTable.memo (left.address, right.address)
      (grammar.overlapNodes (overlap levels) left right)

/-- The overlap of a pair of nodes is asked down to all their levels. -/
def overlapOf (left right : PackedTerm I M B N) : StateM ReadingOverlap Bool :=
  grammar.overlap (left.depth + right.depth) left right

/-- `distinct` of two nodes that are neither ambiguities nor brackets. -/
def distinctNodeOverlap
    (distinct : PackedTerm I M B N → PackedTerm I M B N → StateM ReadingOverlap Bool) :
    PackedTerm I M B N → PackedTerm I M B N → StateM ReadingOverlap Bool
  | .production _ left parameters lefts _, .production _ right parameters' rights _ =>
    if grammar.head left lefts.length = grammar.head right rights.length then do
      let overlaps ← (lefts.zip rights).allM fun pair => grammar.overlapOf pair.1 pair.2
      -- The trees of two node shapes differ at the top; those of one shape differ below.
      if left = right ∧ parameters = parameters' then
        if overlaps then (lefts.zip rights).anyM fun pair => distinct pair.1 pair.2 else pure false
      else pure overlaps
    else pure false
  -- Leaves of one reading are one tree.
  | _, _ => pure false

/-- `distinct` of two nodes that are not ambiguities. -/
def distinctBrackets
    (distinct : PackedTerm I M B N → PackedTerm I M B N → StateM ReadingOverlap Bool)
    (left right : PackedTerm I M B N) : StateM ReadingOverlap Bool :=
  match grammar.bracketOf left, grammar.bracketOf right with
  | some (production, child), some (other, child') =>
    if production = other then distinct child child' else grammar.overlapOf left right
  -- The trees differ in their brackets, so any two of one reading are distinct.
  | some _, none => grammar.overlapOf left right
  | none, some _ => grammar.overlapOf left right
  | none, none => grammar.distinctNodeOverlap distinct left right

def distinctNodes
    (distinct : PackedTerm I M B N → PackedTerm I M B N → StateM ReadingOverlap Bool) :
    PackedTerm I M B N → PackedTerm I M B N → StateM ReadingOverlap Bool
  | .ambiguity _ alternatives, right => alternatives.anyM fun alternative =>
    distinct alternative right
  | left, .ambiguity _ alternatives => alternatives.anyM fun alternative =>
    distinct left alternative
  | left, right => grammar.distinctBrackets distinct left right

mutual

/-- Whether two distinct trees of a node are one reading. -/
def twice : Nat → PackedTerm I M B N → StateM ReadingOverlap Bool
  | 0, _ => pure false
  | levels + 1, node =>
    let node := grammar.content node
    ReadingOverlap.twiceTable.memo node.address <|
      match node with
      | .term _ _ _ => pure false
      | .production _ _ _ children _ => children.anyM fun child => twice levels child
      | .ambiguity _ alternatives => do
        if ← alternatives.anyM fun alternative => twice levels alternative then pure true
        else Growth.anyPair (fun left right => distinctOverlap levels left right) alternatives

/-- Whether some tree of the one node and some other tree of the other are one reading: two
alternatives of an ambiguity can hold one tree, which is not two trees. -/
def distinctOverlap : Nat → PackedTerm I M B N → PackedTerm I M B N → StateM ReadingOverlap Bool
  | 0, _, _ => pure false
  | levels + 1, left, right =>
    if left.ptrEq right then twice levels left
    else ReadingOverlap.distinctTable.memo (left.address, right.address)
      (grammar.distinctNodes (fun left right => distinctOverlap levels left right) left right)

end

/-- Whether two distinct trees of a forest are one reading: equal once their bracket nodes are
replaced by their children and each production is read as its label (with its arity), whatever its
instance. -/
def oneReadingTwice (root : PackedTerm I M B N) : Bool :=
  ((grammar.twice (2 * root.depth) root).run .empty).1

end ReadingGrammar

end KRust.Inner
