/-!
Shared parse forests. A node is a production over its children, a leaf, or an ambiguity over a set
of alternatives; nodes are shared by their addresses, and a forest stands for the trees that choose
one alternative at each ambiguity.
-/

namespace KRust.Inner

/-- A node and what is below it. `A` is where a node is kept, `I` the parameters of an instantiated
production, `M` the metadata of a production, `B` a leaf without its annotations `N`. -/
inductive Packed (A I M B N : Type) where
  /-- A plain production has no parameters. -/
  | production (address : A) (production : Nat) (parameters : Option I)
      (children : List (Packed A I M B N)) (metadata : M)
  | term (address : A) (leaf : B) (annotations : N)
  | ambiguity (address : A) (alternatives : List (Packed A I M B N))

/-- A tree of a forest: `M` is what is compared of the metadata. -/
inductive Tree (I M B : Type) where
  | node (production : Nat) (parameters : Option I) (children : List (Tree I M B)) (metadata : M)
  | leaf (leaf : B)

abbrev PackedTerm (I M B N : Type) := Packed Nat I M B N

variable {A I M B N : Type}

namespace Packed

def address : Packed A I M B N → A
  | .production address .. => address
  | .term address _ _ => address
  | .ambiguity address _ => address

/-- The children of a production, or the alternatives of an ambiguity. -/
def nodesBelow : Packed A I M B N → List (Packed A I M B N)
  | .production _ _ _ children _ => children
  | .term _ _ _ => []
  | .ambiguity _ alternatives => alternatives

def isAmbiguity : Packed A I M B N → Bool
  | .ambiguity _ _ => true
  | _ => false

def topProduction : Packed A I M B N → Option Nat
  | .production _ index .. => some index
  | _ => none

mutual

/-- The number of levels. -/
def depth : Packed A I M B N → Nat
  | .production _ _ _ children _ => depths children + 1
  | .term _ _ _ => 1
  | .ambiguity _ alternatives => depths alternatives + 1

def depths : List (Packed A I M B N) → Nat
  | [] => 0
  | node :: nodes => max (depth node) (depths nodes)

end

section Trees

variable {M' : Type} (keep : M → M')

mutual

/-- A tree chooses one alternative at each ambiguity. -/
def Denotes : Packed A I M B N → Tree I M' B → Prop
  | .production _ index parameters children metadata, tree =>
    ∃ trees, tree = .node index parameters trees (keep metadata) ∧ DenotesAll children trees
  | .term _ leaf _, tree => tree = .leaf leaf
  | .ambiguity _ alternatives, tree => DenotesSome alternatives tree

def DenotesAll : List (Packed A I M B N) → List (Tree I M' B) → Prop
  | [], trees => trees = []
  | node :: nodes, trees => ∃ tree rest, trees = tree :: rest ∧ Denotes node tree ∧
      DenotesAll nodes rest

def DenotesSome : List (Packed A I M B N) → Tree I M' B → Prop
  | [], _ => False
  | node :: nodes, tree => Denotes node tree ∨ DenotesSome nodes tree

end

end Trees

end Packed

namespace PackedTerm

def ptrEq (left right : PackedTerm I M B N) : Bool := left.address = right.address

end PackedTerm

end KRust.Inner
