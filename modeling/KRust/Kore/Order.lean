import KRust.Kore.Walk
import KRust.Lib.TreeOrder

/-!
The comparison of sorts, by recursion down to a limit and on a work list below it, the comparison of
patterns on a work list, and the orders that `derive(Ord)` would give.
-/

set_option linter.unusedSectionVars false

namespace KRust.Kore

open KRust.Lib

namespace KoreSort

/-- `SORT_RECURSION_LIMIT` -/
def recursionLimit : Nat := 32

/-- The variant's rank in declaration order. -/
def discriminant : KoreSort → Nat
  | .var _ => 0
  | .application _ _ => 1

def arguments : KoreSort → List KoreSort
  | .var _ => []
  | .application _ arguments => arguments

theorem sizeOf_argument {s argument : KoreSort} (h : argument ∈ s.arguments) :
    sizeOf argument < sizeOf s := by
  cases s with
  | var name => cases h
  | application name sorts =>
    have hless : sizeOf argument < sizeOf sorts := List.sizeOf_lt_of_mem h
    rw [application.sizeOf_spec]
    omega

/-- Induction on a sort through its arguments. -/
theorem arguments_induction {P : KoreSort → Prop}
    (node : ∀ s, (∀ argument ∈ s.arguments, P argument) → P s) (s : KoreSort) : P s :=
  node s fun argument _ => arguments_induction node argument
termination_by sizeOf s
decreasing_by exact sizeOf_argument ‹_›

/-- The rank, then the name. -/
def head (left right : KoreSort) : Ordering :=
  (compare left.discriminant right.discriminant).then <| match left, right with
    | .var left, .var right | .application left _, .application right _ => compare left right
    | _, _ => .eq

/-- The number of applications and variables of a sort. -/
def nodes : KoreSort → Nat
  | .var _ => 1
  | .application _ arguments => nodesOf arguments + 1
where
  nodesOf : List KoreSort → Nat
  | [] => 0
  | s :: sorts => nodes s + nodesOf sorts

theorem nodesOf_eq (sorts : List KoreSort) : nodes.nodesOf sorts = (sorts.map nodes).sum := by
  induction sorts with
  | nil => rfl
  | cons s sorts ih => rw [nodes.nodesOf, ih, List.map_cons, List.sum_cons]

theorem arguments_lighter (s : KoreSort) : (s.arguments.map nodes).sum < s.nodes := by
  cases s with
  | var name => exact Nat.one_pos
  | application name arguments =>
    rw [nodes, nodesOf_eq]
    exact Nat.lt_succ_self _

def trees : TreeOrder KoreSort := ⟨head, arguments, nodes, arguments_lighter⟩

/-- `cmp_iteratively` -/
def cmpIteratively (left right : KoreSort) : Ordering := trees.cmpIteratively left right

section Recursion

variable (limit : Nat)

/-- `cmp_from_depth`, over the limit of the recursion. -/
def cmpFromDepth (left right : KoreSort) (depth : Nat) : Ordering :=
  if limit ≤ depth then left.cmpIteratively right
  else match left, right with
    | .var left, .var right => compare left right
    | .application leftName left, .application rightName right =>
      (compare leftName rightName).then <|
        (left.zip right).foldr
          (fun pair rest => (cmpFromDepth pair.1 pair.2 (depth + 1)).then rest)
          (compare left.length right.length)
    | .var _, .application _ _ => .lt
    | .application _ _, .var _ => .gt
termination_by limit - depth

/-- `eq_from_depth`, over the limit of the recursion. -/
def eqFromDepth (left right : KoreSort) (depth : Nat) : Bool :=
  match left, right with
  | .var left, .var right => decide (left = right)
  | .application leftName left, .application rightName right =>
    if leftName ≠ rightName ∨ left.length ≠ right.length then false
    else if limit ≤ depth then
      (cmpIteratively (.application leftName left) (.application rightName right)).isEq
    else (left.zip right).all fun pair => eqFromDepth pair.1 pair.2 (depth + 1)
  | .var _, .application _ _ | .application _ _, .var _ => false
termination_by limit - depth

end Recursion

/-- `Ord` for `Sort` -/
def cmp (left right : KoreSort) : Ordering := cmpFromDepth recursionLimit left right 0

/-- `PartialEq` for `Sort` -/
def eq (left right : KoreSort) : Bool := eqFromDepth recursionLimit left right 0

/-- The order that `derive(Ord)` would give. -/
def derivedCmp : KoreSort → KoreSort → Ordering
  | .var name, .var name' => compare name name'
  | .application name arguments, .application name' arguments' =>
    (compare name name').then (derivedCmpAll arguments arguments')
  | .var _, .application _ _ => .lt
  | .application _ _, .var _ => .gt
where
  derivedCmpAll : List KoreSort → List KoreSort → Ordering
  | [], [] => .eq
  | [], _ :: _ => .lt
  | _ :: _, [] => .gt
  | s :: sorts, s' :: sorts' => (derivedCmp s s').then (derivedCmpAll sorts sorts')

end KoreSort

section Fields

/-! The derived orders of the fields of patterns, over an order of sorts. -/

variable (cmpSort : KoreSort → KoreSort → Ordering)

def VariableKind.rank : VariableKind → Nat
  | .element => 0
  | .set => 1

def Associativity.rank : Associativity → Nat
  | .left => 0
  | .right => 1

def KoreString.cmp (left right : KoreString) : Ordering :=
  List.compareLex (fun b b' : UInt8 => compare b.toNat b'.toNat) left right

def Symbol.cmp (left right : Symbol) : Ordering :=
  (compare left.name right.name).then
    (List.compareLex cmpSort left.sortParameters right.sortParameters)

def Variable.cmp (left right : Variable) : Ordering :=
  (compare left.kind.rank right.kind.rank).then <|
    (compare left.name right.name).then (cmpSort left.sort right.sort)

end Fields

namespace Pattern

/-- The variant's rank in declaration order. -/
def discriminant : Pattern → Nat
  | .string _ => 0
  | .var _ => 1
  | .application _ _ => 2
  | .top _ => 3
  | .bottom _ => 4
  | .and _ _ => 5
  | .or _ _ => 6
  | .not _ _ => 7
  | .next _ _ => 8
  | .implies _ _ _ => 9
  | .iff _ _ _ => 10
  | .rewrites _ _ _ => 11
  | .exists _ _ _ => 12
  | .forall _ _ _ => 13
  | .mu _ _ => 14
  | .nu _ _ => 15
  | .ceil _ _ _ => 16
  | .floor _ _ _ => 17
  | .equals _ _ _ _ => 18
  | .in _ _ _ _ => 19
  | .domainValue _ _ => 20
  | .associativeApplication _ _ _ => 21

section Scalars

variable (cmpSort : KoreSort → KoreSort → Ordering)

/-- `scalars`: the fields of two nodes of one variant other than their children. -/
def scalars : Pattern → Pattern → Ordering
  | .string left, .string right => KoreString.cmp left right
  | .var left, .var right => left.cmp cmpSort right
  | .application ls _, .application rs _ => ls.cmp cmpSort rs
  | .top left, .top right | .bottom left, .bottom right => cmpSort left right
  | .and ls _, .and rs _ | .or ls _, .or rs _ => cmpSort ls rs
  | .not ls _, .not rs _ | .next ls _, .next rs _ => cmpSort ls rs
  | .implies ls _ _, .implies rs _ _ | .iff ls _ _, .iff rs _ _
  | .rewrites ls _ _, .rewrites rs _ _ => cmpSort ls rs
  | .exists ls lv _, .exists rs rv _ | .forall ls lv _, .forall rs rv _ =>
    (cmpSort ls rs).then (lv.cmp cmpSort rv)
  | .mu lv _, .mu rv _ | .nu lv _, .nu rv _ => lv.cmp cmpSort rv
  | .ceil lo lr _, .ceil ro rr _ | .floor lo lr _, .floor ro rr _ =>
    (cmpSort lo ro).then (cmpSort lr rr)
  | .equals lo lr _ _, .equals ro rr _ _ | .in lo lr _ _, .in ro rr _ _ =>
    (cmpSort lo ro).then (cmpSort lr rr)
  | .domainValue ls lv, .domainValue rs rv => (cmpSort ls rs).then (KoreString.cmp lv rv)
  | .associativeApplication la ls _, .associativeApplication ra rs _ =>
    (compare la.rank ra.rank).then (ls.cmp cmpSort rs)
  | _, _ => .eq

def head (left right : Pattern) : Ordering :=
  (compare left.discriminant right.discriminant).then (scalars cmpSort left right)

def trees : TreeOrder Pattern where
  head := head cmpSort
  children := children
  nodes := nodes
  lighter p := by
    rw [nodes_eq p]
    exact Nat.lt_succ_self _

end Scalars

/-- `Ord` for `Pattern` -/
def cmp (left right : Pattern) : Ordering := (trees KoreSort.cmp).cmpIteratively left right

/-- `PartialEq` for `Pattern` -/
def eq (left right : Pattern) : Bool := (left.cmp right).isEq

/-- The order that `derive(Ord)` would give over the derived order of sorts. -/
def derivedCmp : Pattern → Pattern → Ordering
  | .string value, .string value' => KoreString.cmp value value'
  | .var v, .var v' => v.cmp KoreSort.derivedCmp v'
  | .application symbol arguments, .application symbol' arguments' =>
    (symbol.cmp KoreSort.derivedCmp symbol').then (derivedCmpAll arguments arguments')
  | .top sort, .top sort' | .bottom sort, .bottom sort' => sort.derivedCmp sort'
  | .and sort arguments, .and sort' arguments' | .or sort arguments, .or sort' arguments' =>
    (sort.derivedCmp sort').then (derivedCmpAll arguments arguments')
  | .not sort argument, .not sort' argument' | .next sort argument, .next sort' argument' =>
    (sort.derivedCmp sort').then (derivedCmp argument argument')
  | .implies sort left right, .implies sort' left' right'
  | .iff sort left right, .iff sort' left' right'
  | .rewrites sort left right, .rewrites sort' left' right' =>
    (sort.derivedCmp sort').then ((derivedCmp left left').then (derivedCmp right right'))
  | .exists sort v body, .exists sort' v' body' | .forall sort v body, .forall sort' v' body' =>
    (sort.derivedCmp sort').then
      ((v.cmp KoreSort.derivedCmp v').then (derivedCmp body body'))
  | .mu v body, .mu v' body' | .nu v body, .nu v' body' =>
    (v.cmp KoreSort.derivedCmp v').then (derivedCmp body body')
  | .ceil operand result argument, .ceil operand' result' argument'
  | .floor operand result argument, .floor operand' result' argument' =>
    (operand.derivedCmp operand').then
      ((result.derivedCmp result').then (derivedCmp argument argument'))
  | .equals operand result left right, .equals operand' result' left' right'
  | .in operand result left right, .in operand' result' left' right' =>
    (operand.derivedCmp operand').then ((result.derivedCmp result').then
      ((derivedCmp left left').then (derivedCmp right right')))
  | .domainValue sort value, .domainValue sort' value' =>
    (sort.derivedCmp sort').then (KoreString.cmp value value')
  | .associativeApplication side symbol arguments,
      .associativeApplication side' symbol' arguments' =>
    (compare side.rank side'.rank).then
      ((symbol.cmp KoreSort.derivedCmp symbol').then (derivedCmpAll arguments arguments'))
  | p, q => compare p.discriminant q.discriminant
termination_by structural p => p
where
  derivedCmpAll : List Pattern → List Pattern → Ordering
  | [], [] => .eq
  | [], _ :: _ => .lt
  | _ :: _, [] => .gt
  | p :: patterns, q :: patterns' => (derivedCmp p q).then (derivedCmpAll patterns patterns')
  termination_by structural patterns => patterns

end Pattern

end KRust.Kore
