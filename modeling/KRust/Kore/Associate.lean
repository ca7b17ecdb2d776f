import KRust.Kore.Walk

/-!
Association of chains: each maximal spine of binary applications of one symbol written
as the associative application it is notation for, and the expansion of that notation
at the boundary to KAST.
-/

set_option linter.unusedSectionVars false

namespace KRust.Kore

/-- The two arguments of an application of `symbol` to two arguments. -/
def Pattern.binaryOf (symbol : Symbol) : Pattern → Option (Pattern × Pattern)
  | .application applied [left, right] => if applied = symbol then some (left, right) else none
  | _ => none

theorem Pattern.binaryOf_eq_some {symbol : Symbol} {p left right : Pattern} :
    p.binaryOf symbol = some (left, right) ↔ p = .application symbol [left, right] := by
  unfold binaryOf
  split
  · rename_i applied l r
    split
    · rename_i h
      subst h
      simp [application.injEq]
    · rename_i h
      simp [h]
  · rename_i h
    constructor
    · simp
    · intro heq
      exact absurd heq (h _ _ _)

/-- The argument a spine goes on in, and the other one. -/
def spineNext (side : Associativity) (left right : Pattern) : Pattern × Pattern :=
  match side with
  | .right => (left, right)
  | .left => (right, left)

theorem sizeOf_spineNext (symbol : Symbol) (side : Associativity) (left right : Pattern) :
    sizeOf (spineNext side left right).2 < sizeOf (Pattern.application symbol [left, right]) := by
  cases side <;> simp [spineNext] <;> omega

/-- The loop of `components`: `applications` of the spine lie before `current`. -/
def componentsFrom (symbol : Symbol) (side : Associativity) (current : Pattern)
    (applications : Nat) : Nat :=
  match _h : current.binaryOf symbol with
  | some (left, right) =>
    componentsFrom symbol side (spineNext side left right).2 (applications + 1)
  | none => applications + 1
termination_by current
decreasing_by
  rw [Pattern.binaryOf_eq_some] at _h
  rw [_h]
  exact sizeOf_spineNext symbol side left right

/-- The number of components of the spine of `node` on a side. -/
def components (node : Pattern) (symbol : Symbol) (side : Associativity) : Nat :=
  componentsFrom symbol side node 0

/-- The side of the longer spine of an application of an accepted symbol to two
arguments, when it has three or more components; ties go right. -/
def longerSpine (spine : Symbol → Bool) : Pattern → Option Associativity
  | .application symbol arguments =>
    if arguments.length ≠ 2 ∨ spine symbol = false then none
    else
      let right := components (.application symbol arguments) symbol .right
      let left := components (.application symbol arguments) symbol .left
      if max right left < 3 then none
      else if right ≥ left then some .right
      else some .left
  | _ => none

/-- The loop of `replace_spine`: the components taken apart so far, then those of the
application of `symbol` to `left` and `right`, in the order the spine is walked. -/
def takeSpine (symbol : Symbol) (side : Associativity) (components : List Pattern)
    (left right : Pattern) : List Pattern :=
  match _h : (spineNext side left right).2.binaryOf symbol with
  | some (left', right') =>
    takeSpine symbol side (components ++ [(spineNext side left right).1]) left' right'
  | none => components ++ [(spineNext side left right).1] ++ [(spineNext side left right).2]
termination_by sizeOf (Pattern.application symbol [left, right])
decreasing_by
  rw [Pattern.binaryOf_eq_some] at _h
  rw [← _h]
  exact sizeOf_spineNext symbol side left right

/-- `replace_spine`: the associative application of the components of the spine of an
application to two arguments; any other pattern has no spine. -/
def replaceSpine (side : Associativity) : Pattern → Pattern
  | .application symbol [left, right] =>
    let components := takeSpine symbol side [] left right
    .associativeApplication side symbol
      (if side = .left then components.reverse else components)
  | p => p

/-- What `associate` makes of a node before it goes on in its children. -/
def associateNode (spine : Symbol → Bool) (node : Pattern) : Pattern :=
  match longerSpine spine node with
  | some side => replaceSpine side node
  | none => node

theorem sizeOf_takeSpine {symbol : Symbol} {side : Associativity} {left right c : Pattern}
    (taken : List Pattern) (h : c ∈ takeSpine symbol side taken left right) :
    c ∈ taken ∨ sizeOf c < sizeOf (Pattern.application symbol [left, right]) := by
  have hfirst : ∀ left right : Pattern, sizeOf (spineNext side left right).1
      < sizeOf (Pattern.application symbol [left, right]) := by
    intro left right
    cases side <;> simp [spineNext] <;> omega
  fun_induction takeSpine symbol side taken left right with
  | case1 taken left right left' right' hb ih =>
    rw [Pattern.binaryOf_eq_some] at hb
    rcases ih h with hmem | hlt
    · rw [List.mem_append, List.mem_singleton] at hmem
      rcases hmem with hmem | rfl
      · exact .inl hmem
      · exact .inr (hfirst left right)
    · rw [← hb] at hlt
      exact .inr (Nat.lt_trans hlt (sizeOf_spineNext symbol side left right))
  | case2 taken left right hb =>
    simp only [List.append_assoc, List.cons_append, List.nil_append, List.mem_append,
      List.mem_cons, List.not_mem_nil, or_false] at h
    rcases h with h | rfl | rfl
    · exact .inl h
    · exact .inr (hfirst left right)
    · exact .inr (sizeOf_spineNext symbol side left right)

theorem sizeOf_replaceSpine {side : Associativity} {node c : Pattern}
    (h : c ∈ (replaceSpine side node).children) : sizeOf c < sizeOf node := by
  unfold replaceSpine at h
  split at h
  · rename_i symbol left right
    have hc : c ∈ takeSpine symbol side [] left right := by
      simp only [Pattern.children] at h
      split at h
      · exact List.mem_reverse.mp h
      · exact h
    rcases sizeOf_takeSpine [] hc with hmem | hlt
    · exact absurd hmem List.not_mem_nil
    · exact hlt
  · exact Pattern.sizeOf_child h

theorem sizeOf_associateNode {spine : Symbol → Bool} {node c : Pattern}
    (h : c ∈ (associateNode spine node).children) : sizeOf c < sizeOf node := by
  unfold associateNode at h
  split at h
  · exact sizeOf_replaceSpine h
  · exact Pattern.sizeOf_child h

/-- `associate`: each spine of three or more components of an accepted symbol is
replaced, and the walk goes on in each component. The work list of the source holds
disjoint subpatterns that are overwritten in place, so the walk is this recursion. -/
def associate (spine : Symbol → Bool) (p : Pattern) : Pattern :=
  (associateNode spine p).setChildren
    ((associateNode spine p).children.attach.map fun c => associate spine c.1)
termination_by p
decreasing_by exact sizeOf_associateNode c.2

theorem associate_eq (spine : Symbol → Bool) (p : Pattern) :
    associate spine p = (associateNode spine p).setChildren
      ((associateNode spine p).children.map (associate spine)) := by
  rw [associate, List.map_subtype (fun _ _ => rfl), List.unattach_attach]

/-- The test of `is_associated` on one node: an application of an accepted symbol to two
arguments, one of which is such an application of the same symbol. -/
def spineOpen (spine : Symbol → Bool) : Pattern → Bool
  | .application symbol [left, right] =>
    spine symbol && ((left.binaryOf symbol).isSome || (right.binaryOf symbol).isSome)
  | _ => false

/-- The loop of `is_associated`: `work` holds the subpatterns not yet inspected, the
next one first. -/
def isAssociatedFrom (spine : Symbol → Bool) (work : List Pattern) : Bool :=
  match work with
  | [] => true
  | node :: work =>
    if spineOpen spine node then false
    else isAssociatedFrom spine (node.children.reverse ++ work)
termination_by (work.map Pattern.nodes).sum
decreasing_by
  simp only [List.map_append, List.map_reverse, List.sum_append, List.sum_reverse, List.map_cons,
    List.sum_cons, Pattern.nodes_eq node]
  omega

/-- Whether `associate` would leave the pattern as it is. -/
def isAssociated (spine : Symbol → Bool) (p : Pattern) : Bool := isAssociatedFrom spine [p]

/-- The pattern the expansion to KAST makes of a node from its expanded children. -/
def forKastNode (p : Pattern) (arguments : List Pattern) : Option Pattern :=
  match p with
  | .and sort _ =>
    match arguments with
    | [] => some (.top sort)
    | [argument] => some argument
    | _ => some (.and sort arguments)
  | .or sort _ =>
    match arguments with
    | [] => some (.bottom sort)
    | [argument] => some argument
    | _ => some (.or sort arguments)
  | .associativeApplication .left symbol _ =>
    match arguments with
    | [] => none
    | first :: rest =>
      some (rest.foldl (fun left right => .application symbol [left, right]) first)
  | .associativeApplication .right symbol _ =>
    match arguments.reverse with
    | [] => none
    | last :: rest =>
      some (rest.foldl (fun right left => .application symbol [left, right]) last)
  | _ => p.cloneNode arguments

/-- `for_kast`; `none` is its stop on an associative application without arguments. -/
def forKast (p : Pattern) : Option Pattern := p.rebuild forKastNode

end KRust.Kore
