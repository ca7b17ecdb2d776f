import KRust.Kompile.FreshNames
import KRust.Lib.Numbering

/-!
The pass that reuses what a rule matches: a term of the left side that the right side builds again
is bound by `#as`, and the right side names it. Nodes are known by where they lie, and each has the
number of the term below it.
-/

set_option linter.unusedSectionVars false

namespace KRust.Kompile

open KRust.Kast Lib

variable {μ E : Type}

/-- The terms of a rule that the pass reads. -/
structure Rule (μ : Type) where
  body : Term μ
  requires : Term μ
  ensures : Term μ

/-- Where a node lies: the child taken last, up to the root. -/
abbrev Address : Type := List Nat

section Identities

/-- `Head` -/
inductive Head where
  | injectedLabel (label : Label)
  | rewrite
  | as
  | var (name : String) (sort : Option KSort)
  | sequence
  | apply (label : Label)
  | token (token : String) (sort : KSort)
  deriving DecidableEq

def head : Term μ → Head
  | .injectedLabel label => .injectedLabel label
  | .rewrite _ _ => .rewrite
  | .as _ _ => .as
  | .var name sort => .var name sort
  | .sequence _ => .sequence
  | .apply label _ => .apply label
  | .token text sort => .token text sort
  | .annotated term _ => head term

/-- `subterms`, each with its address. -/
def subterms (address : Address) (t : Term μ) : List (Address × Term μ) :=
  t.children.mapIdx fun i child => (i :: address, child.unannotated)

/-- `Identities` -/
structure Identities where
  numbers : List (Address × Nat)
  keys : Numbering Head

namespace Identities

/-- What a node on the work list weighs. -/
def weight (node : Address × Term μ × Bool) : Nat := if node.2.2 then 1 else 3 * node.2.1.size

theorem size_pos (t : Term μ) : 0 < t.size := by
  cases t <;> rw [Term.size] <;> omega

theorem weight_pos (node : Address × Term μ × Bool) : 0 < weight node := by
  unfold weight
  split
  · exact Nat.one_pos
  · exact Nat.mul_pos (by decide) (size_pos _)

theorem weight_subterms (address : Address) (t : Term μ) :
    (((subterms address t).reverse.map fun child => (child.1, child.2, false)).map weight).sum ≤
      3 * (t.children.map Term.size).sum := by
  have hsum : ∀ (children : List (Term μ)) (f : Nat → Address),
      ((children.mapIdx fun i child => (f i, child.unannotated)).map fun child =>
        3 * Term.size child.2).sum ≤ 3 * (children.map Term.size).sum := by
    intro children
    induction children with
    | nil => exact fun _ => Nat.le_refl _
    | cons c cs ih =>
      intro f
      have hcs := ih fun i => f (i + 1)
      have hc := c.size_unannotated
      simp only [List.mapIdx_cons, List.map_cons, List.sum_cons]
      omega
  rw [List.map_map, List.map_reverse, List.sum_reverse]
  exact hsum t.children (fun i => i :: address)

/-- The loop of `number` over its work list; `none` is a panic. -/
def run (pending : List (Address × Term μ × Bool)) (ids : Identities) : Option Identities :=
  match pending with
  | [] => some ids
  | (address, t, expanded) :: pending =>
    if (ids.numbers.lookup address).isSome then run pending ids
    else if expanded then do
      let children ← (subterms address t).mapM fun child => ids.numbers.lookup child.1
      if ids.keys.entries.length < 2 ^ 32 then
        let (number, keys) := ids.keys.entry (head t, children)
        run pending ⟨(address, number) :: ids.numbers, keys⟩
      else none
    else
      run ((subterms address t).reverse.map (fun child => (child.1, child.2, false)) ++
        (address, t, true) :: pending) ids
termination_by (pending.map weight).sum
decreasing_by
  · have := weight_pos (address, t, expanded)
    simp only [List.map_cons, List.sum_cons]
    omega
  · have := weight_pos (address, t, expanded)
    simp only [List.map_cons, List.sum_cons]
    omega
  · have hchildren := weight_subterms address t
    have hlt := t.sum_children_lt
    have hnode : weight (address, t, expanded) = 3 * t.size := by simp_all [weight]
    have hagain : weight (address, t, true) = 1 := rfl
    simp only [List.map_append, List.map_cons, List.sum_append, List.sum_cons, hnode, hagain]
    omega

/-- `number` -/
def number (address : Address) (root : Term μ) (ids : Identities) : Option Identities :=
  run [(address, root.unannotated, false)] ids

/-- The numbers of the nodes of a rule. -/
def forRule (rule : Rule μ) : Option Identities := do
  let ids ← number [0] rule.body ⟨[], Numbering.empty⟩
  let ids ← number [1] rule.requires ids
  number [2] rule.ensures ids

/-- `of`: every node of the rule is numbered (`forRule_spec`), so the index finds it. -/
def of (ids : Identities) (address : Address) : Nat := (ids.numbers.lookup address).getD 0

end Identities

end Identities

inductive Position where
  | both
  | left
  | right
  deriving DecidableEq

/-- `Minimizer`: its names, the variable of each term gathered, by number, and the numbers of
those used on the right. -/
structure Minimizer where
  fresh : FreshNames
  cache : List (Nat × String × KSort)
  usedOnRhs : List Nat

def isVariable : Term μ → Bool
  | .var _ _ => true
  | _ => false

def isTrue : Term μ → Bool
  | .token text sort => text == "true" && sort.name == "Bool"
  | _ => false

def isBlockedCollectionHook (hook : Option String) : Bool :=
  hook = some "SET.element" || hook = some "LIST.element" || hook = some "LIST.concat" ||
    hook = some "MAP.concat" || hook = some "SET.concat"

section Pass

variable (hook : Label → Option String)

/-- Labels below which nothing is bound. -/
def isBlocked (label : Label) : Bool := isBlockedCollectionHook (hook label) || label.name == "#Or"

section Gather

variable (inferSort mainInferSort : Term μ → Except E KSort) (identity : Address → Nat)

/-- The sort of a term in its module, or in the main module. -/
def sortOf (t : Term μ) : Except E KSort :=
  match inferSort t with
  | .ok sort => .ok sort
  | .error localError =>
    match mainInferSort t with
    | .ok sort => .ok sort
    | .error _ => .error localError

/-- The first step of `gather_level`: a term on the left gets a variable. -/
def nameTerm (address : Address) (t : Term μ) (position : Position) (root inBad : Bool)
    (m : Minimizer) : Except E Minimizer :=
  if position = .left && !inBad && !root && !isVariable t && !isTrue t &&
      (m.cache.lookup (identity address)).isNone then do
    let sort ← sortOf inferSort mainInferSort t
    let (name, fresh) := m.fresh.mint "_Gen"
    return { m with fresh, cache := (identity address, name, sort) :: m.cache }
  else return m

mutual

/-- `gather_terms` -/
def gatherTerms (address : Address) (term : Term μ) (position : Position) (root inBad : Bool)
    (m : Minimizer) : Except E Minimizer :=
  match term with
  | .annotated term _ => gatherTerms address term position root inBad m
  | .rewrite left right => do
    let m ← nameTerm inferSort mainInferSort identity address (.rewrite left right) position root
      inBad m
    let m ← gatherTerms (0 :: address) left .left root inBad m
    gatherTerms (1 :: address) right .right false inBad m
  | .as pattern aliased => do
    let m ← nameTerm inferSort mainInferSort identity address (.as pattern aliased) position root
      inBad m
    let m ← gatherTerms (0 :: address) pattern position false inBad m
    gatherTerms (1 :: address) aliased position false inBad m
  | .apply label arguments => do
    let m ← nameTerm inferSort mainInferSort identity address (.apply label arguments) position root
      inBad m
    if isBlocked hook label then return m
    else if hook label = some "MAP.element" then gatherValue address arguments position inBad m
    else gatherAll address 0 arguments position inBad m
  | .sequence items => do
    let m ← nameTerm inferSort mainInferSort identity address (.sequence items) position root inBad
      m
    gatherAll address 0 items position inBad m
  | .injectedLabel label =>
    nameTerm inferSort mainInferSort identity address (.injectedLabel label) position root inBad m
  | .var name sort =>
    nameTerm inferSort mainInferSort identity address (.var name sort) position root inBad m
  | .token text sort =>
    nameTerm inferSort mainInferSort identity address (.token text sort) position root inBad m

/-- The value of a map element, its second argument. -/
def gatherValue (address : Address) (arguments : List (Term μ)) (position : Position)
    (inBad : Bool) (m : Minimizer) : Except E Minimizer :=
  match arguments with
  | _ :: value :: _ => gatherTerms (1 :: address) value position false inBad m
  | _ => .ok m

def gatherAll (address : Address) (index : Nat) (terms : List (Term μ)) (position : Position)
    (inBad : Bool) (m : Minimizer) : Except E Minimizer :=
  match terms with
  | [] => .ok m
  | t :: ts => do
    let m ← gatherTerms (index :: address) t position false inBad m
    gatherAll address (index + 1) ts position inBad m

end

end Gather

section Filter

variable (identity : Address → Nat)

/-- The first step of `filter_level`: a term on the right that has a variable is used, and what is
below it is left. -/
def markUsed (address : Address) (position : Position) (m : Minimizer)
    (below : Minimizer → Minimizer) : Minimizer :=
  if position = .right && (m.cache.lookup (identity address)).isSome then
    { m with usedOnRhs := m.usedOnRhs.insert (identity address) }
  else below m

mutual

/-- `filter_rhs` -/
def filterRhs (address : Address) (term : Term μ) (position : Position) (m : Minimizer) :
    Minimizer :=
  match term with
  | .annotated term _ => filterRhs address term position m
  | .rewrite left right => markUsed identity address position m fun m =>
    filterRhs (1 :: address) right .right (filterRhs (0 :: address) left .left m)
  | .as pattern aliased => markUsed identity address position m fun m =>
    filterRhs (1 :: address) aliased position (filterRhs (0 :: address) pattern position m)
  | .sequence items | .apply _ items => markUsed identity address position m fun m =>
    filterAll address 0 items position m
  | .injectedLabel _ | .var _ _ | .token _ _ => markUsed identity address position m id

def filterAll (address : Address) (index : Nat) (terms : List (Term μ)) (position : Position)
    (m : Minimizer) : Minimizer :=
  match terms with
  | [] => m
  | t :: ts => filterAll address (index + 1) ts position (filterRhs (index :: address) t position m)

end

end Filter

section Transform

variable [DecidableEq μ] [Inhabited μ] (identity : Address → Nat) (m : Minimizer)

/-- `with_metadata` of a term without annotations at its root. -/
def withMetadata (t : Term μ) (metadata : μ) : Term μ :=
  if metadata = default then t else .annotated t metadata

/-- `metadata().cloned()` put on a term that was rebuilt. -/
def keepMetadata (source rebuilt : Term μ) : Term μ :=
  match source with
  | .annotated _ metadata => withMetadata rebuilt metadata
  | _ => rebuilt

/-- What `transform_level` makes of a node whose children were rebuilt. -/
def closeNode (address : Address) (term : Term μ) (position : Position) (inBad : Bool)
    (rebuilt : Term μ) : Term μ :=
  match m.cache.lookup (identity address) with
  | none => keepMetadata term rebuilt
  | some (name, sort) =>
    if position = .right then .var name (some sort)
    else if position = .left && !inBad && m.usedOnRhs.contains (identity address) then
      .as (keepMetadata term rebuilt) (.var name (some sort))
    else keepMetadata term rebuilt

mutual

/-- The node without its annotations, over its transformed children. -/
def rebuild (address : Address) (term : Term μ) (position : Position) (inBad : Bool) : Term μ :=
  match term with
  | .annotated term _ => rebuild address term position inBad
  | .rewrite left right =>
    .rewrite
      (closeNode identity m (0 :: address) left .left inBad (rebuild (0 :: address) left .left inBad))
      (closeNode identity m (1 :: address) right .right inBad
        (rebuild (1 :: address) right .right inBad))
  | .as pattern aliased =>
    .as
      (closeNode identity m (0 :: address) pattern position inBad
        (rebuild (0 :: address) pattern position inBad))
      (closeNode identity m (1 :: address) aliased position inBad
        (rebuild (1 :: address) aliased position inBad))
  | .sequence items => .sequence (rebuildAll address 0 items position fun _ => inBad)
  | .apply label arguments =>
    .apply label (rebuildAll address 0 arguments position fun index =>
      if hook label = some "MAP.element" then index == 0 else inBad || isBlocked hook label)
  | .injectedLabel label => .injectedLabel label
  | .var name sort => .var name sort
  | .token text sort => .token text sort

/-- `transform` of each child, where `inBad` says which of them are blocked. -/
def rebuildAll (address : Address) (index : Nat) (terms : List (Term μ)) (position : Position)
    (inBad : Nat → Bool) : List (Term μ) :=
  match terms with
  | [] => []
  | t :: ts =>
    closeNode identity m (index :: address) t position (inBad index)
        (rebuild (index :: address) t position (inBad index)) ::
      rebuildAll address (index + 1) ts position inBad

end

/-- `transform` -/
def transform (address : Address) (term : Term μ) (position : Position) (inBad : Bool) : Term μ :=
  closeNode identity m address term position inBad (rebuild hook identity m address term position
    inBad)

end Transform

variable [DecidableEq μ] [Inhabited μ] (inferSort mainInferSort : Term μ → Except E KSort)

/-- The minimizer of a rule after `gather_terms` and `filter_rhs`. -/
def minimizer (identity : Address → Nat) (rule : Rule μ) : Except E Minimizer := do
  let fresh := FreshNames.forTerms [rule.body, rule.requires, rule.ensures]
  let gather := gatherTerms hook inferSort mainInferSort identity
  let m ← gather [0] rule.body .both true false ⟨fresh, [], []⟩
  let m ← gather [1] rule.requires .right true false m
  let m ← gather [2] rule.ensures .right true false m
  let m := filterRhs identity [0] rule.body .both m
  let m := filterRhs identity [1] rule.requires .right m
  return filterRhs identity [2] rule.ensures .right m

/-- `minimize_term_construction_pass` on one rule; `none` is a panic. -/
def minimizeTermConstruction (rule : Rule μ) : Option (Except E (Rule μ)) := do
  let ids ← Identities.forRule rule
  return do
    let m ← minimizer hook inferSort mainInferSort ids.of rule
    return {
      body := transform hook ids.of m [0] rule.body .both false
      requires := transform hook ids.of m [1] rule.requires .right false
      ensures := transform hook ids.of m [2] rule.ensures .right false }

end Pass

end KRust.Kompile
