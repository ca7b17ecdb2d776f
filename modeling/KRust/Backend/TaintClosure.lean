import KRust.Backend.Substitution
import KRust.Lib.Spreading

/-!
The taint closure of the confluence check: the symbols whose applications get no value claim, given
the equations that may not hold. Sets are lists here, asked for membership only, and an index from
keys to values is the list of its pairs.
-/

namespace KRust.Backend

open KRust.Kore KRust.Lib

/-- `visit_symbols`: the symbols of the applications in a term, in preorder. -/
def Term.visitSymbols : Term → List TermSymbol
  | .and left right => left.visitSymbols ++ right.visitSymbols
  | .application symbol _ arguments => symbol :: visitAll arguments
  | .domainValue _ _ => []
  | .var _ => []
  | .injection _ _ term => term.visitSymbols
  | .map _ entries rest => visitEntries entries ++ visitRest rest
  | .list _ heads rest => visitAll heads ++ visitMiddle rest
  | .set _ elements rest => visitAll elements ++ visitRest rest
where
  visitAll : List Term → List TermSymbol
  | [] => []
  | term :: terms => term.visitSymbols ++ visitAll terms
  visitEntries : List (Term × Term) → List TermSymbol
  | [] => []
  | (key, value) :: entries => key.visitSymbols ++ value.visitSymbols ++ visitEntries entries
  visitRest : Option Term → List TermSymbol
  | none => []
  | some rest => rest.visitSymbols
  visitMiddle : Option (Term × List Term) → List TermSymbol
  | none => []
  | some (middle, tails) => middle.visitSymbols ++ visitAll tails

/-- `visit_terms`: the terms in a predicate. -/
def Predicate.visitTerms : Predicate → List Term
  | .truth | .falsity => []
  | .term t | .ceil t | .defined t | .floor t => [t]
  | .equals left right | .mem left right => [left, right]
  | .absent key rest _ _ => [key, rest]
  | .not p | .existential _ p | .universal _ p => p.visitTerms
  | .and ps | .or ps => visitAll ps
  | .implies p q | .iff p q => p.visitTerms ++ q.visitTerms
where
  visitAll : List Predicate → List Term
  | [] => []
  | p :: ps => p.visitTerms ++ visitAll ps

/-- One of the right-hand sides of a disjunction. -/
structure RhsAlternative where
  term : Term
  ensures : List Predicate

inductive RuleRhs where
  | term (t : Term)
  | disjunction (alternatives : List RhsAlternative)
  | predicates (ps : List Predicate)
  | top
  | bottom

structure RewriteRule where
  lhs : Term
  rhs : RuleRhs
  requires : List Predicate
  ensures : List Predicate
  /-- The variables of the rule. -/
  computedVariables : List TermVariable

/-- An equation of the check. Rules are told apart by where they are kept. -/
structure CheckedEquation where
  address : Nat
  rule : RewriteRule
  witness : Bool

/-- Whether some closure can taint the symbol. -/
def taintable (symbol : TermSymbol) : Bool :=
  match symbol.attributes.headRole with
  | .freeConstructor => false
  | .equationHead => true
  | .function _ _ _ | .uninterpreted | .residual => symbol.attributes.hook.isNone

/-- The terms that a rule is written with. -/
def RewriteRule.terms (rule : RewriteRule) : List Term :=
  let rhs := match rule.rhs with
    | .term t => [t]
    | .disjunction alternatives => alternatives.flatMap fun alternative =>
      alternative.term :: alternative.ensures.flatMap Predicate.visitTerms
    | .predicates ps => ps.flatMap Predicate.visitTerms
    | .top | .bottom => []
  rule.lhs :: rhs ++ (rule.requires ++ rule.ensures).flatMap Predicate.visitTerms

/-- The names of the taintable symbols in a term. -/
def taintableIn (term : Term) : List String :=
  (term.visitSymbols.filter taintable).map TermSymbol.name

/-- `mentioned_symbols` -/
def mentionedSymbols (rule : RewriteRule) : List String := rule.terms.flatMap taintableIn

section Reach

/-- How a model reads the application of a symbol on a new element. -/
inductive OnNewArguments where
  | formal
  | opaquely
  | pinned
  deriving DecidableEq

/-- `has_sort_variable` -/
def hasSortVariable : KoreSort → Bool
  | .var _ => true
  | .application _ arguments => anyVariable arguments
where
  anyVariable : List KoreSort → Bool
  | [] => false
  | s :: sorts => hasSortVariable s || anyVariable sorts

/-- For each sort, the equation heads whose applications can occur inside an element of it. -/
structure SortReach where
  edges : List (KoreSort × KoreSort)
  headsOf : List (KoreSort × String)
  /-- The equation heads of a parametric result sort, in every sort. -/
  everywhere : List String
  /-- The argument sorts that every sort reaches. -/
  fromEverywhere : List KoreSort
  allHeads : List String
  /-- Whether some symbol has a parametric argument: then every sort reaches every head. -/
  reachesEverything : Bool
  memo : List (KoreSort × List String)
  /-- The symbols that the model cannot interpret on new arguments, with their argument sorts. -/
  pinned : List (String × List KoreSort)

namespace SortReach

def empty : SortReach := ⟨[], [], [], [], [], false, [], []⟩

/-- The edges to the parts of a collection's items. -/
def addCollection (reach : SortReach) (symbol : TermSymbol) : SortReach :=
  match symbol.attributes.collection with
  | none => reach
  | some (.map definition) =>
    { reach with edges := reach.edges ++ [
        (Term.simpleSort definition.mapSort, definition.keySort),
        (Term.simpleSort definition.mapSort, definition.valueSort)] }
  | some (.list definition) | some (.set definition) =>
    { reach with edges := reach.edges ++
        [(Term.simpleSort definition.listSort, definition.elementSort)] }

/-- An equation head is a head of its result sort. -/
def addHead (reach : SortReach) (symbol : TermSymbol) : SortReach :=
  if symbol.attributes.headRole = .equationHead then
    let reach := { reach with allHeads := reach.allHeads ++ [symbol.name] }
    if hasSortVariable symbol.resultSort then
      { reach with everywhere := reach.everywhere ++ [symbol.name] }
    else { reach with headsOf := reach.headsOf ++ [(symbol.resultSort, symbol.name)] }
  else reach

/-- The result sort of a symbol leads to one of its argument sorts. -/
def addArgument (symbol : TermSymbol) (reach : SortReach) (argument : KoreSort) : SortReach :=
  if hasSortVariable argument then { reach with reachesEverything := true }
  else if hasSortVariable symbol.resultSort then
    { reach with fromEverywhere := reach.fromEverywhere ++ [argument] }
  else { reach with edges := reach.edges ++ [(symbol.resultSort, argument)] }

def addSymbol (reading : TermSymbol → OnNewArguments) (reach : SortReach) (symbol : TermSymbol) :
    SortReach :=
  let reach := reach.addCollection symbol
  -- A sort injection's edges are those of the subsorts.
  if symbol.name = "inj" then reach
  else
    let reach := reach.addHead symbol
    match reading symbol with
    | .formal => symbol.argumentSorts.foldl (addArgument symbol) reach
    | .opaquely => reach
    | .pinned => { reach with pinned := reach.pinned ++ [(symbol.name, symbol.argumentSorts)] }

/-- `SortReach::new` -/
def new (sorts : SortGraph) (symbols : List TermSymbol) (reading : TermSymbol → OnNewArguments) :
    SortReach :=
  symbols.foldl (addSymbol reading)
    { empty with edges := sorts.below.flatMap fun row => row.2.map fun sort => (row.1, sort) }

/-- `witness_edges`: from the sort of a witness's left-hand side to those of the variables on its
right. -/
def witnessEdges (reach : SortReach) (rule : RewriteRule) : SortReach :=
  match rule.rhs with
  | .term rhs =>
    { reach with edges := reach.edges ++ rhs.vars.map fun v => (rule.lhs.sort, v.sort) }
  | _ => reach

/-- A depth-first walk over the sorts, and the heads it found. -/
structure SortWalk where
  seen : List KoreSort
  stack : List KoreSort
  heads : List String

def successors (reach : SortReach) (sort : KoreSort) : List KoreSort :=
  (reach.edges.filter fun edge => edge.1 = sort).map Prod.snd

def headsAt (reach : SortReach) (sort : KoreSort) : List String :=
  (reach.headsOf.filter fun entry => entry.1 = sort).map Prod.snd

/-- The walk ends with the heads it found, or with nothing where it reaches a sort with
variables. -/
def walkTurn (reach : SortReach) (walk : SortWalk) : Option (List String) ⊕ SortWalk :=
  match walk.stack with
  | [] => .inl (some walk.heads)
  | sort :: stack =>
    if sort ∈ walk.seen then .inr { walk with stack := stack }
    else if hasSortVariable sort then .inl none
    else
      .inr ⟨sort :: walk.seen, (reach.successors sort).reverse ++ stack,
        walk.heads ++ reach.headsAt sort⟩

/-- What is left of a walk: the edges that it did not follow, twice, and its stack. -/
def walkWeight (reach : SortReach) (walk : SortWalk) : Nat :=
  2 * (reach.edges.filter fun edge => edge.1 ∉ walk.seen).length + walk.stack.length

theorem walkWeight_lt {reach : SortReach} {walk next : SortWalk}
    (h : reach.walkTurn walk = .inr next) : reach.walkWeight next < reach.walkWeight walk := by
  obtain ⟨seen, stack, heads⟩ := walk
  cases stack with
  | nil => cases h
  | cons sort stack =>
    simp only [walkTurn] at h
    split at h
    · cases h
      simp [walkWeight]
    · next hfresh =>
      split at h
      · cases h
      · cases h
        have hsplit : (reach.edges.filter fun edge => edge.1 ∉ seen).length =
            (reach.edges.filter fun edge => edge.1 ∉ sort :: seen).length +
              (reach.successors sort).length := by
          rw [successors, List.length_map]
          induction reach.edges with
          | nil => rfl
          | cons edge edges ih =>
            simp only [List.filter_cons]
            by_cases heq : edge.1 = sort
            · subst heq
              simp [hfresh] at ih ⊢
              omega
            · by_cases hseen : edge.1 ∈ seen
              · simpa [heq, hseen] using ih
              · simp [heq, hseen] at ih ⊢
                omega
        simp only [walkWeight, List.length_append, List.length_reverse, List.length_cons]
        omega

def walkLoop (reach : SortReach) : Loop SortWalk (Option (List String)) where
  turn := reach.walkTurn
  ends := ⟨reach.walkWeight, fun _ _ => walkWeight_lt⟩

/-- `SortReach::heads`: the equation heads whose applications can occur inside an element of a
sort. -/
def heads (reach : SortReach) (sort : KoreSort) : List String × SortReach :=
  if reach.reachesEverything || hasSortVariable sort then (reach.allHeads, reach)
  else
    match reach.memo.lookup sort with
    | some known => (known, reach)
    | none =>
      match reach.walkLoop.run ⟨[], reach.fromEverywhere.reverse ++ [sort], reach.everywhere⟩ with
      | none => (reach.allHeads, reach)
      | some found => (found, { reach with memo := (sort, found) :: reach.memo })

/-- The heads of several sorts, one after the other. -/
def headsOfAll (reach : SortReach) : List KoreSort → List String × SortReach
  | [] => ([], reach)
  | sort :: sorts =>
    let (found, reach) := reach.heads sort
    let (rest, reach) := reach.headsOfAll sorts
    (found ++ rest, reach)

/-- The heads that the pinned symbols of a list withdraw, with the symbols. -/
def pinnedHeadsOf (reach : SortReach) :
    List (String × List KoreSort) → List (String × List String) × SortReach
  | [] => ([], reach)
  | (symbol, argumentSorts) :: rest =>
    let (heads, reach) := reach.headsOfAll argumentSorts
    let (found, reach) := reach.pinnedHeadsOf rest
    (if heads.isEmpty then found else (symbol, heads) :: found, reach)

/-- `pinned_heads` -/
def pinnedHeads (reach : SortReach) : List (String × List String) × SortReach :=
  reach.pinnedHeadsOf reach.pinned

end SortReach

end Reach

/-- The data that the closure walks. -/
structure Closure where
  equations : List CheckedEquation
  /-- The equations whose left-hand side mentions a symbol. -/
  lhsIndex : List (String × Fin equations.length)
  reach : SortReach

namespace Closure

/-- The taintable symbols of the left-hand sides. -/
def lhsSymbols (equations : List CheckedEquation) (id : Fin equations.length) : List String :=
  (taintableIn equations[id].rule.lhs).dedup

/-- `Closure::new` -/
def new (sorts : SortGraph) (symbols : List TermSymbol) (reading : TermSymbol → OnNewArguments)
    (equations : List CheckedEquation) : Closure where
  equations := equations
  lhsIndex := (List.finRange equations.length).flatMap fun id =>
    (lhsSymbols equations id).map fun symbol => (symbol, id)
  reach := (equations.filter CheckedEquation.witness).foldl
    (fun reach equation => reach.witnessEdges equation.rule) (SortReach.new sorts symbols reading)

variable (closure : Closure)

/-- The position of a rule in the check's list. -/
def idOf (address : Nat) : Option (Fin closure.equations.length) :=
  (List.finRange closure.equations.length).reverse.find? fun id =>
    closure.equations[id].address = address

/-- The symbols that a tainted equation pushes: those it mentions, and the heads that can occur in
the values of its variables. -/
def pushes (id : Fin closure.equations.length) (reach : SortReach) : List String × SortReach :=
  let rule := closure.equations[id].rule
  let (heads, reach) := reach.headsOfAll (rule.computedVariables.map Variable.sort)
  (mentionedSymbols rule ++ heads, reach)

/-- `taint`: the tainted symbols of the closure seeded by the equations and the symbols. -/
def taint (reach : SortReach) (seeds : List Nat) (symbols : List String) :
    List String × SortReach :=
  let spread := Spread.run closure.lhsIndex closure.pushes reach (seeds.filterMap closure.idOf)
    symbols
  (spread.names, spread.state)

/-- The equations that push some symbol of the gate, and the others by the symbols they push. -/
structure Pushing (n : Nat) where
  reach : SortReach
  relevant : List (Fin n)
  pushing : List (String × Fin n)

variable {closure}

def Pushing.add (gate : String → Bool) (state : Pushing closure.equations.length)
    (id : Fin closure.equations.length) : Pushing closure.equations.length :=
  let pushed := closure.pushes id state.reach
  if pushed.1.any gate then
    { state with reach := pushed.2, relevant := state.relevant ++ [id] }
  else
    { state with
      reach := pushed.2
      pushing := state.pushing ++ pushed.1.map fun symbol => (symbol, id) }

variable (closure)

/-- `relevant`: for each equation, whether the closure seeded by it alone holds a symbol of the
gate. The closure is read backwards, from the equations that push such a symbol through the
symbols of left-hand sides. -/
def relevant (reach : SortReach) (gate : String → Bool) :
    (Fin closure.equations.length → Bool) × SortReach :=
  let found := (List.finRange closure.equations.length).foldl (Pushing.add gate)
    ⟨reach, [], []⟩
  let spread := Spread.run found.pushing
    (fun id (_ : Unit) => (lhsSymbols closure.equations id, ())) () found.relevant []
  (spread.marked, found.reach)

end Closure

end KRust.Backend
