import KRust.Backend.Term

/-!
The expansion of an equation between two lists into branches: each branch places the items of
the destination on items of the current list, and states the equation of each item and of each
run of opaque parts between them.
-/

set_option linter.unusedSectionVars false

namespace KRust.Backend.ListImplication

open KRust.Kore

/-- Consecutive items, or one opaque part. -/
inductive ListRun where
  | items (items : List Term)
  | part (term : Term)

/-- The concatenation that held the parts of a list. -/
abbrev ConcatHead : Type := TermSymbol × List KoreSort

/-- `list_definition_of` -/
def listDefinitionOf : Term → Option ListDefinition
  | .list definition _ _ => some definition
  | .application symbol _ _ =>
    match symbol.attributes.collection with
    | some (.list definition) =>
      if symbol.name = definition.symbols.concat then some definition else none
    | _ => none
  | _ => none

/-- Neighbouring runs of items are joined. -/
def pushItems (runs : List ListRun) (items : List Term) : List ListRun :=
  if items.isEmpty then runs
  else
    match runs.getLast? with
    | some (.items last) => runs.dropLast ++ [.items (last ++ items)]
    | _ => runs ++ [.items items]

/-- `flatten_list_runs`: the runs of a list, after those before it. -/
def flattenListRuns (definition : ListDefinition) :
    Term → List ListRun × Option ConcatHead → List ListRun × Option ConcatHead
  | .list found heads rest, (runs, head) =>
    if found = definition then
      match rest with
      | some (middle, tails) =>
        let flat := flattenListRuns definition middle (pushItems runs heads, head)
        (pushItems flat.1 tails, flat.2)
      | none => (pushItems runs heads, head)
    else (runs ++ [.part (.list found heads rest)], head)
  | .application symbol sortArguments [left, right], (runs, head) =>
    if symbol.name = definition.symbols.concat then
      flattenListRuns definition right
        (flattenListRuns definition left (runs, head.or (some (symbol, sortArguments))))
    else (runs ++ [.part (.application symbol sortArguments [left, right])], head)
  | term, (runs, head) => (runs ++ [.part term], head)

/-- Whether a run is a part. -/
def ListRun.isPart : ListRun → Bool
  | .part _ => true
  | .items _ => false

section Concat

variable [CollectionOrder]

/-- The heads, the middle and the tails of runs with at most one part. -/
def concatItems : List ListRun → List Term × Option (Term × List Term)
  | [] => ([], none)
  | .items items :: runs =>
    match concatItems runs with
    | (heads, rest) => (items ++ heads, rest)
  | .part part :: runs => ([], some (part, runs.flatMap fun
    | .items items => items
    | .part _ => []))

def ListRun.toTerm (definition : ListDefinition) : ListRun → Term
  | .items run => Term.listOfItems definition run none
  | .part term => term

/-- `concat_list_runs` -/
def concatListRuns (definition : ListDefinition) (head : Option ConcatHead)
    (runs : List ListRun) : Term :=
  if (runs.filter ListRun.isPart).length ≤ 1 then
    Term.listOfItems definition (concatItems runs).1 (concatItems runs).2
  else
    match head, runs.map (ListRun.toTerm definition) with
    | some (symbol, sortArguments), first :: terms =>
      terms.foldl (fun left right => Term.mkApplication symbol sortArguments [left, right]) first
    -- `expect("two parts of a list came from a concatenation")`
    | _, _ => Term.list definition [] none

end Concat

section Blocks

/-- A list as blocks of items between runs of parts: the block before the first part, and each
run of parts with the block after it. -/
structure Blocks where
  first : List Term
  rest : List (List ListRun × List Term)

/-- The blocks after one more run; the last run of parts comes first while they are built. -/
def Blocks.push (blocks : Blocks) : ListRun → Blocks
  | .items items =>
    match blocks.rest with
    | [] => ⟨blocks.first ++ items, []⟩
    | (parts, block) :: rest => ⟨blocks.first, (parts, block ++ items) :: rest⟩
  | .part part =>
    match blocks.rest with
    | (parts, []) :: rest => ⟨blocks.first, (parts ++ [.part part], []) :: rest⟩
    | rest => ⟨blocks.first, ([.part part], []) :: rest⟩

def Blocks.ofRuns (runs : List ListRun) : Blocks :=
  let built := runs.foldl Blocks.push ⟨[], []⟩
  ⟨built.first, built.rest.reverse⟩

end Blocks

section Subject

/-- A current list by item position: each part is at the cut point between the items around
it. -/
structure ListSubject where
  runs : List ListRun
  /-- The position of the first item of each run of items, with the run's index. -/
  itemRuns : List (Nat × Nat)
  /-- The cut point of each part. -/
  partPoints : List Nat
  len : Nat

namespace ListSubject

/-- The loop of `new` over the runs from an index on. -/
def index : List ListRun → Nat → ListSubject → ListSubject
  | [], _, subject => subject
  | .items items :: runs, i, subject =>
    index runs (i + 1)
      { subject with
        itemRuns := subject.itemRuns ++ [(subject.len, i)]
        len := subject.len + items.length }
  | .part _ :: runs, i, subject =>
    index runs (i + 1) { subject with partPoints := subject.partPoints ++ [subject.len] }

def new (runs : List ListRun) : ListSubject := index runs 0 ⟨runs, [], [], 0⟩

def hasPart (subject : ListSubject) : Bool := !subject.partPoints.isEmpty

/-- Whether a part lies at a cut point from `low` to `high`; the points are in order. -/
def partWithin (subject : ListSubject) (low high : Nat) : Bool :=
  (subject.partPoints.dropWhile (· < low)).head?.any (· ≤ high)

/-- The item at a position. -/
def item (subject : ListSubject) (position : Nat) : Option Term := do
  let (start, i) ← (subject.itemRuns.takeWhile (·.1 ≤ position)).getLast?
  match subject.runs[i]? with
  | some (.items items) => items[position - start]?
  | _ => none

/-- `cut`: the items from `low` to `high`, and the parts at their cut points. -/
def cut (low high : Nat) : Nat → List ListRun → List ListRun
  | _, [] => []
  | start, .items items :: runs =>
    let stop := start + items.length
    let first := max low start
    let last := min high stop
    if first < last then
      .items ((items.take (last - start)).drop (first - start)) :: cut low high stop runs
    else cut low high stop runs
  | start, .part part :: runs =>
    if low ≤ start ∧ start ≤ high then .part part :: cut low high start runs
    else cut low high start runs

end ListSubject

end Subject

section Problem

variable [CollectionOrder]

structure Problem where
  list : ListDefinition
  head : Option ConcatHead
  subject : ListSubject
  /-- Whether the match of a pattern item with a subject item does not fail. -/
  itemMatches : Term → Term → Bool

namespace Problem

variable (p : Problem)

/-- The items of a block with the subject's items from a position on. -/
def itemEquations (block : List Term) (start : Nat) : List (Term × Term) :=
  block.zipIdx.filterMap fun (item, offset) =>
    (p.subject.item (start + offset)).map fun found => (item, found)

/-- Whether a block may start at a position. -/
def blockFits (block : List Term) (start : Nat) : Bool :=
  start + block.length ≤ p.subject.len &&
    !(1 < block.length && p.subject.partWithin (start + 1) (start + block.length - 1)) &&
    (p.itemEquations block start).all fun (item, found) => p.itemMatches item found

/-- The positions at which a block after the first part may start, with room for the later
blocks. -/
def candidates (earliest len later : Nat) (isLast : Bool) : List Nat :=
  if isLast then
    -- After the pattern's last part: at the subject's last item, with no part beyond.
    if p.subject.len < len then []
    else if p.subject.len - len < earliest ||
      (0 < len && p.subject.partWithin (p.subject.len - len + 1) p.subject.len) then []
    else [p.subject.len - len]
  else if p.subject.len < later + len then []
  else List.range' earliest (p.subject.len - (later + len) + 1 - earliest)

/-- The placements of the blocks after those placed up to a position. -/
def placements (earliest : Nat) : List (List ListRun × List Term) → List (List Nat)
  | [] => [[]]
  | (_, block) :: rest =>
    let later := (rest.map fun entry => entry.2.length).sum
    ((p.candidates earliest block.length later rest.isEmpty).filter (p.blockFits block)).flatMap
      fun start => (placements (start + block.length) rest).map (start :: ·)

/-- The placements of all blocks: the first at the subject's first item, with no part ahead. -/
def enumerate (blocks : Blocks) : List (List Nat) :=
  if 0 < blocks.first.length && p.subject.partWithin 0 0 then []
  else if p.blockFits blocks.first 0 then p.placements blocks.first.length blocks.rest
  else []

/-- The equations of the parts and blocks after a position. -/
def branchRest (low : Nat) : List (List ListRun × List Term) → List Nat → List (Term × Term)
  | (parts, block) :: rest, start :: starts =>
    (concatListRuns p.list p.head parts,
        concatListRuns p.list p.head (ListSubject.cut low start 0 p.subject.runs)) ::
      (p.itemEquations block start ++ branchRest (start + block.length) rest starts)
  | _, _ => []

/-- The equations of one placement. -/
def branch (blocks : Blocks) (starts : List Nat) : List (Term × Term) :=
  p.itemEquations blocks.first 0 ++ p.branchRest blocks.first.length blocks.rest starts

end Problem

/-- `list_implication_expansion` -/
def listImplicationExpansion (itemMatches : Term → Term → Bool) (pattern subject : Term) :
    Option (List (List (Term × Term))) := do
  let list ← listDefinitionOf pattern
  if listDefinitionOf subject ≠ some list then none
  else
    let (patternRuns, head) := flattenListRuns list pattern ([], none)
    let blocks := Blocks.ofRuns patternRuns
    let partCount := (patternRuns.filter ListRun.isPart).length
    if partCount < 2 || (blocks.first.isEmpty && blocks.rest.all (·.2.isEmpty)) then none
    else
      let (subjectRuns, head) := flattenListRuns list subject ([], head)
      let current := ListSubject.new subjectRuns
      let problem : Problem := ⟨list, head, current, itemMatches⟩
      let branches := (problem.enumerate blocks).map (problem.branch blocks)
      some (if current.hasPart then branches ++ [[(pattern, subject)]] else branches)

end Problem

end KRust.Backend.ListImplication
