import KRust.Backend.TaintClosure

/-!
The taint closure is the least set of equations and symbols that is closed under its rules, however
the walks over the sorts were remembered, and the equations that are relevant to a gate are those
whose own closure meets it.
-/

namespace KRust.Backend

open KRust.Kore KRust.Lib
open Relation (ReflTransGen)

namespace SortReach

section Reached

variable (reach : SortReach)

def Edge (a b : KoreSort) : Prop := (a, b) ∈ reach.edges

/-- The sorts whose elements can be inside an element of a sort. -/
def Reached (sort found : KoreSort) : Prop :=
  ∃ start ∈ sort :: reach.fromEverywhere, ReflTransGen reach.Edge start found

/-- Some argument or some sort on the way has sort variables, and is read as every sort. -/
def ReachesAll (sort : KoreSort) : Prop :=
  reach.reachesEverything = true ∨
    ∃ found, reach.Reached sort found ∧ hasSortVariable found = true

/-- The head's applications can occur inside an element of the sort. -/
def Occurs (sort : KoreSort) (head : String) : Prop :=
  reach.ReachesAll sort ∧ head ∈ reach.allHeads ∨
    ¬reach.ReachesAll sort ∧ (head ∈ reach.everywhere ∨
      ∃ found, reach.Reached sort found ∧ (found, head) ∈ reach.headsOf)

end Reached

section Walks

variable {reach : SortReach}

theorem mem_successors {a b : KoreSort} : b ∈ reach.successors a ↔ reach.Edge a b := by
  simp [successors, Edge]

theorem mem_headsAt {sort : KoreSort} {head : String} :
    head ∈ reach.headsAt sort ↔ (sort, head) ∈ reach.headsOf := by
  simp [headsAt]

/-- What holds between two turns of the walk from a sort. -/
structure Walking (reach : SortReach) (sort : KoreSort) (walk : SortWalk) : Prop where
  frontier : Frontier reach.Edge (fun a => a ∈ sort :: reach.fromEverywhere)
    (fun a => a ∈ walk.seen ∨ a ∈ walk.stack) fun a => a ∈ walk.stack ∧ a ∉ walk.seen
  plain : ∀ a ∈ walk.seen, hasSortVariable a = false
  heads_iff : ∀ head, head ∈ walk.heads ↔
    head ∈ reach.everywhere ∨ ∃ a ∈ walk.seen, (a, head) ∈ reach.headsOf

theorem Walking.start (reach : SortReach) (sort : KoreSort) :
    Walking reach sort ⟨[], reach.fromEverywhere.reverse ++ [sort], reach.everywhere⟩ where
  frontier := by
    have hstack : ∀ a, a ∈ reach.fromEverywhere.reverse ++ [sort] ↔
        a ∈ sort :: reach.fromEverywhere := by
      intro a
      simp [or_comm]
    refine ⟨fun a ha => .inr ((hstack a).mpr ha), fun a ha => ?_, fun a ha => .inr ha.1,
      fun a ha hnot => ?_⟩
    · exact ⟨a, (hstack a).mp (ha.resolve_left List.not_mem_nil), .refl⟩
    · exact absurd ⟨ha.resolve_left List.not_mem_nil, List.not_mem_nil⟩ hnot
  plain _ h := absurd h List.not_mem_nil
  heads_iff head := by simp

theorem Walking.turn {sort : KoreSort} {walk next : SortWalk} (h : Walking reach sort walk)
    (hturn : reach.walkTurn walk = .inr next) : Walking reach sort next := by
  obtain ⟨seen, stack, heads⟩ := walk
  cases stack with
  | nil => cases hturn
  | cons top stack =>
    simp only [walkTurn] at hturn
    split at hturn
    · next hseen =>
      cases hturn
      refine ⟨h.frontier.congr (fun a => ?_) fun a => ?_, h.plain, h.heads_iff⟩
      · rw [List.mem_cons]
        refine ⟨fun ha => ?_, fun ha => ha.imp_right .inr⟩
        rcases ha with ha | rfl | ha
        · exact .inl ha
        · exact .inl hseen
        · exact .inr ha
      · rw [List.mem_cons]
        refine ⟨fun ha => ⟨ha.1.resolve_left fun heq => ha.2 (heq ▸ hseen), ha.2⟩,
          fun ha => ⟨.inr ha.1, ha.2⟩⟩
    · next hfresh =>
      split at hturn
      · cases hturn
      · next hplain =>
        cases hturn
        have hsuccessor : ∀ a, a ∈ (reach.successors top).reverse ++ stack ↔
            reach.Edge top a ∨ a ∈ stack := by
          intro a
          rw [List.mem_append, List.mem_reverse, mem_successors]
        refine ⟨?_, ?_, fun head => ?_⟩
        · refine h.frontier.expand (a := top) ⟨List.mem_cons_self, hfresh⟩ (fun a => ?_)
            (fun a ha => ?_) (fun a ha hne => ?_) fun a ha hnot => ?_
          · rw [hsuccessor, List.mem_cons, List.mem_cons]
            tauto
          · rw [hsuccessor, List.mem_cons, not_or] at ha
            exact ha.1.symm.imp (fun hmem => ⟨List.mem_cons_of_mem top hmem, ha.2.2⟩) id
          · rw [hsuccessor, List.mem_cons, not_or]
            exact ⟨.inr ((List.mem_cons.mp ha.1).resolve_left hne), hne, ha.2⟩
          · rw [hsuccessor, List.mem_cons, not_or]
            refine ⟨.inl ha, fun heq => hnot ?_, fun hmem => hnot (.inl hmem)⟩
            exact .inr (heq ▸ List.mem_cons_self)
        · intro a ha
          rcases List.mem_cons.mp ha with rfl | ha
          · exact Bool.eq_false_iff.mpr hplain
          · exact h.plain a ha
        · rw [List.mem_append, h.heads_iff, mem_headsAt, List.exists_mem_cons_iff, or_assoc]
          exact or_congr_right or_comm

/-- A walk finds the heads in the sorts it reaches, or that one of these has variables. -/
def WalkAnswer (reach : SortReach) (sort : KoreSort) : Option (List String) → Prop
  | none => ∃ found, reach.Reached sort found ∧ hasSortVariable found = true
  | some heads => (∀ found, reach.Reached sort found → hasSortVariable found = false) ∧
      ∀ head, head ∈ heads ↔ head ∈ reach.everywhere ∨
        ∃ found, reach.Reached sort found ∧ (found, head) ∈ reach.headsOf

theorem walk_spec (reach : SortReach) (sort : KoreSort) :
    reach.WalkAnswer sort
      (reach.walkLoop.run ⟨[], reach.fromEverywhere.reverse ++ [sort], reach.everywhere⟩) := by
  refine reach.walkLoop.run_spec
    (Q := fun walk result => Walking reach sort walk → reach.WalkAnswer sort result)
    (fun walk result hturn h => ?_) (fun walk next result hturn ih h => ih (h.turn hturn)) _
    (Walking.start reach sort)
  obtain ⟨seen, stack, heads⟩ := walk
  change reach.walkTurn ⟨seen, stack, heads⟩ = .inl result at hturn
  cases stack with
  | nil =>
    cases hturn
    have hmarked := h.frontier.marked_iff fun a ha => absurd ha.1 List.not_mem_nil
    have hseen : ∀ a, a ∈ seen ↔ reach.Reached sort a := by
      intro a
      refine Iff.trans ?_ (hmarked a)
      simp
    refine ⟨fun found hfound => h.plain found ((hseen found).mpr hfound), fun head => ?_⟩
    rw [h.heads_iff]
    simp only [hseen]
  | cons top stack =>
    simp only [walkTurn] at hturn
    split at hturn
    · cases hturn
    · next hfresh =>
      split at hturn
      · next hvariable =>
        cases hturn
        exact ⟨top, h.frontier.reached top (.inr List.mem_cons_self), hvariable⟩
      · cases hturn

end Walks

section Answers

variable {base reach : SortReach}

/-- Only the memo of a reach changes, and what it remembers is right. -/
structure Remembers (base reach : SortReach) : Prop where
  same : reach = { base with memo := reach.memo }
  right : ∀ sort known, (sort, known) ∈ reach.memo → ∀ head, head ∈ known ↔ base.Occurs sort head

theorem Remembers.occurs_iff (h : Remembers base reach) {sort : KoreSort} {head : String} :
    reach.Occurs sort head ↔ base.Occurs sort head := by
  rw [h.same]
  rfl

theorem heads_spec (h : Remembers base reach) (sort : KoreSort) :
    (∀ head, head ∈ (reach.heads sort).1 ↔ base.Occurs sort head) ∧
      Remembers base (reach.heads sort).2 := by
  have hfind : ∀ known, reach.memo.lookup sort = some known → (sort, known) ∈ reach.memo := by
    intro known hknown
    obtain ⟨front, back, heq, -⟩ := List.lookup_eq_some_iff.mp hknown
    rw [heq]
    simp
  simp only [← h.occurs_iff]
  rw [heads]
  split
  · next hall =>
    have hreaches : reach.ReachesAll sort := by
      rcases Bool.or_eq_true_iff.mp hall with hall | hall
      · exact .inl hall
      · exact .inr ⟨sort, ⟨sort, List.mem_cons_self, .refl⟩, hall⟩
    refine ⟨fun head => ?_, h⟩
    simp [Occurs, hreaches]
  · next hnone =>
    rw [Bool.or_eq_true, not_or] at hnone
    split
    · next known hknown =>
      refine ⟨fun head => ?_, h⟩
      rw [h.occurs_iff]
      exact h.right sort known (hfind known hknown) head
    · next hnew =>
      have hwalk := walk_spec reach sort
      split
      · next hvariable =>
        rw [hvariable] at hwalk
        have hreaches : reach.ReachesAll sort := .inr hwalk
        refine ⟨fun head => ?_, h⟩
        simp [Occurs, hreaches]
      · next found hfound =>
        rw [hfound] at hwalk
        have hreaches : ¬reach.ReachesAll sort := by
          rintro (hall | ⟨other, hother, hvariable⟩)
          · exact hnone.1 hall
          · rw [hwalk.1 other hother] at hvariable
            cases hvariable
        have hright : ∀ head, head ∈ found ↔ reach.Occurs sort head := by
          intro head
          rw [hwalk.2]
          simp [Occurs, hreaches]
        refine ⟨hright, ⟨?_, fun other known hmem head => ?_⟩⟩
        · rw [h.same]
        · rcases List.mem_cons.mp hmem with heq | hmem
          · obtain ⟨rfl, rfl⟩ := Prod.mk.inj heq
            rw [← h.occurs_iff]
            exact hright head
          · exact h.right other known hmem head

theorem headsOfAll_spec (h : Remembers base reach) (sorts : List KoreSort) :
    (∀ head, head ∈ (reach.headsOfAll sorts).1 ↔ ∃ sort ∈ sorts, base.Occurs sort head) ∧
      Remembers base (reach.headsOfAll sorts).2 := by
  induction sorts generalizing reach with
  | nil =>
    rw [headsOfAll]
    exact ⟨by simp, h⟩
  | cons sort sorts ih =>
    obtain ⟨hfirst, hreach⟩ := heads_spec h sort
    obtain ⟨hrest, hreach'⟩ := ih hreach
    rw [headsOfAll]
    refine ⟨fun head => ?_, hreach'⟩
    change head ∈ (reach.heads sort).1 ++ ((reach.heads sort).2.headsOfAll sorts).1 ↔ _
    rw [List.mem_append, hfirst, hrest, List.exists_mem_cons_iff]

theorem remembers_self (h : base.memo = []) : Remembers base base := by
  refine ⟨rfl, fun sort known hmem => ?_⟩
  rw [h] at hmem
  cases hmem

theorem pinnedHeadsOf_spec (h : Remembers base reach) (pinned : List (String × List KoreSort)) :
    (∀ symbol head, (∃ heads, (symbol, heads) ∈ (reach.pinnedHeadsOf pinned).1 ∧ head ∈ heads) ↔
      ∃ entry ∈ pinned, entry.1 = symbol ∧ ∃ sort ∈ entry.2, base.Occurs sort head) ∧
      Remembers base (reach.pinnedHeadsOf pinned).2 := by
  induction pinned generalizing reach with
  | nil =>
    rw [pinnedHeadsOf]
    exact ⟨by simp, h⟩
  | cons entry rest ih =>
    obtain ⟨symbol, argumentSorts⟩ := entry
    obtain ⟨hheads, hreach⟩ := headsOfAll_spec h argumentSorts
    obtain ⟨hrest, hreach'⟩ := ih hreach
    rw [pinnedHeadsOf]
    refine ⟨fun other head => ?_, hreach'⟩
    rw [List.exists_mem_cons_iff, ← hrest, ← hheads]
    change (∃ heads, (other, heads) ∈ (if (reach.headsOfAll argumentSorts).1.isEmpty then
      ((reach.headsOfAll argumentSorts).2.pinnedHeadsOf rest).1 else _) ∧ _) ↔ _
    split
    · next hempty =>
      rw [List.isEmpty_iff.mp hempty]
      simp
    · simp only [List.mem_cons, Prod.mk.injEq, or_and_right, exists_or]
      refine or_congr_left ?_
      constructor
      · rintro ⟨heads, ⟨rfl, rfl⟩, hhead⟩
        exact ⟨rfl, hhead⟩
      · rintro ⟨rfl, hhead⟩
        exact ⟨_, ⟨rfl, rfl⟩, hhead⟩

end Answers

section Start

theorem memo_addArguments (symbol : TermSymbol) (arguments : List KoreSort) (reach : SortReach) :
    (arguments.foldl (addArgument symbol) reach).memo = reach.memo := by
  induction arguments generalizing reach with
  | nil => rfl
  | cons argument arguments ih =>
    rw [List.foldl_cons, ih, addArgument]
    split
    · rfl
    · split <;> rfl

theorem memo_addSymbol (reading : TermSymbol → OnNewArguments) (reach : SortReach)
    (symbol : TermSymbol) : (addSymbol reading reach symbol).memo = reach.memo := by
  have hcollection : (reach.addCollection symbol).memo = reach.memo := by
    rw [addCollection]
    split <;> rfl
  have hhead : ∀ start : SortReach, (start.addHead symbol).memo = start.memo := by
    intro start
    rw [addHead]
    split
    · dsimp only
      split <;> rfl
    · rfl
  rw [addSymbol]
  split
  · exact hcollection
  · dsimp only
    split
    · rw [memo_addArguments, hhead, hcollection]
    · rw [hhead, hcollection]
    · exact (hhead _).trans hcollection

theorem memo_new (sorts : SortGraph) (symbols : List TermSymbol)
    (reading : TermSymbol → OnNewArguments) : (SortReach.new sorts symbols reading).memo = [] := by
  have hkept : ∀ start : SortReach,
      (symbols.foldl (addSymbol reading) start).memo = start.memo := by
    induction symbols with
    | nil => exact fun _ => rfl
    | cons symbol symbols ih =>
      intro start
      rw [List.foldl_cons, ih, memo_addSymbol]
  exact hkept _

end Start

end SortReach

open SortReach Closure

namespace Closure

section Pushes

variable (closure : Closure)

/-- A tainted equation pushes a symbol that it mentions, or a head that can occur in the value of
one of its variables. -/
def Pushes (id : Fin closure.equations.length) (symbol : String) : Prop :=
  symbol ∈ mentionedSymbols (closure.equations.get id).rule ∨
    ∃ v ∈ (closure.equations.get id).rule.computedVariables, closure.reach.Occurs v.sort symbol

/-- The equations and the symbols are closed under taint. -/
structure Closed (equation : Fin closure.equations.length → Prop) (symbol : String → Prop) :
    Prop where
  lhs : ∀ name id, symbol name → name ∈ taintableIn (closure.equations.get id).rule.lhs →
    equation id
  mentioned : ∀ id, equation id → ∀ name ∈ mentionedSymbols (closure.equations.get id).rule,
    symbol name
  observed : ∀ id, equation id → ∀ v ∈ (closure.equations.get id).rule.computedVariables,
    ∀ head, closure.reach.Occurs v.sort head → symbol head

variable {closure}

theorem pushes_spec (id : Fin closure.equations.length) (reach : SortReach)
    (h : Remembers closure.reach reach) :
    Remembers closure.reach (closure.pushes id reach).2 ∧
      ∀ symbol, symbol ∈ (closure.pushes id reach).1 ↔ closure.Pushes id symbol := by
  have hheads := headsOfAll_spec h
    ((closure.equations.get id).rule.computedVariables.map Variable.sort)
  refine ⟨hheads.2, fun symbol => ?_⟩
  change symbol ∈ mentionedSymbols (closure.equations.get id).rule ++
    (reach.headsOfAll ((closure.equations.get id).rule.computedVariables.map Variable.sort)).1 ↔ _
  rw [List.mem_append, hheads.1, Pushes]
  simp only [List.mem_map, exists_exists_and_eq_and]

end Pushes

end Closure

/-- A closure whose index lists the left-hand sides, and of whose sorts none was asked for. -/
structure BuiltClosure extends Closure where
  index_iff : ∀ name id, (name, id) ∈ lhsIndex ↔ name ∈ taintableIn (equations.get id).rule.lhs
  unasked : reach.memo = []

/-- The reach of a closure after some sorts were asked for. -/
structure BuiltClosure.Asked (closure : BuiltClosure) where
  reach : SortReach
  remembers : Remembers closure.toClosure.reach reach

namespace BuiltClosure

section Built

theorem mem_lhsEntries {equations : List CheckedEquation} {name : String}
    {id : Fin equations.length} :
    (name, id) ∈ ((List.finRange equations.length).flatMap fun other =>
        (lhsSymbols equations other).map fun symbol => (symbol, other)) ↔
      name ∈ taintableIn (equations.get id).rule.lhs := by
  simp only [List.mem_flatMap, List.mem_map, Prod.mk.injEq, List.mem_finRange, true_and]
  constructor
  · rintro ⟨other, found, hfound, rfl, rfl⟩
    exact List.mem_dedup.mp hfound
  · intro hname
    exact ⟨id, name, List.mem_dedup.mpr hname, rfl, rfl⟩

theorem memo_witnessEdges (rules : List CheckedEquation) (reach : SortReach) :
    (rules.foldl (fun reach equation => reach.witnessEdges equation.rule) reach).memo =
      reach.memo := by
  induction rules generalizing reach with
  | nil => rfl
  | cons rule rules ih =>
    rw [List.foldl_cons, ih, witnessEdges]
    split <;> rfl

/-- The closure of a check. -/
def new (sorts : SortGraph) (symbols : List TermSymbol) (reading : TermSymbol → OnNewArguments)
    (equations : List CheckedEquation) : BuiltClosure where
  toClosure := .new sorts symbols reading equations
  index_iff _ _ := mem_lhsEntries
  unasked := (memo_witnessEdges _ _).trans (memo_new sorts symbols reading)

variable (closure : BuiltClosure)

def asked : closure.Asked := ⟨closure.toClosure.reach, remembers_self closure.unasked⟩

variable {closure}

/-- One more sort is asked for. -/
def Asked.heads (asked : closure.Asked) (sort : KoreSort) : closure.Asked :=
  ⟨(asked.reach.heads sort).2, (heads_spec asked.remembers sort).2⟩

/-- The heads found for a sort do not depend on what was asked before. -/
theorem heads_iff_occurs (asked : closure.Asked) (sort : KoreSort) (head : String) :
    head ∈ (asked.reach.heads sort).1 ↔ closure.toClosure.reach.Occurs sort head :=
  (heads_spec asked.remembers sort).1 head

/-- A pinned symbol withdraws the heads that occur in its argument sorts. -/
theorem pinnedHeads_iff_occurs (asked : closure.Asked) (symbol head : String) :
    (∃ heads, (symbol, heads) ∈ asked.reach.pinnedHeads.1 ∧ head ∈ heads) ↔
      ∃ entry ∈ closure.toClosure.reach.pinned, entry.1 = symbol ∧
        ∃ sort ∈ entry.2, closure.toClosure.reach.Occurs sort head := by
  have hpinned : asked.reach.pinned = closure.toClosure.reach.pinned := by
    rw [asked.remembers.same]
  rw [pinnedHeads, (pinnedHeadsOf_spec asked.remembers asked.reach.pinned).1, hpinned]

end Built

section Taint

variable {closure : BuiltClosure} (asked : closure.Asked)

/-- An equation leads to those whose left-hand side mentions a symbol that it pushes. -/
abbrev Leads (closure : BuiltClosure) :
    Fin closure.equations.length → Fin closure.equations.length → Prop :=
  Spread.Leads closure.lhsIndex closure.Pushes

/-- What is tainted is what the seeds reach from equation to equation. -/
theorem mem_taint_iff (seeds : List Nat) (names : List String) (name : String) :
    name ∈ (closure.taint asked.reach seeds names).1 ↔
      name ∈ names ∨ ∃ seed id,
        Spread.Seeded closure.lhsIndex (seeds.filterMap closure.idOf) names seed ∧
          ReflTransGen closure.Leads seed id ∧ closure.Pushes id name :=
  (Spread.run_spec pushes_spec asked.remembers).2.2 name

/-- The reach that a closure leaves behind. -/
def Asked.taint (seeds : List Nat) (names : List String) : closure.Asked :=
  ⟨(closure.taint asked.reach seeds names).2, (Spread.run_spec pushes_spec asked.remembers).1⟩

theorem mem_seeds {seeds : List Nat} {id : Fin closure.equations.length} :
    id ∈ seeds.filterMap closure.idOf ↔ ∃ seed ∈ seeds, closure.idOf seed = some id :=
  List.mem_filterMap

/-- What a closed set holds of the seeds it holds of what they reach. -/
theorem reached_of_closed {equation : Fin closure.equations.length → Prop}
    {symbol : String → Prop} (hclosed : closure.Closed equation symbol)
    {start found : Fin closure.equations.length}
    (hreach : ReflTransGen closure.Leads start found) (hstart : equation start) :
    equation found := by
  induction hreach with
  | refl => exact hstart
  | tail _ hlead ih =>
    obtain ⟨name, hpushes, hentry⟩ := hlead
    refine hclosed.lhs name _ ?_ ((closure.index_iff _ _).mp hentry)
    rcases hpushes with hmentioned | ⟨v, hv, hoccurs⟩
    · exact hclosed.mentioned _ ih name hmentioned
    · exact hclosed.observed _ ih v hv name hoccurs

/-- The equations that the seeds and the symbols reach. -/
def TaintedEquation (closure : BuiltClosure) (seeds : List Nat) (names : List String)
    (id : Fin closure.equations.length) : Prop :=
  ∃ seed, Spread.Seeded closure.lhsIndex (seeds.filterMap closure.idOf) names seed ∧
    ReflTransGen closure.Leads seed id

theorem taint_closed (seeds : List Nat) (names : List String) :
    closure.Closed (closure.TaintedEquation seeds names)
      fun name => name ∈ (closure.taint asked.reach seeds names).1 where
  lhs name id hname hlhs := by
    have hentry := (closure.index_iff name id).mpr hlhs
    rcases (mem_taint_iff asked seeds names name).mp hname with
      hname | ⟨seed, other, hseed, hreach, hpushes⟩
    · exact ⟨id, .inr ⟨name, hname, hentry⟩, .refl⟩
    · exact ⟨seed, hseed, hreach.tail ⟨name, hpushes, hentry⟩⟩
  mentioned id hid name hname := by
    obtain ⟨seed, hseed, hreach⟩ := hid
    exact (mem_taint_iff asked seeds names name).mpr (.inr ⟨seed, id, hseed, hreach, .inl hname⟩)
  observed id hid v hv head hoccurs := by
    obtain ⟨seed, hseed, hreach⟩ := hid
    exact (mem_taint_iff asked seeds names head).mpr
      (.inr ⟨seed, id, hseed, hreach, .inr ⟨v, hv, hoccurs⟩⟩)

/-- A closed set of equations and symbols holds the seeds of a closure. -/
structure Holds (closure : BuiltClosure) (seeds : List Nat) (names : List String)
    (equation : Fin closure.equations.length → Prop) (symbol : String → Prop) : Prop where
  closed : closure.Closed equation symbol
  seeds : ∀ seed ∈ seeds, ∀ id, closure.idOf seed = some id → equation id
  names : ∀ name ∈ names, symbol name

theorem Holds.tainted {seeds : List Nat} {names : List String}
    {equation : Fin closure.equations.length → Prop} {symbol : String → Prop}
    (h : closure.Holds seeds names equation symbol) (name : String)
    (hname : name ∈ (closure.taint asked.reach seeds names).1) : symbol name := by
  rcases (mem_taint_iff asked seeds names name).mp hname with
    hname | ⟨seed, id, hseed, hreach, hpushes⟩
  · exact h.names name hname
  · have hstart : equation seed := by
      rcases hseed with hseed | ⟨other, hother, hentry⟩
      · obtain ⟨address, haddress, hid⟩ := mem_seeds.mp hseed
        exact h.seeds address haddress seed hid
      · exact h.closed.lhs other seed (h.names other hother) ((closure.index_iff _ _).mp hentry)
    have hfound := reached_of_closed h.closed hreach hstart
    rcases hpushes with hmentioned | ⟨v, hv, hoccurs⟩
    · exact h.closed.mentioned id hfound name hmentioned
    · exact h.closed.observed id hfound v hv name hoccurs

/-- The tainted symbols are the least set that holds the seeds and is closed under the rules of
taint, whatever sorts were asked for before. -/
theorem taint_least (seeds : List Nat) (names : List String) :
    (∃ equation, closure.Holds seeds names equation
      fun name => name ∈ (closure.taint asked.reach seeds names).1) ∧
    ∀ equation symbol, closure.Holds seeds names equation symbol →
      ∀ name ∈ (closure.taint asked.reach seeds names).1, symbol name := by
  constructor
  · refine ⟨closure.TaintedEquation seeds names, taint_closed asked seeds names, ?_, ?_⟩
    · intro seed hseed id hid
      exact ⟨id, .inl (mem_seeds.mpr ⟨seed, hseed, hid⟩), .refl⟩
    · intro name hname
      exact (mem_taint_iff asked seeds names name).mpr (.inl hname)
  · exact fun equation symbol h => h.tainted asked

/-- What several seeds taint is what each of them taints alone. -/
theorem taint_union (seeds : List Nat) (names : List String) (name : String) :
    name ∈ (closure.taint asked.reach seeds names).1 ↔
      (∃ seed ∈ seeds, name ∈ (closure.taint asked.reach [seed] []).1) ∨
        ∃ other ∈ names, name ∈ (closure.taint asked.reach [] [other]).1 := by
  simp only [mem_taint_iff, Spread.Seeded, mem_seeds, List.mem_singleton, List.not_mem_nil,
    false_and, exists_false, or_false, false_or, exists_eq_left]
  constructor
  · rintro (hname | ⟨start, id, hstart, hrest⟩)
    · exact .inr ⟨name, hname, .inl rfl⟩
    · rcases hstart with ⟨seed, hseed, hid⟩ | ⟨other, hother, hentry⟩
      · exact .inl ⟨seed, hseed, start, id, hid, hrest⟩
      · exact .inr ⟨other, hother, .inr ⟨start, id, hentry, hrest⟩⟩
  · rintro (⟨seed, hseed, start, id, hid, hrest⟩ | ⟨other, hother, hname⟩)
    · exact .inr ⟨start, id, .inl ⟨seed, hseed, hid⟩, hrest⟩
    · rcases hname with heq | ⟨start, id, hentry, hrest⟩
      · exact .inl (heq ▸ hother)
      · exact .inr ⟨start, id, .inr ⟨other, hother, hentry⟩, hrest⟩

end Taint

end BuiltClosure

namespace Closure

section Relevant

/-- An equation pushes a symbol of the gate. -/
def Hits (closure : Closure) (gate : String → Bool) (id : Fin closure.equations.length) : Prop :=
  ∃ name, closure.Pushes id name ∧ gate name = true

/-- What the first pass has found of the equations it went over. -/
structure Found (closure : Closure) (gate : String → Bool)
    (seen : List (Fin closure.equations.length)) (state : Pushing closure.equations.length) :
    Prop where
  remembers : Remembers closure.reach state.reach
  relevant_iff : ∀ id, id ∈ state.relevant ↔ id ∈ seen ∧ closure.Hits gate id
  pushing_iff : ∀ name id, (name, id) ∈ state.pushing ↔
    id ∈ seen ∧ ¬closure.Hits gate id ∧ closure.Pushes id name

theorem Found.add {closure : Closure} {gate : String → Bool}
    {seen : List (Fin closure.equations.length)} {state : Pushing closure.equations.length}
    (h : Found closure gate seen state) (id : Fin closure.equations.length) :
    Found closure gate (seen ++ [id]) (state.add gate id) := by
  obtain ⟨hreach, hpushes⟩ := pushes_spec id state.reach h.remembers
  have hany : (closure.pushes id state.reach).1.any gate = true ↔ closure.Hits gate id := by
    simp only [List.any_eq_true, hpushes, Hits]
  have hlast : ∀ other, other ∈ seen ++ [id] ↔ other ∈ seen ∨ other = id := by simp
  rw [Pushing.add]
  split
  · next hgate =>
    have hhits := hany.mp hgate
    refine ⟨hreach, fun other => ?_, fun name other => ?_⟩
    · rw [List.mem_append, h.relevant_iff, List.mem_singleton, hlast]
      constructor
      · rintro (⟨hover, hother⟩ | rfl)
        · exact ⟨.inl hover, hother⟩
        · exact ⟨.inr rfl, hhits⟩
      · rintro ⟨hover | rfl, hother⟩
        · exact .inl ⟨hover, hother⟩
        · exact .inr rfl
    · rw [h.pushing_iff, hlast]
      constructor
      · rintro ⟨hover, hrest⟩
        exact ⟨.inl hover, hrest⟩
      · rintro ⟨hover | rfl, hnot, hpushed⟩
        · exact ⟨hover, hnot, hpushed⟩
        · exact absurd hhits hnot
  · next hgate =>
    have hmiss : ¬closure.Hits gate id := fun hhits => hgate (hany.mpr hhits)
    refine ⟨hreach, fun other => ?_, fun name other => ?_⟩
    · rw [h.relevant_iff, hlast]
      constructor
      · rintro ⟨hover, hother⟩
        exact ⟨.inl hover, hother⟩
      · rintro ⟨hover | rfl, hother⟩
        · exact ⟨hover, hother⟩
        · exact absurd hother hmiss
    · rw [List.mem_append, h.pushing_iff, hlast, List.mem_map]
      constructor
      · rintro (⟨hover, hrest⟩ | ⟨pushed, hpushed, heq⟩)
        · exact ⟨.inl hover, hrest⟩
        · obtain ⟨rfl, rfl⟩ := Prod.mk.inj heq
          exact ⟨.inr rfl, hmiss, (hpushes pushed).mp hpushed⟩
      · rintro ⟨hover | rfl, hnot, hpushed⟩
        · exact .inl ⟨hover, hnot, hpushed⟩
        · exact .inr ⟨name, (hpushes name).mpr hpushed, rfl⟩

theorem found_all {closure : Closure} {reach : SortReach} (h : Remembers closure.reach reach)
    (gate : String → Bool) :
    Found closure gate (List.finRange closure.equations.length)
      ((List.finRange closure.equations.length).foldl (Pushing.add gate) ⟨reach, [], []⟩) := by
  have hfold : ∀ (rest seen : List (Fin closure.equations.length))
      (state : Pushing closure.equations.length), Found closure gate seen state →
        Found closure gate (seen ++ rest) (rest.foldl (Pushing.add gate) state) := by
    intro rest
    induction rest with
    | nil =>
      intro seen state hfound
      rw [List.append_nil]
      exact hfound
    | cons id rest ih =>
      intro seen state hfound
      rw [List.foldl_cons, List.append_cons]
      exact ih _ _ (hfound.add id)
  exact hfold _ [] _ ⟨h, by simp, by simp⟩

end Relevant

end Closure

namespace BuiltClosure

section Relevant

variable {closure : BuiltClosure} (asked : closure.Asked) (gate : String → Bool)

/-- The first pass over the equations. -/
def firstPass : Pushing closure.equations.length :=
  (List.finRange closure.equations.length).foldl (Pushing.add gate) ⟨asked.reach, [], []⟩

/-- The backward reading leads from an equation that was not found at first to those whose pushed
symbols its left-hand side mentions. -/
def BackLeads (first : Pushing closure.equations.length) :
    Fin closure.equations.length → Fin closure.equations.length → Prop :=
  Spread.Leads first.pushing fun id name => name ∈ taintableIn (closure.equations.get id).rule.lhs

theorem relevant_backwards (id : Fin closure.equations.length) :
    (closure.relevant asked.reach gate).1 id = true ↔
      ∃ hit ∈ (firstPass asked gate).relevant,
        ReflTransGen (BackLeads (firstPass asked gate)) hit id := by
  have hpushes : ∀ (other : Fin closure.equations.length) (state : Unit), True →
      True ∧ ∀ name, name ∈ (lhsSymbols closure.equations other, state).1 ↔
        name ∈ taintableIn (closure.equations.get other).rule.lhs :=
    fun _ _ _ => ⟨trivial, fun _ => List.mem_dedup⟩
  have hmarked := (@Spread.run_spec _ _ Unit _ _ (firstPass asked gate).pushing
    (fun other _ => (lhsSymbols closure.equations other, ()))
    (fun other name => name ∈ taintableIn (closure.equations.get other).rule.lhs) (fun _ => True)
    (firstPass asked gate).relevant [] hpushes _ () trivial).2.1 id
  refine hmarked.trans (exists_congr fun hit => and_congr_left fun _ => ?_)
  rw [Spread.Seeded]
  simp

theorem found_firstPass : Found closure.toClosure gate (List.finRange closure.equations.length)
    (firstPass asked gate) :=
  found_all asked.remembers gate

/-- The equations that the backward reading marks are those that reach one that hits the gate. -/
theorem relevant_reaches (id : Fin closure.equations.length) :
    (closure.relevant asked.reach gate).1 id = true ↔
      ∃ hit, ReflTransGen closure.Leads id hit ∧ closure.Hits gate hit := by
  have hfound := found_firstPass asked gate
  rw [relevant_backwards]
  constructor
  · rintro ⟨hit, hseed, hreach⟩
    have hhits : closure.Hits gate hit := ((hfound.relevant_iff hit).mp hseed).2
    induction hreach with
    | refl => exact ⟨hit, .refl, hhits⟩
    | tail _ hlead ih =>
      obtain ⟨name, hlhs, hentry⟩ := hlead
      obtain ⟨-, -, hpushes⟩ := (hfound.pushing_iff _ _).mp hentry
      obtain ⟨target, hreach, htarget⟩ := ih
      have hstep : closure.Leads _ _ := ⟨name, hpushes, (closure.index_iff _ _).mpr hlhs⟩
      exact ⟨target, .head hstep hreach, htarget⟩
  · rintro ⟨hit, hreach, hhits⟩
    have hseeded : ∀ other, closure.Hits gate other → other ∈ (firstPass asked gate).relevant :=
      fun other hother => (hfound.relevant_iff other).mpr ⟨List.mem_finRange other, hother⟩
    induction hreach using ReflTransGen.head_induction_on with
    | refl => exact ⟨hit, hseeded hit hhits, .refl⟩
    | @head first next hlead _ ih =>
      -- An equation that hits the gate itself is found by the first pass.
      by_cases hfirst : closure.Hits gate first
      · exact ⟨first, hseeded first hfirst, .refl⟩
      · obtain ⟨name, hpushes, hentry⟩ := hlead
        obtain ⟨seed, hseed, hreach⟩ := ih
        refine ⟨seed, hseed, hreach.tail ⟨name, (closure.index_iff _ _).mp hentry, ?_⟩⟩
        exact (hfound.pushing_iff _ _).mpr ⟨List.mem_finRange first, hfirst, hpushes⟩

/-- An equation is relevant when the closure seeded by it alone holds a symbol of the gate; a rule
that is no equation of the check seeds nothing. -/
theorem relevant_iff_taint (address : Nat) :
    (closure.idOf address).any (closure.relevant asked.reach gate).1 = true ↔
      ∃ name ∈ (closure.taint asked.reach [address] []).1, gate name = true := by
  simp only [mem_taint_iff, Spread.Seeded, mem_seeds, List.mem_singleton, exists_eq_left,
    List.not_mem_nil, false_and, exists_false, or_false, false_or]
  cases hid : closure.idOf address with
  | none => simp
  | some id =>
    simp only [Option.any_some, relevant_reaches, Option.some.injEq]
    constructor
    · rintro ⟨hit, hreach, name, hpushes, hgate⟩
      exact ⟨name, ⟨id, hit, rfl, hreach, hpushes⟩, hgate⟩
    · rintro ⟨name, ⟨seed, hit, rfl, hreach, hpushes⟩, hgate⟩
      exact ⟨hit, hreach, name, hpushes, hgate⟩

end Relevant

end BuiltClosure

end KRust.Backend
