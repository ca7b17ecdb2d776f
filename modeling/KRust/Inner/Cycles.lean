import KRust.Lib.DepthFirst

/-!
The productions that may build a node on a derivation cycle that consumes no input: the sorts that
match the empty string, the edges from the result of a production to an item whose siblings may be
empty, and the strongly connected components of these edges.
-/

namespace KRust.Inner.Cycles

open KRust.Lib

section Grammars

inductive Item where
  | terminal (value : String)
  | regex (rustBody : String)
  | nonTerminal
  deriving DecidableEq

def Item.isNonTerminal : Item → Bool
  | .nonTerminal => true
  | _ => false

structure Production (sorts : Nat) where
  resultId : Fin sorts
  items : List Item
  /-- The sort that the recognizer predicts at each nonterminal item. -/
  itemSortIds : List (Option (Fin sorts))
  label : Option String
  token : Bool
  transparent : Bool
  bracket : Bool
  isRecord : Bool
  aligned : itemSortIds.map Option.isSome = items.map Item.isNonTerminal

/-- `item_sort_ids.iter().flatten()` -/
def Production.sortIds {sorts : Nat} (production : Production sorts) : List (Fin sorts) :=
  production.itemSortIds.reduceOption

structure Grammar where
  sorts : Nat
  size : Nat
  productions : Fin size → Production sorts
  /-- The productions that recognize each sort. -/
  byResult : List (List (Fin size))

def Grammar.active (grammar : Grammar) : List (Fin grammar.size) := grammar.byResult.flatten

end Grammars

section Lexical

/-- The shortest match of a regular expression, where its text is one. -/
abbrev MinimumLen := String → Option (Option Nat)

variable (minimumLen : MinimumLen)

/-- `may_match_empty` -/
def mayMatchEmpty (rustBody : String) : Bool :=
  match minimumLen rustBody with
  | none => true
  | some length => length = some 0

/-- The bodies that were analysed. -/
abbrev Regexes := List (String × Bool)

/-- Whether an item is not a nonterminal and cannot match the empty string. -/
def blocks (regexes : Regexes) : Item → Bool × Regexes
  | .terminal value => (!value.isEmpty, regexes)
  | .regex rustBody =>
    match regexes.lookup rustBody with
    | some mayBeEmpty => (!mayBeEmpty, regexes)
    | none =>
      let mayBeEmpty := mayMatchEmpty minimumLen rustBody
      (!mayBeEmpty, (rustBody, mayBeEmpty) :: regexes)
  | .nonTerminal => (false, regexes)

def countBlocking (regexes : Regexes) : List Item → Nat × Regexes
  | [] => (0, regexes)
  | item :: items =>
    let (blocked, regexes) := blocks minimumLen regexes item
    let (count, regexes) := countBlocking regexes items
    (if blocked then count + 1 else count, regexes)

/-- `lexical_blocking` -/
def lexicalBlocking (grammar : Grammar) : Fin grammar.size → Nat :=
  (grammar.active.foldl (fun (blocking, regexes) index =>
    let (count, regexes) := countBlocking minimumLen regexes (grammar.productions index).items
    (Function.update blocking index count, regexes)) (fun _ => 0, [])).1

end Lexical

section Nullable

/-- The counting worklist: the sorts proved to match the empty string, the occurrences of each
production's nonterminals that are not, the productions with an occurrence of each sort, and the
sorts that have just become nullable, the last one first. -/
structure Nullability (grammar : Grammar) where
  nullable : Fin grammar.sorts → Bool
  remaining : Fin grammar.size → Nat
  callers : Fin grammar.sorts → List (Fin grammar.size)
  pending : List (Fin grammar.sorts)

namespace Nullability

variable {grammar : Grammar}

/-- The result of a production becomes nullable, unless it was. -/
def prove (state : Nullability grammar) (index : Fin grammar.size) : Nullability grammar :=
  let result := (grammar.productions index).resultId
  if state.remaining index = 0 && !state.nullable result then
    { state with
      nullable := Function.update state.nullable result true
      pending := result :: state.pending }
  else state

def count (index : Fin grammar.size) (state : Nullability grammar) (sort : Fin grammar.sorts) :
    Nullability grammar :=
  { state with
    remaining := Function.update state.remaining index (state.remaining index + 1)
    callers := Function.update state.callers sort (state.callers sort ++ [index]) }

def register (blocking : Fin grammar.size → Nat) (state : Nullability grammar)
    (index : Fin grammar.size) : Nullability grammar :=
  if blocking index ≠ 0 then state
  else ((grammar.productions index).sortIds.foldl (count index) state).prove index

def initial (blocking : Fin grammar.size → Nat) : Nullability grammar :=
  grammar.active.foldl (register blocking) ⟨fun _ => false, fun _ => 0, fun _ => [], []⟩

/-- One occurrence fewer of a caller is left. -/
def discharge (state : Nullability grammar) (caller : Fin grammar.size) : Nullability grammar :=
  { state with
    remaining := Function.update state.remaining caller (state.remaining caller - 1) }.prove caller

def turn (state : Nullability grammar) :
    (Fin grammar.sorts → Bool) ⊕ Nullability grammar :=
  match state.pending with
  | [] => .inl state.nullable
  | sort :: pending => .inr ((state.callers sort).foldl discharge { state with pending := pending })

/-- Two for each sort that is not nullable yet, and one for each that is queued. -/
def weight (state : Nullability grammar) : Nat :=
  unmarkedWeight (fun _ => 2) state.nullable + state.pending.length

theorem weight_prove (state : Nullability grammar) (index : Fin grammar.size) :
    (state.prove index).weight ≤ state.weight := by
  simp only [prove]
  split
  · rename_i hproved
    have hfresh : state.nullable (grammar.productions index).resultId = false := by
      simpa using (Bool.and_eq_true_iff.mp hproved).2
    have hmark := unmarkedWeight_mark (fun _ => 2) state.nullable hfresh
    simp only [weight, List.length_cons]
    omega
  · exact le_rfl

theorem weight_foldl_discharge (callers : List (Fin grammar.size)) (state : Nullability grammar) :
    (callers.foldl discharge state).weight ≤ state.weight := by
  induction callers generalizing state with
  | nil => exact le_rfl
  | cons caller callers ih => exact (ih _).trans (weight_prove _ caller)

theorem weight_turn {state state' : Nullability grammar} (h : state.turn = .inr state') :
    state'.weight < state.weight := by
  unfold turn at h
  split at h
  · cases h
  · rename_i sort pending hpending
    cases h
    refine (weight_foldl_discharge _ _).trans_lt ?_
    simp only [weight, hpending, List.length_cons]
    omega

def loop (grammar : Grammar) : Loop (Nullability grammar) (Fin grammar.sorts → Bool) where
  turn := turn
  ends := ⟨weight, fun _ _ => weight_turn⟩

end Nullability

/-- The sorts that may match the empty string. -/
def nullable (minimumLen : MinimumLen) (grammar : Grammar) : Fin grammar.sorts → Bool :=
  (Nullability.loop grammar).run (Nullability.initial (lexicalBlocking minimumLen grammar))

end Nullable

section Components

variable {n : Nat}

/-- The components assigned so far, and the vertices whose predecessors are still to be. -/
structure Assigning (n : Nat) where
  component : Fin n → Option Nat
  stack : List (Fin n)

namespace Assigning

/-- A vertex without a component is assigned to one. -/
def assign (id : Nat) (state : Assigning n) (vertex : Fin n) : Assigning n :=
  if state.component vertex = none then
    ⟨Function.update state.component vertex (some id), vertex :: state.stack⟩
  else state

def turn (predecessors : Fin n → List (Fin n)) (id : Nat) (state : Assigning n) :
    (Fin n → Option Nat) ⊕ Assigning n :=
  match state.stack with
  | [] => .inl state.component
  | vertex :: stack => .inr ((predecessors vertex).foldl (assign id) { state with stack := stack })

def weight (state : Assigning n) : Nat :=
  unmarkedWeight (fun _ => 2) (fun vertex => (state.component vertex).isSome) +
    state.stack.length

theorem isSome_update (component : Fin n → Option Nat) (vertex : Fin n) (id : Nat) :
    (fun v => (Function.update component vertex (some id) v).isSome) =
      Function.update (fun v => (component v).isSome) vertex true := by
  funext v
  by_cases hv : v = vertex
  · simp [hv]
  · simp [hv]

theorem weight_foldl_assign (id : Nat) (vertices : List (Fin n)) (state : Assigning n) :
    (vertices.foldl (assign id) state).weight ≤ state.weight := by
  induction vertices generalizing state with
  | nil => exact le_rfl
  | cons vertex vertices ih =>
    refine (ih _).trans ?_
    unfold assign
    split
    · rename_i hnone
      have hmark := unmarkedWeight_mark (fun _ => 2) (fun v => (state.component v).isSome)
        (a := vertex) (by simp [hnone])
      simp only [weight, isSome_update, List.length_cons]
      omega
    · exact le_rfl

theorem weight_turn {predecessors : Fin n → List (Fin n)} {id : Nat} {state state' : Assigning n}
    (h : state.turn predecessors id = .inr state') : state'.weight < state.weight := by
  unfold turn at h
  split at h
  · cases h
  · rename_i vertex stack hstack
    cases h
    refine (weight_foldl_assign _ _ _).trans_lt ?_
    simp only [weight, hstack, List.length_cons]
    omega

def loop (predecessors : Fin n → List (Fin n)) (id : Nat) :
    Loop (Assigning n) (Fin n → Option Nat) where
  turn := turn predecessors id
  ends := ⟨weight, fun _ _ => weight_turn⟩

end Assigning

/-- The components of the roots in turn, numbered by their places. -/
def assignFrom (predecessors : Fin n → List (Fin n)) (id : Nat) (component : Fin n → Option Nat) :
    List (Fin n) → Fin n → Option Nat
  | [] => component
  | root :: roots =>
    assignFrom predecessors (id + 1)
      (if component root ≠ none then component
        else
          (Assigning.loop predecessors id).run
            ⟨Function.update component root (some id), [root]⟩)
      roots

variable {ι : Type}

def successors (edges : List (ι × Fin n × Fin n)) (vertex : Fin n) : List (Fin n) :=
  edges.filterMap fun (_, source, target) => if source = vertex then some target else none

def predecessors (edges : List (ι × Fin n × Fin n)) (vertex : Fin n) : List (Fin n) :=
  edges.filterMap fun (_, source, target) => if target = vertex then some source else none

/-- `strongly_connected_components`; a vertex that was not assigned has no component. -/
def stronglyConnectedComponents (edges : List (ι × Fin n × Fin n)) : Fin n → Option Nat :=
  assignFrom (predecessors edges) 0 (fun _ => none)
    (Walk.explore (successors edges) (List.finRange n)).finished

end Components

section Flags

variable (minimumLen : MinimumLen) (grammar : Grammar)

/-- The edge from the result of a production to each nonterminal item whose siblings may be
empty. -/
def edgesOf (nullable : Fin grammar.sorts → Bool) (blocking : Fin grammar.size → Nat)
    (index : Fin grammar.size) : List (Fin grammar.size × Fin grammar.sorts × Fin grammar.sorts) :=
  let production := grammar.productions index
  let blocked := blocking index + (production.sortIds.filter fun sort => !nullable sort).length
  (production.sortIds.filter fun sort => blocked - (!nullable sort).toNat = 0).map fun sort =>
    (index, production.resultId, sort)

def edges : List (Fin grammar.size × Fin grammar.sorts × Fin grammar.sorts) :=
  grammar.active.flatMap
    (edgesOf grammar (nullable minimumLen grammar) (lexicalBlocking minimumLen grammar))

/-- Whether a production returns its only child itself. -/
def returnsChild {sorts : Nat} (production : Production sorts) : Bool :=
  !production.isRecord && !production.bracket &&
    (production.transparent || production.label.isNone) && production.sortIds.length = 1

/-- `SameSpanCycles::new` -/
def flagged : Fin grammar.size → Bool :=
  let component := stronglyConnectedComponents (edges minimumLen grammar)
  (edges minimumLen grammar).foldl (fun flagged (index, result, child) =>
    if component result = component child && !(grammar.productions index).token &&
        !returnsChild (grammar.productions index) then Function.update flagged index true
    else flagged) fun _ => false

end Flags

end KRust.Inner.Cycles
