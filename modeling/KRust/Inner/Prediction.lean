import KRust.Lib.Counting
import KRust.Lib.Propagation
import Mathlib.Data.Finset.Sort

/-!
The sorts that derive the empty sequence of items, the lexemes that a phrase of each sort can begin
with, and the productions that the predictor adds for the lexeme the scanner reads next.
-/

namespace KRust.Inner.Prediction

open KRust.Lib

/-- A set of scanner lexeme ids, one bit for each id. -/
structure LexemeSet where
  words : List (BitVec 64)

namespace LexemeSet

def empty : LexemeSet := ⟨[]⟩

def insert (set : LexemeSet) (id : Nat) : LexemeSet :=
  ⟨(set.words.rightpad (id / 64 + 1) 0).modify (id / 64) (· ||| 1#64 <<< (id % 64))⟩

def contains (set : LexemeSet) (id : Nat) : Bool :=
  match set.words[id / 64]? with
  | some word => word &&& 1#64 <<< (id % 64) ≠ 0
  | none => false

def unionWords : List (BitVec 64) → List (BitVec 64) → Bool × List (BitVec 64)
  | word :: words, added :: others =>
    let (grew, words) := unionWords words others
    (added &&& ~~~word ≠ 0 || grew, (word ||| added) :: words)
  | words, _ => (false, words)

/-- Whether the set grew, and the set with every id of the other. -/
def unionWith (set other : LexemeSet) : Bool × LexemeSet :=
  let (grew, words) := unionWords (set.words.rightpad other.words.length 0) other.words
  (grew, ⟨words⟩)

def isEmpty (set : LexemeSet) : Bool := set.words.all (· = 0)

theorem contains_eq (set : LexemeSet) (id : Nat) :
    set.contains id = (set.words[id / 64]?.getD 0).getLsbD (id % 64) := by
  have hbit : id % 64 < 64 := Nat.mod_lt _ (by decide)
  unfold contains
  cases set.words[id / 64]? with
  | none => simp
  | some word =>
    simp only [← BitVec.twoPow_eq, BitVec.and_twoPow, Option.getD_some]
    have htwo : BitVec.twoPow 64 (id % 64) ≠ 0 := by
      intro hzero
      have hself := congrArg (BitVec.getLsbD · (id % 64)) hzero
      simp [hbit] at hself
    cases word.getLsbD (id % 64) <;> simp_all

theorem getD_rightpad (words : List (BitVec 64)) (n index : Nat) :
    (words.rightpad n 0)[index]?.getD 0 = words[index]?.getD 0 := by
  rw [List.rightpad, List.getElem?_append]
  split
  · rfl
  · rename_i hlarge
    rw [List.getElem?_eq_none (Nat.le_of_not_lt hlarge), List.getElem?_replicate]
    split <;> rfl

theorem contains_insert (set : LexemeSet) (id other : Nat) :
    (set.insert id).contains other = (decide (other = id) || set.contains other) := by
  have hbit : other % 64 < 64 := Nat.mod_lt _ (by decide)
  have hword : id / 64 < (set.words.rightpad (id / 64 + 1) 0).length := by
    rw [List.length_rightpad]
    omega
  rw [contains_eq, contains_eq, ← getD_rightpad set.words (id / 64 + 1)]
  simp only [insert, List.getElem?_modify]
  by_cases hsame : other / 64 = id / 64
  · rw [hsame, List.getElem?_eq_getElem hword]
    have hdecide : decide (other = id) = decide (id % 64 = other % 64) := by
      have := Nat.div_add_mod other 64
      have := Nat.div_add_mod id 64
      exact decide_eq_decide.mpr (by omega)
    simp only [if_true, Option.map_eq_map, Option.map_some, Option.getD_some,
      ← BitVec.twoPow_eq, BitVec.getLsbD_or, BitVec.getLsbD_twoPow, hdecide]
    simp [Nat.mod_lt, Bool.or_comm]
  · have hne : other ≠ id := fun heq => hsame (by rw [heq])
    simp [hne, Ne.symm hsame]

theorem unionWords_spec {words others : List (BitVec 64)} (h : others.length ≤ words.length) :
    (∀ index : Nat, (unionWords words others).2[index]?.getD 0 =
        (words[index]?.getD 0) ||| (others[index]?.getD 0)) ∧
      ((unionWords words others).1 = true ↔
        ∃ index : Nat, (others[index]?.getD 0) &&& ~~~(words[index]?.getD 0) ≠ 0) := by
  induction words generalizing others with
  | nil =>
    obtain rfl := List.length_eq_zero_iff.mp (Nat.le_zero.mp h)
    simp [unionWords]
  | cons word words ih =>
    cases others with
    | nil => simp [unionWords]
    | cons added others =>
      obtain ⟨hwords, hgrew⟩ := ih (Nat.le_of_succ_le_succ h)
      constructor
      · intro index
        cases index with
        | zero => simp [unionWords]
        | succ index => simpa [unionWords] using hwords index
      · simp only [unionWords, Bool.or_eq_true, decide_eq_true_eq, hgrew]
        constructor
        · rintro (hfirst | ⟨index, hlater⟩)
          · exact ⟨0, by simpa using hfirst⟩
          · exact ⟨index + 1, by simpa using hlater⟩
        · rintro ⟨_ | index, hgrew⟩
          · exact .inl (by simpa using hgrew)
          · exact .inr ⟨index, by simpa using hgrew⟩

theorem unionWith_spec (set other : LexemeSet) :
    (∀ index : Nat, (set.unionWith other).2.words[index]?.getD 0 =
        (set.words[index]?.getD 0) ||| (other.words[index]?.getD 0)) ∧
      ((set.unionWith other).1 = true ↔
        ∃ index : Nat, (other.words[index]?.getD 0) &&& ~~~(set.words[index]?.getD 0) ≠ 0) := by
  have hlength : other.words.length ≤ (set.words.rightpad other.words.length 0).length := by
    rw [List.length_rightpad]
    exact le_max_left _ _
  have hspec := unionWords_spec hlength
  simp only [getD_rightpad] at hspec
  exact hspec

theorem contains_unionWith (set other : LexemeSet) (id : Nat) :
    (set.unionWith other).2.contains id = (set.contains id || other.contains id) := by
  simp only [contains_eq, (unionWith_spec set other).1, BitVec.getLsbD_or]

theorem unionWith_grew_iff (set other : LexemeSet) : (set.unionWith other).1 = true ↔
    ∃ id, other.contains id = true ∧ set.contains id = false := by
  rw [(unionWith_spec set other).2]
  constructor
  · rintro ⟨index, hgrew⟩
    by_contra hnone
    refine hgrew (BitVec.eq_of_getLsbD_eq fun bit hbit => ?_)
    by_contra hset
    have hdiv : (64 * index + bit) / 64 = index := by omega
    have hmod : (64 * index + bit) % 64 = bit := by omega
    refine hnone ⟨64 * index + bit, ?_⟩
    rw [contains_eq, contains_eq, hdiv, hmod]
    simpa [hbit] using hset
  · rintro ⟨id, hother, hset⟩
    have hbit : id % 64 < 64 := Nat.mod_lt _ (by decide)
    rw [contains_eq] at hother hset
    refine ⟨id / 64, fun hzero => ?_⟩
    have hself := congrArg (BitVec.getLsbD · (id % 64)) hzero
    simp only [BitVec.getLsbD_and, BitVec.getLsbD_not, hother, hset, hbit] at hself
    simp at hself

def elements (set : LexemeSet) : Finset Nat :=
  (Finset.range (64 * set.words.length)).filter fun id => set.contains id

theorem mem_elements {set : LexemeSet} {id : Nat} :
    id ∈ set.elements ↔ set.contains id = true := by
  rw [elements, Finset.mem_filter, Finset.mem_range, and_iff_right_iff_imp]
  intro hid
  rw [contains_eq] at hid
  by_contra hlarge
  rw [List.getElem?_eq_none (by omega)] at hid
  simp at hid

/-- Sets of lexemes are united in place. -/
def uniting : Uniting LexemeSet Nat where
  unionWith := unionWith
  elements := elements
  elements_union set other := by
    ext id
    rw [Finset.mem_union, mem_elements, mem_elements, mem_elements, contains_unionWith,
      Bool.or_eq_true]
  grew_iff set other := by
    rw [unionWith_grew_iff, Finset.not_subset]
    simp only [mem_elements, Bool.not_eq_true]

end LexemeSet
section Grammars

inductive Item where
  | nonTerminal
  | terminal (value : String)
  | regex (canonical : String)
  deriving DecidableEq

def Item.isNonTerminal : Item → Bool
  | .nonTerminal => true
  | _ => false

inductive LexemeKey where
  | terminal (value : String)
  | regex (canonical : String)
  deriving DecidableEq

def lexemeKey : Item → Option LexemeKey
  | .nonTerminal => none
  | .terminal value => some (.terminal value)
  | .regex canonical => some (.regex canonical)

structure Production (sorts : Nat) where
  resultId : Fin sorts
  items : List Item
  /-- The sort that the recognizer predicts at each nonterminal item. -/
  itemSortIds : List (Option (Fin sorts))
  aligned : itemSortIds.map Option.isSome = items.map Item.isNonTerminal

structure Grammar where
  sorts : Nat
  size : Nat
  productions : Fin size → Production sorts
  /-- The productions that recognize each sort, in the order of their declarations. -/
  byResult : Fin sorts → List (Fin size)
  /-- The ids of the lexemes that the scanner knows. -/
  ids : LexemeKey → Option Nat
  result_eq : ∀ sort, ∀ index ∈ byResult sort, (productions index).resultId = sort
  ascending : ∀ sort, (byResult sort).Pairwise (· < ·)

inductive Symbol (sorts : Nat) where
  | nonTerminal (sort : Fin sorts)
  | lexical (lexeme : Option Nat)
  deriving DecidableEq

namespace Symbol

variable {sorts : Nat}

def isLexical : Symbol sorts → Bool
  | .lexical _ => true
  | .nonTerminal _ => false

def child : Symbol sorts → Option (Fin sorts)
  | .nonTerminal sort => some sort
  | .lexical _ => none

end Symbol

namespace Grammar

variable (grammar : Grammar)

def active : List (Fin grammar.size) := (List.finRange grammar.sorts).flatMap grammar.byResult

def lexemeId (item : Item) : Option Nat := (lexemeKey item).bind grammar.ids

/-- A nonterminal item has a sort id. -/
def symbol : Item × Option (Fin grammar.sorts) → Option (Symbol grammar.sorts)
  | (.nonTerminal, sortId) => sortId.map .nonTerminal
  | (item, _) => some (.lexical (grammar.lexemeId item))

def symbols (index : Fin grammar.size) : List (Symbol grammar.sorts) :=
  let production := grammar.productions index
  (production.items.zip production.itemSortIds).filterMap grammar.symbol

/-- The result and the items of each active production. -/
def entries : List (Fin grammar.sorts × List (Symbol grammar.sorts)) :=
  grammar.active.map fun index => ((grammar.productions index).resultId, grammar.symbols index)

/-- A table with an entry for each active production. -/
def record {α : Type} (value : Fin grammar.size → Option α) : Fin grammar.size → Option α :=
  grammar.active.foldl (fun table index => Function.update table index (value index))
    fun _ => none

end Grammar

end Grammars

section Epsilon

variable {sorts : Nat} (entries : List (Fin sorts × List (Symbol sorts)))

/-- The counting worklist, and the productions with an occurrence of each sort. -/
structure Registered where
  counting : Counting (Fin entries.length) (Fin sorts)
  callers : Fin sorts → List (Fin entries.length)

/-- A production of nonterminals only is a caller once for each of its items. -/
def register (state : Registered entries) (index : Fin entries.length) : Registered entries :=
  let (result, items) := entries.get index
  if items.any Symbol.isLexical then state
  else
    let counting := state.counting
    let remaining := Function.update counting.remaining index (some items.length)
    let callers := (items.filterMap Symbol.child).foldl
      (fun callers child => Function.update callers child (callers child ++ [index])) state.callers
    if items.isEmpty && !counting.proved result then
      ⟨⟨Function.update counting.proved result true, remaining, counting.pending ++ [result]⟩,
        callers⟩
    else ⟨{ counting with remaining := remaining }, callers⟩

def registered : Registered entries :=
  (List.finRange entries.length).foldl (register entries)
    ⟨⟨fun _ => false, fun _ => none, []⟩, fun _ => []⟩

/-- The nullable sorts. -/
def epsilonOf : Fin sorts → Bool :=
  (Counting.loop (fun index => (entries.get index).1) (registered entries).callers).run
    (registered entries).counting

end Epsilon

section First

variable {sorts : Nat} (epsilon : Fin sorts → Bool)

/-- The lexemes found so far, and the sorts that begin with a phrase of each sort. -/
structure Leads (sorts : Nat) where
  first : Fin sorts → LexemeSet
  dependents : Fin sorts → Finset (Fin sorts)

/-- The items up to the first one that is not nullable. -/
def lead (result : Fin sorts) (leads : Leads sorts) : List (Symbol sorts) → Leads sorts
  | [] => leads
  | .nonTerminal child :: items =>
    let leads := { leads with
      dependents :=
        Function.update leads.dependents child (insert result (leads.dependents child)) }
    if epsilon child then lead result leads items else leads
  | .lexical (some lexeme) :: _ =>
    { leads with
      first := Function.update leads.first result ((leads.first result).insert lexeme) }
  | .lexical none :: _ => leads

def leadsOf (entries : List (Fin sorts × List (Symbol sorts))) : Leads sorts :=
  entries.foldl (fun leads (result, items) => lead epsilon result leads items)
    ⟨fun _ => .empty, fun _ => ∅⟩

/-- The lexemes that a phrase of each sort can begin with. -/
def firstOf (entries : List (Fin sorts × List (Symbol sorts))) : Fin sorts → LexemeSet :=
  let leads := leadsOf epsilon entries
  let queued := fun sort => !(leads.first sort).isEmpty
  (Propagating.loop LexemeSet.uniting fun sort => (leads.dependents sort).sort (· ≤ ·)).run
    ⟨leads.first, queued, (List.finRange sorts).filter queued⟩

/-- What the items of one production from each dot on can begin with, and whether they can all be
empty. -/
structure ProductionRests where
  first : List LexemeSet
  nullable : List Bool

variable (first : Fin sorts → LexemeSet)

def prepend (item : Symbol sorts) (rest : LexemeSet × Bool) : LexemeSet × Bool :=
  match item with
  | .nonTerminal child =>
    if epsilon child then (((first child).unionWith rest.1).2, rest.2) else (first child, false)
  | .lexical (some lexeme) => (LexemeSet.empty.insert lexeme, false)
  | .lexical none => (.empty, false)

/-- The table of the suffixes, from the end of the items backward. -/
def restsOf (items : List (Symbol sorts)) : ProductionRests :=
  let rests := items.scanr (prepend epsilon first) (.empty, true)
  ⟨rests.map Prod.fst, rests.map Prod.snd⟩

end First

section Buckets

variable {size sorts : Nat}

structure PredictionBucket (size : Nat) where
  nonlexicalFirst : List (Fin size)
  lexicalByLexeme : Nat → List (Fin size)
  lexicalTotal : Nat

def PredictionBucket.add (firstItems : Fin size → Option (Symbol sorts))
    (bucket : PredictionBucket size) (index : Fin size) : PredictionBucket size :=
  match firstItems index with
  | some (.lexical (some lexeme)) =>
    { bucket with
      lexicalTotal := bucket.lexicalTotal + 1
      lexicalByLexeme :=
        Function.update bucket.lexicalByLexeme lexeme (bucket.lexicalByLexeme lexeme ++ [index]) }
  | some (.lexical none) => { bucket with lexicalTotal := bucket.lexicalTotal + 1 }
  | some (.nonTerminal _) | none =>
    { bucket with nonlexicalFirst := bucket.nonlexicalFirst ++ [index] }

def bucketOf (firstItems : Fin size → Option (Symbol sorts)) (indexes : List (Fin size)) :
    PredictionBucket size :=
  indexes.foldl (PredictionBucket.add firstItems) ⟨[], fun _ => [], 0⟩

/-- Two lists of productions in the order of their declarations. -/
structure PredictionCandidates (size : Nat) where
  nonlexical : List (Fin size)
  lexical : List (Fin size)

namespace PredictionCandidates

/-- The earlier one of the two productions in front. -/
def next (candidates : PredictionCandidates size) : Option (Fin size × PredictionCandidates size) :=
  match candidates with
  | ⟨left :: nonlexical, right :: lexical⟩ =>
    if left < right then some (left, ⟨nonlexical, right :: lexical⟩)
    else some (right, ⟨left :: nonlexical, lexical⟩)
  | ⟨left :: nonlexical, []⟩ => some (left, ⟨nonlexical, []⟩)
  | ⟨[], right :: lexical⟩ => some (right, ⟨[], lexical⟩)
  | ⟨[], []⟩ => none

def remaining (candidates : PredictionCandidates size) : Nat :=
  candidates.nonlexical.length + candidates.lexical.length

theorem remaining_next {candidates rest : PredictionCandidates size} {index : Fin size}
    (h : candidates.next = some (index, rest)) : rest.remaining < candidates.remaining := by
  unfold next at h
  split at h
  · split at h <;> cases h <;> simp [remaining]
  · cases h
    simp [remaining]
  · cases h
    simp [remaining]
  · cases h

def toList (candidates : PredictionCandidates size) : List (Fin size) :=
  match _h : candidates.next with
  | some (index, rest) => index :: rest.toList
  | none => []
termination_by candidates.remaining
decreasing_by exact remaining_next _h

end PredictionCandidates

end Buckets

structure PredictionAnalysis (grammar : Grammar) where
  firstItems : Fin grammar.size → Option (Symbol grammar.sorts)
  epsilon : Fin grammar.sorts → Bool
  first : Fin grammar.sorts → LexemeSet
  buckets : Fin grammar.sorts → PredictionBucket grammar.size
  /-- No entry for a production that the predictor never adds. -/
  rests : Fin grammar.size → Option ProductionRests

namespace PredictionAnalysis

def new (grammar : Grammar) : PredictionAnalysis grammar :=
  let firstItems := grammar.record fun index => (grammar.symbols index).head?
  let epsilon := epsilonOf grammar.entries
  let first := firstOf epsilon grammar.entries
  { firstItems := firstItems
    epsilon := epsilon
    first := first
    buckets := fun sort => bucketOf firstItems (grammar.byResult sort)
    rests := grammar.record fun index => some (restsOf epsilon first (grammar.symbols index)) }

variable {grammar : Grammar} (analysis : PredictionAnalysis grammar)

/-- The candidates of a sort, and how many of its productions they leave out. -/
def candidates (sort : Fin grammar.sorts) (winner : Option Nat) :
    PredictionCandidates grammar.size × Nat :=
  let bucket := analysis.buckets sort
  let lexical := (winner.map bucket.lexicalByLexeme).getD []
  (⟨bucket.nonlexicalFirst, lexical⟩, bucket.lexicalTotal - lexical.length)

def canFilter (production : Fin grammar.size) : Bool :=
  match analysis.firstItems production with
  | some (.lexical _) => true
  | some (.nonTerminal child) => !analysis.epsilon child
  | none => false

def cannotStart (production : Fin grammar.size) (winner : Option Nat) : Bool :=
  match analysis.firstItems production with
  | some (.lexical target) => target.isNone || target ≠ winner
  | some (.nonTerminal child) =>
    winner.all fun winner => !(analysis.first child).contains winner
  | none => false

/-- The productions that the predictor adds for a sort. -/
def predicted (sort : Fin grammar.sorts) (winner : Option Nat) : List (Fin grammar.size) :=
  (analysis.candidates sort winner).1.toList.filter fun production =>
    !(analysis.canFilter production && analysis.cannotStart production winner)

end PredictionAnalysis

end KRust.Inner.Prediction
