import KRust.Term.Chunks.Counts
import KRust.Term.Chunks.Root
import KRust.Backend.Skeleton
import Mathlib.Data.Multiset.AddSub
import Mathlib.Data.Fintype.Basic

/-!
The attributes that a term stores, and what a collection's tree of items summarizes of those of
its items.
-/

namespace KRust.Backend

open KRust.Kore Lib KRust.Lib.Partial
open KRust.Term.Chunks (Item Summary LawfulSummary LawfulGroup Failing Count Saturating Any
  Uniform Chunked Branching NodeSummary Summarizes SequenceHash extraValue extraValue_cons
  groupValue groupValue_cons usizeMax)

section Attributes

/-- `TermAttributes`, without the attributes that only rewriting reads. -/
structure TermAttributes where
  /-- `variables` -/
  vars : Finset TermVariable
  evaluated : Bool
  valueClaimed : Bool
  constructorLike : Bool
  concreteAfterNormalization : Bool
  canBeEvaluated : Bool
  ceilFree : Bool
  hasMacroOrAlias : Bool
  kCells : Nat
  mayBeRigid : Bool
  /-- The first conjunct of a conjunction. -/
  firstConjunct : Option Term

/-- `TermAttributes::default` -/
def TermAttributes.default : TermAttributes where
  vars := ∅
  evaluated := true
  valueClaimed := true
  constructorLike := false
  concreteAfterNormalization := false
  canBeEvaluated := true
  ceilFree := false
  hasMacroOrAlias := false
  kCells := 0
  mayBeRigid := false
  firstConjunct := none

/-- A node of a term with the attributes it stores. -/
structure StoredTerm where
  term : Term
  attributes : TermAttributes

/-- `Term::first_conjunct` -/
def StoredTerm.firstConjunct (t : StoredTerm) : Term := t.attributes.firstConjunct.getD t.term

/-- `has_key_header` -/
def hasKeyHeader (key : StoredTerm) : Bool :=
  key.attributes.mayBeRigid && key.term.keyHeaderWalk []

end Attributes

section Flags

/-- A flag that holds of a collection only if it holds of each of its items. -/
inductive Flag where
  | evaluated
  | valueClaimed
  | constructorLike
  | concreteAfterNormalization
  | canBeEvaluated
  | ceilFree
  deriving DecidableEq

instance : Fintype Flag where
  elems := {.evaluated, .valueClaimed, .constructorLike, .concreteAfterNormalization,
    .canBeEvaluated, .ceilFree}
  complete flag := by cases flag <;> simp

/-- `Flag::holds_of` -/
def Flag.holdsOf (t : StoredTerm) : Flag → Bool
  | .evaluated => t.attributes.evaluated
  | .valueClaimed => t.attributes.valueClaimed
  | .constructorLike => t.attributes.constructorLike
  | .concreteAfterNormalization => t.attributes.concreteAfterNormalization
  | .canBeEvaluated => t.attributes.canBeEvaluated
  | .ceilFree => t.attributes.ceilFree

/-- The header of a key: the key itself, compared by its skeleton. -/
structure Header where
  key : Term
  headed : key.headed = true

/-- `Header::of` -/
def Header.of (key : StoredTerm) : Option Header :=
  if h : hasKeyHeader key = true then
    some ⟨key.term, by
      rw [hasKeyHeader, Bool.and_eq_true, Term.keyHeaderWalk_eq, List.all_nil, Bool.and_true] at h
      exact h.2⟩
  else none

/-- The equality of headers. -/
def Header.same : Option Header → Option Header → Bool
  | some left, some right => Term.sameApartSkeleton left.key right.key
  | none, none => true
  | _, _ => false

def Header.skeleton (header : Option Header) : Option Term := header.map fun h => h.key.skeleton

theorem Header.same_iff (left right : Option Header) :
    Header.same left right = true ↔ Header.skeleton left = Header.skeleton right := by
  cases left with
  | none => cases right <;> simp [Header.same, Header.skeleton]
  | some left =>
    cases right with
    | none => simp [Header.same, Header.skeleton]
    | some right =>
      rw [Header.same, Term.sameApartSkeleton_iff _ (Term.bare_of_headed left.headed)]
      simp [Header.skeleton]

end Flags

section Summaries

/-- What a collection's attributes need of its items. -/
structure ItemSummary where
  failing : Failing Flag
  header : Uniform (Option Header)
  macroOrAlias : Any
  kCells : Saturating 2
  symbolicKeys : Count

namespace ItemSummary

/-- `ItemSummary::of` -/
def of (key : StoredTerm) (terms : List StoredTerm) : ItemSummary where
  failing := .of fun flag => terms.all fun term => flag.holdsOf term
  header := .one (Header.of key)
  macroOrAlias := ⟨terms.any fun term => term.attributes.hasMacroOrAlias⟩
  kCells := .of (terms.map fun term => term.attributes.kCells).sum
  symbolicKeys := .of (!key.attributes.constructorLike)

def holds (summary : ItemSummary) (flag : Flag) : Bool := summary.failing.holds flag

/-- `keys_share_one_header` -/
def keysShareOneHeader (summary : ItemSummary) : Bool :=
  match summary.header with
  | .empty => true
  | .one header => header.isSome
  | .mixed => false

instance : Summary ItemSummary where
  identity := ⟨Summary.identity, .empty, 0, 0, Summary.identity⟩
  combine left right := do
    let failing ← Summary.combine left.failing right.failing
    let symbolicKeys ← Summary.combine left.symbolicKeys right.symbolicKeys
    return {
      failing
      header := left.header.combine Header.same right.header
      macroOrAlias := left.macroOrAlias + right.macroOrAlias
      kCells := left.kCells + right.kCells
      symbolicKeys }
  constant := false

/-- What a summary says: the counts, the skeleton that all keys share, whether there is a macro
and the number of `<k>` cells. -/
abbrev Value : Type :=
  (Flag → Nat) × Uniform (Option Term) × Any × Saturating 2 × Nat

def value (summary : ItemSummary) : Value :=
  (summary.failing.failing, summary.header.map Header.skeleton, summary.macroOrAlias,
    summary.kCells, summary.symbolicKeys.count)

instance : LawfulSummary ItemSummary Value where
  value := value
  Representable v := (∀ flag, v.1 flag ≤ usizeMax) ∧ v.2.2.2.2 ≤ usizeMax
  representable_value summary := ⟨summary.failing.le, summary.symbolicKeys.le⟩
  representable_drop x y z h := by
    constructor
    · intro flag
      have hflag := h.1 flag
      simp only [Prod.fst_add, Pi.add_apply] at hflag ⊢
      omega
    · have hkeys := h.2
      simp only [Prod.snd_add] at hkeys ⊢
      omega
  value_identity := rfl
  combine_yields left right := by
    have hfailing := LawfulSummary.combine_yields left.failing right.failing
    have hkeys := LawfulSummary.combine_yields left.symbolicKeys right.symbolicKeys
    refine (hfailing.mono And.left fun _ h => h).bind fun failing hf => ?_
    refine (hkeys.mono And.right fun _ h => h).bind fun symbolicKeys hk => ?_
    have hheader := Uniform.map_combine Header.same_iff left.header right.header
    simp only [value, Prod.mk_add_mk, pure, yields_some, Prod.mk.injEq]
    exact ⟨hf, hheader, trivial, trivial, hk⟩
  value_constant h := absurd h (by simp [Summary.constant])

end ItemSummary

/-! The multisets of variables are those of `multiset.rs`, as what they hold. -/

instance : Summary (Multiset TermVariable) where
  identity := 0
  combine left right := some (left + right)
  constant := false

instance : KRust.Term.Chunks.Group (Multiset TermVariable) where
  subtract whole part := some (whole - part)
  weight multiset := multiset.toFinset.card

instance : LawfulSummary (Multiset TermVariable) (Multiset TermVariable) where
  value := id
  Representable _ := True
  representable_value _ := trivial
  representable_drop _ _ _ _ := trivial
  value_identity := rfl
  combine_yields _ _ := rfl
  value_constant h := absurd h (by simp [Summary.constant])

instance : LawfulGroup (Multiset TermVariable) (Multiset TermVariable) where
  subtract_yields whole part rest h := by
    simp only [KRust.Term.Chunks.Group.subtract, yields_some]
    exact (congrArg (· - part) h).trans (add_tsub_cancel_left part rest)

end Summaries

section Items

/-- The hash that a term stores, and the hash of an entry's two. -/
class TermHash where
  hash : Term → UInt64
  ofPair : UInt64 → UInt64 → UInt64

/-- The variables of the terms. -/
def unite (terms : List StoredTerm) : Finset TermVariable :=
  terms.foldr (fun (t : StoredTerm) vars => t.attributes.vars ∪ vars) ∅

/-- `mentioned`: the variables of the terms, each once. -/
def mentioned (terms : List StoredTerm) : Multiset TermVariable := (unite terms).val

/-- An item of a collection: its terms, and the one of them that is its key. -/
class StoredItem (I : Type) where
  key : I → StoredTerm
  terms : I → List StoredTerm
  hash64 : I → UInt64

instance {I : Type} [StoredItem I] : Item I Term ItemSummary (Multiset TermVariable) where
  key item := (StoredItem.key item).term
  hash64 := StoredItem.hash64
  summary item := .of (StoredItem.key item) (StoredItem.terms item)
  group item := mentioned (StoredItem.terms item)

variable [TermHash]

/-- An element of a set or a list is its own key. -/
instance : StoredItem StoredTerm where
  key item := item
  terms item := [item]
  hash64 item := TermHash.hash item.term

/-- An entry of a map is searched by its key. -/
instance : StoredItem (StoredTerm × StoredTerm) where
  key entry := entry.1
  terms entry := [entry.1, entry.2]
  hash64 entry := TermHash.ofPair (TermHash.hash entry.1.term) (TermHash.hash entry.2.term)

end Items

section Trees

/-- `DEFAULT_BRANCHING` -/
def branching : Branching := ⟨32, by decide⟩

/-- The items of a collection: a valid tree. -/
structure Items (I : Type) [StoredItem I] where
  tree : Chunked I ItemSummary (Multiset TermVariable) branching
  valid : tree.Valid

namespace Items

variable {I : Type} [StoredItem I]

def toList (items : Items I) : List I := items.tree.items

def len (items : Items I) : Nat := items.tree.len

/-- `Items::summary`: the summary of the root. -/
def summary (items : Items I) : NodeSummary I ItemSummary (Multiset TermVariable) :=
  match items.tree.root with
  | some root => root.summary
  | none => {
      count := 0, first := none, last := none, collision := false, hash := .empty
      extra := Summary.identity, group := Summary.identity }

theorem summarizes (items : Items I) : Summarizes items.summary items.toList := by
  obtain ⟨⟨root⟩, hvalid⟩ := items
  cases root with
  | none =>
    exact ⟨rfl, Nat.zero_le _, rfl, rfl, rfl, rfl, LawfulSummary.value_identity,
      LawfulSummary.value_identity⟩
  | some root =>
    obtain ⟨h, hroot⟩ := hvalid root rfl
    exact hroot.shaped.summarizes

/-- What the items say together. -/
theorem extraValue_eq (items : List I) :
    (extraValue items : ItemSummary.Value) =
      ((items.map fun i => (Failing.of fun flag : Flag =>
          (StoredItem.terms i).all fun t => flag.holdsOf t).failing).sum,
        (items.map fun i => Uniform.one (Header.skeleton (Header.of (StoredItem.key i)))).sum,
        (items.map fun i => (⟨(StoredItem.terms i).any fun t => t.attributes.hasMacroOrAlias⟩ :
          Any)).sum,
        (items.map fun i => (Saturating.of
          ((StoredItem.terms i).map fun t => t.attributes.kCells).sum : Saturating 2)).sum,
        (items.map fun i =>
          (Count.of (!(StoredItem.key i).attributes.constructorLike)).count).sum) := by
  induction items with
  | nil => rfl
  | cons item items ih =>
    rw [extraValue_cons, ih]
    simp only [List.map_cons, List.sum_cons]
    rfl

section Summarized

variable {summary : NodeSummary I ItemSummary (Multiset TermVariable)} {is : List I}
  (h : Summarizes summary is)
include h

theorem holds_of_summarizes (flag : Flag) : summary.extra.holds flag =
    (is.flatMap StoredItem.terms).all fun t => flag.holdsOf t := by
  have hvalue : summary.extra.failing.failing flag = (is.map fun i => (Failing.of fun flag : Flag =>
      (StoredItem.terms i).all fun t => flag.holdsOf t).failing).sum flag :=
    congrArg (fun v : ItemSummary.Value => v.1 flag) (h.extra.trans (extraValue_eq is))
  have hsum : ∀ is : List I, ((is.map fun i => (Failing.of fun flag : Flag =>
      (StoredItem.terms i).all fun t => flag.holdsOf t).failing).sum flag = 0) ↔
      (is.flatMap StoredItem.terms).all (fun t => flag.holdsOf t) = true := by
    intro is
    induction is with
    | nil => simp
    | cons i is ih =>
      rw [List.map_cons, List.sum_cons, Pi.add_apply, Nat.add_eq_zero_iff, ih,
        List.flatMap_cons, List.all_append, Bool.and_eq_true]
      simp [Failing.of]
  rw [Bool.eq_iff_iff, ← hsum, ← hvalue]
  exact decide_eq_true_iff

theorem kCells_of_summarizes : summary.extra.kCells.count =
    min ((is.flatMap StoredItem.terms).map fun t => t.attributes.kCells).sum 2 := by
  have hvalue := congrArg (fun v : ItemSummary.Value => v.2.2.2.1.count)
    (h.extra.trans (extraValue_eq is))
  simp only [Saturating.count_sum] at hvalue
  have hsum : ∀ is : List I,
      (is.map fun i => ((StoredItem.terms i).map fun t => t.attributes.kCells).sum).sum =
        ((is.flatMap StoredItem.terms).map fun t => t.attributes.kCells).sum := by
    intro is
    induction is with
    | nil => rfl
    | cons i is ih => rw [List.map_cons, List.sum_cons, ih, List.flatMap_cons, List.map_append,
        List.sum_append]
  rw [hsum] at hvalue
  exact hvalue

theorem symbolicKeys_of_summarizes : summary.extra.symbolicKeys.count =
    is.countP fun i => !(StoredItem.key i).attributes.constructorLike := by
  have hvalue := congrArg (fun v : ItemSummary.Value => v.2.2.2.2)
    (h.extra.trans (extraValue_eq is))
  refine hvalue.trans ?_
  clear h hvalue
  induction is with
  | nil => rfl
  | cons i is ih =>
    rw [List.countP_cons, ← ih, Nat.add_comm]
    rfl

end Summarized

variable (items : Items I)

theorem holds_eq (flag : Flag) : items.summary.extra.holds flag =
    (items.toList.flatMap StoredItem.terms).all fun t => flag.holdsOf t :=
  holds_of_summarizes items.summarizes flag

theorem hasMacroOrAlias_eq : items.summary.extra.macroOrAlias.any =
    (items.toList.flatMap StoredItem.terms).any fun t => t.attributes.hasMacroOrAlias := by
  have hvalue := congrArg (fun v : ItemSummary.Value => v.2.2.1.any)
    (items.summarizes.extra.trans (extraValue_eq items.toList))
  simp only [Any.any_sum] at hvalue
  rw [List.any_flatMap]
  exact hvalue

theorem kCells_eq : items.summary.extra.kCells.count =
    min ((items.toList.flatMap StoredItem.terms).map fun t => t.attributes.kCells).sum 2 :=
  kCells_of_summarizes items.summarizes

theorem headerSkeleton_eq_some (key : StoredTerm) (t : Term) :
    Header.skeleton (Header.of key) = some t ↔
      hasKeyHeader key = true ∧ key.term.skeleton = t := by
  unfold Header.of
  split
  · rename_i h
    simp [Header.skeleton, h]
  · rename_i h
    simp [Header.skeleton, h]

/-- The keys share a header when each has one and all have the same skeleton. -/
theorem keysShareOneHeader_iff : items.summary.extra.keysShareOneHeader = true ↔
    ∀ i ∈ items.toList, hasKeyHeader (StoredItem.key i) = true ∧ ∀ j ∈ items.toList,
      (StoredItem.key j).term.skeleton = (StoredItem.key i).term.skeleton := by
  have hvalue : items.summary.extra.header.map Header.skeleton = (items.toList.map fun i =>
      Uniform.one (Header.skeleton (Header.of (StoredItem.key i)))).sum :=
    congrArg (fun v : ItemSummary.Value => v.2.1)
      (items.summarizes.extra.trans (extraValue_eq items.toList))
  rw [ItemSummary.keysShareOneHeader]
  generalize items.summary.extra.header = header at hvalue
  cases hitems : items.toList with
  | nil =>
    rw [hitems] at hvalue
    cases header with
    | empty => simp
    | one => cases hvalue
    | mixed => cases hvalue
  | cons i is =>
    rw [hitems, Uniform.sum_eq_one] at hvalue
    split at hvalue
    · rename_i hsame
      cases header with
      | empty => cases hvalue
      | mixed => cases hvalue
      | one header =>
        have hheader := Uniform.one.inj hvalue
        cases header with
        | none =>
          have hnone : hasKeyHeader (StoredItem.key i) ≠ true := fun h =>
            absurd (hheader.trans ((headerSkeleton_eq_some _ _).mpr ⟨h, rfl⟩)) (by
              simp [Header.skeleton])
          simp [hnone]
        | some header =>
          have hall : ∀ j ∈ i :: is, hasKeyHeader (StoredItem.key j) = true ∧
              (StoredItem.key j).term.skeleton = header.key.skeleton := by
            intro j hj
            rw [← headerSkeleton_eq_some]
            cases List.mem_cons.mp hj with
            | inl heq => exact heq ▸ hheader.symm
            | inr hj => exact (hsame j hj).trans hheader.symm
          simp only [Option.isSome_some, true_iff]
          exact fun j hj => ⟨(hall j hj).1, fun k hk => (hall k hk).2.trans (hall j hj).2.symm⟩
    · rename_i hsame
      cases header with
      | empty => cases hvalue
      | one => cases hvalue
      | mixed =>
        simp only [Bool.false_eq_true, false_iff]
        intro hall
        apply hsame
        intro j hj
        have hi := hall i List.mem_cons_self
        have hmem : j ∈ i :: is := List.mem_cons_of_mem _ hj
        rw [(headerSkeleton_eq_some _ _).mpr ⟨hi.1, rfl⟩,
          (headerSkeleton_eq_some _ _).mpr ⟨(hall j hmem).1, hi.2 j hmem⟩]

theorem mem_unite {v : TermVariable} {terms : List StoredTerm} :
    v ∈ unite terms ↔ ∃ t ∈ terms, v ∈ t.attributes.vars := by
  induction terms with
  | nil => simp [unite]
  | cons t ts ih =>
    rw [unite, List.foldr_cons, Finset.mem_union]
    simp only [List.mem_cons, exists_eq_or_imp]
    exact or_congr_right ih

theorem mem_group (v : TermVariable) : v ∈ items.summary.group ↔
    ∃ t ∈ items.toList.flatMap StoredItem.terms, v ∈ t.attributes.vars := by
  have hvalue : items.summary.group = groupValue items.toList := items.summarizes.group
  have hmem : ∀ is : List I, v ∈ (groupValue is : Multiset TermVariable) ↔
      ∃ t ∈ is.flatMap StoredItem.terms, v ∈ t.attributes.vars := by
    intro is
    induction is with
    | nil => simp [groupValue]
    | cons i is ih =>
      have hitem : v ∈ mentioned (StoredItem.terms i) ↔
          ∃ t ∈ StoredItem.terms i, v ∈ t.attributes.vars := mem_unite
      have hadd : v ∈ (groupValue (i :: is) : Multiset TermVariable) ↔
          v ∈ mentioned (StoredItem.terms i) ∨ v ∈ (groupValue is : Multiset TermVariable) := by
        rw [groupValue_cons]
        exact Multiset.mem_add
      rw [hadd, hitem, ih, List.flatMap_cons]
      simp only [List.mem_append, or_and_right, exists_or]
  rw [hvalue]
  exact hmem items.toList

end Items

end Trees

end KRust.Backend
