import KRust.Backend.Term
import KRust.Lib.Collections
import KRust.Lib.Spelling
import Mathlib.Data.Prod.Lex

/-!
The derived order of terms: the variants in declaration order, then the fields in declaration
order, a sequence lexicographically. Maps and sets keep their items in it.
-/

namespace KRust.Backend

open KRust.Kore Lib Lib.Spelling

section Leaves

/-- The spelling of a sort: an application is below a variable. -/
def spellSort : KoreSort → List Token
  | .application name arguments => .mark 0 :: .text name :: spellSorts arguments
  | .var name => [.mark 1, .text name]
where
  spellSorts : List KoreSort → List Token
  | [] => [.mark 0]
  | s :: sorts => .mark 1 :: (spellSort s ++ spellSorts sorts)

theorem spellSorts_eq (sorts : List KoreSort) :
    spellSort.spellSorts sorts = items spellSort sorts := by
  induction sorts with
  | nil => rfl
  | cons s sorts ih => rw [spellSort.spellSorts, ih, items]

theorem unique_spellSort : ∀ s : KoreSort, Unique spellSort s
  | .application name arguments => by
    have ih : ∀ s ∈ arguments, Unique spellSort s := fun s _ => unique_spellSort s
    constructor
    rintro (_ | ⟨name', arguments'⟩) r r' h
    · exact absurd (mark_injective (List.cons.inj h).1) (by decide)
    · simp only [spellSort, spellSorts_eq, List.cons_append, List.cons.injEq, true_and] at h
      obtain ⟨hname, hrest⟩ := h
      obtain ⟨rfl, rfl⟩ := (Unique.items ih).read hrest
      exact ⟨by rw [text_injective hname], rfl⟩
  | .var name => by
    constructor
    rintro (name' | _) r r' h
    · simp only [spellSort, List.cons_append, List.nil_append, List.cons.injEq, true_and] at h
      exact ⟨by rw [text_injective h.1], h.2⟩
    · exact absurd (mark_injective (List.cons.inj h).1) (by decide)

def spellBool : Bool → List Token := via Bool.toNat number

theorem unique_spellBool (b : Bool) : Unique spellBool b :=
  .via (fun a b h => by revert a b; decide) (unique_number _)

def spellSymbols : CollectionSymbols → List Token :=
  via (fun symbols => (symbols.unit, symbols.element, symbols.concat))
    (pair text (pair text text))

theorem unique_spellSymbols (symbols : CollectionSymbols) : Unique spellSymbols symbols :=
  .via (fun ⟨_, _, _⟩ ⟨_, _, _⟩ h => by simp_all)
    (.pair (unique_text _) (.pair (unique_text _) (unique_text _)))

def spellMapDefinition : MapDefinition → List Token :=
  via (fun d => (d.symbols, d.keySort, d.valueSort, d.mapSort))
    (pair spellSymbols (pair spellSort (pair spellSort text)))

theorem unique_spellMapDefinition (d : MapDefinition) : Unique spellMapDefinition d :=
  .via (fun ⟨_, _, _, _⟩ ⟨_, _, _, _⟩ h => by simp_all)
    (.pair (unique_spellSymbols _)
      (.pair (unique_spellSort _) (.pair (unique_spellSort _) (unique_text _))))

def spellListDefinition : ListDefinition → List Token :=
  via (fun d => (d.symbols, d.elementSort, d.listSort)) (pair spellSymbols (pair spellSort text))

theorem unique_spellListDefinition (d : ListDefinition) : Unique spellListDefinition d :=
  .via (fun ⟨_, _, _⟩ ⟨_, _, _⟩ h => by simp_all)
    (.pair (unique_spellSymbols _) (.pair (unique_spellSort _) (unique_text _)))

def spellCollection : CollectionMetadata → List Token
  | .map d => .mark 0 :: spellMapDefinition d
  | .list d => .mark 1 :: spellListDefinition d
  | .set d => .mark 2 :: spellListDefinition d

theorem unique_spellCollection (d : CollectionMetadata) : Unique spellCollection d := by
  constructor
  intro d' r s h
  cases d <;> cases d' <;> obtain ⟨hmark, hrest⟩ := List.cons.inj h <;>
    have hrank := mark_injective hmark
  case map.map d d' =>
    obtain ⟨rfl, rfl⟩ := (unique_spellMapDefinition d).read hrest
    exact ⟨rfl, rfl⟩
  case list.list d d' | set.set d d' =>
    obtain ⟨rfl, rfl⟩ := (unique_spellListDefinition d).read hrest
    exact ⟨rfl, rfl⟩
  all_goals cases hrank

/-- The variants of `SymbolType` by position, with those of its argument. -/
def SymbolType.rank : SymbolType → ℕ
  | .constructor => 0
  | .function .part => 1
  | .function .total => 2

theorem SymbolType.rank_injective : Function.Injective SymbolType.rank := by
  rintro (_ | _ | _) (_ | _ | _) h <;> first | rfl | cases h

def spellAlgebraic : AlgebraicAxioms → List Token :=
  via (fun algebraic => (algebraic.assoc, algebraic.comm, algebraic.idem, algebraic.unit))
    (pair spellBool (pair spellBool (pair spellBool spellBool)))

theorem unique_spellAlgebraic (algebraic : AlgebraicAxioms) : Unique spellAlgebraic algebraic :=
  .via (fun ⟨_, _, _, _⟩ ⟨_, _, _, _⟩ h => by simp_all)
    (.pair (unique_spellBool _)
      (.pair (unique_spellBool _) (.pair (unique_spellBool _) (unique_spellBool _))))

def spellAttributes : SymbolAttributes → List Token :=
  via (fun a => (a.symbolType, a.anywhere, a.declaredFunction, a.injective, a.algebraic,
      a.macroOrAlias, a.hasEvaluators, a.hook, a.collection))
    (pair (via SymbolType.rank number) (pair spellBool (pair spellBool (pair spellBool
      (pair spellAlgebraic (pair spellBool (pair spellBool
        (pair (optional text) (optional spellCollection)))))))))

theorem unique_spellAttributes (a : SymbolAttributes) : Unique spellAttributes a :=
  .via (fun ⟨_, _, _, _, _, _, _, _, _⟩ ⟨_, _, _, _, _, _, _, _, _⟩ h => by simp_all)
    (.pair (.via SymbolType.rank_injective (unique_number _)) (.pair (unique_spellBool _)
      (.pair (unique_spellBool _) (.pair (unique_spellBool _) (.pair (unique_spellAlgebraic _)
        (.pair (unique_spellBool _) (.pair (unique_spellBool _)
          (.pair (.optional fun _ _ => unique_text _)
            (.optional fun _ _ => unique_spellCollection _)))))))))

def spellSymbol : TermSymbol → List Token :=
  via (fun symbol => (symbol.name, symbol.sortVariables, symbol.argumentSorts,
      symbol.resultSort, symbol.attributes))
    (pair text (pair (items text) (pair (items spellSort) (pair spellSort spellAttributes))))

theorem unique_spellSymbol (symbol : TermSymbol) : Unique spellSymbol symbol :=
  .via (fun ⟨_, _, _, _, _⟩ ⟨_, _, _, _, _⟩ h => by simp_all)
    (.pair (unique_text _) (.pair (.items fun _ _ => unique_text _)
      (.pair (.items fun _ _ => unique_spellSort _)
        (.pair (unique_spellSort _) (unique_spellAttributes _)))))

/-- The variants of `VariableKind` by position. -/
def kindRank : VariableKind → ℕ
  | .element => 0
  | .set => 1

theorem kindRank_injective : Function.Injective kindRank := by
  rintro (_ | _) (_ | _) h <;> first | rfl | cases h

/-- A variable is ordered by its kind, its sort and its name. -/
def spellVariable : TermVariable → List Token :=
  via (fun v => (v.kind, v.sort, v.name)) (pair (via kindRank number) (pair spellSort text))

theorem unique_spellVariable (v : TermVariable) : Unique spellVariable v :=
  .via (fun ⟨_, _, _⟩ ⟨_, _, _⟩ h => by simp_all)
    (.pair (.via kindRank_injective (unique_number _))
      (.pair (unique_spellSort _) (unique_text _)))

/-- The bytes of a domain value. -/
def spellString : KoreString → List Token := items (via UInt8.toNat number)

theorem unique_spellString (value : KoreString) : Unique spellString value :=
  .items fun _ _ => .via (fun _ _ h => UInt8.toNat_inj.mp h) (unique_number _)

end Leaves

section Terms

/-- The spelling of a term: its variant, then its fields. -/
def spellTerm : Term → List Token
  | .and left right => .mark 0 :: (spellTerm left ++ spellTerm right)
  | .application symbol sortArguments arguments =>
    .mark 1 :: (spellSymbol symbol ++ (items spellSort sortArguments ++ spellTerms arguments))
  | .domainValue sort value => .mark 2 :: (spellSort sort ++ spellString value)
  | .var v => .mark 3 :: spellVariable v
  | .injection source target term =>
    .mark 4 :: (spellSort source ++ (spellSort target ++ spellTerm term))
  | .map d entries rest =>
    .mark 5 :: (spellMapDefinition d ++ (spellEntries entries ++ spellRest rest))
  | .list d heads rest =>
    .mark 6 :: (spellListDefinition d ++ (spellTerms heads ++ spellMiddle rest))
  | .set d elements rest =>
    .mark 7 :: (spellListDefinition d ++ (spellTerms elements ++ spellRest rest))
where
  spellTerms : List Term → List Token
  | [] => [.mark 0]
  | term :: terms => .mark 1 :: (spellTerm term ++ spellTerms terms)
  spellEntries : List (Term × Term) → List Token
  | [] => [.mark 0]
  | (key, value) :: entries =>
    .mark 1 :: ((spellTerm key ++ spellTerm value) ++ spellEntries entries)
  spellRest : Option Term → List Token
  | none => [.mark 0]
  | some rest => .mark 1 :: spellTerm rest
  spellMiddle : Option (Term × List Term) → List Token
  | none => [.mark 0]
  | some (middle, tails) => .mark 1 :: (spellTerm middle ++ spellTerms tails)

theorem spellTerms_eq (terms : List Term) : spellTerm.spellTerms terms = items spellTerm terms := by
  induction terms with
  | nil => rfl
  | cons term terms ih => rw [spellTerm.spellTerms, ih, items]

theorem spellEntries_eq (entries : List (Term × Term)) :
    spellTerm.spellEntries entries = items (pair spellTerm spellTerm) entries := by
  induction entries with
  | nil => rfl
  | cons entry entries ih => rw [spellTerm.spellEntries, ih, items, pair]

theorem spellRest_eq (rest : Option Term) : spellTerm.spellRest rest = optional spellTerm rest := by
  cases rest <;> rfl

theorem spellMiddle_eq (rest : Option (Term × List Term)) :
    spellTerm.spellMiddle rest = optional (pair spellTerm (items spellTerm)) rest := by
  cases rest with
  | none => rfl
  | some entry =>
    rw [spellTerm.spellMiddle, spellTerms_eq]
    rfl

theorem unique_spellTerm (t : Term) : Unique spellTerm t := by
  induction t with
  | and left right ihl ihr =>
    constructor
    intro u r s h
    cases u with
    | and left' right' =>
      simp only [spellTerm, List.cons_append, List.append_assoc, List.cons.injEq, true_and] at h
      obtain ⟨rfl, hrest⟩ := ihl.read h
      obtain ⟨rfl, rfl⟩ := ihr.read hrest
      exact ⟨rfl, rfl⟩
    | _ => exact absurd (mark_injective (List.cons.inj h).1) (by decide)
  | application symbol sortArguments arguments ih =>
    constructor
    intro u r s h
    cases u with
    | application symbol' sortArguments' arguments' =>
      simp only [spellTerm, spellTerms_eq, List.cons_append, List.append_assoc, List.cons.injEq,
        true_and] at h
      obtain ⟨rfl, hsorts⟩ := (unique_spellSymbol symbol).read h
      obtain ⟨rfl, hrest⟩ := (Unique.items fun s _ => unique_spellSort s).read hsorts
      obtain ⟨rfl, rfl⟩ := (Unique.items ih).read hrest
      exact ⟨rfl, rfl⟩
    | _ => exact absurd (mark_injective (List.cons.inj h).1) (by decide)
  | domainValue sort value =>
    constructor
    intro u r s h
    cases u with
    | domainValue sort' value' =>
      simp only [spellTerm, List.cons_append, List.append_assoc, List.cons.injEq, true_and] at h
      obtain ⟨rfl, hrest⟩ := (unique_spellSort sort).read h
      obtain ⟨rfl, rfl⟩ := (unique_spellString value).read hrest
      exact ⟨rfl, rfl⟩
    | _ => exact absurd (mark_injective (List.cons.inj h).1) (by decide)
  | var v =>
    constructor
    intro u r s h
    cases u with
    | var v' =>
      obtain ⟨rfl, rfl⟩ := (unique_spellVariable v).read (List.cons.inj h).2
      exact ⟨rfl, rfl⟩
    | _ => exact absurd (mark_injective (List.cons.inj h).1) (by decide)
  | injection source target term ih =>
    constructor
    intro u r s h
    cases u with
    | injection source' target' term' =>
      simp only [spellTerm, List.cons_append, List.append_assoc, List.cons.injEq, true_and] at h
      obtain ⟨rfl, htarget⟩ := (unique_spellSort source).read h
      obtain ⟨rfl, hrest⟩ := (unique_spellSort target).read htarget
      obtain ⟨rfl, rfl⟩ := ih.read hrest
      exact ⟨rfl, rfl⟩
    | _ => exact absurd (mark_injective (List.cons.inj h).1) (by decide)
  | map d entries rest ihe ihr =>
    constructor
    intro u r s h
    cases u with
    | map d' entries' rest' =>
      simp only [spellTerm, spellEntries_eq, spellRest_eq, List.cons_append, List.append_assoc,
        List.cons.injEq, true_and] at h
      obtain ⟨rfl, hentries⟩ := (unique_spellMapDefinition d).read h
      have hpairs : Unique (items (pair spellTerm spellTerm)) entries :=
        .items fun e he => .pair (ihe e he).1 (ihe e he).2
      obtain ⟨rfl, hrest⟩ := hpairs.read hentries
      obtain ⟨rfl, rfl⟩ := (Unique.optional ihr).read hrest
      exact ⟨rfl, rfl⟩
    | _ => exact absurd (mark_injective (List.cons.inj h).1) (by decide)
  | list d heads rest ihh ihr =>
    constructor
    intro u r s h
    cases u with
    | list d' heads' rest' =>
      simp only [spellTerm, spellTerms_eq, spellMiddle_eq, List.cons_append, List.append_assoc,
        List.cons.injEq, true_and] at h
      obtain ⟨rfl, hheads⟩ := (unique_spellListDefinition d).read h
      obtain ⟨rfl, hrest⟩ := (Unique.items ihh).read hheads
      have hmiddle : Unique (optional (pair spellTerm (items spellTerm))) rest :=
        .optional fun e he => .pair (ihr e he).1 (.items (ihr e he).2)
      obtain ⟨rfl, rfl⟩ := hmiddle.read hrest
      exact ⟨rfl, rfl⟩
    | _ => exact absurd (mark_injective (List.cons.inj h).1) (by decide)
  | set d elements rest ihe ihr =>
    constructor
    intro u r s h
    cases u with
    | set d' elements' rest' =>
      simp only [spellTerm, spellTerms_eq, spellRest_eq, List.cons_append, List.append_assoc,
        List.cons.injEq, true_and] at h
      obtain ⟨rfl, helements⟩ := (unique_spellListDefinition d).read h
      obtain ⟨rfl, hrest⟩ := (Unique.items ihe).read helements
      obtain ⟨rfl, rfl⟩ := (Unique.optional ihr).read hrest
      exact ⟨rfl, rfl⟩
    | _ => exact absurd (mark_injective (List.cons.inj h).1) (by decide)

/-- `Ord for Term` -/
instance : LinearOrder Term := order unique_spellTerm

instance : LinearOrder TermVariable := order unique_spellVariable

/-- Maps keep their entries ordered by key and value, sets their elements. -/
instance : CollectionOrder where
  entryLe a b := decide (toLex a ≤ toLex b)
  elementLe a b := decide (a ≤ b)

theorem isOrder_decide {α β : Type} [LinearOrder β] {f : α → β} (hf : Function.Injective f) :
    IsOrder fun a b => decide (f a ≤ f b) where
  total a b := by simpa using le_total (f a) (f b)
  trans a b c hab hbc := by simpa using (of_decide_eq_true hab).trans (of_decide_eq_true hbc)
  antisymm a b hab hba := hf ((of_decide_eq_true hab).antisymm (of_decide_eq_true hba))

theorem isOrder_entryLe : IsOrder CollectionOrder.entryLe :=
  isOrder_decide (f := fun entry : Term × Term => toLex entry) toLex.injective

theorem isOrder_elementLe : IsOrder CollectionOrder.elementLe :=
  isOrder_decide (f := id) Function.injective_id

end Terms

end KRust.Backend
