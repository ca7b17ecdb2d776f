import KRust.Backend.Attributes
import KRust.Backend.Normal
import KRust.Backend.SubstituteItems
import KRust.Lib.DisjointSums

/-!
The parts of set and map patterns. Chunks that two sides of an equation have in common are
cancelled, which keeps the equation between defined collections; parts that are free variables of
the pattern are merged into one, which loses and gains no solution.
-/

set_option linter.unusedSectionVars false

namespace KRust.Backend

open KRust.Kore Lib Lib.DisjointSums

/-- The concatenation that held the chunks of a rest. -/
abbrev OpaqueConcatHead : Type := TermSymbol × List KoreSort

section Chunks

/-- `visit` of `flatten_opaque_chunks` -/
def visitChunks (concat : String) :
    Term → List Term × Option OpaqueConcatHead → List Term × Option OpaqueConcatHead
  | .application symbol sortArguments [left, right], (chunks, head) =>
    if symbol.name = concat then
      visitChunks concat right
        (visitChunks concat left (chunks, head.or (some (symbol, sortArguments))))
    else (chunks ++ [.application symbol sortArguments [left, right]], head)
  | term, (chunks, head) => (chunks ++ [term], head)

/-- `flatten_opaque_chunks` -/
def flattenOpaqueChunks (rest : Option Term) (concat : String) :
    List Term × Option OpaqueConcatHead :=
  match rest with
  | some rest => visitChunks concat rest ([], none)
  | none => ([], none)

/-- `rebuild_opaque_chunks`: several chunks without a concatenation that held them are a panic. -/
def rebuildOpaqueChunks : List Term → Option OpaqueConcatHead → Option (Option Term)
  | [], _ => some none
  | first :: chunks, head => do
    let term ← chunks.foldlM (fun left right => do
      let (symbol, sortArguments) ← head
      return Term.mkApplication symbol sortArguments [left, right]) first
    return some term

end Chunks

/-- `cancel_common_opaque_chunks` -/
def cancelCommonOpaqueChunks (left right : Option Term) (concat : String) :
    Option (Option Term × Option Term) := do
  let (left, leftHead) := flattenOpaqueChunks left concat
  let (right, rightHead) := flattenOpaqueChunks right concat
  let common := left.filter fun term => decide (term ∈ right)
  let left := left.filter fun term => !decide (term ∈ common)
  let right := right.filter fun term => !decide (term ∈ common)
  return (← rebuildOpaqueChunks (left.mergeSort fun a b => decide (a ≤ b)) leftHead,
    ← rebuildOpaqueChunks (right.mergeSort fun a b => decide (a ≤ b)) rightHead)

/-- The items of a set or map pattern. -/
inductive AcItems where
  | set (definition : SetDefinition) (elements : List Term)
  | map (definition : MapDefinition) (entries : List (Term × Term))

namespace AcItems

def concat : AcItems → String
  | .set d _ => d.symbols.concat
  | .map d _ => d.symbols.concat

/-- `in_items` -/
def occurs (v : TermVariable) : AcItems → Bool
  | .set _ elements => elements.any fun element => decide (v ∈ element.attributes.vars)
  | .map _ entries => entries.any fun entry =>
    decide (v ∈ entry.1.attributes.vars) || decide (v ∈ entry.2.attributes.vars)

/-- The empty collection of the items' definition. -/
def empty : AcItems → Term
  | .set d _ => Term.mkSet d [] none
  | .map d _ => Term.mkMap d [] none

/-- The collection of the items and a rest. -/
def withRest (rest : Option Term) : AcItems → Term
  | .set d elements => Term.setOfItems d elements rest
  | .map d entries => Term.mapOfItems d entries rest

end AcItems

/-- The items and the rest that `merge_free_parts` reads. -/
def acPattern : Term → Option (AcItems × Term)
  | .set d elements (some rest) => some (.set d elements, rest)
  | .map d entries (some rest) => some (.map d entries, rest)
  | .application symbol sortArguments arguments =>
    match symbol.attributes.collection with
    | some (.set d) =>
      if d.symbols.concat = symbol.name then
        some (.set d [], .application symbol sortArguments arguments)
      else none
    | some (.map d) =>
      if d.symbols.concat = symbol.name then
        some (.map d [], .application symbol sortArguments arguments)
      else none
    | _ => none
  | _ => none

/-- The position of a part that is free, with its variable. -/
def freePart (free : TermVariable → Bool) (items : AcItems) (parts : List Term) :
    Term × Nat → Option (Nat × TermVariable)
  | (.var v, index) =>
    if free v && !items.occurs v &&
        parts.zipIdx.all fun (part, other) =>
          decide (other = index) || !decide (v ∈ part.attributes.vars) then
      some (index, v)
    else none
  | _ => none

def mergedParts (free : TermVariable → Bool) (items : AcItems) (parts : List Term) :
    List (Nat × TermVariable) := parts.zipIdx.filterMap (freePart free items parts)

/-- `merge_free_parts`: the pattern with one free part for all, and what the others are bound
to. -/
def mergeFreeParts (pattern : Term) (free : TermVariable → Bool) :
    Option (Option (Term × List (TermVariable × Term))) :=
  match acPattern pattern with
  | none => some none
  | some (items, rest) =>
    let (parts, head) := flattenOpaqueChunks (some rest) items.concat
    match mergedParts free items parts with
    | [] => some none
    | _ :: dropped =>
      if dropped.isEmpty then some none
      else do
        let kept := (parts.zipIdx.filter fun (_, index) =>
          !dropped.any fun (other, _) => decide (other = index)).map Prod.fst
        let rest ← rebuildOpaqueChunks kept head
        return some (items.withRest rest, dropped.map fun (_, v) => (v, items.empty))

section Contents

variable {T ι κ : Type} (c : Collection T ι) (hold : ι → κ) {contents : T → Multiset κ}

/-- The items before a rest and those of the rest. -/
def heldBy (contents : T → Multiset κ) (p : List ι × Option T) : Multiset κ :=
  (p.1.map hold : Multiset κ) + p.2.elim 0 contents

variable {c hold}
variable (hnode : ∀ items rest, contents (c.node items rest) = heldBy hold contents (items, rest))
include hnode

theorem contents_ofParts (p : List ι × Option T) :
    contents (c.ofParts p) = heldBy hold contents p := by
  obtain ⟨items, rest⟩ := p
  unfold Collection.ofParts
  split
  · next r heq =>
    obtain ⟨rfl, rfl⟩ := Prod.mk.inj heq
    exact (zero_add _).symm
  · next heq =>
    obtain ⟨rfl, rfl⟩ := Prod.mk.inj heq
    exact hnode _ _

theorem contents_parts (t : T) : contents t = heldBy hold contents (c.parts t) := by
  rcases c.node_or_rest t with ⟨items, rest, rfl⟩ | hrest
  · rw [hnode, c.parts_node]
  · rw [hrest]
    exact (zero_add _).symm

theorem contents_build (le : ι → ι → Bool) (items : List ι) (rest : Option T) :
    contents (c.build le items rest) = heldBy hold contents (items, rest) := by
  have hmerge : ∀ xs : List ι, ((xs.merge items le).map hold : Multiset κ) =
      (xs.map hold : Multiset κ) + (items.map hold : Multiset κ) := by
    intro xs
    rw [Multiset.coe_add, ← List.map_append]
    exact Multiset.coe_eq_coe.mpr ((List.merge_perm_append ..).map hold)
  rw [Collection.build, contents_ofParts hnode, heldBy, heldBy, hmerge]
  cases rest with
  | none => simp [Collection.restParts]
  | some rest =>
    have hparts := contents_parts hnode rest
    rw [Option.elim_some, hparts, heldBy, Collection.restParts, add_assoc, add_left_comm]

theorem contents_combine (le : ι → ι → Bool) {join : T → T → T}
    (hjoin : ∀ a b, contents (join a b) = contents a + contents b) (left right : T) :
    contents (c.combine le join left right) = contents left + contents right := by
  rw [Collection.combine, contents_build hnode, contents_parts hnode left,
    contents_parts hnode right, heldBy, heldBy, heldBy]
  have hmerge : (((c.parts left).1.merge (c.parts right).1 le).map hold : Multiset κ) =
      ((c.parts left).1.map hold : Multiset κ) + ((c.parts right).1.map hold : Multiset κ) := by
    rw [Multiset.coe_add, ← List.map_append]
    exact Multiset.coe_eq_coe.mpr ((List.merge_perm_append ..).map hold)
  have hrests : (Collection.joinRests join (c.parts left).2 (c.parts right).2).elim 0 contents =
      (c.parts left).2.elim 0 contents + (c.parts right).2.elim 0 contents := by
    cases (c.parts left).2 with
    | none => simp
    | some a =>
      cases (c.parts right).2 with
      | none => simp
      | some b => exact hjoin a b
  rw [hmerge, hrests]
  exact add_add_add_comm _ _ _ _

end Contents

section Interpretation

/-- The symbol concatenates the sets or the maps of its collection. -/
inductive Concatenates (symbol : TermSymbol) : Prop where
  | set (d : SetDefinition) (hcollection : symbol.attributes.collection = some (.set d))
    (hname : symbol.name = d.symbols.concat)
  | map (d : MapDefinition) (hcollection : symbol.attributes.collection = some (.map d))
    (hname : symbol.name = d.symbols.concat) (helement : symbol.name ≠ d.symbols.element)

theorem mkApplication_set {symbol : TermSymbol} {d : SetDefinition}
    (hcollection : symbol.attributes.collection = some (.set d))
    (hname : symbol.name = d.symbols.concat) (sortArguments : List KoreSort) (left right : Term) :
    Term.mkApplication symbol sortArguments [left, right] =
      (Term.setCollection d).combine CollectionOrder.elementLe
        (Term.concatenation symbol sortArguments) left right := by
  rw [← Term.combineSets_eq]
  simp [Term.mkApplication, hcollection, Term.collectionApplication, hname]

theorem mkApplication_map {symbol : TermSymbol} {d : MapDefinition}
    (hcollection : symbol.attributes.collection = some (.map d))
    (hname : symbol.name = d.symbols.concat) (helement : symbol.name ≠ d.symbols.element)
    (sortArguments : List KoreSort) (left right : Term) :
    Term.mkApplication symbol sortArguments [left, right] =
      (Term.mapCollection d).combine CollectionOrder.entryLe
        (Term.concatenation symbol sortArguments) left right := by
  rw [hname] at helement
  rw [← Term.combineMaps_eq]
  simp [Term.mkApplication, hcollection, Term.collectionApplication, hname, helement]

/-- Terms as values, and collections as what they hold: the elements of a set, which have no
value of their own, and the entries of a map. -/
structure AcInterpretation (V : Type) where
  value : Term → V
  contents : Term → Multiset (V × Option V)
  contents_set : ∀ d elements rest, contents (.set d elements rest) =
    heldBy (fun element => (value element, none)) contents (elements, rest)
  contents_map : ∀ d entries rest, contents (.map d entries rest) =
    heldBy (fun entry : Term × Term => (value entry.1, some (value entry.2))) contents
      (entries, rest)
  contents_concat : ∀ symbol sortArguments left right, Concatenates symbol →
    contents (.application symbol sortArguments [left, right]) = contents left + contents right

namespace AcInterpretation

variable {V : Type} (I : AcInterpretation V)

/-- What stands for a rest, if anything does. -/
def restContents (rest : Option Term) : Multiset (V × Option V) := rest.elim 0 I.contents

/-- No element and no key is held twice. -/
def Defined (m : Multiset (V × Option V)) : Prop := Distinct Prod.fst m

theorem contents_setOfItems (d : SetDefinition) (elements : List Term) (rest : Option Term) :
    I.contents (Term.setOfItems d elements rest) =
      heldBy (fun element => (I.value element, none)) I.contents (elements, rest) := by
  rw [Term.setOfItems_eq]
  exact contents_build (c := Term.setCollection d) (I.contents_set d) _ _ _

theorem contents_mapOfItems (d : MapDefinition) (entries : List (Term × Term))
    (rest : Option Term) : I.contents (Term.mapOfItems d entries rest) =
      heldBy (fun entry => (I.value entry.1, some (I.value entry.2))) I.contents
        (entries, rest) := by
  rw [Term.mapOfItems_eq]
  exact contents_build (c := Term.mapCollection d) (I.contents_map d) _ _ _

/-- A concatenation by the constructor holds the items of both arguments. -/
theorem contents_mkApplication {symbol : TermSymbol} (hsymbol : Concatenates symbol)
    (sortArguments : List KoreSort) (left right : Term) :
    I.contents (Term.mkApplication symbol sortArguments [left, right]) =
      I.contents left + I.contents right := by
  have hjoin : ∀ a b, I.contents (Term.concatenation symbol sortArguments a b) =
      I.contents a + I.contents b := fun a b => I.contents_concat symbol sortArguments a b hsymbol
  cases hsymbol with
  | set d hcollection hname =>
    rw [mkApplication_set hcollection hname]
    exact contents_combine (c := Term.setCollection d) (I.contents_set d) _ hjoin left right
  | map d hcollection hname helement =>
    rw [mkApplication_map hcollection hname helement]
    exact contents_combine (c := Term.mapCollection d) (I.contents_map d) _ hjoin left right

end AcInterpretation

end Interpretation


section Flattening

variable {concat : String}

/-- The concatenations that flattening goes through are those of a collection. -/
def Concatenated (concat : String) : Term → Prop
  | .application symbol _ [left, right] => symbol.name = concat →
    Concatenates symbol ∧ Concatenated concat left ∧ Concatenated concat right
  | _ => True

variable {V : Type} (I : AcInterpretation V)

/-- Flattening keeps what a term holds. -/
theorem total_visitChunks {t : Term} (h : Concatenated concat t)
    (found : List Term × Option OpaqueConcatHead) :
    total I.contents (visitChunks concat t found).1 = total I.contents found.1 + I.contents t := by
  fun_induction visitChunks concat t found with
  | case1 symbol sortArguments left right chunks head hname ihLeft ihRight =>
    obtain ⟨hsymbol, hleft, hright⟩ := h hname
    rw [ihRight hright, ihLeft hleft, I.contents_concat _ _ _ _ hsymbol, add_assoc]
  | case2 => rw [total_append, total_cons, total_nil, add_zero]
  | case3 => rw [total_append, total_cons, total_nil, add_zero]

/-- Where no concatenation was met, the term itself is the one chunk. -/
theorem visitChunks_none {t : Term} {found : List Term × Option OpaqueConcatHead}
    (h : (visitChunks concat t found).2 = none) :
    found.2 = none ∧ (visitChunks concat t found).1 = found.1 ++ [t] := by
  fun_induction visitChunks concat t found with
  | case1 symbol sortArguments left right chunks head hname ihLeft ihRight =>
    obtain ⟨hleft, -⟩ := ihRight h
    obtain ⟨hhead, -⟩ := ihLeft hleft
    cases head <;> cases hhead
  | case2 => exact ⟨h, rfl⟩
  | case3 => exact ⟨h, rfl⟩

theorem visitChunks_head {t : Term} (h : Concatenated concat t)
    {found : List Term × Option OpaqueConcatHead}
    (hfound : ∀ head ∈ found.2, Concatenates head.1) :
    ∀ head ∈ (visitChunks concat t found).2, Concatenates head.1 := by
  fun_induction visitChunks concat t found with
  | case1 symbol sortArguments left right chunks head hname ihLeft ihRight =>
    obtain ⟨hsymbol, hleft, hright⟩ := h hname
    refine ihRight hright (ihLeft hleft fun found hfound' => ?_)
    cases head with
    | none =>
      cases hfound'
      exact hsymbol
    | some head => exact hfound found hfound'
  | case2 => exact hfound
  | case3 => exact hfound

/-- Chunks are several only where a concatenation held them. -/
structure Chunked (chunks : List Term) (head : Option OpaqueConcatHead) : Prop where
  concatenates : ∀ found ∈ head, Concatenates found.1
  single : head = none → chunks.length ≤ 1

theorem Chunked.shorter {chunks kept : List Term} {head : Option OpaqueConcatHead}
    (h : Chunked chunks head) (hkept : kept.length ≤ chunks.length) : Chunked kept head :=
  ⟨h.concatenates, fun hnone => hkept.trans (h.single hnone)⟩

theorem chunked_flatten {rest : Option Term} (h : ∀ t ∈ rest, Concatenated concat t) :
    Chunked (flattenOpaqueChunks rest concat).1 (flattenOpaqueChunks rest concat).2 := by
  cases rest with
  | none => exact ⟨by simp [flattenOpaqueChunks], fun _ => Nat.zero_le 1⟩
  | some t =>
    rw [flattenOpaqueChunks]
    refine ⟨visitChunks_head (h t rfl) (by simp), fun hnone => ?_⟩
    rw [(visitChunks_none hnone).2]
    exact Nat.le_refl 1

theorem total_flatten {rest : Option Term} (h : ∀ t ∈ rest, Concatenated concat t) :
    total I.contents (flattenOpaqueChunks rest concat).1 = I.restContents rest := by
  cases rest with
  | none => rfl
  | some t =>
    rw [flattenOpaqueChunks, total_visitChunks I (h t rfl), total_nil, zero_add]
    rfl

/-- Rebuilding never stops, and keeps what the chunks hold. -/
theorem rebuild_spec {chunks : List Term} {head : Option OpaqueConcatHead}
    (h : Chunked chunks head) : ∃ rest, rebuildOpaqueChunks chunks head = some rest ∧
      ∀ {V : Type} (I : AcInterpretation V), I.restContents rest = total I.contents chunks := by
  cases chunks with
  | nil => exact ⟨none, rfl, fun _ => rfl⟩
  | cons first chunks =>
    cases head with
    | none =>
      have hsingle := h.single rfl
      have hchunks : chunks = [] := List.length_eq_zero_iff.mp (by simpa using hsingle)
      rw [hchunks]
      exact ⟨some first, rfl, fun I => (add_zero _).symm⟩
    | some found =>
      have hfold : ∀ (chunks : List Term) (left : Term), ∃ t,
          chunks.foldlM (fun left right => do
            let (symbol, sortArguments) ← some found
            return Term.mkApplication symbol sortArguments [left, right]) left = some t ∧
          ∀ {V : Type} (I : AcInterpretation V),
            I.contents t = I.contents left + total I.contents chunks := by
        intro chunks
        induction chunks with
        | nil => exact fun left => ⟨left, rfl, fun I => (add_zero _).symm⟩
        | cons right chunks ih =>
          intro left
          obtain ⟨t, ht, hcontents⟩ :=
            ih (Term.mkApplication found.1 found.2 [left, right])
          refine ⟨t, ht, fun I => ?_⟩
          rw [hcontents, I.contents_mkApplication (h.concatenates found rfl), total_cons, add_assoc]
      obtain ⟨t, ht, hcontents⟩ := hfold chunks first
      refine ⟨some t, ?_, fun I => ?_⟩
      · rw [rebuildOpaqueChunks, ht]
        rfl
      · exact (hcontents I).trans (total_cons ..).symm

end Flattening

section Cancelling

/-- The sets of a small definition, and the union of two that are variables. -/
def smallSets : SetDefinition := ⟨⟨"unit", "element", "concat"⟩, Term.simpleSort "Item", "Set"⟩

def smallConcat : TermSymbol where
  name := "concat"
  sortVariables := []
  argumentSorts := [Term.simpleSort "Set", Term.simpleSort "Set"]
  resultSort := Term.simpleSort "Set"
  attributes := { SymbolAttributes.ofConstructor with collection := some (.set smallSets) }

def setNamed (name : String) : TermVariable := ⟨.element, Term.simpleSort "Set", name⟩

def unionOf (left right : String) : Term :=
  .application smallConcat [] [.var (setNamed left), .var (setNamed right)]

theorem concatenated_unionOf (left right : String) : Concatenated "concat" (unionOf left right) :=
  fun _ => ⟨.set smallSets rfl rfl, trivial, trivial⟩

/-- Cancelling never stops, and it keeps the equation between defined collections. -/
theorem cancelCommonOpaqueChunks_equivalent {left right : Option Term} {concat : String}
    (hleft : ∀ t ∈ left, Concatenated concat t) (hright : ∀ t ∈ right, Concatenated concat t) :
    ∃ left' right', cancelCommonOpaqueChunks left right concat = some (left', right') ∧
      ∀ {V : Type} (I : AcInterpretation V), AcInterpretation.Defined (I.restContents left) →
        AcInterpretation.Defined (I.restContents right) →
          (I.restContents left = I.restContents right ↔
            I.restContents left' = I.restContents right') := by
  let leftChunks := (flattenOpaqueChunks left concat).1
  let rightChunks := (flattenOpaqueChunks right concat).1
  let common := leftChunks.filter fun t => decide (t ∈ rightChunks)
  have hleftKept : leftChunks.filter (fun t => !decide (t ∈ common)) =
      leftChunks.filter fun t => !decide (t ∈ rightChunks) := by
    refine List.filter_congr fun t ht => ?_
    simp only [common, List.mem_filter, ht, true_and, decide_eq_true_eq]
  have hrightKept : rightChunks.filter (fun t => !decide (t ∈ common)) =
      rightChunks.filter fun t => !decide (t ∈ leftChunks) := by
    refine List.filter_congr fun t ht => ?_
    simp only [common, List.mem_filter, ht, decide_true, and_true]
  have hchunked : ∀ {rest : Option Term} (p : Term → Bool),
      (∀ t ∈ rest, Concatenated concat t) →
        Chunked (((flattenOpaqueChunks rest concat).1.filter p).mergeSort fun a b => decide (a ≤ b))
          (flattenOpaqueChunks rest concat).2 := by
    intro rest p hrest
    refine (chunked_flatten hrest).shorter ?_
    rw [List.length_mergeSort]
    exact List.length_filter_le p _
  obtain ⟨left', hleft', hleftHeld⟩ :=
    rebuild_spec (hchunked (fun t => !decide (t ∈ common)) hleft)
  obtain ⟨right', hright', hrightHeld⟩ :=
    rebuild_spec (hchunked (fun t => !decide (t ∈ common)) hright)
  refine ⟨left', right', ?_, fun I hdefined hdefined' => ?_⟩
  · have hcancel : cancelCommonOpaqueChunks left right concat =
        (rebuildOpaqueChunks ((leftChunks.filter fun t => !decide (t ∈ common)).mergeSort
          fun a b => decide (a ≤ b)) (flattenOpaqueChunks left concat).2).bind fun left =>
        (rebuildOpaqueChunks ((rightChunks.filter fun t => !decide (t ∈ common)).mergeSort
          fun a b => decide (a ≤ b)) (flattenOpaqueChunks right concat).2).bind fun right =>
            some (left, right) := rfl
    rw [hcancel, hleft', hright']
    rfl
  · rw [← total_flatten I hleft] at hdefined ⊢
    rw [← total_flatten I hright] at hdefined' ⊢
    rw [hleftHeld, hrightHeld, total_perm I.contents (List.mergeSort_perm ..),
      total_perm I.contents (List.mergeSort_perm ..), hleftKept, hrightKept]
    exact total_eq_iff_of_common I.contents hdefined hdefined'

/-- One set of two is on both sides. -/
theorem cancelCommonOpaqueChunks_equivalent_of_shared :
    ∃ left' right', cancelCommonOpaqueChunks (some (unionOf "X" "Y")) (some (unionOf "Y" "Z"))
        "concat" = some (left', right') ∧
      ∀ {V : Type} (I : AcInterpretation V),
        AcInterpretation.Defined (I.restContents (some (unionOf "X" "Y"))) →
        AcInterpretation.Defined (I.restContents (some (unionOf "Y" "Z"))) →
          (I.restContents (some (unionOf "X" "Y")) = I.restContents (some (unionOf "Y" "Z")) ↔
            I.restContents left' = I.restContents right') :=
  cancelCommonOpaqueChunks_equivalent
    (fun _ h => Option.some.inj h ▸ concatenated_unionOf "X" "Y")
    (fun _ h => Option.some.inj h ▸ concatenated_unionOf "Y" "Z")

end Cancelling

section Merging

/-- Interpretations under valuations of the variables: a term depends on its variables only, and
each collection without repeated keys is the value of one. -/
structure AcModel (V D : Type) where
  under : (TermVariable → D) → AcInterpretation V
  held : D → Multiset (V × Option V)
  contents_var : ∀ ρ v, (under ρ).contents (.var v) = held (ρ v)
  contents_congr : ∀ t ρ ρ', (∀ v ∈ t.vars, ρ v = ρ' v) →
    (under ρ).contents t = (under ρ').contents t
  value_congr : ∀ t ρ ρ', (∀ v ∈ t.vars, ρ v = ρ' v) → (under ρ).value t = (under ρ').value t
  collect : ∀ m, AcInterpretation.Defined m → ∃ d, held d = m

variable {free : TermVariable → Bool} {items : AcItems} {parts : List Term}

/-- A part is a variable that may be chosen and that occurs nowhere else in the pattern. -/
structure FreeAt (free : TermVariable → Bool) (items : AcItems) (parts : List Term) (index : Nat)
    (v : TermVariable) : Prop where
  part : parts[index]? = some (.var v)
  chosen : free v = true
  items : items.occurs v = false
  parts : ∀ part other, parts[other]? = some part → other ≠ index → v ∉ part.vars

theorem freePart_eq_some {entry : Term × Nat} (hentry : entry ∈ parts.zipIdx) {index : Nat}
    {v : TermVariable} : freePart free items parts entry = some (index, v) ↔
      entry = (.var v, index) ∧ FreeAt free items parts index v := by
  obtain ⟨part, position⟩ := entry
  have hat := List.mem_zipIdx_iff_getElem?.mp hentry
  have hall : ∀ (w : TermVariable), (parts.zipIdx.all fun entry =>
      decide (entry.2 = position) || !decide (w ∈ entry.1.attributes.vars)) = true ↔
        ∀ part other, parts[other]? = some part → other ≠ position → w ∉ part.vars := by
    intro w
    rw [List.all_eq_true]
    constructor
    · intro hall part other hother hne hmem
      have hentry := hall (part, other) (List.mem_zipIdx_iff_getElem?.mpr hother)
      simp [hne, mem_attributes_vars, hmem] at hentry
    · intro hfree entry hentry
      have hother := List.mem_zipIdx_iff_getElem?.mp hentry
      by_cases hne : entry.2 = position
      · simp [hne]
      · simp [hne, mem_attributes_vars, hfree entry.1 entry.2 hother hne]
  cases part with
  | var w =>
    simp only [freePart]
    split
    · next hcond =>
      rw [Bool.and_eq_true, Bool.and_eq_true, Bool.not_eq_true'] at hcond
      obtain ⟨⟨hchosen, hitems⟩, hparts⟩ := hcond
      constructor
      · intro h
        cases h
        exact ⟨rfl, hat, hchosen, hitems, (hall _).mp hparts⟩
      · rintro ⟨h, -⟩
        cases h
        rfl
    · next hcond =>
      constructor
      · intro h
        cases h
      · rintro ⟨h, hfree⟩
        cases h
        refine absurd ?_ hcond
        rw [Bool.and_eq_true, Bool.and_eq_true, Bool.not_eq_true']
        exact ⟨⟨hfree.chosen, hfree.items⟩, (hall _).mpr hfree.parts⟩
  | _ =>
    constructor
    · intro h
      cases h
    · rintro ⟨h, -⟩
      cases h

theorem mem_mergedParts {index : Nat} {v : TermVariable} :
    (index, v) ∈ mergedParts free items parts ↔ FreeAt free items parts index v := by
  rw [mergedParts, List.mem_filterMap]
  constructor
  · rintro ⟨entry, hentry, h⟩
    exact ((freePart_eq_some hentry).mp h).2
  · intro h
    have hentry : (.var v, index) ∈ parts.zipIdx := List.mem_zipIdx_iff_getElem?.mpr h.part
    exact ⟨_, hentry, (freePart_eq_some hentry).mpr ⟨rfl, h⟩⟩

theorem nodup_mergedParts : ((mergedParts free items parts).map Prod.fst).Nodup := by
  have hsorted : parts.zipIdx.Pairwise fun a b => a.2 < b.2 := by
    rw [← List.pairwise_map (R := (· < ·)), List.zipIdx_map_snd]
    exact List.pairwise_lt_range'
  rw [List.Nodup, List.pairwise_map, mergedParts, List.pairwise_filterMap]
  refine hsorted.imp_of_mem fun ha hb hlt found hfound other hother heq => ?_
  have hfound' := ((freePart_eq_some ha).mp hfound).1
  have hother' := ((freePart_eq_some hb).mp hother).1
  rw [hfound', hother', heq] at hlt
  exact Nat.lt_irrefl _ hlt

section Held

variable {V : Type} (I : AcInterpretation V)

/-- What the items of a pattern hold. -/
def AcItems.held : AcItems → Multiset (V × Option V)
  | .set _ elements =>
    ((elements.map fun element => (I.value element, none) : List (V × Option V)) : Multiset _)
  | .map _ entries =>
    ((entries.map fun entry => (I.value entry.1, some (I.value entry.2)) :
      List (V × Option V)) : Multiset _)

theorem contents_withRest (items : AcItems) (rest : Option Term) :
    I.contents (items.withRest rest) = items.held I + I.restContents rest := by
  cases items with
  | set d elements => exact I.contents_setOfItems d elements rest
  | map d entries => exact I.contents_mapOfItems d entries rest

theorem contents_empty (items : AcItems) : I.contents items.empty = 0 := by
  cases items with
  | set d elements =>
    rw [AcItems.empty, Term.mkSet, List.mergeSort_nil, I.contents_setOfItems]
    rfl
  | map d entries =>
    rw [AcItems.empty, Term.mkMap, List.mergeSort_nil, I.contents_mapOfItems]
    rfl

theorem contents_acPattern {pattern rest : Term} {items : AcItems}
    (h : acPattern pattern = some (items, rest)) :
    I.contents pattern = items.held I + I.contents rest := by
  unfold acPattern at h
  split at h
  · cases h
    exact I.contents_set _ _ _
  · cases h
    exact I.contents_map _ _ _
  · split at h
    · split at h
      · cases h
        exact (zero_add _).symm
      · cases h
    · split at h
      · cases h
        exact (zero_add _).symm
      · cases h
    · cases h
  · cases h

end Held

theorem occurs_iff {v : TermVariable} : items.occurs v = true ↔
    (∃ d elements, items = .set d elements ∧ ∃ e ∈ elements, v ∈ e.vars) ∨
      ∃ d entries, items = .map d entries ∧ ∃ e ∈ entries, v ∈ e.1.vars ∨ v ∈ e.2.vars := by
  cases items <;> simp [AcItems.occurs, mem_attributes_vars]

variable {V D : Type} (M : AcModel V D)

/-- The items depend on the variables that occur in them. -/
theorem AcModel.items_congr {ρ ρ' : TermVariable → D}
    (h : ∀ v, items.occurs v = true → ρ v = ρ' v) :
    items.held (M.under ρ) = items.held (M.under ρ') := by
  cases items with
  | set d elements =>
    refine congrArg Multiset.ofList (List.map_congr_left fun e he => Prod.ext ?_ rfl)
    refine M.value_congr e ρ ρ' fun v hv => h v (occurs_iff.mpr (.inl ?_))
    exact ⟨d, elements, rfl, e, he, hv⟩
  | map d entries =>
    refine congrArg Multiset.ofList
      (List.map_congr_left fun e he => Prod.ext ?_ (congrArg Option.some ?_))
    · refine M.value_congr e.1 ρ ρ' fun v hv => h v (occurs_iff.mpr (.inr ?_))
      exact ⟨d, entries, rfl, e, he, .inl hv⟩
    · refine M.value_congr e.2 ρ ρ' fun v hv => h v (occurs_iff.mpr (.inr ?_))
      exact ⟨d, entries, rfl, e, he, .inr hv⟩

/-- The parts that are no free variables. -/
def otherParts (free : TermVariable → Bool) (items : AcItems) (parts : List Term) :
    List (Term × Nat) :=
  parts.zipIdx.filter fun entry => (freePart free items parts entry).isNone

/-- The parts hold what the free ones and the others do. -/
theorem AcModel.total_parts (ρ : TermVariable → D) :
    total (M.under ρ).contents parts =
      total (fun found : Nat × TermVariable => M.held (ρ found.2)) (mergedParts free items parts) +
        total (fun entry : Term × Nat => (M.under ρ).contents entry.1)
          (otherParts free items parts) := by
  have hparts : total (M.under ρ).contents parts =
      total (fun entry : Term × Nat => (M.under ρ).contents entry.1) parts.zipIdx := by
    rw [total, total]
    conv_lhs => rw [← List.zipIdx_map_fst 0 parts, List.map_map]
    rfl
  rw [hparts]
  refine total_filterMap _ _ _ fun entry hentry found hfound => ?_
  obtain ⟨rfl, -⟩ := (freePart_eq_some hentry).mp hfound
  exact M.contents_var ρ found.2

/-- The parts but for the dropped ones hold what the first free one and the others do. -/
theorem AcModel.total_kept (ρ : TermVariable → D) {first : Nat × TermVariable}
    {dropped : List (Nat × TermVariable)}
    (h : mergedParts free items parts = first :: dropped) :
    total (M.under ρ).contents ((parts.zipIdx.filter fun entry =>
        !dropped.any fun found => decide (found.1 = entry.2)).map Prod.fst) =
      M.held (ρ first.2) + total (fun entry : Term × Nat => (M.under ρ).contents entry.1)
        (otherParts free items parts) := by
  let keep : Nat → Bool := fun index => !dropped.any fun found => decide (found.1 = index)
  have hnodup : ((first :: dropped).map Prod.fst).Nodup := h ▸ nodup_mergedParts
  have hfirst : keep first.1 = true := by
    rw [Bool.not_eq_true', List.any_eq_false]
    intro found hfound heq
    rw [List.map_cons, List.nodup_cons] at hnodup
    exact hnodup.1 (List.mem_map.mpr ⟨found, hfound, of_decide_eq_true heq⟩)
  have hmerged : (parts.zipIdx.filter fun entry => keep entry.2).filterMap
      (freePart free items parts) = [first] := by
    have hkeep : (parts.zipIdx.filter fun entry => keep entry.2).filterMap
        (freePart free items parts) =
          (mergedParts free items parts).filter fun found => keep found.1 := by
      rw [mergedParts, List.filter_filterMap, List.filterMap_filter]
      refine List.filterMap_congr fun entry hentry => ?_
      cases hpart : freePart free items parts entry with
      | none => simp
      | some found =>
        obtain ⟨rfl, -⟩ := (freePart_eq_some hentry).mp hpart
        simp [Option.filter]
    have hdropped : dropped.filter (fun found => keep found.1) = [] := by
      refine List.filter_eq_nil_iff.mpr fun found hfound hkept => ?_
      rw [Bool.not_eq_true', List.any_eq_false] at hkept
      exact hkept found hfound (decide_eq_true rfl)
    rw [hkeep, h, List.filter_cons, if_pos hfirst, hdropped]
  have hothers : (parts.zipIdx.filter fun entry => keep entry.2).filter
      (fun entry => (freePart free items parts entry).isNone) =
        otherParts free items parts := by
    rw [List.filter_filter, otherParts]
    refine List.filter_congr fun entry hentry => ?_
    cases hpart : freePart free items parts entry with
    | some found => rfl
    | none =>
      have hkept : keep entry.2 = true := by
        rw [Bool.not_eq_true', List.any_eq_false]
        intro found hfound heq
        have hmem : found ∈ mergedParts free items parts := h ▸ List.mem_cons_of_mem _ hfound
        have hfree := mem_mergedParts.mp hmem
        have hat := List.mem_zipIdx_iff_getElem?.mp hentry
        rw [of_decide_eq_true heq] at hfree
        have hsome := (freePart_eq_some hentry).mpr
          ⟨Prod.ext (Option.some.inj (hat.symm.trans hfree.part)) rfl, hfree⟩
        rw [hpart] at hsome
        cases hsome
      rw [hkept]
      rfl
  let kept := parts.zipIdx.filter fun entry => keep entry.2
  have hcontents : ∀ entry ∈ kept, ∀ found ∈ freePart free items parts entry,
      (M.under ρ).contents entry.1 = M.held (ρ found.2) := by
    intro entry hentry found hfound
    obtain ⟨rfl, -⟩ := (freePart_eq_some (List.mem_of_mem_filter hentry)).mp hfound
    exact M.contents_var ρ found.2
  have htotal := total_filterMap _ _ _ hcontents
  rw [hmerged, hothers, total_cons, total_nil, add_zero] at htotal
  rw [← htotal, total, total, List.map_map]
  rfl

/-- The collection that merges the parts of a pattern, and what `merge_free_parts` makes of it. -/
structure Merging (pattern : Term) (free : TermVariable → Bool) (merged : Term)
    (bindings : List (TermVariable × Term)) where
  items : AcItems
  rest : Term
  first : Nat × TermVariable
  dropped : List (Nat × TermVariable)
  kept : Option Term
  pattern_eq : acPattern pattern = some (items, rest)
  merged_eq : mergedParts free items (flattenOpaqueChunks (some rest) items.concat).1 =
    first :: dropped
  kept_eq : rebuildOpaqueChunks
    (((flattenOpaqueChunks (some rest) items.concat).1.zipIdx.filter fun entry =>
      !dropped.any fun found => decide (found.1 = entry.2)).map Prod.fst)
    (flattenOpaqueChunks (some rest) items.concat).2 = some kept
  result : merged = items.withRest kept
  bindings_eq : bindings = dropped.map fun found => (found.2, items.empty)

/-- The parts that the pattern has beside its items. -/
abbrev Merging.flattened {pattern merged : Term} {free : TermVariable → Bool}
    {bindings : List (TermVariable × Term)} (m : Merging pattern free merged bindings) :
    List Term :=
  (flattenOpaqueChunks (some m.rest) m.items.concat).1

theorem exists_merging {pattern merged : Term} {free : TermVariable → Bool}
    {bindings : List (TermVariable × Term)}
    (h : mergeFreeParts pattern free = some (some (merged, bindings))) :
    Nonempty (Merging pattern free merged bindings) := by
  unfold mergeFreeParts at h
  cases hpattern : acPattern pattern with
  | none =>
    rw [hpattern] at h
    cases h
  | some found =>
    obtain ⟨items, rest⟩ := found
    cases hmerged : mergedParts free items (flattenOpaqueChunks (some rest) items.concat).1 with
    | nil =>
      simp only [hpattern, hmerged] at h
      cases h
    | cons first dropped =>
      simp only [hpattern, hmerged] at h
      split at h
      · cases h
      · obtain ⟨kept, hkept, h⟩ := Option.bind_eq_some_iff.mp h
        cases h
        exact ⟨⟨items, rest, first, dropped, kept, hpattern, hmerged, hkept, rfl, rfl⟩⟩

/-- What the pattern holds, and what the merged one does, under a valuation. -/
theorem Merging.contents {pattern merged : Term} {bindings : List (TermVariable × Term)}
    (m : Merging pattern free merged bindings) (hrest : Concatenated m.items.concat m.rest)
    (ρ : TermVariable → D) :
    (M.under ρ).contents pattern = m.items.held (M.under ρ) + (M.held (ρ m.first.2) +
        total (fun found : Nat × TermVariable => M.held (ρ found.2)) m.dropped +
          total (fun entry : Term × Nat => (M.under ρ).contents entry.1)
            (otherParts free m.items m.flattened)) ∧
      (M.under ρ).contents merged = m.items.held (M.under ρ) + (M.held (ρ m.first.2) +
        total (fun entry : Term × Nat => (M.under ρ).contents entry.1)
          (otherParts free m.items m.flattened)) := by
  have hflat : ∀ t ∈ some m.rest, Concatenated m.items.concat t := by
    intro t ht
    cases ht
    exact hrest
  constructor
  · rw [contents_acPattern (M.under ρ) m.pattern_eq]
    have hparts : total (M.under ρ).contents m.flattened =
        total (fun found : Nat × TermVariable => M.held (ρ found.2))
          (mergedParts free m.items m.flattened) + _ := M.total_parts ρ
    rw [total_flatten (M.under ρ) hflat, m.merged_eq, total_cons] at hparts
    exact congrArg _ hparts
  · have hshorter : ((m.flattened.zipIdx.filter fun entry =>
        !m.dropped.any fun found => decide (found.1 = entry.2)).map Prod.fst).length ≤
          m.flattened.length := by
      rw [List.length_map]
      refine (List.length_filter_le _ _).trans_eq ?_
      rw [List.length_zipIdx]
    obtain ⟨kept, hkept, hheld⟩ := rebuild_spec ((chunked_flatten hflat).shorter hshorter)
    rw [m.kept_eq] at hkept
    cases hkept
    have hresult := congrArg (M.under ρ).contents m.result
    rw [contents_withRest, hheld, M.total_kept ρ m.merged_eq] at hresult
    exact hresult

/-- A free part occurs in no other one. -/
theorem not_merged_of_other {entry : Term × Nat} (h : entry ∈ otherParts free items parts)
    {v : TermVariable} (hv : v ∈ entry.1.vars) (index : Nat) :
    (index, v) ∉ mergedParts free items parts := by
  intro hmerged
  have hfree := mem_mergedParts.mp hmerged
  obtain ⟨hentry, hnone⟩ := List.mem_filter.mp h
  have hat := List.mem_zipIdx_iff_getElem?.mp hentry
  by_cases hindex : entry.2 = index
  · rw [hindex, hfree.part] at hat
    have hsome := (freePart_eq_some hentry).mpr ⟨Prod.ext (Option.some.inj hat).symm hindex, hfree⟩
    rw [hsome] at hnone
    cases hnone
  · exact hfree.parts entry.1 entry.2 hat hindex hv

theorem FreeAt.eq_of_same {index other : Nat} {v : TermVariable}
    (h : FreeAt free items parts index v) (h' : FreeAt free items parts other v) :
    other = index := by
  by_contra hne
  exact h.parts _ other h'.part hne (by simp [Term.vars])

section Gathering

variable {pattern merged : Term} {bindings : List (TermVariable × Term)}
  (w : Merging pattern free merged bindings)

theorem Merging.freeAt_first : FreeAt free w.items w.flattened w.first.1 w.first.2 :=
  mem_mergedParts.mp (w.merged_eq ▸ List.mem_cons_self)

theorem Merging.freeAt_dropped {found : Nat × TermVariable} (h : found ∈ w.dropped) :
    FreeAt free w.items w.flattened found.1 found.2 :=
  mem_mergedParts.mp (w.merged_eq ▸ List.mem_cons_of_mem _ h)

theorem Merging.dropped_ne_first {found : Nat × TermVariable} (h : found ∈ w.dropped) :
    found.2 ≠ w.first.2 := by
  intro heq
  have hsame := (heq ▸ w.freeAt_dropped h : FreeAt _ _ _ _ w.first.2)
  have hindex := w.freeAt_first.eq_of_same hsame
  have hnodup : ((mergedParts free w.items w.flattened).map Prod.fst).Nodup := nodup_mergedParts
  rw [w.merged_eq, List.map_cons, List.nodup_cons] at hnodup
  exact hnodup.1 (List.mem_map.mpr ⟨found, h, hindex⟩)

/-- Two valuations that differ on free parts only. -/
def Merging.Agree (ρ ρ' : TermVariable → D) : Prop :=
  ∀ v, (∀ index, (index, v) ∉ mergedParts free w.items w.flattened) → ρ v = ρ' v

/-- The first free part takes what all of them hold, and the dropped ones hold nothing. -/
theorem Merging.exists_gathered (ρ : TermVariable → D) {m : Multiset (V × Option V)}
    (hm : AcInterpretation.Defined m)
    (hle : M.held (ρ w.first.2) + total (fun found : Nat × TermVariable => M.held (ρ found.2))
      w.dropped ≤ m) :
    ∃ ρ', w.Agree ρ' ρ ∧ (∀ found ∈ w.dropped, M.held (ρ' found.2) = 0) ∧
      M.held (ρ' w.first.2) = M.held (ρ w.first.2) +
        total (fun found : Nat × TermVariable => M.held (ρ found.2)) w.dropped := by
  obtain ⟨all, hall⟩ := M.collect _ (Distinct.mono hm hle)
  obtain ⟨none, hnone⟩ := M.collect 0 Distinct.zero
  let ρ' : TermVariable → D := fun v =>
    if v = w.first.2 then all else if v ∈ w.dropped.map Prod.snd then none else ρ v
  refine ⟨ρ', ?_, ?_, (congrArg M.held (if_pos rfl)).trans hall⟩
  · intro v hv
    have hnotFirst : v ≠ w.first.2 := by
      rintro rfl
      exact hv w.first.1 (mem_mergedParts.mpr w.freeAt_first)
    have hnotDropped : v ∉ w.dropped.map Prod.snd := by
      rintro hmem
      obtain ⟨found, hfound, rfl⟩ := List.mem_map.mp hmem
      exact hv found.1 (mem_mergedParts.mpr (w.freeAt_dropped hfound))
    exact (if_neg hnotFirst).trans (if_neg hnotDropped)
  · intro found hfound
    have hmem : found.2 ∈ w.dropped.map Prod.snd := List.mem_map_of_mem hfound
    have hnot := w.dropped_ne_first hfound
    exact (congrArg M.held ((if_neg hnot).trans (if_pos hmem))).trans hnone

/-- What is beside the free parts holds the same. -/
theorem Merging.Agree.contents_merged {ρ ρ' : TermVariable → D} (h : w.Agree ρ' ρ)
    (hrest : Concatenated w.items.concat w.rest) :
    (M.under ρ').contents merged = w.items.held (M.under ρ) + (M.held (ρ' w.first.2) +
      total (fun entry : Term × Nat => (M.under ρ).contents entry.1)
        (otherParts free w.items w.flattened)) := by
  have hitems : w.items.held (M.under ρ') = w.items.held (M.under ρ) := by
    refine M.items_congr fun v hv => h v fun index hmem => ?_
    rw [(mem_mergedParts.mp hmem).items] at hv
    cases hv
  have hothers : total (fun entry : Term × Nat => (M.under ρ').contents entry.1)
      (otherParts free w.items w.flattened) =
        total (fun entry : Term × Nat => (M.under ρ).contents entry.1)
          (otherParts free w.items w.flattened) :=
    total_congr _ fun entry hentry => M.contents_congr _ _ _ fun v hv =>
      h v (not_merged_of_other hentry hv)
  rw [(w.contents M hrest ρ').2, hitems, hothers]

/-- The dropped parts are bound to the empty collection. -/
theorem Merging.bindings_iff (ρ : TermVariable → D) :
    (∀ b ∈ bindings, M.held (ρ b.1) = (M.under ρ).contents b.2) ↔
      ∀ found ∈ w.dropped, M.held (ρ found.2) = 0 := by
  refine (iff_of_eq (congrArg (fun found : List (TermVariable × Term) =>
    ∀ b ∈ found, M.held (ρ b.1) = (M.under ρ).contents b.2) w.bindings_eq)).trans ?_
  rw [List.forall_mem_map]
  simp only [contents_empty]

end Gathering

/-- The pattern has a solution exactly when the merged one has one in which the dropped parts are
empty; only variables that may be chosen are. -/
theorem mergeFreeParts_exact {pattern merged : Term} {bindings : List (TermVariable × Term)}
    (hpattern : ∀ found ∈ acPattern pattern, Concatenated found.1.concat found.2)
    (h : mergeFreeParts pattern free = some (some (merged, bindings))) (ρ : TermVariable → D)
    {m : Multiset (V × Option V)} (hm : AcInterpretation.Defined m) :
    (∃ ρ', (∀ v, free v = false → ρ' v = ρ v) ∧ (M.under ρ').contents pattern = m) ↔
      ∃ ρ', (∀ v, free v = false → ρ' v = ρ v) ∧ (M.under ρ').contents merged = m ∧
        ∀ b ∈ bindings, M.held (ρ' b.1) = (M.under ρ').contents b.2 := by
  obtain ⟨w⟩ := exists_merging h
  have hrest := hpattern _ w.pattern_eq
  constructor
  · rintro ⟨ρ', hρ', hcontents⟩
    rw [(w.contents M hrest ρ').1] at hcontents
    have hle : M.held (ρ' w.first.2) + total (fun found : Nat × TermVariable =>
        M.held (ρ' found.2)) w.dropped ≤ m := by
      rw [← hcontents]
      exact (Multiset.le_add_right _ _).trans (Multiset.le_add_left _ _)
    obtain ⟨ρ'', hagree, hempty, hheld⟩ := w.exists_gathered M ρ' hm hle
    refine ⟨ρ'', fun v hv => ?_, ?_, (w.bindings_iff M ρ'').mpr hempty⟩
    · -- A variable that is not accepted is no free part.
      rw [← hρ' v hv]
      refine hagree v fun index hmem => ?_
      rw [(mem_mergedParts.mp hmem).chosen] at hv
      cases hv
    · rw [hagree.contents_merged M w hrest, hheld, hcontents]
  · rintro ⟨ρ', hρ', hcontents, hempty⟩
    refine ⟨ρ', hρ', ?_⟩
    have hzero : total (fun found : Nat × TermVariable => M.held (ρ' found.2)) w.dropped = 0 := by
      rw [total]
      exact List.sum_eq_zero (List.forall_mem_map.mpr ((w.bindings_iff M ρ').mp hempty))
    rw [(w.contents M hrest ρ').1, hzero, add_zero, ← (w.contents M hrest ρ').2, hcontents]

theorem two_freeAt_iff : (∃ index v other w, index ≠ other ∧ FreeAt free items parts index v ∧
    FreeAt free items parts other w) ↔ 1 < (mergedParts free items parts).length := by
  constructor
  · rintro ⟨index, v, other, w, hne, hv, hw⟩
    have hv := mem_mergedParts.mpr hv
    have hw := mem_mergedParts.mpr hw
    rcases hmerged : mergedParts free items parts with _ | ⟨first, _ | ⟨second, rest⟩⟩
    · rw [hmerged] at hv
      cases hv
    · rw [hmerged, List.mem_singleton] at hv hw
      exact absurd (congrArg Prod.fst (hv.trans hw.symm)) hne
    · simp
  · intro hlength
    have hnodup : ((mergedParts free items parts).map Prod.fst).Nodup := nodup_mergedParts
    have hfree : ∀ found ∈ mergedParts free items parts,
        FreeAt free items parts found.1 found.2 := fun found h => mem_mergedParts.mp h
    rcases hmerged : mergedParts free items parts with _ | ⟨first, _ | ⟨second, rest⟩⟩
    · simp [hmerged] at hlength
    · simp [hmerged] at hlength
    · rw [hmerged] at hnodup hfree
      refine ⟨first.1, first.2, second.1, second.2, ?_, hfree first (by simp),
        hfree second (by simp)⟩
      simp only [List.map_cons, List.nodup_cons, List.mem_cons, not_or] at hnodup
      exact hnodup.1.1

/-- Merging never stops; it merges exactly where two parts are free. -/
theorem mergeFreeParts_isSome_iff {pattern : Term}
    (hpattern : ∀ found ∈ acPattern pattern, Concatenated found.1.concat found.2) :
    ∃ found, mergeFreeParts pattern free = some found ∧ (found.isSome = true ↔
      ∃ items rest, acPattern pattern = some (items, rest) ∧ ∃ index v other w, index ≠ other ∧
        FreeAt free items (flattenOpaqueChunks (some rest) items.concat).1 index v ∧
        FreeAt free items (flattenOpaqueChunks (some rest) items.concat).1 other w) := by
  cases hac : acPattern pattern with
  | none =>
    refine ⟨none, by rw [mergeFreeParts, hac], by simp, ?_⟩
    rintro ⟨items, rest, h, -⟩
    cases h
  | some found =>
    obtain ⟨items, rest⟩ := found
    have hflat : ∀ t ∈ some rest, Concatenated items.concat t := by
      intro t ht
      cases ht
      exact hpattern _ hac
    have htwo : (∃ items' rest', some (items, rest) = some (items', rest') ∧
        ∃ index v other w, index ≠ other ∧
          FreeAt free items' (flattenOpaqueChunks (some rest') items'.concat).1 index v ∧
          FreeAt free items' (flattenOpaqueChunks (some rest') items'.concat).1 other w) ↔
        1 < (mergedParts free items (flattenOpaqueChunks (some rest) items.concat).1).length := by
      rw [← two_freeAt_iff]
      constructor
      · rintro ⟨items', rest', heq, h⟩
        cases heq
        exact h
      · exact fun h => ⟨items, rest, rfl, h⟩
    rw [htwo]
    rcases hmerged : mergedParts free items (flattenOpaqueChunks (some rest) items.concat).1 with
      _ | ⟨first, _ | ⟨second, dropped⟩⟩
    · exact ⟨none, by simp only [mergeFreeParts, hac, hmerged], by simp⟩
    · refine ⟨none, ?_, by simp⟩
      simp only [mergeFreeParts, hac, hmerged]
      rfl
    · have hshorter : (((flattenOpaqueChunks (some rest) items.concat).1.zipIdx.filter
          fun entry => !(second :: dropped).any fun found =>
            decide (found.1 = entry.2)).map Prod.fst).length ≤
              (flattenOpaqueChunks (some rest) items.concat).1.length := by
        rw [List.length_map]
        refine (List.length_filter_le _ _).trans_eq ?_
        rw [List.length_zipIdx]
      obtain ⟨kept, hkept, -⟩ := rebuild_spec ((chunked_flatten hflat).shorter hshorter)
      refine ⟨some (items.withRest kept,
        (second :: dropped).map fun found => (found.2, items.empty)), ?_, by simp⟩
      simp only [mergeFreeParts, hac, hmerged]
      exact Option.bind_eq_some_iff.mpr ⟨kept, hkept, rfl⟩

section Syntactic

open Classical in
/-- The contents of terms whose elements stand for themselves. -/
noncomputable def syntacticContents (ρ : TermVariable → Multiset (Term × Option Term)) :
    Term → Multiset (Term × Option Term)
  | .var v => ρ v
  | .set _ elements none => .ofList (elements.map fun e => (e, none))
  | .set _ elements (some rest) =>
    .ofList (elements.map fun e => (e, none)) + syntacticContents ρ rest
  | .map _ entries none => .ofList (entries.map fun e => (e.1, some e.2))
  | .map _ entries (some rest) =>
    .ofList (entries.map fun e => (e.1, some e.2)) + syntacticContents ρ rest
  | .application symbol _ [left, right] =>
    if Concatenates symbol then syntacticContents ρ left + syntacticContents ρ right else 0
  | _ => 0

/-- Each term stands for itself, and each collection may be chosen. -/
noncomputable def AcModel.syntactic : AcModel Term (Multiset (Term × Option Term)) where
  under ρ :=
    { value := id
      contents := syntacticContents ρ
      contents_set := by
        intro d elements rest
        cases rest with
        | none => exact (add_zero _).symm
        | some rest => rfl
      contents_map := by
        intro d entries rest
        cases rest with
        | none => exact (add_zero _).symm
        | some rest => rfl
      contents_concat := by
        intro symbol sortArguments left right h
        exact if_pos h }
  held := id
  contents_var ρ v := rfl
  contents_congr t ρ ρ' h := by
    change syntacticContents ρ t = syntacticContents ρ' t
    fun_induction syntacticContents ρ t with
    | case1 v => exact h v (by simp [Term.vars])
    | case2 => rfl
    | case3 d elements rest ih =>
      refine congrArg (Multiset.ofList (elements.map fun e => (e, none)) + ·) (ih fun v hv => ?_)
      exact h v (by simp [Term.vars, Term.varsOfRest_eq, hv])
    | case4 => rfl
    | case5 d entries rest ih =>
      refine congrArg (Multiset.ofList (entries.map fun e => (e.1, some e.2)) + ·)
        (ih fun v hv => ?_)
      exact h v (by simp [Term.vars, Term.varsOfRest_eq, hv])
    | case6 symbol sortArguments left right hsymbol ihl ihr =>
      refine Eq.trans ?_ (if_pos hsymbol).symm
      refine congrArg₂ (· + ·) (ihl fun v hv => h v ?_) (ihr fun v hv => h v ?_)
      · simp [Term.vars, Term.varsOf_eq, hv]
      · simp [Term.vars, Term.varsOf_eq, hv]
    | case7 symbol sortArguments left right hsymbol => exact (if_neg hsymbol).symm
    | case8 => simp_all [syntacticContents]
  value_congr t ρ ρ' h := rfl
  collect m _ := ⟨m, rfl⟩

theorem acPattern_unionOf : acPattern (unionOf "X" "Y") =
    some (.set smallSets [], unionOf "X" "Y") := by
  simp [acPattern, unionOf, smallConcat, smallSets]

theorem mergeFreeParts_of_two :
    mergeFreeParts (unionOf "X" "Y") (fun v => decide (v.sort = Term.simpleSort "Set")) =
      some (some (.var (setNamed "X"), [(setNamed "Y", AcItems.empty (.set smallSets []))])) := by
  have hflat : flattenOpaqueChunks (some (unionOf "X" "Y")) "concat" =
      ([.var (setNamed "X"), .var (setNamed "Y")], some (smallConcat, [])) := by
    simp [flattenOpaqueChunks, visitChunks, unionOf, smallConcat]
  have hmerged : mergedParts (fun v => decide (v.sort = Term.simpleSort "Set"))
      (.set smallSets []) [.var (setNamed "X"), .var (setNamed "Y")] =
        [(0, setNamed "X"), (1, setNamed "Y")] := by
    simp [mergedParts, freePart, AcItems.occurs, mem_attributes_vars, Term.vars, setNamed]
  have hconcat : (AcItems.set smallSets []).concat = "concat" := rfl
  simp only [mergeFreeParts, acPattern_unionOf, hconcat, hflat, hmerged]
  rfl

/-- Two sets that may be chosen make one. -/
theorem mergeFreeParts_exact_of_two :
    (∃ ρ', (∀ v : TermVariable, decide (v.sort = Term.simpleSort "Set") = false →
        ρ' v = (0 : Multiset (Term × Option Term))) ∧
      (AcModel.syntactic.under ρ').contents (unionOf "X" "Y") =
        {(.domainValue (Term.simpleSort "Item") [], none)}) ↔
      ∃ ρ', (∀ v : TermVariable, decide (v.sort = Term.simpleSort "Set") = false →
          ρ' v = (0 : Multiset (Term × Option Term))) ∧
        (AcModel.syntactic.under ρ').contents (.var (setNamed "X")) =
          {(.domainValue (Term.simpleSort "Item") [], none)} ∧
        ∀ b ∈ [(setNamed "Y", AcItems.empty (.set smallSets []))],
          AcModel.syntactic.held (ρ' b.1) = (AcModel.syntactic.under ρ').contents b.2 :=
  mergeFreeParts_exact AcModel.syntactic
    (fun _ h => Option.some.inj (acPattern_unionOf.symm.trans h) ▸
      concatenated_unionOf "X" "Y")
    mergeFreeParts_of_two (fun _ => 0) (Multiset.nodup_singleton _)

theorem mergeFreeParts_isSome_iff_of_two :
    ∃ found, mergeFreeParts (unionOf "X" "Y")
        (fun v => decide (v.sort = Term.simpleSort "Set")) = some found ∧
      (found.isSome = true ↔ ∃ items rest, acPattern (unionOf "X" "Y") = some (items, rest) ∧
        ∃ index v other w, index ≠ other ∧
          FreeAt (fun v => decide (v.sort = Term.simpleSort "Set")) items
            (flattenOpaqueChunks (some rest) items.concat).1 index v ∧
          FreeAt (fun v => decide (v.sort = Term.simpleSort "Set")) items
            (flattenOpaqueChunks (some rest) items.concat).1 other w) :=
  mergeFreeParts_isSome_iff fun _ h =>
    Option.some.inj (acPattern_unionOf.symm.trans h) ▸ concatenated_unionOf "X" "Y"

end Syntactic

end Merging

end KRust.Backend
