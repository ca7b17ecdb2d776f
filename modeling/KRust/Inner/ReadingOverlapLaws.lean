import KRust.Inner.ForestLaws
import KRust.Inner.ReadingOverlap
import Mathlib.Data.List.Pairwise

/-!
Two different trees of a forest are one reading exactly when the comparison of nodes says so, where
the brackets that a reading does not show are those of plain productions. A bracket of an
instantiated production is a bracket too, and is not recognized as one.
-/

namespace KRust.Inner

open KRust.Lib
open Packed (Denotes denotes_production denotes_term denotes_ambiguity depth_below depth_pos)

namespace Packed

variable {A I M B N : Type}

/-- A node is a node of a forest. -/
def Within (node root : Packed A I M B N) : Prop :=
  Relation.ReflTransGen (fun below above => below ∈ above.nodesBelow) node root

theorem Within.below {node child root : Packed A I M B N} (h : node.Within root)
    (hchild : child ∈ node.nodesBelow) : child.Within root :=
  .head hchild h

end Packed

namespace ReadingGrammar

variable (grammar : ReadingGrammar) {I M B N : Type}

/-- Nodes are told apart by where they are kept, an ambiguity has an alternative, and an unlabelled
production has one number of children. -/
structure WellFormed (root : PackedTerm I M B N) : Prop where
  shared {left right : PackedTerm I M B N} : left.Within root → right.Within root →
    left.address = right.address → left = right
  inhabited {address : Nat} {alternatives : List (PackedTerm I M B N)} :
    (Packed.ambiguity address alternatives).Within root → alternatives ≠ []
  arity {left right : PackedTerm I M B N} {index : Nat} : left.Within root → right.Within root →
    left.topProduction = some index → right.topProduction = some index →
    grammar.label index = none → left.nodesBelow.length = right.nodesBelow.length

/-- A forest whose nodes are as the parser builds them. -/
structure PackedForest (I M B N : Type) where
  root : PackedTerm I M B N
  wellFormed : grammar.WellFormed root

section Readings

variable (strips : Nat → Option I → Bool)

/-- The reading of a production over the readings of its children; a stripped bracket is replaced
by its child. -/
def readProduction (production : Nat) (parameters : Option I) : List (Reading B) → Reading B
  | [only] =>
    if strips production parameters then only else .node (grammar.head production 1) [only]
  | readings => .node (grammar.head production readings.length) readings

mutual

def reading : Tree I Unit B → Reading B
  | .node production parameters children _ =>
    grammar.readProduction strips production parameters (readings children)
  | .leaf leaf => .leaf leaf

def readings : List (Tree I Unit B) → List (Reading B)
  | [] => []
  | tree :: trees => reading tree :: readings trees

end

/-- The trees of a node, without the metadata of its productions. -/
abbrev TreeOf (node : PackedTerm I M B N) (tree : Tree I Unit B) : Prop :=
  Denotes (fun _ => ()) node tree

/-- Some trees of the nodes are one reading. -/
def Overlaps (left right : PackedTerm I M B N) : Prop :=
  ∃ tree other, TreeOf left tree ∧ TreeOf right other ∧
    grammar.reading strips tree = grammar.reading strips other

/-- Some different trees of the nodes are one reading. -/
def DistinctOverlaps (left right : PackedTerm I M B N) : Prop :=
  ∃ tree other, TreeOf left tree ∧ TreeOf right other ∧ tree ≠ other ∧
    grammar.reading strips tree = grammar.reading strips other

/-- Two different trees of the node are one reading. -/
def OneReadingTwice (node : PackedTerm I M B N) : Prop := grammar.DistinctOverlaps strips node node

/-- The brackets of plain productions only. -/
def plainBracket (production : Nat) (parameters : Option I) : Bool :=
  grammar.bracket production && parameters.isNone

end Readings

section Reading

variable {grammar} {strips : Nat → Option I → Bool}

theorem readings_eq (trees : List (Tree I Unit B)) :
    grammar.readings strips trees = trees.map (grammar.reading strips) := by
  induction trees with
  | nil => rfl
  | cons tree trees ih => rw [readings, ih, List.map_cons]

theorem reading_node (production : Nat) (parameters : Option I) (trees : List (Tree I Unit B)) :
    grammar.reading strips (.node production parameters trees ()) =
      grammar.readProduction strips production parameters (trees.map (grammar.reading strips)) := by
  rw [reading, readings_eq]

/-- A bracket that is stripped reads as its child. -/
theorem reading_stripped {production : Nat} {parameters : Option I} {tree : Tree I Unit B}
    (h : strips production parameters = true) :
    grammar.reading strips (.node production parameters [tree] ()) =
      grammar.reading strips tree := by
  rw [reading_node, List.map_singleton, readProduction, if_pos h]

/-- Any other production shows its head. -/
theorem reading_kept {production : Nat} {parameters : Option I} {trees : List (Tree I Unit B)}
    (h : trees.length = 1 → strips production parameters = false) :
    grammar.reading strips (.node production parameters trees ()) =
      .node (grammar.head production trees.length) (trees.map (grammar.reading strips)) := by
  rw [reading_node]
  cases trees with
  | nil => rfl
  | cons first rest =>
    cases rest with
    | nil =>
      rw [List.map_singleton, readProduction, if_neg (by simp [h rfl])]
      rfl
    | cons second rest => simp [readProduction]

end Reading

section Trees

variable {grammar} {strips : Nat → Option I → Bool}

theorem Overlaps.symm {left right : PackedTerm I M B N}
    (h : grammar.Overlaps strips left right) : grammar.Overlaps strips right left := by
  obtain ⟨tree, other, htree, hother, hreading⟩ := h
  exact ⟨other, tree, hother, htree, hreading.symm⟩

theorem DistinctOverlaps.symm {left right : PackedTerm I M B N}
    (h : grammar.DistinctOverlaps strips left right) :
    grammar.DistinctOverlaps strips right left := by
  obtain ⟨tree, other, htree, hother, hne, hreading⟩ := h
  exact ⟨other, tree, hother, htree, hne.symm, hreading.symm⟩

theorem DistinctOverlaps.overlaps {left right : PackedTerm I M B N}
    (h : grammar.DistinctOverlaps strips left right) : grammar.Overlaps strips left right := by
  obtain ⟨tree, other, htree, hother, -, hreading⟩ := h
  exact ⟨tree, other, htree, hother, hreading⟩

theorem overlaps_ambiguity_left {address : Nat} {alternatives : List (PackedTerm I M B N)}
    {right : PackedTerm I M B N} :
    grammar.Overlaps strips (Packed.ambiguity address alternatives) right ↔
      ∃ alternative ∈ alternatives, grammar.Overlaps strips alternative right := by
  simp only [Overlaps, denotes_ambiguity]
  constructor
  · rintro ⟨tree, other, ⟨alternative, hmem, htree⟩, h⟩
    exact ⟨alternative, hmem, tree, other, htree, h⟩
  · rintro ⟨alternative, hmem, tree, other, htree, h⟩
    exact ⟨tree, other, ⟨alternative, hmem, htree⟩, h⟩

theorem overlaps_ambiguity_right {address : Nat} {alternatives : List (PackedTerm I M B N)}
    {left : PackedTerm I M B N} :
    grammar.Overlaps strips left (Packed.ambiguity address alternatives) ↔
      ∃ alternative ∈ alternatives, grammar.Overlaps strips left alternative := by
  have hsymm : ∀ node, grammar.Overlaps strips left node ↔ grammar.Overlaps strips node left :=
    fun node => ⟨Overlaps.symm, Overlaps.symm⟩
  simp only [hsymm, overlaps_ambiguity_left]

theorem distinct_ambiguity_left {address : Nat} {alternatives : List (PackedTerm I M B N)}
    {right : PackedTerm I M B N} :
    grammar.DistinctOverlaps strips (Packed.ambiguity address alternatives) right ↔
      ∃ alternative ∈ alternatives, grammar.DistinctOverlaps strips alternative right := by
  simp only [DistinctOverlaps, denotes_ambiguity]
  constructor
  · rintro ⟨tree, other, ⟨alternative, hmem, htree⟩, h⟩
    exact ⟨alternative, hmem, tree, other, htree, h⟩
  · rintro ⟨alternative, hmem, tree, other, htree, h⟩
    exact ⟨tree, other, ⟨alternative, hmem, htree⟩, h⟩

theorem distinct_ambiguity_right {address : Nat} {alternatives : List (PackedTerm I M B N)}
    {left : PackedTerm I M B N} :
    grammar.DistinctOverlaps strips left (Packed.ambiguity address alternatives) ↔
      ∃ alternative ∈ alternatives, grammar.DistinctOverlaps strips left alternative := by
  have hsymm : ∀ node, grammar.DistinctOverlaps strips left node ↔
      grammar.DistinctOverlaps strips node left :=
    fun node => ⟨DistinctOverlaps.symm, DistinctOverlaps.symm⟩
  simp only [hsymm, distinct_ambiguity_left]

/-- Two alternatives of an ambiguity, or one of them twice. -/
theorem twice_ambiguity {address : Nat} {alternatives : List (PackedTerm I M B N)} :
    grammar.OneReadingTwice strips (Packed.ambiguity address alternatives) ↔
      (∃ alternative ∈ alternatives, grammar.OneReadingTwice strips alternative) ∨
        ¬alternatives.Pairwise fun left right => ¬grammar.DistinctOverlaps strips left right := by
  rw [OneReadingTwice, distinct_ambiguity_left]
  simp only [distinct_ambiguity_right]
  constructor
  · rintro ⟨left, hleft, right, hright, h⟩
    by_cases heq : left = right
    · exact .inl ⟨left, hleft, heq ▸ h⟩
    · have : Std.Symm fun left right : PackedTerm I M B N =>
          ¬grammar.DistinctOverlaps strips left right :=
        ⟨fun _ _ hnot hother => hnot hother.symm⟩
      exact .inr fun hall => hall.forall hleft hright heq h
  · rintro (⟨alternative, hmem, h⟩ | h)
    · exact ⟨alternative, hmem, alternative, hmem, h⟩
    · by_contra hnone
      refine h (List.pairwise_of_forall_mem_list fun left hleft right hright hdistinct => ?_)
      exact hnone ⟨left, hleft, right, hright, hdistinct⟩

/-- The trees of two rows of nodes can be chosen to read alike when those of each pair can. -/
theorem rows_overlap_iff {lefts rights : List (PackedTerm I M B N)}
    (hlength : lefts.length = rights.length) :
    (∃ trees others, List.Forall₂ TreeOf lefts trees ∧ List.Forall₂ TreeOf rights others ∧
      trees.map (grammar.reading strips) = others.map (grammar.reading strips)) ↔
      ∀ pair ∈ lefts.zip rights, grammar.Overlaps strips pair.1 pair.2 := by
  induction lefts generalizing rights with
  | nil =>
    obtain rfl := List.length_eq_zero_iff.mp hlength.symm
    simp
  | cons left lefts ih =>
    obtain ⟨right, rights, rfl⟩ := List.exists_cons_of_length_eq_add_one hlength.symm
    rw [List.zip_cons_cons, List.forall_mem_cons, ← ih (Nat.succ_inj.mp hlength)]
    constructor
    · rintro ⟨_, _, hall, hall', hreadings⟩
      obtain ⟨tree, trees, htree, htrees, rfl⟩ := List.forall₂_cons_left_iff.mp hall
      obtain ⟨other, others, hother, hothers, rfl⟩ := List.forall₂_cons_left_iff.mp hall'
      rw [List.map_cons, List.map_cons, List.cons.injEq] at hreadings
      exact ⟨⟨tree, other, htree, hother, hreadings.1⟩, trees, others, htrees, hothers,
        hreadings.2⟩
    · rintro ⟨⟨tree, other, htree, hother, hreading⟩, trees, others, htrees, hothers, hreadings⟩
      exact ⟨tree :: trees, other :: others, .cons htree htrees, .cons hother hothers, by
        rw [List.map_cons, List.map_cons, hreading, hreadings]⟩

/-- The rows of trees can be chosen to differ when those of one pair can. -/
theorem rows_distinct_iff {lefts rights : List (PackedTerm I M B N)}
    (hlength : lefts.length = rights.length) :
    (∃ trees others, List.Forall₂ TreeOf lefts trees ∧ List.Forall₂ TreeOf rights others ∧
      trees ≠ others ∧
        trees.map (grammar.reading strips) = others.map (grammar.reading strips)) ↔
      (∀ pair ∈ lefts.zip rights, grammar.Overlaps strips pair.1 pair.2) ∧
        ∃ pair ∈ lefts.zip rights, grammar.DistinctOverlaps strips pair.1 pair.2 := by
  induction lefts generalizing rights with
  | nil =>
    obtain rfl := List.length_eq_zero_iff.mp hlength.symm
    simp
  | cons left lefts ih =>
    obtain ⟨right, rights, rfl⟩ := List.exists_cons_of_length_eq_add_one hlength.symm
    have hlength' : lefts.length = rights.length := Nat.succ_inj.mp hlength
    rw [List.zip_cons_cons, List.forall_mem_cons, List.exists_mem_cons_iff]
    constructor
    · rintro ⟨_, _, hall, hall', hne, hreadings⟩
      obtain ⟨tree, trees, htree, htrees, rfl⟩ := List.forall₂_cons_left_iff.mp hall
      obtain ⟨other, others, hother, hothers, rfl⟩ := List.forall₂_cons_left_iff.mp hall'
      rw [List.map_cons, List.map_cons, List.cons.injEq] at hreadings
      have hrest := (rows_overlap_iff hlength').mp ⟨trees, others, htrees, hothers, hreadings.2⟩
      refine ⟨⟨⟨tree, other, htree, hother, hreadings.1⟩, hrest⟩, ?_⟩
      by_cases heq : tree = other
      · have hne' : trees ≠ others := fun h => hne (by rw [heq, h])
        exact .inr ((ih hlength').mp ⟨trees, others, htrees, hothers, hne', hreadings.2⟩).2
      · exact .inl ⟨tree, other, htree, hother, heq, hreadings.1⟩
    · rintro ⟨⟨hfirst, hrest⟩, hdistinct⟩
      rcases hdistinct with hdistinct | hdistinct
      · obtain ⟨tree, other, htree, hother, hne, hreading⟩ := hdistinct
        obtain ⟨trees, others, htrees, hothers, hreadings⟩ := (rows_overlap_iff hlength').mpr hrest
        refine ⟨tree :: trees, other :: others, .cons htree htrees, .cons hother hothers,
          fun h => hne (List.cons.inj h).1, ?_⟩
        rw [List.map_cons, List.map_cons, hreading, hreadings]
      · obtain ⟨tree, other, htree, hother, hreading⟩ := hfirst
        obtain ⟨trees, others, htrees, hothers, hne, hreadings⟩ :=
          (ih hlength').mpr ⟨hrest, hdistinct⟩
        refine ⟨tree :: trees, other :: others, .cons htree htrees, .cons hother hothers,
          fun h => hne (List.cons.inj h).2, ?_⟩
        rw [List.map_cons, List.map_cons, hreading, hreadings]

end Trees

section Shapes

variable {grammar} {strips : Nat → Option I → Bool} {address address' production production' : Nat}
  {parameters parameters' : Option I} {lefts rights : List (PackedTerm I M B N)}
  {metadata metadata' : M}

theorem overlaps_term_term {leaf leaf' : B} {annotations annotations' : N} :
    grammar.Overlaps strips (Packed.term address leaf annotations : PackedTerm I M B N)
      (.term address' leaf' annotations') ↔ leaf = leaf' := by
  simp [Overlaps, denotes_term, reading]

/-- Leaves of one reading are one tree. -/
theorem not_distinct_term_term {leaf leaf' : B} {annotations annotations' : N} :
    ¬grammar.DistinctOverlaps strips (Packed.term address leaf annotations : PackedTerm I M B N)
      (.term address' leaf' annotations') := by
  rintro ⟨tree, other, htree, hother, hne, hreading⟩
  rw [TreeOf, denotes_term] at htree hother
  subst htree hother
  exact hne (by simpa [reading] using hreading)

/-- A production that shows its head is read by the head and the readings of its children. -/
theorem reading_production {trees : List (Tree I Unit B)}
    (hkept : lefts.length = 1 → strips production parameters = false)
    (htrees : List.Forall₂ TreeOf lefts trees) :
    grammar.reading strips (.node production parameters trees ()) =
      .node (grammar.head production lefts.length) (trees.map (grammar.reading strips)) := by
  rw [htrees.length_eq] at hkept ⊢
  exact reading_kept hkept

theorem not_overlaps_production_term {leaf : B} {annotations : N}
    (hkept : lefts.length = 1 → strips production parameters = false) :
    ¬grammar.Overlaps strips (.production address production parameters lefts metadata)
      (Packed.term address' leaf annotations) := by
  rintro ⟨tree, other, htree, hother, hreading⟩
  obtain ⟨trees, rfl, htrees⟩ := denotes_production.mp htree
  rw [denotes_term.mp hother, reading_production hkept htrees, reading] at hreading
  cases hreading

variable
  (hkept : lefts.length = 1 → strips production parameters = false)
  (hkept' : rights.length = 1 → strips production' parameters' = false)
  (hlength : grammar.head production lefts.length = grammar.head production' rights.length →
    lefts.length = rights.length)

include hkept hkept' hlength

theorem overlaps_production_production :
    grammar.Overlaps strips (.production address production parameters lefts metadata)
        (.production address' production' parameters' rights metadata') ↔
      grammar.head production lefts.length = grammar.head production' rights.length ∧
        ∀ pair ∈ lefts.zip rights, grammar.Overlaps strips pair.1 pair.2 := by
  constructor
  · rintro ⟨tree, other, htree, hother, hreading⟩
    obtain ⟨trees, rfl, htrees⟩ := denotes_production.mp htree
    obtain ⟨others, rfl, hothers⟩ := denotes_production.mp hother
    rw [reading_production hkept htrees, reading_production hkept' hothers,
      Reading.node.injEq] at hreading
    exact ⟨hreading.1, (rows_overlap_iff (hlength hreading.1)).mp
      ⟨trees, others, htrees, hothers, hreading.2⟩⟩
  · rintro ⟨hhead, hrows⟩
    obtain ⟨trees, others, htrees, hothers, hreadings⟩ :=
      (rows_overlap_iff (hlength hhead)).mpr hrows
    refine ⟨_, _, denotes_production.mpr ⟨trees, rfl, htrees⟩,
      denotes_production.mpr ⟨others, rfl, hothers⟩, ?_⟩
    rw [reading_production hkept htrees, reading_production hkept' hothers, hhead, hreadings]

/-- The trees of two node shapes differ at the top; those of one shape differ below. -/
theorem distinct_production_production :
    grammar.DistinctOverlaps strips (.production address production parameters lefts metadata)
        (.production address' production' parameters' rights metadata') ↔
      (grammar.head production lefts.length = grammar.head production' rights.length ∧
        ∀ pair ∈ lefts.zip rights, grammar.Overlaps strips pair.1 pair.2) ∧
      (production = production' ∧ parameters = parameters' →
        ∃ pair ∈ lefts.zip rights, grammar.DistinctOverlaps strips pair.1 pair.2) := by
  constructor
  · rintro ⟨tree, other, htree, hother, hne, hreading⟩
    obtain ⟨trees, rfl, htrees⟩ := denotes_production.mp htree
    obtain ⟨others, rfl, hothers⟩ := denotes_production.mp hother
    rw [reading_production hkept htrees, reading_production hkept' hothers,
      Reading.node.injEq] at hreading
    have hlengths := hlength hreading.1
    refine ⟨⟨hreading.1, (rows_overlap_iff hlengths).mp
      ⟨trees, others, htrees, hothers, hreading.2⟩⟩, ?_⟩
    rintro ⟨rfl, rfl⟩
    have hne' : trees ≠ others := fun h => hne (by rw [h])
    exact ((rows_distinct_iff hlengths).mp
      ⟨trees, others, htrees, hothers, hne', hreading.2⟩).2
  · rintro ⟨⟨hhead, hrows⟩, hbelow⟩
    by_cases hshape : production = production' ∧ parameters = parameters'
    · obtain ⟨trees, others, htrees, hothers, hne, hreadings⟩ :=
        (rows_distinct_iff (hlength hhead)).mpr ⟨hrows, hbelow hshape⟩
      refine ⟨_, _, denotes_production.mpr ⟨trees, rfl, htrees⟩,
        denotes_production.mpr ⟨others, rfl, hothers⟩, fun h => hne (Tree.node.inj h).2.2.1, ?_⟩
      rw [reading_production hkept htrees, reading_production hkept' hothers, hhead, hreadings]
    · obtain ⟨trees, others, htrees, hothers, hreadings⟩ :=
        (rows_overlap_iff (hlength hhead)).mpr hrows
      refine ⟨_, _, denotes_production.mpr ⟨trees, rfl, htrees⟩,
        denotes_production.mpr ⟨others, rfl, hothers⟩, ?_, ?_⟩
      · intro h
        obtain ⟨hproduction, hparameters, -, -⟩ := Tree.node.inj h
        exact hshape ⟨hproduction, hparameters⟩
      · rw [reading_production hkept htrees, reading_production hkept' hothers, hhead, hreadings]

end Shapes

section Brackets

variable {grammar} {address address' production production' : Nat}
  {child child' : PackedTerm I M B N} {metadata metadata' : M}

theorem treeOf_bracket {tree : Tree I Unit B} :
    TreeOf (.production address production none [child] metadata) tree ↔
      ∃ inner, tree = .node production none [inner] () ∧ TreeOf child inner := by
  rw [TreeOf, denotes_production]
  constructor
  · rintro ⟨trees, rfl, htrees⟩
    obtain ⟨inner, rest, hinner, hrest, rfl⟩ := List.forall₂_cons_left_iff.mp htrees
    obtain rfl := List.forall₂_nil_left_iff.mp hrest
    exact ⟨inner, rfl, hinner⟩
  · rintro ⟨inner, rfl, hinner⟩
    exact ⟨[inner], rfl, .cons hinner .nil⟩

theorem reading_bracket (h : grammar.bracket production = true) (tree : Tree I Unit B) :
    grammar.reading grammar.plainBracket (.node production none [tree] ()) =
      grammar.reading grammar.plainBracket tree :=
  reading_stripped (by simp [plainBracket, h])

/-- A bracket reads as its child. -/
theorem overlaps_bracket_left (h : grammar.bracket production = true)
    {right : PackedTerm I M B N} :
    grammar.Overlaps grammar.plainBracket
        (.production address production none [child] metadata) right ↔
      grammar.Overlaps grammar.plainBracket child right := by
  simp only [Overlaps, treeOf_bracket]
  constructor
  · rintro ⟨tree, other, ⟨inner, rfl, hinner⟩, hother, hreading⟩
    rw [reading_bracket h] at hreading
    exact ⟨inner, other, hinner, hother, hreading⟩
  · rintro ⟨inner, other, hinner, hother, hreading⟩
    rw [← reading_bracket h inner] at hreading
    exact ⟨_, other, ⟨inner, rfl, hinner⟩, hother, hreading⟩

theorem overlaps_content_left (node right : PackedTerm I M B N) :
    grammar.Overlaps grammar.plainBracket (grammar.content node) right ↔
      grammar.Overlaps grammar.plainBracket node right := by
  fun_induction grammar.content node with
  | case1 address production child metadata h ih => rw [ih, overlaps_bracket_left h]
  | case2 => rfl
  | case3 => rfl

theorem overlaps_content (left right : PackedTerm I M B N) :
    grammar.Overlaps grammar.plainBracket (grammar.content left) (grammar.content right) ↔
      grammar.Overlaps grammar.plainBracket left right := by
  rw [overlaps_content_left]
  constructor
  · exact fun h => ((overlaps_content_left right left).mp h.symm).symm
  · exact fun h => ((overlaps_content_left right left).mpr h.symm).symm

/-- Brackets of one production differ in what they hold. -/
theorem distinct_bracket_bracket (h : grammar.bracket production = true) :
    grammar.DistinctOverlaps grammar.plainBracket
        (.production address production none [child] metadata)
        (.production address' production none [child'] metadata') ↔
      grammar.DistinctOverlaps grammar.plainBracket child child' := by
  simp only [DistinctOverlaps, treeOf_bracket]
  constructor
  · rintro ⟨tree, other, ⟨inner, rfl, hinner⟩, ⟨inner', rfl, hinner'⟩, hne, hreading⟩
    rw [reading_bracket h, reading_bracket h] at hreading
    exact ⟨inner, inner', hinner, hinner', fun heq => hne (by rw [heq]), hreading⟩
  · rintro ⟨inner, inner', hinner, hinner', hne, hreading⟩
    rw [← reading_bracket h inner, ← reading_bracket h inner'] at hreading
    refine ⟨_, _, ⟨inner, rfl, hinner⟩, ⟨inner', rfl, hinner'⟩, ?_, hreading⟩
    intro heq
    exact hne (List.cons.inj (Tree.node.inj heq).2.2.1).1

theorem twice_content (node : PackedTerm I M B N) :
    grammar.OneReadingTwice grammar.plainBracket (grammar.content node) ↔
      grammar.OneReadingTwice grammar.plainBracket node := by
  fun_induction grammar.content node with
  | case1 address production child metadata h ih =>
    rw [ih, OneReadingTwice, OneReadingTwice, distinct_bracket_bracket h]
  | case2 => rfl
  | case3 => rfl

theorem bracketOf_eq_some {node child : PackedTerm I M B N} {index : Nat}
    (h : grammar.bracketOf node = some (index, child)) : grammar.bracket index = true ∧
      ∃ address metadata, node = .production address index none [child] metadata := by
  fun_cases grammar.bracketOf node with
  | case1 address production inner metadata hbracket =>
    rw [bracketOf, if_pos hbracket] at h
    cases h
    exact ⟨hbracket, address, metadata, rfl⟩
  | case2 address production inner metadata hbracket =>
    rw [bracketOf, if_neg hbracket] at h
    cases h
  | case3 => simp_all [bracketOf]

/-- A production that is no bracket shows its head. -/
theorem kept_of_bracketOf {parameters : Option I} {children : List (PackedTerm I M B N)}
    (h : grammar.bracketOf (.production address production parameters children metadata) = none) :
    children.length = 1 → grammar.plainBracket production parameters = false := by
  intro hlength
  obtain ⟨child, rfl⟩ := List.length_eq_one_iff.mp hlength
  cases parameters with
  | some => simp [plainBracket]
  | none =>
    rw [bracketOf] at h
    cases hbracket : grammar.bracket production with
    | true => simp [hbracket] at h
    | false => simp [plainBracket, hbracket]

theorem bracketOf_content (node : PackedTerm I M B N) :
    grammar.bracketOf (grammar.content node) = none := by
  fun_induction grammar.content node with
  | case1 address production child metadata h ih => exact ih
  | case2 address production child metadata h => rw [bracketOf, if_neg h]
  | case3 node hnode => simp_all [bracketOf]

theorem within_content {root : PackedTerm I M B N} {node : PackedTerm I M B N}
    (h : node.Within root) : (grammar.content node).Within root := by
  fun_induction grammar.content node with
  | case1 address production child metadata _ ih => exact ih (h.below List.mem_cons_self)
  | case2 => exact h
  | case3 => exact h

theorem depth_content (node : PackedTerm I M B N) :
    (grammar.content node).depth ≤ node.depth := by
  fun_induction grammar.content node with
  | case1 address production child metadata _ ih =>
    have hbelow : child.depth <
        (Packed.production address production none [child] metadata).depth :=
      depth_below List.mem_cons_self
    exact ih.trans hbelow.le
  | case2 => exact le_rfl
  | case3 => exact le_rfl

/-- A tree of a bracket is a tree of no other kind of node. -/
theorem tree_ne_of_bracket {left right : PackedTerm I M B N} {tree other : Tree I Unit B}
    (h : grammar.bracketOf left = some (production, child))
    (hright : ∀ inner, grammar.bracketOf right ≠ some (production, inner))
    (hnode : right.isAmbiguity = false) (htree : TreeOf left tree) (hother : TreeOf right other) :
    tree ≠ other := by
  obtain ⟨hbracket, address, metadata, rfl⟩ := bracketOf_eq_some h
  obtain ⟨inner, rfl, -⟩ := treeOf_bracket.mp htree
  rintro rfl
  cases right with
  | ambiguity => cases hnode
  | term => cases denotes_term.mp hother
  | production address' index parameters rights metadata' =>
    obtain ⟨trees, heq, htrees⟩ := denotes_production.mp hother
    obtain ⟨rfl, rfl, rfl, -⟩ := Tree.node.inj heq
    obtain ⟨only, rest, -, hrest, rfl⟩ := List.forall₂_cons_right_iff.mp htrees
    obtain rfl := List.forall₂_nil_right_iff.mp hrest
    exact hright only (by rw [bracketOf, if_pos hbracket])

theorem distinct_iff_overlaps {left right : PackedTerm I M B N}
    (h : ∀ tree other : Tree I Unit B, TreeOf left tree → TreeOf right other → tree ≠ other) :
    grammar.DistinctOverlaps grammar.plainBracket left right ↔
      grammar.Overlaps grammar.plainBracket left right := by
  constructor
  · exact DistinctOverlaps.overlaps
  · rintro ⟨tree, other, htree, hother, hreading⟩
    exact ⟨tree, other, htree, hother, h tree other htree hother, hreading⟩

end Brackets

section Inhabited

variable {grammar} {root : PackedTerm I M B N}

/-- Every node of a forest has a tree. -/
theorem WellFormed.exists_tree (h : grammar.WellFormed root) (node : PackedTerm I M B N)
    (hnode : node.Within root) : ∃ tree : Tree I Unit B, TreeOf node tree := by
  induction node using Packed.induction with
  | step node ih =>
    have hbelow : ∀ child ∈ node.nodesBelow, ∃ tree : Tree I Unit B, TreeOf child tree :=
      fun child hchild => ih child hchild (hnode.below hchild)
    cases node with
    | term address leaf annotations => exact ⟨_, denotes_term.mpr rfl⟩
    | ambiguity address alternatives =>
      obtain ⟨alternative, hmem⟩ := List.exists_mem_of_ne_nil _ (h.inhabited hnode)
      obtain ⟨tree, htree⟩ := hbelow alternative hmem
      exact ⟨tree, denotes_ambiguity.mpr ⟨alternative, hmem, htree⟩⟩
    | production address index parameters children metadata =>
      have hrow : ∃ trees, List.Forall₂ TreeOf children trees := by
        clear ih hnode
        induction children with
        | nil => exact ⟨[], .nil⟩
        | cons child children ih =>
          obtain ⟨tree, htree⟩ := hbelow child List.mem_cons_self
          obtain ⟨trees, htrees⟩ := ih fun other hother =>
            hbelow other (List.mem_cons_of_mem child hother)
          exact ⟨tree :: trees, .cons htree htrees⟩
      obtain ⟨trees, htrees⟩ := hrow
      exact ⟨_, denotes_production.mpr ⟨trees, rfl, htrees⟩⟩

theorem WellFormed.overlaps_self (h : grammar.WellFormed root) {strips : Nat → Option I → Bool}
    {node : PackedTerm I M B N} (hnode : node.Within root) : grammar.Overlaps strips node node := by
  obtain ⟨tree, htree⟩ := h.exists_tree node hnode
  exact ⟨tree, tree, htree, htree, rfl⟩

theorem mem_zip_self {α : Type} {xs : List α} {pair : α × α} :
    pair ∈ xs.zip xs ↔ ∃ x ∈ xs, pair = (x, x) := by
  induction xs with
  | nil => simp
  | cons x xs ih => rw [List.zip_cons_cons, List.mem_cons, ih, List.exists_mem_cons_iff]

/-- Two different trees of a production differ below one of its children. -/
theorem WellFormed.twice_production (h : grammar.WellFormed root)
    {strips : Nat → Option I → Bool} {address index : Nat} {parameters : Option I}
    {children : List (PackedTerm I M B N)} {metadata : M}
    (hnode : (Packed.production address index parameters children metadata).Within root)
    (hkept : children.length = 1 → strips index parameters = false) :
    grammar.OneReadingTwice strips (.production address index parameters children metadata) ↔
      ∃ child ∈ children, grammar.OneReadingTwice strips child := by
  have hself : ∀ child ∈ children, grammar.Overlaps strips child child := fun child hchild =>
    h.overlaps_self (hnode.below hchild)
  rw [OneReadingTwice, distinct_production_production hkept hkept fun _ => rfl]
  simp only [mem_zip_self, true_and, and_self, forall_const]
  constructor
  · rintro ⟨-, pair, ⟨child, hchild, rfl⟩, hdistinct⟩
    exact ⟨child, hchild, hdistinct⟩
  · rintro ⟨child, hchild, hdistinct⟩
    refine ⟨?_, _, ⟨child, hchild, rfl⟩, hdistinct⟩
    rintro pair ⟨other, hother, rfl⟩
    exact hself other hother

/-- Productions of one head have one number of children. -/
theorem WellFormed.length_eq (h : grammar.WellFormed root) {address address' index index' : Nat}
    {parameters parameters' : Option I} {lefts rights : List (PackedTerm I M B N)}
    {metadata metadata' : M}
    (hleft : (Packed.production address index parameters lefts metadata).Within root)
    (hright : (Packed.production address' index' parameters' rights metadata').Within root)
    (hhead : grammar.head index lefts.length = grammar.head index' rights.length) :
    lefts.length = rights.length := by
  rw [head, head] at hhead
  cases hlabel : grammar.label index with
  | some name =>
    cases hlabel' : grammar.label index' with
    | some name' =>
      rw [hlabel, hlabel'] at hhead
      exact (ReadingHead.label.inj hhead).2
    | none =>
      rw [hlabel, hlabel'] at hhead
      cases hhead
  | none =>
    cases hlabel' : grammar.label index' with
    | some name' =>
      rw [hlabel, hlabel'] at hhead
      cases hhead
    | none =>
      rw [hlabel, hlabel'] at hhead
      obtain rfl := ReadingHead.production.inj hhead
      exact h.arity hleft hright rfl rfl hlabel

end Inhabited

section Memo

variable {grammar} (forest : grammar.PackedForest I M B N)

/-- What an entry of a table answers: the question asked of the nodes kept at its key. -/
def asksOf (holds : PackedTerm I M B N → Prop) (key : Nat) (question : Prop) : Prop :=
  ∃ node, node.Within forest.root ∧ node.address = key ∧ question = holds node

def asksPair (holds : PackedTerm I M B N → PackedTerm I M B N → Prop) (key : Nat × Nat)
    (question : Prop) : Prop :=
  ∃ left right, left.Within forest.root ∧ right.Within forest.root ∧
    (left.address, right.address) = key ∧ question = holds left right

/-- The memo fills with right answers. -/
def memoGrowth : Growth ReadingOverlap where
  Valid memo :=
    Growth.Answered memo.twice (asksOf forest (grammar.OneReadingTwice grammar.plainBracket)) ∧
    Growth.Answered memo.overlaps (asksPair forest (grammar.Overlaps grammar.plainBracket)) ∧
    Growth.Answered memo.distinctOverlaps
      (asksPair forest (grammar.DistinctOverlaps grammar.plainBracket))
  Le _ _ := True
  refl _ := trivial
  trans _ _ := trivial

variable {forest}

theorem asksOf_iff {holds : PackedTerm I M B N → Prop} {node : PackedTerm I M B N}
    (hnode : node.Within forest.root) {question : Prop}
    (h : asksOf forest holds node.address question) : question ↔ holds node := by
  obtain ⟨other, hother, haddress, rfl⟩ := h
  rw [forest.wellFormed.shared hother hnode haddress]

theorem asksPair_iff {holds : PackedTerm I M B N → PackedTerm I M B N → Prop}
    {left right : PackedTerm I M B N} (hleft : left.Within forest.root)
    (hright : right.Within forest.root) {question : Prop}
    (h : asksPair forest holds (left.address, right.address) question) :
    question ↔ holds left right := by
  obtain ⟨other, other', hother, hother', hkey, rfl⟩ := h
  rw [Prod.mk.injEq] at hkey
  rw [forest.wellFormed.shared hother hleft hkey.1, forest.wellFormed.shared hother' hright hkey.2]

theorem decides_twice_memo {node : PackedTerm I M B N} (hnode : node.Within forest.root)
    {compute : StateM ReadingOverlap Bool}
    (h : (memoGrowth forest).Decides compute (grammar.OneReadingTwice grammar.plainBracket node)) :
    (memoGrowth forest).Decides (ReadingOverlap.twiceTable.memo node.address compute)
      (grammar.OneReadingTwice grammar.plainBracket node) := by
  refine Growth.Decides.memo ?_ ?_ h
  · intro memo answer hmemo hread
    exact hmemo.1 _ _ _ hread ⟨node, hnode, rfl, rfl⟩
  · intro memo answer hmemo hanswer
    refine ⟨⟨hmemo.1.cons fun question hasks => ?_, hmemo.2.1, hmemo.2.2⟩, trivial⟩
    rw [hanswer, asksOf_iff hnode hasks]

theorem decides_overlap_memo {left right : PackedTerm I M B N} (hleft : left.Within forest.root)
    (hright : right.Within forest.root) {compute : StateM ReadingOverlap Bool}
    (h : (memoGrowth forest).Decides compute (grammar.Overlaps grammar.plainBracket left right)) :
    (memoGrowth forest).Decides
      (ReadingOverlap.overlapTable.memo (left.address, right.address) compute)
      (grammar.Overlaps grammar.plainBracket left right) := by
  refine Growth.Decides.memo ?_ ?_ h
  · intro memo answer hmemo hread
    exact hmemo.2.1 _ _ _ hread ⟨left, right, hleft, hright, rfl, rfl⟩
  · intro memo answer hmemo hanswer
    refine ⟨⟨hmemo.1, hmemo.2.1.cons fun question hasks => ?_, hmemo.2.2⟩, trivial⟩
    rw [hanswer, asksPair_iff hleft hright hasks]

theorem decides_distinct_memo {left right : PackedTerm I M B N} (hleft : left.Within forest.root)
    (hright : right.Within forest.root) {compute : StateM ReadingOverlap Bool}
    (h : (memoGrowth forest).Decides compute
      (grammar.DistinctOverlaps grammar.plainBracket left right)) :
    (memoGrowth forest).Decides
      (ReadingOverlap.distinctTable.memo (left.address, right.address) compute)
      (grammar.DistinctOverlaps grammar.plainBracket left right) := by
  refine Growth.Decides.memo ?_ ?_ h
  · intro memo answer hmemo hread
    exact hmemo.2.2 _ _ _ hread ⟨left, right, hleft, hright, rfl, rfl⟩
  · intro memo answer hmemo hanswer
    refine ⟨⟨hmemo.1, hmemo.2.1, hmemo.2.2.cons fun question hasks => ?_⟩, trivial⟩
    rw [hanswer, asksPair_iff hleft hright hasks]

theorem memo_empty_valid : (memoGrowth forest).Valid .empty :=
  ⟨Growth.Answered.nil, Growth.Answered.nil, Growth.Answered.nil⟩

end Memo

section Answers

variable {grammar} {forest : grammar.PackedForest I M B N} [DecidableEq B]

theorem overlapNodes_decides
    {overlap : PackedTerm I M B N → PackedTerm I M B N → StateM ReadingOverlap Bool}
    {left right : PackedTerm I M B N} (hleft : left.Within forest.root)
    (hright : right.Within forest.root) (hplain : grammar.bracketOf left = none)
    (hplain' : grammar.bracketOf right = none)
    (hoverlap : ∀ node other, node.Within forest.root → other.Within forest.root →
      node.depth + other.depth < left.depth + right.depth →
      (memoGrowth forest).Decides (overlap node other)
        (grammar.Overlaps grammar.plainBracket node other)) :
    (memoGrowth forest).Decides (grammar.overlapNodes overlap left right)
      (grammar.Overlaps grammar.plainBracket left right) := by
  -- The alternatives of an ambiguity on either side are asked in turn.
  have hsomeLeft : ∀ address alternatives, left = .ambiguity address alternatives →
      (memoGrowth forest).Decides (alternatives.anyM fun alternative => overlap alternative right)
        (grammar.Overlaps grammar.plainBracket left right) := by
    rintro address alternatives rfl
    refine (Growth.Decides.anyM fun alternative hmem => ?_).congr overlaps_ambiguity_left.symm
    have hdepth : alternative.depth < (Packed.ambiguity address alternatives).depth :=
      depth_below hmem
    exact hoverlap alternative right (hleft.below hmem) hright (by omega)
  have hsomeRight : ∀ address alternatives, right = .ambiguity address alternatives →
      (memoGrowth forest).Decides (alternatives.anyM fun alternative => overlap left alternative)
        (grammar.Overlaps grammar.plainBracket left right) := by
    rintro address alternatives rfl
    refine (Growth.Decides.anyM fun alternative hmem => ?_).congr overlaps_ambiguity_right.symm
    have hdepth : alternative.depth < (Packed.ambiguity address alternatives).depth :=
      depth_below hmem
    exact hoverlap left alternative hleft (hright.below hmem) (by omega)
  cases left with
  | ambiguity address alternatives =>
    cases right <;> exact hsomeLeft address alternatives rfl
  | term address leaf annotations =>
    cases right with
    | ambiguity address' alternatives => exact hsomeRight address' alternatives rfl
    | term address' leaf' annotations' =>
      exact Growth.Decides.pure (by rw [overlaps_term_term, decide_eq_true_iff])
    | production address' index' parameters' rights metadata' =>
      refine Growth.Decides.pure (iff_of_false Bool.false_ne_true fun h => ?_)
      exact not_overlaps_production_term (kept_of_bracketOf hplain') h.symm
  | production address index parameters lefts metadata =>
    cases right with
    | ambiguity address' alternatives => exact hsomeRight address' alternatives rfl
    | term address' leaf' annotations' =>
      exact Growth.Decides.pure (iff_of_false Bool.false_ne_true
        (not_overlaps_production_term (kept_of_bracketOf hplain)))
    | production address' index' parameters' rights metadata' =>
      have hiff : grammar.Overlaps grammar.plainBracket
            (.production address index parameters lefts metadata)
            (.production address' index' parameters' rights metadata') ↔ _ :=
        overlaps_production_production (kept_of_bracketOf hplain) (kept_of_bracketOf hplain')
          (forest.wellFormed.length_eq hleft hright)
      rw [overlapNodes]
      split
      · next hhead =>
        refine (Growth.Decides.allM fun pair hpair => ?_).congr
          (hiff.trans (and_iff_right hhead)).symm
        have hmem := List.of_mem_zip hpair
        have hdepth : pair.1.depth <
            (Packed.production address index parameters lefts metadata).depth :=
          depth_below hmem.1
        have hdepth' : pair.2.depth <
            (Packed.production address' index' parameters' rights metadata').depth :=
          depth_below hmem.2
        exact hoverlap pair.1 pair.2 (hleft.below hmem.1) (hright.below hmem.2) (by omega)
      · next hhead =>
        exact Growth.Decides.pure (iff_of_false Bool.false_ne_true fun h =>
          hhead (hiff.mp h).1)

theorem overlap_decides (levels : Nat) (left right : PackedTerm I M B N)
    (hleft : left.Within forest.root) (hright : right.Within forest.root)
    (hlevels : left.depth + right.depth ≤ levels) :
    (memoGrowth forest).Decides (grammar.overlap levels left right)
      (grammar.Overlaps grammar.plainBracket left right) := by
  induction levels generalizing left right with
  | zero =>
    have := depth_pos left
    omega
  | succ levels ih =>
    have hleft' : (grammar.content left).Within forest.root := within_content hleft
    have hright' : (grammar.content right).Within forest.root := within_content hright
    rw [overlap]
    split
    · next heq =>
      have hsame : grammar.content left = grammar.content right :=
        forest.wellFormed.shared hleft' hright' (by simpa [PackedTerm.ptrEq] using heq)
      refine Growth.Decides.pure (iff_of_true rfl ((overlaps_content left right).mp ?_))
      rw [hsame]
      exact forest.wellFormed.overlaps_self hright'
    · refine (decides_overlap_memo hleft' hright' ?_).congr (overlaps_content left right)
      refine overlapNodes_decides hleft' hright' (bracketOf_content left)
        (bracketOf_content right) fun node other hnode hother hdepth => ?_
      have hcontent : (grammar.content left).depth ≤ left.depth := depth_content left
      have hcontent' : (grammar.content right).depth ≤ right.depth := depth_content right
      exact ih node other hnode hother (by omega)

theorem overlapOf_decides {left right : PackedTerm I M B N} (hleft : left.Within forest.root)
    (hright : right.Within forest.root) :
    (memoGrowth forest).Decides (grammar.overlapOf left right)
      (grammar.Overlaps grammar.plainBracket left right) :=
  overlap_decides _ left right hleft hright le_rfl

variable [DecidableEq I]

theorem distinctNodeOverlap_decides
    {distinct : PackedTerm I M B N → PackedTerm I M B N → StateM ReadingOverlap Bool}
    {left right : PackedTerm I M B N} (hleft : left.Within forest.root)
    (hright : right.Within forest.root) (hplain : grammar.bracketOf left = none)
    (hplain' : grammar.bracketOf right = none) (hnode : left.isAmbiguity = false)
    (hnode' : right.isAmbiguity = false)
    (hdistinct : ∀ node other, node.Within forest.root → other.Within forest.root →
      node.depth + other.depth < left.depth + right.depth →
      (memoGrowth forest).Decides (distinct node other)
        (grammar.DistinctOverlaps grammar.plainBracket node other)) :
    (memoGrowth forest).Decides (grammar.distinctNodeOverlap distinct left right)
      (grammar.DistinctOverlaps grammar.plainBracket left right) := by
  cases left with
  | ambiguity => cases hnode
  | term address leaf annotations =>
    cases right with
    | ambiguity => cases hnode'
    | term =>
      exact Growth.Decides.pure (iff_of_false Bool.false_ne_true not_distinct_term_term)
    | production =>
      refine Growth.Decides.pure (iff_of_false Bool.false_ne_true fun h => ?_)
      exact not_overlaps_production_term (kept_of_bracketOf hplain') h.overlaps.symm
  | production address index parameters lefts metadata =>
    cases right with
    | ambiguity => cases hnode'
    | term =>
      refine Growth.Decides.pure (iff_of_false Bool.false_ne_true fun h => ?_)
      exact not_overlaps_production_term (kept_of_bracketOf hplain) h.overlaps
    | production address' index' parameters' rights metadata' =>
      have hiff : grammar.DistinctOverlaps grammar.plainBracket
            (.production address index parameters lefts metadata)
            (.production address' index' parameters' rights metadata') ↔ _ :=
        distinct_production_production (kept_of_bracketOf hplain) (kept_of_bracketOf hplain')
          (forest.wellFormed.length_eq hleft hright)
      rw [distinctNodeOverlap]
      split
      · next hhead =>
        have hrows : (memoGrowth forest).Decides
            ((lefts.zip rights).allM fun pair => grammar.overlapOf pair.1 pair.2)
            (∀ pair ∈ lefts.zip rights, grammar.Overlaps grammar.plainBracket pair.1 pair.2) :=
          Growth.Decides.allM fun pair hpair =>
            have hmem := List.of_mem_zip hpair
            overlapOf_decides (hleft.below hmem.1) (hright.below hmem.2)
        rw [and_iff_right hhead] at hiff
        refine Growth.Decides.bind hrows (fun hall => ?_) fun hsome => ?_
        · rw [and_iff_right hall] at hiff
          split
          · next hshape =>
            rw [if_pos rfl]
            refine (Growth.Decides.anyM fun pair hpair => ?_).congr
              (hiff.trans (forall_prop_of_true hshape)).symm
            have hmem := List.of_mem_zip hpair
            have hdepth : pair.1.depth <
                (Packed.production address index parameters lefts metadata).depth :=
              depth_below hmem.1
            have hdepth' : pair.2.depth <
                (Packed.production address' index' parameters' rights metadata').depth :=
              depth_below hmem.2
            exact hdistinct pair.1 pair.2 (hleft.below hmem.1) (hright.below hmem.2) (by omega)
          · next hshape =>
            exact Growth.Decides.pure (iff_of_true rfl (hiff.mpr fun h => absurd h hshape))
        · have hnot : ¬grammar.DistinctOverlaps grammar.plainBracket
              (.production address index parameters lefts metadata)
              (.production address' index' parameters' rights metadata') :=
            fun h => hsome (hiff.mp h).1
          split
          · exact Growth.Decides.pure (iff_of_false Bool.false_ne_true hnot)
          · exact Growth.Decides.pure (iff_of_false Bool.false_ne_true hnot)
      · next hhead =>
        exact Growth.Decides.pure (iff_of_false Bool.false_ne_true fun h =>
          hhead (hiff.mp h).1.1)

theorem distinctNodes_decides
    {distinct : PackedTerm I M B N → PackedTerm I M B N → StateM ReadingOverlap Bool}
    {left right : PackedTerm I M B N} (hleft : left.Within forest.root)
    (hright : right.Within forest.root)
    (hdistinct : ∀ node other, node.Within forest.root → other.Within forest.root →
      node.depth + other.depth < left.depth + right.depth →
      (memoGrowth forest).Decides (distinct node other)
        (grammar.DistinctOverlaps grammar.plainBracket node other)) :
    (memoGrowth forest).Decides (grammar.distinctNodes distinct left right)
      (grammar.DistinctOverlaps grammar.plainBracket left right) := by
  have hsomeLeft : ∀ address alternatives, left = .ambiguity address alternatives →
      (memoGrowth forest).Decides (alternatives.anyM fun alternative => distinct alternative right)
        (grammar.DistinctOverlaps grammar.plainBracket left right) := by
    rintro address alternatives rfl
    refine (Growth.Decides.anyM fun alternative hmem => ?_).congr distinct_ambiguity_left.symm
    have hdepth : alternative.depth < (Packed.ambiguity address alternatives).depth :=
      depth_below hmem
    exact hdistinct alternative right (hleft.below hmem) hright (by omega)
  have hsomeRight : ∀ address alternatives, right = .ambiguity address alternatives →
      (memoGrowth forest).Decides (alternatives.anyM fun alternative => distinct left alternative)
        (grammar.DistinctOverlaps grammar.plainBracket left right) := by
    rintro address alternatives rfl
    refine (Growth.Decides.anyM fun alternative hmem => ?_).congr distinct_ambiguity_right.symm
    have hdepth : alternative.depth < (Packed.ambiguity address alternatives).depth :=
      depth_below hmem
    exact hdistinct left alternative hleft (hright.below hmem) (by omega)
  -- The remaining nodes are compared by their brackets.
  have hbrackets (hnode : left.isAmbiguity = false) (hnode' : right.isAmbiguity = false) :
      (memoGrowth forest).Decides (grammar.distinctBrackets distinct left right)
        (grammar.DistinctOverlaps grammar.plainBracket left right) := by
    rw [distinctBrackets]
    split
    · next production child other child' hbracket hbracket' =>
      split
      · next heq =>
        subst heq
        obtain ⟨h, address, metadata, rfl⟩ := bracketOf_eq_some hbracket
        obtain ⟨-, address', metadata', rfl⟩ := bracketOf_eq_some hbracket'
        have hchild : child.depth <
            (Packed.production address production none [child] metadata).depth :=
          depth_below List.mem_cons_self
        have hchild' : child'.depth <
            (Packed.production address' production none [child'] metadata').depth :=
          depth_below List.mem_cons_self
        exact (hdistinct child child' (hleft.below List.mem_cons_self)
          (hright.below List.mem_cons_self) (by omega)).congr (distinct_bracket_bracket h).symm
      · next hne =>
        refine (overlapOf_decides hleft hright).congr (distinct_iff_overlaps ?_).symm
        intro tree tree' htree htree'
        refine tree_ne_of_bracket hbracket (fun inner hinner => hne ?_) hnode' htree htree'
        rw [hbracket', Option.some.injEq, Prod.mk.injEq] at hinner
        exact hinner.1.symm
    · next production child hbracket hbracket' =>
      refine (overlapOf_decides hleft hright).congr (distinct_iff_overlaps ?_).symm
      intro tree tree' htree htree'
      refine tree_ne_of_bracket hbracket (fun inner hinner => ?_) hnode' htree htree'
      rw [hbracket'] at hinner
      cases hinner
    · next production child hbracket hbracket' =>
      refine (overlapOf_decides hleft hright).congr (distinct_iff_overlaps ?_).symm
      intro tree tree' htree htree'
      refine (tree_ne_of_bracket hbracket' (fun inner hinner => ?_) hnode htree' htree).symm
      rw [hbracket] at hinner
      cases hinner
    · next hbracket hbracket' =>
      exact distinctNodeOverlap_decides hleft hright hbracket hbracket' hnode hnode' hdistinct
  cases left with
  | ambiguity address alternatives =>
    cases right <;> exact hsomeLeft address alternatives rfl
  | term =>
    cases right with
    | ambiguity address' alternatives => exact hsomeRight address' alternatives rfl
    | term => exact hbrackets rfl rfl
    | production => exact hbrackets rfl rfl
  | production =>
    cases right with
    | ambiguity address' alternatives => exact hsomeRight address' alternatives rfl
    | term => exact hbrackets rfl rfl
    | production => exact hbrackets rfl rfl

/-- The recursion that looks for two trees of one node and the one over pairs of nodes call each
other; a pair has more levels than the node that it is asked of twice. -/
theorem twice_distinct_decides (levels : Nat) :
    (∀ node : PackedTerm I M B N, node.Within forest.root → 2 * node.depth ≤ levels →
      (memoGrowth forest).Decides (grammar.twice levels node)
        (grammar.OneReadingTwice grammar.plainBracket node)) ∧
    ∀ left right : PackedTerm I M B N, left.Within forest.root → right.Within forest.root →
      left.depth + right.depth < levels →
      (memoGrowth forest).Decides (grammar.distinctOverlap levels left right)
        (grammar.DistinctOverlaps grammar.plainBracket left right) := by
  induction levels with
  | zero =>
    refine ⟨fun node _ hlevels => ?_, fun left right _ _ hlevels => absurd hlevels (by omega)⟩
    have := depth_pos node
    omega
  | succ levels ih =>
    obtain ⟨ihTwice, ihDistinct⟩ := ih
    constructor
    · intro node hnode hlevels
      have hnode' : (grammar.content node).Within forest.root := within_content hnode
      have hcontent : (grammar.content node).depth ≤ node.depth := depth_content node
      have hplain : grammar.bracketOf (grammar.content node) = none := bracketOf_content node
      rw [twice]
      refine (decides_twice_memo hnode' ?_).congr (twice_content node)
      generalize grammar.content node = content at hnode' hcontent hplain ⊢
      have hbelow : ∀ child ∈ content.nodesBelow, child.Within forest.root ∧
          2 * child.depth + 1 < levels + 1 := fun child hchild =>
        ⟨hnode'.below hchild, by have := depth_below hchild; omega⟩
      cases content with
      | term =>
        exact Growth.Decides.pure (iff_of_false Bool.false_ne_true not_distinct_term_term)
      | production address index parameters children metadata =>
        refine (Growth.Decides.anyM fun child hchild => ?_).congr
          (forest.wellFormed.twice_production hnode' (kept_of_bracketOf hplain)).symm
        have hlevel := hbelow child hchild
        exact ihTwice child hlevel.1 (by omega)
      | ambiguity address alternatives =>
        have hsome : (memoGrowth forest).Decides
            (alternatives.anyM fun alternative => grammar.twice levels alternative)
            (∃ alternative ∈ alternatives,
              grammar.OneReadingTwice grammar.plainBracket alternative) := by
          refine Growth.Decides.anyM fun alternative hmem => ?_
          have hlevel := hbelow alternative hmem
          exact ihTwice alternative hlevel.1 (by omega)
        refine (Growth.Decides.bind hsome (fun h => ?_) fun h => ?_).congr twice_ambiguity.symm
        · exact Growth.Decides.pure (iff_of_true rfl (.inl h))
        · rw [or_iff_right h]
          refine Growth.Decides.anyPair fun left hleft right hright => ?_
          have hlevel := hbelow left hleft
          have hlevel' := hbelow right hright
          exact ihDistinct left right hlevel.1 hlevel'.1 (by omega)
    · intro left right hleft hright hlevels
      rw [distinctOverlap]
      split
      · next heq =>
        obtain rfl : left = right :=
          forest.wellFormed.shared hleft hright (by simpa [PackedTerm.ptrEq] using heq)
        exact ihTwice left hleft (by omega)
      · refine decides_distinct_memo hleft hright (distinctNodes_decides hleft hright ?_)
        intro node other hnode hother hdepth
        exact ihDistinct node other hnode hother (by omega)

/-- Two different trees of a forest are one reading exactly when the comparison of nodes says so. A
reading leaves out the brackets of plain productions and the instances of labelled productions. -/
theorem oneReadingTwice_iff (forest : grammar.PackedForest I M B N) :
    grammar.oneReadingTwice forest.root = true ↔
      grammar.OneReadingTwice grammar.plainBracket forest.root :=
  ((twice_distinct_decides _).1 forest.root .refl le_rfl .empty memo_empty_valid trivial).2.2

end Answers

end ReadingGrammar

end KRust.Inner
