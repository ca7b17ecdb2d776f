import KRust.Inner.Forest
import Mathlib.Data.List.Forall2
import Mathlib.Order.MinMax

/-!
Forests by induction on their levels, and the trees of a node by the trees of the nodes below it.
-/

namespace KRust.Inner

variable {A I M B N : Type}

namespace Packed

section Nodes

theorem depth_le_depths {node : Packed A I M B N} {nodes : List (Packed A I M B N)}
    (h : node ∈ nodes) : node.depth ≤ depths nodes := by
  induction nodes with
  | nil => cases h
  | cons first nodes ih =>
    rw [depths]
    rcases List.mem_cons.mp h with rfl | h
    · exact le_max_left _ _
    · exact le_max_of_le_right (ih h)

theorem depth_pos (node : Packed A I M B N) : 0 < node.depth := by
  cases node <;> simp [depth]

theorem depth_below {node child : Packed A I M B N} (h : child ∈ node.nodesBelow) :
    child.depth < node.depth := by
  cases node with
  | production => exact Nat.lt_succ_of_le (depth_le_depths h)
  | term => cases h
  | ambiguity => exact Nat.lt_succ_of_le (depth_le_depths h)

/-- Induction on the levels of a node. -/
theorem induction {motive : Packed A I M B N → Prop}
    (step : ∀ node, (∀ child ∈ node.nodesBelow, motive child) → motive node)
    (node : Packed A I M B N) : motive node := by
  induction hdepth : node.depth using Nat.strong_induction_on generalizing node with
  | _ depth ih => exact step node fun child hchild => ih _ (hdepth ▸ depth_below hchild) child rfl

end Nodes

section Trees

variable {M' : Type} {keep : M → M'}

theorem denotesAll_iff {nodes : List (Packed A I M B N)} {trees : List (Tree I M' B)} :
    DenotesAll keep nodes trees ↔ List.Forall₂ (Denotes keep) nodes trees := by
  induction nodes generalizing trees with
  | nil => rw [DenotesAll, List.forall₂_nil_left_iff]
  | cons node nodes ih =>
    rw [DenotesAll, List.forall₂_cons_left_iff]
    simp only [ih]
    constructor
    · rintro ⟨tree, rest, rfl, hnode, hrest⟩
      exact ⟨tree, rest, hnode, hrest, rfl⟩
    · rintro ⟨tree, rest, hnode, hrest, rfl⟩
      exact ⟨tree, rest, rfl, hnode, hrest⟩

theorem denotesSome_iff {nodes : List (Packed A I M B N)} {tree : Tree I M' B} :
    DenotesSome keep nodes tree ↔ ∃ node ∈ nodes, Denotes keep node tree := by
  induction nodes with
  | nil => simp [DenotesSome]
  | cons node nodes ih => rw [DenotesSome, ih, List.exists_mem_cons_iff]

theorem denotes_production {address : A} {index : Nat} {parameters : Option I}
    {children : List (Packed A I M B N)} {metadata : M} {tree : Tree I M' B} :
    Denotes keep (production address index parameters children metadata) tree ↔
      ∃ trees, tree = .node index parameters trees (keep metadata) ∧
        List.Forall₂ (Denotes keep) children trees := by
  simp only [Denotes, denotesAll_iff]

theorem denotes_term {address : A} {leaf : B} {annotations : N} {tree : Tree I M' B} :
    Denotes keep (term address leaf annotations : Packed A I M B N) tree ↔ tree = .leaf leaf := by
  rw [Denotes]

theorem denotes_ambiguity {address : A} {nodes : List (Packed A I M B N)} {tree : Tree I M' B} :
    Denotes keep (ambiguity address nodes) tree ↔ ∃ node ∈ nodes, Denotes keep node tree := by
  rw [Denotes, denotesSome_iff]

end Trees

end Packed

end KRust.Inner
