import KRust.Kore.Ast

/-!
A pattern as a node over its direct subpatterns: the children in order, the node with
other children, and the bottom-up rebuilding that every traversal of a pattern uses.
-/

set_option linter.unusedSectionVars false

namespace KRust.Kore

/-- The direct subpatterns of a pattern, in order. -/
def Pattern.children : Pattern → List Pattern
  | .application _ arguments | .and _ arguments | .or _ arguments
  | .associativeApplication _ _ arguments => arguments
  | .not _ argument | .next _ argument | .ceil _ _ argument | .floor _ _ argument => [argument]
  | .implies _ left right | .iff _ left right | .rewrites _ left right
  | .equals _ _ left right | .in _ _ left right => [left, right]
  | .exists _ _ body | .forall _ _ body | .mu _ body | .nu _ body => [body]
  | .string _ | .var _ | .top _ | .bottom _ | .domainValue _ _ => []

/-- `clone_node`: the node with these children; `none` where the source runs out of them. -/
def Pattern.cloneNode : Pattern → List Pattern → Option Pattern
  | .string value, _ => some (.string value)
  | .var v, _ => some (.var v)
  | .application symbol _, children => some (.application symbol children)
  | .top sort, _ => some (.top sort)
  | .bottom sort, _ => some (.bottom sort)
  | .and sort _, children => some (.and sort children)
  | .or sort _, children => some (.or sort children)
  | .not sort _, argument :: _ => some (.not sort argument)
  | .next sort _, argument :: _ => some (.next sort argument)
  | .implies sort _ _, left :: right :: _ => some (.implies sort left right)
  | .iff sort _ _, left :: right :: _ => some (.iff sort left right)
  | .rewrites sort _ _, left :: right :: _ => some (.rewrites sort left right)
  | .exists sort v _, body :: _ => some (.exists sort v body)
  | .forall sort v _, body :: _ => some (.forall sort v body)
  | .mu v _, body :: _ => some (.mu v body)
  | .nu v _, body :: _ => some (.nu v body)
  | .ceil operand result _, argument :: _ => some (.ceil operand result argument)
  | .floor operand result _, argument :: _ => some (.floor operand result argument)
  | .equals operand result _ _, left :: right :: _ => some (.equals operand result left right)
  | .in operand result _ _, left :: right :: _ => some (.in operand result left right)
  | .domainValue sort value, _ => some (.domainValue sort value)
  | .associativeApplication side symbol _, children =>
    some (.associativeApplication side symbol children)
  | _, _ => none

/-- A pattern whose direct subpatterns are overwritten in place. -/
def Pattern.setChildren (p : Pattern) (children : List Pattern) : Pattern :=
  (p.cloneNode children).getD p

theorem Pattern.sizeOf_child {p c : Pattern} (h : c ∈ p.children) : sizeOf c < sizeOf p := by
  cases p <;> simp only [children, List.mem_cons, List.not_mem_nil, or_false] at h
  case application | and | or | associativeApplication =>
    have := List.sizeOf_lt_of_mem h
    simp only [application.sizeOf_spec, and.sizeOf_spec, or.sizeOf_spec,
      associativeApplication.sizeOf_spec]
    omega
  all_goals
    rcases h with rfl | rfl <;> (simp; try omega)

/-- Induction on a pattern through its direct subpatterns. -/
theorem Pattern.children_induction {P : Pattern → Prop}
    (node : ∀ p, (∀ c ∈ p.children, P c) → P p) (p : Pattern) : P p :=
  node p fun c _ => children_induction node c
termination_by sizeOf p
decreasing_by exact sizeOf_child ‹_›

theorem Pattern.cloneNode_of_length {p : Pattern} {cs : List Pattern}
    (h : cs.length = p.children.length) : p.cloneNode cs = some (p.setChildren cs) := by
  unfold setChildren
  cases p <;> try rfl
  all_goals
    simp only [children, List.length_cons, List.length_nil] at h
    obtain ⟨c, cs, rfl⟩ := List.exists_cons_of_length_eq_add_one h
    try
      obtain ⟨d, cs, rfl⟩ := List.exists_cons_of_length_eq_add_one (by simpa using h)
    rfl

@[simp] theorem Pattern.setChildren_children (p : Pattern) : p.setChildren p.children = p := by
  cases p <;> rfl

theorem Pattern.children_setChildren {p : Pattern} {cs : List Pattern}
    (h : cs.length = p.children.length) : (p.setChildren cs).children = cs := by
  cases p <;> simp only [children, List.length_cons, List.length_nil] at h
  case application | and | or | associativeApplication => rfl
  case string | var | top | bottom | domainValue =>
    rw [List.length_eq_zero_iff.mp h]
    rfl
  case implies | iff | rewrites | equals | «in» =>
    obtain ⟨c, d, rfl⟩ := List.length_eq_two.mp h
    rfl
  all_goals
    obtain ⟨c, rfl⟩ := List.length_eq_one_iff.mp h
    rfl

/-- `rebuild`: the value of a pattern from the values of its direct subpatterns. -/
def Pattern.rebuild {T : Type} (build : Pattern → List T → Option T) (p : Pattern) : Option T :=
  do build p (← p.children.attach.mapM fun c => rebuild build c.1)
termination_by p
decreasing_by exact sizeOf_child c.2

theorem Pattern.rebuild_eq {T : Type} (build : Pattern → List T → Option T) (p : Pattern) :
    p.rebuild build = (p.children.mapM (rebuild build)).bind (build p) := by
  rw [rebuild, List.mapM_subtype (g := rebuild build) (fun _ _ => rfl), List.unattach_attach]
  rfl

/-- The number of nodes of a pattern. -/
def Pattern.nodes (p : Pattern) : Nat := (p.children.attach.map fun c => nodes c.1).sum + 1
termination_by p
decreasing_by exact sizeOf_child c.2

theorem Pattern.nodes_eq (p : Pattern) : p.nodes = (p.children.map nodes).sum + 1 := by
  rw [nodes, List.map_subtype (fun _ _ => rfl), List.unattach_attach]

end KRust.Kore
