import KRust.Kompile.MinimizeTerms
import Mathlib.Algebra.Order.BigOperators.Group.List
import Mathlib.Algebra.Order.Group.Nat

/-!
The numbers of the nodes of a rule: a node is numbered once, after its children, by the key that
its head and their numbers make, so two nodes have one number exactly when the terms below them are
equal apart from annotations.
-/

set_option linter.unusedSectionVars false

namespace KRust.Kompile

open KRust.Kast Lib

variable {μ : Type}

section Shapes

mutual

/-- What the comparison of terms reads. -/
def shape : Term μ → Rose Head
  | .injectedLabel label => .node (.injectedLabel label) []
  | .rewrite left right => .node .rewrite [shape left, shape right]
  | .as pattern aliased => .node .as [shape pattern, shape aliased]
  | .var name sort => .node (.var name sort) []
  | .sequence items => .node .sequence (shapes items)
  | .apply label arguments => .node (.apply label) (shapes arguments)
  | .token text sort => .node (.token text sort) []
  | .annotated term _ => shape term

def shapes : List (Term μ) → List (Rose Head)
  | [] => []
  | t :: ts => shape t :: shapes ts

end

mutual

/-- The term of a shape. -/
def ofShape : Rose Head → Term μ
  | .node (.injectedLabel label) _ => .injectedLabel label
  | .node .rewrite (left :: right :: _) => .rewrite (ofShape left) (ofShape right)
  | .node .as (left :: right :: _) => .as (ofShape left) (ofShape right)
  | .node (.var name sort) _ => .var name sort
  | .node .sequence items => .sequence (ofShapes items)
  | .node (.apply label) arguments => .apply label (ofShapes arguments)
  | .node (.token text sort) _ => .token text sort
  | .node _ _ => .sequence []

def ofShapes : List (Rose Head) → List (Term μ)
  | [] => []
  | t :: ts => ofShape t :: ofShapes ts

end

theorem shapes_eq (ts : List (Term μ)) : shapes ts = ts.map shape := by
  induction ts with
  | nil => rfl
  | cons t ts ih => rw [shapes, ih, List.map_cons]

theorem ofShapes_eq (ts : List (Rose Head)) : (ofShapes ts : List (Term μ)) = ts.map ofShape := by
  induction ts with
  | nil => rfl
  | cons t ts ih => rw [ofShapes, ih, List.map_cons]

theorem shape_strip (t : Term μ) : shape t.strip = shape t := by
  induction t with
  | rewrite left right ihl ihr | as left right ihl ihr => simp only [Term.strip, shape, ihl, ihr]
  | sequence items ih | apply _ items ih =>
    simp only [Term.strip, shape, shapes_eq, Term.stripList_eq, List.map_map]
    congr 1
    exact List.map_congr_left ih
  | annotated term metadata ih => exact ih
  | _ => rfl

theorem ofShape_shape (t : Term μ) : ofShape (shape t) = t.strip := by
  induction t with
  | rewrite left right ihl ihr | as left right ihl ihr => simp only [Term.strip, shape, ofShape, ihl, ihr]
  | sequence items ih | apply _ items ih =>
    simp only [Term.strip, shape, ofShape, shapes_eq, ofShapes_eq, Term.stripList_eq, List.map_map]
    congr 1
    exact List.map_congr_left ih
  | annotated term metadata ih => exact ih
  | _ => simp only [Term.strip, shape, ofShape]

theorem shape_eq_iff {t u : Term μ} : shape t = shape u ↔ t.strip = u.strip := by
  constructor
  · intro h
    rw [← ofShape_shape, h, ofShape_shape]
  · intro h
    rw [← shape_strip, h, shape_strip]

theorem shape_unannotated (t : Term μ) : shape t.unannotated = shape t := by
  rw [shape_eq_iff, Term.strip_unannotated]

theorem shape_eq (t : Term μ) : shape t = .node (head t) (t.children.map shape) := by
  induction t with
  | annotated term metadata ih => exact ih
  | sequence items | apply _ items => rw [shape, shapes_eq]; rfl
  | _ => rfl

end Shapes

section Nodes

/-- The nodes of a term with their addresses. -/
inductive Below : Address → Term μ → Address → Term μ → Prop
  | here (address : Address) (t : Term μ) : Below address t address t
  | child {address b : Address} {t c u : Term μ} {i : Nat} (hchild : t.children[i]? = some c)
    (h : Below (i :: address) c b u) : Below address t b u

theorem Below.suffix {address b : Address} {t u : Term μ} (h : Below address t b u) :
    address <:+ b := by
  induction h with
  | here => exact List.suffix_rfl
  | child hchild h ih => exact (List.suffix_cons _ _).trans ih

/-- A node of a rule. -/
def Rule.Node (rule : Rule μ) (address : Address) (t : Term μ) : Prop :=
  Below [0] rule.body address t ∨ Below [1] rule.requires address t ∨
    Below [2] rule.ensures address t

theorem not_suffix_both {address b : Address} {i j : Nat} (hne : i ≠ j)
    (hi : i :: address <:+ b) (hj : j :: address <:+ b) : False := by
  have hsame := (List.suffix_of_suffix_length_le hi hj (by simp)).eq_of_length (by simp)
  exact hne (List.cons.inj hsame).1

end Nodes

namespace Identities

/-- Each node has the number of its shape. -/
def Numbered (ids : Identities) (address : Address) (t : Term μ) : Prop :=
  ∀ b u, Below address t b u →
    ∃ n, ids.numbers.lookup b = some n ∧ ids.keys.number (shape u) = some n

/-- What numbering some nodes leaves: only addresses among theirs are new. -/
structure Grew (ids new : Identities) (within : Address → Prop) : Prop where
  valid : new.keys.Valid
  keys : ids.keys.Extends new.keys
  kept : ∀ b, ¬ within b → new.numbers.lookup b = ids.numbers.lookup b

variable {ids new final : Identities} {within : Address → Prop}

theorem Numbered.grew {address : Address} {t : Term μ} (h : ids.Numbered address t)
    (hgrew : ids.Grew new within) (hapart : ∀ b, address <:+ b → ¬ within b) :
    new.Numbered address t := by
  intro b u hbelow
  obtain ⟨n, hn, hshape⟩ := h b u hbelow
  exact ⟨n, (hgrew.kept b (hapart b hbelow.suffix)).trans hn,
    Numbering.number_extends hgrew.keys _ hshape⟩

theorem Grew.trans {later : Identities} {within' within'' : Address → Prop}
    (h : ids.Grew new within) (h' : new.Grew later within')
    (hw : ∀ b, within b ∨ within' b → within'' b) : ids.Grew later within'' where
  valid := h'.valid
  keys := h.keys.trans h'.keys
  kept b hb := by
    rw [h'.kept b fun hin => hb (hw b (.inr hin)), h.kept b fun hin => hb (hw b (.inl hin))]

/-- The node on top is numbered with everything below it. -/
def NumbersTree (t : Term μ) : Prop :=
  ∀ (address : Address) (rest : List (Address × Term μ × Bool)) (ids final : Identities),
    ids.keys.Valid → (∀ b, address <:+ b → ids.numbers.lookup b = none) →
    run ((address, t.unannotated, false) :: rest) ids = some final →
    ∃ new, run rest new = some final ∧ ids.Grew new (address <:+ ·) ∧ new.Numbered address t

theorem run_forest {trees : List (Address × Term μ)} (htrees : ∀ x ∈ trees, NumbersTree x.2)
    (hapart : trees.Pairwise fun x y => ∀ b, x.1 <:+ b → ¬ y.1 <:+ b)
    {rest : List (Address × Term μ × Bool)} (hvalid : ids.keys.Valid)
    (hfresh : ∀ x ∈ trees, ∀ b, x.1 <:+ b → ids.numbers.lookup b = none)
    (hrun : run (trees.map (fun x => (x.1, x.2.unannotated, false)) ++ rest) ids = some final) :
    ∃ new, run rest new = some final ∧ ids.Grew new (fun b => ∃ x ∈ trees, x.1 <:+ b) ∧
      ∀ x ∈ trees, new.Numbered x.1 x.2 := by
  induction trees generalizing ids with
  | nil => exact ⟨ids, hrun, ⟨hvalid, .refl _, fun _ _ => rfl⟩, by simp⟩
  | cons x trees ih =>
    obtain ⟨hx, htrees⟩ := List.forall_mem_cons.mp htrees
    obtain ⟨hfirst, hapart⟩ := List.pairwise_cons.mp hapart
    obtain ⟨hfreshFirst, hfresh⟩ := List.forall_mem_cons.mp hfresh
    obtain ⟨middle, hmiddle, hgrew, hnumbered⟩ := hx x.1 _ ids final hvalid hfreshFirst hrun
    have hfresh' : ∀ y ∈ trees, ∀ b, y.1 <:+ b → middle.numbers.lookup b = none := by
      intro y hy b hb
      rw [hgrew.kept b fun hin => hfirst y hy b hin hb, hfresh y hy b hb]
    obtain ⟨new, hnew, hgrew', hall⟩ := ih htrees hapart hgrew.valid hfresh' hmiddle
    refine ⟨new, hnew, hgrew.trans hgrew' ?_, List.forall_mem_cons.mpr ⟨?_, hall⟩⟩
    · rintro b (hb | ⟨y, hy, hb⟩)
      · exact ⟨x, List.mem_cons_self, hb⟩
      · exact ⟨y, List.mem_cons_of_mem x hy, hb⟩
    · refine hnumbered.grew hgrew' fun b hb => ?_
      rintro ⟨y, hy, hb'⟩
      exact hfirst y hy b hb hb'

theorem children_unannotated (t : Term μ) : t.unannotated.children = t.children := by
  rw [Term.children, Term.children, Term.unannotated_idem]

/-- The children of a node as stored, with their addresses. -/
def placed (address : Address) (t : Term μ) : List (Address × Term μ) :=
  t.children.mapIdx fun i child => (i :: address, child)

theorem subterms_eq (address : Address) (t : Term μ) :
    subterms address t.unannotated = (placed address t).map fun x => (x.1, x.2.unannotated) := by
  rw [subterms, children_unannotated, placed]
  apply List.ext_getElem?
  simp [Option.map_map, Function.comp_def]

theorem map_placed (address : Address) (t : Term μ) : (placed address t).map Prod.snd = t.children := by
  rw [placed]
  apply List.ext_getElem?
  simp [Option.map_map, Function.comp_def]

theorem mem_placed {address : Address} {t : Term μ} {x : Address × Term μ} :
    x ∈ placed address t ↔ ∃ i child, t.children[i]? = some child ∧ (i :: address, child) = x := by
  rw [placed, List.mem_mapIdx]
  constructor
  · rintro ⟨i, hi, rfl⟩
    exact ⟨i, _, List.getElem?_eq_getElem hi, rfl⟩
  · rintro ⟨i, child, hchild, rfl⟩
    obtain ⟨hi, rfl⟩ := List.getElem?_eq_some_iff.mp hchild
    exact ⟨i, hi, rfl⟩

theorem placed_apart (address : Address) (t : Term μ) :
    (placed address t).reverse.Pairwise fun x y => ∀ b, x.1 <:+ b → ¬ y.1 <:+ b := by
  rw [List.pairwise_reverse, List.pairwise_iff_getElem]
  intro i j hi hj hlt b hb hb'
  simp only [placed, List.getElem_mapIdx] at hb hb'
  exact not_suffix_both (Nat.ne_of_lt hlt) hb' hb

theorem mapM_both {α β : Type} {xs : List α} {f g : α → Option β}
    (h : ∀ x ∈ xs, ∃ y, f x = some y ∧ g x = some y) :
    ∃ ys, xs.mapM f = some ys ∧ xs.mapM g = some ys := by
  induction xs with
  | nil => exact ⟨[], rfl, rfl⟩
  | cons x xs ih =>
    obtain ⟨⟨y, hf, hg⟩, hxs⟩ := List.forall_mem_cons.mp h
    obtain ⟨ys, hfs, hgs⟩ := ih hxs
    exact ⟨y :: ys, by simp [List.mapM_cons, hf, hfs], by simp [List.mapM_cons, hg, hgs]⟩

theorem mapM_mono {α β : Type} {xs : List α} {f g : α → Option β} {ys : List β}
    (h : xs.mapM f = some ys) (hmono : ∀ x y, f x = some y → g x = some y) :
    xs.mapM g = some ys := by
  induction xs generalizing ys with
  | nil => exact h
  | cons x xs ih =>
    simp only [List.mapM_cons, Option.bind_eq_bind, Option.bind_eq_some_iff] at h ⊢
    obtain ⟨y, hy, ys', hys, heq⟩ := h
    exact ⟨y, hmono x y hy, ys', ih hys, heq⟩

theorem size_child_lt {t child : Term μ} (h : child ∈ t.children) : child.size < t.size :=
  Nat.lt_of_le_of_lt (List.single_le_sum (fun _ _ => Nat.zero_le _) _ (List.mem_map_of_mem h))
    t.sum_children_lt

theorem numbersTree (t : Term μ) : NumbersTree t := by
  induction hsize : t.size using Nat.strong_induction_on generalizing t with
  | _ size ih =>
    intro address rest ids final hvalid hfresh hrun
    rw [run, hfresh address List.suffix_rfl] at hrun
    simp only [Option.isSome_none, Bool.false_eq_true, if_false, subterms_eq, ← List.map_reverse,
      List.map_map, Function.comp_def] at hrun
    have htrees : ∀ x ∈ (placed address t).reverse, NumbersTree x.2 := by
      intro x hx
      obtain ⟨i, child, hchild, rfl⟩ := mem_placed.mp (List.mem_reverse.mp hx)
      refine ih child.size ?_ child rfl
      rw [← hsize]
      exact size_child_lt (List.mem_of_getElem? hchild)
    have hfresh' : ∀ x ∈ (placed address t).reverse, ∀ b, x.1 <:+ b →
        ids.numbers.lookup b = none := by
      intro x hx b hb
      obtain ⟨i, child, hchild, rfl⟩ := mem_placed.mp (List.mem_reverse.mp hx)
      exact hfresh b ((List.suffix_cons _ _).trans hb)
    obtain ⟨new, hnew, hgrew, hnumbered⟩ :=
      run_forest htrees (placed_apart address t) hvalid hfresh' hrun
    have hself : new.numbers.lookup address = none := by
      rw [hgrew.kept address, hfresh address List.suffix_rfl]
      rintro ⟨x, hx, hsuffix⟩
      obtain ⟨i, child, -, rfl⟩ := mem_placed.mp (List.mem_reverse.mp hx)
      exact absurd hsuffix.length_le (by simp)
    -- the node itself, whose children are numbered
    have hchildren : ∀ x ∈ placed address t, ∃ n, new.numbers.lookup x.1 = some n ∧
        new.keys.number (shape x.2) = some n := by
      intro x hx
      exact hnumbered x (List.mem_reverse.mpr hx) _ _ (.here _ _)
    obtain ⟨ns, hlookups, hshapes⟩ := mapM_both hchildren
    have hkey : (shape t) = .node (head t.unannotated) ((placed address t).map fun x => shape x.2) := by
      rw [← shape_unannotated, shape_eq, children_unannotated, ← map_placed address t, List.map_map]
      rfl
    have hread : (subterms address t.unannotated).mapM
        (fun child => new.numbers.lookup child.1) = some ns := by
      rw [subterms_eq, List.mapM_map]
      exact hlookups
    rw [run, hself] at hnew
    simp only [Option.isSome_none, Bool.false_eq_true, if_false, if_true, hread,
      Option.bind_eq_bind, Option.bind_some] at hnew
    split at hnew
    · refine ⟨_, hnew, ?_, ?_⟩
      · have hnode : new.Grew ⟨(address, (new.keys.entry (head t.unannotated, ns)).1) :: new.numbers,
            (new.keys.entry (head t.unannotated, ns)).2⟩ (· = address) := by
          refine ⟨hgrew.valid.entry _, Numbering.extends_entry _ _, fun b hb => ?_⟩
          rw [List.lookup_cons, beq_false_of_ne hb]
        · refine hgrew.trans hnode ?_
          rintro b (⟨x, hx, hb⟩ | rfl)
          · obtain ⟨i, child, -, rfl⟩ := mem_placed.mp (List.mem_reverse.mp hx)
            exact (List.suffix_cons _ _).trans hb
          · exact List.suffix_rfl
      · intro b u hbelow
        cases hbelow with
        | here =>
          refine ⟨_, by rw [List.lookup_cons, beq_self_eq_true], ?_⟩
          have hshapes' : ((placed address t).map fun x => shape x.2).mapM
              (new.keys.entry (head t.unannotated, ns)).2.number = some ns := by
            rw [List.mapM_map]
            exact mapM_mono hshapes fun x n hn =>
              Numbering.number_extends (Numbering.extends_entry _ _) _ hn
          rw [hkey, Numbering.number_node, hshapes', Option.bind_some]
          exact Numbering.get_entry _ _
        | child hchild h =>
          obtain ⟨n, hn, hshape⟩ := hnumbered _ (List.mem_reverse.mpr
            (mem_placed.mpr ⟨_, _, hchild, rfl⟩)) _ _ h
          have hne : b ≠ address := by
            rintro rfl
            exact absurd h.suffix.length_le (by simp)
          refine ⟨n, ?_, Numbering.number_extends (Numbering.extends_entry _ _) _ hshape⟩
          rw [List.lookup_cons, beq_false_of_ne hne]
          exact hn
    · cases hnew

theorem number_spec {address : Address} {root : Term μ} (hvalid : ids.keys.Valid)
    (hfresh : ∀ b, address <:+ b → ids.numbers.lookup b = none)
    (h : number address root ids = some new) :
    ids.Grew new (address <:+ ·) ∧ new.Numbered address root := by
  obtain ⟨last, hlast, hgrew, hnumbered⟩ := numbersTree root address [] ids new hvalid hfresh h
  rw [run, Option.some.injEq] at hlast
  rw [← hlast]
  exact ⟨hgrew, hnumbered⟩

theorem not_suffix_roots {i j : Nat} (hne : i ≠ j) {b : Address} (hi : [i] <:+ b) : ¬ [j] <:+ b :=
  fun hj => not_suffix_both hne hi hj

/-- Every node of a rule gets the number of its shape. -/
theorem forRule_spec {rule : Rule μ} (h : forRule rule = some ids) :
    ids.keys.Valid ∧ ∀ b u, rule.Node b u →
      ∃ n, ids.numbers.lookup b = some n ∧ ids.keys.number (shape u) = some n := by
  simp only [forRule, Option.bind_eq_bind, Option.bind_eq_some_iff] at h
  obtain ⟨first, hfirst, second, hsecond, hthird⟩ := h
  obtain ⟨hgrew, hbody⟩ := number_spec Numbering.valid_empty (fun _ _ => rfl) hfirst
  obtain ⟨hgrew', hrequires⟩ := number_spec hgrew.valid
    (fun b hb => hgrew.kept b (not_suffix_roots (by decide) hb)) hsecond
  obtain ⟨hgrew'', hensures⟩ := number_spec hgrew'.valid (fun b hb => by
    rw [hgrew'.kept b (not_suffix_roots (by decide) hb),
      hgrew.kept b (not_suffix_roots (by decide) hb)]
    rfl) hthird
  refine ⟨hgrew''.valid, fun b u hnode => ?_⟩
  rcases hnode with hnode | hnode | hnode
  · exact ((hbody.grew hgrew' fun b hb => not_suffix_roots (by decide) hb).grew hgrew''
      fun b hb => not_suffix_roots (by decide) hb) b u hnode
  · exact (hrequires.grew hgrew'' fun b hb => not_suffix_roots (by decide) hb) b u hnode
  · exact hensures b u hnode

/-- Two nodes of a rule have one number exactly when they are equal apart from annotations. -/
theorem of_eq_iff {rule : Rule μ} (h : forRule rule = some ids) {b c : Address} {t u : Term μ}
    (ht : rule.Node b t) (hu : rule.Node c u) : ids.of b = ids.of c ↔ t.strip = u.strip := by
  obtain ⟨hvalid, hnodes⟩ := forRule_spec h
  obtain ⟨m, hm, htm⟩ := hnodes b t ht
  obtain ⟨n, hn, hun⟩ := hnodes c u hu
  rw [of, of, hm, hn, Option.getD_some, Option.getD_some, ← shape_eq_iff]
  constructor
  · rintro rfl
    exact hvalid.number_inj _ _ htm hun
  · intro hshape
    rw [hshape, hun] at htm
    exact (Option.some.inj htm).symm

end Identities

end KRust.Kompile
