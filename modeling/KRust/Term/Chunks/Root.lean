import KRust.Term.Chunks.Cut

/-!
Whole trees: the representation invariant, the bulk load, and the two ways an
edit ends with a root: a replacement of the old root, or levels built over
several nodes. A root that holds at most `B` items over several leaves is
replaced by the one leaf of its items.
-/

set_option linter.unusedSectionVars false

namespace KRust.Term.Chunks

open KRust.Lib KRust.Lib.Partial

variable {I K S G : Type} {B : Branching}

namespace Chunked

/-- The item sequence a tree denotes. -/
def items (tree : Chunked I S G B) : List I :=
  match tree.root with
  | none => []
  | some root => root.items

@[simp] theorem items_none : (⟨none⟩ : Chunked I S G B).items = [] := rfl

@[simp] theorem items_some (root : Node I S G) :
    (⟨some root⟩ : Chunked I S G B).items = root.items := rfl

/-- `Chunked::new`. -/
def new : Chunked I S G B := ⟨none⟩

def len (tree : Chunked I S G B) : Nat :=
  match tree.root with
  | none => 0
  | some root => root.summary.count

def isEmpty (tree : Chunked I S G B) : Bool := tree.root.isNone

end Chunked

section Definitions

variable [Item I K S G] [LinearOrder K] [Summary S] [Group G]

/-- `rooted`: a node of height 1 over at most `B` items is replaced by the one
leaf of its items. -/
def rooted (B : Branching) (node : Node I S G) : Option (Chunked I S G B) :=
  match node with
  | .internal 1 children summary =>
    if summary.count ≤ B.factor then do
      let items ← children.mapM fun child =>
        match child with
        | .leaf items _ => some items
        | .internal _ _ _ => none
      return ⟨some (← Node.leafWith items.flatten summary.group)⟩
    else some ⟨some node⟩
  | _ => some ⟨some node⟩

/-- `grow`: the root above the replacement of a root. -/
def grow (replacement : Replacement I S G) (group : Option G) : Option (Node I S G) :=
  match replacement with
  | (left, none) => some left
  | (left, some right) => do Node.internalWith (left.height + 1) [left, right] (← group)

/-- `over`: the tree over adjacent nodes of height `height`. -/
def treeOver (B : Branching) (height : Nat) (nodes : List (Node I S G)) (group : G) :
    Option (Chunked I S G B) :=
  if _hseveral : 1 < nodes.length then
    match _hlevel : cut B nodes group childGroup (Node.internalWith (height + 1)) with
    | none => none
    | some level => treeOver B (height + 1) level group
  else do rooted B (← nodes.getLast?)
termination_by nodes.length
decreasing_by exact cut_length _hlevel _hseveral

/-- The levels of `from_vec` above the leaves, up to the root. -/
def loadLevels (B : Branching) (height : Nat) (level : List (Node I S G)) :
    Option (Option (Node I S G)) :=
  if _hseveral : 1 < level.length then
    match _hnext : evenLevel B (Node.newInternal (height + 1)) level with
    | none => none
    | some next => loadLevels B (height + 1) next
  else some level.getLast?
termination_by level.length
decreasing_by exact evenLevel_length _hnext _hseveral

/-- `from_vec`. -/
def fromVec (B : Branching) (items : List I) : Option (Chunked I S G B) := do
  let leaves ← evenLevel B Node.newLeaf items
  return ⟨← loadLevels B 0 leaves⟩

end Definitions

section Laws

variable {M A : Type} [Item I K S G] [LinearOrder K] [Summary S] [Group G]
  [AddMonoid M] [AddCancelCommMonoid A] [LawfulSummary S M] [LawfulGroup G A]
  {h : Nat} {node : Node I S G}

/-- A shaped node wide enough to be a root. -/
structure Node.TopShaped (B : Branching) (h : Nat) (node : Node I S G) : Prop where
  shaped : node.Shaped B h
  nonempty : 1 ≤ node.width
  branches : 0 < h → 2 ≤ node.width

/-- The representation invariant of a root: its shape, and one leaf for at most
`B` items. -/
structure Node.IsRoot (B : Branching) (h : Nat) (node : Node I S G) : Prop
    extends Node.TopShaped B h node where
  small : node.items.length ≤ B.factor → h = 0

/-- The representation invariant of a tree. -/
def Chunked.Valid (tree : Chunked I S G B) : Prop :=
  ∀ root, tree.root = some root → ∃ h, root.IsRoot B h

/-- The tree is no taller than `h`, and its root wide enough to be one. A child taken
as a tree is such, which may hold few items over several leaves. -/
def Chunked.Within (h : Nat) (tree : Chunked I S G B) : Prop :=
  ∀ root, tree.root = some root → ∃ k ≤ h, root.TopShaped B k

theorem Chunked.Valid.within {tree : Chunked I S G B} (hvalid : tree.Valid) :
    ∃ h, tree.Within h := by
  obtain ⟨root⟩ := tree
  cases root with
  | none => exact ⟨0, fun root hroot => by cases hroot⟩
  | some root =>
    obtain ⟨h, hroot⟩ := hvalid root rfl
    refine ⟨h, fun root' hroot' => ?_⟩
    obtain rfl := Option.some.inj hroot'
    exact ⟨h, le_rfl, hroot.toTopShaped⟩

theorem Node.TopShaped.within (hnode : node.TopShaped B h) :
    (⟨some node⟩ : Chunked I S G B).Within h := by
  intro root hroot
  obtain rfl := Option.some.inj hroot
  exact ⟨h, le_rfl, hnode⟩

theorem valid_new : (Chunked.new : Chunked I S G B).Valid := by
  intro root hroot
  cases hroot

theorem Node.IsRoot.valid (hnode : node.IsRoot B h) :
    (⟨some node⟩ : Chunked I S G B).Valid := by
  intro root hroot
  obtain rfl := Option.some.inj hroot
  exact ⟨h, hnode⟩

/-- The items below children within the fill bounds. -/
theorem length_flatMap_full {children : List (Node I S G)}
    (hchildren : ∀ child ∈ children, Node.Full B h child) :
    children.length * (B.minFill * B.minFill ^ h) ≤ (children.flatMap Node.items).length := by
  induction children with
  | nil => simp
  | cons child rest ih =>
    have hchild := (hchildren child (by simp)).length_items
    have hrest := ih fun c hc => hchildren c (by simp [hc])
    simp only [List.length_cons, List.flatMap_cons, List.length_append, Nat.add_mul, one_mul]
    omega

theorem Node.TopShaped.items_ne_nil (hnode : node.TopShaped B h) : node.items ≠ [] := by
  have hpos := hnode.nonempty
  cases h with
  | zero =>
    obtain ⟨items, summary, rfl, _⟩ := hnode.shaped.leaf_of_zero
    rw [Node.items_leaf, ← List.length_pos_iff]
    exact hpos
  | succ h =>
    obtain ⟨children, summary, rfl, _, _, hchildren, _⟩ := hnode.shaped.internal_of_succ
    have hlen := length_flatMap_full hchildren
    have htwo := B.two_le_minFill
    have hfill : 0 < children.length * (B.minFill * B.minFill ^ h) := by
      have : 0 < children.length := hpos
      positivity
    intro hnil
    rw [Node.items_internal] at hnil
    rw [hnil, List.length_nil] at hlen
    omega

theorem Node.Full.topShaped (hnode : node.Full B h) : node.TopShaped B h := by
  have htwo := B.two_le_minFill
  have hwide := hnode.wide
  exact ⟨hnode.shaped, by omega, fun _ => by omega⟩

/-- A tree of height 2 holds more than `B` items. -/
theorem Node.TopShaped.tall (hnode : node.TopShaped B (h + 2)) :
    B.factor < node.items.length := by
  obtain ⟨children, summary, rfl, _, _, hchildren, _⟩ := hnode.shaped.internal_of_succ
  have hlen := length_flatMap_full hchildren
  have hbranches : 2 ≤ children.length := hnode.branches (by omega)
  have htwo := B.two_le_minFill
  have hle := B.factor_le
  have hpow : B.minFill ≤ B.minFill ^ (h + 1) := Nat.le_self_pow (by omega) _
  rw [Node.items_internal]
  have hmul : 2 * (B.minFill * B.minFill) ≤
      children.length * (B.minFill * B.minFill ^ (h + 1)) :=
    Nat.mul_le_mul hbranches (Nat.mul_le_mul_left _ hpow)
  nlinarith

theorem flatten_runs {children : List (Node I S G)} {runs : List (List I)}
    (hruns : List.Forall₂ (fun child items => items = child.items) children runs) :
    runs.flatten = children.flatMap Node.items := by
  induction hruns with
  | nil => rfl
  | cons hrun _ ih => rw [List.flatten_cons, List.flatMap_cons, hrun, ih]

/-- The root a node wide enough gives, itself or the one leaf of its items. -/
theorem rooted_root_yields (hnode : node.TopShaped B h) :
    Yields True (rooted B node)
      (fun tree => ∃ root k, tree = ⟨some root⟩ ∧ k ≤ h ∧ root.IsRoot B k ∧
        root.items = node.items) := by
  match h, hnode with
  | 0, hnode =>
    obtain ⟨items, summary, rfl, _⟩ := hnode.shaped.leaf_of_zero
    exact ⟨_, 0, rfl, le_rfl, ⟨hnode, fun _ => rfl⟩, rfl⟩
  | 1, hnode =>
    obtain ⟨children, summary, rfl, hlen, hne, hchildren, hsummary⟩ :=
      hnode.shaped.internal_of_succ
    have hcount : summary.count = (children.flatMap Node.items).length := hsummary.count
    simp only [rooted]
    split
    · next hfew =>
      have hleaves : Yields True (children.mapM fun child =>
          match child with
          | .leaf items _ => some items
          | .internal _ _ _ => none)
          (List.Forall₂ (fun child items => items = child.items) children) := by
        refine yields_mapM _ fun child hchild => ?_
        obtain ⟨items, summary, rfl, _⟩ := (hchildren child hchild).shaped.leaf_of_zero
        simp
      refine hleaves.bind fun runs hruns => ?_
      have hflat := flatten_runs hruns
      have hleaf := Node.leafWith_yields (B := B) (children.flatMap Node.items) summary.group
        (by omega) hsummary.group
      rw [hflat]
      refine (hleaf.mono (fun _ => hsummary.fits) fun _ hn => hn).bind fun leaf hleaf => ?_
      obtain ⟨hshaped, hwidth, hitems⟩ := hleaf
      have hpos : 0 < (children.flatMap Node.items).length :=
        List.length_pos_iff.mpr (by simpa using hnode.items_ne_nil)
      refine ⟨leaf, 0, rfl, by omega, ⟨⟨hshaped, ?_, fun hlt => absurd hlt (by omega)⟩,
        fun _ => rfl⟩, ?_⟩
      · rw [hwidth]
        exact hpos
      · simp [hitems]
    · next hmany =>
      refine ⟨_, 1, rfl, le_rfl, ⟨hnode, fun hfew => ?_⟩, rfl⟩
      rw [Node.items_internal] at hfew
      omega
  | h + 2, hnode =>
    have htall := hnode.tall
    obtain ⟨children, summary, rfl, _⟩ := hnode.shaped.internal_of_succ
    exact ⟨_, h + 2, rfl, le_rfl, ⟨hnode, fun hfew => absurd hfew (by omega)⟩, rfl⟩

theorem rooted_yields (hnode : node.TopShaped B h) :
    Yields True (rooted B node) (fun tree => tree.Valid ∧ tree.items = node.items) := by
  refine (rooted_root_yields hnode).imp fun tree htree => ?_
  obtain ⟨root, k, rfl, _, hroot, hitems⟩ := htree
  exact ⟨hroot.valid, hitems⟩

/-- The root above a replacement. -/
theorem grow_yields {replacement : Replacement I S G} {items : List I} {group : Option G}
    (hr : Replaces B h 1 replacement items)
    (htop : replacement.2 = none → 0 < h → 2 ≤ replacement.1.width)
    (hgroup : Yields (Fits items) group
      (fun group => LawfulSummary.value group = (groupValue items : A))) :
    Yields (Fits items) (grow replacement group)
      (fun root => ∃ h, root.TopShaped B h ∧ root.items = items) := by
  obtain ⟨left, right⟩ := replacement
  cases right with
  | none =>
    have hitems := hr.items
    simp only [Replacement.nodes, Option.toList_none, List.flatMap_cons, List.flatMap_nil,
      List.append_nil] at hitems
    exact ⟨h, ⟨hr.shaped left (by simp [Replacement.nodes]), hr.single rfl, htop rfl⟩, hitems⟩
  | some right =>
    have hfull : ∀ node ∈ [left, right], Node.Full B h node := fun node hnode =>
      ⟨hr.shaped node (by simpa [Replacement.nodes] using hnode),
        hr.pair (by simp) node (by simpa [Replacement.nodes] using hnode)⟩
    have hitems : [left, right].flatMap Node.items = items := by
      simpa [Replacement.nodes] using hr.items
    have hheight : left.height = h := (hfull left (by simp)).shaped.height_eq
    have hfive := B.five_le
    simp only [grow, hheight]
    refine hgroup.bind fun group hvalue => ?_
    have hbuild := Node.internalWith_yields (B := B) [left, right] group (by simp; omega)
      (by simp) hfull (by rw [hitems, hvalue])
    rw [hitems] at hbuild
    refine hbuild.imp fun root hroot => ?_
    obtain ⟨hshaped, hwidth, hrootItems⟩ := hroot
    exact ⟨h + 1, ⟨hshaped, by simp [hwidth], fun _ => by simp [hwidth]⟩, hrootItems⟩

/-- Nodes in place of one: each at least `least` wide or within the fill bounds, as all
of several are. -/
structure Spread (B : Branching) (h least : Nat) (nodes : List (Node I S G)) : Prop where
  shaped : ∀ node ∈ nodes, node.Shaped B h
  nonempty : nodes ≠ []
  wide : ∀ node ∈ nodes, least ≤ node.width ∨ B.minFill ≤ node.width
  several : 1 < nodes.length → ∀ node ∈ nodes, B.minFill ≤ node.width

theorem Spread.full {least : Nat} {nodes : List (Node I S G)} (hnodes : Spread B h least nodes)
    (hleast : B.minFill ≤ least) : ∀ node ∈ nodes, node.Full B h := by
  intro node hnode
  refine ⟨hnodes.shaped node hnode, ?_⟩
  rcases hnodes.wide node hnode with hwide | hwide
  · exact hleast.trans hwide
  · exact hwide

/-- Contents cut into nodes. -/
theorem cut_spread_yields {T : Type} {ok : T → Prop} {run : T → List I} {groupOf : T → G}
    {build : List T → G → Option (Node I S G)} (hb : Builds B h ok run groupOf build)
    (contents : List T) (group : G) (least : Nat) (hne : contents ≠ [])
    (hok : ∀ t ∈ contents, ok t) (hleast : least ≤ contents.length)
    (hgroup : LawfulSummary.value group = (groupValue (contents.flatMap run) : A)) :
    Yields (Fits (contents.flatMap run)) (cut B contents group groupOf build)
      (fun nodes => Spread B h least nodes ∧
        nodes.flatMap Node.items = contents.flatMap run) := by
  refine (cut_yields hb contents group hne hok hgroup).imp fun nodes hnodes => ?_
  obtain ⟨hshaped, hnodesNe, hsingle, hitems⟩ := hnodes
  refine ⟨⟨fun node hnode => (hshaped node hnode).1, hnodesNe, fun node hnode => ?_,
    fun hseveral node hnode => ?_⟩, hitems⟩
  · obtain ⟨_, hfew, hmany⟩ := hshaped node hnode
    by_cases hle : contents.length ≤ B.factor
    · exact Or.inl (by rw [hfew hle]; exact hleast)
    · exact Or.inr (hmany (by omega))
  · refine (hshaped node hnode).2.2 ?_
    by_contra hle
    have hone := hsingle (by omega)
    omega

/-- The tree over several full nodes, or over one that may be a root. -/
theorem treeOver_yields (nodes : List (Node I S G)) (group : G) (hne : nodes ≠ [])
    (hfull : 1 < nodes.length → ∀ node ∈ nodes, node.Full B h)
    (hone : nodes.length = 1 → ∀ node ∈ nodes, node.TopShaped B h)
    (hgroup : LawfulSummary.value group = (groupValue (nodes.flatMap Node.items) : A)) :
    Yields (Fits (nodes.flatMap Node.items)) (treeOver B h nodes group)
      (fun tree => tree.Valid ∧ tree.items = nodes.flatMap Node.items) := by
  induction hn : nodes.length using Nat.strong_induction_on generalizing nodes h with
  | _ n ih =>
    subst hn
    have hpos : 0 < nodes.length := List.length_pos_iff.mpr hne
    rw [treeOver]
    split
    · next hseveral =>
      have hcut := cut_yields (builds_children B h) nodes group hne (hfull hseveral) hgroup
      split
      · next hlevel =>
        rw [hlevel] at hcut
        exact hcut
      · next level hlevel =>
        obtain ⟨hnodes, hlevelNe, hsingle, hitems⟩ := hcut.of_eq_some hlevel
        have hlen := cut_length hlevel hseveral
        have htop : ∀ node ∈ level, node.TopShaped B (h + 1) := by
          intro node hnode
          obtain ⟨hshaped, hfew, hmany⟩ := hnodes node hnode
          by_cases hle : nodes.length ≤ B.factor
          · have := hfew hle
            exact ⟨hshaped, by omega, fun _ => by omega⟩
          · exact Node.Full.topShaped ⟨hshaped, hmany (by omega)⟩
        rw [← hitems] at hgroup ⊢
        refine ih level.length hlen level hlevelNe (fun hmore node hnode => ?_)
          (fun _ => htop) hgroup rfl
        obtain ⟨hshaped, _, hmany⟩ := hnodes node hnode
        refine ⟨hshaped, hmany ?_⟩
        by_contra hle
        have := hsingle (by omega)
        omega
    · next hfew =>
      obtain ⟨node, rfl⟩ := List.length_eq_one_iff.mp (by omega : nodes.length = 1)
      have hroot := rooted_yields (hone rfl node (by simp))
      simp only [List.getLast?_singleton, Option.bind_eq_bind, Option.bind_some,
        List.flatMap_cons, List.flatMap_nil, List.append_nil]
      exact hroot.mono (fun _ => trivial) fun _ htree => htree

/-- The tree over the nodes in place of a root. -/
theorem treeOver_spread_yields {root : Node I S G} (hroot : root.TopShaped B h)
    (nodes : List (Node I S G)) (group : G) (hnodes : Spread B h root.width nodes)
    (hgroup : LawfulSummary.value group = (groupValue (nodes.flatMap Node.items) : A)) :
    Yields (Fits (nodes.flatMap Node.items)) (treeOver B h nodes group)
      (fun tree => tree.Valid ∧ tree.items = nodes.flatMap Node.items) := by
  have htwo := B.two_le_minFill
  refine treeOver_yields nodes group hnodes.nonempty
    (fun hseveral node hnode => ⟨hnodes.shaped node hnode, hnodes.several hseveral node hnode⟩)
    (fun _ node hnode => ?_) hgroup
  have hnonempty := hroot.nonempty
  have hbranches := hroot.branches
  have hwide := hnodes.wide node hnode
  refine ⟨hnodes.shaped node hnode, by omega, fun hpos => ?_⟩
  have := hbranches hpos
  omega

theorem loadLevels_yields (level : List (Node I S G)) (hne : level ≠ [])
    (hfull : 1 < level.length → ∀ node ∈ level, node.Full B h)
    (hone : level.length = 1 → ∀ node ∈ level, node.TopShaped B h)
    (hsmall : (level.flatMap Node.items).length ≤ B.factor → level.length = 1 ∧ h = 0) :
    Yields (Fits (level.flatMap Node.items)) (loadLevels B h level)
      (fun root => ∃ h node, root = some node ∧ node.IsRoot B h ∧
        node.items = level.flatMap Node.items) := by
  induction hn : level.length using Nat.strong_induction_on generalizing level h with
  | _ n ih =>
    subst hn
    have hpos : 0 < level.length := List.length_pos_iff.mpr hne
    rw [loadLevels]
    split
    · next hseveral =>
      have hload := evenLevel_yields (B := B) (h := h + 1) (fun node => node.Full B h)
        Node.items (Node.newInternal (h + 1)) level hne (hfull hseveral)
        fun part hpart hlen hok => Node.newInternal_yields part hlen hpart hok
      split
      · next hnext =>
        rw [hnext] at hload
        exact hload
      · next next hnext =>
        obtain ⟨hnodes, hnextNe, hsingle, hitems⟩ := hload.of_eq_some hnext
        have hlen := evenLevel_length hnext hseveral
        rw [← hitems] at hsmall ⊢
        refine ih next.length hlen next hnextNe (fun hmore node hnode => ?_)
          (fun _ node hnode => ?_) (fun hle => ?_) rfl
        · obtain ⟨hshaped, _, hmany⟩ := hnodes node hnode
          refine ⟨hshaped, hmany ?_⟩
          by_contra hle
          have := hsingle (by omega)
          omega
        · obtain ⟨hshaped, hfew, hmany⟩ := hnodes node hnode
          by_cases hle : level.length ≤ B.factor
          · have := hfew hle
            exact ⟨hshaped, by omega, fun _ => by omega⟩
          · exact Node.Full.topShaped ⟨hshaped, hmany (by omega)⟩
        · have := (hsmall hle).1
          omega
    · next hfew =>
      obtain ⟨node, rfl⟩ := List.length_eq_one_iff.mp (by omega : level.length = 1)
      rw [List.flatMap_singleton] at hsmall ⊢
      exact ⟨h, node, rfl, ⟨hone rfl node (by simp), fun hle => (hsmall hle).2⟩, rfl⟩

/-- A bulk load gives a valid tree of the items. -/
theorem fromVec_yields (B : Branching) (items : List I) :
    Yields (Fits items) (fromVec B items) (fun tree => tree.Valid ∧ tree.items = items) := by
  unfold fromVec
  by_cases hne : items = []
  · subst hne
    have hleaves : evenLevel B (Node.newLeaf (I := I)) [] = some [] := by
      simp [evenLevel, evenParts_zero]
    rw [hleaves]
    simp only [Option.bind_eq_bind, Option.bind_some]
    rw [loadLevels]
    exact ⟨valid_new, rfl⟩
  · have hrun : (items.flatMap fun item => [item]) = items := by simp
    have hload := evenLevel_yields (B := B) (h := 0) (fun _ => True)
      (fun item => [item]) (Node.newLeaf (I := I)) items hne (fun _ _ => trivial)
      fun part hpart hlen _ => by
        have hpartRun : (part.flatMap fun item => [item]) = part := by simp
        rw [hpartRun]
        exact Node.newLeaf_yields part hlen
    rw [hrun] at hload
    refine hload.bind fun leaves hleaves => ?_
    obtain ⟨hnodes, hleavesNe, hsingle, hitems⟩ := hleaves
    have hpos : 0 < items.length := List.length_pos_iff.mpr hne
    have hlevels := loadLevels_yields (B := B) (h := 0) leaves hleavesNe
      (fun hmore node hnode => by
        obtain ⟨hshaped, _, hmany⟩ := hnodes node hnode
        refine ⟨hshaped, hmany ?_⟩
        by_contra hle
        have := hsingle (by omega)
        omega)
      (fun _ node hnode => by
        obtain ⟨hshaped, hfew, hmany⟩ := hnodes node hnode
        have htwo := B.two_le_minFill
        refine ⟨hshaped, ?_, fun hlt => absurd hlt (by omega)⟩
        by_cases hle : items.length ≤ B.factor
        · have := hfew hle
          omega
        · have := hmany (by omega)
          omega)
      (fun hle => ⟨hsingle (by rw [← hitems]; exact hle), rfl⟩)
    rw [hitems] at hlevels
    refine hlevels.bind fun root hroot => ?_
    obtain ⟨h, node, rfl, hnode, hnodeItems⟩ := hroot
    exact ⟨hnode.valid, by simpa using hnodeItems⟩

end Laws

end KRust.Term.Chunks
