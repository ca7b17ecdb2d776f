import KRust.Term.Chunks.JoinLaws
import KRust.Term.Chunks.Rebuild

/-!
The union of two ordered sequences. The taller tree is copied, the other one cut at
the first items of its children and each child united with its part; a part as tall
as the node is the one copied instead, with the child united into it.
-/

set_option linter.unusedSectionVars false

namespace KRust.Term.Chunks

open KRust.Lib KRust.Lib.Partial

variable {I K S G : Type} {B : Branching}

section Definitions

variable [Item I K S G] [LinearOrder K] [LinearOrder I] [Summary S] [Group G]

/-- The merge of two leaves' runs: one of the other's items, after those of `mine` not
above it. -/
def mergeItem (run : List I × List I) (theirs : I) : List I × List I :=
  let (merged, mine) := run
  (merged ++ mine.takeWhile (fun item => decide (item ≤ theirs)) ++ [theirs],
    mine.dropWhile fun item => decide (item ≤ theirs))

def mergeItems (items others : List I) : List I :=
  let (merged, mine) := others.foldl mergeItem ([], items)
  merged ++ mine

/-- The children of nodes that are internal. -/
def childrenOf (nodes : List (Node I S G)) : Option (List (Node I S G)) := do
  let children ← nodes.mapM fun node =>
    match node with
    | .leaf _ _ => none
    | .internal _ children _ => some children
  return children.flatten

/-- The loop of `union_node` over the children: each is united with its part of
`rest`. `unite` is `union_node` itself. -/
def unionChildren (unite : Node I S G → Chunked I S G B → Option (List (Node I S G) × G))
    (height : Nat) : List (Node I S G) → Chunked I S G B → Option (List (Node I S G))
  | [], _ => some []
  | child :: later, rest =>
    if rest.isEmpty then some (child :: later)
    else do
      let (part, rest) ←
        (match later.head? with
        | some next => do
          let bound ← next.summary.first
          splitAt rest (← partitionPoint rest fun item => decide (item < bound))
        | none => some (rest, Chunked.new) : Option _)
      let united ←
        (match part.root with
        | none => some [child]
        | some root =>
          if root.height = height then do childrenOf (← unite root ⟨some child⟩).1
          else do return (← unite child part).1 : Option _)
      return united ++ (← unionChildren unite height later rest)

/-- `union_node`, with a bound on the depth of the recursion. -/
def unionNode : Nat → Node I S G → Chunked I S G B → Option (List (Node I S G) × G)
  | 0, _, _ => none
  | depth + 1, node, other =>
    match other.root with
    | none => some ([node], node.summary.group)
    | some added => do
      let group ← Summary.combine node.summary.group added.summary.group
      match node with
      | .leaf items _ => do
        let merged := mergeItems items (← toVec other)
        return (← cut B merged group Item.group Node.leafWith, group)
      | .internal height children _ => do
        let united ← unionChildren (unionNode depth) height children other
        return (← cut B united group childGroup (Node.internalWith height), group)

/-- `union`. A level is entered at most twice, as the roles change at most once on
it. -/
def union (left right : Chunked I S G B) : Option (Chunked I S G B) :=
  match left.root, right.root with
  | none, _ => some right
  | _, none => some left
  | some l, some r => do
    let (pivot, added) := if l.height ≥ r.height then (l, right) else (r, left)
    let (nodes, group) ← unionNode (2 * pivot.height + 2) pivot added
    treeOver B pivot.height nodes group

end Definitions

section Merge

variable [LinearOrder I]

/-- What a merge keeps: the merged items come before what is left of either run. -/
structure Merging (items seen others : List I) (run : List I × List I) : Prop where
  sorted : (run.1 ++ run.2).Pairwise (· ≤ ·)
  below : ∀ x ∈ run.1, ∀ y ∈ others, x ≤ y
  perm : (run.1 ++ run.2).Perm (items ++ seen)

theorem mergeItem_merging {items seen others : List I} {theirs : I} {run : List I × List I}
    (hrun : Merging items seen (theirs :: others) run)
    (hothers : (theirs :: others).Pairwise (· ≤ ·)) :
    Merging items (seen ++ [theirs]) others (mergeItem run theirs) := by
  obtain ⟨merged, mine⟩ := run
  obtain ⟨hsorted, hbelow, hperm⟩ := hrun
  simp only at hsorted hbelow hperm
  obtain ⟨hmerged, hmine, hcross⟩ := List.pairwise_append.mp hsorted
  have hinsert := sorted_takeWhile_le hmine theirs
  have hsplit : mine.takeWhile (fun item => decide (item ≤ theirs)) ++
      mine.dropWhile (fun item => decide (item ≤ theirs)) = mine :=
    List.takeWhile_append_dropWhile
  have htake : ∀ x ∈ mine.takeWhile (fun item => decide (item ≤ theirs)), x ≤ theirs :=
    fun x hx => by simpa using List.mem_takeWhile_imp hx
  have hshape : (mergeItem (merged, mine) theirs).1 ++ (mergeItem (merged, mine) theirs).2 =
      merged ++ (mine.takeWhile (fun item => decide (item ≤ theirs)) ++ theirs ::
        mine.dropWhile fun item => decide (item ≤ theirs)) := by
    simp [mergeItem]
  constructor
  · rw [hshape]
    refine List.pairwise_append.mpr ⟨hmerged, hinsert, fun x hx y hy => ?_⟩
    rcases List.mem_append.mp hy with hy | hy
    · exact hcross x hx y (hsplit ▸ List.mem_append_left _ hy)
    · rcases List.mem_cons.mp hy with rfl | hy
      · exact hbelow x hx y (by simp)
      · exact hcross x hx y (hsplit ▸ List.mem_append_right _ hy)
  · intro x hx y hy
    have hnext := List.rel_of_pairwise_cons hothers hy
    simp only [mergeItem, List.mem_append, List.mem_singleton] at hx
    rcases hx with (hx | hx) | rfl
    · exact hbelow x hx y (by simp [hy])
    · exact (htake x hx).trans hnext
    · exact hnext
  · rw [hshape]
    have hmid : (mine.takeWhile (fun item => decide (item ≤ theirs)) ++ theirs ::
        mine.dropWhile fun item => decide (item ≤ theirs)).Perm (theirs :: mine) := by
      refine List.perm_middle.trans (List.Perm.cons _ ?_)
      rw [hsplit]
    refine (hmid.append_left merged).trans (List.perm_middle.trans ?_)
    refine (hperm.cons theirs).trans ?_
    rw [← List.append_assoc]
    exact (List.perm_append_singleton theirs _).symm

theorem mergeItems_merging (items others : List I) (hitems : items.Pairwise (· ≤ ·))
    (hothers : others.Pairwise (· ≤ ·)) :
    (mergeItems items others).Pairwise (· ≤ ·) ∧ (mergeItems items others).Perm (items ++ others) := by
  have hloop : ∀ (rest seen : List I) (run : List I × List I), rest.Pairwise (· ≤ ·) →
      Merging items seen rest run → Merging items (seen ++ rest) [] (rest.foldl mergeItem run) := by
    intro rest
    induction rest with
    | nil =>
      intro seen run _ hrun
      simpa using hrun
    | cons theirs rest ih =>
      intro seen run hrest hrun
      have hnext := ih (seen ++ [theirs]) _ hrest.of_cons (mergeItem_merging hrun hrest)
      simpa using hnext
  have hdone := hloop others [] ([], items) hothers
    ⟨by simpa using hitems, by simp, by simp⟩
  exact ⟨hdone.sorted, by simpa [mergeItems] using hdone.perm⟩

end Merge

section Laws

variable {M A : Type} [Item I K S G] [LinearOrder K] [LinearOrder I] [Summary S] [Group G]
  [AddMonoid M] [AddCancelCommMonoid A] [LawfulSummary S M] [LawfulGroup G A] {h k : Nat}

/-- Sorted items among sorted items that fit. -/
theorem Fits.of_subperm {xs whole : List I} (hfits : Fits whole) (hxs : xs.Pairwise (· ≤ ·))
    (hwhole : whole.Pairwise (· ≤ ·)) (hsub : xs.Subperm whole) : Fits xs :=
  hfits.sublist (List.sublist_of_subperm_of_pairwise hsub hxs hwhole)

/-- The group summary does not depend on the order of the items. -/
theorem Fits.representable_of_subperm {xs whole : List I} (hfits : Fits whole)
    (hsub : xs.Subperm whole) : LawfulSummary.Representable G (groupValue xs : A) := by
  obtain ⟨ys, hperm, hsublist⟩ := hsub
  rw [← groupValue_perm hperm]
  exact (hfits.sublist hsublist).group

/-- The nodes of height `h` that a union gives in place of one of width `least`,
holding `items` in order. -/
structure UnionOf (B : Branching) (h least : Nat) (items : List I)
    (result : List (Node I S G) × G) : Prop where
  spread : Spread B h least result.1
  sorted : (result.1.flatMap Node.items).Pairwise (· ≤ ·)
  perm : (result.1.flatMap Node.items).Perm items
  group : LawfulSummary.value result.2 = (groupValue items : A)

/-- What `union_node` does within `depth` calls. A call on a node of height `h` needs
two more than on one a level below, and one fewer when the other tree is lower. -/
def Unites (B : Branching) (depth : Nat) : Prop :=
  ∀ (h k : Nat) (node : Node I S G) (other : Chunked I S G B) (whole : List I),
    node.TopShaped B h → other.Within k → k ≤ h → (2 * h + 1 < depth ∨ k < h ∧ 2 * h < depth) →
    node.items.Pairwise (· ≤ ·) → other.items.Pairwise (· ≤ ·) → whole.Pairwise (· ≤ ·) →
    (node.items ++ other.items).Subperm whole →
    Yields (Fits whole) (unionNode depth node other)
      (UnionOf B h node.width (node.items ++ other.items))

theorem childrenOf_eq (nodes : List (Node I S G)) (hnodes : ∀ node ∈ nodes, node.Shaped B (h + 1)) :
    ∃ children, childrenOf nodes = some children ∧ (∀ c ∈ children, c.Full B h) ∧
      nodes.length ≤ children.length ∧
      children.flatMap Node.items = nodes.flatMap Node.items := by
  induction nodes with
  | nil => exact ⟨[], rfl, by simp, le_rfl, rfl⟩
  | cons node rest ih =>
    obtain ⟨more, hmore, hfull, hlen, hitems⟩ := ih fun n hn => hnodes n (by simp [hn])
    obtain ⟨children, summary, rfl, _, hne, hchildren, _⟩ :=
      (hnodes node (by simp)).internal_of_succ
    have hpos := List.length_pos_iff.mpr hne
    obtain ⟨runs, hruns, hflat⟩ := Option.bind_eq_some_iff.mp hmore
    refine ⟨children ++ more, ?_, ?_, ?_, ?_⟩
    · obtain rfl := Option.some.inj hflat
      unfold childrenOf
      rw [List.mapM_cons]
      simp only [hruns, Option.bind_eq_bind, Option.bind_some]
      rfl
    · intro c hc
      rcases List.mem_append.mp hc with hc | hc
      · exact hchildren c hc
      · exact hfull c hc
    · simp only [List.length_cons, List.length_append]
      omega
    · rw [List.flatMap_append, List.flatMap_cons, hitems, Node.items_internal]

/-- A child united with its part of the other tree. -/
theorem unitePart_yields {depth : Nat} (hunite : Unites (I := I) (S := S) (G := G) B depth)
    {child : Node I S G} {part : Chunked I S G B} {whole : List I} (hchild : child.Full B h)
    (hpart : part.Within k) (hk : k ≤ h + 1)
    (hdepth : 2 * (h + 1) < depth ∨ k < h + 1 ∧ 2 * h + 1 < depth)
    (hchildSorted : child.items.Pairwise (· ≤ ·)) (hpartSorted : part.items.Pairwise (· ≤ ·))
    (hwhole : whole.Pairwise (· ≤ ·)) (hsub : (child.items ++ part.items).Subperm whole) :
    Yields (Fits whole)
      (match part.root with
        | none => some [child]
        | some root =>
          if root.height = h + 1 then do
            childrenOf (← unionNode depth root (⟨some child⟩ : Chunked I S G B)).1
          else do return (← unionNode depth child part).1)
      (fun united => (∀ c ∈ united, c.Full B h) ∧ 1 ≤ united.length ∧
        (united.flatMap Node.items).Pairwise (· ≤ ·) ∧
        (united.flatMap Node.items).Perm (child.items ++ part.items)) := by
  obtain ⟨root⟩ := part
  cases root with
  | none =>
    refine ⟨?_, le_rfl, by simpa using hchildSorted, by simp⟩
    intro c hc
    rw [List.mem_singleton.mp hc]
    exact hchild
  | some root =>
    obtain ⟨k', hk', hroot⟩ := hpart root rfl
    simp only [Chunked.items_some] at hpartSorted hsub ⊢
    rw [hroot.shaped.height_eq]
    split
    · -- The part is as tall as the node: the child is united into it.
      next hheight =>
      subst hheight
      have hswap := hunite (h + 1) h root ⟨some child⟩ whole hroot hchild.topShaped.within
        (by omega) (Or.inr ⟨by omega, by omega⟩) hpartSorted hchildSorted hwhole
        (List.perm_append_comm.subperm.trans hsub)
      refine hswap.bind fun result hresult => ?_
      obtain ⟨children, hchildren, hfull, hlen, hitems⟩ := childrenOf_eq result.1 hresult.spread.shaped
      have hpos := List.length_pos_iff.mpr hresult.spread.nonempty
      rw [hchildren]
      refine ⟨hfull, by omega, ?_, ?_⟩
      · rw [hitems]
        exact hresult.sorted
      · rw [hitems]
        exact hresult.perm.trans List.perm_append_comm
    · next hheight =>
      have hlower := hunite h k' child ⟨some root⟩ whole hchild.topShaped hroot.within (by omega)
        (Or.inl (by omega)) hchildSorted hpartSorted hwhole hsub
      refine hlower.bind fun result hresult => ?_
      have hpos := List.length_pos_iff.mpr hresult.spread.nonempty
      exact ⟨hresult.spread.full hchild.wide, by omega, hresult.sorted, hresult.perm⟩

theorem le_of_mem_dropWhile_lt {xs : List I} (hsorted : xs.Pairwise (· ≤ ·)) (bound : I) :
    ∀ y ∈ xs.dropWhile (fun item => decide (item < bound)), bound ≤ y := by
  have hsuffix := hsorted.sublist (List.dropWhile_sublist fun item => decide (item < bound))
  have hhead := List.head?_dropWhile_not (fun item => decide (item < bound)) xs
  intro y hy
  cases hdrop : xs.dropWhile (fun item => decide (item < bound)) with
  | nil => simp [hdrop] at hy
  | cons z zs =>
    rw [hdrop] at hy hhead hsuffix
    have hz : bound ≤ z := by
      have : ¬ z < bound := by simpa using hhead
      exact not_lt.mp this
    rcases List.mem_cons.mp hy with rfl | hy
    · exact hz
    · exact hz.trans (List.rel_of_pairwise_cons hsuffix hy)

theorem unionChildren_yields {depth : Nat} (hunite : Unites (I := I) (S := S) (G := G) B depth)
    (children : List (Node I S G)) {rest : Chunked I S G B} {whole : List I}
    (hne : children ≠ []) (hchildren : ∀ c ∈ children, c.Full B h) (hrest : rest.Within k)
    (hk : k ≤ h + 1) (hdepth : 2 * (h + 1) < depth ∨ k < h + 1 ∧ 2 * h + 1 < depth)
    (hsorted : (children.flatMap Node.items).Pairwise (· ≤ ·))
    (hrestSorted : rest.items.Pairwise (· ≤ ·)) (hwhole : whole.Pairwise (· ≤ ·))
    (hsub : (children.flatMap Node.items ++ rest.items).Subperm whole) :
    Yields (Fits whole) (unionChildren (unionNode depth) (h + 1) children rest)
      (fun united => (∀ c ∈ united, c.Full B h) ∧ children.length ≤ united.length ∧
        (united.flatMap Node.items).Pairwise (· ≤ ·) ∧
        (united.flatMap Node.items).Perm (children.flatMap Node.items ++ rest.items)) := by
  induction children generalizing rest with
  | nil => exact absurd rfl hne
  | cons child later ih =>
    have hchild := hchildren child (by simp)
    rw [List.flatMap_cons] at hsorted hsub ⊢
    obtain ⟨hchildSorted, hlaterSorted, hcross⟩ := List.pairwise_append.mp hsorted
    rw [unionChildren]
    split
    · next hempty =>
      have hitems : rest.items = [] := by
        obtain ⟨root⟩ := rest
        cases root with
        | none => rfl
        | some root => simp [Chunked.isEmpty] at hempty
      refine ⟨hchildren, le_rfl, ?_, ?_⟩
      · rw [List.flatMap_cons]
        exact hsorted
      · rw [hitems, List.append_nil, List.flatMap_cons]
    · cases later with
      | nil =>
        simp only [List.flatMap_nil, List.append_nil, List.head?_nil, Option.bind_eq_bind,
          Option.bind_some] at hsub ⊢
        refine (unitePart_yields hunite hchild hrest hk hdepth hchildSorted hrestSorted hwhole
          hsub).bind fun united hunited => ?_
        simpa [unionChildren] using hunited
      | cons next more =>
        have hnext := hchildren next (by simp)
        obtain ⟨bound, others, hbound⟩ := List.exists_cons_of_ne_nil hnext.items_ne_nil
        have hfirst : next.summary.first = some bound := by
          rw [hnext.shaped.summarizes.first, hbound]
          rfl
        have hpoint := partitionPoint_eq hrest (fun item => decide (item < bound))
          (hrestSorted.imp fun hxy hy => by
            simp only [decide_eq_true_eq] at hy ⊢
            exact lt_of_le_of_lt hxy hy)
        have hcut : rest.items = rest.items.takeWhile (fun item => decide (item < bound)) ++
            rest.items.dropWhile fun item => decide (item < bound) :=
          List.takeWhile_append_dropWhile.symm
        have hpartBelow : ∀ x ∈ rest.items.takeWhile (fun item => decide (item < bound)),
            x ≤ bound := fun x hx => by
          have := List.mem_takeWhile_imp hx
          exact le_of_lt (by simpa using this)
        have hrestAbove := le_of_mem_dropWhile_lt hrestSorted bound
        have hsplit := splitAt_yields hrest _ _ hcut
        simp only [List.head?_cons, hfirst, hpoint, Option.bind_eq_bind, Option.bind_some]
        refine (hsplit.mono (fun _ => trivial) fun _ hs => hs).bind fun sides hsides => ?_
        obtain ⟨part, rest'⟩ := sides
        obtain ⟨hpart, hrest'⟩ := hsides
        rw [hcut] at hrestSorted hsub
        generalize rest.items.takeWhile (fun item => decide (item < bound)) = low at *
        generalize rest.items.dropWhile (fun item => decide (item < bound)) = high at *
        obtain ⟨hlowSorted, hhighSorted, _⟩ := List.pairwise_append.mp hrestSorted
        rw [← hpart.items] at hlowSorted
        rw [← hrest'.items] at hhighSorted
        -- The items of the child and its part, and those that come after.
        have hperm : ((child.items ++ part.items) ++
            ((next :: more).flatMap Node.items ++ rest'.items)).Perm
            ((child.items ++ (next :: more).flatMap Node.items) ++ (low ++ high)) := by
          rw [hpart.items, hrest'.items, List.append_assoc, List.append_assoc]
          refine List.Perm.append_left _ ?_
          rw [← List.append_assoc, ← List.append_assoc]
          exact List.Perm.append_right _ List.perm_append_comm
        have hsubPerm := hperm.subperm.trans hsub
        have hsubPart : (child.items ++ part.items).Subperm whole :=
          (List.sublist_append_left _ _).subperm.trans hsubPerm
        have hsubLater : ((next :: more).flatMap Node.items ++ rest'.items).Subperm whole :=
          (List.sublist_append_right _ _).subperm.trans hsubPerm
        refine (unitePart_yields hunite hchild hpart.within hk hdepth hchildSorted hlowSorted hwhole
          hsubPart).bind fun united hunited => ?_
        obtain ⟨hfull, hpos, hunitedSorted, hunitedPerm⟩ := hunited
        refine (ih (by simp) (fun c hc => hchildren c (by simp [hc])) hrest'.within hlaterSorted
          hhighSorted hsubLater).bind fun after hafter => ?_
        obtain ⟨hafterFull, hafterLen, hafterSorted, hafterPerm⟩ := hafter
        have hboundMem : bound ∈ (next :: more).flatMap Node.items := by simp [hbound]
        have hboundLe : ∀ y ∈ (next :: more).flatMap Node.items, bound ≤ y := by
          intro y hy
          rw [List.flatMap_cons, hbound, List.cons_append] at hlaterSorted hy
          rcases List.mem_cons.mp hy with rfl | hy
          · exact le_rfl
          · exact List.rel_of_pairwise_cons hlaterSorted hy
        refine ⟨?_, ?_, ?_, ?_⟩
        · intro c hc
          rcases List.mem_append.mp hc with hc | hc
          · exact hfull c hc
          · exact hafterFull c hc
        · simp only [List.length_cons, List.length_append] at hafterLen ⊢
          omega
        · rw [List.flatMap_append]
          refine List.pairwise_append.mpr ⟨hunitedSorted, hafterSorted, fun x hx y hy => ?_⟩
          have hyBound : bound ≤ y := by
            rcases List.mem_append.mp (hafterPerm.mem_iff.mp hy) with hy | hy
            · exact hboundLe y hy
            · exact hrestAbove y (by rwa [hrest'.items] at hy)
          have hxBound : x ≤ bound := by
            rcases List.mem_append.mp (hunitedPerm.mem_iff.mp hx) with hx | hx
            · exact hcross x hx bound hboundMem
            · exact hpartBelow x (by rwa [hpart.items] at hx)
          exact hxBound.trans hyBound
        · rw [List.flatMap_append, hcut]
          exact (hunitedPerm.append hafterPerm).trans hperm

/-- United contents cut into nodes. -/
theorem UnionOf.of_cut {T : Type} {ok : T → Prop} {run : T → List I} {groupOf : T → G}
    {build : List T → G → Option (Node I S G)} (hb : Builds B h ok run groupOf build)
    {contents : List T} {group : G} {items whole : List I} {least : Nat} (hne : contents ≠ [])
    (hok : ∀ t ∈ contents, ok t) (hleast : least ≤ contents.length)
    (hsorted : (contents.flatMap run).Pairwise (· ≤ ·)) (hwhole : whole.Pairwise (· ≤ ·))
    (hperm : (contents.flatMap run).Perm items) (hsub : items.Subperm whole)
    (hgroup : LawfulSummary.value group = (groupValue items : A)) :
    Yields (Fits whole)
      (do return ((← cut B contents group groupOf build), group))
      (UnionOf B h least items) := by
  have hcut := cut_spread_yields hb contents group least hne hok hleast
    (by rw [hgroup, groupValue_perm hperm])
  refine (hcut.mono (fun hfits => hfits.of_subperm hsorted hwhole
    (hperm.subperm.trans hsub)) fun _ hn => hn).bind fun nodes hnodes => ?_
  obtain ⟨hspread, hitems⟩ := hnodes
  exact ⟨hspread, by rw [hitems]; exact hsorted, by rw [hitems]; exact hperm, hgroup⟩

/-- The recursion ends within its bound and gives the union. -/
theorem unionNode_yields (depth : Nat) : Unites (I := I) (S := S) (G := G) B depth := by
  induction depth with
  | zero =>
    rintro h k node other whole _ _ _ hdepth
    omega
  | succ depth ih =>
    rintro h k node other whole hnode hother hk hdepth hnodeSorted hotherSorted hwhole hsub
    have hvec := toVec_eq hother
    rw [unionNode]
    obtain ⟨root⟩ := other
    cases root with
    | none =>
      simp only [Chunked.items_none, List.append_nil]
      exact ⟨⟨by simpa using hnode.shaped, by simp, by simp, by simp⟩, by simpa using hnodeSorted,
        by simp, hnode.shaped.group_eq⟩
    | some added =>
      obtain ⟨k', hk', hadded⟩ := hother added rfl
      have hcombine := LawfulSummary.combine_yields node.summary.group added.summary.group
      rw [hnode.shaped.group_eq, hadded.shaped.group_eq, ← groupValue_append] at hcombine
      have hrepresentable : Fits whole →
          LawfulSummary.Representable G (groupValue (node.items ++ added.items) : A) :=
        fun hfits => hfits.representable_of_subperm hsub
      refine (hcombine.mono hrepresentable fun _ hc => hc).bind fun group hgroup => ?_
      cases h with
      | zero =>
        obtain ⟨items, summary, rfl, _⟩ := hnode.shaped.leaf_of_zero
        simp only [Node.items_leaf] at hnodeSorted hsub hgroup ⊢
        obtain ⟨hsorted, hperm⟩ := mergeItems_merging items _ hnodeSorted hotherSorted
        have hrun : ∀ xs : List I, (xs.flatMap fun item => [item]) = xs := by simp
        have hlen := hperm.length_eq
        rw [List.length_append] at hlen
        simp only [hvec, Option.bind_eq_bind, Option.bind_some]
        refine UnionOf.of_cut (builds_items B) ?_ (fun _ _ => trivial) ?_ ?_ hwhole ?_ hsub hgroup
        · have hpos : 1 ≤ items.length := hnode.nonempty
          rw [← List.length_pos_iff]
          omega
        · rw [Node.width_leaf]
          omega
        · rw [hrun]
          exact hsorted
        · rw [hrun]
          exact hperm
      | succ h =>
        obtain ⟨children, summary, rfl, _, hne, hchildren, _⟩ := hnode.shaped.internal_of_succ
        simp only [Node.items_internal] at hnodeSorted hsub hgroup ⊢
        refine (unionChildren_yields ih children hne hchildren hother hk (by omega) hnodeSorted
          hotherSorted hwhole hsub).bind fun united hunited => ?_
        obtain ⟨hfull, hlen, hsorted, hperm⟩ := hunited
        refine UnionOf.of_cut (builds_children B h) ?_ hfull hlen hsorted hwhole hperm hsub hgroup
        rw [← List.length_pos_iff]
        have := List.length_pos_iff.mpr hne
        omega

/-- The taller of two trees with the other united into it. -/
theorem union_pivot_yields {pivot : Node I S G} {added : Chunked I S G B} {whole : List I}
    (hpivot : pivot.TopShaped B h) (hadded : added.Within k) (hk : k ≤ h)
    (hpivotSorted : pivot.items.Pairwise (· ≤ ·)) (haddedSorted : added.items.Pairwise (· ≤ ·))
    (hwhole : whole.Pairwise (· ≤ ·)) (hperm : (pivot.items ++ added.items).Perm whole) :
    Yields (Fits whole)
      (do
        let (nodes, group) ← unionNode (2 * pivot.height + 2) pivot added
        treeOver B pivot.height nodes group)
      (fun tree => tree.Valid ∧ tree.items = whole) := by
  rw [hpivot.shaped.height_eq]
  refine (unionNode_yields (2 * h + 2) h k pivot added whole hpivot hadded hk (by omega)
    hpivotSorted haddedSorted hwhole hperm.subperm).bind fun result hresult => ?_
  obtain ⟨nodes, group⟩ := result
  have hitems : nodes.flatMap Node.items = whole :=
    (hresult.perm.trans hperm).eq_of_pairwise' hresult.sorted hwhole
  have hover := treeOver_spread_yields hpivot nodes group hresult.spread
    (by rw [hresult.group, groupValue_perm hresult.perm])
  rw [hitems] at hover
  exact hover

/-- The union of two ordered sequences is the sorted list of both one's items. -/
theorem union_yields {left right : Chunked I S G B} (hleft : left.Valid) (hright : right.Valid)
    (hleftSorted : left.items.Pairwise (· ≤ ·)) (hrightSorted : right.items.Pairwise (· ≤ ·)) :
    Yields (Fits ((left.items ++ right.items).insertionSort (· ≤ ·))) (union left right)
      (fun tree => tree.Valid ∧
        tree.items = (left.items ++ right.items).insertionSort (· ≤ ·)) := by
  have hwhole := List.pairwise_insertionSort (· ≤ ·) (left.items ++ right.items)
  have hperm := (List.perm_insertionSort (· ≤ ·) (left.items ++ right.items)).symm
  generalize (left.items ++ right.items).insertionSort (· ≤ ·) = whole at *
  obtain ⟨l⟩ := left
  obtain ⟨r⟩ := right
  cases l with
  | none => exact ⟨hright, by simpa using hperm.eq_of_pairwise' (by simpa using hrightSorted) hwhole⟩
  | some l =>
    cases r with
    | none => exact ⟨hleft, by simpa using hperm.eq_of_pairwise' (by simpa using hleftSorted) hwhole⟩
    | some r =>
      obtain ⟨h, hl⟩ := hleft l rfl
      obtain ⟨k, hr⟩ := hright r rfl
      simp only [union, hl.shaped.height_eq, hr.shaped.height_eq]
      by_cases hle : h ≥ k
      · simp only [if_pos hle]
        exact union_pivot_yields hl.toTopShaped hr.within hle hleftSorted hrightSorted hwhole hperm
      · simp only [if_neg hle]
        exact union_pivot_yields hr.toTopShaped hl.within (by omega) hrightSorted hleftSorted hwhole
          (List.perm_append_comm.trans hperm)

/-- The union of two ordered sequences, of any heights, is a valid tree of the sorted
sum of their items: ordered, and holding each item as often as both together. -/
theorem union_multiset_sum {left right : Chunked I S G B} (hleft : left.Valid)
    (hright : right.Valid) (hleftSorted : left.items.Pairwise (· ≤ ·))
    (hrightSorted : right.items.Pairwise (· ≤ ·)) :
    Yields (Fits ((left.items ++ right.items).insertionSort (· ≤ ·))) (union left right)
      (fun tree => tree.Valid ∧
        tree.items = (left.items ++ right.items).insertionSort (· ≤ ·) ∧
        tree.items.Pairwise (· ≤ ·) ∧
        ∀ item, tree.items.count item = left.items.count item + right.items.count item) := by
  refine (union_yields hleft hright hleftSorted hrightSorted).imp fun tree htree => ?_
  obtain ⟨hvalid, hitems⟩ := htree
  have hperm := List.perm_insertionSort (· ≤ ·) (left.items ++ right.items)
  refine ⟨hvalid, hitems, ?_, fun item => ?_⟩
  · rw [hitems]
    exact List.pairwise_insertionSort (· ≤ ·) _
  · rw [hitems, hperm.count_eq, List.count_append]

/-- The second operand the taller one, with items of the first among its own. -/
theorem union_multiset_sum_numbers :
    ∃ left right result : Chunked Nat Unit Unit ⟨5, by decide⟩,
      left.items = [2, 5] ∧ right.items = [1, 2, 3, 4, 5, 6, 7] ∧
      union left right = some result ∧ result.items = [1, 2, 2, 3, 4, 5, 5, 6, 7] := by
  have hfits : ∀ xs : List Nat, xs.length ≤ usizeMax → Fits xs := fun xs h => ⟨h, trivial, trivial⟩
  obtain ⟨left, _, hleft, hleftItems⟩ :=
    (fromVec_yields ⟨5, by decide⟩ [2, 5]).total (hfits _ (by decide))
  obtain ⟨right, _, hright, hrightItems⟩ :=
    (fromVec_yields ⟨5, by decide⟩ [1, 2, 3, 4, 5, 6, 7]).total (hfits _ (by decide))
  obtain ⟨result, hresult, _, hitems, _⟩ := (union_multiset_sum hleft hright
    (by rw [hleftItems]; decide) (by rw [hrightItems]; decide)).total
      (hfits _ (by rw [hleftItems, hrightItems]; decide))
  refine ⟨left, right, result, hleftItems, hrightItems, hresult, ?_⟩
  rw [hitems, hleftItems, hrightItems]
  decide

end Laws

end KRust.Term.Chunks
