import KRust.Term.Chunks.EditLaws

/-!
What joining two trees and splitting one do. A join keeps the width of the taller
node, so a full node joined to a short one leaves full nodes; a split builds one
node a level on either side of the cut.
-/

set_option linter.unusedSectionVars false

namespace KRust.Term.Chunks

open KRust.Lib KRust.Lib.Partial

variable {I K S G M A : Type} [Item I K S G] [LinearOrder K] [Summary S] [Group G]
  [AddMonoid M] [AddCancelCommMonoid A] [LawfulSummary S M] [LawfulGroup G A]
  {B : Branching} {h k : Nat} {left right node : Node I S G}

/-- What a join gives: nodes of the taller one's height, no narrower than it. -/
structure Joins (B : Branching) (h k : Nat) (left right : Node I S G)
    (replacement : Replacement I S G) : Prop where
  tallLeft : k ≤ h → Replaces B h left.width replacement (left.items ++ right.items)
  tallRight : h ≤ k → Replaces B k right.width replacement (left.items ++ right.items)

/-- The taller node's last child joined to the shorter node. -/
theorem join_last_yields {pre : List (Node I S G)} {last : Node I S G} {group : G}
    {summary : NodeSummary I S G} (hnode : (Node.internal (h + 1) (pre ++ [last]) summary).Shaped B (h + 1))
    (hlast : last.Full B h)
    (hchildren : ∀ c ∈ pre, c.Full B h) {replacement : Replacement I S G} {items : List I}
    (hr : Replaces B h last.width replacement (last.items ++ items))
    (hgroup : LawfulSummary.value group =
      (groupValue ((pre ++ [last]).flatMap Node.items ++ items) : A)) :
    Yields (Fits ((pre ++ [last]).flatMap Node.items ++ items))
      (packChildren B (h + 1) (pre ++ replacement.nodes) group)
      (fun result => Replaces B (h + 1) (pre ++ [last]).length result
        ((pre ++ [last]).flatMap Node.items ++ items)) := by
  have hflat : (pre ++ replacement.nodes).flatMap Node.items =
      (pre ++ [last]).flatMap Node.items ++ items := by
    simp [hr.items]
  have hwidth := hnode.width_le
  have htwo := hr.length_le
  have hfive := B.five_le
  rw [← hflat] at hgroup ⊢
  refine (packChildren_yields _ group (by simp [Replacement.nodes]) ?_ ?_ hgroup).imp
    fun result hresult => hresult.mono ?_
  · simp only [Node.width_internal, List.length_append, List.length_singleton] at hwidth ⊢
    omega
  · intro c hc
    rcases List.mem_append.mp hc with hc | hc
    · exact hchildren c hc
    · exact hr.full hlast.wide c hc
  · simp [Replacement.nodes]

/-- The taller node's first child joined to the shorter node. -/
theorem join_first_yields {post : List (Node I S G)} {first : Node I S G} {group : G}
    {summary : NodeSummary I S G} (hnode : (Node.internal (h + 1) (first :: post) summary).Shaped B (h + 1))
    (hfirst : first.Full B h)
    (hchildren : ∀ c ∈ post, c.Full B h) {replacement : Replacement I S G} {items : List I}
    (hr : Replaces B h first.width replacement (items ++ first.items))
    (hgroup : LawfulSummary.value group =
      (groupValue (items ++ (first :: post).flatMap Node.items) : A)) :
    Yields (Fits (items ++ (first :: post).flatMap Node.items))
      (packChildren B (h + 1) (replacement.nodes ++ post) group)
      (fun result => Replaces B (h + 1) (first :: post).length result
        (items ++ (first :: post).flatMap Node.items)) := by
  have hflat : (replacement.nodes ++ post).flatMap Node.items =
      items ++ (first :: post).flatMap Node.items := by
    simp [hr.items]
  have hwidth := hnode.width_le
  have htwo := hr.length_le
  have hfive := B.five_le
  rw [← hflat] at hgroup ⊢
  refine (packChildren_yields _ group (by simp [Replacement.nodes]) ?_ ?_ hgroup).imp
    fun result hresult => hresult.mono ?_
  · simp only [Node.width_internal, List.length_append, List.length_cons] at hwidth ⊢
    omega
  · intro c hc
    rcases List.mem_append.mp hc with hc | hc
    · exact hr.full hfirst.wide c hc
    · exact hchildren c hc
  · simp [Replacement.nodes]

theorem joinNodes_yields (hleft : left.Shaped B h) (hright : right.Shaped B k)
    (hleftPos : 1 ≤ left.width) (hrightPos : 1 ≤ right.width) :
    Yields (Fits (left.items ++ right.items)) (joinNodes B left right) (Joins B h k left right) := by
  induction hn : h + k using Nat.strong_induction_on generalizing h k left right with
  | _ n ih =>
    subst hn
    have htwo := B.two_le_minFill
    rw [joinNodes.eq_def, hleft.height_eq, hright.height_eq]
    rcases Nat.lt_trichotomy h k with hlt | rfl | hgt
    · -- The right node is the taller.
      rw [Nat.compare_eq_lt.mpr hlt]
      obtain ⟨k, rfl⟩ : ∃ k', k = k' + 1 := ⟨k - 1, by omega⟩
      obtain ⟨children, summary, rfl, hlen, hne, hchildren, hsummary⟩ := hright.internal_of_succ
      cases children with
      | nil => exact absurd rfl hne
      | cons first post =>
        have hfirst := hchildren first (by simp)
        have hwide := hfirst.wide
        simp only
        split
        · next hnone => simp at hnone
        · next found hfound =>
          obtain rfl : first = found := by simpa using hfound
          have hbelow := ih (h + k) (by omega) hleft hfirst.shaped hleftPos (by omega) rfl
          refine (hbelow.mono (fun hfits => ?_) fun _ hj => hj).bind fun replacement hj => ?_
          · simp only [Node.items_internal, List.flatMap_cons, ← List.append_assoc] at hfits
            exact hfits.left
          have hr := hj.tallRight (by omega)
          simp only [Node.items_internal]
          refine (combine_group_yields left.summary.group summary.group
            (left.items ++ (first :: post).flatMap Node.items) (by
              rw [hleft.group_eq, hsummary.group, groupValue_append])).bind fun group hgroup => ?_
          have hset := insertSecond_set [] post first replacement
          simp only [List.nil_append, List.length_nil] at hset
          rw [hset]
          refine (join_first_yields hright hfirst (fun c hc => hchildren c (by simp [hc])) hr
            hgroup).imp fun result hresult => ⟨fun hle => ?_, fun _ => ?_⟩
          · omega
          · simpa using hresult
    · rw [Nat.compare_eq_eq.mpr rfl]
      simp only
      split
      · next hwide =>
        have hpair : Replaces B h (left.width + right.width) (left, some right)
            (left.items ++ right.items) := {
          shaped := by
            intro node hnode
            rcases List.mem_cons.mp hnode with rfl | hnode
            · exact hleft
            · obtain rfl : node = right := by simpa using hnode
              exact hright
          single := by simp
          pair := by
            intro _ node hnode
            rcases List.mem_cons.mp hnode with rfl | hnode
            · exact hwide.1
            · obtain rfl : node = right := by simpa using hnode
              exact hwide.2
          items := by simp [Replacement.nodes] }
        exact ⟨fun _ => hpair.mono (by omega), fun _ => hpair.mono (by omega)⟩
      · refine (concatenate_yields hleft hright (by omega)).imp fun replacement hr => ?_
        exact ⟨fun _ => hr.mono (by omega), fun _ => hr.mono (by omega)⟩
    · -- The left node is the taller.
      rw [Nat.compare_eq_gt.mpr hgt]
      obtain ⟨h, rfl⟩ : ∃ h', h = h' + 1 := ⟨h - 1, by omega⟩
      obtain ⟨children, summary, rfl, hlen, hne, hchildren, hsummary⟩ := hleft.internal_of_succ
      rcases List.eq_nil_or_concat children with rfl | ⟨pre, last, rfl⟩
      · exact absurd rfl hne
      · rw [List.concat_eq_append] at *
        have hlast := hchildren last (by simp)
        have hwide := hlast.wide
        simp only
        split
        · next hnone => simp at hnone
        · next found hfound =>
          obtain rfl : last = found := by simpa using hfound
          have hbelow := ih (h + k) (by omega) hlast.shaped hright (by omega) hrightPos rfl
          refine (hbelow.mono (fun hfits => ?_) fun _ hj => hj).bind fun replacement hj => ?_
          · simp only [Node.items_internal, List.flatMap_append, List.flatMap_cons,
              List.flatMap_nil, List.append_nil, List.append_assoc] at hfits
            exact hfits.right
          have hr := hj.tallLeft (by omega)
          simp only [Node.items_internal]
          refine (combine_group_yields summary.group right.summary.group
            ((pre ++ [last]).flatMap Node.items ++ right.items) (by
              rw [hsummary.group, hright.group_eq, groupValue_append])).bind fun group hgroup => ?_
          have hset : (pre ++ [last]).set ((pre ++ [last]).length - 1) replacement.1 ++
              replacement.2.toList = pre ++ replacement.nodes := by
            have hlen : (pre ++ [last]).length - 1 = pre.length := by simp
            rw [hlen, set_middle]
            simp [Replacement.nodes]
          rw [hset]
          refine (join_last_yields hleft hlast (fun c hc => hchildren c (by simp [hc])) hr
            hgroup).imp fun result hresult => ⟨fun _ => ?_, fun hle => ?_⟩
          · simpa using hresult
          · omega

theorem join_yields {one two : Chunked I S G B} (hone : one.Valid) (htwo : two.Valid) :
    Yields (Fits (one.items ++ two.items)) (join one two)
      (fun result => result.Valid ∧ result.items = one.items ++ two.items) := by
  obtain ⟨l⟩ := one
  obtain ⟨r⟩ := two
  cases l with
  | none => exact ⟨htwo, by simp⟩
  | some l =>
    cases r with
    | none => exact ⟨hone, by simp⟩
    | some r =>
      obtain ⟨h, hl⟩ := hone l rfl
      obtain ⟨k, hr⟩ := htwo r rfl
      simp only [Chunked.items_some, join]
      refine (joinNodes_yields hl.shaped hr.shaped hl.nonempty hr.nonempty).bind
        fun replacement hj => ?_
      have hgroup := combine_group_yields l.summary.group r.summary.group (l.items ++ r.items) (by
        rw [hl.shaped.group_eq, hr.shaped.group_eq, groupValue_append])
      rcases le_total k h with hle | hle
      · have hreplaces := hj.tallLeft hle
        exact grow_rooted_yields (hreplaces.mono hl.nonempty)
          (fun hnone hpos => (hl.branches hpos).trans (hreplaces.single hnone)) hgroup
      · have hreplaces := hj.tallRight hle
        exact grow_rooted_yields (hreplaces.mono hr.nonempty)
          (fun hnone hpos => (hr.branches hpos).trans (hreplaces.single hnone)) hgroup

/-- The items of one side of a split, of which there may be none. -/
def sideItems (side : Option (Node I S G)) : List I := side.toList.flatMap Node.items

@[simp] theorem sideItems_none : sideItems (none : Option (Node I S G)) = [] := rfl

@[simp] theorem sideItems_some (node : Node I S G) : sideItems (some node) = node.items := by
  simp [sideItems]

/-- One side of a split of a node of height `h`. -/
structure IsSide (B : Branching) (h : Nat) (side : Option (Node I S G)) (items : List I) :
    Prop where
  shaped : ∀ node, side = some node → ∃ k ≤ h, node.TopShaped B k
  items : sideItems side = items

/-- The children of one side, as a node unless there are fewer than two. -/
theorem close_yields (children : List (Node I S G)) (group : G)
    (hlen : children.length ≤ B.factor) (hchildren : ∀ c ∈ children, c.Full B h)
    (hgroup : LawfulSummary.value group = (groupValue (children.flatMap Node.items) : A)) :
    Yields (Fits (children.flatMap Node.items))
      (match children with
        | [] => some none
        | [child] => some (some child)
        | children => do return some (← Node.internalWith (h + 1) children group))
      (fun side => IsSide B (h + 1) side (children.flatMap Node.items)) := by
  match children, hlen, hchildren, hgroup with
  | [], _, _, _ => exact ⟨by simp, by simp⟩
  | [child], _, hchildren, _ =>
    refine ⟨?_, by simp⟩
    rintro node hnode
    obtain rfl := Option.some.inj hnode
    exact ⟨h, by omega, (hchildren child (by simp)).topShaped⟩
  | one :: two :: rest, hlen, hchildren, hgroup =>
    refine (Node.internalWith_yields _ group hlen (by simp) hchildren hgroup).bind
      fun node hnode => ?_
    obtain ⟨hshaped, hwidth, hitems⟩ := hnode
    refine ⟨?_, by rw [sideItems_some, hitems]⟩
    rintro node' hnode'
    obtain rfl := Option.some.inj hnode'
    refine ⟨h + 1, le_rfl, hshaped, ?_, fun _ => ?_⟩
    · simp [hwidth]
    · simp [hwidth]

theorem side_yields {run : List (Node I S G)} {piece : Option (Node I S G)} (pieceLast : Bool)
    (group : G) {pieceRun : List I} (hlen : run.length + 1 ≤ B.factor)
    (hrun : ∀ c ∈ run, c.Full B h) (hpiece : IsSide B h piece pieceRun) {items : List I}
    (hitems : items = if pieceLast then run.flatMap Node.items ++ pieceRun
      else pieceRun ++ run.flatMap Node.items)
    (hgroup : LawfulSummary.value group = (groupValue items : A)) :
    Yields (Fits items) (side B (h + 1) run piece pieceLast group)
      (fun result => IsSide B (h + 1) result items) := by
  have htwo := B.two_le_minFill
  -- Whatever the children come to, closing them gives the side.
  have hclose : ∀ children : List (Node I S G), children.length ≤ B.factor →
      (∀ c ∈ children, c.Full B h) → children.flatMap Node.items = items →
      Yields (Fits items)
        (match children with
          | [] => some none
          | [child] => some (some child)
          | children => do return some (← Node.internalWith (h + 1) children group))
        (fun result => IsSide B (h + 1) result items) := by
    rintro children hfew hfull rfl
    exact close_yields children group hfew hfull hgroup
  obtain ⟨hshaped, rfl⟩ := hpiece
  unfold side
  cases piece with
  | none =>
    apply hclose run (by omega) hrun
    rw [hitems]
    cases pieceLast <;> simp
  | some piece =>
    obtain ⟨k, hk, htop⟩ := hshaped piece rfl
    rw [sideItems_some] at hitems
    simp only
    split
    · next hempty =>
      obtain rfl : run = [] := by simpa using hempty
      refine ⟨?_, ?_⟩
      · rintro node hnode
        obtain rfl := Option.some.inj hnode
        exact ⟨k, by omega, htop⟩
      · rw [hitems]
        cases pieceLast <;> simp
    · next hnonempty =>
      have hne : run ≠ [] := by simpa using hnonempty
      split
      · next hchild =>
        obtain ⟨hheight, hwide⟩ := hchild
        rw [htop.shaped.height_eq] at hheight
        obtain rfl : k = h := by omega
        have hfull : piece.Full B k := ⟨htop.shaped, hwide⟩
        apply hclose
        · cases pieceLast <;> simpa using hlen
        · intro c hc
          have hmem : c ∈ run ∨ c = piece := by
            cases pieceLast
            · simpa [or_comm] using hc
            · simpa using hc
          rcases hmem with hmem | rfl
          · exact hrun c hmem
          · exact hfull
        · rw [hitems]
          cases pieceLast <;> simp
      · cases pieceLast with
        | true =>
          rcases List.eq_nil_or_concat run with rfl | ⟨pre, last, rfl⟩
          · exact absurd rfl hne
          rw [List.concat_eq_append] at *
          have hlast := hrun last (by simp)
          have hwide := hlast.wide
          simp only [if_true] at hitems ⊢
          have hlist : items = pre.flatMap Node.items ++ (last.items ++ piece.items) := by
            rw [hitems]
            simp
          have hjoin := joinNodes_yields hlast.shaped htop.shaped (by omega) htop.nonempty
          simp only [List.getLast?_append, List.getLast?_singleton, Option.some_or,
            Option.bind_eq_bind, Option.bind_some, List.dropLast_concat]
          refine (hjoin.mono (fun hfits => ?_) fun _ hj => hj).bind fun replacement hj => ?_
          · rw [hlist] at hfits
            exact hfits.right
          have hr := hj.tallLeft hk
          have hfew := hr.length_le
          apply hclose
          · simp only [List.length_append, List.length_singleton] at hlen ⊢
            omega
          · intro c hc
            rcases List.mem_append.mp hc with hc | hc
            · exact hrun c (by simp [hc])
            · exact hr.full hwide c hc
          · rw [hlist, List.flatMap_append, hr.items]
        | false =>
          obtain ⟨first, post, rfl⟩ := List.exists_cons_of_ne_nil hne
          have hfirst := hrun first (by simp)
          have hwide := hfirst.wide
          simp only [Bool.false_eq_true, if_false] at hitems ⊢
          have hlist : items = (piece.items ++ first.items) ++ post.flatMap Node.items := by
            rw [hitems]
            simp
          have hjoin := joinNodes_yields htop.shaped hfirst.shaped htop.nonempty (by omega)
          simp only [List.head?_cons, Option.bind_eq_bind, Option.bind_some, List.drop_succ_cons,
            List.drop_zero]
          refine (hjoin.mono (fun hfits => ?_) fun _ hj => hj).bind fun replacement hj => ?_
          · rw [hlist] at hfits
            exact hfits.left
          have hr := hj.tallRight hk
          have hfew := hr.length_le
          apply hclose
          · simp only [List.length_append, List.length_cons] at hlen ⊢
            omega
          · intro c hc
            rcases List.mem_append.mp hc with hc | hc
            · exact hr.full hwide c hc
            · exact hrun c (by simp [hc])
          · rw [hlist, List.flatMap_append, hr.items]

/-- The group summaries of shaped nodes add up to that of the items below them. -/
theorem groupsValue_nodes (nodes : List (Node I S G)) (hnodes : ∀ node ∈ nodes, ∃ k, node.Shaped B k) :
    groupsValue (nodes.map childGroup) = (groupValue (nodes.flatMap Node.items) : A) := by
  induction nodes with
  | nil => rfl
  | cons node rest ih =>
    obtain ⟨k, hnode⟩ := hnodes node (by simp)
    have hrest := ih fun n hn => hnodes n (by simp [hn])
    simp only [groupsValue, List.map_cons, List.sum_cons] at hrest ⊢
    rw [hrest, List.flatMap_cons, groupValue_append, childGroup, hnode.group_eq]

theorem IsSide.nodes {side : Option (Node I S G)} {items : List I} (hside : IsSide B h side items) :
    ∀ node ∈ side.toList, ∃ k, node.Shaped B k := by
  rintro node hnode
  obtain ⟨k, _, htop⟩ := hside.shaped node (by simpa using hnode)
  exact ⟨k, htop.shaped⟩

/-- A split strictly inside a node. -/
theorem splitNode_yields (hnode : node.Shaped B h) (before after : List I)
    (hitems : node.items = before ++ after) (hbefore : before ≠ []) (hafter : after ≠ []) :
    Yields True (splitNode B node before.length)
      (fun sides => IsSide B h sides.1 before ∧ IsSide B h sides.2 after) := by
  induction h generalizing node before after with
  | zero =>
    obtain ⟨items, summary, rfl, hlen, hsummary⟩ := hnode.leaf_of_zero
    obtain rfl : items = before ++ after := by simpa using hitems
    have hfits := hsummary.fits
    rw [splitNode, if_pos (by simp)]
    simp only [List.take_left, List.drop_left]
    have hitemsValue : ∀ items : List I, groupsValue (items.map Item.group) =
        (groupValue items : A) := by
      intro items
      have hmap := (builds_items B).groupsValue_map items (fun _ _ => trivial)
      simpa using hmap
    obtain ⟨⟨leftGroup, rightGroup⟩, hdivide, hleftGroup, hrightGroup⟩ :=
      divide_total summary.group (before.map Item.group) (after.map Item.group) (by
        rw [hsummary.group, groupValue_append, hitemsValue, hitemsValue])
    rw [hitemsValue] at hleftGroup hrightGroup
    rw [List.length_append] at hlen
    simp only [hdivide, Option.bind_eq_bind, Option.bind_some]
    refine ((Node.leafWith_yields (B := B) before leftGroup (by omega) hleftGroup).mono
      (fun _ => hfits.left) fun _ hn => hn).bind fun one hone => ?_
    refine ((Node.leafWith_yields (B := B) after rightGroup (by omega) hrightGroup).mono
      (fun _ => hfits.right) fun _ hn => hn).bind fun two htwo => ?_
    have hleaf : ∀ (leaf : Node I S G) (items : List I), items ≠ [] →
        (leaf.Shaped B 0 ∧ leaf.width = items.length ∧ leaf.items = items) →
        IsSide B 0 (some leaf) items := by
      rintro leaf items hne ⟨hshaped, hwidth, rfl⟩
      refine ⟨?_, by simp⟩
      rintro node hnode
      obtain rfl := Option.some.inj hnode
      have hpos := List.length_pos_iff.mpr hne
      exact ⟨0, le_rfl, hshaped, by omega, by simp⟩
    exact ⟨hleaf one before hbefore hone, hleaf two after hafter htwo⟩
  | succ h ih =>
    obtain ⟨children, summary, rfl, hlen, hne, hchildren, hsummary⟩ := hnode.internal_of_succ
    rw [Node.items_internal] at hitems
    obtain ⟨pre, child, post, left, right, rfl, hchild, rfl, rfl, hlocate, hright⟩ :=
      locate_eq children hne (fun c hc => (hchildren c hc).shaped.count_eq) before after hitems
    have hfits := hsummary.fits
    rw [hitems] at hfits
    have hfull := hchildren child (by simp)
    rw [splitNode]
    simp only [hlocate, Option.bind_eq_bind, Option.bind_some]
    split
    · next hnone =>
      rw [getElem?_middle] at hnone
      cases hnone
    · next found hfound =>
      rw [getElem?_middle] at hfound
      obtain rfl := Option.some.inj hfound
      have hbelow : Yields True
          (if left.length = 0 then some (none, some child) else splitNode B child left.length)
          (fun sides => IsSide B h sides.1 left ∧ IsSide B h sides.2 right) := by
        split
        · next hzero =>
          obtain rfl := List.length_eq_zero_iff.mp hzero
          refine ⟨⟨by simp, by simp⟩, ⟨?_, by simpa using hchild⟩⟩
          rintro node hnode
          obtain rfl := Option.some.inj hnode
          exact ⟨h, le_rfl, hfull.topShaped⟩
        · next hpos =>
          have hleft : left ≠ [] := by simpa using hpos
          exact ih hfull.shaped left right hchild hleft (hright hafter)
      have hdrop : (pre ++ child :: post).drop (pre.length + 1) = post := by simp
      rw [List.take_left, hdrop]
      have hpre : ∀ c ∈ pre, c.Full B h := fun c hc => hchildren c (by simp [hc])
      have hpost : ∀ c ∈ post, c.Full B h := fun c hc => hchildren c (by simp [hc])
      refine hbelow.bind fun sides hsides => ?_
      obtain ⟨one, two⟩ := sides
      obtain ⟨hone, htwo⟩ := hsides
      have honeItems : one.toList.flatMap Node.items = left := hone.items
      have htwoItems : two.toList.flatMap Node.items = right := htwo.items
      have hleftValue : groupsValue ((pre ++ one.toList).map childGroup) =
          (groupValue (pre.flatMap Node.items ++ left) : A) := by
        rw [groupsValue_nodes, List.flatMap_append, honeItems]
        intro node hnode
        rcases List.mem_append.mp hnode with hnode | hnode
        · exact ⟨h, (hpre node hnode).shaped⟩
        · exact hone.nodes node hnode
      have hrightValue : groupsValue ((two.toList ++ post).map childGroup) =
          (groupValue (right ++ post.flatMap Node.items) : A) := by
        rw [groupsValue_nodes, List.flatMap_append, htwoItems]
        intro node hnode
        rcases List.mem_append.mp hnode with hnode | hnode
        · exact htwo.nodes node hnode
        · exact ⟨h, (hpost node hnode).shaped⟩
      obtain ⟨⟨leftGroup, rightGroup⟩, hdivide, hleftGroup, hrightGroup⟩ :=
        divide_total summary.group ((pre ++ one.toList).map childGroup)
          ((two.toList ++ post).map childGroup) (by
            rw [hleftValue, hrightValue, hsummary.group, hitems, groupValue_append])
      rw [hleftValue] at hleftGroup
      rw [hrightValue] at hrightGroup
      simp only [hdivide, Option.bind_some]
      simp only [List.length_append, List.length_cons] at hlen
      refine ((side_yields true leftGroup (by omega) hpre hone (by simp) hleftGroup).mono
        (fun _ => hfits.left) fun _ hs => hs).bind fun before' hbefore' => ?_
      refine ((side_yields false rightGroup (by omega) hpost htwo (by simp) hrightGroup).mono
        (fun _ => hfits.right) fun _ hs => hs).bind fun after' hafter' => ?_
      exact ⟨hbefore', hafter'⟩

/-- What one side of a split of a whole tree is. -/
structure SplitsTo (h : Nat) (tree side : Chunked I S G B) (items : List I) : Prop where
  within : side.Within h
  valid : tree.Valid → side.Valid
  items : side.items = items

theorem splitAt_yields {tree : Chunked I S G B} (hwithin : tree.Within h) (before after : List I)
    (hitems : tree.items = before ++ after) :
    Yields True (splitAt tree before.length)
      (fun sides => SplitsTo h tree sides.1 before ∧ SplitsTo h tree sides.2 after) := by
  have hnew : SplitsTo h tree Chunked.new [] :=
    ⟨fun _ hroot => (by cases hroot), fun _ => valid_new, rfl⟩
  unfold splitAt
  rw [if_pos (by rw [hwithin.len_eq, hitems]; simp)]
  obtain ⟨root⟩ := tree
  cases root with
  | none =>
    obtain ⟨rfl, rfl⟩ : before = [] ∧ after = [] := by simpa using hitems
    exact ⟨hnew, hnew⟩
  | some root =>
    obtain ⟨k, hk, hroot⟩ := hwithin root rfl
    have hitems' := hitems
    rw [Chunked.items_some] at hitems'
    simp only [hroot.shaped.count_eq, hitems', List.length_append]
    split
    · next hinside =>
      have hsplit := splitNode_yields hroot.shaped before after hitems'
        (by rw [← List.length_pos_iff]; omega) (by rw [← List.length_pos_iff]; omega)
      refine hsplit.bind fun sides hsides => ?_
      obtain ⟨one, two⟩ := sides
      -- Either side is a tree of its items.
      have hside : ∀ (side : Option (Node I S G)) (items : List I), IsSide B k side items →
          ∀ run, (side = none → run = some Chunked.new) →
            (∀ node, side = some node → run = rooted B node) →
            Yields True run (fun side => SplitsTo h ⟨some root⟩ side items) := by
        rintro side items ⟨hshaped, rfl⟩ run hempty hrooted
        cases side with
        | none =>
          rw [hempty rfl]
          exact hnew
        | some node =>
          rw [hrooted node rfl]
          obtain ⟨k', hk', htop⟩ := hshaped node rfl
          rw [sideItems_some]
          refine (rooted_root_yields htop).imp fun tree htree => ?_
          obtain ⟨root', k'', rfl, hk'', hroot', hitems⟩ := htree
          refine ⟨fun node hnode => ?_, fun _ => hroot'.valid, hitems⟩
          obtain rfl := Option.some.inj hnode
          exact ⟨k'', by omega, hroot'.toTopShaped⟩
      refine (hside one before hsides.1 _ ?_ ?_).bind fun first hfirst => ?_
      · rintro rfl
        rfl
      · rintro _ rfl
        rfl
      refine (hside two after hsides.2 _ ?_ ?_).bind fun second hsecond => ⟨hfirst, hsecond⟩
      · rintro rfl
        rfl
      · rintro _ rfl
        rfl
    · next hborder =>
      split
      · next hzero =>
        obtain rfl := List.length_eq_zero_iff.mp hzero
        exact ⟨hnew, ⟨hwithin, id, hitems⟩⟩
      · next hpos =>
        obtain rfl : after = [] := by
          rw [← List.length_eq_zero_iff]
          omega
        exact ⟨⟨hwithin, id, by simpa using hitems⟩, hnew⟩

end KRust.Term.Chunks
