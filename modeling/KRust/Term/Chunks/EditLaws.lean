import KRust.Term.Chunks.Edit

/-!
What the edits at a position do. A position inside a node is given by the items
before and after it, so a descent keeps the same statement at every level.
-/

set_option linter.unusedSectionVars false

namespace KRust.Term.Chunks

open KRust.Lib KRust.Lib.Partial

variable {I K S G M A : Type} [Item I K S G] [LinearOrder K] [Summary S] [Group G]
  [AddMonoid M] [AddCancelCommMonoid A] [LawfulSummary S M] [LawfulGroup G A]
  {B : Branching} {h : Nat} {node : Node I S G}

/-- The child a position falls in, with the items of that child on either side. An
item after the position lies in that child too. -/
theorem locate_eq (children : List (Node I S G)) (hne : children ≠ [])
    (hcount : ∀ child ∈ children, child.summary.count = child.items.length)
    (before after : List I) (hitems : children.flatMap Node.items = before ++ after) :
    ∃ pre child post left right, children = pre ++ child :: post ∧
      child.items = left ++ right ∧ before = pre.flatMap Node.items ++ left ∧
      after = right ++ post.flatMap Node.items ∧
      locate children before.length = some (pre.length, left.length) ∧
      (after ≠ [] → right ≠ []) := by
  induction children generalizing before with
  | nil => exact absurd rfl hne
  | cons child rest ih =>
    have hchild := hcount child (by simp)
    cases rest with
    | nil =>
      exact ⟨[], child, [], before, after, rfl, by simpa using hitems, rfl, by simp, rfl, id⟩
    | cons next rest =>
      rw [List.flatMap_cons] at hitems
      simp only [locate, hchild]
      by_cases hlt : before.length < child.items.length
      · rcases List.append_eq_append_iff.mp hitems with ⟨mid, hmid, _⟩ | ⟨mid, hmid, hafter⟩
        · rw [hmid, List.length_append] at hlt
          omega
        · refine ⟨[], child, next :: rest, before, mid, rfl, hmid, rfl, hafter, ?_, ?_⟩
          · simp [hlt]
          · rintro _ rfl
            rw [hmid, List.append_nil] at hlt
            omega
      · obtain ⟨before', rfl, hrest⟩ : ∃ before', before = child.items ++ before' ∧
            (next :: rest).flatMap Node.items = before' ++ after := by
          rcases List.append_eq_append_iff.mp hitems with ⟨mid, hmid, hrest⟩ | ⟨mid, hmid, hafter⟩
          · exact ⟨mid, hmid, hrest⟩
          · have hmidNil : mid = [] := by
              rw [hmid, List.length_append] at hlt
              exact List.length_eq_zero_iff.mp (by omega)
            subst hmidNil
            exact ⟨[], by simpa using hmid.symm, by simpa using hafter.symm⟩
        obtain ⟨pre, found, post, left, right, hsplit, hfound, hbefore, hafter, hlocate, hright⟩ :=
          ih (by simp) (fun c hc => hcount c (by simp [hc])) before' hrest
        refine ⟨child :: pre, found, post, left, right, by simp [hsplit], hfound,
          by simp [hbefore], hafter, ?_, hright⟩
        have hlen : (child.items ++ before').length - child.items.length = before'.length := by
          simp
        rw [if_neg hlt, hlen, hlocate]
        rfl

theorem exists_split {α : Type} (xs : List α) (index : Nat) (hindex : index ≤ xs.length) :
    ∃ before after, xs = before ++ after ∧ before.length = index :=
  ⟨xs.take index, xs.drop index, (List.take_append_drop index xs).symm,
    List.length_take_of_le hindex⟩

theorem getElem?_middle {α : Type} (pre post : List α) (x : α) :
    (pre ++ x :: post)[pre.length]? = some x := by
  simp

theorem set_middle {α : Type} (pre post : List α) (x y : α) :
    (pre ++ x :: post).set pre.length y = pre ++ y :: post := by
  simp

theorem insertIdx_middle {α : Type} (pre post : List α) (x : α) :
    (pre ++ post).insertIdx pre.length x = pre ++ x :: post := by
  induction pre with
  | nil => rfl
  | cons y pre ih =>
    simp only [List.cons_append, List.length_cons, List.insertIdx_succ_cons, ih]

/-- Putting a replacement in the place of a child. -/
theorem insertSecond_set (pre post : List (Node I S G)) (child : Node I S G)
    (replacement : Replacement I S G) :
    insertSecond ((pre ++ child :: post).set pre.length replacement.1) (pre.length + 1)
      replacement.2 = pre ++ replacement.nodes ++ post := by
  obtain ⟨one, two⟩ := replacement
  rw [set_middle]
  cases two with
  | none => simp [insertSecond, Replacement.nodes]
  | some two =>
    have hlen : pre.length + 1 = (pre ++ [one]).length := by simp
    have hlist : pre ++ one :: post = (pre ++ [one]) ++ post := by simp
    rw [insertSecond, hlen, hlist, insertIdx_middle]
    simp [Replacement.nodes]

/-- Children around a replaced one stay within the fill bounds. -/
theorem full_around (pre post : List (Node I S G)) (child : Node I S G)
    (hchildren : ∀ c ∈ pre ++ child :: post, c.Full B h) {nodes : List (Node I S G)}
    (hnodes : ∀ c ∈ nodes, c.Full B h) : ∀ c ∈ pre ++ nodes ++ post, c.Full B h := by
  intro c hc
  rcases List.mem_append.mp hc with hc | hc
  · rcases List.mem_append.mp hc with hc | hc
    · exact hchildren c (by simp [hc])
    · exact hnodes c hc
  · exact hchildren c (by simp [hc])

theorem combine_group_yields (left right : G) (items : List I)
    (hvalue : LawfulSummary.value left + LawfulSummary.value right = (groupValue items : A)) :
    Yields (Fits items) (Summary.combine left right)
      (fun group => LawfulSummary.value group = (groupValue items : A)) := by
  have hcombine := LawfulSummary.combine_yields left right
  rw [hvalue] at hcombine
  exact hcombine.mono Fits.group fun _ hgroup => hgroup

theorem packItems_yields (items : List I) (group : G) (hne : items ≠ [])
    (hlen : items.length ≤ 2 * B.factor)
    (hgroup : LawfulSummary.value group = (groupValue items : A)) :
    Yields (Fits items) (packItems B items group)
      (fun replacement => Replaces B 0 items.length replacement items) := by
  have hrun : (items.flatMap fun item => [item]) = items := by simp
  have hpack := pack_yields (builds_items B) items group hne hlen (fun _ _ => trivial)
    (by rw [hrun, hgroup])
  rw [hrun] at hpack
  exact hpack

theorem packChildren_yields (children : List (Node I S G)) (group : G) (hne : children ≠ [])
    (hlen : children.length ≤ 2 * B.factor) (hchildren : ∀ child ∈ children, child.Full B h)
    (hgroup : LawfulSummary.value group = (groupValue (children.flatMap Node.items) : A)) :
    Yields (Fits (children.flatMap Node.items)) (packChildren B (h + 1) children group)
      (fun replacement =>
        Replaces B (h + 1) children.length replacement (children.flatMap Node.items)) :=
  pack_yields (builds_children B h) children group hne hlen hchildren hgroup

/-- A replacement of one node. -/
theorem Replaces.of_node {items : List I} (hnode : node.Shaped B h) (hitems : node.items = items) :
    Replaces B h node.width (node, none) items where
  shaped := by simpa [Replacement.nodes] using hnode
  single := fun _ => le_rfl
  pair := by simp
  items := by simpa [Replacement.nodes] using hitems

theorem Replaces.mono {least least' : Nat} {replacement : Replacement I S G} {items : List I}
    (hr : Replaces B h least replacement items) (hle : least' ≤ least) :
    Replaces B h least' replacement items :=
  ⟨hr.shaped, fun hnone => hle.trans (hr.single hnone), hr.pair, hr.items⟩

/-- An insertion below a node replaces it by one node, no narrower, or two. -/
theorem insertInto_yields (item : I) (added : G)
    (hadded : LawfulSummary.value added = (LawfulSummary.value (Item.group item) : A))
    (hnode : node.Shaped B h) (before after : List I) (hitems : node.items = before ++ after) :
    Yields (Fits (before ++ item :: after)) (insertInto B node before.length item added)
      (fun replacement => Replaces B h node.width replacement (before ++ item :: after)) := by
  induction h generalizing node before after with
  | zero =>
    obtain ⟨items, summary, rfl, hlen, hsummary⟩ := hnode.leaf_of_zero
    obtain rfl : items = before ++ after := by simpa using hitems
    rw [insertInto]
    refine (combine_group_yields summary.group added (before ++ item :: after) (by
      rw [hsummary.group, hadded]
      simp [add_assoc, add_comm])).bind fun group hgroup => ?_
    have hsub : checkedSub (before ++ after).length before.length = some after.length := by
      rw [checkedSub_of_le (by simp)]
      simp
    have hinsert : (before ++ after).insertIdx before.length item = before ++ item :: after :=
      insertIdx_middle before after item
    simp only [hsub, hinsert, Option.bind_eq_bind, Option.bind_some]
    split
    · next hfit =>
      have hedit := Node.leafEdited_yields (B := B) before [] [item] after summary group
        (by simpa using hfit) (by simpa using hsummary) (by simpa using hgroup)
      simp only [List.append_nil, List.append_assoc, List.singleton_append] at hedit
      refine hedit.bind fun leaf hleaf => ?_
      obtain ⟨hshaped, hwidth, hleafItems⟩ := hleaf
      refine (Replaces.of_node hshaped hleafItems).mono ?_
      rw [hwidth]
      simp
    · refine (packItems_yields _ group (by simp) ?_ hgroup).imp fun replacement hr =>
        hr.mono ?_
      · have hfive := B.five_le
        simp only [List.length_append, List.length_cons] at hlen ⊢
        omega
      · simp
  | succ h ih =>
    obtain ⟨children, summary, rfl, hlen, hne, hchildren, hsummary⟩ := hnode.internal_of_succ
    rw [Node.items_internal] at hitems
    obtain ⟨pre, child, post, left, right, rfl, hchild, rfl, rfl, hlocate, _⟩ :=
      locate_eq children hne (fun c hc => (hchildren c hc).shaped.count_eq) before after hitems
    rw [insertInto]
    refine (combine_group_yields summary.group added _ (by
      rw [hsummary.group, hadded, hitems]
      simp [add_comm, add_left_comm])).bind fun group hgroup => ?_
    simp only [hlocate, Option.bind_eq_bind, Option.bind_some]
    split
    · next hnone =>
      rw [getElem?_middle] at hnone
      cases hnone
    · next found hfound =>
      rw [getElem?_middle] at hfound
      obtain rfl := Option.some.inj hfound
      have hfull := hchildren child (by simp)
      have hsplit : pre.flatMap Node.items ++ left ++ item :: (right ++ post.flatMap Node.items) =
          pre.flatMap Node.items ++ (left ++ item :: right) ++ post.flatMap Node.items := by
        simp
      rw [hsplit] at hgroup ⊢
      refine ((ih hfull.shaped left right hchild).mono (fun hfits => hfits.left.right)
        fun _ hr => hr).bind fun replacement hr => ?_
      have hflat : (pre ++ replacement.nodes ++ post).flatMap Node.items =
          pre.flatMap Node.items ++ (left ++ item :: right) ++ post.flatMap Node.items := by
        simp [hr.items]
      have htwo := hr.length_le
      have hfive := B.five_le
      rw [insertSecond_set]
      have hpack := packChildren_yields (B := B) (pre ++ replacement.nodes ++ post) group
        (by simp [Replacement.nodes])
        (by simp only [List.length_append, List.length_cons] at hlen ⊢; omega)
        (full_around pre post child hchildren (hr.full hfull.wide)) (by rw [hflat, hgroup])
      rw [hflat] at hpack
      refine hpack.imp fun result hresult => hresult.mono ?_
      simp [Replacement.nodes]

theorem fits_nil : Fits ([] : List I) where
  count := Nat.zero_le _
  extra := by
    have h := LawfulSummary.representable_value (Summary.identity : S)
    rwa [LawfulSummary.value_identity] at h
  group := by
    have h := LawfulSummary.representable_value (Summary.identity : G)
    rwa [LawfulSummary.value_identity] at h

/-- The items of a tree have been counted. -/
theorem Chunked.Within.fits {tree : Chunked I S G B} (hwithin : tree.Within h) :
    Fits tree.items := by
  obtain ⟨root⟩ := tree
  cases root with
  | none => exact fits_nil
  | some root =>
    obtain ⟨k, _, hroot⟩ := hwithin root rfl
    exact hroot.shaped.fits

theorem Chunked.Within.len_eq {tree : Chunked I S G B} (hwithin : tree.Within h) :
    tree.len = tree.items.length := by
  obtain ⟨root⟩ := tree
  cases root with
  | none => rfl
  | some root =>
    obtain ⟨k, _, hroot⟩ := hwithin root rfl
    exact hroot.shaped.count_eq

theorem Chunked.Valid.len_eq {tree : Chunked I S G B} (hvalid : tree.Valid) :
    tree.len = tree.items.length := by
  obtain ⟨h, hwithin⟩ := hvalid.within
  exact hwithin.len_eq

/-- A replacement of a root, as a tree. -/
theorem grow_rooted_yields {replacement : Replacement I S G} {items : List I} {group : Option G}
    (hr : Replaces B h 1 replacement items)
    (htop : replacement.2 = none → 0 < h → 2 ≤ replacement.1.width)
    (hgroup : Yields (Fits items) group
      (fun group => LawfulSummary.value group = (groupValue items : A))) :
    Yields (Fits items) (grow replacement group >>= rooted B)
      (fun tree => tree.Valid ∧ tree.items = items) := by
  refine (grow_yields hr htop hgroup).bind fun root hroot => ?_
  obtain ⟨k, hshaped, hitems⟩ := hroot
  rw [← hitems]
  exact (rooted_yields hshaped).mono (fun _ => trivial) fun _ htree => htree

theorem insertAt_yields {tree : Chunked I S G B} (hvalid : tree.Valid) (index : Nat) (item : I)
    (hindex : index ≤ tree.items.length) :
    Yields (Fits (tree.items.insertIdx index item)) (insertAt tree index item)
      (fun result => result.Valid ∧ result.items = tree.items.insertIdx index item) := by
  unfold insertAt
  rw [if_pos (by rw [hvalid.len_eq]; exact hindex)]
  obtain ⟨root⟩ := tree
  cases root with
  | none =>
    obtain rfl : index = 0 := by simpa using hindex
    have hfive := B.five_le
    refine (Node.newLeaf_yields (B := B) [item] (by simp; omega)).bind fun leaf hleaf => ?_
    obtain ⟨hshaped, hwidth, hitems⟩ := hleaf
    have htop : leaf.TopShaped B 0 := ⟨hshaped, by simp [hwidth], by simp⟩
    refine (rooted_yields htop).mono (fun _ => trivial) fun tree htree => ?_
    exact ⟨htree.1, by simp [htree.2, hitems]⟩
  | some root =>
    obtain ⟨h, hroot⟩ := hvalid root rfl
    obtain ⟨before, after, hsplit, rfl⟩ := exists_split root.items index hindex
    simp only [Chunked.items_some, hsplit, insertIdx_middle]
    refine (insertInto_yields item (Item.group item) rfl hroot.shaped before after hsplit).bind
      fun replacement hr => ?_
    refine grow_rooted_yields (hr.mono hroot.nonempty)
      (fun hnone hpos => (hroot.branches hpos).trans (hr.single hnone)) ?_
    apply combine_group_yields
    rw [hroot.shaped.group_eq, hsplit]
    simp [add_assoc, add_comm]

/-- Two adjacent nodes of one height, packed again. -/
theorem concatenate_yields {left right : Node I S G} (hleft : left.Shaped B h)
    (hright : right.Shaped B h) (hne : 1 ≤ left.width + right.width) :
    Yields (Fits (left.items ++ right.items)) (concatenate B left right)
      (fun replacement =>
        Replaces B h (left.width + right.width) replacement (left.items ++ right.items)) := by
  unfold concatenate
  have hcombine := combine_group_yields left.summary.group right.summary.group
    (left.items ++ right.items) (by rw [hleft.group_eq, hright.group_eq, groupValue_append])
  refine hcombine.bind fun group hgroup => ?_
  have hleftLe := hleft.width_le
  have hrightLe := hright.width_le
  cases h with
  | zero =>
    obtain ⟨l, lsum, rfl, _⟩ := hleft.leaf_of_zero
    obtain ⟨r, rsum, rfl, _⟩ := hright.leaf_of_zero
    simp only [Node.items_leaf, Node.width_leaf] at *
    rw [← List.length_append]
    apply packItems_yields _ group _ _ hgroup
    · rw [← List.length_pos_iff, List.length_append]
      omega
    · rw [List.length_append]
      omega
  | succ h =>
    obtain ⟨l, lsum, rfl, _, _, hl, _⟩ := hleft.internal_of_succ
    obtain ⟨r, rsum, rfl, _, _, hr, _⟩ := hright.internal_of_succ
    simp only [Node.items_internal, Node.width_internal] at *
    rw [← List.flatMap_append] at hgroup ⊢
    rw [← List.length_append]
    apply packChildren_yields _ group _ _ _ hgroup
    · rw [← List.length_pos_iff, List.length_append]
      omega
    · rw [List.length_append]
      omega
    · intro child hchild
      rcases List.mem_append.mp hchild with hchild | hchild
      · exact hl child hchild
      · exact hr child hchild

/-- The child with an item removed, and where it is short the sibling it is packed
with. The child is given back in nodes within the fill bounds. -/
theorem repair_yields {pre post : List (Node I S G)} {old child : Node I S G}
    (hchildren : ∀ c ∈ pre ++ old :: post, c.Full B h) (hsibling : 2 ≤ (pre ++ old :: post).length)
    (hchild : child.Shaped B h) (hwidth : old.width ≤ child.width + 1)
    (hfits : Fits ((pre ++ child :: post).flatMap Node.items)) :
    Yields True (repair B (pre ++ old :: post) pre.length child)
      (fun children => (∀ c ∈ children, c.Full B h) ∧
        (pre ++ old :: post).length ≤ children.length + 1 ∧
        children.length ≤ (pre ++ old :: post).length ∧
        children.flatMap Node.items = (pre ++ child :: post).flatMap Node.items) := by
  have htwo := B.two_le_minFill
  have hold := (hchildren old (by simp)).wide
  unfold repair
  split
  · next hwide =>
    rw [set_middle, yields_some]
    refine ⟨?_, by simp, by simp, rfl⟩
    have hfull := full_around pre post old hchildren (show ∀ c ∈ [child], c.Full B h by
      intro c hc
      obtain rfl : c = child := by simpa using hc
      exact ⟨hchild, hwide⟩)
    simpa using hfull
  · -- The short child and its sibling together hold enough for one node.
    rcases post with _ | ⟨next, post⟩
    · obtain ⟨pre, prev, rfl⟩ : ∃ pre' prev, pre = pre' ++ [prev] := by
        rcases List.eq_nil_or_concat pre with rfl | ⟨pre', prev, rfl⟩
        · simp at hsibling
        · exact ⟨pre', prev, by simp⟩
      have hprev := hchildren prev (by simp)
      have hprevWide := hprev.wide
      have hlist : pre ++ [prev] ++ [old] = pre ++ prev :: [old] := by simp
      have hpair := concatenate_yields hprev.shaped hchild (by omega)
      have hsub : checkedSub (pre ++ [prev]).length 1 = some pre.length := by
        rw [checkedSub_of_le (by simp)]
        simp
      rw [if_neg (by simp)]
      simp only [hsub, hlist, Option.bind_eq_bind, Option.bind_some, getElem?_middle]
      refine (hpair.mono (fun _ => ?_) fun _ hr => hr).bind fun replacement hr => ?_
      · simp only [List.append_assoc, List.flatMap_append, List.flatMap_cons, List.flatMap_nil,
          List.append_nil] at hfits
        exact hfits.right
      have hdrop : (pre ++ prev :: [old]).drop (pre.length + 2) = [] := by simp
      have hlen := hr.length_le
      rw [List.take_left, hdrop, yields_some]
      refine ⟨?_, ?_, ?_, ?_⟩
      · have hfull := full_around pre [] prev
          (fun c hc => hchildren c (by
            rcases List.mem_append.mp hc with hc | hc
            · simp [hc]
            · simp [List.mem_singleton.mp hc])) (hr.full (by omega))
        exact hfull
      · simp [Replacement.nodes]
      · simp only [List.length_append, List.length_cons, List.length_nil]
        omega
      · simp [hr.items]
    · have hnext := hchildren next (by simp)
      have hnextWide := hnext.wide
      have hpair := concatenate_yields hchild hnext.shaped (by omega)
      have hlist : pre ++ old :: next :: post = (pre ++ [old]) ++ next :: post := by simp
      have hget : (pre ++ old :: next :: post)[pre.length + 1]? = some next := by
        have hlen : pre.length + 1 = (pre ++ [old]).length := by simp
        rw [hlist, hlen, getElem?_middle]
      have hlt : pre.length + 1 < (pre ++ old :: next :: post).length := by simp
      rw [if_pos hlt]
      simp only [Option.bind_eq_bind, Option.bind_some, hget]
      refine (hpair.mono (fun _ => ?_) fun _ hr => hr).bind fun replacement hr => ?_
      · simp only [List.flatMap_append, List.flatMap_cons] at hfits
        rw [← List.append_assoc child.items] at hfits
        exact hfits.right.left
      have hdrop : (pre ++ old :: next :: post).drop (pre.length + 2) = post := by simp
      have hlen := hr.length_le
      rw [List.take_left, hdrop, yields_some]
      refine ⟨?_, ?_, ?_, ?_⟩
      · exact full_around pre post next (fun c hc => hchildren c (by
          rcases List.mem_append.mp hc with hc | hc
          · simp [hc]
          · rcases List.mem_cons.mp hc with hc | hc <;> simp [hc])) (hr.full (by omega))
      · simp [Replacement.nodes]
        omega
      · simp only [List.length_append, List.length_cons]
        omega
      · simp [hr.items]

theorem eraseIdx_middle {α : Type} (pre post : List α) (x : α) :
    (pre ++ x :: post).eraseIdx pre.length = pre ++ post := by
  rw [List.eraseIdx_append_of_length_le le_rfl, Nat.sub_self, List.eraseIdx_cons_zero]

/-- A removal below a node takes out the item at the position; the node may become
one narrower. -/
theorem removeFrom_yields (hnode : node.Shaped B h) (hbranch : 0 < h → 2 ≤ node.width)
    (before : List I) (item : I) (after : List I) (hitems : node.items = before ++ item :: after) :
    Yields True (removeFrom B node before.length)
      (fun result => result.1.Shaped B h ∧ node.width ≤ result.1.width + 1 ∧
        result.1.items = before ++ after ∧ result.2.1 = item ∧
        LawfulSummary.value result.2.2 = (LawfulSummary.value (Item.group item) : A)) := by
  have hfits : Fits (before ++ after) := by
    have hwhole := hnode.fits
    rw [hitems] at hwhole
    have hsplit : Fits (before ++ [item] ++ after) := by simpa using hwhole
    exact hsplit.drop_mid
  induction h generalizing node before after with
  | zero =>
    obtain ⟨items, summary, rfl, hlen, hsummary⟩ := hnode.leaf_of_zero
    obtain rfl : items = before ++ item :: after := by simpa using hitems
    rw [removeFrom]
    have hsub : checkedSub (before ++ item :: after).length (before.length + 1) =
        some after.length := by
      rw [checkedSub_of_le (by simp)]
      simp only [List.length_append, List.length_cons, Option.some.injEq]
      omega
    simp only [hsub, getElem?_middle, eraseIdx_middle, Option.bind_eq_bind, Option.bind_some]
    have hgroup : LawfulSummary.value summary.group =
        LawfulSummary.value (Item.group item) + (groupValue (before ++ after) : A) := by
      rw [hsummary.group]
      simp [add_left_comm]
    refine (LawfulGroup.subtract_yields _ _ _ hgroup).bind fun group hrest => ?_
    have hedit := Node.leafEdited_yields (B := B) before [item] [] after summary group
      (by simp at hlen ⊢; omega) (by simpa using hsummary) (by simpa using hrest)
    simp only [List.append_nil, List.append_assoc, List.singleton_append] at hedit
    refine (hedit.mono (fun _ => hfits) fun _ hn => hn).bind fun leaf hleaf => ?_
    obtain ⟨hshaped, hwidth, hleafItems⟩ := hleaf
    refine ⟨hshaped, ?_, hleafItems, rfl, rfl⟩
    simp [hwidth]
    omega
  | succ h ih =>
    obtain ⟨children, summary, rfl, hlen, hne, hchildren, hsummary⟩ := hnode.internal_of_succ
    rw [Node.items_internal] at hitems
    obtain ⟨pre, child, post, left, right, rfl, hchild, rfl, hafter, hlocate, hright⟩ :=
      locate_eq children hne (fun c hc => (hchildren c hc).shaped.count_eq) before _ hitems
    obtain ⟨right, rfl, rfl⟩ : ∃ right', right = item :: right' ∧
        after = right' ++ post.flatMap Node.items := by
      cases right with
      | nil => exact absurd rfl (hright (by simp))
      | cons x right =>
        rw [List.cons_append, List.cons.injEq] at hafter
        exact ⟨right, by rw [hafter.1], hafter.2⟩
    have hfull := hchildren child (by simp)
    have htwo := B.two_le_minFill
    have hwide := hfull.wide
    rw [removeFrom]
    simp only [hlocate, Option.bind_eq_bind, Option.bind_some]
    split
    · next hnone =>
      rw [getElem?_middle] at hnone
      cases hnone
    · next found hfound =>
      rw [getElem?_middle] at hfound
      obtain rfl := Option.some.inj hfound
      have hbelow : Fits (left ++ right) := by
        simp only [List.append_assoc] at hfits
        have hmid := hfits.right
        rw [← List.append_assoc] at hmid
        exact hmid.left
      refine (ih hfull.shaped (fun _ => by omega) left right hchild hbelow).bind
        fun result hresult => ?_
      obtain ⟨child', item', removed⟩ := result
      obtain ⟨hshaped, hwidth, hchildItems, rfl, hremoved⟩ := hresult
      have hflat : (pre ++ child' :: post).flatMap Node.items =
          pre.flatMap Node.items ++ left ++ (right ++ post.flatMap Node.items) := by
        simp [hchildItems]
      refine (repair_yields hchildren (hbranch (by omega)) hshaped hwidth (by
        rw [hflat]; exact hfits)).bind fun repaired hrepaired => ?_
      obtain ⟨hrepairedFull, hlow, hhigh, hrepairedItems⟩ := hrepaired
      rw [hflat] at hrepairedItems
      have hgroup : LawfulSummary.value summary.group = LawfulSummary.value removed +
          (groupValue (repaired.flatMap Node.items) : A) := by
        rw [hsummary.group, hitems, hremoved, hrepairedItems]
        simp [add_left_comm]
      refine (LawfulGroup.subtract_yields _ _ _ hgroup).bind fun group hrest => ?_
      have hbranches := hbranch (by omega)
      rw [Node.width_internal] at hbranches
      have hbuild := Node.internalWith_yields (B := B) repaired group (by omega)
        (by rw [← List.length_pos_iff]; omega) hrepairedFull hrest
      rw [hrepairedItems] at hbuild
      refine (hbuild.mono (fun _ => hfits) fun _ hn => hn).bind fun result hresult => ?_
      obtain ⟨hresultShaped, hresultWidth, hresultItems⟩ := hresult
      exact ⟨hresultShaped, by rw [hresultWidth]; exact hlow, hresultItems, rfl, hremoved⟩

theorem removeAt_yields {tree : Chunked I S G B} (hvalid : tree.Valid) (before : List I)
    (item : I) (after : List I) (hitems : tree.items = before ++ item :: after) :
    Yields True (removeAt tree before.length)
      (fun result => result.1.Valid ∧ result.1.items = before ++ after ∧ result.2 = item) := by
  unfold removeAt
  rw [if_pos (by rw [hvalid.len_eq, hitems]; simp)]
  obtain ⟨root⟩ := tree
  cases root with
  | none => simp at hitems
  | some root =>
    obtain ⟨h, hroot⟩ := hvalid root rfl
    rw [Chunked.items_some] at hitems
    simp only [Option.bind_eq_bind, Option.bind_some]
    refine (removeFrom_yields hroot.shaped hroot.branches before item after hitems).bind
      fun result hresult => ?_
    obtain ⟨root', item', removed⟩ := result
    obtain ⟨hshaped, hwidth, hrootItems, rfl, _⟩ := hresult
    dsimp only at hshaped hwidth hrootItems ⊢
    split
    · refine ⟨valid_new, ?_, rfl⟩
      rw [← hrootItems]
      simp [Chunked.new]
    · next child summary _ =>
      obtain ⟨k, rfl⟩ : ∃ k, h = k + 1 := by
        cases h with
        | zero => exact hshaped.elim
        | succ k => exact ⟨k, rfl⟩
      obtain ⟨children, summary', heq, _, _, hchildren, _⟩ := hshaped.internal_of_succ
      cases heq
      refine (rooted_yields (hchildren child (by simp)).topShaped).bind fun tree htree => ?_
      exact ⟨htree.1, by simpa [htree.2] using hrootItems, rfl⟩
    · next hnil hsingle =>
      have htop : root'.TopShaped B h := by
        refine ⟨hshaped, ?_, fun hpos => ?_⟩
        · cases root' with
          | leaf items summary =>
            cases items with
            | nil => exact (hnil summary rfl).elim
            | cons x items => simp
          | internal height children summary =>
            cases h with
            | zero => exact hshaped.elim
            | succ h =>
              have := hroot.branches (by omega)
              omega
        · obtain ⟨h, rfl⟩ : ∃ k, h = k + 1 := ⟨h - 1, by omega⟩
          obtain ⟨children, summary, rfl, _, hne, _⟩ := hshaped.internal_of_succ
          match children, hne with
          | [child], _ => exact (hsingle (h + 1) child summary rfl).elim
          | _ :: _ :: _, _ => simp
      refine (rooted_yields htop).bind fun tree htree => ?_
      exact ⟨htree.1, by simpa [htree.2] using hrootItems, rfl⟩

end KRust.Term.Chunks
