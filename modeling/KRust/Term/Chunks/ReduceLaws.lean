import KRust.Term.Chunks.AddLaws

/-!
What `reduce_by_key` does. The nodes kept at a level are within the fill bounds but
for the last, which may be lower or narrower until the next one is joined to it.
-/

set_option linter.unusedSectionVars false

namespace KRust.Term.Chunks

open KRust.Lib KRust.Lib.Partial

variable {I K S G M A : Type} [Item I K S G] [LinearOrder K] [Summary S] [Group G]
  [AddMonoid M] [AddCancelCommMonoid A] [LawfulSummary S M] [LawfulGroup G A] [Subsingleton G]
  {B : Branching} {h : Nat}

/-- The nodes kept so far of a level of height `h`, and what they hold. -/
structure Kept (B : Branching) (h : Nat) (kept : List (Node I S G)) (items : List I) : Prop where
  full : ∀ c ∈ kept.dropLast, c.Full B h
  last : ∀ c, kept.getLast? = some c → ∃ k ≤ h, c.TopShaped B k
  items : kept.flatMap Node.items = items

theorem Kept.nil : Kept B h ([] : List (Node I S G)) [] := ⟨by simp, by simp, rfl⟩

/-- The last of the nodes kept, apart. -/
theorem Kept.cases_last {kept : List (Node I S G)} {items : List I} (hkept : Kept B h kept items) :
    kept = [] ∨ ∃ pre last k, kept = pre ++ [last] ∧ (∀ c ∈ pre, c.Full B h) ∧ k ≤ h ∧
      last.TopShaped B k := by
  rcases List.eq_nil_or_concat kept with rfl | ⟨pre, last, rfl⟩
  · exact Or.inl rfl
  · rw [List.concat_eq_append] at hkept ⊢
    obtain ⟨k, hk, hlast⟩ := hkept.last last (by simp)
    refine Or.inr ⟨pre, last, k, rfl, ?_, hk, hlast⟩
    simpa using hkept.full

theorem kept_concat (pre : List (Node I S G)) (last : Node I S G) {k : Nat}
    (hpre : ∀ c ∈ pre, c.Full B h) (hk : k ≤ h) (hlast : last.TopShaped B k) :
    Kept B h (pre ++ [last]) (pre.flatMap Node.items ++ last.items) := by
  refine ⟨by simpa using hpre, ?_, by simp⟩
  intro c hc
  obtain rfl : last = c := by simpa using hc
  exact ⟨k, hk, hlast⟩

/-- A node not short is within the fill bounds of the level. -/
theorem full_of_not_short {node : Node I S G} {k : Nat} (hk : k ≤ h) (hnode : node.TopShaped B k)
    (hshort : short B h node = false) : node.Full B h := by
  unfold short at hshort
  rw [hnode.shaped.height_eq] at hshort
  simp only [Bool.or_eq_false_iff, decide_eq_false_iff_not, not_lt] at hshort
  obtain rfl : k = h := by omega
  exact ⟨hnode.shaped, hshort.2⟩

/-- Two nodes joined, the first being the last one kept. -/
theorem joinLast_yields {pre : List (Node I S G)} {last next : Node I S G} {j k : Nat}
    (hpre : ∀ c ∈ pre, c.Full B h) (hj : j ≤ h) (hlast : last.TopShaped B j) (hk : k ≤ h)
    (hnext : next.TopShaped B k) :
    Yields (Fits (last.items ++ next.items)) (joinLast B h (pre ++ [last]) next)
      (fun kept => Kept B h kept (pre.flatMap Node.items ++ (last.items ++ next.items)) ∧
        kept.length ≤ pre.length + 2 ∧ (last.Full B h → ∀ c ∈ kept, c.Full B h)) := by
  unfold joinLast
  simp only [List.getLast?_append, List.getLast?_singleton, Option.some_or, List.dropLast_concat,
    Option.bind_eq_bind, Option.bind_some]
  refine (joinNodes_yields hlast.shaped hnext.shaped hlast.nonempty hnext.nonempty).bind
    fun replacement hjoins => ?_
  -- The join is as tall as the taller of the two and no narrower than it.
  obtain ⟨t, least, ht, hleast, hbranches, hfullLeast, hr⟩ : ∃ t least, t ≤ h ∧ 1 ≤ least ∧
      (0 < t → 2 ≤ least) ∧ (last.Full B h → t = h ∧ B.minFill ≤ least) ∧
      Replaces B t least replacement (last.items ++ next.items) := by
    rcases le_total k j with hle | hle
    · refine ⟨j, last.width, hj, hlast.nonempty, hlast.branches, fun hfull => ?_,
        hjoins.tallLeft hle⟩
      exact ⟨hlast.shaped.height_eq.symm.trans hfull.shaped.height_eq, hfull.wide⟩
    · by_cases heq : k = j
      · subst heq
        refine ⟨k, last.width, hj, hlast.nonempty, hlast.branches, fun hfull => ?_,
          hjoins.tallLeft le_rfl⟩
        exact ⟨hlast.shaped.height_eq.symm.trans hfull.shaped.height_eq, hfull.wide⟩
      · refine ⟨k, next.width, hk, hnext.nonempty, hnext.branches, fun hfull => ?_,
          hjoins.tallRight hle⟩
        have := hlast.shaped.height_eq.symm.trans hfull.shaped.height_eq
        omega
  obtain ⟨one, two⟩ := replacement
  have hone := hr.shaped one (by simp [Replacement.nodes])
  have hitems := hr.items
  have hconcat : ∀ nodes : List (Node I S G), pre.flatMap Node.items ++ nodes.flatMap Node.items =
      (pre ++ nodes).flatMap Node.items := by simp
  cases two with
  | none =>
    have hwide : least ≤ one.width := hr.single rfl
    have htop : one.TopShaped B t := ⟨hone, by omega, fun hpos => (hbranches hpos).trans hwide⟩
    refine ⟨?_, by simp, fun hfull c hc => ?_⟩
    · rw [← hitems]
      simpa [Replacement.nodes] using kept_concat pre one hpre ht htop
    · obtain ⟨rfl, hmin⟩ := hfullLeast hfull
      rcases List.mem_append.mp hc with hc | hc
      · exact hpre c hc
      · obtain rfl := List.mem_singleton.mp hc
        exact ⟨hone, hmin.trans hwide⟩
  | some two =>
    have htwo := hr.shaped two (by simp [Replacement.nodes])
    have hwides := hr.pair (by simp)
    have hfulls : ∀ c ∈ [one, two], c.Full B t := by
      intro c hc
      exact ⟨hr.shaped c hc, hwides c hc⟩
    simp only [hone.height_eq]
    split
    · next hlower =>
      have hbuild := Node.internalWith_yields [one, two] Summary.identity
        (by have := B.five_le; simp only [List.length_cons, List.length_nil]; omega) (by simp) hfulls
        (value_of_subsingleton _ _)
      have hboth : [one, two].flatMap Node.items = last.items ++ next.items := hitems
      rw [hboth] at hbuild
      refine hbuild.bind fun node hnode => ?_
      obtain ⟨hshaped, hwidth, hnodeItems⟩ := hnode
      have htop : node.TopShaped B (t + 1) :=
        ⟨hshaped, by simp [hwidth], fun _ => by simp [hwidth]⟩
      refine ⟨?_, by simp, fun hfull => ?_⟩
      · rw [← hnodeItems]
        exact kept_concat pre node hpre (by omega) htop
      · obtain ⟨rfl, _⟩ := hfullLeast hfull
        omega
    · next hlevel =>
      obtain rfl : t = h := by omega
      have hall : ∀ c ∈ pre ++ [one, two], c.Full B t := by
        intro c hc
        rcases List.mem_append.mp hc with hc | hc
        · exact hpre c hc
        · exact hfulls c hc
      refine ⟨?_, by simp, fun _ => hall⟩
      have hkept := kept_concat (pre ++ [one]) two (fun c hc => hall c (by
        rcases List.mem_append.mp hc with hc | hc
        · simp [hc]
        · simp [List.mem_singleton.mp hc])) le_rfl (hfulls two (by simp)).topShaped
      rw [← hitems]
      simpa [Replacement.nodes] using hkept

/-- One more node kept. -/
theorem takeChild_yields {kept : List (Node I S G)} {items : List I} {child : Node I S G} {k : Nat}
    (hkept : Kept B h kept items) (hk : k ≤ h) (hchild : child.TopShaped B k) :
    Yields (Fits (items ++ child.items)) (takeChild B h kept child)
      (fun kept' => Kept B h kept' (items ++ child.items) ∧ kept'.length ≤ kept.length + 1) := by
  unfold takeChild
  rcases hkept.cases_last with rfl | ⟨pre, last, j, rfl, hpre, hj, hlast⟩
  · obtain rfl : items = [] := hkept.items.symm
    refine ⟨?_, by simp⟩
    simpa using kept_concat [] child (by simp) hk hchild
  · obtain rfl : pre.flatMap Node.items ++ last.items = items := by simpa using hkept.items
    simp only [List.getLast?_append, List.getLast?_singleton, Option.some_or]
    split
    · rw [List.append_assoc]
      refine (joinLast_yields hpre hj hlast hk hchild).mono Fits.right fun kept' hkept' => ?_
      exact ⟨hkept'.1, by simpa using hkept'.2.1⟩
    · next hshort =>
      have hshortLast : short B h last = false := by
        cases hs : short B h last
        · rfl
        · simp [hs] at hshort
      have hfull := full_of_not_short hj hlast hshortLast
      refine ⟨?_, by simp⟩
      have hconcat := kept_concat (pre ++ [last]) child (fun c hc => ?_) hk hchild
      · simpa using hconcat
      · rcases List.mem_append.mp hc with hc | hc
        · exact hpre c hc
        · exact (List.mem_singleton.mp hc) ▸ hfull

/-- Nodes kept one after the other. -/
theorem takeChildren_yields {kept : List (Node I S G)} {items : List I} (nodes : List (Node I S G))
    (hkept : Kept B h kept items) (hnodes : ∀ c ∈ nodes, ∃ k ≤ h, c.TopShaped B k) :
    Yields (Fits (items ++ nodes.flatMap Node.items)) (nodes.foldlM (takeChild B h) kept)
      (fun kept' => Kept B h kept' (items ++ nodes.flatMap Node.items) ∧
        kept'.length ≤ kept.length + nodes.length) := by
  induction nodes generalizing kept items with
  | nil => exact ⟨by simpa using hkept, by simp⟩
  | cons node nodes ih =>
    obtain ⟨k, hk, hnode⟩ := hnodes node (by simp)
    rw [List.foldlM_cons, List.flatMap_cons, ← List.append_assoc]
    refine ((takeChild_yields hkept hk hnode).mono Fits.left fun _ hk => hk).bind
      fun kept' hkept' => ?_
    refine (ih hkept'.1 fun c hc => hnodes c (by simp [hc])).imp fun result hresult => ?_
    refine ⟨hresult.1, ?_⟩
    have hstep := hkept'.2
    have hrest := hresult.2
    simp only [List.length_cons]
    omega

/-- The level closed: one node, or nodes within the fill bounds. -/
theorem joinShortLast_yields {kept : List (Node I S G)} {items : List I}
    (hkept : Kept B h kept items) :
    Yields (Fits items) (joinShortLast B h kept)
      (fun kept' => Kept B h kept' items ∧ kept'.length ≤ kept.length ∧
        (2 ≤ kept'.length → ∀ c ∈ kept', c.Full B h)) := by
  unfold joinShortLast
  rcases hkept.cases_last with rfl | ⟨pre, last, k, rfl, hpre, hk, hlast⟩
  · exact ⟨hkept, by simp, by simp⟩
  · simp only [List.getLast?_append, List.getLast?_singleton, Option.some_or,
      List.length_append, List.length_singleton]
    split
    · next hshort =>
      obtain ⟨hmany, _⟩ := hshort
      rcases List.eq_nil_or_concat pre with rfl | ⟨pre, before, rfl⟩
      · simp at hmany
      · rw [List.concat_eq_append] at *
        have hbefore := hpre before (by simp)
        obtain rfl : pre.flatMap Node.items ++ (before.items ++ last.items) = items := by
          simpa using hkept.items
        rw [List.dropLast_concat]
        refine (joinLast_yields (fun c hc => hpre c (by simp [hc])) le_rfl hbefore.topShaped hk
          hlast).mono Fits.right fun kept' hkept' => ?_
        refine ⟨hkept'.1, ?_, fun _ => hkept'.2.2 hbefore⟩
        simpa using hkept'.2.1
    · next hlong =>
      refine ⟨hkept, by simp, fun htwo c hc => ?_⟩
      simp only [List.length_append, List.length_singleton] at htwo
      have hshortLast : short B h last = false := by
        cases hs : short B h last
        · rfl
        · exact absurd ⟨by omega, hs⟩ hlong
      rcases List.mem_append.mp hc with hc | hc
      · exact hpre c hc
      · exact (List.mem_singleton.mp hc) ▸ full_of_not_short hk hlast hshortLast

variable {reduce : I → I → Option (Option I)}

/-- The edit of a plain list by `reduce_by_key`: every key reduced must be held. -/
def reducedList (reduce : I → I → Option (Option I)) (xs ys : List I) : Option (List I) :=
  keyedEdit (fun held old => do return (← reduce held old).toList) (fun _ => none) xs ys

/-- Nothing is put in. -/
theorem reducedList_length {xs ys ws : List I} (hws : reducedList reduce xs ys = some ws) :
    ws.length ≤ xs.length := by
  unfold reducedList at hws
  induction xs, ys using keyedEdit.induct generalizing ws with
  | case1 xs =>
    rw [keyedEdit_nil_right] at hws
    rw [Option.some.inj hws]
  | case2 y ys ih =>
    rw [keyedEdit] at hws
    cases hws
  | case3 x xs y ys hlt ih =>
    rw [keyedEdit, if_pos hlt] at hws
    obtain ⟨rest, hrest, hret⟩ := Option.bind_eq_some_iff.mp hws
    obtain rfl := Option.some.inj hret
    have := ih hrest
    simp only [List.length_cons]
    omega
  | case4 x xs y ys hlt heq ih =>
    rw [keyedEdit, if_neg hlt, if_pos heq] at hws
    obtain ⟨new, hnew, hws⟩ := Option.bind_eq_some_iff.mp hws
    obtain ⟨rest, hrest, hret⟩ := Option.bind_eq_some_iff.mp hws
    obtain ⟨left, _, hleft⟩ := Option.bind_eq_some_iff.mp hnew
    obtain rfl := Option.some.inj hleft
    obtain rfl := Option.some.inj hret
    have := ih hrest
    cases left <;> simp only [List.length_cons, List.length_append, List.length_nil,
      Option.toList_none, Option.toList_some] <;> omega
  | case5 x xs y ys hlt hne ih =>
    rw [keyedEdit, if_neg hlt, if_neg hne] at hws
    cases hws

/-- The edit of `xs` by `ys`, put after `before`, fits. -/
def ReduceFits (reduce : I → I → Option (Option I)) (before xs ys : List I) : Prop :=
  ∃ edited, reducedList reduce xs ys = some edited ∧ Fits (before ++ edited)

theorem reduceIn_leaf_yields {items : List I} {summary : NodeSummary I S G} (reduced : List I)
    (hnode : (Node.leaf items summary).TopShaped B 0) (hitems : KeyOrdered items)
    (hreduced : KeyOrdered reduced) (hne : reduced ≠ []) :
    Yields (ReduceFits reduce [] items reduced) (reduceIn B reduce (.leaf items summary) reduced)
      (fun result => ∃ left, reducedList reduce items reduced = some left ∧
        IsSide B 0 result left) := by
  obtain ⟨heq, hkept⟩ := editLeaf_eq (fun held old => do return (← reduce held old).toList)
    (fun _ => none) items reduced hitems hreduced
  obtain ⟨hlen, hsummary⟩ := hnode.shaped
  rw [reduceIn]
  cases hedit : editLeaf (fun held old => do return (← reduce held old).toList) (fun _ => none)
      items reduced with
  | none =>
    rw [hedit] at heq
    rintro ⟨edited, hedited, _⟩
    unfold reducedList at hedited
    rw [← heq] at hedited
    cases hedited
  | some result =>
    obtain ⟨keep, removed, new, tail, rfl, rfl⟩ := hkept result hedit hne
    rw [hedit] at heq
    have hspec : reducedList reduce (keep ++ removed ++ tail) reduced =
        some (keep ++ new ++ tail) := heq.symm
    have hfits : ReduceFits reduce [] (keep ++ removed ++ tail) reduced →
        Fits (keep ++ new ++ tail) := by
      rintro ⟨edited, hedited, hfits⟩
      rw [hspec] at hedited
      rwa [← Option.some.inj hedited] at hfits
    have hshrinks := reducedList_length hspec
    simp only [Option.bind_eq_bind, Option.bind_some]
    split
    · next hempty =>
      refine ⟨_, hspec, by simp, ?_⟩
      rw [List.isEmpty_iff.mp hempty, sideItems_none]
    · next hleft =>
      have hne : keep ++ new ++ tail ≠ [] := by simpa using hleft
      refine ((Node.leafEdited_yields keep removed new tail summary Summary.identity
        (hshrinks.trans hlen) hsummary (value_of_subsingleton _ _)).mono hfits fun _ hn => hn).bind
          fun leaf hleaf => ?_
      obtain ⟨hshaped, hwidth, hleafItems⟩ := hleaf
      refine ⟨_, hspec, ?_, by rw [sideItems_some, hleafItems]⟩
      rintro node hnode
      obtain rfl := Option.some.inj hnode
      refine ⟨0, le_rfl, hshaped, ?_, by simp⟩
      rw [hwidth]
      exact List.length_pos_iff.mpr hne

/-- What `reduce_in` does at one height. -/
def ReducesIn (B : Branching) (h : Nat) (reduce : I → I → Option (Option I)) : Prop :=
  ∀ (node : Node I S G) (reduced : List I), node.TopShaped B h → KeyOrdered node.items →
    KeyOrdered reduced → reduced ≠ [] →
    Yields (ReduceFits reduce [] node.items reduced) (reduceIn B reduce node reduced)
      (fun result => ∃ left, reducedList reduce node.items reduced = some left ∧
        IsSide B h result left)

theorem reduceParts_yields (hreduces : ReducesIn (I := I) (S := S) (G := G) B h reduce)
    (pre : List (Node I S G)) {children kept : List (Node I S G)} {batch items : List I}
    {parts : List (Nat × List I)} (hbatched : Batched pre.length children batch parts)
    (hchildren : ∀ c ∈ children, c.Full B h) (hsorted : KeyOrdered (children.flatMap Node.items))
    (hbatch : KeyOrdered batch) (hkept : Kept B h kept items) :
    Yields (ReduceFits reduce items (children.flatMap Node.items) batch)
      (reduceParts B reduce h (pre ++ children) parts pre.length kept)
      (fun kept' => kept'.length ≤ kept.length + children.length ∧
        ∃ left, reducedList reduce (children.flatMap Node.items) batch = some left ∧
          Kept B h kept' (items ++ left)) := by
  generalize hstart : pre.length = start at hbatched
  induction hbatched generalizing pre kept items with
  | done start children =>
    subst hstart
    rw [reduceParts, List.drop_left]
    have hsame : reducedList reduce (children.flatMap Node.items) [] =
        some (children.flatMap Node.items) := keyedEdit_nil_right _
    refine (takeChildren_yields children hkept fun c hc =>
      ⟨h, le_rfl, (hchildren c hc).topShaped⟩).mono ?_ fun kept' hkept' => ?_
    · rintro ⟨edited, hedited, hfits⟩
      rw [hsame] at hedited
      rwa [Option.some.inj hedited]
    · exact ⟨hkept'.2, _, hsame, hkept'.1⟩
  | part start before child later part batch parts hpart hskipped hitems hkeys hrest ih =>
    subst hstart
    have hget : (pre ++ (before ++ child :: later))[pre.length + before.length]? = some child := by
      rw [← List.append_assoc, ← List.length_append, getElem?_middle]
    have hslice : ((pre ++ (before ++ child :: later)).take (pre.length + before.length)).drop
        pre.length = before := by
      rw [← List.append_assoc, ← List.length_append, List.take_left, List.drop_left]
    have hlist : pre ++ (before ++ child :: later) = (pre ++ before ++ [child]) ++ later := by simp
    have hnext : pre.length + before.length + 1 = (pre ++ before ++ [child]).length := by
      simp [Nat.add_assoc]
    have hchild := hchildren child (by simp)
    rw [List.flatMap_append, List.flatMap_cons] at hsorted
    have hchildLater := (keyOrdered_append.mp hsorted).2.1
    obtain ⟨hpartOrdered, hbatchOrdered, _⟩ := keyOrdered_append.mp hbatch
    have hspec := keyedEdit_children (fun held old => do return (← reduce held old).toList)
      (fun _ => none) hskipped hitems hkeys
    -- The edit of all of these children, in the parts the loop does them in.
    have hparts : ReduceFits reduce items ((before ++ child :: later).flatMap Node.items)
        (part ++ batch) → ∃ first second, reducedList reduce child.items part = some first ∧
          reducedList reduce (later.flatMap Node.items) batch = some second ∧
          Fits (items ++ before.flatMap Node.items ++ first ++ second) := by
      rintro ⟨edited, hedited, hfits⟩
      unfold reducedList at hedited
      rw [hspec] at hedited
      obtain ⟨first, hfirst, hafter⟩ := Option.bind_eq_some_iff.mp hedited
      obtain ⟨second, hsecond, hret⟩ := Option.bind_eq_some_iff.mp hafter
      obtain rfl := Option.some.inj hret
      exact ⟨first, second, hfirst, hsecond, by simpa using hfits⟩
    rw [reduceParts]
    split
    · next hnone =>
      rw [hget] at hnone
      cases hnone
    · next found hfound =>
      rw [hget] at hfound
      obtain rfl := Option.some.inj hfound
      rw [hslice]
      refine ((takeChildren_yields before hkept fun c hc =>
        ⟨h, le_rfl, (hchildren c (by simp [hc])).topShaped⟩).mono (fun hfits => ?_)
          fun _ hk => hk).bind fun keptBefore hkeptBefore => ?_
      · obtain ⟨first, second, _, _, hall⟩ := hparts hfits
        exact hall.left.left
      refine ((hreduces child part hchild.topShaped (keyOrdered_append.mp hchildLater).1
        hpartOrdered hpart).mono (fun hfits => ?_) fun _ hn => hn).bind fun result hresult => ?_
      · obtain ⟨first, second, hfirst, _, hall⟩ := hparts hfits
        exact ⟨first, hfirst, by simpa using hall.left.right⟩
      obtain ⟨left, hleft, hside⟩ := hresult
      obtain ⟨hshaped, rfl⟩ := hside
      refine ((takeChildren_yields result.toList hkeptBefore.1 fun c hc =>
        hshaped c (by simpa using hc)).mono (fun hfits => ?_) fun _ hk => hk).bind
          fun keptChild hkeptChild => ?_
      · obtain ⟨first, second, hfirst, _, hall⟩ := hparts hfits
        rw [hleft] at hfirst
        obtain rfl := Option.some.inj hfirst
        exact hall.left
      have hlater := ih (pre ++ before ++ [child]) (fun c hc => hchildren c (by simp [hc]))
        (keyOrdered_append.mp hchildLater).2.1 hbatchOrdered hkeptChild.1 hnext.symm
      rw [← hlist] at hlater
      refine hlater.mono (fun hfits => ?_) fun kept' hkept' => ?_
      · obtain ⟨first, second, hfirst, hsecond, hall⟩ := hparts hfits
        rw [hleft] at hfirst
        obtain rfl := Option.some.inj hfirst
        exact ⟨second, hsecond, hall⟩
      · obtain ⟨hlen, second, hsecond, hkeptAll⟩ := hkept'
        have hbeforeLen := hkeptBefore.2
        have hchildLen := hkeptChild.2
        have hone : result.toList.length ≤ 1 := by cases result <;> simp
        refine ⟨?_, before.flatMap Node.items ++ (sideItems result ++ second), ?_, ?_⟩
        · simp only [List.length_append, List.length_cons]
          omega
        · unfold reducedList at hleft hsecond ⊢
          rw [hspec, hleft, hsecond]
          rfl
        · simpa [sideItems] using hkeptAll

theorem reduceIn_yields : ReducesIn (I := I) (S := S) (G := G) B h reduce := by
  induction h with
  | zero =>
    intro node reduced hnode hitems hreduced hne
    obtain ⟨items, summary, rfl, _⟩ := hnode.shaped.leaf_of_zero
    rw [Node.items_leaf] at hitems ⊢
    exact reduceIn_leaf_yields reduced hnode hitems hreduced hne
  | succ h ih =>
    intro node reduced hnode hitems hreduced hne
    obtain ⟨children, summary, rfl, hlen, hchildrenNe, hchildren, _⟩ :=
      hnode.shaped.internal_of_succ
    rw [Node.items_internal] at hitems ⊢
    obtain ⟨parts, hparts, hbatched⟩ := batchParts_eq [] children reduced hchildren hitems hreduced
      fun _ => hchildrenNe
    rw [List.nil_append, List.length_nil] at hparts
    have hloop := reduceParts_yields ih [] hbatched hchildren hitems hreduced Kept.nil
    rw [List.nil_append, List.length_nil] at hloop
    have hlevel : checkedSub (h + 1) 1 = some h := by simp [checkedSub]
    rw [reduceIn]
    simp only [hlevel, hparts, Option.bind_eq_bind, Option.bind_some]
    refine hloop.bind fun kept hkept => ?_
    obtain ⟨hkeptLen, left, hleft, hkeptItems⟩ := hkept
    rw [Nat.zero_add] at hkeptLen
    rw [List.nil_append] at hkeptItems
    have hfits : ReduceFits reduce [] (children.flatMap Node.items) reduced → Fits left := by
      rintro ⟨edited, hedited, hfits⟩
      rw [hleft] at hedited
      rwa [Option.some.inj hedited]
    refine ((joinShortLast_yields hkeptItems).mono hfits fun _ hk => hk).bind fun closed hclosed => ?_
    obtain ⟨hclosedKept, hclosedLen, hfull⟩ := hclosed
    obtain rfl := hclosedKept.items
    rcases closed with _ | ⟨child, _ | ⟨two, rest⟩⟩
    case nil => exact ⟨_, hleft, by simp, by simp⟩
    case cons.nil =>
      obtain ⟨k, hk, hchild⟩ := hclosedKept.last child rfl
      refine ⟨_, hleft, ?_, by simp⟩
      rintro node hnode
      obtain rfl := Option.some.inj hnode
      exact ⟨k, by omega, hchild⟩
    case cons.cons =>
      refine ((Node.internalWith_yields (child :: two :: rest) Summary.identity (by omega) (by simp)
        (hfull (by simp)) (value_of_subsingleton _ _)).mono hfits fun _ hn => hn).bind
          fun node hnode => ?_
      obtain ⟨hshaped, hwidth, hnodeItems⟩ := hnode
      refine ⟨_, hleft, ?_, by rw [sideItems_some, hnodeItems]⟩
      rintro node' hnode'
      obtain rfl := Option.some.inj hnode'
      exact ⟨h + 1, le_rfl, hshaped, by simp [hwidth], fun _ => by simp [hwidth]⟩

/-- A batch taken out of a sequence ordered by key. -/
theorem reduceByKey_yields {tree : Chunked I S G B} (hvalid : tree.Valid)
    (htree : KeyOrdered tree.items) (reduced : List I) (hreduced : KeyOrdered reduced) :
    Yields (ReduceFits reduce [] tree.items reduced) (reduceByKey tree reduced reduce)
      (fun result => result.Valid ∧ reducedList reduce tree.items reduced = some result.items) := by
  unfold reduceByKey
  split
  · next hempty =>
    obtain rfl : reduced = [] := by simpa using hempty
    exact ⟨hvalid, keyedEdit_nil_right _⟩
  · next hnonempty =>
    have hne : reduced ≠ [] := by simpa using hnonempty
    obtain ⟨root⟩ := tree
    cases root with
    | none =>
      obtain ⟨y, ys, rfl⟩ := List.exists_cons_of_ne_nil hne
      rintro ⟨edited, hedited, _⟩
      rw [Chunked.items_none, reducedList, keyedEdit] at hedited
      cases hedited
    | some root =>
      obtain ⟨h, hroot⟩ := hvalid root rfl
      rw [Chunked.items_some] at htree ⊢
      refine (reduceIn_yields root reduced hroot.toTopShaped htree hreduced hne).bind
        fun result hresult => ?_
      obtain ⟨left, hleft, hshaped, rfl⟩ := hresult
      cases result with
      | none => exact ⟨valid_new, hleft⟩
      | some node =>
        obtain ⟨k, _, hnode⟩ := hshaped node rfl
        rw [sideItems_some] at hleft
        refine (rooted_yields hnode).mono (fun _ => trivial) fun tree htree => ?_
        exact ⟨htree.1, by rw [hleft, htree.2]⟩

end KRust.Term.Chunks
