import KRust.Term.Chunks.KeyedLaws

/-!
What `add_by_key` does: a valid tree of the items of the list edit.
-/

set_option linter.unusedSectionVars false

namespace KRust.Term.Chunks

open KRust.Lib KRust.Lib.Partial

variable {I K S G M A : Type} [Item I K S G] [LinearOrder K] [Summary S] [Group G]
  [AddMonoid M] [AddCancelCommMonoid A] [LawfulSummary S M] [LawfulGroup G A] [Subsingleton G]
  {B : Branching} {h : Nat} {merge : I → I → Option I}

/-- The edit of a plain list by `add_by_key`. -/
def addedList (merge : I → I → Option I) (xs ys : List I) : Option (List I) :=
  keyedEdit (fun held new => do return [← merge held new]) (fun new => some [new]) xs ys

/-- Nothing the list holds is taken out. -/
theorem addedList_length {xs ys ws : List I} (hws : addedList merge xs ys = some ws) :
    xs.length ≤ ws.length := by
  unfold addedList at hws
  induction xs, ys using keyedEdit.induct generalizing ws with
  | case1 xs =>
    rw [keyedEdit_nil_right] at hws
    rw [Option.some.inj hws]
  | case2 y ys ih => simp
  | case3 x xs y ys hlt ih =>
    rw [keyedEdit, if_pos hlt] at hws
    obtain ⟨rest, hrest, hret⟩ := Option.bind_eq_some_iff.mp hws
    obtain rfl := Option.some.inj hret
    have := ih hrest
    simp only [List.length_cons]
    omega
  | case4 x xs y ys hlt heq ih =>
    rw [keyedEdit, if_neg hlt, if_pos heq] at hws
    obtain ⟨new, hnew, hws⟩ := Option.bind_eq_some_iff.mp hws
    obtain ⟨rest, hrest, hret⟩ := Option.bind_eq_some_iff.mp hws
    obtain ⟨merged, _, hmerged⟩ := Option.bind_eq_some_iff.mp hnew
    obtain rfl := Option.some.inj hmerged
    obtain rfl := Option.some.inj hret
    have := ih hrest
    simp only [List.length_cons, List.length_append, List.length_nil]
    omega
  | case5 x xs y ys hlt hne ih =>
    rw [keyedEdit, if_neg hlt, if_neg hne] at hws
    obtain ⟨new, hnew, hws⟩ := Option.bind_eq_some_iff.mp hws
    obtain ⟨rest, hrest, hret⟩ := Option.bind_eq_some_iff.mp hws
    obtain rfl := Option.some.inj hnew
    obtain rfl := Option.some.inj hret
    have := ih hrest
    simp only [List.length_cons, List.length_append, List.length_nil] at this ⊢
    omega

/-- The edit of `xs` by `ys` fits. -/
def AddFits (merge : I → I → Option I) (xs ys : List I) : Prop :=
  EditFits (fun held new => do return [← merge held new]) (fun new => some [new]) xs ys

theorem addInto_leaf_yields {items : List I} {summary : NodeSummary I S G} (added : List I)
    (hnode : (Node.leaf items summary).TopShaped B 0) (hitems : KeyOrdered items)
    (hadded : KeyOrdered added) (hne : added ≠ []) :
    Yields (AddFits merge items added) (addInto B merge (.leaf items summary) added)
      (fun nodes => Spread B 0 items.length nodes ∧
        addedList merge items added = some (nodes.flatMap Node.items)) := by
  obtain ⟨heq, hkept⟩ := editLeaf_eq (fun held new => do return [← merge held new])
    (fun new => some [new]) items added hitems hadded
  obtain ⟨hlen, hsummary⟩ := hnode.shaped
  rw [addInto]
  cases hedit : editLeaf (fun held new => do return [← merge held new]) (fun new => some [new])
      items added with
  | none =>
    rw [hedit] at heq
    rintro ⟨edited, hedited, _⟩
    rw [← heq] at hedited
    cases hedited
  | some result =>
    obtain ⟨keep, removed, new, tail, rfl, rfl⟩ := hkept result hedit hne
    rw [hedit] at heq
    have hspec : addedList merge (keep ++ removed ++ tail) added = some (keep ++ new ++ tail) :=
      heq.symm
    have hfits : AddFits merge (keep ++ removed ++ tail) added → Fits (keep ++ new ++ tail) := by
      rintro ⟨edited, hedited, hfits⟩
      rw [← heq] at hedited
      rwa [← Option.some.inj hedited] at hfits
    have hgrows := addedList_length hspec
    simp only [Option.bind_eq_bind, Option.bind_some]
    split
    · next hfew =>
      refine ((Node.leafEdited_yields keep removed new tail summary Summary.identity hfew hsummary
        (value_of_subsingleton _ _)).mono hfits fun _ hn => hn).bind fun leaf hleaf => ?_
      obtain ⟨hshaped, hwidth, hleafItems⟩ := hleaf
      refine ⟨⟨by simpa using hshaped, by simp, ?_, by simp⟩, ?_⟩
      · intro node hnode
        rw [List.mem_singleton.mp hnode, hwidth]
        exact Or.inl hgrows
      · rw [hspec, List.flatMap_singleton, hleafItems]
    · next hmany =>
      have hrun : ∀ xs : List I, (xs.flatMap fun item => [item]) = xs := by simp
      have hcut := cut_spread_yields (builds_items B) (keep ++ new ++ tail)
        Summary.identity (keep ++ removed ++ tail).length (by rw [← List.length_pos_iff]; omega) (fun _ _ => trivial) hgrows
        (value_of_subsingleton _ _)
      rw [hrun] at hcut
      refine hcut.mono hfits fun nodes hnodes => ⟨hnodes.1, ?_⟩
      rw [hnodes.2]
      exact hspec

/-- What `add_into` does at one height. -/
def AddsInto (B : Branching) (h : Nat) (merge : I → I → Option I) : Prop :=
  ∀ (node : Node I S G) (added : List I), node.TopShaped B h → KeyOrdered node.items →
    KeyOrdered added → added ≠ [] →
    Yields (AddFits merge node.items added) (addInto B merge node added)
      (fun nodes => Spread B h node.width nodes ∧
        addedList merge node.items added = some (nodes.flatMap Node.items))

theorem addParts_yields (hadds : AddsInto (I := I) (S := S) (G := G) B h merge)
    (pre : List (Node I S G)) {children : List (Node I S G)} {batch : List I}
    {parts : List (Nat × List I)} (hbatched : Batched pre.length children batch parts)
    (hchildren : ∀ c ∈ children, c.Full B h) (hsorted : KeyOrdered (children.flatMap Node.items))
    (hbatch : KeyOrdered batch) :
    Yields (AddFits merge (children.flatMap Node.items) batch)
      (addParts B merge (pre ++ children) parts pre.length)
      (fun united => (∀ c ∈ united, c.Full B h) ∧ children.length ≤ united.length ∧
        addedList merge (children.flatMap Node.items) batch =
          some (united.flatMap Node.items)) := by
  generalize hstart : pre.length = start at hbatched
  induction hbatched generalizing pre with
  | done start children =>
    subst hstart
    rw [addParts, List.drop_left]
    exact ⟨hchildren, le_rfl, keyedEdit_nil_right _⟩
  | part start before child later part batch parts hpart hskipped hitems hkeys hrest ih =>
    subst hstart
    have hget : (pre ++ (before ++ child :: later))[pre.length + before.length]? = some child := by
      rw [← List.append_assoc, ← List.length_append, getElem?_middle]
    have hslice : ((pre ++ (before ++ child :: later)).take (pre.length + before.length)).drop
        pre.length = before := by
      rw [← List.append_assoc, ← List.length_append, List.take_left, List.drop_left]
    have hlist : pre ++ (before ++ child :: later) = (pre ++ before ++ [child]) ++ later := by simp
    have hnext : pre.length + before.length + 1 = (pre ++ before ++ [child]).length := by
      simp [Nat.add_assoc]
    have hchild := hchildren child (by simp)
    rw [List.flatMap_append, List.flatMap_cons] at hsorted
    have hchildLater := (keyOrdered_append.mp hsorted).2.1
    obtain ⟨hpartOrdered, hbatchOrdered, _⟩ := keyOrdered_append.mp hbatch
    have hfits := EditFits.children (fun held new => do return [← merge held new])
      (fun new => some [new]) hskipped hitems hkeys
    have hspec := keyedEdit_children (fun held new => do return [← merge held new])
      (fun new => some [new]) hskipped hitems hkeys
    rw [addParts]
    split
    · next hnone =>
      rw [hget] at hnone
      cases hnone
    · next found hfound =>
      rw [hget] at hfound
      obtain rfl := Option.some.inj hfound
      refine ((hadds child part hchild.topShaped (keyOrdered_append.mp hchildLater).1 hpartOrdered
        hpart).mono (fun h => (hfits h).1) fun _ hn => hn).bind fun nodes hnodes => ?_
      obtain ⟨hspread, hnodesItems⟩ := hnodes
      have hlater := ih (pre ++ before ++ [child]) (fun c hc => hchildren c (by simp [hc]))
        (keyOrdered_append.mp hchildLater).2.1 hbatchOrdered hnext.symm
      rw [← hlist] at hlater
      refine (hlater.mono (fun h => (hfits h).2) fun _ hl => hl).bind fun united hunited => ?_
      obtain ⟨hfull, hlen, hunitedItems⟩ := hunited
      have hpos := List.length_pos_iff.mpr hspread.nonempty
      rw [hslice]
      refine ⟨?_, ?_, ?_⟩
      · intro c hc
        rcases List.mem_append.mp hc with hc | hc
        · rcases List.mem_append.mp hc with hc | hc
          · exact hchildren c (by simp [hc])
          · exact hspread.full hchild.wide c hc
        · exact hfull c hc
      · simp only [List.length_append, List.length_cons]
        omega
      · unfold addedList at hnodesItems hunitedItems ⊢
        rw [hspec, hnodesItems, hunitedItems]
        simp

theorem addInto_yields : AddsInto (I := I) (S := S) (G := G) B h merge := by
  induction h with
  | zero =>
    intro node added hnode hitems hadded hne
    obtain ⟨items, summary, rfl, _⟩ := hnode.shaped.leaf_of_zero
    rw [Node.items_leaf] at hitems ⊢
    exact addInto_leaf_yields added hnode hitems hadded hne
  | succ h ih =>
    intro node added hnode hitems hadded hne
    obtain ⟨children, summary, rfl, _, hchildrenNe, hchildren, _⟩ := hnode.shaped.internal_of_succ
    rw [Node.items_internal] at hitems ⊢
    obtain ⟨parts, hparts, hbatched⟩ := batchParts_eq [] children added hchildren hitems hadded
      fun _ => hchildrenNe
    rw [List.nil_append, List.length_nil] at hparts
    have hloop := addParts_yields ih [] hbatched hchildren hitems hadded
    rw [List.nil_append, List.length_nil] at hloop
    rw [addInto]
    simp only [hparts, Option.bind_eq_bind, Option.bind_some]
    refine hloop.bind fun united hunited => ?_
    obtain ⟨hfull, hlen, hspec⟩ := hunited
    refine (cut_spread_yields (builds_children B h) united Summary.identity children.length (by
      rw [← List.length_pos_iff]
      have := List.length_pos_iff.mpr hchildrenNe
      omega) hfull hlen (value_of_subsingleton _ _)).mono ?_ ?_
    · rintro ⟨edited, hedited, hfits⟩
      unfold addedList at hspec
      rw [hspec] at hedited
      rwa [Option.some.inj hedited]
    · rintro nodes ⟨hspread, hnodesItems⟩
      exact ⟨hspread, by rw [hspec, hnodesItems]⟩

/-- A batch put into a sequence ordered by key. -/
theorem addByKey_yields {tree : Chunked I S G B} (hvalid : tree.Valid)
    (htree : KeyOrdered tree.items) (added : List I) (hadded : KeyOrdered added) :
    Yields (AddFits merge tree.items added) (addByKey tree added merge)
      (fun result => result.Valid ∧ addedList merge tree.items added = some result.items) := by
  unfold addByKey
  split
  · next hempty =>
    obtain rfl : added = [] := by simpa using hempty
    exact ⟨hvalid, keyedEdit_nil_right _⟩
  · next hnonempty =>
    have hne : added ≠ [] := by simpa using hnonempty
    obtain ⟨root⟩ := tree
    cases root with
    | none =>
      have hall : ∀ ys : List I, addedList merge [] ys = some ys := by
        intro ys
        induction ys with
        | nil => exact keyedEdit_nil_right _
        | cons y ys ih =>
          unfold addedList at ih ⊢
          rw [keyedEdit, ih]
          rfl
      refine (fromVec_yields B added).mono ?_ fun result hresult => ⟨hresult.1, ?_⟩
      · rintro ⟨edited, hedited, hfits⟩
        have := hall added
        unfold addedList at this
        rw [Chunked.items_none, this] at hedited
        rwa [Option.some.inj hedited]
      · rw [hresult.2]
        exact hall added
    | some root =>
      obtain ⟨h, hroot⟩ := hvalid root rfl
      rw [Chunked.items_some] at htree ⊢
      simp only [hroot.shaped.height_eq]
      refine (addInto_yields root added hroot.toTopShaped htree hadded hne).bind
        fun nodes hnodes => ?_
      obtain ⟨hspread, hspec⟩ := hnodes
      refine (treeOver_spread_yields hroot.toTopShaped nodes Summary.identity hspread
        (value_of_subsingleton _ _)).mono ?_ ?_
      · rintro ⟨edited, hedited, hfits⟩
        unfold addedList at hspec
        rw [hspec] at hedited
        rwa [Option.some.inj hedited]
      · rintro tree ⟨htreeValid, htreeItems⟩
        exact ⟨htreeValid, by rw [hspec, htreeItems]⟩

end KRust.Term.Chunks
