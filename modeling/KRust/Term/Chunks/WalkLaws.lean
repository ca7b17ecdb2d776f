import Mathlib.Data.List.TakeWhile
import KRust.Term.Chunks.Walk

/-!
What reading a tree answers. An end of the iterator stands for the items it would
walk, nearest first; that both ends stand for the items left is kept by every call,
so any run of calls answers as the list of those items would.
-/

set_option linter.unusedSectionVars false

namespace KRust.Term.Chunks

open KRust.Lib KRust.Lib.Partial

section Ends

variable {α I S G : Type}

/-- A list in the order an end reads it. -/
def orient (back : Bool) (xs : List α) : List α := if back then xs.reverse else xs

@[simp] theorem orient_nil (back : Bool) : orient back ([] : List α) = [] := by
  cases back <;> rfl

@[simp] theorem orient_orient (back : Bool) (xs : List α) : orient back (orient back xs) = xs := by
  cases back <;> simp [orient]

@[simp] theorem length_orient (back : Bool) (xs : List α) : (orient back xs).length = xs.length := by
  cases back <;> simp [orient]

theorem takeEnd_nil (back : Bool) : takeEnd back ([] : List α) = none := by
  cases back <;> rfl

/-- Taking from an end takes the first of what that end reads. -/
theorem takeEnd_orient (back : Bool) (x : α) (xs : List α) :
    takeEnd back (orient back (x :: xs)) = some (x, orient back xs) := by
  cases back <;> simp [takeEnd, orient]

theorem orient_eq_cons {back : Bool} {xs rest : List α} {x : α}
    (h : takeEnd back xs = some (x, rest)) : orient back xs = x :: orient back rest := by
  have hxs := orient_orient back xs
  cases ho : orient back xs with
  | nil =>
    rw [ho, orient_nil] at hxs
    subst hxs
    rw [takeEnd_nil] at h
    cases h
  | cons y ys =>
    rw [ho] at hxs
    rw [← hxs, takeEnd_orient, Option.some.injEq, Prod.mk.injEq] at h
    obtain ⟨rfl, rfl⟩ := h
    simp

theorem eq_nil_of_takeEnd {back : Bool} {xs : List α} (h : takeEnd back xs = none) : xs = [] := by
  have hxs := orient_orient back xs
  cases ho : orient back xs with
  | nil => rw [← hxs, ho, orient_nil]
  | cons y ys =>
    rw [← hxs, ho, takeEnd_orient] at h
    cases h

/-- The items an end would walk, nearest first. -/
def reading (back : Bool) (items : List I) (stack : List (List (Node I S G))) : List I :=
  orient back items ++ stack.flatMap fun nodes => orient back (nodes.flatMap Node.items)

theorem orient_flatMap_cons {back : Bool} {nodes rest : List (Node I S G)} {node : Node I S G}
    (h : takeEnd back nodes = some (node, rest)) :
    orient back (nodes.flatMap Node.items) =
      orient back node.items ++ orient back (rest.flatMap Node.items) := by
  have hnodes := orient_eq_cons h
  cases back with
  | false =>
    simp only [orient, Bool.false_eq_true, if_false] at hnodes ⊢
    simp [hnodes]
  | true =>
    simp only [orient, if_true] at hnodes ⊢
    rw [List.reverse_eq_iff] at hnodes
    simp [hnodes]

theorem advance_eq (back : Bool) (items : List I) (stack : List (List (Node I S G))) (x : I)
    (rest : List I) (hreading : reading back items stack = x :: rest) :
    ∃ items' stack', advance back items stack = some (x, items', stack') ∧
      reading back items' stack' = rest := by
  induction items, stack using advance.induct back with
  | case1 items stack item left htake =>
    rw [advance.eq_def, htake]
    rw [reading, orient_eq_cons htake, List.cons_append, List.cons.injEq] at hreading
    obtain ⟨rfl, hrest⟩ := hreading
    exact ⟨left, stack, rfl, hrest⟩
  | case2 items htake =>
    rw [eq_nil_of_takeEnd htake] at hreading
    simp [reading] at hreading
  | case3 items htake nodes outer hnext ih =>
    have hnodes := eq_nil_of_takeEnd hnext
    rw [advance.eq_def, htake]
    simp only
    split
    · apply ih
      rw [← hreading, hnodes]
      simp [reading]
    · next heq => rw [hnext] at heq; cases heq
    · next heq => rw [hnext] at heq; cases heq
  | case4 items htake nodes outer items' summary left hnext ih =>
    have hitems := eq_nil_of_takeEnd htake
    rw [advance.eq_def, htake]
    simp only
    split
    · next heq => rw [hnext] at heq; cases heq
    · next heq =>
      rw [hnext] at heq
      cases heq
      apply ih
      rw [← hreading, hitems]
      simp [reading, orient_flatMap_cons hnext]
    · next heq => rw [hnext] at heq; cases heq
  | case5 items htake nodes outer height children summary left hnext ih =>
    have hitems := eq_nil_of_takeEnd htake
    rw [advance.eq_def, htake]
    simp only
    split
    · next heq => rw [hnext] at heq; cases heq
    · next heq => rw [hnext] at heq; cases heq
    · next heq =>
      rw [hnext] at heq
      cases heq
      apply ih
      rw [← hreading, hitems]
      simp [reading, orient_flatMap_cons hnext]

/-- The calls of a run on the list of the items left. -/
def takeEnds : List Bool → List α → List (Option α)
  | [], _ => []
  | back :: more, xs =>
    match takeEnd back xs with
    | none => none :: takeEnds more xs
    | some (x, rest) => some x :: takeEnds more rest

/-- The iterator has the items `xs` left: both ends walk them first. -/
structure Iter.Left (iter : Iter I S G) (xs : List I) : Prop where
  remaining : iter.remaining = xs.length
  front : ∃ beyond, reading false iter.frontItems iter.front = xs ++ beyond
  back : ∃ beyond, reading true iter.backItems iter.back = xs.reverse ++ beyond

namespace Iter

variable {iter : Iter I S G} {xs : List I}

theorem Left.step_none (hiter : iter.Left []) (back : Bool) :
    iter.step back = some (none, iter) := by
  rw [step, if_pos (by simpa using hiter.remaining)]

/-- A call takes the item at its end; the other end still walks what is left. -/
theorem Left.step_some {back : Bool} {x : I} {rest : List I} (hiter : iter.Left xs)
    (htake : takeEnd back xs = some (x, rest)) :
    ∃ iter', iter.step back = some (some x, iter') ∧ iter'.Left rest := by
  have hne : xs ≠ [] := by
    rintro rfl
    rw [takeEnd_nil] at htake
    cases htake
  have hcount := hiter.remaining
  have hpos := List.length_pos_iff.mpr hne
  have horient := orient_eq_cons htake
  obtain ⟨beyondFront, hfront⟩ := hiter.front
  obtain ⟨beyondBack, hback⟩ := hiter.back
  rw [step, if_neg (by omega)]
  cases back with
  | false =>
    obtain rfl : xs = x :: rest := horient
    obtain ⟨items, stack, hadvance, hreading⟩ := advance_eq _ _ _ _ _ hfront
    refine ⟨_, by simp [hadvance]; rfl, ⟨?_, ⟨beyondFront, hreading⟩, ?_⟩⟩
    · simp [hcount]
    · exact ⟨x :: beyondBack, by simpa using hback⟩
  | true =>
    simp only [orient, if_true] at horient
    rw [horient] at hback
    obtain ⟨items, stack, hadvance, hreading⟩ := advance_eq _ _ _ _ _ hback
    have hlen := congrArg List.length horient
    simp only [List.length_reverse, List.length_cons] at hlen
    refine ⟨_, by simp [hadvance]; rfl, ⟨?_, ?_, ⟨beyondBack, hreading⟩⟩⟩
    · simp only [hcount, hlen]
      omega
    · rw [List.reverse_eq_iff, List.reverse_cons, List.reverse_reverse] at horient
      exact ⟨x :: beyondFront, by rw [hfront, horient]; simp⟩

/-- Every run of calls answers as the list of the items left. -/
theorem Left.run_eq (hiter : iter.Left xs) (calls : List Bool) :
    iter.run calls = some (takeEnds calls xs) := by
  induction calls generalizing iter xs with
  | nil => rfl
  | cons back more ih =>
    cases htake : takeEnd back xs with
    | none =>
      obtain rfl := eq_nil_of_takeEnd htake
      simp [run, takeEnds, takeEnd_nil, hiter.step_none, ih hiter]
    | some next =>
      obtain ⟨x, rest⟩ := next
      obtain ⟨iter', hstep, hleft⟩ := hiter.step_some htake
      simp [run, takeEnds, htake, hstep, ih hleft]

theorem Left.collect_eq (hiter : iter.Left xs) : iter.collect = some xs := by
  rw [collect, hiter.remaining]
  induction xs generalizing iter with
  | nil => rfl
  | cons x xs ih =>
    obtain ⟨iter', hstep, hleft⟩ := hiter.step_some (show takeEnd false (x :: xs) = some (x, xs) from rfl)
    simp [collect.loop, next, hstep, ih hleft]

end Iter

end Ends

section Laws

variable {I K S G M A : Type} [Item I K S G] [LinearOrder K] [Summary S] [Group G]
  [AddMonoid M] [AddCancelCommMonoid A] [LawfulSummary S M] [LawfulGroup G A]
  {B : Branching} {h : Nat} {node : Node I S G}

/-- The child an item lies in, with that child's items around it. -/
theorem slotOf_eq (children : List (Node I S G))
    (hcount : ∀ child ∈ children, child.summary.count = child.items.length)
    (before : List I) (x : I) (after : List I)
    (hitems : children.flatMap Node.items = before ++ x :: after) :
    ∃ pre child post left right, children = pre ++ child :: post ∧
      child.items = left ++ x :: right ∧ before = pre.flatMap Node.items ++ left ∧
      after = right ++ post.flatMap Node.items ∧
      slotOf children before.length = some (pre.length, left.length) := by
  induction children generalizing before with
  | nil => simp at hitems
  | cons child rest ih =>
    have hchild := hcount child (by simp)
    rw [List.flatMap_cons] at hitems
    simp only [slotOf, hchild]
    rcases List.append_eq_append_iff.mp hitems with ⟨mid, hmid, hrest⟩ | ⟨mid, hmid, hafter⟩
    · obtain ⟨pre, found, post, left, right, hsplit, hfound, hbefore, hafter, hslot⟩ :=
        ih (fun c hc => hcount c (by simp [hc])) mid hrest
      subst hmid
      refine ⟨child :: pre, found, post, left, right, by simp [hsplit], hfound, by simp [hbefore],
        hafter, ?_⟩
      have hlen : (child.items ++ mid).length - child.items.length = mid.length := by simp
      rw [if_neg (by simp), hlen, hslot]
      rfl
    · cases mid with
      | nil =>
        rw [List.append_nil] at hmid
        rw [List.nil_append] at hafter
        obtain ⟨pre, found, post, left, right, hsplit, hfound, hbefore, hrest, hslot⟩ :=
          ih (fun c hc => hcount c (by simp [hc])) [] (by simpa using hafter.symm)
        refine ⟨child :: pre, found, post, left, right, by simp [hsplit], hfound, ?_, hrest, ?_⟩
        · rw [List.flatMap_cons, List.append_assoc, ← hbefore, List.append_nil, hmid]
        · rw [← hmid, if_neg (by simp), Nat.sub_self]
          rw [List.length_nil] at hslot
          rw [hslot]
          rfl
      | cons y mid =>
        rw [List.cons_append, List.cons.injEq] at hafter
        obtain ⟨rfl, rfl⟩ := hafter
        refine ⟨[], child, rest, before, mid, rfl, hmid, rfl, rfl, ?_⟩
        rw [hmid, if_pos (by simp)]
        rfl

theorem getFrom_eq (hnode : node.Shaped B h) (before : List I) (x : I) (after : List I)
    (hitems : node.items = before ++ x :: after) :
    getFrom node before.length = some (some x) := by
  induction h generalizing node before after with
  | zero =>
    obtain ⟨items, summary, rfl, _⟩ := hnode.leaf_of_zero
    rw [Node.items_leaf] at hitems
    rw [getFrom, hitems, getElem?_middle]
  | succ h ih =>
    obtain ⟨children, summary, rfl, _, _, hchildren, _⟩ := hnode.internal_of_succ
    rw [Node.items_internal] at hitems
    obtain ⟨pre, child, post, left, right, rfl, hchild, rfl, rfl, hslot⟩ := slotOf_eq children
      (fun c hc => (hchildren c hc).shaped.count_eq) before x after hitems
    rw [getFrom]
    simp only [hslot, Option.bind_eq_bind, Option.bind_some]
    split
    · next hnone =>
      rw [getElem?_middle] at hnone
      cases hnone
    · next found hfound =>
      rw [getElem?_middle] at hfound
      obtain rfl := Option.some.inj hfound
      exact ih (hchildren child (by simp)).shaped left right hchild

theorem exists_split_lt {α : Type} (xs : List α) (index : Nat) (hindex : index < xs.length) :
    ∃ before x after, xs = before ++ x :: after ∧ before.length = index ∧ xs[index]? = some x := by
  obtain ⟨before, after, hsplit, hlen⟩ := exists_split xs index hindex.le
  cases after with
  | nil =>
    rw [hsplit, List.append_nil, hlen] at hindex
    omega
  | cons x after =>
    refine ⟨before, x, after, hsplit, hlen, ?_⟩
    rw [hsplit, ← hlen, getElem?_middle]

theorem get_eq {tree : Chunked I S G B} (hvalid : tree.Valid) (index : Nat) :
    get tree index = some tree.items[index]? := by
  obtain ⟨root⟩ := tree
  cases root with
  | none => simp [get]
  | some root =>
    obtain ⟨h, hroot⟩ := hvalid root rfl
    simp only [get, hroot.shaped.count_eq, Chunked.items_some]
    split
    · next hout => rw [List.getElem?_eq_none hout]
    · next hin =>
      obtain ⟨before, x, after, hsplit, rfl, hget⟩ := exists_split_lt root.items index (by omega)
      rw [hget, getFrom_eq hroot.shaped before x after hsplit]

/-- A descent to an item leaves its end at that item. -/
theorem Iter.descend_eq (back : Bool) (hnode : node.Shaped B h) (before : List I) (x : I)
    (after : List I) (hitems : node.items = before ++ x :: after)
    (stack : List (List (Node I S G))) :
    ∃ stack' items, descend back node before.length stack = some (stack', items) ∧
      reading back items stack' =
        orient back (if back then before ++ [x] else x :: after) ++ reading back [] stack := by
  induction h generalizing node before after stack with
  | zero =>
    obtain ⟨items, summary, rfl, _⟩ := hnode.leaf_of_zero
    rw [Node.items_leaf] at hitems
    rw [descend, if_pos (by rw [hitems]; simp)]
    refine ⟨_, _, rfl, ?_⟩
    have htake : items.take (before.length + 1) = before ++ [x] := by
      have hlist : items = (before ++ [x]) ++ after := by simp [hitems]
      have hlen : before.length + 1 = (before ++ [x]).length := by simp
      rw [hlist, hlen, List.take_left]
    have hdrop : items.drop before.length = x :: after := by
      rw [hitems]
      simp
    rw [htake, hdrop]
    simp [reading]
  | succ h ih =>
    obtain ⟨children, summary, rfl, _, _, hchildren, _⟩ := hnode.internal_of_succ
    rw [Node.items_internal] at hitems
    obtain ⟨pre, child, post, left, right, rfl, hchild, rfl, rfl, hslot⟩ := slotOf_eq children
      (fun c hc => (hchildren c hc).shaped.count_eq) before x after hitems
    rw [descend]
    simp only [hslot, Option.bind_eq_bind, Option.bind_some]
    split
    · next hnone =>
      rw [getElem?_middle] at hnone
      cases hnone
    · next found hfound =>
      rw [getElem?_middle] at hfound
      obtain rfl := Option.some.inj hfound
      have hdrop : (pre ++ child :: post).drop (pre.length + 1) = post := by simp
      rw [List.take_left, hdrop]
      obtain ⟨stack', items, hdescend, hreading⟩ := ih (hchildren child (by simp)).shaped left
        right hchild ((if back then pre else post) :: stack)
      refine ⟨stack', items, hdescend, ?_⟩
      rw [hreading]
      cases back
      · simp [reading, orient]
      · simp [reading, orient]

theorem Iter.between_left (hnode : node.Shaped B h) (before middle after : List I)
    (hitems : node.items = before ++ middle ++ after) :
    ∃ iter, between (some node) before.length (before.length + middle.length) = some iter ∧
      iter.Left middle := by
  unfold between
  rw [checkedSub_of_le (by omega)]
  simp only [Option.bind_eq_bind, Option.bind_some]
  split
  · next hlt =>
    obtain ⟨x, rest, hfirst⟩ := List.exists_cons_of_length_pos (l := middle) (by omega)
    obtain ⟨init, y, hlast⟩ : ∃ init y, middle = init ++ [y] := by
      rcases List.eq_nil_or_concat middle with hnil | ⟨init, y, hconcat⟩
      · simp [hnil] at hlt
      · exact ⟨init, y, by simpa using hconcat⟩
    obtain ⟨front, frontItems, hfront, hfrontReading⟩ := descend_eq false hnode before x
      (rest ++ after) (by rw [hitems, hfirst]; simp) []
    obtain ⟨back, backItems, hback, hbackReading⟩ := descend_eq true hnode (before ++ init) y
      after (by rw [hitems, hlast]; simp) []
    have hstop : before.length + middle.length - 1 = (before ++ init).length := by
      simp [hlast]
    rw [hstop, hfront, hback]
    refine ⟨_, rfl, ⟨by simp, ⟨after, ?_⟩, ⟨before.reverse, ?_⟩⟩⟩
    · simp only [hfrontReading]
      simp [orient, reading, hfirst]
    · simp only [hbackReading]
      simp [orient, reading, hlast]
  · next hnot =>
    obtain rfl : middle = [] := by
      rw [← List.length_eq_zero_iff]
      omega
    exact ⟨_, rfl, ⟨by simp, ⟨[], rfl⟩, ⟨[], rfl⟩⟩⟩

/-- An iterator over a range has the items at its positions left. -/
theorem range_left {tree : Chunked I S G B} (hvalid : tree.Valid) (start stop : Bound)
    (first last : Nat) (hstart : start.start = some first)
    (hstop : stop.stop tree.items.length = some last) (horder : first ≤ last)
    (hlast : last ≤ tree.items.length) :
    ∃ iter, range tree start stop = some iter ∧
      iter.Left ((tree.items.take last).drop first) := by
  have hrange : range tree start stop = Iter.between tree.root first last := by
    simp only [range, hvalid.len_eq, hstart, hstop, Option.bind_eq_bind, Option.bind_some]
    rw [if_pos ⟨horder, hlast⟩]
  rw [hrange]
  obtain ⟨root⟩ := tree
  cases root with
  | none =>
    obtain rfl : last = 0 := by simpa using hlast
    obtain rfl : first = 0 := by simpa using horder
    exact ⟨_, rfl, ⟨by simp, ⟨[], by simp [reading]⟩, ⟨[], by simp [reading]⟩⟩⟩
  | some root =>
    obtain ⟨h, hroot⟩ := hvalid root rfl
    rw [Chunked.items_some] at hlast ⊢
    have hbefore : ((root.items.take last).take first).length = first := by
      simp only [List.length_take]
      omega
    have hmiddle : ((root.items.take last).drop first).length = last - first := by
      simp only [List.length_drop, List.length_take]
      omega
    have hsplit : root.items = (root.items.take last).take first ++
        (root.items.take last).drop first ++ root.items.drop last := by
      rw [List.take_append_drop, List.take_append_drop]
    have hbetween := Iter.between_left hroot.shaped _ _ _ hsplit
    rw [hbefore, hmiddle, Nat.add_sub_cancel' horder] at hbetween
    exact hbetween

theorem iter_left {tree : Chunked I S G B} (hwithin : tree.Within h) :
    (iter tree).Left tree.items := by
  obtain ⟨root⟩ := tree
  cases root with
  | none => exact ⟨rfl, ⟨[], rfl⟩, ⟨[], rfl⟩⟩
  | some root =>
    obtain ⟨k, _, hroot⟩ := hwithin root rfl
    have hcount := hroot.shaped.count_eq
    cases root with
    | leaf items summary =>
      refine ⟨hcount, ⟨[], ?_⟩, ⟨[], ?_⟩⟩ <;> simp [iter, Iter.new, reading, orient]
    | internal height children summary =>
      refine ⟨hcount, ⟨[], ?_⟩, ⟨[], ?_⟩⟩ <;> simp [iter, Iter.new, reading, orient]

theorem toVec_eq {tree : Chunked I S G B} (hwithin : tree.Within h) :
    toVec tree = some tree.items :=
  (iter_left hwithin).collect_eq

/-- Whether the last item below a child passes the test. -/
def lastPasses (before : I → Bool) (child : Node I S G) : Bool :=
  (child.items.getLast?.map before).getD false

/-- Under a test that holds of a prefix of the items, a run whose last item passes
passes as a whole. -/
theorem all_of_last {before : I → Bool} {xs : List I}
    (hmono : xs.Pairwise fun x y => before y → before x) (hlast : xs.getLast?.map before = some true) :
    ∀ x ∈ xs, before x = true := by
  rcases List.eq_nil_or_concat xs with rfl | ⟨init, y, rfl⟩
  · simp
  · rw [List.concat_eq_append] at *
    have hy : before y = true := by simpa using hlast
    rw [List.pairwise_append] at hmono
    intro x hx
    rcases List.mem_append.mp hx with hx | hx
    · exact hmono.2.2 x hx y (by simp) hy
    · rw [List.mem_singleton.mp hx, hy]

theorem takeWhile_append_of_fails {α : Type} {p : α → Bool} {xs : List α} {x : α} (hx : x ∈ xs)
    (hfails : p x = false) (ys : List α) : (xs ++ ys).takeWhile p = xs.takeWhile p := by
  induction xs with
  | nil => simp at hx
  | cons y xs ih =>
    rcases List.mem_cons.mp hx with rfl | hx
    · simp [hfails]
    · cases hy : p y
      · simp [hy]
      · simp [hy, ih hx]

theorem mapM_eq_map {α β : Type} {f : α → Option β} {g : α → β} {xs : List α}
    (h : ∀ x ∈ xs, f x = some (g x)) : xs.mapM f = some (xs.map g) := by
  induction xs with
  | nil => rfl
  | cons x xs ih =>
    rw [List.mapM_cons, h x (by simp), ih fun y hy => h y (by simp [hy])]
    rfl

/-- Where the tests of the children's last items turn: the children before it pass as a whole, and
the one after it holds an item that fails. -/
structure TurnsAt (before : I → Bool) (children pre post : List (Node I S G)) : Prop where
  split : children = pre ++ post
  tests : children.mapM (fun child => child.summary.last.map before) =
    some (children.map (lastPasses before))
  slot : partitionSlice id (children.map (lastPasses before)) = pre.length
  count : ((pre.map fun child => child.summary.count).sum) = (pre.flatMap Node.items).length
  pass : ∀ x ∈ pre.flatMap Node.items, before x = true
  fail : ∀ child, post.head? = some child → ∃ x ∈ child.items, before x = false

theorem exists_turnsAt {before : I → Bool} {children : List (Node I S G)}
    (hchildren : ∀ child ∈ children, child.Full B h)
    (hmono : (children.flatMap Node.items).Pairwise fun x y => before y → before x) :
    ∃ pre post, TurnsAt before children pre post := by
  have hlast : ∀ child ∈ children,
      child.summary.last.map before = some (lastPasses before child) := by
    intro child hchild
    have hne := (hchildren child hchild).items_ne_nil
    rw [(hchildren child hchild).shaped.summarizes.last, lastPasses,
      List.getLast?_eq_some_getLast hne]
    rfl
  have hsplit : children = children.takeWhile (lastPasses before) ++
      children.dropWhile (lastPasses before) := List.takeWhile_append_dropWhile.symm
  refine ⟨children.takeWhile (lastPasses before), children.dropWhile (lastPasses before), {
    split := hsplit, tests := mapM_eq_map hlast, slot := ?_, count := ?_, pass := ?_, fail := ?_ }⟩
  · rw [partitionSlice, List.takeWhile_map, List.length_map]
    rfl
  · have hcounts : (children.takeWhile (lastPasses before)).map (fun child => child.summary.count) =
        (children.takeWhile (lastPasses before)).map fun child => child.items.length :=
      List.map_congr_left fun child hchild =>
        (hchildren child ((List.takeWhile_sublist _).mem hchild)).shaped.count_eq
    rw [hcounts, List.length_flatMap]
  · intro x hx
    obtain ⟨child, hchild, hx⟩ := List.mem_flatMap.mp hx
    have hmem := (List.takeWhile_sublist _).mem hchild
    have hne := (hchildren child hmem).items_ne_nil
    suffices h : ∀ x ∈ child.items, before x = true from h x hx
    refine all_of_last ?_ ?_
    · obtain ⟨one, two, rfl⟩ := List.append_of_mem hmem
      simp only [List.flatMap_append, List.flatMap_cons] at hmono
      exact (List.pairwise_append.mp (List.pairwise_append.mp hmono).2.1).1
    · have hpass : lastPasses before child = true := List.mem_takeWhile_imp hchild
      rw [lastPasses, List.getLast?_eq_some_getLast hne] at hpass
      rw [List.getLast?_eq_some_getLast hne]
      simpa using hpass
  · intro child hchild
    have hmem := (List.dropWhile_sublist (lastPasses before)).mem (List.mem_of_head? hchild)
    have hne := (hchildren child hmem).items_ne_nil
    have hfail : lastPasses before child = false := by
      have := List.head?_dropWhile_not (lastPasses before) children
      rw [hchild] at this
      simpa using this
    rw [lastPasses, List.getLast?_eq_some_getLast hne] at hfail
    exact ⟨child.items.getLast hne, List.getLast_mem hne, by simpa using hfail⟩

theorem partitionFrom_eq {before : I → Bool} (hnode : node.Shaped B h)
    (hmono : node.items.Pairwise fun x y => before y → before x) (position : Nat) :
    partitionFrom before node position =
      some (position + (node.items.takeWhile before).length) := by
  induction h generalizing node position with
  | zero =>
    obtain ⟨items, summary, rfl, _⟩ := hnode.leaf_of_zero
    rw [partitionFrom, Node.items_leaf]
    rfl
  | succ h ih =>
    obtain ⟨children, summary, rfl, _, _, hchildren, _⟩ := hnode.internal_of_succ
    rw [Node.items_internal] at hmono ⊢
    obtain ⟨pre, post, hturns⟩ := exists_turnsAt hchildren hmono
    have hslot := hturns.slot
    rw [partitionFrom]
    simp only [hturns.tests, Option.bind_eq_bind, Option.bind_some, hslot]
    obtain rfl := hturns.split
    rw [List.take_left, hturns.count, List.flatMap_append,
      List.takeWhile_append_of_pos hturns.pass, List.length_append]
    split
    · next hnone =>
      rw [hslot] at hnone
      obtain rfl : post = [] := by simpa using hnone
      simp
    · next child hchild =>
      rw [hslot] at hchild
      obtain ⟨rest, rfl⟩ : ∃ rest, post = child :: rest := by
        cases post with
        | nil => simp at hchild
        | cons c rest => exact ⟨rest, by simpa using hchild⟩
      obtain ⟨x, hx, hfails⟩ := hturns.fail child rfl
      rw [List.flatMap_append, List.flatMap_cons] at hmono
      have hchildMono := (List.pairwise_append.mp (List.pairwise_append.mp hmono).2.1).1
      rw [ih (hchildren child (by simp)).shaped hchildMono, List.flatMap_cons,
        takeWhile_append_of_fails hx hfails, Nat.add_assoc]

/-- The number of leading items for which a test holds that is monotone along the
sequence. -/
theorem partitionPoint_eq {tree : Chunked I S G B} (hwithin : tree.Within h) (before : I → Bool)
    (hmono : tree.items.Pairwise fun x y => before y → before x) :
    partitionPoint tree before = some (tree.items.takeWhile before).length := by
  obtain ⟨root⟩ := tree
  cases root with
  | none => rfl
  | some root =>
    obtain ⟨k, _, hroot⟩ := hwithin root rfl
    simp only [partitionPoint, Chunked.items_some] at hmono ⊢
    rw [partitionFrom_eq hroot.shaped hmono, Nat.zero_add]

end Laws

end KRust.Term.Chunks
