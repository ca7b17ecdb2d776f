import KRust.Term.Chunks.SeekLaws

/-!
The pruned descent: the iterator over the items that a seek wants enters only the subtrees that
the seek admits, and yields what filtering the whole sequence would.
-/

set_option linter.unusedSectionVars false

namespace KRust.Term.Chunks

open KRust.Lib

variable {I K S G : Type} {B : Branching}

section Definitions

/-- `Sought`. The stack holds the siblings left at each level of the descent, innermost first,
with the position of the first item of the next one. -/
structure Sought (I S G : Type) where
  seek : Seek I S G
  nodes : List (List (Node I S G) × Nat)
  items : List I
  position : Nat

namespace Sought

/-- `enter` -/
def enter (sought : Sought I S G) (node : Node I S G) (start : Nat) : Sought I S G :=
  if sought.seek.admits start node.summary then
    match node with
    | .leaf items _ => { sought with items, position := start }
    | .internal _ children _ => { sought with nodes := (children, start) :: sought.nodes }
  else sought

/-- What is left to walk. -/
noncomputable def size (sought : Sought I S G) : Nat :=
  (sought.nodes.map fun level => sizeOf level.1).sum + sought.items.length

theorem size_enter (sought : Sought I S G) (node : Node I S G) (start : Nat) :
    (sought.enter node start).size < sought.size + sizeOf node := by
  have hlength : ∀ items : List I, items.length < sizeOf items := by
    intro items
    induction items with
    | nil => simp
    | cons item items ih =>
      simp only [List.length_cons, List.cons.sizeOf_spec]
      omega
  unfold enter
  split
  · cases node with
    | leaf items summary =>
      have := hlength items
      simp only [size, Node.leaf.sizeOf_spec]
      omega
    | internal height children summary =>
      simp only [size, List.map_cons, List.sum_cons, Node.internal.sizeOf_spec]
      omega
  · cases node <;> simp

/-- `next`: the next item that the seek wants, with its position. -/
def next (sought : Sought I S G) : Option (Nat × I) × Sought I S G :=
  match _hitems : sought.items with
  | item :: items =>
    let rest := { sought with items, position := sought.position + 1 }
    if sought.seek.wants sought.position item then (some (sought.position, item), rest)
    else rest.next
  | [] =>
    match _hnodes : sought.nodes with
    | [] => (none, sought)
    | ([], _) :: outer => { sought with nodes := outer }.next
    | (node :: siblings, start) :: outer =>
      let rest := { sought with nodes := (siblings, start + node.summary.count) :: outer }
      (rest.enter node start).next
termination_by sought.size
decreasing_by
  · simp only [size, _hitems, List.length_cons]
    omega
  · simp only [size, _hitems, _hnodes, List.map_cons, List.sum_cons, List.nil.sizeOf_spec]
    omega
  · refine (size_enter _ _ _).trans_le ?_
    simp only [size, _hitems, _hnodes, List.map_cons, List.sum_cons, List.cons.sizeOf_spec]
    omega

theorem size_next {sought : Sought I S G} {entry : Nat × I}
    (hentry : sought.next.1 = some entry) : sought.next.2.size < sought.size := by
  fun_induction next sought with
  | case1 sought item items hitems rest hwants =>
    simp only [rest, size, hitems, List.length_cons]
    omega
  | case2 sought item items hitems rest hwants ih =>
    refine (ih hentry).trans ?_
    simp only [rest, size, hitems, List.length_cons]
    omega
  | case3 sought hitems hnodes => cases hentry
  | case4 sought hitems start outer hnodes ih =>
    refine (ih hentry).trans ?_
    simp only [size, hitems, hnodes, List.map_cons, List.sum_cons, List.nil.sizeOf_spec]
    omega
  | case5 sought hitems node siblings start outer hnodes rest ih =>
    refine (ih hentry).trans ((size_enter _ _ _).trans_le ?_)
    simp only [rest, size, hitems, hnodes, List.map_cons, List.sum_cons, List.cons.sizeOf_spec]
    omega

/-- All that the iterator yields. -/
def collect (sought : Sought I S G) : List (Nat × I) :=
  match _hnext : sought.next with
  | (none, _) => []
  | (some entry, rest) => entry :: rest.collect
termination_by sought.size
decreasing_by
  have hsize := size_next (congrArg Prod.fst _hnext)
  rwa [_hnext] at hsize

end Sought

/-- `Chunked::seek` -/
def Chunked.seek (tree : Chunked I S G B) (seek : Seek I S G) : Sought I S G :=
  match tree.root with
  | none => ⟨seek, [], [], 0⟩
  | some root => (⟨seek, [], [], 0⟩ : Sought I S G).enter root 0

end Definitions

section Wanted

/-- The items that a seek wants of a sequence that starts at `position`, each with its position. -/
def Seek.wanted (seek : Seek I S G) (position : Nat) (items : List I) : List (Nat × I) :=
  ((items.zipIdx position).filter fun entry => seek.wants entry.2 entry.1).map Prod.swap

variable (seek : Seek I S G)

@[simp] theorem Seek.wanted_nil (position : Nat) : seek.wanted position [] = [] := rfl

theorem Seek.wanted_cons (position : Nat) (item : I) (items : List I) :
    seek.wanted position (item :: items) =
      if seek.wants position item then (position, item) :: seek.wanted (position + 1) items
      else seek.wanted (position + 1) items := by
  simp only [Seek.wanted, List.zipIdx_cons, List.filter_cons]
  split <;> rfl

theorem Seek.wanted_append (position : Nat) (xs ys : List I) :
    seek.wanted position (xs ++ ys) =
      seek.wanted position xs ++ seek.wanted (position + xs.length) ys := by
  rw [Seek.wanted, List.zipIdx_append, List.filter_append, List.map_append]
  rfl

/-- A seek by tests wants the items that pass the test. -/
theorem Seek.wanted_ofTests (admits : NodeSummary I S G → Bool) (wants : I → Bool)
    (position : Nat) (items : List I) :
    (Seek.ofTests admits wants).wanted position items =
      ((items.zipIdx position).filter fun entry => wants entry.1).map Prod.swap := rfl

end Wanted

section Laws

variable {M A : Type} [Item I K S G] [LinearOrder K] [Summary S] [Group G]
  [AddMonoid M] [AddCancelCommMonoid A] [LawfulSummary S M] [LawfulGroup G A]

/-- A subtree that the seek does not admit has no item that it wants. -/
theorem Seek.Lawful.wanted_eq_nil {seek : Seek I S G} (hseek : seek.Lawful) {position : Nat}
    {summary : NodeSummary I S G} {items : List I} (hsummary : Summarizes summary items)
    (hadmits : seek.admits position summary ≠ true) : seek.wanted position items = [] := by
  have hnone : (items.zipIdx position).filter (fun entry => seek.wants entry.2 entry.1) = [] := by
    rw [List.filter_eq_nil_iff]
    intro entry hentry hwants
    obtain ⟨offset, hoffset⟩ := List.mem_iff_getElem?.mp hentry
    rw [List.getElem?_zipIdx] at hoffset
    obtain ⟨item, hitem, rfl⟩ := Option.map_eq_some_iff.mp hoffset
    exact hadmits (hseek.admits position summary items hsummary offset item hitem hwants)
  rw [Seek.wanted, hnone, List.map_nil]

namespace Sought

variable (B)

/-- What an iterator stands for: the wanted items of the leaf it is in and of the siblings left. -/
structure Stands (sought : Sought I S G) (left : List (Nat × I)) : Prop where
  lawful : sought.seek.Lawful
  shaped : ∀ level ∈ sought.nodes, ∀ node ∈ level.1, ∃ h, node.Shaped B h
  left_eq : left = sought.seek.wanted sought.position sought.items ++
    sought.nodes.flatMap fun level => sought.seek.wanted level.2 (level.1.flatMap Node.items)

variable {B}

theorem Stands.enter {sought : Sought I S G} {left : List (Nat × I)} (hstands : Stands B sought left)
    (hitems : sought.items = []) {node : Node I S G} {h : Nat} (hnode : node.Shaped B h)
    (start : Nat) :
    Stands B (sought.enter node start) (sought.seek.wanted start node.items ++ left) := by
  obtain ⟨hlawful, hshaped, rfl⟩ := hstands
  rw [hitems, Seek.wanted_nil, List.nil_append]
  unfold Sought.enter
  split
  · cases node with
    | leaf items summary => exact ⟨hlawful, hshaped, rfl⟩
    | internal height children summary =>
      cases h with
      | zero => exact hnode.elim
      | succ h =>
        obtain ⟨_, _, _, hchildren, _⟩ := hnode
        refine ⟨hlawful, ?_, ?_⟩
        · intro level hlevel child hchild
          cases List.mem_cons.mp hlevel with
          | inl heq =>
            subst heq
            exact ⟨h, (hchildren child hchild).1⟩
          | inr hlevel => exact hshaped level hlevel child hchild
        · simp only [hitems, Seek.wanted_nil, List.nil_append, List.flatMap_cons,
            Node.items_internal]
  · rename_i hadmits
    refine ⟨hlawful, hshaped, ?_⟩
    rw [hlawful.wanted_eq_nil hnode.summarizes hadmits, hitems, Seek.wanted_nil]

/-- A call yields the first of the wanted items that are left. -/
theorem Stands.next {sought : Sought I S G} {left : List (Nat × I)}
    (hstands : Stands B sought left) :
    sought.next.1 = left.head? ∧ Stands B sought.next.2 left.tail := by
  fun_induction Sought.next sought generalizing left with
  | case1 sought item items hitems rest =>
    rename_i hwants
    obtain ⟨hlawful, hshaped, rfl⟩ := hstands
    rw [hitems, Seek.wanted_cons, if_pos hwants]
    exact ⟨rfl, hlawful, hshaped, rfl⟩
  | case2 sought item items hitems rest hwants =>
    rename_i ih
    obtain ⟨hlawful, hshaped, rfl⟩ := hstands
    rw [hitems, Seek.wanted_cons, if_neg hwants]
    exact ih ⟨hlawful, hshaped, rfl⟩
  | case3 sought hitems hnodes =>
    obtain ⟨hlawful, hshaped, rfl⟩ := hstands
    simp only [hitems, hnodes, Seek.wanted_nil, List.flatMap_nil, List.append_nil]
    exact ⟨rfl, hlawful, hshaped, by simp [hitems, hnodes]⟩
  | case4 sought hitems start outer hnodes ih =>
    obtain ⟨hlawful, hshaped, rfl⟩ := hstands
    refine ih ⟨hlawful, fun level hlevel => hshaped level ?_, ?_⟩
    · rw [hnodes]
      exact List.mem_cons_of_mem _ hlevel
    · simp [hnodes]
  | case5 sought hitems node siblings start outer hnodes rest =>
    rename_i ih
    obtain ⟨hlawful, hshaped, rfl⟩ := hstands
    obtain ⟨h, hnode⟩ := hshaped _ (hnodes ▸ List.mem_cons_self) node List.mem_cons_self
    have hrest : Stands B rest (rest.nodes.flatMap fun level =>
        rest.seek.wanted level.2 (level.1.flatMap Node.items)) := by
      refine ⟨hlawful, fun level hlevel child hchild => ?_, ?_⟩
      · cases List.mem_cons.mp hlevel with
        | inl heq =>
          subst heq
          exact hshaped _ (hnodes ▸ List.mem_cons_self) child (List.mem_cons_of_mem _ hchild)
        | inr hlevel => exact hshaped level (hnodes ▸ List.mem_cons_of_mem _ hlevel) child hchild
      · have hempty : rest.items = [] := hitems
        rw [hempty, Seek.wanted_nil, List.nil_append]
    have hleft : sought.seek.wanted sought.position sought.items ++ sought.nodes.flatMap
        (fun level => sought.seek.wanted level.2 (level.1.flatMap Node.items)) =
          rest.seek.wanted start node.items ++ rest.nodes.flatMap
            fun level => rest.seek.wanted level.2 (level.1.flatMap Node.items) := by
      simp only [hitems, hnodes, Seek.wanted_nil, List.nil_append, List.flatMap_cons, rest,
        Seek.wanted_append, hnode.count_eq, List.append_assoc]
    rw [hleft]
    exact ih (hrest.enter hitems hnode start)

theorem Stands.collect {sought : Sought I S G} {left : List (Nat × I)}
    (hstands : Stands B sought left) : sought.collect = left := by
  induction left generalizing sought with
  | nil =>
    obtain ⟨hnext, _⟩ := hstands.next
    unfold Sought.collect
    split
    · rfl
    · rename_i heq
      rw [heq] at hnext
      cases hnext
  | cons entry left ih =>
    obtain ⟨hnext, hrest⟩ := hstands.next
    unfold Sought.collect
    split
    · rename_i heq
      rw [heq] at hnext
      cases hnext
    · rename_i heq
      rw [heq] at hnext hrest
      obtain rfl := Option.some.inj hnext
      exact congrArg _ (ih hrest)

end Sought

variable {tree : Chunked I S G B}

theorem seek_stands (hvalid : tree.Valid) {seek : Seek I S G} (hseek : seek.Lawful) :
    (tree.seek seek).Stands B (seek.wanted 0 tree.items) := by
  obtain ⟨root⟩ := tree
  have hempty : (⟨seek, [], [], 0⟩ : Sought I S G).Stands B [] := ⟨hseek, by simp, by simp⟩
  cases root with
  | none => exact hempty
  | some root =>
    obtain ⟨h, hroot⟩ := hvalid root rfl
    have henter := hempty.enter rfl hroot.shaped 0
    rw [List.append_nil] at henter
    exact henter

/-- The pruned descent yields the items that the seek wants of the whole sequence, in order and
with their positions. -/
theorem collect_seek (hvalid : tree.Valid) {seek : Seek I S G} (hseek : seek.Lawful) :
    (tree.seek seek).collect = seek.wanted 0 tree.items := (seek_stands hvalid hseek).collect

theorem next_seek (hvalid : tree.Valid) {seek : Seek I S G} (hseek : seek.Lawful) :
    (tree.seek seek).next.1 = (seek.wanted 0 tree.items).head? :=
  (seek_stands hvalid hseek).next.1

end Laws

end KRust.Term.Chunks
