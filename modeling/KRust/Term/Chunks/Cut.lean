import Mathlib.Data.List.SplitLengths
import KRust.Term.Chunks.Node

/-!
Cutting the contents of an overflowing node: into two even halves (`pack`) or
into several parts strictly between the fill bounds (`cut`). The group summary
of one part, the heavier or the heaviest, is the rest of the whole one's.
-/

set_option linter.unusedSectionVars false

namespace KRust.Term.Chunks

open KRust.Lib KRust.Lib.Partial

/-- `x.clamp(low, high)`, which asserts that the bounds are in order. -/
def clamp (x low high : Nat) : Option Nat :=
  if low ≤ high then some (max low (min x high)) else none

/-- `even_cut`: the number of parts, the size of the shorter ones, and how many
are one longer. -/
def evenCut (n b least target : Nat) : Option (Nat × Nat × Nat) := do
  let parts ←
    if n ≤ b then some (min n 1)
    else
      let nearest := n / target + (n % target + target / 2) / target
      clamp nearest ((n + (b - 1) - 1) / (b - 1)) (n / (least + 1))
  return (parts, n / parts, n % parts)

/-- `even_parts`: the sizes of the parts. -/
def evenParts (n b least target : Nat) : Option (List Nat) := do
  let (parts, base, longer) ← evenCut n b least target
  return (List.range parts).map fun part => base + if part < longer then 1 else 0

/-- `even_part_runs`: the same sizes as runs of equal parts. -/
def evenPartRuns (n b least target : Nat) : Option (List (Nat × Nat)) := do
  let (parts, base, longer) ← evenCut n b least target
  return [(base + 1, longer), (base, parts - longer)]

/-- One level of a bulk load: a node from each of the even parts of `contents`. -/
def evenLevel {T N : Type} (B : Branching) (build : List T → Option N) (contents : List T) :
    Option (List N) := do
  let sizes ← evenParts contents.length B.factor B.minFill B.fillTarget
  (sizes.splitLengths contents).mapM build

/-- `max_by_key`: the last element of greatest key. -/
def maxByKey (key : Nat → Nat) : List Nat → Option Nat
  | [] => none
  | x :: xs => some (xs.foldl (fun best y => if key best ≤ key y then y else best) x)

section Definitions

variable {I K S G T : Type} [Item I K S G] [LinearOrder K] [Summary S] [Group G]

/-- The group summaries of two adjacent parts of contents summarized by `whole`. -/
def divide (whole : G) (left right : List G) : Option (G × G) :=
  if (left.map Group.weight).sum ≤ (right.map Group.weight).sum then do
    let left ← foldGroups left
    let right ← Group.subtract whole left
    return (left, right)
  else do
    let right ← foldGroups right
    let left ← Group.subtract whole right
    return (left, right)

def pack (B : Branching) (contents : List T) (group : G) (groupOf : T → G)
    (build : List T → G → Option (Node I S G)) : Option (Replacement I S G) :=
  if contents.length ≤ 2 * B.factor then
    if contents.length ≤ B.factor then do
      return (← build contents group, none)
    else do
      let middle := (contents.length + 1) / 2
      let left := contents.take middle
      let right := contents.drop middle
      let (leftGroup, rightGroup) ← divide group (left.map groupOf) (right.map groupOf)
      return (← build left leftGroup, some (← build right rightGroup))
  else none

/-- The groups of the parts in order, but for the part `heaviest`, and what is
left of `rest` without them. -/
def foldParts (heaviest : Nat) : Nat → List (List G) → G → Option (List (Option G) × G)
  | _, [], rest => some ([], rest)
  | part, groups :: more, rest =>
    if part = heaviest then do
      let (folded, rest) ← foldParts heaviest (part + 1) more rest
      return (none :: folded, rest)
    else do
      let group ← foldGroups groups
      let rest ← Group.subtract rest group
      let (folded, rest) ← foldParts heaviest (part + 1) more rest
      return (some group :: folded, rest)

def cut (B : Branching) (contents : List T) (group : G) (groupOf : T → G)
    (build : List T → G → Option (Node I S G)) : Option (List (Node I S G)) :=
  if contents.length ≤ B.factor then do
    return [← build contents group]
  else do
    let sizes ← evenParts contents.length B.factor B.minFill B.fillTarget
    let parts := sizes.splitLengths contents
    let groups := parts.map (·.map groupOf)
    let heaviest ← maxByKey
      (fun part => ((groups.getD part []).map Group.weight).sum) (List.range groups.length)
    let (folded, rest) ← foldParts heaviest 0 groups group
    (parts.zip (folded.map (·.getD rest))).mapM fun (part, group) => build part group

end Definitions

/-! The arithmetic of even parts. -/

theorem sum_parts (parts base longer : Nat) (h : longer ≤ parts) :
    ((List.range parts).map fun part => base + if part < longer then 1 else 0).sum =
      parts * base + longer := by
  have hgen : ∀ n, ((List.range n).map fun part => base + if part < longer then 1 else 0).sum =
      n * base + min n longer := by
    intro n
    induction n with
    | zero => simp
    | succ n ih =>
      rw [List.range_succ, List.map_append, List.sum_append, ih, Nat.add_mul, one_mul]
      simp only [List.map_cons, List.map_nil, List.sum_cons, List.sum_nil, add_zero]
      split <;> omega
  rw [hgen parts, min_eq_right h]

/-- Between the bounds on the number of parts there is always a number when the
contents overflow a node. -/
theorem even_bounds (B : Branching) (n : Nat) (hn : B.factor < n) :
    (n + (B.factor - 1) - 1) / (B.factor - 1) ≤ n / (B.minFill + 1) := by
  have htwo := B.two_le_minFill
  have hlt := B.two_mul_minFill_lt
  have hle := B.factor_le
  generalize hhigh : n / (B.minFill + 1) = high
  have hhigh2 : 2 ≤ high := by
    rw [← hhigh, Nat.le_div_iff_mul_le (by omega)]
    omega
  have hn' : n < (high + 1) * (B.minFill + 1) := by
    rw [← hhigh]
    exact (Nat.div_lt_iff_lt_mul (by omega)).mp (by omega)
  have hcover : n ≤ high * (B.factor - 1) := by
    have h1 : high * (2 * B.minFill) ≤ high * (B.factor - 1) :=
      Nat.mul_le_mul_left _ (by omega)
    nlinarith
  rw [Nat.div_le_iff_le_mul_add_pred (by omega)]
  rw [mul_comm]
  omega

theorem clamp_of_le (x low high : Nat) (h : low ≤ high) :
    ∃ y, clamp x low high = some y ∧ low ≤ y ∧ y ≤ high := by
  refine ⟨max low (min x high), if_pos h, le_max_left _ _, ?_⟩
  exact max_le h (min_le_right _ _)

/-- The cut of more than `B` things: the longer parts stay below the upper fill
bound and the shorter ones above the lower. -/
theorem evenCut_overflow (B : Branching) (n : Nat) (hn : B.factor < n) :
    ∃ parts, evenCut n B.factor B.minFill B.fillTarget = some (parts, n / parts, n % parts) ∧
      1 < parts ∧ parts * (B.minFill + 1) ≤ n ∧ B.minFill < n / parts ∧
      n / parts < B.factor ∧ (0 < n % parts → n / parts + 1 < B.factor) := by
  obtain ⟨parts, hparts, hlow, hhigh⟩ := clamp_of_le
    (n / B.fillTarget + (n % B.fillTarget + B.fillTarget / 2) / B.fillTarget) _ _
    (even_bounds B n hn)
  have hfive := B.five_le
  have hcover : n ≤ parts * (B.factor - 1) := by
    rw [Nat.div_le_iff_le_mul_add_pred (by omega)] at hlow
    rw [mul_comm]
    omega
  have hroom : parts * (B.minFill + 1) ≤ n := (Nat.le_div_iff_mul_le (by omega)).mp hhigh
  have hparts1 : 1 < parts := by
    by_contra hle
    have : parts * (B.factor - 1) ≤ 1 * (B.factor - 1) := Nat.mul_le_mul_right _ (by omega)
    omega
  have hsplit := Nat.div_add_mod n parts
  have hbase : B.minFill + 1 ≤ n / parts := by
    rw [Nat.le_div_iff_mul_le (by omega), mul_comm]
    exact hroom
  have hle : n / parts ≤ B.factor - 1 := by
    apply Nat.le_of_mul_le_mul_left (c := parts) _ (by omega)
    omega
  refine ⟨parts, ?_, hparts1, hroom, by omega, by omega, ?_⟩
  · unfold evenCut
    rw [if_neg (by omega)]
    simp only [hparts]
    rfl
  · intro hlonger
    have hlt : n / parts < B.factor - 1 := by
      apply Nat.lt_of_mul_lt_mul_left (a := parts)
      omega
    omega

/-- The sizes of the parts of more than `B` things. -/
theorem evenParts_overflow (B : Branching) (n : Nat) (hn : B.factor < n) :
    ∃ sizes, evenParts n B.factor B.minFill B.fillTarget = some sizes ∧ sizes.sum = n ∧
      sizes.length * 3 ≤ n ∧ 1 < sizes.length ∧
      ∀ size ∈ sizes, B.minFill < size ∧ size < B.factor := by
  obtain ⟨parts, hcut, hparts, hroom, hbase, hle, hlonger⟩ := evenCut_overflow B n hn
  have htwo := B.two_le_minFill
  refine ⟨(List.range parts).map fun part => n / parts + if part < n % parts then 1 else 0,
    ?_, ?_, ?_, ?_, ?_⟩
  · unfold evenParts
    rw [hcut]
    rfl
  · rw [sum_parts parts _ _ (Nat.mod_lt n (by omega)).le]
    exact Nat.div_add_mod n parts
  · simp only [List.length_map, List.length_range]
    calc
      parts * 3 ≤ parts * (B.minFill + 1) := Nat.mul_le_mul_left _ (by omega)
      _ ≤ n := hroom
  · simpa using hparts
  · intro size hsize
    obtain ⟨part, hpart, rfl⟩ := List.mem_map.mp hsize
    split
    · have := hlonger (by omega)
      omega
    · omega

theorem evenParts_one (B : Branching) (n : Nat) (hpos : 0 < n) (hn : n ≤ B.factor) :
    evenParts n B.factor B.minFill B.fillTarget = some [n] := by
  have hone : min n 1 = 1 := by omega
  simp [evenParts, evenCut, hn, hone, Nat.mod_one, List.range_succ]

theorem evenParts_zero (B : Branching) :
    evenParts 0 B.factor B.minFill B.fillTarget = some [] := by
  simp [evenParts, evenCut]

theorem mapM_length {α β : Type} {f : α → Option β} {xs : List α} {ys : List β}
    (h : xs.mapM f = some ys) : ys.length = xs.length := by
  have hrel : ∀ x ∈ xs, Yields False (f x) (fun _ => True) := by
    intro x _
    cases f x <;> simp
  exact ((yields_mapM (fun _ _ => True) hrel).of_eq_some h).length_eq.symm

/-- A level has fewer nodes than the one below, when that has several. -/
theorem evenLevel_length {T N : Type} {B : Branching} {build : List T → Option N}
    {contents : List T} {nodes : List N} (h : evenLevel B build contents = some nodes)
    (hseveral : 1 < contents.length) : nodes.length < contents.length := by
  unfold evenLevel at h
  by_cases hfew : contents.length ≤ B.factor
  · rw [evenParts_one B _ (by omega) hfew] at h
    have := mapM_length h
    rw [List.length_splitLengths] at this
    simpa [this] using hseveral
  · obtain ⟨sizes, hsizes, _, hlen, _⟩ := evenParts_overflow B contents.length (by omega)
    rw [hsizes] at h
    have := mapM_length h
    rw [List.length_splitLengths] at this
    omega

theorem cut_length {I K S G T : Type} [Item I K S G] [LinearOrder K] [Summary S] [Group G]
    {B : Branching} {contents : List T} {group : G} {groupOf : T → G}
    {build : List T → G → Option (Node I S G)} {nodes : List (Node I S G)}
    (h : cut B contents group groupOf build = some nodes) (hseveral : 1 < contents.length) :
    nodes.length < contents.length := by
  unfold cut at h
  split at h
  · obtain ⟨node, _, hnode⟩ := Option.bind_eq_some_iff.mp h
    obtain rfl := Option.some.inj hnode
    simpa using hseveral
  · obtain ⟨sizes, hsizes, _, hlen, _⟩ := evenParts_overflow B contents.length (by omega)
    simp only [hsizes, Option.bind_eq_bind, Option.bind_some] at h
    obtain ⟨heaviest, _, h⟩ := Option.bind_eq_some_iff.mp h
    obtain ⟨⟨folded, rest⟩, _, h⟩ := Option.bind_eq_some_iff.mp h
    have hzip := mapM_length h
    rw [List.length_zip, List.length_splitLengths] at hzip
    omega

theorem maxByKey_mem (key : Nat → Nat) (xs : List Nat) (hne : xs ≠ []) :
    ∃ x ∈ xs, maxByKey key xs = some x := by
  cases xs with
  | nil => exact absurd rfl hne
  | cons x xs =>
    refine ⟨_, ?_, rfl⟩
    induction xs generalizing x with
    | nil => simp
    | cons y xs ih =>
      rw [List.foldl_cons]
      split
      · exact List.mem_cons_of_mem _ (ih y (by simp))
      · have := ih x (by simp)
        simp only [List.mem_cons] at this ⊢
        tauto

/-! Packing and cutting keep the items and give nodes within the bounds. -/

section Laws

variable {I K S G M A T : Type} [Item I K S G] [LinearOrder K] [Summary S] [Group G]
  [AddMonoid M] [AddCancelCommMonoid A] [LawfulSummary S M] [LawfulGroup G A]

def groupsValue (groups : List G) : A := (groups.map LawfulSummary.value).sum

theorem foldGroups_total (groups : List G)
    (hrep : LawfulSummary.Representable G (groupsValue groups : A)) :
    ∃ group, foldGroups groups = some group ∧
      LawfulSummary.value group = (groupsValue groups : A) :=
  (foldGroups_yields groups).total hrep

theorem subtract_total (whole part : G) (rest : A)
    (h : LawfulSummary.value whole = LawfulSummary.value part + rest) :
    ∃ result, Group.subtract whole part = some result ∧ LawfulSummary.value result = rest :=
  (LawfulGroup.subtract_yields whole part rest h).total trivial

/-- A part of what a summary holds can be held too. -/
theorem representable_part (whole : G) (left part right : A)
    (h : LawfulSummary.value whole = left + part + right) :
    LawfulSummary.Representable G part := by
  have hdrop := LawfulSummary.representable_drop (S := G) (part : A) (left + right) 0
  rw [add_zero, add_zero] at hdrop
  apply hdrop
  have hwhole := LawfulSummary.representable_value whole
  rw [h] at hwhole
  rwa [← add_assoc, add_comm part left]

theorem divide_total (whole : G) (left right : List G)
    (h : LawfulSummary.value whole = (groupsValue left + groupsValue right : A)) :
    ∃ result, divide whole left right = some result ∧
      LawfulSummary.value result.1 = (groupsValue left : A) ∧
      LawfulSummary.value result.2 = (groupsValue right : A) := by
  unfold divide
  split
  · obtain ⟨l, hl, hvalue⟩ := foldGroups_total left
      (representable_part whole 0 (groupsValue left) (groupsValue right) (by rw [h, zero_add]))
    obtain ⟨r, hr, hrest⟩ := subtract_total whole l (groupsValue right) (by rw [h, hvalue])
    exact ⟨(l, r), by simp [hl, hr], hvalue, hrest⟩
  · obtain ⟨r, hr, hvalue⟩ := foldGroups_total right
      (representable_part whole (groupsValue left) (groupsValue right) 0 (by rw [h, add_zero]))
    obtain ⟨l, hl, hrest⟩ := subtract_total whole r (groupsValue left)
      (by rw [h, hvalue, add_comm])
    exact ⟨(l, r), by simp [hl, hr], hrest, hvalue⟩

/-- After the heaviest part, what is left is that part's summary. -/
theorem foldParts_after (heaviest part : Nat) (groups : List (List G)) (rest : G) (kept : A)
    (hpart : heaviest < part)
    (hrest : LawfulSummary.value rest = kept + (groups.map groupsValue).sum) :
    ∃ result, foldParts heaviest part groups rest = some result ∧
      LawfulSummary.value result.2 = kept ∧
      List.Forall₂ (fun groups folded =>
        LawfulSummary.value (folded.getD result.2) = (groupsValue groups : A))
          groups result.1 := by
  induction groups generalizing part rest with
  | nil => exact ⟨([], rest), rfl, by simpa using hrest, .nil⟩
  | cons groups more ih =>
    rw [List.map_cons, List.sum_cons] at hrest
    obtain ⟨group, hgroup, hvalue⟩ := foldGroups_total groups
      (representable_part rest kept (groupsValue groups) (more.map groupsValue).sum
        (by rw [hrest, add_assoc]))
    obtain ⟨left, hleft, hleftValue⟩ := subtract_total rest group
      (kept + (more.map groupsValue).sum) (by rw [hrest, hvalue, add_left_comm])
    obtain ⟨result, hresult, hkept, hforall⟩ := ih (part + 1) left (by omega) hleftValue
    refine ⟨(some group :: result.1, result.2), ?_, hkept, .cons hvalue hforall⟩
    simp [foldParts, Nat.ne_of_gt hpart, hgroup, hleft, hresult]

/-- Every part gets its summary, the heaviest one what is left. -/
theorem foldParts_total (heaviest part : Nat) (groups : List (List G)) (rest : G)
    (hpart : part ≤ heaviest) (hlast : heaviest < part + groups.length)
    (hrest : LawfulSummary.value rest = ((groups.map groupsValue).sum : A)) :
    ∃ result, foldParts heaviest part groups rest = some result ∧
      List.Forall₂ (fun groups folded =>
        LawfulSummary.value (folded.getD result.2) = (groupsValue groups : A))
          groups result.1 := by
  induction groups generalizing part rest with
  | nil =>
    simp only [List.length_nil] at hlast
    omega
  | cons groups more ih =>
    rw [List.map_cons, List.sum_cons] at hrest
    rw [List.length_cons] at hlast
    by_cases hhere : part = heaviest
    · obtain ⟨result, hresult, hkept, hforall⟩ :=
        foldParts_after heaviest (part + 1) more rest (groupsValue groups) (by omega) hrest
      refine ⟨(none :: result.1, result.2), ?_, .cons hkept hforall⟩
      simp [foldParts, hhere, hhere ▸ hresult]
    · obtain ⟨group, hgroup, hvalue⟩ := foldGroups_total groups
        (representable_part rest 0 (groupsValue groups) (more.map groupsValue).sum
          (by rw [hrest, zero_add]))
      obtain ⟨left, hleft, hleftValue⟩ := subtract_total rest group
        (more.map groupsValue).sum (by rw [hrest, hvalue])
      obtain ⟨result, hresult, hforall⟩ := ih (part + 1) left (by omega) (by omega) hleftValue
      refine ⟨(some group :: result.1, result.2), ?_, .cons hvalue hforall⟩
      simp [foldParts, hhere, hgroup, hleft, hresult]

/-- What a node of height `h` is built from: items of a leaf, or children. `run`
gives the items of a part. -/
structure Builds (B : Branching) (h : Nat) (ok : T → Prop) (run : T → List I)
    (groupOf : T → G) (build : List T → G → Option (Node I S G)) : Prop where
  group : ∀ t, ok t → LawfulSummary.value (groupOf t) = (groupValue (run t) : A)
  build : ∀ part group, part ≠ [] → part.length ≤ B.factor → (∀ t ∈ part, ok t) →
    LawfulSummary.value group = (groupValue (part.flatMap run) : A) →
    Yields (Fits (part.flatMap run)) (build part group)
      (fun node => node.Shaped B h ∧ node.width = part.length ∧ node.items = part.flatMap run)

theorem builds_items (B : Branching) :
    Builds B 0 (fun _ : I => True) (fun item => [item]) Item.group Node.leafWith where
  group item _ := by simp
  build part group _ hlen _ hgroup := by
    have hrun : (part.flatMap fun item => [item]) = part := by simp
    rw [hrun] at hgroup ⊢
    exact Node.leafWith_yields part group hlen hgroup

/-- The group summary of a child. -/
def childGroup (child : Node I S G) : G := child.summary.group

theorem builds_children (B : Branching) (h : Nat) :
    Builds B (h + 1) (Node.Full B h (I := I)) Node.items childGroup
      (Node.internalWith (h + 1)) where
  group _ hchild := hchild.shaped.group_eq
  build part group hne hlen hpart hgroup :=
    Node.internalWith_yields part group hlen hne hpart hgroup

variable {B : Branching} {h : Nat} {ok : T → Prop} {run : T → List I} {groupOf : T → G}
  {build : List T → G → Option (Node I S G)}

theorem Builds.groupsValue_map (hb : Builds B h ok run groupOf build) (part : List T)
    (hpart : ∀ t ∈ part, ok t) :
    groupsValue (part.map groupOf) = (groupValue (part.flatMap run) : A) := by
  induction part with
  | nil => rfl
  | cons t rest ih =>
    have hrest := ih fun t' ht' => hpart t' (by simp [ht'])
    simp only [groupsValue, List.map_cons, List.sum_cons] at hrest ⊢
    rw [hrest, hb.group t (hpart t (by simp)), List.flatMap_cons, groupValue_append]

/-- A replacement holds `items` in nodes of height `h`: one node at least `least`
wide, or two within the fill bounds. -/
structure Replaces (B : Branching) (h least : Nat) (replacement : Replacement I S G)
    (items : List I) : Prop where
  shaped : ∀ node ∈ replacement.nodes, node.Shaped B h
  single : replacement.2 = none → least ≤ replacement.1.width
  pair : replacement.2 ≠ none → ∀ node ∈ replacement.nodes, B.minFill ≤ node.width
  items : replacement.nodes.flatMap Node.items = items

/-- Wide enough, a replacement lies below another node. -/
theorem Replaces.full {least : Nat} {replacement : Replacement I S G} {items : List I}
    (hr : Replaces B h least replacement items) (hleast : B.minFill ≤ least) :
    ∀ node ∈ replacement.nodes, Node.Full B h node := by
  intro node hnode
  refine ⟨hr.shaped node hnode, ?_⟩
  obtain ⟨one, two⟩ := replacement
  cases two with
  | none =>
    obtain rfl : node = one := by simpa [Replacement.nodes] using hnode
    exact hleast.trans (hr.single rfl)
  | some two => exact hr.pair (by simp) node hnode

theorem Replaces.length_le {least : Nat} {replacement : Replacement I S G} {items : List I}
    (_ : Replaces B h least replacement items) : replacement.nodes.length ≤ 2 := by
  obtain ⟨one, two⟩ := replacement
  cases two <;> simp [Replacement.nodes]

theorem pack_yields (hb : Builds B h ok run groupOf build) (contents : List T) (group : G)
    (hne : contents ≠ []) (hlen : contents.length ≤ 2 * B.factor)
    (hok : ∀ t ∈ contents, ok t)
    (hgroup : LawfulSummary.value group = (groupValue (contents.flatMap run) : A)) :
    Yields (Fits (contents.flatMap run)) (pack B contents group groupOf build)
      (fun replacement =>
        Replaces B h contents.length replacement (contents.flatMap run)) := by
  unfold pack
  rw [if_pos hlen]
  split
  · next hfew =>
    refine (hb.build contents group hne hfew hok hgroup).bind fun node hnode => ?_
    obtain ⟨hshaped, hwidth, hitems⟩ := hnode
    exact {
      shaped := by simpa [Replacement.nodes] using hshaped
      single := fun _ => hwidth.ge
      pair := by simp
      items := by simpa [Replacement.nodes] using hitems }
  · next hmany =>
    dsimp only
    have hhalf := B.factor_le
    have hfive := B.five_le
    have hmin : B.minFill = (B.factor - 1) / 2 := rfl
    have hsplit : contents = contents.take ((contents.length + 1) / 2) ++
        contents.drop ((contents.length + 1) / 2) := (List.take_append_drop _ _).symm
    have hleftLen : (contents.take ((contents.length + 1) / 2)).length =
        (contents.length + 1) / 2 := by
      rw [List.length_take]
      omega
    have hrightLen : (contents.drop ((contents.length + 1) / 2)).length =
        contents.length - (contents.length + 1) / 2 := List.length_drop
    generalize contents.take ((contents.length + 1) / 2) = left at *
    generalize contents.drop ((contents.length + 1) / 2) = right at *
    have hokLeft : ∀ t ∈ left, ok t := fun t ht => hok t (by rw [hsplit]; simp [ht])
    have hokRight : ∀ t ∈ right, ok t := fun t ht => hok t (by rw [hsplit]; simp [ht])
    have hflat : contents.flatMap run = left.flatMap run ++ right.flatMap run := by
      rw [hsplit, List.flatMap_append]
    obtain ⟨⟨leftGroup, rightGroup⟩, hdivide, hleftGroup, hrightGroup⟩ :=
      divide_total group (left.map groupOf) (right.map groupOf) (by
        rw [hgroup, hflat, groupValue_append, hb.groupsValue_map left hokLeft,
          hb.groupsValue_map right hokRight])
    rw [hb.groupsValue_map left hokLeft] at hleftGroup
    rw [hb.groupsValue_map right hokRight] at hrightGroup
    have hleftNe : left ≠ [] := by
      intro hnil
      rw [hnil, List.length_nil] at hleftLen
      omega
    have hrightNe : right ≠ [] := by
      intro hnil
      rw [hnil, List.length_nil] at hrightLen
      omega
    simp only [hdivide, Option.bind_eq_bind, Option.bind_some]
    refine ((hb.build left leftGroup hleftNe (by omega) hokLeft hleftGroup).mono
      (fun hfits => ?_) fun _ hn => hn).bind fun one hone => ?_
    · rw [hflat] at hfits
      exact hfits.left
    refine ((hb.build right rightGroup hrightNe (by omega) hokRight hrightGroup).mono
      (fun hfits => ?_) fun _ hn => hn).bind fun two htwo => ?_
    · rw [hflat] at hfits
      exact hfits.right
    obtain ⟨honeShaped, honeWidth, honeItems⟩ := hone
    obtain ⟨htwoShaped, htwoWidth, htwoItems⟩ := htwo
    exact {
      shaped := by simp [Replacement.nodes, honeShaped, htwoShaped]
      single := by simp
      pair := by
        intro _ node hnode
        simp only [Replacement.nodes, Option.toList_some, List.mem_cons, List.not_mem_nil,
          or_false] at hnode
        rcases hnode with rfl | rfl
        · omega
        · omega
      items := by simp [Replacement.nodes, honeItems, htwoItems, hflat] }

/-- The parts a list is cut into, of sizes that cover it exactly. -/
theorem splitLengths_parts {α : Type} (sizes : List Nat) (xs : List α) (hsum : sizes.sum = xs.length) :
    (sizes.splitLengths xs).flatten = xs ∧
      ∀ part ∈ sizes.splitLengths xs, part.length ∈ sizes ∧ ∀ x ∈ part, x ∈ xs := by
  have hflat := List.flatten_splitLengths xs sizes hsum.ge
  refine ⟨hflat, fun part hpart => ⟨?_, fun x hx => ?_⟩⟩
  · rw [← List.map_splitLengths_length xs sizes hsum.le]
    exact List.mem_map_of_mem hpart
  · rw [← hflat]
    exact List.mem_flatten_of_mem hpart hx

theorem forall₂_mem_right {α β : Type} {rel : α → β → Prop} {xs : List α} {ys : List β}
    (h : List.Forall₂ rel xs ys) : ∀ y ∈ ys, ∃ x ∈ xs, rel x y := by
  induction h with
  | nil => simp
  | cons hxy _ ih =>
    intro y hy
    rcases List.mem_cons.mp hy with rfl | hy
    · exact ⟨_, by simp, hxy⟩
    · obtain ⟨x, hx, hrel⟩ := ih y hy
      exact ⟨x, by simp [hx], hrel⟩

/-- Building a node from each part, given the parts' group summaries. -/
theorem build_parts_yields (hb : Builds B h ok run groupOf build) (parts : List (List T))
    (groups : List G)
    (hparts : ∀ part ∈ parts, part ≠ [] ∧ part.length ≤ B.factor ∧ ∀ t ∈ part, ok t)
    (hgroups : List.Forall₂ (fun part group =>
      LawfulSummary.value group = (groupsValue (part.map groupOf) : A)) parts groups) :
    Yields (Fits (parts.flatten.flatMap run))
      ((parts.zip groups).mapM fun (part, group) => build part group)
      (fun nodes =>
        List.Forall₂ (fun part node => node.Shaped B h ∧ node.width = part.length) parts nodes ∧
        nodes.flatMap Node.items = parts.flatten.flatMap run) := by
  induction hgroups with
  | nil => simp
  | @cons part group parts groups hgroup _ ih =>
    obtain ⟨hne, hlen, hok⟩ := hparts part (by simp)
    rw [hb.groupsValue_map part hok] at hgroup
    rw [List.zip_cons_cons, List.mapM_cons, List.flatten_cons, List.flatMap_append]
    refine ((hb.build part group hne hlen hok hgroup).mono Fits.left fun _ hn => hn).bind
      fun node hnode => ?_
    refine ((ih fun p hp => hparts p (by simp [hp])).mono Fits.right fun _ hn => hn).bind
      fun nodes hnodes => ?_
    exact ⟨.cons ⟨hnode.1, hnode.2.1⟩ hnodes.1, by
      rw [List.flatMap_cons, hnode.2.2, hnodes.2]⟩

/-- Contents that fit in one node stay one node; others become several nodes,
all within the fill bounds. -/
theorem cut_yields (hb : Builds B h ok run groupOf build) (contents : List T) (group : G)
    (hne : contents ≠ []) (hok : ∀ t ∈ contents, ok t)
    (hgroup : LawfulSummary.value group = (groupValue (contents.flatMap run) : A)) :
    Yields (Fits (contents.flatMap run)) (cut B contents group groupOf build)
      (fun nodes =>
        (∀ node ∈ nodes, node.Shaped B h ∧
          (contents.length ≤ B.factor → node.width = contents.length) ∧
          (B.factor < contents.length → B.minFill ≤ node.width)) ∧
        nodes ≠ [] ∧ (contents.length ≤ B.factor → nodes.length = 1) ∧
        nodes.flatMap Node.items = contents.flatMap run) := by
  unfold cut
  split
  · next hfew =>
    refine (hb.build contents group hne hfew hok hgroup).bind fun node hnode => ?_
    obtain ⟨hshaped, hwidth, hitems⟩ := hnode
    refine ⟨?_, by simp, by simp, by simpa using hitems⟩
    intro node' hnode'
    obtain rfl : node' = node := by simpa using hnode'
    exact ⟨hshaped, fun _ => hwidth, fun hmany => absurd hmany (by omega)⟩
  · next hmany =>
    obtain ⟨sizes, hsizes, hsum, _, hseveral, hbounds⟩ :=
      evenParts_overflow B contents.length (by omega)
    obtain ⟨hflat, hparts⟩ := splitLengths_parts sizes contents hsum
    have hcount : (sizes.splitLengths contents).length = sizes.length :=
      List.length_splitLengths contents sizes
    simp only [hsizes, Option.bind_eq_bind, Option.bind_some]
    generalize sizes.splitLengths contents = parts at *
    obtain ⟨heaviest, hmem, hheaviest⟩ := maxByKey_mem
      (fun part => (((parts.map (·.map groupOf)).getD part []).map Group.weight).sum)
      (List.range (parts.map (·.map groupOf)).length) (by
        rw [Ne, List.range_eq_nil, List.length_map]
        omega)
    rw [List.mem_range] at hmem
    have htotal : LawfulSummary.value group =
        (((parts.map (·.map groupOf)).map groupsValue).sum : A) := by
      rw [hgroup, ← hflat, List.map_map]
      have hok' : ∀ part ∈ parts, ∀ t ∈ part, ok t :=
        fun part hpart t ht => hok t ((hparts part hpart).2 t ht)
      clear hmem hheaviest hcount hparts hflat
      induction parts with
      | nil => rfl
      | cons part rest ih =>
        rw [List.flatten_cons, List.flatMap_append, groupValue_append,
          ih fun p hp => hok' p (by simp [hp]), List.map_cons, List.sum_cons]
        simp [hb.groupsValue_map part (hok' part (by simp))]
    obtain ⟨⟨folded, rest⟩, hfolded, hforall⟩ :=
      foldParts_total heaviest 0 _ group (by omega) (by omega) htotal
    simp only [hheaviest, hfolded, Option.bind_some]
    have hbuild := build_parts_yields hb parts (folded.map (·.getD rest))
      (fun part hpart => by
        obtain ⟨hsize, hmem⟩ := hparts part hpart
        obtain ⟨hlow, hhigh⟩ := hbounds _ hsize
        exact ⟨by intro hnil; simp [hnil] at hlow, by omega, fun t ht => hok t (hmem t ht)⟩)
      (by
        rw [List.forall₂_map_right_iff]
        rw [List.forall₂_map_left_iff] at hforall
        exact hforall)
    rw [hflat] at hbuild
    refine hbuild.imp fun nodes hnodes => ?_
    obtain ⟨hbuilt, hitems⟩ := hnodes
    have hlength : nodes.length = parts.length := hbuilt.length_eq.symm
    refine ⟨fun node hnode => ?_, ?_, fun hfew => absurd hfew (by omega), hitems⟩
    · obtain ⟨part, hpart, hshaped, hwidth⟩ := forall₂_mem_right hbuilt node hnode
      obtain ⟨hlow, _⟩ := hbounds _ (hparts part hpart).1
      exact ⟨hshaped, fun hfew => absurd hfew (by omega), fun _ => by omega⟩
    · intro hnil
      rw [hnil, List.length_nil] at hlength
      omega

/-- A level of a bulk load keeps the items in nodes within the fill bounds. -/
theorem evenLevel_yields (ok : T → Prop) (run : T → List I)
    (build : List T → Option (Node I S G)) (contents : List T) (hne : contents ≠ [])
    (hok : ∀ t ∈ contents, ok t)
    (hbuild : ∀ part, part ≠ [] → part.length ≤ B.factor → (∀ t ∈ part, ok t) →
      Yields (Fits (part.flatMap run)) (build part)
        (fun node => node.Shaped B h ∧ node.width = part.length ∧
          node.items = part.flatMap run)) :
    Yields (Fits (contents.flatMap run)) (evenLevel B build contents)
      (fun nodes =>
        (∀ node ∈ nodes, node.Shaped B h ∧
          (contents.length ≤ B.factor → node.width = contents.length) ∧
          (B.factor < contents.length → B.minFill ≤ node.width)) ∧
        nodes ≠ [] ∧ (contents.length ≤ B.factor → nodes.length = 1) ∧
        nodes.flatMap Node.items = contents.flatMap run) := by
  have hpos : 0 < contents.length := List.length_pos_iff.mpr hne
  unfold evenLevel
  by_cases hfew : contents.length ≤ B.factor
  · rw [evenParts_one B _ hpos hfew]
    simp only [Option.bind_eq_bind, Option.bind_some, List.splitLengths, List.splitAt_eq,
      List.take_length, List.mapM_cons, List.mapM_nil]
    refine (hbuild contents hne hfew hok).bind fun node hnode => ?_
    obtain ⟨hshaped, hwidth, hitems⟩ := hnode
    refine ⟨?_, by simp, by simp, by simpa using hitems⟩
    intro node' hnode'
    obtain rfl : node' = node := by simpa using hnode'
    exact ⟨hshaped, fun _ => hwidth, fun hmany => absurd hmany (by omega)⟩
  · obtain ⟨sizes, hsizes, hsum, _, hseveral, hbounds⟩ :=
      evenParts_overflow B contents.length (by omega)
    obtain ⟨hflat, hparts⟩ := splitLengths_parts sizes contents hsum
    have hcount : (sizes.splitLengths contents).length = sizes.length :=
      List.length_splitLengths contents sizes
    simp only [hsizes, Option.bind_eq_bind, Option.bind_some]
    generalize sizes.splitLengths contents = parts at *
    have hmap : Yields (Fits (contents.flatMap run)) (parts.mapM build)
        (List.Forall₂ (fun part node => node.Shaped B h ∧ node.width = part.length ∧
          node.items = part.flatMap run) parts) := by
      refine yields_mapM _ fun part hpart => ?_
      obtain ⟨hsize, hmem⟩ := hparts part hpart
      obtain ⟨hlow, hhigh⟩ := hbounds _ hsize
      refine (hbuild part (by intro hnil; simp [hnil] at hlow) (by omega)
        fun t ht => hok t (hmem t ht)).mono (fun hfits => ?_) fun _ hnode => hnode
      obtain ⟨before, after, rfl⟩ := List.append_of_mem hpart
      rw [← hflat, List.flatten_append, List.flatten_cons, List.flatMap_append,
        List.flatMap_append] at hfits
      exact hfits.right.left
    refine hmap.imp fun nodes hnodes => ?_
    have hlength : nodes.length = parts.length := hnodes.length_eq.symm
    refine ⟨fun node hnode => ?_, ?_, fun hfew' => absurd hfew' hfew, ?_⟩
    · obtain ⟨part, hpart, hshaped, hwidth, _⟩ := forall₂_mem_right hnodes node hnode
      obtain ⟨hlow, _⟩ := hbounds _ (hparts part hpart).1
      exact ⟨hshaped, fun hfew' => absurd hfew' hfew, fun _ => by omega⟩
    · intro hnil
      rw [hnil, List.length_nil] at hlength
      omega
    · rw [← hflat]
      clear hflat hparts hcount hlength hmap
      induction hnodes with
      | nil => rfl
      | cons hnode _ ih =>
        rw [List.flatMap_cons, List.flatten_cons, List.flatMap_append, hnode.2.2, ih]

end Laws

end KRust.Term.Chunks
