import KRust.Term.Chunks.Root

/-!
The bulk load of copies of one item. Each level is built as runs of one node
repeated, and the tree is the one `from_vec` builds of the copies.
-/

set_option linter.unusedSectionVars false

namespace KRust.Term.Chunks

open KRust.Lib KRust.Lib.Partial

variable {I K S G : Type}

/-- The nodes of runs of repeated nodes, one by one. -/
def expand {α : Type} (runs : List (α × Nat)) : List α :=
  runs.flatMap fun run => List.replicate run.2 run.1

def copiesOf {α : Type} (runs : List (α × Nat)) : Nat := (runs.map Prod.snd).sum

@[simp] theorem expand_nil {α : Type} : expand ([] : List (α × Nat)) = [] := rfl

@[simp] theorem expand_cons {α : Type} (run : α × Nat) (runs : List (α × Nat)) :
    expand (run :: runs) = List.replicate run.2 run.1 ++ expand runs := rfl

@[simp] theorem expand_append {α : Type} (left right : List (α × Nat)) :
    expand (left ++ right) = expand left ++ expand right := by
  simp [expand]

theorem length_expand {α : Type} (runs : List (α × Nat)) :
    (expand runs).length = copiesOf runs := by
  simp [expand, copiesOf, List.length_flatMap]

section Definitions

variable [Item I K S G] [LinearOrder K] [Summary S] [Group G]

/-- The children of one part that takes `need` nodes from the runs left; the head
of `pending` is the run being consumed. -/
def straddle {α : Type} : Nat → List (α × Nat) → Option (List α × List (α × Nat))
  | need, [] => if need = 0 then some ([], []) else none
  | need, (node, left) :: rest =>
    if need = 0 then some ([], (node, left) :: rest)
    else if left ≤ need then do
      let (children, pending) ← straddle (need - left) rest
      return (List.replicate left node ++ children, pending)
    else some (List.replicate need node, (node, left - need) :: rest)

/-- The next `parts` parts of `size` nodes each, as runs, and the runs left. -/
def groupParts (height size parts : Nat) (pending : List (Node I S G × Nat)) :
    Option (List (Node I S G × Nat) × List (Node I S G × Nat)) :=
  if _hparts : parts = 0 then some ([], pending)
  else
    match pending with
    | [] => none
    | (node, left) :: rest =>
      if _hsize : size = 0 then none
      else if _hleft : size ≤ left then do
        let copies := min (left / size) parts
        let built ← Node.newInternal height (List.replicate size node)
        let rest := if left - copies * size = 0 then rest else (node, left - copies * size) :: rest
        let (level, pending) ← groupParts height size (parts - copies) rest
        return ((built, copies) :: level, pending)
      else do
        let (children, pending) ← straddle size ((node, left) :: rest)
        let built ← Node.newInternal height children
        let (level, pending) ← groupParts height size (parts - 1) pending
        return ((built, 1) :: level, pending)
termination_by parts
decreasing_by
  · have : 0 < left / size := Nat.div_pos _hleft (by omega)
    omega
  · omega

/-- The level above `runs`, cut as `from_vec` cuts it. -/
def groupRuns (B : Branching) (height : Nat) (runs : List (Node I S G × Nat)) :
    Option (List (Node I S G × Nat)) := do
  let cuts ← evenPartRuns (copiesOf runs) B.factor B.minFill B.fillTarget
  let (level, _) ← cuts.foldlM (fun (level, pending) (size, parts) => do
    let (more, pending) ← groupParts height size parts pending
    return (level ++ more, pending)) ([], runs)
  return level

end Definitions

/-! The runs stand for the nodes that `from_vec` builds one by one. -/

theorem straddle_eq {α : Type} (need : Nat) (pending : List (α × Nat))
    (hneed : need ≤ copiesOf pending) :
    ∃ rest, straddle need pending = some ((expand pending).take need, rest) ∧
      expand rest = (expand pending).drop need := by
  induction pending generalizing need with
  | nil =>
    obtain rfl : need = 0 := by simpa [copiesOf] using hneed
    exact ⟨[], rfl, rfl⟩
  | cons run pending ih =>
    obtain ⟨node, left⟩ := run
    have hcopies : copiesOf ((node, left) :: pending) = left + copiesOf pending := by
      simp [copiesOf]
    by_cases hzero : need = 0
    · exact ⟨(node, left) :: pending, by simp [straddle, hzero], by simp [hzero]⟩
    by_cases hleft : left ≤ need
    · obtain ⟨rest, hrest, hexpand⟩ := ih (need - left) (by omega)
      refine ⟨rest, ?_, ?_⟩
      · simp [straddle, hzero, hleft, hrest, List.take_append]
      · simp [hexpand, List.drop_append, hleft]
    · refine ⟨(node, left - need) :: pending, ?_, ?_⟩
      · have hmin : min need left = need := by omega
        have hover : need - left = 0 := by omega
        simp [straddle, hzero, hleft, List.take_append, hmin, hover]
      · have hover : need - left = 0 := by omega
        simp [List.drop_append, hover]

theorem splitLengths_append {α : Type} (left right : List Nat) (xs : List α) :
    (left ++ right).splitLengths xs =
      left.splitLengths xs ++ right.splitLengths (xs.drop left.sum) := by
  induction left generalizing xs with
  | nil => simp
  | cons size left ih => simp [List.splitLengths, ih]

/-- Parts within one run of copies. -/
theorem splitLengths_replicate {α : Type} (parts size left : Nat) (node : α) (rest : List α)
    (h : parts * size ≤ left) :
    (List.replicate parts size).splitLengths (List.replicate left node ++ rest) =
      List.replicate parts (List.replicate size node) := by
  induction parts generalizing left with
  | zero => simp
  | succ parts ih =>
    rw [Nat.succ_mul] at h
    have hmin : min size left = size := by omega
    have hover : size - left = 0 := by omega
    simp only [List.replicate_succ, List.splitLengths, List.splitAt_eq, List.take_append,
      List.take_replicate, List.drop_append, List.drop_replicate, List.length_replicate, hmin,
      hover, List.take_zero, List.append_nil, List.drop_zero]
    rw [ih (left - size) (by omega)]

theorem mapM_replicate {α β : Type} (f : α → Option β) (parts : Nat) (x : α)
    (hparts : 0 < parts) :
    (List.replicate parts x).mapM f = (f x).map (List.replicate parts) := by
  cases hx : f x with
  | none =>
    obtain ⟨n, rfl⟩ := Nat.exists_eq_succ_of_ne_zero (by omega : parts ≠ 0)
    simp [List.replicate_succ, List.mapM_cons, hx]
  | some y =>
    clear hparts
    induction parts with
    | zero => rfl
    | succ parts ih => simp [List.replicate_succ, List.mapM_cons, hx, ih]

section Laws

variable [Item I K S G] [LinearOrder K] [Summary S] [Group G]

/-- What a level of runs and the runs left stand for. -/
def expandBoth (result : List (Node I S G × Nat) × List (Node I S G × Nat)) :
    List (Node I S G) × List (Node I S G) :=
  (expand result.1, expand result.2)

/-- One run placed before what the rest of the level stands for. -/
theorem map_expandBoth_cons (built : Node I S G) (copies : Nat)
    (later : Option (List (Node I S G × Nat) × List (Node I S G × Nat))) :
    (later.bind fun result => some ((built, copies) :: result.1, result.2)).map expandBoth =
      (later.map expandBoth).map fun nodes =>
        (List.replicate copies built ++ nodes.1, nodes.2) := by
  cases later <;> rfl

theorem groupParts_eq (height size parts : Nat) (pending : List (Node I S G × Nat))
    (hsize : 0 < size) (hparts : parts * size ≤ copiesOf pending) :
    (groupParts height size parts pending).map expandBoth =
      (((List.replicate parts size).splitLengths (expand pending)).mapM
        (Node.newInternal height)).map
          fun nodes => (nodes, (expand pending).drop (parts * size)) := by
  induction parts using Nat.strong_induction_on generalizing pending with
  | _ parts ih =>
    rw [groupParts.eq_def]
    by_cases hzero : parts = 0
    · simp [hzero, expandBoth]
    rw [dif_neg hzero]
    cases pending with
    | nil =>
      have : 0 < parts * size := Nat.mul_pos (by omega) hsize
      simp only [copiesOf, List.map_nil, List.sum_nil] at hparts
      omega
    | cons run rest =>
      obtain ⟨node, left⟩ := run
      have hcopies : copiesOf ((node, left) :: rest) = left + copiesOf rest := by
        simp [copiesOf]
      have hne : size ≠ 0 := by omega
      simp only [hne, dite_false]
      by_cases hleft : size ≤ left
      · -- Parts within the run: one node stands for all of them.
        rw [dif_pos hleft]
        have hpos : 0 < min (left / size) parts := by
          have : 0 < left / size := Nat.div_pos hleft hsize
          omega
        have hfit : min (left / size) parts * size ≤ left :=
          le_trans (Nat.mul_le_mul_right _ (min_le_left _ _)) (Nat.div_mul_le_self left size)
        have hle : min (left / size) parts ≤ parts := min_le_right _ _
        generalize min (left / size) parts = copies at *
        have hsplit : List.replicate parts size =
            List.replicate copies size ++ List.replicate (parts - copies) size := by
          rw [List.replicate_append_replicate]
          congr 1
          omega
        have hmul : parts * size = copies * size + (parts - copies) * size := by
          rw [← Nat.add_mul]
          congr 1
          omega
        have hrest : expand (if left - copies * size = 0 then rest
            else (node, left - copies * size) :: rest) =
              (expand ((node, left) :: rest)).drop (copies * size) := by
          have hover : copies * size - left = 0 := by omega
          split
          · next hdone => simp [List.drop_append, hover, hdone]
          · simp [List.drop_append, hover]
        have hih := ih (parts - copies) (by omega)
          (if left - copies * size = 0 then rest else (node, left - copies * size) :: rest)
          (by rw [← length_expand, hrest, List.length_drop, length_expand]; omega)
        rw [hrest, List.drop_drop] at hih
        rw [hsplit, splitLengths_append, List.mapM_append, List.sum_replicate, smul_eq_mul,
          expand_cons, splitLengths_replicate copies size left node _ hfit,
          mapM_replicate _ _ _ hpos, ← expand_cons, hmul]
        cases Node.newInternal (I := I) height (List.replicate size node) with
        | none => rfl
        | some built =>
          simp only [Option.bind_eq_bind, Option.bind_some, Option.map_some, Option.pure_def]
          rw [map_expandBoth_cons, hih, Option.map_map]
          cases ((List.replicate (parts - copies) size).splitLengths
            ((expand ((node, left) :: rest)).drop (copies * size))).mapM
              (Node.newInternal height) <;> rfl
      · -- One part straddling runs.
        rw [dif_neg hleft]
        obtain ⟨more, rfl⟩ : ∃ more, parts = more + 1 := ⟨parts - 1, by omega⟩
        rw [Nat.add_mul, one_mul] at hparts
        obtain ⟨pending, hstraddle, hpending⟩ :=
          straddle_eq size ((node, left) :: rest) (by omega)
        have hih := ih more (by omega) pending
          (by rw [← length_expand, hpending, List.length_drop, length_expand]; omega)
        rw [hpending, List.drop_drop] at hih
        rw [hstraddle, List.replicate_succ, List.splitLengths, List.mapM_cons,
          Nat.add_mul, one_mul, Nat.add_comm (more * size)]
        simp only [Option.bind_eq_bind, Option.bind_some, Option.pure_def, List.splitAt_eq,
          Nat.add_sub_cancel]
        cases Node.newInternal (I := I) height
            ((expand ((node, left) :: rest)).take size) with
        | none => rfl
        | some built =>
          simp only [Option.bind_some]
          rw [map_expandBoth_cons, hih, Option.map_map]
          cases ((List.replicate more size).splitLengths
            ((expand ((node, left) :: rest)).drop size)).mapM
              (Node.newInternal height) <;> rfl

theorem groupParts_pos {height size parts : Nat} {pending level rest : List (Node I S G × Nat)}
    (h : groupParts height size parts pending = some (level, rest)) :
    ∀ run ∈ level, 0 < run.2 := by
  induction parts using Nat.strong_induction_on generalizing pending level rest with
  | _ parts ih =>
    rw [groupParts.eq_def] at h
    split at h
    · obtain ⟨rfl, rfl⟩ := Prod.mk.inj (Option.some.inj h)
      simp
    split at h
    · cases h
    · next node left more =>
      split at h
      · cases h
      split at h
      · next hleft =>
        simp only [Option.bind_eq_bind, Option.bind_eq_some_iff] at h
        obtain ⟨built, _, ⟨later, pending⟩, hlater, hresult⟩ := h
        obtain ⟨rfl, rfl⟩ := Prod.mk.inj (Option.some.inj hresult)
        have hdiv : 0 < left / size := Nat.div_pos hleft (by omega)
        have hpos : 0 < min (left / size) parts := by omega
        intro run hrun
        rcases List.mem_cons.mp hrun with rfl | hrun
        · exact hpos
        · exact ih _ (by omega) hlater run hrun
      · simp only [Option.bind_eq_bind, Option.bind_eq_some_iff] at h
        obtain ⟨⟨children, pending⟩, _, built, _, ⟨later, pending'⟩, hlater, hresult⟩ := h
        obtain ⟨rfl, rfl⟩ := Prod.mk.inj (Option.some.inj hresult)
        intro run hrun
        rcases List.mem_cons.mp hrun with rfl | hrun
        · exact Nat.one_pos
        · exact ih _ (by omega) hlater run hrun

/-- The sizes of the parts, as the two runs of equal sizes. -/
theorem evenParts_eq_runs (B : Branching) (n : Nat) (hpos : 0 < n) :
    ∃ base longer shorter, 0 < base ∧
      evenPartRuns n B.factor B.minFill B.fillTarget =
        some [(base + 1, longer), (base, shorter)] ∧
      evenParts n B.factor B.minFill B.fillTarget =
        some (List.replicate longer (base + 1) ++ List.replicate shorter base) ∧
      longer * (base + 1) + shorter * base = n := by
  obtain ⟨parts, hcut, hparts, hbase⟩ : ∃ parts,
      evenCut n B.factor B.minFill B.fillTarget = some (parts, n / parts, n % parts) ∧
        0 < parts ∧ 0 < n / parts := by
    by_cases hfew : n ≤ B.factor
    · have hone : min n 1 = 1 := by omega
      exact ⟨1, by simp [evenCut, hfew, hone], by omega, by simpa using hpos⟩
    · obtain ⟨parts, hcut, hparts, _, hbase, _⟩ := evenCut_overflow B n (by omega)
      exact ⟨parts, hcut, by omega, by omega⟩
  have hmod := Nat.mod_lt n hparts
  refine ⟨n / parts, n % parts, parts - n % parts, hbase, ?_, ?_, ?_⟩
  · simp [evenPartRuns, hcut]
  · have hsizes : ∀ longer, longer ≤ parts → ∀ base,
        ((List.range parts).map fun part => base + if part < longer then 1 else 0) =
          List.replicate longer (base + 1) ++ List.replicate (parts - longer) base := by
      intro longer hle base
      apply List.ext_getElem
      · simp
        omega
      · intro i hi hi'
        simp only [List.getElem_map, List.getElem_range, List.getElem_append,
          List.length_replicate, List.getElem_replicate]
        split <;> simp
    simp [evenParts, hcut, hsizes _ hmod.le]
  · have hdiv := Nat.div_add_mod n parts
    have hsum : n % parts * (n / parts + 1) + (parts - n % parts) * (n / parts) =
        (n % parts + (parts - n % parts)) * (n / parts) + n % parts := by ring
    rw [hsum, Nat.add_sub_cancel' hmod.le]
    exact hdiv

/-- A level of runs stands for the level `from_vec` builds. -/
theorem groupRuns_eq (B : Branching) (height : Nat) (runs : List (Node I S G × Nat))
    (hpos : 0 < copiesOf runs) :
    (groupRuns B height runs).map expand =
      evenLevel B (Node.newInternal height) (expand runs) := by
  obtain ⟨base, longer, shorter, hbase, hruns, hparts, hsum⟩ :=
    evenParts_eq_runs B (copiesOf runs) hpos
  have hfirst := groupParts_eq height (base + 1) longer runs (by omega) (by omega)
  unfold groupRuns evenLevel
  rw [length_expand, hruns, hparts]
  simp only [Option.bind_eq_bind, Option.bind_some, Option.pure_def, List.foldlM_cons,
    List.foldlM_nil, splitLengths_append, List.mapM_append, List.sum_replicate, smul_eq_mul]
  revert hfirst
  cases ((List.replicate longer (base + 1)).splitLengths (expand runs)).mapM
      (Node.newInternal height) with
  | none =>
    intro hfirst
    cases hgroup : groupParts height (base + 1) longer runs with
    | none => rfl
    | some result => simp [hgroup] at hfirst
  | some nodes =>
    intro hfirst
    cases hgroup : groupParts height (base + 1) longer runs with
    | none => simp [hgroup] at hfirst
    | some result =>
      obtain ⟨level, pending⟩ := result
      simp only [hgroup, Option.map_some, Option.some.injEq, expandBoth, Prod.mk.injEq] at hfirst
      obtain ⟨hlevel, hpending⟩ := hfirst
      have hcopies : copiesOf pending = copiesOf runs - longer * (base + 1) := by
        rw [← length_expand, hpending, List.length_drop, length_expand]
      have hsecond := groupParts_eq height base shorter pending hbase (by omega)
      rw [hpending] at hsecond
      simp only [Option.bind_some, List.nil_append]
      revert hsecond
      cases ((List.replicate shorter base).splitLengths
          ((expand runs).drop (longer * (base + 1)))).mapM (Node.newInternal height) with
      | none =>
        intro hsecond
        cases hgroup' : groupParts height base shorter pending with
        | none => rfl
        | some result => simp [hgroup'] at hsecond
      | some later =>
        intro hsecond
        cases hgroup' : groupParts height base shorter pending with
        | none => simp [hgroup'] at hsecond
        | some result =>
          simp only [hgroup', Option.map_some, Option.some.injEq, expandBoth,
            Prod.mk.injEq] at hsecond
          simp [hlevel, hsecond.1]

theorem groupRuns_pos {B : Branching} {height : Nat} {runs level : List (Node I S G × Nat)}
    (h : groupRuns B height runs = some level) : ∀ run ∈ level, 0 < run.2 := by
  unfold groupRuns at h
  simp only [Option.bind_eq_bind, Option.bind_eq_some_iff, Option.pure_def] at h
  obtain ⟨cuts, _, ⟨all, rest⟩, hfold, hlevel⟩ := h
  obtain rfl := Option.some.inj hlevel
  have hinv : Yields False
      (cuts.foldlM (fun (result : List (Node I S G × Nat) × List (Node I S G × Nat))
          (cut : Nat × Nat) =>
        (groupParts height cut.1 cut.2 result.2).bind fun more =>
          some (result.1 ++ more.1, more.2)) ([], runs))
      (fun result => ∀ run ∈ result.1, 0 < run.2) := by
    refine yields_foldlM (fun _ (result : List (Node I S G × Nat) × List (Node I S G × Nat)) =>
      ∀ run ∈ result.1, 0 < run.2) (by simp) ?_
    intro seen cut rest result _ hresult
    cases hmore : groupParts height cut.1 cut.2 result.2 with
    | none => simp
    | some more =>
      intro run hrun
      rcases List.mem_append.mp hrun with hrun | hrun
      · exact hresult run hrun
      · exact groupParts_pos hmore run hrun
  exact hinv.of_eq_some hfold

theorem groupRuns_copies {B : Branching} {height : Nat} {runs level : List (Node I S G × Nat)}
    (h : groupRuns B height runs = some level) (hseveral : 1 < copiesOf runs) :
    copiesOf level < copiesOf runs := by
  have heq := groupRuns_eq B height runs (by omega)
  rw [h, Option.map_some] at heq
  have hlen := evenLevel_length heq.symm (by rw [length_expand]; exact hseveral)
  rwa [length_expand, length_expand] at hlen

/-- The levels of `repeat` above the leaves, up to the root. -/
def repeatLevels (B : Branching) (height : Nat) (level : List (Node I S G × Nat)) :
    Option (Option (Node I S G)) :=
  if _hseveral : 1 < copiesOf level then
    match _hnext : groupRuns B (height + 1) level with
    | none => none
    | some next => repeatLevels B (height + 1) next
  else some (level.getLast?.map Prod.fst)
termination_by copiesOf level
decreasing_by exact groupRuns_copies _hnext _hseveral

/-- `repeat`: the sequence of `count` copies of `item`. -/
def repeatItem (B : Branching) (item : I) (count : Nat) : Option (Chunked I S G B) := do
  let cuts ← evenPartRuns count B.factor B.minFill B.fillTarget
  let leaves ← (cuts.filter fun (_, parts) => parts > 0).mapM fun (size, parts) => do
    return ((← Node.newLeaf (List.replicate size item)), parts)
  return ⟨← repeatLevels B 0 leaves⟩

theorem getLast?_expand (level : List (Node I S G × Nat)) (hpos : ∀ run ∈ level, 0 < run.2) :
    (expand level).getLast? = level.getLast?.map Prod.fst := by
  cases level using List.reverseRecOn with
  | nil => rfl
  | append_singleton level run =>
    have hrun := hpos run (by simp)
    have hne : run.2 ≠ 0 := by omega
    simp [List.getLast?_append, List.getLast?_replicate, hne]

theorem loadLevels_nil (B : Branching) (height : Nat) :
    loadLevels B height ([] : List (Node I S G)) = some none := by
  rw [loadLevels]
  rfl

theorem repeatLevels_eq (B : Branching) (height : Nat) (level : List (Node I S G × Nat))
    (hpos : ∀ run ∈ level, 0 < run.2) :
    repeatLevels B height level = loadLevels B height (expand level) := by
  induction hn : copiesOf level using Nat.strong_induction_on generalizing level height with
  | _ n ih =>
    subst hn
    rw [repeatLevels, loadLevels, length_expand]
    by_cases hseveral : 1 < copiesOf level
    · have hlevel := groupRuns_eq B (height + 1) level (by omega)
      rw [dif_pos hseveral, dif_pos hseveral]
      split
      · next hnone =>
        rw [hnone] at hlevel
        split
        · rfl
        · next next hnext => simp [hnext] at hlevel
      · next next hnext =>
        rw [hnext] at hlevel
        split
        · next hnone => simp [hnone] at hlevel
        · next nodes hnodes =>
          rw [hnodes] at hlevel
          obtain rfl := Option.some.inj hlevel
          exact ih _ (groupRuns_copies hnext hseveral) (height + 1) next (groupRuns_pos hnext) rfl
    · rw [dif_neg hseveral, dif_neg hseveral, getLast?_expand level hpos]

/-- The leaves of `repeat` stand for those of `from_vec`. -/
theorem repeat_leaves (item : I) (first second : Nat × Nat) :
    (([first, second].filter fun cut => cut.2 > 0).mapM fun cut =>
        (Node.newLeaf (List.replicate cut.1 item)).bind fun leaf =>
          some ((leaf : Node I S G), cut.2)).map expand =
      (List.replicate first.2 (List.replicate first.1 item) ++
        List.replicate second.2 (List.replicate second.1 item)).mapM Node.newLeaf := by
  have hone : ∀ cut : Nat × Nat,
      (([cut].filter fun cut => cut.2 > 0).mapM fun cut =>
        (Node.newLeaf (List.replicate cut.1 item)).bind fun leaf =>
          some ((leaf : Node I S G), cut.2)).map expand =
        (List.replicate cut.2 (List.replicate cut.1 item)).mapM Node.newLeaf := by
    intro cut
    by_cases hpos : 0 < cut.2
    · rw [mapM_replicate _ _ _ hpos]
      cases hleaf : (Node.newLeaf (List.replicate cut.1 item) : Option (Node I S G)) <;>
        simp [hpos, hleaf, List.mapM_cons]
    · have hzero : cut.2 = 0 := by omega
      simp [hzero]
  have hsplit : [first, second].filter (fun cut => cut.2 > 0) =
      [first].filter (fun cut => cut.2 > 0) ++ [second].filter (fun cut => cut.2 > 0) := by
    rw [← List.filter_append]
    rfl
  rw [hsplit, List.mapM_append, List.mapM_append, ← hone first, ← hone second]
  cases (([first].filter fun cut => cut.2 > 0).mapM fun cut =>
      (Node.newLeaf (List.replicate cut.1 item)).bind fun leaf =>
        some ((leaf : Node I S G), cut.2)) with
  | none => rfl
  | some left =>
    cases (([second].filter fun cut => cut.2 > 0).mapM fun cut =>
        (Node.newLeaf (List.replicate cut.1 item)).bind fun leaf =>
          some ((leaf : Node I S G), cut.2)) <;> simp

theorem repeat_leaves_pos (item : I) (cuts : List (Nat × Nat)) {level : List (Node I S G × Nat)}
    (h : ((cuts.filter fun cut => cut.2 > 0).mapM fun cut =>
        (Node.newLeaf (List.replicate cut.1 item)).bind fun leaf =>
          some ((leaf : Node I S G), cut.2)) = some level) :
    ∀ run ∈ level, 0 < run.2 := by
  have hrel : Yields False ((cuts.filter fun cut => cut.2 > 0).mapM fun cut =>
      (Node.newLeaf (List.replicate cut.1 item)).bind fun leaf =>
        some ((leaf : Node I S G), cut.2))
      (List.Forall₂ (fun _ run => 0 < run.2) (cuts.filter fun cut => cut.2 > 0)) := by
    refine yields_mapM _ fun cut hcut => ?_
    have hpos : 0 < cut.2 := by simpa using (List.mem_filter.mp hcut).2
    cases (Node.newLeaf (List.replicate cut.1 item) : Option (Node I S G)) with
    | none => simp
    | some leaf => exact hpos
  intro run hrun
  obtain ⟨_, _, hpos⟩ := forall₂_mem_right (hrel.of_eq_some h) run hrun
  exact hpos

/-- The bulk load of copies builds the tree the bulk load of a vector of the
copies builds. -/
theorem repeatItem_eq (B : Branching) (item : I) (count : Nat) :
    (repeatItem B item count : Option (Chunked I S G B)) =
      fromVec B (List.replicate count item) := by
  by_cases hzero : count = 0
  · subst hzero
    have hruns : repeatLevels B 0 ([] : List (Node I S G × Nat)) = some none := by
      rw [repeatLevels_eq B 0 [] (by simp), expand_nil, loadLevels_nil]
    have hnone : evenPartRuns 0 B.factor B.minFill B.fillTarget = some [(1, 0), (0, 0)] := by
      simp [evenPartRuns, evenCut]
    simp only [repeatItem, fromVec, evenLevel, hnone, List.replicate_zero, List.length_nil,
      evenParts_zero, Option.bind_eq_bind, Option.bind_some, List.splitLengths, List.mapM_nil,
      Option.pure_def, loadLevels_nil, gt_iff_lt, lt_self_iff_false, decide_false,
      List.filter_cons, Bool.false_eq_true, if_false, List.filter_nil, hruns]
  obtain ⟨base, longer, shorter, _, hruns, hparts, hsum⟩ :=
    evenParts_eq_runs B count (by omega)
  have hleaves := repeat_leaves (S := S) (G := G) item (base + 1, longer) (base, shorter)
  have hcut : (List.replicate longer (base + 1) ++ List.replicate shorter base).splitLengths
      (List.replicate count item) =
        List.replicate longer (List.replicate (base + 1) item) ++
          List.replicate shorter (List.replicate base item) := by
    have hfirst := splitLengths_replicate longer (base + 1) count item [] (by omega)
    have hsecond := splitLengths_replicate shorter base (count - longer * (base + 1)) item []
      (by omega)
    rw [List.append_nil] at hfirst hsecond
    rw [splitLengths_append, hfirst, List.sum_replicate, smul_eq_mul, List.drop_replicate,
      hsecond]
  unfold repeatItem fromVec evenLevel
  rw [hruns, List.length_replicate, hparts]
  simp only [Option.bind_eq_bind, Option.bind_some, Option.pure_def]
  rw [hcut, ← hleaves]
  cases hlevel : (([(base + 1, longer), (base, shorter)].filter fun cut =>
      decide (cut.2 > 0)).mapM fun cut =>
        (Node.newLeaf (List.replicate cut.1 item)).bind fun leaf =>
          some ((leaf : Node I S G), cut.2)) with
  | none => rfl
  | some level =>
    have hpos := repeat_leaves_pos (S := S) (G := G) item _ hlevel
    simp only [Option.bind_some, Option.map_some]
    rw [repeatLevels_eq B 0 level hpos]

end Laws

end KRust.Term.Chunks
