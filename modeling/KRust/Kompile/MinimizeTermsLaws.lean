import KRust.Kompile.GatherLaws

/-!
Minimizing a rule keeps its meaning: with each generated variable replaced by the term it names and
the added `#as` dropped, the result is the rule. Each variable that occurs is bound on the left,
outside of the top and of the places where nothing is to be bound.
-/

set_option linter.unusedSectionVars false

namespace KRust.Kompile

open KRust.Kast Lib

variable {μ E : Type}

section Expansion

variable (named : String → Option (Term μ))

/-- Whether a term is a generated variable. -/
def isGenerated (t : Term μ) : Bool :=
  match t.unannotated with
  | .var name _ => (named name).isSome
  | _ => false

mutual

/-- The term without annotations, its generated variables replaced by the terms they name and the
`#as` that bind them on the left dropped. -/
def expand (position : Position) (t : Term μ) : Term μ :=
  match t with
  | .annotated t _ => expand position t
  | .rewrite left right => .rewrite (expand .left left) (expand .right right)
  | .as pattern aliased =>
    if position = .left ∧ isGenerated named aliased = true then expand position pattern
    else .as (expand position pattern) (expand position aliased)
  | .sequence items => .sequence (expandAll position items)
  | .apply label arguments => .apply label (expandAll position arguments)
  | .var name sort => (named name).getD (.var name sort)
  | .injectedLabel label => .injectedLabel label
  | .token text sort => .token text sort

def expandAll (position : Position) (ts : List (Term μ)) : List (Term μ) :=
  match ts with
  | [] => []
  | t :: ts => expand position t :: expandAll position ts

end

variable {named}

theorem isGenerated_of_names {t : Term μ} (h : ∀ name ∈ variableNames t, named name = none) :
    isGenerated named t = false := by
  induction t with
  | annotated term metadata ih => exact ih h
  | var name sort => simp [isGenerated, Term.unannotated, h name (by simp [variableNames])]
  | _ => rfl

end Expansion

section Transforming

variable {hook : Label → Option String} {identity : Address → Nat} {m : Minimizer}
  [DecidableEq μ] [Inhabited μ] {named : String → Option (Term μ)}

theorem expand_keepMetadata (position : Position) (source rebuilt : Term μ) :
    expand named position (keepMetadata source rebuilt) = expand named position rebuilt := by
  unfold keepMetadata
  split
  · unfold withMetadata
    split
    · rfl
    · rw [expand]
  · rfl

theorem isGenerated_keepMetadata (source rebuilt : Term μ) :
    isGenerated named (keepMetadata source rebuilt) = isGenerated named rebuilt := by
  unfold keepMetadata
  split
  · unfold withMetadata
    split <;> rfl
  · rfl

theorem isGenerated_rebuild (address : Address) (t : Term μ) (position : Position) (inBad : Bool) :
    isGenerated named (rebuild hook identity m address t position inBad) = isGenerated named t := by
  induction t with
  | annotated term metadata ih => exact ih
  | _ => rfl

variable (identity m named) in
/-- The variable of the node at an address names the term there. -/
def NamesAt (address : Address) (t : Term μ) : Prop :=
  ∀ name sort, m.cache.lookup (identity address) = some (name, sort) → named name = some t.strip

theorem expand_closeNode {address : Address} {t rebuilt : Term μ} {position : Position}
    {inBad : Bool} (hnames : NamesAt identity m named address t)
    (hrebuilt : expand named position rebuilt = t.strip) :
    expand named position (closeNode identity m address t position inBad rebuilt) = t.strip := by
  unfold closeNode
  split
  · rw [expand_keepMetadata, hrebuilt]
  · next name sort hlookup =>
    have hname := hnames name sort hlookup
    split
    · rw [expand, hname, Option.getD_some]
    split
    · next hleft =>
      simp only [Bool.and_eq_true, decide_eq_true_eq] at hleft
      have hgenerated : isGenerated named (.var name (some sort)) = true := by
        simp [isGenerated, Term.unannotated, hname]
      rw [expand, if_pos ⟨hleft.1.1, hgenerated⟩, expand_keepMetadata, hrebuilt]
    · rw [expand_keepMetadata, hrebuilt]

theorem isGenerated_closeNode {address : Address} {t : Term μ} {inBad : Bool}
    (h : isGenerated named t = false) :
    isGenerated named (closeNode identity m address t .left inBad
      (rebuild hook identity m address t .left inBad)) = false := by
  unfold closeNode
  split
  · rw [isGenerated_keepMetadata, isGenerated_rebuild, h]
  · rw [if_neg (by decide)]
    split
    · rfl
    · rw [isGenerated_keepMetadata, isGenerated_rebuild, h]

theorem expandAll_rebuildAll {address : Address} {position : Position} {ts : List (Term μ)}
    {inBad : Nat → Bool} (i : Nat)
    (h : ∀ j t, ts[j]? = some t → expand named position (closeNode identity m ((i + j) :: address) t
      position (inBad (i + j)) (rebuild hook identity m ((i + j) :: address) t position
        (inBad (i + j)))) = t.strip) :
    expandAll named position (rebuildAll hook identity m address i ts position inBad) =
      ts.map Term.strip := by
  induction ts generalizing i with
  | nil => rfl
  | cons t ts ih =>
    rw [rebuildAll, expandAll, List.map_cons]
    congr 1
    · exact h 0 t rfl
    · refine ih (i + 1) fun j u hu => ?_
      have := h (j + 1) u hu
      rwa [show i + (j + 1) = i + 1 + j by omega] at this

theorem NamesAt.child {address : Address} {t child : Term μ} {i : Nat}
    (hnames : ∀ b u, Below address t b u → NamesAt identity m named b u)
    (hchild : t.children[i]? = some child) :
    ∀ b u, Below (i :: address) child b u → NamesAt identity m named b u :=
  fun b u h => hnames b u (.child hchild h)

theorem expandAll_rebuilt {address : Address} {t : Term μ} {ts : List (Term μ)}
    {position : Position} {inBad : Nat → Bool} (hts : t.children = ts)
    (hnames : ∀ b u, Below address t b u → NamesAt identity m named b u)
    (hplain : ∀ name ∈ ts.flatMap variableNames, named name = none)
    (ih : ∀ t ∈ ts, ∀ {address : Address} {position : Position} {inBad : Bool},
      (∀ b u, Below address t b u → NamesAt identity m named b u) →
      (∀ name ∈ variableNames t, named name = none) →
      expand named position (rebuild hook identity m address t position inBad) = t.strip) :
    expandAll named position (rebuildAll hook identity m address 0 ts position inBad) =
      ts.map Term.strip := by
  refine expandAll_rebuildAll 0 fun j child hchild => ?_
  have hmem := List.mem_of_getElem? hchild
  rw [← hts] at hchild
  have hbelow := NamesAt.child hnames hchild
  rw [Nat.zero_add]
  exact expand_closeNode (hbelow _ _ (.here _ _)) (ih child hmem hbelow fun name hname =>
    hplain name (List.mem_flatMap.mpr ⟨child, hmem, hname⟩))

theorem expand_rebuild {address : Address} {t : Term μ} {position : Position} {inBad : Bool}
    (hnames : ∀ b u, Below address t b u → NamesAt identity m named b u)
    (hplain : ∀ name ∈ variableNames t, named name = none) :
    expand named position (rebuild hook identity m address t position inBad) = t.strip := by
  induction t generalizing address position inBad with
  | annotated term metadata ih =>
    refine ih (fun b u h => ?_) hplain
    cases h with
    | here => exact hnames address (.annotated term metadata) (.here _ _)
    | child hchild h => exact hnames _ _ (.child hchild h)
  | rewrite left right ihl ihr =>
    simp only [variableNames, List.mem_append, or_imp, forall_and] at hplain
    have hl := NamesAt.child hnames (i := 0) rfl
    have hr := NamesAt.child hnames (i := 1) rfl
    rw [rebuild, expand, expand_closeNode (hl _ _ (.here _ _)) (ihl hl hplain.1),
      expand_closeNode (hr _ _ (.here _ _)) (ihr hr hplain.2), Term.strip]
  | as pattern aliased ihl ihr =>
    simp only [variableNames, List.mem_append, or_imp, forall_and] at hplain
    have hl := NamesAt.child hnames (i := 0) rfl
    have hr := NamesAt.child hnames (i := 1) rfl
    rw [rebuild, expand, if_neg, expand_closeNode (hl _ _ (.here _ _)) (ihl hl hplain.1),
      expand_closeNode (hr _ _ (.here _ _)) (ihr hr hplain.2), Term.strip]
    rintro ⟨rfl, hgenerated⟩
    rw [isGenerated_closeNode (isGenerated_of_names hplain.2)] at hgenerated
    cases hgenerated
  | sequence items ih =>
    rw [variableNames, variableNamesAll_eq] at hplain
    have hitems : (Term.sequence items).children = items := rfl
    rw [rebuild, expand, expandAll_rebuilt hitems hnames hplain ih, Term.strip, Term.stripList_eq]
  | apply label arguments ih =>
    rw [variableNames, variableNamesAll_eq] at hplain
    have harguments : (Term.apply label arguments).children = arguments := rfl
    rw [rebuild, expand, expandAll_rebuilt harguments hnames hplain ih, Term.strip,
      Term.stripList_eq]
  | var name sort =>
    rw [rebuild, expand, hplain name (by simp [variableNames])]
    rfl
  | injectedLabel | token => rfl

/-- The generated variables replaced, a transformed term is the term. -/
theorem expand_transform {address : Address} {t : Term μ} {position : Position} {inBad : Bool}
    (hnames : ∀ b u, Below address t b u → NamesAt identity m named b u)
    (hplain : ∀ name ∈ variableNames t, named name = none) :
    expand named position (transform hook identity m address t position inBad) = t.strip :=
  expand_closeNode (hnames _ _ (.here _ _)) (expand_rebuild hnames hplain)

end Transforming

section Marking

variable {hook : Label → Option String} {identity : Address → Nat} {m : Minimizer}

/-- Marking adds to the numbers used and changes nothing else. -/
structure Minimizer.Marks (m m' : Minimizer) : Prop where
  fresh : m'.fresh = m.fresh
  cache : m'.cache = m.cache
  used : m.usedOnRhs ⊆ m'.usedOnRhs

theorem Minimizer.Marks.refl (m : Minimizer) : m.Marks m := ⟨rfl, rfl, List.Subset.refl _⟩

theorem Minimizer.Marks.trans {m m' m'' : Minimizer} (h : m.Marks m') (h' : m'.Marks m'') :
    m.Marks m'' :=
  ⟨h'.fresh.trans h.fresh, h'.cache.trans h.cache, List.Subset.trans h.used h'.used⟩

theorem Minimizer.Marks.names {m m' : Minimizer} (h : m.Marks m') {reserved : List String}
    {numbered : Nat → Prop} (hm : m.Names reserved numbered) : m'.Names reserved numbered where
  reserved_used := by rw [h.fresh]; exact hm.reserved_used
  used := by rw [h.fresh, h.cache]; exact hm.used
  fresh := by rw [h.cache]; exact hm.fresh
  distinct := by rw [h.cache]; exact hm.distinct
  lookup_iff := by rw [h.cache]; exact hm.lookup_iff

theorem markUsed_marks {address : Address} {position : Position} {below : Minimizer → Minimizer}
    (h : m.Marks (below m)) : m.Marks (markUsed identity address position m below) := by
  unfold markUsed
  split
  · exact ⟨rfl, rfl, fun _ h => List.mem_insert_of_mem h⟩
  · exact h

theorem filterAll_marks {address : Address} {position : Position} {ts : List (Term μ)}
    (ih : ∀ t ∈ ts, ∀ (address : Address) (position : Position) (m : Minimizer),
      m.Marks (filterRhs identity address t position m)) (i : Nat) (m : Minimizer) :
    m.Marks (filterAll identity address i ts position m) := by
  induction ts generalizing i m with
  | nil => exact .refl m
  | cons t ts iht =>
    obtain ⟨ht, hts⟩ := List.forall_mem_cons.mp ih
    exact (ht _ _ m).trans (iht hts _ _)

variable (identity) in
theorem filterRhs_marks (t : Term μ) (address : Address) (position : Position) (m : Minimizer) :
    m.Marks (filterRhs identity address t position m) := by
  induction t generalizing address position m with
  | annotated term metadata ih => exact ih _ _ _
  | rewrite left right ihl ihr | as left right ihl ihr =>
    exact markUsed_marks ((ihl _ _ _).trans (ihr _ _ _))
  | sequence items ih | apply _ items ih => exact markUsed_marks (filterAll_marks ih _ _)
  | injectedLabel | var | token => exact markUsed_marks (.refl m)

/-- The node is on the right and has a variable. -/
def Replaced (identity : Address → Nat) (m : Minimizer) (address : Address) (position : Position) :
    Prop :=
  position = .right ∧ (m.cache.lookup (identity address)).isSome = true

theorem markUsed_of_replaced {address : Address} {position : Position}
    {below : Minimizer → Minimizer} (h : Replaced identity m address position) :
    identity address ∈ (markUsed identity address position m below).usedOnRhs := by
  rw [markUsed, if_pos (by simp [h.1, h.2])]
  exact List.mem_insert_self

theorem markUsed_of_not {address : Address} {position : Position}
    {below : Minimizer → Minimizer} (h : ¬ Replaced identity m address position) :
    markUsed identity address position m below = below m := by
  rw [markUsed, if_neg]
  simpa [Replaced] using h

theorem mem_of_replaced (t : Term μ) {address : Address} {position : Position}
    (h : Replaced identity m address position) :
    identity address ∈ (filterRhs identity address t position m).usedOnRhs := by
  induction t with
  | annotated term metadata ih => exact ih
  | _ => exact markUsed_of_replaced h

variable [DecidableEq μ] [Inhabited μ]

/-- The name of a variable that is used on the right. -/
def Minimizer.Uses (m : Minimizer) (name : String) : Prop :=
  ∃ n sort, m.cache.lookup n = some (name, sort) ∧ n ∈ m.usedOnRhs

theorem variableNames_keepMetadata (source rebuilt : Term μ) :
    variableNames (keepMetadata source rebuilt) = variableNames rebuilt := by
  unfold keepMetadata
  split
  · unfold withMetadata
    split <;> rfl
  · rfl

theorem names_closeNode {address : Address} {t rebuilt : Term μ} {position : Position}
    {inBad : Bool} (hreplaced : Replaced identity m address position →
      identity address ∈ m.usedOnRhs)
    (hrebuilt : ¬ Replaced identity m address position →
      ∀ name ∈ variableNames rebuilt, name ∈ variableNames t ∨ m.Uses name)
    {name : String}
    (hname : name ∈ variableNames (closeNode identity m address t position inBad rebuilt)) :
    name ∈ variableNames t ∨ m.Uses name := by
  unfold closeNode at hname
  split at hname
  · next hnone =>
    rw [variableNames_keepMetadata] at hname
    exact hrebuilt (by simp [Replaced, hnone]) name hname
  next found sort hsome =>
  split at hname
  · next hright =>
    obtain rfl := List.mem_singleton.mp hname
    exact .inr ⟨_, sort, hsome, hreplaced ⟨hright, by rw [hsome]; rfl⟩⟩
  next hright =>
  have hkept := hrebuilt fun h => hright h.1
  split at hname
  · next hleft =>
    simp only [Bool.and_eq_true, List.contains_iff_mem] at hleft
    rw [variableNames, variableNames_keepMetadata, List.mem_append] at hname
    rcases hname with hname | hname
    · exact hkept name hname
    · obtain rfl := List.mem_singleton.mp hname
      exact .inr ⟨_, sort, hsome, hleft.2⟩
  · rw [variableNames_keepMetadata] at hname
    exact hkept name hname

theorem Replaced.congr {m' : Minimizer} {address : Address} {position : Position}
    (hcache : m.cache = m'.cache) (h : Replaced identity m address position) :
    Replaced identity m' address position := by rwa [Replaced, ← hcache]

variable (hook identity m) in
/-- The names in what a node without a variable is rebuilt to, once the nodes below it marked what
they use. -/
def RebuiltNames (t : Term μ) : Prop :=
  ∀ (address : Address) (position : Position) (inBad : Bool) (m₀ : Minimizer),
    m₀.cache = m.cache → ¬ Replaced identity m₀ address position →
    (filterRhs identity address t position m₀).usedOnRhs ⊆ m.usedOnRhs →
    ∀ name ∈ variableNames (rebuild hook identity m address t position inBad),
      name ∈ variableNames t ∨ m.Uses name

theorem RebuiltNames.transform {t : Term μ} (h : RebuiltNames hook identity m t)
    {address : Address} {position : Position} {inBad : Bool} {m₀ : Minimizer}
    (hcache : m₀.cache = m.cache)
    (hused : (filterRhs identity address t position m₀).usedOnRhs ⊆ m.usedOnRhs) {name : String}
    (hname : name ∈ variableNames (transform hook identity m address t position inBad)) :
    name ∈ variableNames t ∨ m.Uses name := by
  refine names_closeNode (fun hr => hused (mem_of_replaced t (hr.congr hcache.symm)))
    (fun hnot => ?_) hname
  exact h address position inBad m₀ hcache (fun hr => hnot (hr.congr hcache)) hused

theorem names_rebuildAll {address : Address} {position : Position} {ts : List (Term μ)}
    {inBad : Nat → Bool} {m₀ : Minimizer} (hcache : m₀.cache = m.cache) (i : Nat)
    (ih : ∀ t ∈ ts, RebuiltNames hook identity m t)
    (hused : (filterAll identity address i ts position m₀).usedOnRhs ⊆ m.usedOnRhs) {name : String}
    (hname : name ∈ variableNamesAll (rebuildAll hook identity m address i ts position inBad)) :
    name ∈ variableNamesAll ts ∨ m.Uses name := by
  induction ts generalizing i m₀ with
  | nil => cases hname
  | cons t ts iht =>
    obtain ⟨ht, hts⟩ := List.forall_mem_cons.mp ih
    have hmarks := filterRhs_marks identity t (i :: address) position m₀
    rw [filterAll] at hused
    have hfirst : (filterRhs identity (i :: address) t position m₀).usedOnRhs ⊆ m.usedOnRhs :=
      List.Subset.trans (filterAll_marks (fun _ _ => filterRhs_marks identity _) _ _).used hused
    rw [rebuildAll, variableNamesAll, List.mem_append] at hname
    rw [variableNamesAll, List.mem_append, or_assoc]
    rcases hname with hname | hname
    · exact (ht.transform hcache hfirst hname).imp_right .inr
    · exact .inr (iht (hmarks.cache.trans hcache) (i + 1) hts hused hname)

theorem names_pair {address : Address} {left right : Term μ} {first second : Position}
    {inBad : Bool} {m₀ : Minimizer} (hcache : m₀.cache = m.cache)
    (ihl : RebuiltNames hook identity m left) (ihr : RebuiltNames hook identity m right)
    (hused : (filterRhs identity (1 :: address) right second
      (filterRhs identity (0 :: address) left first m₀)).usedOnRhs ⊆ m.usedOnRhs) {name : String}
    (hname : name ∈ variableNames (transform hook identity m (0 :: address) left first inBad) ++
      variableNames (transform hook identity m (1 :: address) right second inBad)) :
    name ∈ variableNames left ++ variableNames right ∨ m.Uses name := by
  rw [List.mem_append] at hname ⊢
  have hleft := filterRhs_marks identity left (0 :: address) first m₀
  rcases hname with hname | hname
  · have hfirst := List.Subset.trans (filterRhs_marks identity right (1 :: address) second _).used hused
    exact (ihl.transform hcache hfirst hname).imp_left .inl
  · exact (ihr.transform (hleft.cache.trans hcache) hused hname).imp_left .inr

theorem rebuiltNames (t : Term μ) : RebuiltNames hook identity m t := by
  induction t with
  | annotated term metadata ih => exact ih
  | rewrite left right ihl ihr | as left right ihl ihr =>
    intro address position inBad m₀ hcache hnot hused name hname
    rw [filterRhs, markUsed_of_not hnot] at hused
    exact names_pair hcache ihl ihr hused hname
  | sequence items ih | apply label items ih =>
    intro address position inBad m₀ hcache hnot hused name hname
    rw [filterRhs, markUsed_of_not hnot] at hused
    exact names_rebuildAll hcache 0 ih hused hname
  | var name sort => exact fun _ _ _ _ _ _ _ _ hname => .inl hname
  | injectedLabel | token =>
    intro address position inBad m₀ hcache hnot hused name hname
    cases hname

end Marking

section Places

variable {hook : Label → Option String} {identity : Address → Nat} {m : Minimizer}
  [DecidableEq μ] [Inhabited μ]

variable (hook) in
/-- Whether rebuilding blocks a child. -/
def childBad : Head → Bool → Nat → Bool
  | .apply label, inBad, i =>
    if hook label = some "MAP.element" then i == 0 else inBad || isBlocked hook label
  | _, inBad, _ => inBad

theorem getElem?_rebuildAll {address : Address} {position : Position} {inBad : Nat → Bool}
    {ts : List (Term μ)} (i j : Nat) :
    (rebuildAll hook identity m address i ts position inBad)[j]? =
      ts[j]?.map fun t => transform hook identity m ((i + j) :: address) t position (inBad (i + j)) := by
  induction ts generalizing i j with
  | nil => rfl
  | cons t ts ih =>
    rw [rebuildAll]
    cases j with
    | zero => rfl
    | succ j =>
      rw [List.getElem?_cons_succ, List.getElem?_cons_succ, ih, Nat.add_right_comm, Nat.add_assoc]

variable (hook identity m) in
theorem head_rebuild (address : Address) (t : Term μ) (position : Position) (inBad : Bool) :
    head (rebuild hook identity m address t position inBad) = head t := by
  induction t with
  | annotated term metadata ih => exact ih
  | _ => rfl

theorem unannotated_rebuild (address : Address) (t : Term μ) (position : Position) (inBad : Bool) :
    (rebuild hook identity m address t position inBad).unannotated =
      rebuild hook identity m address t position inBad := by
  induction t with
  | annotated term metadata ih => exact ih
  | _ => rfl

variable (hook identity m) in
/-- The children of a rebuilt node are the transformed children. -/
theorem getElem?_rebuild (address : Address) (t : Term μ) (position : Position) (inBad : Bool)
    (i : Nat) :
    (rebuild hook identity m address t position inBad).children[i]? =
      t.children[i]?.map fun child => transform hook identity m (i :: address) child
        (childPosition (head t) position i) (childBad hook (head t) inBad i) := by
  induction t with
  | annotated term metadata ih => exact ih
  | rewrite left right | as left right =>
    rcases i with _ | _ | i <;> rfl
  | sequence items =>
    exact (getElem?_rebuildAll 0 i).trans (by rw [Nat.zero_add]; rfl)
  | apply label arguments =>
    exact (getElem?_rebuildAll 0 i).trans (by rw [Nat.zero_add]; rfl)
  | injectedLabel | var | token => rfl

variable (hook identity m) in
/-- A place of the result over the rebuilt node of a place. -/
structure Rebuilt (s o : Site μ) : Prop where
  term : ∃ inBad, (s.inside = false → inBad = false) ∧
    o.term.unannotated = rebuild hook identity m s.address s.term s.position inBad
  position : o.position = s.position
  inside : o.inside = s.inside
  top : o.top = true → s.top = true

variable (hook identity m) in
/-- A place of the result over what a place is transformed to. -/
structure Transformed (s o : Site μ) : Prop where
  term : ∃ inBad, (s.inside = false → inBad = false) ∧
    o.term = transform hook identity m s.address s.term s.position inBad
  position : o.position = s.position
  inside : o.inside = s.inside
  top : o.top = true → s.top = true

theorem childBad_of_open {label : Head} {inBad : Bool} {i : Nat}
    (hinside : childInside hook label i = false) (hbad : inBad = false) :
    childBad hook label inBad i = false := by
  cases label with
  | apply label =>
    simp only [childInside, insideArgument, Bool.or_eq_false_iff, Bool.and_eq_false_iff,
      decide_eq_false_iff_not, bne_eq_false_iff_eq] at hinside
    rw [childBad]
    split
    · next hmap =>
      rcases hinside.2 with hne | rfl
      · exact absurd hmap hne
      · rfl
    · rw [hbad, hinside.1]
      rfl
  | _ => exact hbad

/-- Over a rebuilt node the children are over those of the node, in order. -/
theorem Rebuilt.child {s o : Site μ} (h : Rebuilt hook identity m s o) {i : Nat} {t : Term μ}
    (ht : s.term.children[i]? = some t) :
    ∃ t', o.term.children[i]? = some t' ∧
      Transformed hook identity m (s.child hook i t) (o.child hook i t') := by
  obtain ⟨inBad, hbad, hterm⟩ := h.term
  have hhead : head o.term = head s.term := by
    rw [← head_unannotated, hterm, head_rebuild]
  refine ⟨_, by rw [← Identities.children_unannotated, hterm, getElem?_rebuild, ht]; rfl, ?_⟩
  refine ⟨⟨_, fun hopen => ?_, rfl⟩, ?_, ?_, fun htop => ?_⟩
  · simp only [Site.child, Bool.or_eq_false_iff] at hopen
    exact childBad_of_open hopen.2 (hbad hopen.1)
  · simp only [Site.child, hhead, h.position]
  · simp only [Site.child, hhead, h.inside]
  · simp only [Site.child, hhead, Bool.and_eq_true] at htop ⊢
    exact ⟨htop.1, h.top htop.2⟩

theorem Rebuilt.exists_child {s o c : Site μ} (h : Rebuilt hook identity m s o)
    (hc : c ∈ o.children hook) :
    ∃ d ∈ s.children hook, Transformed hook identity m d c := by
  obtain ⟨i, t', ht', rfl⟩ := Site.mem_children.mp hc
  obtain ⟨inBad, hbad, hterm⟩ := h.term
  have hchild := ht'
  rw [← Identities.children_unannotated, hterm, getElem?_rebuild, Option.map_eq_some_iff] at hchild
  obtain ⟨t, ht, -⟩ := hchild
  obtain ⟨t'', ht'', htransformed⟩ := h.child ht
  rw [ht'] at ht''
  cases ht''
  exact ⟨_, Site.mem_children.mpr ⟨i, t, ht, rfl⟩, htransformed⟩

theorem unannotated_keepMetadata (source rebuilt : Term μ) :
    (keepMetadata source rebuilt).unannotated = rebuilt.unannotated := by
  unfold keepMetadata
  split
  · unfold withMetadata
    split <;> rfl
  · rfl

variable {s o : Site μ}

/-- A node is replaced by its variable, rebuilt, or rebuilt and bound. -/
theorem Transformed.cases (h : Transformed hook identity m s o) :
    (∃ name sort, s.position = .right ∧
      m.cache.lookup (identity s.address) = some (name, sort) ∧ o.term = .var name (some sort)) ∨
    Rebuilt hook identity m s o ∨
    ∃ name sort pattern, s.position = .left ∧
      m.cache.lookup (identity s.address) = some (name, sort) ∧
      o.term = .as pattern (.var name (some sort)) ∧
      Rebuilt hook identity m s (o.child hook 0 pattern) := by
  obtain ⟨inBad, hbad, hterm⟩ := h.term
  have hkept : (keepMetadata s.term (rebuild hook identity m s.address s.term s.position
      inBad)).unannotated = rebuild hook identity m s.address s.term s.position inBad := by
    rw [unannotated_keepMetadata, unannotated_rebuild]
  have hrebuilt (hkeep : o.term = keepMetadata s.term (rebuild hook identity m s.address s.term
      s.position inBad)) : Rebuilt hook identity m s o :=
    ⟨⟨inBad, hbad, by rw [hkeep, hkept]⟩, h.position, h.inside, h.top⟩
  rw [transform, closeNode] at hterm
  split at hterm
  · exact .inr (.inl (hrebuilt hterm))
  next name sort hlookup =>
  split at hterm
  · next hright => exact .inl ⟨name, sort, hright, hlookup, hterm⟩
  split at hterm
  · next hleft =>
    simp only [Bool.and_eq_true, decide_eq_true_eq] at hleft
    refine .inr (.inr ⟨name, sort, _, hleft.1.1, hlookup, hterm, ⟨inBad, hbad, hkept⟩, ?_, ?_, ?_⟩)
    · simp only [Site.child, hterm, head, childPosition, h.position]
    · simp only [Site.child, hterm, head, childInside, h.inside, Bool.or_false]
    · simp only [Site.child, hterm, head, childTop, Bool.false_and]
      exact fun htop => absurd htop Bool.false_ne_true
  · exact .inr (.inl (hrebuilt hterm))

variable (hook identity m) in
/-- What the places of the result are: over a place of the rule, or a variable. -/
def Image (rule : Rule μ) (o : Site μ) : Prop :=
  (∃ s, rule.Has hook s ∧ (Transformed hook identity m s o ∨ Rebuilt hook identity m s o)) ∨
    ∃ name sort, o.term = .var name sort

theorem Rule.Has.child {rule : Rule μ} {c : Site μ} (h : rule.Has hook s)
    (hc : c ∈ s.children hook) : rule.Has hook c := by
  obtain ⟨root, hroot, hreach⟩ := h
  exact ⟨root, hroot, hreach.tail hc⟩

theorem children_of_var {name : String} {sort : Option KSort} (h : o.term = .var name sort)
    {c : Site μ} : c ∉ o.children hook := by
  rw [Site.mem_children, h]
  rintro ⟨i, t, ht, -⟩
  cases ht

theorem Image.child {rule : Rule μ} {c : Site μ} (h : Image hook identity m rule o)
    (hc : c ∈ o.children hook) : Image hook identity m rule c := by
  rcases h with ⟨s, hs, htransformed | hrebuilt⟩ | ⟨name, sort, hvar⟩
  · rcases htransformed.cases with ⟨name, sort, -, -, hvar⟩ | hrebuilt |
      ⟨name, sort, pattern, -, -, hterm, hrebuilt⟩
    · exact absurd hc (children_of_var hvar)
    · obtain ⟨d, hd, htransformed⟩ := hrebuilt.exists_child hc
      exact .inl ⟨d, hs.child hd, .inl htransformed⟩
    · obtain ⟨i, t, ht, rfl⟩ := Site.mem_children.mp hc
      rw [hterm] at ht
      rcases i with _ | _ | i
      · cases ht
        exact .inl ⟨s, hs, .inr hrebuilt⟩
      · cases ht
        exact .inr ⟨name, some sort, rfl⟩
      · cases ht
  · obtain ⟨d, hd, htransformed⟩ := hrebuilt.exists_child hc
    exact .inl ⟨d, hs.child hd, .inl htransformed⟩
  · exact absurd hc (children_of_var hvar)

end Places

section Surviving

variable {hook : Label → Option String} {identity : Address → Nat} {m : Minimizer} {rule : Rule μ}

theorem children_strip (t : Term μ) : t.strip.children = t.children.map Term.strip := by
  induction t with
  | annotated term metadata ih => exact ih
  | sequence items | apply _ items =>
    rw [Term.strip, Term.stripList_eq]
    rfl
  | _ => rfl

theorem Below.size_le {address b : Address} {t u : Term μ} (h : Below address t b u) :
    u.strip.size ≤ t.strip.size := by
  induction h with
  | here => exact Nat.le_refl _
  | @child address b t c u i hchild h ih =>
    refine Nat.le_trans ih (Nat.le_of_lt (Identities.size_child_lt ?_))
    rw [children_strip]
    exact List.mem_map_of_mem (List.mem_of_getElem? hchild)

theorem Rule.Has.size_le {s : Site μ} (h : rule.Has hook s) :
    s.term.strip.size ≤
      rule.body.strip.size + rule.requires.strip.size + rule.ensures.strip.size := by
  rcases h.node with h | h | h <;> have := h.size_le <;> omega

theorem Site.strip_size_lt {s c : Site μ} (h : c ∈ s.children hook) :
    c.term.strip.size < s.term.strip.size := by
  obtain ⟨i, hi, -⟩ := Site.getElem?_of_mem h
  refine Identities.size_child_lt ?_
  rw [children_strip]
  exact List.mem_map_of_mem (List.mem_of_getElem? hi)

variable (hook identity m) in
/-- From a place that stays in the result to a child of it. -/
def Site.Live (s c : Site μ) : Prop :=
  Site.Opens hook s c ∧ ¬ Replaced identity m s.address s.position

variable (identity m) in
/-- A place stays in the result, or lies below a place on the right that is replaced. -/
theorem live_or_replaced {root s : Site μ} (h : Relation.ReflTransGen (Site.Opens hook) root s) :
    Relation.ReflTransGen (Site.Live hook identity m) root s ∨
      ∃ q c, Relation.ReflTransGen (Site.Opens hook) root q ∧
        Replaced identity m q.address q.position ∧ Site.Opens hook q c ∧
        Relation.ReflTransGen (Site.Live hook identity m) c s := by
  induction h with
  | refl => exact .inl .refl
  | @tail s c hreach hopen ih =>
    by_cases hreplaced : Replaced identity m s.address s.position
    · exact .inr ⟨s, c, hreach, hreplaced, hopen, .refl⟩
    rcases ih with hlive | ⟨q, d, hq, hrep, hqd, hlive⟩
    · exact .inl (hlive.tail ⟨hopen, hreplaced⟩)
    · exact .inr ⟨q, d, hq, hrep, hqd, hlive.tail ⟨hopen, hreplaced⟩⟩

/-- Places of equal terms, where the second is on the left if they are on different sides. -/
structure Twin (s t : Site μ) : Prop where
  strip : s.term.strip = t.term.strip
  inside : t.inside = s.inside
  top : t.top = false
  position : t.position = s.position ∨ s.position = .right ∧ t.position = .left

theorem head_eq_of_strip {t u : Term μ} (h : t.strip = u.strip) : head t = head u := by
  have hshape := shape_eq_iff.mpr h
  rw [shape_eq t, shape_eq u] at hshape
  exact (Rose.node.inj hshape).1

theorem Twin.child {s t c : Site μ} (h : Twin s t) (hc : c ∈ s.children hook) :
    ∃ d ∈ t.children hook, Twin c d := by
  obtain ⟨i, u, hu, rfl⟩ := Site.mem_children.mp hc
  have hchildren : s.term.children.map Term.strip = t.term.children.map Term.strip := by
    rw [← children_strip, ← children_strip, h.strip]
  have hget := congrArg (fun ts => ts[i]?) hchildren
  simp only [List.getElem?_map, hu, Option.map_some] at hget
  obtain ⟨v, hv, hstrip⟩ := Option.map_eq_some_iff.mp hget.symm
  have hhead := head_eq_of_strip h.strip
  refine ⟨_, Site.mem_children.mpr ⟨i, v, hv, rfl⟩, hstrip.symm, ?_, ?_, ?_⟩
  · simp only [Site.child, h.inside, hhead]
  · simp only [Site.child, h.top, Bool.and_false]
  · simp only [Site.child, hhead]
    rcases h.position with heq | ⟨hright, hleft⟩
    · exact .inl (by rw [heq])
    · rw [hright, hleft]
      cases head t.term with
      | rewrite => exact .inl (by cases i <;> rfl)
      | _ => exact .inr ⟨rfl, rfl⟩

theorem isVariable_strip (t : Term μ) : isVariable t.strip = isVariable t.unannotated := by
  induction t with
  | annotated term metadata ih => exact ih
  | _ => rfl

theorem isTrue_strip (t : Term μ) : isTrue t.strip = isTrue t.unannotated := by
  induction t with
  | annotated term metadata ih => exact ih
  | _ => rfl

theorem Twin.named {s t : Site μ} (h : Twin s t) (hs : s.Named) : t.Named := by
  obtain ⟨hleft, htop, hopen, hvariable, htrue⟩ := hs
  refine ⟨?_, h.top, h.inside.trans hopen, ?_, ?_⟩
  · rcases h.position with heq | ⟨-, hleft'⟩
    · exact heq.trans hleft
    · exact hleft'
  · rw [← isVariable_strip, ← h.strip, isVariable_strip, hvariable]
  · rw [← isTrue_strip, ← h.strip, isTrue_strip, htrue]

variable (hook identity m) in
/-- The places of a rule that stay in the result. -/
def Rule.Lives (rule : Rule μ) (s : Site μ) : Prop :=
  ∃ root ∈ rule.roots, Relation.ReflTransGen (Site.Live hook identity m) root s

theorem Rule.Lives.gathers {s : Site μ} (h : rule.Lives hook identity m s) :
    rule.Gathers hook s := by
  obtain ⟨root, hroot, hreach⟩ := h
  exact ⟨root, hroot, Relation.ReflTransGen.mono (fun _ _ h => h.1) _ _ hreach⟩

variable (hexact : ∀ b c t u, rule.Node b t → rule.Node c u →
    (identity b = identity c ↔ t.strip = u.strip))
  (hkeys : ∀ n, (m.cache.lookup n).isSome = true ↔
    ∃ s, rule.Gathers hook s ∧ s.Named ∧ identity s.address = n)

include hexact

/-- A way down that stays in the result stays in it below an equal term on the left. -/
theorem Twin.live {s t u : Site μ} (h : Twin s t) (ht : rule.Lives hook identity m t)
    (hs : rule.Gathers hook s) (hlive : Relation.ReflTransGen (Site.Live hook identity m) s u) :
    ∃ v, rule.Lives hook identity m v ∧ Twin u v := by
  induction hlive using Relation.ReflTransGen.head_induction_on generalizing t with
  | refl => exact ⟨t, ht, h⟩
  | @head s c hstep hlive ih =>
    obtain ⟨⟨hchild, hopen⟩, hnot⟩ := hstep
    obtain ⟨d, hd, htwin⟩ := h.child hchild
    have hstays : ¬ Replaced identity m t.address t.position := by
      rintro ⟨hright, hlookup⟩
      rcases h.position with heq | ⟨-, hleft⟩
      · refine hnot ⟨heq ▸ hright, ?_⟩
        rwa [(hexact _ _ _ _ hs.has.node ht.gathers.has.node).mpr h.strip]
      · rw [hleft] at hright
        cases hright
    obtain ⟨root, hroot, hreach⟩ := ht
    obtain ⟨root', hroot', hreach'⟩ := hs
    exact ih htwin ⟨root, hroot, hreach.tail ⟨⟨hd, htwin.inside.trans hopen⟩, hstays⟩⟩
      ⟨root', hroot', hreach'.tail ⟨hchild, hopen⟩⟩

include hkeys

/-- A term that has a variable stays in the result at some place on the left. -/
theorem exists_live {s : Site μ} (hs : rule.Gathers hook s) (hnamed : s.Named) :
    ∃ t, rule.Lives hook identity m t ∧ t.Named ∧ t.term.strip = s.term.strip := by
  -- by induction on how much larger terms of the rule can be
  induction hsize : rule.body.strip.size + rule.requires.strip.size + rule.ensures.strip.size -
      s.term.strip.size using Nat.strong_induction_on generalizing s with
  | _ size ih =>
    obtain ⟨root, hroot, hreach⟩ := hs
    rcases live_or_replaced identity m hreach with
      hlive | ⟨q, c, hq, hreplaced, hopen, hlive⟩
    · exact ⟨s, ⟨root, hroot, hlive⟩, hnamed, rfl⟩
    have hqGathers : rule.Gathers hook q := ⟨root, hroot, hq⟩
    have hcGathers : rule.Gathers hook c := ⟨root, hroot, hq.tail hopen⟩
    obtain ⟨q', hq', hqNamed, hidentity⟩ := (hkeys _).mp hreplaced.2
    have hstrip := (hexact _ _ _ _ hq'.has.node hqGathers.has.node).mp hidentity
    have hlt : s.term.strip.size < q'.term.strip.size := by
      rw [hstrip]
      refine Nat.lt_of_le_of_lt ?_ (Site.strip_size_lt hopen.1)
      exact (Site.below_of_reaches
        (Relation.ReflTransGen.mono (fun _ _ h => h.1.1) _ _ hlive)).size_le
    have hle := hq'.has.size_le
    obtain ⟨t, ht, htNamed, htStrip⟩ := ih _ (by omega) hq' hqNamed rfl
    have htwin : Twin q t :=
      ⟨(htStrip.trans hstrip).symm, ht.gathers.open.trans hqGathers.open.symm, htNamed.2.1,
        .inr ⟨hreplaced.1, htNamed.1⟩⟩
    obtain ⟨d, hd, hcd⟩ := htwin.child hopen.1
    have hstays : ¬ Replaced identity m t.address t.position := by
      rintro ⟨hright, -⟩
      rw [htNamed.1] at hright
      cases hright
    obtain ⟨root', hroot', hreach'⟩ := ht
    obtain ⟨v, hv, hsv⟩ := Twin.live hexact hcd
      ⟨root', hroot', hreach'.tail ⟨⟨hd, hcd.inside.trans hopen.2⟩, hstays⟩⟩ hcGathers hlive
    exact ⟨v, hv, hsv.named hnamed, hsv.strip.symm⟩

end Surviving

section Meaning

variable {hook : Label → Option String} {identity : Address → Nat} {m : Minimizer} {rule : Rule μ}
  [DecidableEq μ] [Inhabited μ] {named : String → Option (Term μ)}

variable (hook identity m rule) in
/-- The rule over its transformed terms. -/
def Rule.transformed : Rule μ where
  body := transform hook identity m [0] rule.body .both false
  requires := transform hook identity m [1] rule.requires .right false
  ensures := transform hook identity m [2] rule.ensures .right false

theorem variableNames_child {t child : Term μ} (h : child ∈ t.children) :
    variableNames child ⊆ variableNames t := by
  induction t with
  | annotated term metadata ih => exact ih h
  | rewrite left right | as left right =>
    simp only [Term.children, Term.unannotated, List.mem_cons, List.not_mem_nil, or_false] at h
    rcases h with rfl | rfl
    · exact List.subset_append_left _ _
    · exact List.subset_append_right _ _
  | sequence items | apply _ items =>
    rw [variableNames, variableNamesAll_eq]
    exact fun name hname => List.mem_flatMap.mpr ⟨child, h, hname⟩
  | injectedLabel | var | token => cases h

theorem Below.names {address b : Address} {t u : Term μ} (h : Below address t b u) :
    variableNames u ⊆ variableNames t := by
  induction h with
  | here => exact List.Subset.refl _
  | child hchild h ih =>
    exact List.Subset.trans ih (variableNames_child (List.mem_of_getElem? hchild))

theorem Rule.Node.names {b : Address} {t : Term μ} (h : rule.Node b t) :
    variableNames t ⊆ rule.variables := by
  intro name hname
  rw [Rule.variables, List.mem_flatMap]
  rcases h with h | h | h
  · exact ⟨rule.body, by simp, h.names hname⟩
  · exact ⟨rule.requires, by simp, h.names hname⟩
  · exact ⟨rule.ensures, by simp, h.names hname⟩

theorem Below.trans {address b c : Address} {t u v : Term μ} (h : Below address t b u)
    (h' : Below b u c v) : Below address t c v := by
  induction h with
  | here => exact h'
  | child hchild h ih => exact .child hchild (ih h')

theorem Rule.Node.below {b c : Address} {t u : Term μ} (h : rule.Node b t)
    (h' : Below b t c u) : rule.Node c u :=
  h.imp (·.trans h') (Or.imp (·.trans h') (·.trans h'))

variable (hook identity m) in
/-- The root of the result over a root of the rule. -/
def Site.transformed (s : Site μ) : Site μ :=
  { s with term := transform hook identity m s.address s.term s.position false }

theorem Site.transformed_spec (s : Site μ) :
    Transformed hook identity m s (s.transformed hook identity m) :=
  ⟨⟨false, fun _ => rfl, rfl⟩, rfl, rfl, id⟩

theorem roots_transformed : (rule.transformed hook identity m).roots =
    rule.roots.map (Site.transformed hook identity m) := rfl

theorem image_of_has {o : Site μ} (h : (rule.transformed hook identity m).Has hook o) :
    Image hook identity m rule o := by
  obtain ⟨root, hroot, hreach⟩ := h
  induction hreach with
  | refl =>
    rw [roots_transformed] at hroot
    obtain ⟨s, hs, rfl⟩ := List.mem_map.mp hroot
    exact .inl ⟨s, ⟨s, hs, .refl⟩, .inl s.transformed_spec⟩
  | tail hreach hchild ih => exact ih.child hchild

/-- A place that stays in the result is transformed at a place of the result. -/
theorem exists_transformed {s : Site μ} (h : rule.Lives hook identity m s) :
    ∃ o, (rule.transformed hook identity m).Has hook o ∧ Transformed hook identity m s o := by
  obtain ⟨root, hroot, hreach⟩ := h
  induction hreach with
  | refl =>
    refine ⟨root.transformed hook identity m, ⟨_, ?_, .refl⟩, root.transformed_spec⟩
    rw [roots_transformed]
    exact List.mem_map_of_mem hroot
  | @tail s c hreach hstep ih =>
    obtain ⟨o, ho, htransformed⟩ := ih
    obtain ⟨⟨hchild, hopen⟩, hnot⟩ := hstep
    obtain ⟨i, t, ht, rfl⟩ := Site.mem_children.mp hchild
    rcases htransformed.cases with ⟨name, sort, hright, hlookup, -⟩ | hrebuilt |
      ⟨name, sort, pattern, -, -, hterm, hrebuilt⟩
    · exact absurd ⟨hright, by rw [hlookup]; rfl⟩ hnot
    · obtain ⟨t', ht', hchild'⟩ := hrebuilt.child ht
      exact ⟨_, ho.child (Site.mem_children.mpr ⟨i, t', ht', rfl⟩), hchild'⟩
    · have hpattern : o.child hook 0 pattern ∈ o.children hook :=
        Site.mem_children.mpr ⟨0, pattern, by rw [hterm]; rfl, rfl⟩
      obtain ⟨t', ht', hchild'⟩ := hrebuilt.child ht
      exact ⟨_, (ho.child hpattern).child (Site.mem_children.mpr ⟨i, t', ht', rfl⟩), hchild'⟩

theorem expand_unannotated (position : Position) (t : Term μ) :
    expand named position t.unannotated = expand named position t := by
  induction t with
  | annotated term metadata ih => exact ih
  | _ => rfl

section Named

variable (hnames : ∀ b u, rule.Node b u → NamesAt identity m named b u)
  (hplain : ∀ name ∈ rule.variables, named name = none)

include hnames hplain

theorem expand_of_rebuilt {s o : Site μ} (hs : rule.Has hook s)
    (h : Rebuilt hook identity m s o) : expand named s.position o.term = s.term.strip := by
  obtain ⟨inBad, -, hterm⟩ := h.term
  rw [← expand_unannotated, hterm]
  exact expand_rebuild (fun b u hbelow => hnames b u (hs.node.below hbelow))
    fun name hname => hplain name (hs.node.names hname)

/-- On the left, a generated variable is the alias of the term it names only. -/
theorem expand_pattern {o : Site μ} (ho : (rule.transformed hook identity m).Has hook o)
    (hleft : o.position = .left) {pattern aliased u : Term μ} {name : String}
    {sort : Option KSort} (hterm : o.term.unannotated = .as pattern aliased)
    (haliased : aliased.unannotated = .var name sort) (hname : named name = some u) :
    expand named .left pattern = u := by
  have hgenerated : isGenerated named aliased = true := by
    simp [isGenerated, haliased, hname]
  have hrebuilt : ∀ {s : Site μ}, rule.Has hook s → ¬ Rebuilt hook identity m s o := by
    intro s hs h
    obtain ⟨inBad, -, heq⟩ := h.term
    have hsleft : s.position = .left := h.position.symm.trans hleft
    -- the alias is the alias of the rule, which is no generated variable
    have hget := getElem?_rebuild hook identity m s.address s.term s.position inBad 1
    have hhead := head_rebuild hook identity m s.address s.term s.position inBad
    rw [← heq, hterm] at hget hhead
    rw [← hhead] at hget
    obtain ⟨t, ht, htransform⟩ := Option.map_eq_some_iff.mp hget.symm
    have hsite : t ∈ s.term.children := List.mem_of_getElem? ht
    have hplain' : isGenerated named t = false := isGenerated_of_names fun name hname =>
      hplain name (hs.node.names (variableNames_child hsite hname))
    have hposition : childPosition (head (Term.as pattern aliased)) s.position 1 = .left := hsleft
    rw [hposition] at htransform
    rw [← htransform, transform, isGenerated_closeNode hplain'] at hgenerated
    cases hgenerated
  rcases image_of_has ho with ⟨s, hs, htransformed | h⟩ | ⟨name, sort, hvar⟩
  · rcases htransformed.cases with ⟨name, sort, hright, -⟩ | h |
      ⟨found, sort, pattern', hsleft, hlookup, hterm', h⟩
    · rw [← htransformed.position, hleft] at hright
      cases hright
    · exact absurd h (hrebuilt hs)
    · rw [hterm'] at hterm
      cases hterm
      cases haliased
      have hstrip := hnames _ _ hs.node _ _ hlookup
      rw [hname] at hstrip
      cases hstrip
      rw [← hsleft]
      exact expand_of_rebuilt hnames hplain hs h
  · exact absurd h (hrebuilt hs)
  · rw [hvar] at hterm
    cases hterm

end Named

section Bound

variable (hexact : ∀ b c t u, rule.Node b t → rule.Node c u →
    (identity b = identity c ↔ t.strip = u.strip))
  (hkeys : ∀ n, (m.cache.lookup n).isSome = true ↔
    ∃ s, rule.Gathers hook s ∧ s.Named ∧ identity s.address = n)

include hexact hkeys

/-- A variable that is used is bound on the left, outside of the top and of the places where nothing
is to be bound. -/
theorem exists_binding {name : String} (h : m.Uses name) :
    ∃ o, (rule.transformed hook identity m).Has hook o ∧ o.position = .left ∧ o.top = false ∧
      o.inside = false ∧ ∃ pattern sort, o.term = .as pattern (.var name sort) := by
  obtain ⟨n, sort, hlookup, hused⟩ := h
  obtain ⟨s, hs, hnamed, rfl⟩ := (hkeys n).mp (by rw [hlookup]; rfl)
  obtain ⟨t, ht, htNamed, hstrip⟩ := exists_live hexact hkeys hs hnamed
  rw [← (hexact _ _ _ _ ht.gathers.has.node hs.has.node).mpr hstrip] at hlookup hused
  obtain ⟨o, ho, htransformed⟩ := exists_transformed ht
  obtain ⟨hleft, htop, hopen, -, -⟩ := htNamed
  refine ⟨o, ho, htransformed.position.trans hleft, ?_, htransformed.inside.trans hopen, ?_⟩
  · rw [← Bool.not_eq_true]
    exact fun h => by rw [htransformed.top h] at htop; cases htop
  · obtain ⟨inBad, hbad, hterm⟩ := htransformed.term
    rw [hbad hopen, transform, closeNode, hlookup, hleft] at hterm
    refine ⟨keepMetadata t.term (rebuild hook identity m t.address t.term .left false), some sort,
      hterm.trans ?_⟩
    simp [hused]

end Bound

end Meaning

section Result

variable (hook : Label → Option String)

/-- What minimizing keeps and adds, where `named` gives the term of each generated variable. -/
structure Keeps (rule result : Rule μ) (named : String → Option (Term μ)) : Prop where
  body : expand named .both result.body = rule.body.strip
  requires : expand named .right result.requires = rule.requires.strip
  ensures : expand named .right result.ensures = rule.ensures.strip
  fresh : ∀ name u, named name = some u → name ∉ rule.variables
  single : ∀ name name' u, named name = some u → named name' = some u → name = name'
  aliases : ∀ o, result.Has hook o → o.position = .left → ∀ pattern aliased name sort u,
    o.term.unannotated = .as pattern aliased → aliased.unannotated = .var name sort →
      named name = some u → expand named .left pattern = u
  bound : ∀ name ∈ result.variables, name ∉ rule.variables → (named name).isSome = true ∧
    ∃ o, result.Has hook o ∧ o.position = .left ∧ o.top = false ∧ o.inside = false ∧
      ∃ pattern sort, o.term = .as pattern (.var name sort)

variable {hook} {identity : Address → Nat} {m : Minimizer} {rule : Rule μ}
  {inferSort mainInferSort : Term μ → Except E KSort}

theorem minimizer_spec (h : minimizer hook inferSort mainInferSort identity rule = .ok m) :
    ∃ m₀ : Minimizer,
      m₀.Names rule.variables (fun n => ∃ s, rule.Gathers hook s ∧ s.Named ∧
        identity s.address = n) ∧
      m = filterRhs identity [2] rule.ensures .right (filterRhs identity [1] rule.requires .right
        (filterRhs identity [0] rule.body .both m₀)) := by
  unfold minimizer at h
  obtain ⟨first, hfirst, h⟩ := Except.bind_eq_ok.mp h
  obtain ⟨second, hsecond, h⟩ := Except.bind_eq_ok.mp h
  obtain ⟨third, hthird, h⟩ := Except.bind_eq_ok.mp h
  cases h
  rw [gatherTerms_eq] at hfirst hsecond hthird
  have hstart : Minimizer.Names ⟨FreshNames.forTerms [rule.body, rule.requires, rule.ensures], [], []⟩
      rule.variables fun _ => False := by
    refine ⟨fun _ h => h, ?_, ?_, ?_, ?_⟩ <;> simp
  have hopen {root : Site μ} (hroot : root.inside = false) :
      ∀ s ∈ gathered hook root, s.inside = false := by
    intro s hs
    rcases Relation.ReflTransGen.cases_tail (mem_gathered.mp hs) with rfl | ⟨d, -, hd⟩
    · exact hroot
    · exact hd.2
  have hfirst' := (foldlM_names hstart (hopen rfl) hfirst).1
  have hsecond' := (foldlM_names hfirst' (hopen rfl) hsecond).1
  have hthird' := (foldlM_names hsecond' (hopen rfl) hthird).1
  refine ⟨third, { hthird' with lookup_iff := fun n => ?_ }, rfl⟩
  rw [hthird'.lookup_iff]
  simp only [mem_gathered, Rule.Gathers, Rule.roots, List.mem_cons, List.not_mem_nil, or_false,
    exists_eq_left, false_or, or_and_right, exists_or, or_assoc]

open Classical in
variable (hook identity m rule) in
/-- The term that a generated variable names. -/
noncomputable def namedTerm (name : String) : Option (Term μ) :=
  if h : ∃ s sort, rule.Gathers hook s ∧ s.Named ∧
      m.cache.lookup (identity s.address) = some (name, sort) then some h.choose.term.strip
  else none

variable (hook) in
/-- A generated variable names the terms of its number. -/
theorem namedTerm_eq_some {numbered : Nat → Prop} (hm : m.Names rule.variables numbered)
    (hexact : ∀ b c t u, rule.Node b t → rule.Node c u →
      (identity b = identity c ↔ t.strip = u.strip)) (name : String) (u : Term μ) :
    namedTerm hook identity m rule name = some u ↔ ∃ s sort, rule.Gathers hook s ∧ s.Named ∧
      m.cache.lookup (identity s.address) = some (name, sort) ∧ s.term.strip = u := by
  unfold namedTerm
  split
  · next h =>
    obtain ⟨sort, hgathers, hnamed, hlookup⟩ := h.choose_spec
    rw [Option.some.injEq]
    constructor
    · intro heq
      exact ⟨h.choose, sort, hgathers, hnamed, hlookup, heq⟩
    · rintro ⟨s, sort', hs, -, hlookup', rfl⟩
      exact (hexact _ _ _ _ hgathers.has.node hs.has.node).mp (hm.inj hlookup hlookup')
  · next h =>
    refine iff_of_false nofun ?_
    rintro ⟨s, sort, hs, hnamed, hlookup, -⟩
    exact h ⟨s, sort, hs, hnamed, hlookup⟩

variable [DecidableEq μ] [Inhabited μ]

theorem keeps_transformed (h : minimizer hook inferSort mainInferSort identity rule = .ok m)
    (hexact : ∀ b c t u, rule.Node b t → rule.Node c u →
      (identity b = identity c ↔ t.strip = u.strip)) :
    Keeps hook rule (rule.transformed hook identity m) (namedTerm hook identity m rule) := by
  obtain ⟨m₀, hnames, hfiltered⟩ := minimizer_spec h
  have hbody := filterRhs_marks identity rule.body [0] .both m₀
  have hrequires := filterRhs_marks identity rule.requires [1] .right
    (filterRhs identity [0] rule.body .both m₀)
  have hensures := filterRhs_marks identity rule.ensures [2] .right
    (filterRhs identity [1] rule.requires .right (filterRhs identity [0] rule.body .both m₀))
  rw [← hfiltered] at hensures
  have hm := (hbody.trans (hrequires.trans hensures)).names hnames
  have hspec {name : String} {u : Term μ} := namedTerm_eq_some hook hm hexact name u
  have hplain : ∀ name ∈ rule.variables, namedTerm hook identity m rule name = none := by
    intro name hname
    by_contra hne
    obtain ⟨u, hu⟩ := Option.ne_none_iff_exists'.mp hne
    obtain ⟨s, sort, -, -, hlookup, -⟩ := hspec.mp hu
    exact hm.fresh _ (mem_of_lookup hlookup) hname
  have hnamesAt : ∀ b u, rule.Node b u →
      NamesAt identity m (namedTerm hook identity m rule) b u := by
    intro b u hnode name sort hlookup
    obtain ⟨s, hs, hnamed, heq⟩ := (hm.lookup_iff _).mp (by rw [hlookup]; rfl)
    rw [← heq] at hlookup
    exact hspec.mpr ⟨s, sort, hs, hnamed, hlookup,
      (hexact _ _ _ _ hs.has.node hnode).mp heq⟩
  have hexpand {address : Address} {t : Term μ} {position : Position}
      (hnode : rule.Node address t) :
      expand (namedTerm hook identity m rule) position
        (transform hook identity m address t position false) = t.strip :=
    expand_transform (fun b u hbelow => hnamesAt b u (hnode.below hbelow))
      fun name hname => hplain name (hnode.names hname)
  refine ⟨hexpand (.inl (.here _ _)), hexpand (.inr (.inl (.here _ _))),
    hexpand (.inr (.inr (.here _ _))), ?_, ?_, ?_, ?_⟩
  · intro name u hu hname
    rw [hplain name hname] at hu
    cases hu
  · intro name name' u hname hname'
    obtain ⟨s, sort, hs, -, hlookup, hstrip⟩ := hspec.mp hname
    obtain ⟨s', sort', hs', -, hlookup', hstrip'⟩ := hspec.mp hname'
    rw [(hexact _ _ _ _ hs.has.node hs'.has.node).mpr (hstrip.trans hstrip'.symm), hlookup'] at hlookup
    cases hlookup
    rfl
  · intro o ho hleft pattern aliased name sort u hterm haliased hname
    exact expand_pattern hnamesAt hplain ho hleft hterm haliased hname
  · intro name hname hnew
    have huses {address : Address} {t : Term μ} {position : Position} {m₁ : Minimizer}
        (hnode : rule.Node address t) (hcache : m₁.cache = m.cache)
        (hused : (filterRhs identity address t position m₁).usedOnRhs ⊆ m.usedOnRhs)
        (hname : name ∈ variableNames (transform hook identity m address t position false)) :
        m.Uses name := by
      exact ((rebuiltNames t).transform hcache hused hname).resolve_left fun hin =>
        hnew (hnode.names hin)
    suffices hname : m.Uses name by
      refine ⟨?_, exists_binding hexact hm.lookup_iff hname⟩
      obtain ⟨n, sort, hlookup, -⟩ := hname
      obtain ⟨s, hs, hnamed, rfl⟩ := (hm.lookup_iff n).mp (by rw [hlookup]; rfl)
      rw [hspec.mpr ⟨s, sort, hs, hnamed, hlookup, rfl⟩]
      rfl
    rw [Rule.variables, List.mem_flatMap] at hname
    obtain ⟨t, ht, hname⟩ := hname
    simp only [List.mem_cons, List.not_mem_nil, or_false] at ht
    rcases ht with rfl | rfl | rfl
    · exact huses (.inl (.here _ _)) (hbody.trans (hrequires.trans hensures)).cache.symm
        (hrequires.trans hensures).used hname
    · exact huses (.inr (.inl (.here _ _))) (hrequires.trans hensures).cache.symm hensures.used hname
    · exact huses (.inr (.inr (.here _ _))) hensures.cache.symm
        (by rw [← hfiltered]; exact List.Subset.refl _) hname

/-- Minimizing a rule keeps its meaning, and the nodes of a rule have one number exactly when the
terms below them are equal. -/
theorem minimizeTermConstruction_keeps {result : Rule μ}
    (h : minimizeTermConstruction hook inferSort mainInferSort rule = some (.ok result)) :
    (∃ named, Keeps hook rule result named) ∧
      ∃ ids, Identities.forRule rule = some ids ∧ ∀ b c t u, rule.Node b t → rule.Node c u →
        (ids.of b = ids.of c ↔ t.strip = u.strip) := by
  simp only [minimizeTermConstruction, Option.bind_eq_bind, Option.bind_eq_some_iff] at h
  obtain ⟨ids, hids, h⟩ := h
  obtain ⟨m, hm, hresult⟩ := Except.bind_eq_ok.mp (Option.some.inj h)
  cases hresult
  have hexact : ∀ b c t u, rule.Node b t → rule.Node c u →
      (ids.of b = ids.of c ↔ t.strip = u.strip) :=
    fun b c t u ht hu => Identities.of_eq_iff hids ht hu
  exact ⟨⟨_, keeps_transformed hm hexact⟩, ids, hids, hexact⟩

/-- Gathering fails only for want of a sort. -/
theorem exists_minimizer (hook : Label → Option String) (identity : Address → Nat) (rule : Rule μ)
    (hsorts : ∀ t : Term μ, ∃ sort, inferSort t = .ok sort)
    (mainInferSort : Term μ → Except E KSort) :
    ∃ m, minimizer hook inferSort mainInferSort identity rule = .ok m := by
  have hname (m : Minimizer) (s : Site μ) :
      ∃ m', nameSite inferSort mainInferSort identity m s = .ok m' := by
    obtain ⟨sort, hsort⟩ := hsorts s.term.unannotated
    unfold nameSite nameTerm sortOf
    split
    · rw [hsort]
      exact ⟨_, rfl⟩
    · exact ⟨_, rfl⟩
  have hgather (m : Minimizer) (sites : List (Site μ)) :
      ∃ m', sites.foldlM (nameSite inferSort mainInferSort identity) m = .ok m' := by
    induction sites generalizing m with
    | nil => exact ⟨m, rfl⟩
    | cons s sites ih =>
      obtain ⟨m', hm'⟩ := hname m s
      obtain ⟨m'', hm''⟩ := ih m'
      exact ⟨m'', by rw [List.foldlM_cons, hm']; exact hm''⟩
  simp only [minimizer, gatherTerms_eq]
  obtain ⟨first, hfirst⟩ := hgather ⟨FreshNames.forTerms [rule.body, rule.requires, rule.ensures], [],
    []⟩ (gathered hook ⟨[0], rule.body, .both, true, false⟩)
  obtain ⟨second, hsecond⟩ := hgather first (gathered hook ⟨[1], rule.requires, .right, true, false⟩)
  obtain ⟨third, hthird⟩ := hgather second (gathered hook ⟨[2], rule.ensures, .right, true, false⟩)
  exact ⟨_, Except.bind_eq_ok.mpr ⟨first, hfirst, Except.bind_eq_ok.mpr ⟨second, hsecond,
    Except.bind_eq_ok.mpr ⟨third, hthird, rfl⟩⟩⟩⟩

/-- `k(f(a) => g(a))` -/
def sharingRule : Rule Unit where
  body := .apply ⟨"k", []⟩ [.rewrite (.apply ⟨"f", []⟩ [.apply ⟨"a", []⟩ []])
    (.apply ⟨"g", []⟩ [.apply ⟨"a", []⟩ []])]
  requires := .token "true" (.mk "Bool" [])
  ensures := .token "true" (.mk "Bool" [])

theorem sharingRule_keeps : ∃ result,
    minimizeTermConstruction (fun _ => none) (fun _ => .ok (.mk "S" []))
      (fun _ => (.error "no sort" : Except String KSort)) sharingRule = some (.ok result) ∧
    ∃ named, Keeps (fun _ => none) sharingRule result named := by
  obtain ⟨ids, hids⟩ : ∃ ids, Identities.forRule sharingRule = some ids := by
    simp [Identities.forRule, Identities.number, Identities.run, sharingRule, subterms,
      Term.children, Term.unannotated, Numbering.entry, Numbering.empty, Numbering.get_cons, head,
      List.lookup_cons]
  have hsorts : ∀ t : Term Unit, ∃ sort, (fun _ => .ok (.mk "S" []) : Term Unit →
      Except String KSort) t = .ok sort := fun _ => ⟨_, rfl⟩
  obtain ⟨m, hm⟩ := exists_minimizer (fun _ => none) ids.of sharingRule hsorts
    fun _ => .error "no sort"
  have hresult : minimizeTermConstruction (fun _ => none) (fun _ => .ok (.mk "S" []))
      (fun _ => (.error "no sort" : Except String KSort)) sharingRule =
        some (.ok (sharingRule.transformed (fun _ => none) ids.of m)) := by
    rw [minimizeTermConstruction, hids, Option.bind_eq_bind, Option.bind_some, hm]
    rfl
  exact ⟨_, hresult, (minimizeTermConstruction_keeps hresult).1⟩

end Result

end KRust.Kompile
