import KRust.Backend.Apart

/-!
What a step of the apartness search decides, and that the search gives the same answer by recursion
alone and with its work list.
-/

set_option linter.unusedSectionVars false

namespace KRust.Backend

open KRust.Kore Lib
open KRust.Lib.Search (anyFound Expansion Answers searchPending)

section Sorts

/-- A sort with its sort variables replaced. -/
def assign (valuation : String → KoreSort) : KoreSort → KoreSort
  | .var name => valuation name
  | .application name arguments => .application name (assignAll arguments)
where
  assignAll : List KoreSort → List KoreSort
  | [] => []
  | s :: sorts => assign valuation s :: assignAll sorts

@[simp]
theorem assignAll_eq (valuation : String → KoreSort) (sorts : List KoreSort) :
    assign.assignAll valuation sorts = sorts.map (assign valuation) := by
  induction sorts with
  | nil => rfl
  | cons s sorts ih => rw [assign.assignAll, ih, List.map_cons]

mutual

/-- Distinct sorts have no instance in common. -/
theorem assign_ne {left right : KoreSort} (h : sortRelation left right = .distinct)
    (valuation : String → KoreSort) : assign valuation left ≠ assign valuation right := by
  match left, right with
  | .application leftHead leftArguments, .application rightHead rightArguments =>
    rw [sortRelation] at h
    rw [assign, assign, assignAll_eq, assignAll_eq, Ne, KoreSort.application.injEq]
    rintro ⟨rfl, harguments⟩
    rw [if_pos rfl] at h
    exact map_assign_ne h valuation harguments
  | .var left, .var right => grind [sortRelation]
  | .var _, .application _ _ => cases h
  | .application _ _, .var _ => cases h

theorem map_assign_ne {lefts rights : List KoreSort}
    (h : sortListRelation lefts rights = .distinct) (valuation : String → KoreSort) :
    lefts.map (assign valuation) ≠ rights.map (assign valuation) := by
  match lefts, rights with
  | [], [] => cases h
  | left :: lefts, right :: rights =>
    rw [List.map_cons, List.map_cons, Ne, List.cons.injEq]
    rintro ⟨hhead, htail⟩
    cases hleft : sortRelation left right with
    | distinct => exact assign_ne hleft valuation hhead
    | _ =>
      cases hrest : sortListRelation lefts rights with
      | distinct => exact map_assign_ne hrest valuation htail
      | _ => simp [sortListRelation, hleft, hrest] at h
  | [], _ :: _ => simp
  | _ :: _, [] => simp

end

mutual

theorem eq_of_sortRelation {left right : KoreSort} (h : sortRelation left right = .equal) :
    left = right := by
  match left, right with
  | .application leftHead leftArguments, .application rightHead rightArguments =>
    rw [sortRelation] at h
    split at h
    · rename_i hhead
      rw [hhead, eq_of_sortListRelation h]
    · cases h
  | .var left, .var right => grind [sortRelation]
  | .var _, .application _ _ => cases h
  | .application _ _, .var _ => cases h

theorem eq_of_sortListRelation {lefts rights : List KoreSort}
    (h : sortListRelation lefts rights = .equal) : lefts = rights := by
  match lefts, rights with
  | [], [] => rfl
  | left :: lefts, right :: rights =>
    cases hleft : sortRelation left right with
    | equal =>
      cases hrest : sortListRelation lefts rights with
      | equal => rw [eq_of_sortRelation hleft, eq_of_sortListRelation hrest]
      | _ => simp [sortListRelation, hleft, hrest] at h
    | _ => cases hrest : sortListRelation lefts rights <;> simp [sortListRelation, hleft, hrest] at h
  | [], _ :: _ => cases h
  | _ :: _, [] => cases h

end

mutual

theorem sortRelation_self (s : KoreSort) : sortRelation s s = .equal := by
  match s with
  | .application head arguments => rw [sortRelation, if_pos rfl, sortListRelation_self]
  | .var name => rw [sortRelation, if_pos rfl]

theorem sortListRelation_self (sorts : List KoreSort) :
    sortListRelation sorts sorts = .equal := by
  match sorts with
  | [] => rfl
  | s :: sorts => rw [sortListRelation, sortRelation_self, sortListRelation_self]

end

end Sorts

section Steps

/-- A symbol whose applications have the symbol as the root of their values. -/
def FreeHead (symbol : TermSymbol) (claimed : Bool) : Prop :=
  symbol.attributes.headRole = .freeConstructor ∨
    (symbol.attributes.headRole = .equationHead ∧ claimed = true)

theorem apartRoot_application {symbol : TermSymbol} {sortArguments : List KoreSort}
    {arguments : List Handle} {claimed : Bool} {root : FixedRoot}
    (h : apartRoot (.application symbol sortArguments arguments claimed) = some root) :
    FreeHead symbol claimed ∧ (root = .freeConstructor ∨ root = .equationHead) := by
  rw [apartRoot] at h
  cases hrole : symbol.attributes.headRole with
  | freeConstructor =>
    simp only [hrole, Option.some.injEq] at h
    exact ⟨.inl hrole, .inl h.symm⟩
  | equationHead =>
    simp only [hrole] at h
    cases claimed with
    | false => cases h
    | true => exact ⟨.inr ⟨hrole, rfl⟩, .inr (Option.some.inj h).symm⟩
  | _ => simp [hrole] at h

theorem FreeHead.apartRoot {symbol : TermSymbol} {claimed : Bool} (h : FreeHead symbol claimed)
    (sortArguments : List KoreSort) (arguments : List Handle) :
    ∃ root, apartRoot (.application symbol sortArguments arguments claimed) = some root ∧
      (root = .freeConstructor ∨ root = .equationHead) := by
  cases h with
  | inl hrole => exact ⟨.freeConstructor, by rw [Backend.apartRoot, hrole], .inl rfl⟩
  | inr hmark =>
    refine ⟨.equationHead, ?_, .inr rfl⟩
    rw [Backend.apartRoot, hmark.1, hmark.2]
    rfl

variable (injections : Handle → Handle → InjectionComparison)

/-- What a step can decide, and from what. -/
inductive StepSpec : Handle → Handle → ApartStep → Prop where
  | undecided (left right : Handle) : StepSpec left right .undecided
  | applications {f g : TermSymbol} {ss ts : List KoreSort} (as bs : List Handle) {c d : Bool} :
    FreeHead f c → FreeHead g d → (f.name ≠ g.name ∨ sortListRelation ss ts = .distinct) →
      StepSpec (.application f ss as c) (.application g ts bs d) .apart
  | applicationInjection {f : TermSymbol} (ss : List KoreSort) (as : List Handle) {c : Bool}
    (source target : KoreSort) (operand : Handle) : FreeHead f c →
      StepSpec (.application f ss as c) (.injection source target operand) .apart
  | injectionApplication {f : TermSymbol} (ss : List KoreSort) (as : List Handle) {c : Bool}
    (source target : KoreSort) (operand : Handle) : FreeHead f c →
      StepSpec (.injection source target operand) (.application f ss as c) .apart
  | domainValues {s t : KoreSort} {x y : KoreString} :
    (x ≠ y ∨ sortRelation s t = .distinct) →
      StepSpec (.domainValue s x) (.domainValue t y) .apart
  | injections {s t s' t' : KoreSort} {u w : Handle} :
    injections (.injection s t u) (.injection s' t' w) = .distinct →
      StepSpec (.injection s t u) (.injection s' t' w) .apart
  | arguments {f g : TermSymbol} {ss : List KoreSort} {as bs : List Handle} {c d : Bool} :
    FreeHead f c → FreeHead g d → f.name = g.name → as.length = bs.length →
      StepSpec (.application f ss as c) (.application g ss bs d) (.arguments (as.zip bs))
  | operands (s t : KoreSort) (u w : Handle) :
    StepSpec (.injection s t u) (.injection s t w) (.operands u w)
  | compared {s t s' t' : KoreSort} {u w left right : Handle} :
    injections (.injection s t u) (.injection s' t' w) = .compare left right →
      StepSpec (.injection s t u) (.injection s' t' w) (.comparedOperands left right)

theorem injectionStep_spec (s t s' t' : KoreSort) (u w : Handle) :
    StepSpec injections (.injection s t u) (.injection s' t' w)
      (injectionStep injections (.injection s t u) (.injection s' t' w)) := by
  rw [injectionStep]
  split
  · rename_i hsorts
    obtain ⟨rfl, rfl⟩ := hsorts
    exact .operands s t u w
  · cases hcompare : injections (.injection s t u) (.injection s' t' w) with
    | distinct => exact .injections hcompare
    | compare left right => exact .compared hcompare
    | undecided => exact .undecided _ _

/-- The terms whose values have a root. -/
inductive RootShape : Handle → FixedRoot → Prop where
  | domainValue (s : KoreSort) (x : KoreString) : RootShape (.domainValue s x) .domainValue
  | injection (s t : KoreSort) (u : Handle) : RootShape (.injection s t u) .injection
  | collection (t : Handle) (kind : CollectionKind) : RootShape t (.collection kind)
  | freeConstructor {f : TermSymbol} (ss : List KoreSort) (as : List Handle) {c : Bool} :
    FreeHead f c → RootShape (.application f ss as c) .freeConstructor
  | equationHead {f : TermSymbol} (ss : List KoreSort) (as : List Handle) {c : Bool} :
    FreeHead f c → RootShape (.application f ss as c) .equationHead

theorem rootShape {t : Handle} {root : FixedRoot} (h : apartRoot t = some root) :
    RootShape t root := by
  cases t with
  | domainValue s x =>
    cases h
    exact .domainValue s x
  | injection s t u =>
    cases h
    exact .injection s t u
  | application f ss as c =>
    obtain ⟨hfree, rfl | rfl⟩ := apartRoot_application h
    · exact .freeConstructor ss as hfree
    · exact .equationHead ss as hfree
  | map d entries rest =>
    cases h
    exact .collection _ _
  | list d heads rest =>
    cases h
    exact .collection _ _
  | set d elements rest =>
    cases h
    exact .collection _ _
  | _ => cases h

/-- The outcome of a comparison of roots. -/
def compared (left right : Handle) (leftRoot rightRoot : FixedRoot) : ApartStep :=
  match compareRoots left leftRoot right rightRoot with
  | .distinct => if distinctRootsDecide leftRoot rightRoot then .apart else .undecided
  | .sameApplication pairs => .arguments pairs
  | .domainValues => if domainValuesApart left right then .apart else .undecided
  | .injections => injectionStep injections left right
  | .arityMismatch | .openSortArguments | .collections _ => .undecided

theorem apartStep_eq (left right : Handle) : apartStep injections left right =
    if left.term = right.term then .undecided
    else
      match apartRoot left, apartRoot right with
      | some leftRoot, some rightRoot => compared injections left right leftRoot rightRoot
      | _, _ => .undecided := rfl

theorem injectionStep_ne_arguments (left right : Handle) (pairs : List (Handle × Handle)) :
    injectionStep injections left right ≠ .arguments pairs := by
  unfold injectionStep
  split
  · split
    · exact nofun
    · split <;> exact nofun
  · exact nofun

theorem compareRoots_of_arguments {left right : Handle} {leftRoot rightRoot : FixedRoot}
    {pairs : List (Handle × Handle)}
    (h : compared injections left right leftRoot rightRoot = .arguments pairs) :
    compareRoots left leftRoot right rightRoot = .sameApplication pairs := by
  rw [compared] at h
  cases hroots : compareRoots left leftRoot right rightRoot with
  | sameApplication same =>
    simp only [hroots, ApartStep.arguments.injEq] at h
    rw [h]
  | injections =>
    simp only [hroots] at h
    exact absurd h (injectionStep_ne_arguments injections left right pairs)
  | distinct =>
    simp only [hroots] at h
    split at h <;> cases h
  | domainValues =>
    simp only [hroots] at h
    split at h <;> cases h
  | _ => simp [hroots] at h

theorem compareApplications_spec {f g : TermSymbol} (ss ts : List KoreSort) (as bs : List Handle)
    (c d : Bool) :
    (compareApplications (.application f ss as c) (.application g ts bs d) = .distinct ∧
        (f.name ≠ g.name ∨ sortListRelation ss ts = .distinct)) ∨
      (compareApplications (.application f ss as c) (.application g ts bs d) =
          .sameApplication (as.zip bs) ∧ f.name = g.name ∧ ss = ts ∧ as.length = bs.length) ∨
      compareApplications (.application f ss as c) (.application g ts bs d) = .openSortArguments ∨
      compareApplications (.application f ss as c) (.application g ts bs d) = .arityMismatch := by
  rw [compareApplications]
  by_cases hname : f.name = g.name
  · rw [if_neg (not_not.mpr hname)]
    cases hsorts : sortListRelation ss ts with
    | distinct => exact .inl ⟨rfl, .inr rfl⟩
    | unsettled => exact .inr (.inr (.inl rfl))
    | equal =>
      by_cases hlen : as.length = bs.length
      · refine .inr (.inl ⟨if_neg (not_not.mpr hlen), hname, eq_of_sortListRelation hsorts, hlen⟩)
      · exact .inr (.inr (.inr (if_pos hlen)))
  · exact .inl ⟨if_pos hname, .inl hname⟩

theorem compared_applications {f g : TermSymbol} (ss ts : List KoreSort) (as bs : List Handle)
    {c d : Bool} (hf : FreeHead f c) (hg : FreeHead g d) {leftRoot rightRoot : FixedRoot}
    (hleft : leftRoot = .freeConstructor ∨ leftRoot = .equationHead)
    (hright : rightRoot = .freeConstructor ∨ rightRoot = .equationHead) :
    StepSpec injections (.application f ss as c) (.application g ts bs d)
      (compared injections (.application f ss as c) (.application g ts bs d) leftRoot
        rightRoot) := by
  have hroots : compareRoots (.application f ss as c) leftRoot (.application g ts bs d) rightRoot =
      compareApplications (.application f ss as c) (.application g ts bs d) := by
    obtain rfl | rfl := hleft <;> obtain rfl | rfl := hright <;> rfl
  have hdecide : distinctRootsDecide leftRoot rightRoot = true := by
    obtain rfl | rfl := hleft <;> obtain rfl | rfl := hright <;> rfl
  rw [compared, hroots]
  obtain ⟨heq, hdiffer⟩ | ⟨heq, hname, rfl, hlen⟩ | heq | heq :=
    compareApplications_spec ss ts as bs c d
  · rw [heq]
    simp only [hdecide, if_true]
    exact .applications as bs hf hg hdiffer
  · rw [heq]
    exact .arguments hf hg hname hlen
  · rw [heq]
    exact .undecided _ _
  · rw [heq]
    exact .undecided _ _

theorem compared_spec {left right : Handle} {leftRoot rightRoot : FixedRoot}
    (hleft : RootShape left leftRoot) (hright : RootShape right rightRoot) :
    StepSpec injections left right (compared injections left right leftRoot rightRoot) := by
  cases hleft with
  | domainValue s x =>
    cases hright with
    | domainValue t y =>
      rw [compared, compareRoots]
      by_cases hapart : domainValuesApart (.domainValue s x) (.domainValue t y) = true
      · simp only [hapart, if_true]
        exact .domainValues (by simpa [domainValuesApart] using hapart)
      · simp only [hapart]
        exact .undecided _ _
    | _ => exact .undecided _ _
  | injection s t u =>
    cases hright with
    | injection s' t' w => exact injectionStep_spec injections s t s' t' u w
    | freeConstructor ss as hf => exact .injectionApplication ss as s t u hf
    | equationHead ss as hf => exact .injectionApplication ss as s t u hf
    | _ => exact .undecided _ _
  | collection _ kind =>
    cases hright with
    | collection _ kind' =>
      rw [compared, compareRoots]
      by_cases hkind : kind' = kind
      · rw [if_pos hkind]
        exact .undecided _ _
      · rw [if_neg hkind]
        exact .undecided _ _
    | _ => exact .undecided _ _
  | freeConstructor ss as hf =>
    cases hright with
    | injection s t u => exact .applicationInjection ss as s t u hf
    | freeConstructor ts bs hg =>
      exact compared_applications injections ss ts as bs hf hg (.inl rfl) (.inl rfl)
    | equationHead ts bs hg =>
      exact compared_applications injections ss ts as bs hf hg (.inl rfl) (.inr rfl)
    | _ => exact .undecided _ _
  | equationHead ss as hf =>
    cases hright with
    | injection s t u => exact .applicationInjection ss as s t u hf
    | freeConstructor ts bs hg =>
      exact compared_applications injections ss ts as bs hf hg (.inr rfl) (.inl rfl)
    | equationHead ts bs hg =>
      exact compared_applications injections ss ts as bs hf hg (.inr rfl) (.inr rfl)
    | _ => exact .undecided _ _

theorem apartStep_spec (left right : Handle) :
    StepSpec injections left right (apartStep injections left right) := by
  rw [apartStep_eq]
  split
  · exact .undecided _ _
  · cases hleft : apartRoot left with
    | none => exact .undecided _ _
    | some leftRoot =>
      cases hright : apartRoot right with
      | none => exact .undecided _ _
      | some rightRoot => exact compared_spec injections (rootShape hleft) (rootShape hright)

theorem apartStep_of_eq {left right : Handle} (h : left.term = right.term) :
    apartStep injections left right = .undecided := if_pos h

end Steps

section Agree

variable {injections : Handle → Handle → InjectionComparison}

/-- What a pair of the search leads to. -/
def expand (injections : Handle → Handle → InjectionComparison) (pair : Handle × Handle) :
    Expansion (Handle × Handle) :=
  match apartStep injections pair.1 pair.2 with
  | .apart => .found
  | .undecided => .children []
  | .arguments pairs => .children pairs
  | .operands left right | .comparedOperands left right => .children [(left, right)]

theorem anyFound_singleton {α : Type} (search : α → Option Bool) (a : α) :
    anyFound search [a] = search a := by
  rw [anyFound]
  cases search a with
  | none => rfl
  | some answer => cases answer <;> rfl

theorem apartRecursively_eq (depth : Nat) (left right : Handle) :
    apartRecursively injections depth left right =
      Search.search (expand injections) depth (left, right) := by
  induction depth generalizing left right with
  | zero => rfl
  | succ depth ih =>
    have hpairs : (fun pair : Handle × Handle =>
        apartRecursively injections depth pair.1 pair.2) =
          Search.search (expand injections) depth := funext fun pair => ih pair.1 pair.2
    rw [apartRecursively, Search.search, expand]
    cases apartStep injections left right with
    | apart => rfl
    | undecided => rfl
    | arguments pairs => simp only [hpairs]
    | operands l r => simp only [ih, anyFound_singleton]
    | comparedOperands l r => simp only [ih, anyFound_singleton]

/-- The argument pairs that a frame has left. -/
def ApartFrame.remaining (frame : ApartFrame) : List (Handle × Handle) :=
  (frame.arguments.getD []).drop frame.tried

/-- A frame of a pair of applications of one free symbol. -/
def ApartFrame.Valid (frame : ApartFrame) : Prop :=
  ∃ pairs, sameApplication frame.left frame.right = some pairs ∧ frame.arguments = some pairs

theorem liftApart_eq {frames : List ApartFrame} (h : ∀ frame ∈ frames, frame.Valid) :
    liftApart frames = some true := by
  induction frames with
  | nil => rfl
  | cons frame frames ih =>
    obtain ⟨hframe, hframes⟩ := List.forall_mem_cons.mp h
    obtain ⟨pairs, hsame, _⟩ := hframe
    rw [liftApart, hsame]
    exact ih hframes

/-- The next pair is the first one that a frame has left. -/
theorem nextPair_spec {frames : List ApartFrame} (h : ∀ frame ∈ frames, frame.Valid) :
    (nextPair frames = some none ∧ frames.flatMap ApartFrame.remaining = []) ∨
      ∃ pair rest, nextPair frames = some (some (pair, rest)) ∧
        frames.flatMap ApartFrame.remaining = pair :: rest.flatMap ApartFrame.remaining ∧
          ∀ frame ∈ rest, frame.Valid := by
  induction frames with
  | nil => exact .inl ⟨rfl, rfl⟩
  | cons frame frames ih =>
    obtain ⟨hframe, hframes⟩ := List.forall_mem_cons.mp h
    obtain ⟨pairs, hsame, hpairs⟩ := hframe
    have hremaining : frame.remaining = pairs.drop frame.tried := by
      rw [ApartFrame.remaining, hpairs, Option.getD_some]
    rw [nextPair, hpairs, List.flatMap_cons, hremaining]
    simp only [Option.bind_eq_bind, Option.bind_some]
    cases hget : pairs[frame.tried]? with
    | none =>
      rw [List.drop_eq_nil_of_le (List.getElem?_eq_none_iff.mp hget), List.nil_append]
      exact ih hframes
    | some pair =>
      obtain ⟨hlt, hpair⟩ := List.getElem?_eq_some_iff.mp hget
      refine .inr ⟨pair, { frame with tried := frame.tried + 1 } :: frames, rfl, ?_, ?_⟩
      · have hnext : ApartFrame.remaining { frame with tried := frame.tried + 1 } =
            pairs.drop (frame.tried + 1) := by
          have harguments : ApartFrame.arguments { frame with tried := frame.tried + 1 } =
              some pairs := hpairs
          rw [ApartFrame.remaining, harguments, Option.getD_some]
        rw [List.flatMap_cons, hnext, List.drop_eq_getElem_cons hlt, hpair]
        rfl
      · exact List.forall_mem_cons.mpr ⟨⟨pairs, hsame, hpairs⟩, hframes⟩

/-- A pair whose arguments are searched becomes a frame that has all of them left. -/
theorem valid_of_arguments {left right : Handle} {pairs : List (Handle × Handle)}
    (h : apartStep injections left right = .arguments pairs) :
    ApartFrame.Valid ⟨left, right, 0⟩ ∧ ApartFrame.remaining ⟨left, right, 0⟩ = pairs := by
  have hspec := apartStep_spec injections left right
  rw [h] at hspec
  have hsame : sameApplication left right = some pairs := by
    rw [apartStep_eq] at h
    split at h
    · cases h
    · rw [sameApplication]
      cases hleft : apartRoot left with
      | none => simp [hleft] at h
      | some leftRoot =>
        cases hright : apartRoot right with
        | none => simp [hleft, hright] at h
        | some rightRoot =>
          simp only [hleft, hright] at h ⊢
          rw [compareRoots_of_arguments injections h]
  cases hspec with
  | arguments hf hg hname hlen => exact ⟨⟨_, hsame, rfl⟩, rfl⟩

/-- The work list searches its pair and then what its frames have left. -/
theorem workList_eq (steps : Nat) {frames : List ApartFrame} (left right : Handle)
    (h : ∀ frame ∈ frames, frame.Valid) :
    workList injections steps frames left right =
      searchPending (expand injections) steps
        ((left, right) :: frames.flatMap ApartFrame.remaining) := by
  induction steps generalizing frames left right with
  | zero => rfl
  | succ steps ih =>
    have hresume : ∀ frames : List ApartFrame, (∀ frame ∈ frames, frame.Valid) →
        resume (workList injections steps) frames =
          searchPending (expand injections) steps (frames.flatMap ApartFrame.remaining) := by
      intro frames hframes
      rw [resume]
      obtain ⟨hnext, hremaining⟩ | ⟨pair, rest, hnext, hremaining, hrest⟩ := nextPair_spec hframes
      · rw [hnext, hremaining]
        cases steps <;> rfl
      · rw [hnext, hremaining]
        exact ih pair.1 pair.2 hrest
    rw [workList, searchPending, expand]
    cases hstep : apartStep injections left right with
    | apart => exact liftApart_eq h
    | undecided => exact hresume frames h
    | arguments pairs =>
      obtain ⟨hvalid, hremaining⟩ := valid_of_arguments hstep
      have hframes := hresume _ (List.forall_mem_cons.mpr ⟨hvalid, h⟩)
      rw [List.flatMap_cons, hremaining] at hframes
      exact hframes
    | operands l r => exact ih l r h
    | comparedOperands l r => exact ih l r h

theorem apartOnWorkList_iff {left right : Handle} {answer : Bool} :
    (∃ steps, apartOnWorkList injections steps left right = some answer) ↔
      Answers (expand injections) [(left, right)] answer := by
  rw [← Search.searchPending_iff]
  exact exists_congr fun steps => by
    rw [apartOnWorkList, workList_eq steps left right (by simp), List.flatMap_nil]

theorem apartByRecursion_mono {steps steps' : Nat} (hle : steps ≤ steps') {levels : Nat}
    {left right : Handle} {answer : Bool}
    (h : apartByRecursion injections steps levels left right = some answer) :
    apartByRecursion injections steps' levels left right = some answer := by
  induction levels generalizing left right answer with
  | zero =>
    rw [apartByRecursion] at h ⊢
    cases hstep : apartStep injections left right with
    | apart => simpa only [hstep] using h
    | undecided => simpa only [hstep] using h
    | _ =>
      simp only [hstep, apartOnWorkList] at h ⊢
      rw [workList_eq _ _ _ (by simp)] at h ⊢
      exact Search.searchPending_mono hle h
  | succ levels ih =>
    rw [apartByRecursion] at h ⊢
    cases hstep : apartStep injections left right with
    | apart => simpa only [hstep] using h
    | undecided => simpa only [hstep] using h
    | arguments pairs =>
      simp only [hstep] at h ⊢
      exact Search.anyFound_mono (fun _ _ => ih) h
    | operands l r =>
      simp only [hstep] at h ⊢
      exact ih h
    | comparedOperands l r =>
      simp only [hstep] at h ⊢
      exact ih h

/-- Recursion for some levels and then the work list give the answer of the search. -/
theorem apartByRecursion_iff {levels : Nat} {left right : Handle} {answer : Bool} :
    (∃ steps, apartByRecursion injections steps levels left right = some answer) ↔
      Answers (expand injections) [(left, right)] answer := by
  induction levels generalizing left right answer with
  | zero =>
    cases hstep : apartStep injections left right with
    | apart =>
      rw [Search.answers_found (by rw [expand, hstep])]
      simp [apartByRecursion, hstep, eq_comm]
    | undecided =>
      rw [Search.answers_children (show expand _ _ = .children [] by rw [expand, hstep]), Search.answers_nil]
      simp [apartByRecursion, hstep, eq_comm]
    | _ =>
      rw [← apartOnWorkList_iff]
      exact exists_congr fun steps => by rw [apartByRecursion, hstep]
  | succ levels ih =>
    cases hstep : apartStep injections left right with
    | apart =>
      rw [Search.answers_found (by rw [expand, hstep])]
      simp [apartByRecursion, hstep, eq_comm]
    | undecided =>
      rw [Search.answers_children (show expand _ _ = .children [] by rw [expand, hstep]), Search.answers_nil]
      simp [apartByRecursion, hstep, eq_comm]
    | arguments pairs =>
      rw [Search.answers_children (show expand _ _ = .children pairs by rw [expand, hstep]),
        ← Search.anyFound_iff (f := fun steps pair =>
          apartByRecursion injections steps levels pair.1 pair.2)
          (fun hle _ _ => apartByRecursion_mono hle) fun _ _ => ih]
      exact exists_congr fun steps => by rw [apartByRecursion, hstep]
    | operands l r =>
      rw [Search.answers_children (show expand _ _ = .children [(l, r)] by rw [expand, hstep]), ← ih]
      exact exists_congr fun steps => by rw [apartByRecursion, hstep]
    | comparedOperands l r =>
      rw [Search.answers_children (show expand _ _ = .children [(l, r)] by rw [expand, hstep]), ← ih]
      exact exists_congr fun steps => by rw [apartByRecursion, hstep]

theorem apartRecursively_iff {left right : Handle} {answer : Bool} :
    (∃ depth, apartRecursively injections depth left right = some answer) ↔
      Answers (expand injections) [(left, right)] answer := by
  rw [Search.answers_singleton]
  exact exists_congr fun depth => by rw [apartRecursively_eq]

end Agree

end KRust.Backend
