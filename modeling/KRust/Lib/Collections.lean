import Mathlib.Data.List.Sort

/-!
Collections with a rest that may be a collection itself: sorted items before a rest, and items
on both sides of a middle. Both are kept flat, and a change of the items and of the rest gives
the flat form of what it gives.
-/

namespace KRust.Lib

/-- A total order given as a test. -/
structure IsOrder {ι : Type} (le : ι → ι → Bool) : Prop where
  total : ∀ a b, le a b || le b a
  trans : ∀ a b c, le a b → le b c → le a c
  antisymm : ∀ a b, le a b → le b a → a = b

section Sorted

variable {ι : Type} {le : ι → ι → Bool} (hle : IsOrder le)
include hle

theorem IsOrder.eq_of_perm {xs ys : List ι} (hx : xs.Pairwise (le · ·))
    (hy : ys.Pairwise (le · ·)) (h : xs.Perm ys) : xs = ys :=
  h.eq_of_pairwise (fun a b _ _ => hle.antisymm a b) hx hy

theorem IsOrder.sorted_merge {xs ys : List ι} (hx : xs.Pairwise (le · ·))
    (hy : ys.Pairwise (le · ·)) : (xs.merge ys le).Pairwise (le · ·) :=
  List.pairwise_merge hle.trans hle.total xs ys hx hy

theorem IsOrder.sorted_mergeSort (xs : List ι) : (xs.mergeSort le).Pairwise (le · ·) :=
  List.pairwise_mergeSort hle.trans hle.total xs

/-- Items that are changed, some of them before they are merged and some after. -/
theorem IsOrder.merge_mergeSort_map {κ : Type} (g : κ → ι) {le' : κ → κ → Bool}
    (xs ys : List κ) :
    ((xs.map g).mergeSort le).merge ((ys.map g).mergeSort le) le =
      ((xs.merge ys le').map g).mergeSort le := by
  apply hle.eq_of_perm
  · exact hle.sorted_merge (hle.sorted_mergeSort _) (hle.sorted_mergeSort _)
  · exact hle.sorted_mergeSort _
  · refine (List.merge_perm_append ..).trans ?_
    refine ((List.mergeSort_perm ..).append (List.mergeSort_perm ..)).trans ?_
    rw [← List.map_append]
    refine List.Perm.trans ?_ (List.mergeSort_perm ..).symm
    exact ((List.merge_perm_append ..).symm).map g

/-- Items that are put in order before they are changed and after. -/
theorem IsOrder.mergeSort_mergeSort_map {κ : Type} (g : κ → ι) (le' : κ → κ → Bool)
    (xs : List κ) : ((xs.mergeSort le').map g).mergeSort le = (xs.map g).mergeSort le := by
  apply hle.eq_of_perm (hle.sorted_mergeSort _) (hle.sorted_mergeSort _)
  refine (List.mergeSort_perm ..).trans (List.Perm.trans ?_ (List.mergeSort_perm ..).symm)
  exact (List.mergeSort_perm ..).map g

end Sorted

/-- A kind of value with sorted items and perhaps a rest. -/
structure Collection (T ι : Type) where
  node : List ι → Option T → T
  /-- A value of another kind is its own rest. -/
  parts : T → List ι × Option T
  parts_node : ∀ items rest, parts (node items rest) = (items, rest)
  node_or_rest : ∀ t, (∃ items rest, t = node items rest) ∨ parts t = ([], some t)

namespace Collection

variable {T ι : Type} (c : Collection T ι)

/-- No items before a rest are the rest. -/
def ofParts : List ι × Option T → T
  | ([], some rest) => rest
  | (items, rest) => c.node items rest

def restParts : Option T → List ι × Option T
  | none => ([], none)
  | some rest => c.parts rest

/-- Items before a rest, joined with the rest's own. -/
def build (le : ι → ι → Bool) (items : List ι) (rest : Option T) : T :=
  c.ofParts ((c.restParts rest).1.merge items le, (c.restParts rest).2)

/-- The rest of two collections put together. -/
def joinRests (join : T → T → T) : Option T → Option T → Option T
  | none, rest | rest, none => rest
  | some left, some right => some (join left right)

def combine (le : ι → ι → Bool) (join : T → T → T) (left right : T) : T :=
  c.build le ((c.parts left).1.merge (c.parts right).1 le)
    (joinRests join (c.parts left).2 (c.parts right).2)

/-- A value whose rest is not a collection of the kind. -/
def Foreign (t : T) : Prop := c.parts t = ([], some t)

structure Flat (le : ι → ι → Bool) (t : T) : Prop where
  sorted : (c.parts t).1.Pairwise (le · ·)
  rest : ∀ r ∈ (c.parts t).2, c.Foreign r
  built : c.ofParts (c.parts t) = t

@[simp]
theorem joinRests_none_left (join : T → T → T) (rest : Option T) :
    joinRests join none rest = rest := by
  cases rest <;> rfl

@[simp]
theorem joinRests_none_right (join : T → T → T) (rest : Option T) :
    joinRests join rest none = rest := by
  cases rest <;> rfl

@[simp]
theorem joinRests_some (join : T → T → T) (left right : T) :
    joinRests join (some left) (some right) = some (join left right) := rfl

theorem joinRests_forall {P : T → Prop} {join : T → T → T} {left right : Option T}
    (hleft : ∀ r ∈ left, P r) (hright : ∀ r ∈ right, P r)
    (hjoin : ∀ a ∈ left, ∀ b ∈ right, P (join a b)) : ∀ r ∈ joinRests join left right, P r := by
  cases left with
  | none => simpa using hright
  | some a =>
    cases right with
    | none => simpa using hleft
    | some b => simpa using hjoin a rfl b rfl

variable {c} {le : ι → ι → Bool}

theorem Foreign.flat {t : T} (h : c.Foreign t) : c.Flat le t := by
  constructor
  · simp [show c.parts t = ([], some t) from h]
  · rintro r hr
    rw [show c.parts t = ([], some t) from h] at hr
    cases hr
    exact h
  · rw [show c.parts t = ([], some t) from h]
    rfl

theorem parts_ofParts {p : List ι × Option T} (h : ∀ r ∈ p.2, c.Foreign r) :
    c.parts (c.ofParts p) = p := by
  obtain ⟨items, rest⟩ := p
  unfold ofParts
  split
  · rename_i r heq
    cases heq
    exact h r rfl
  · rename_i heq
    cases heq
    exact c.parts_node _ _

section Build

variable {items : List ι} {rest : Option T}

theorem restParts_rest (h : ∀ r ∈ rest, c.Flat le r) :
    ∀ r ∈ (c.restParts rest).2, c.Foreign r := by
  cases rest with
  | none => rintro r ⟨⟩
  | some rest => exact (h rest rfl).rest

theorem restParts_sorted (h : ∀ r ∈ rest, c.Flat le r) :
    (c.restParts rest).1.Pairwise (le · ·) := by
  cases rest with
  | none => exact .nil
  | some rest => exact (h rest rfl).sorted

theorem parts_build (h : ∀ r ∈ rest, c.Flat le r) :
    c.parts (c.build le items rest) =
      ((c.restParts rest).1.merge items le, (c.restParts rest).2) :=
  parts_ofParts (restParts_rest h)

theorem build_of_foreign (h : ∀ r ∈ rest, c.Foreign r) :
    c.build le items rest = c.ofParts (items, rest) := by
  cases rest with
  | none => simp [build, restParts]
  | some rest => simp [build, restParts, show c.parts rest = ([], some rest) from h rest rfl]

/-- Nothing before a rest changes nothing. -/
theorem build_nil {r : T} (h : c.Flat le r) : c.build le [] (some r) = r := by
  simp [build, restParts, h.built]

theorem combine_of_foreign {join : T → T → T} {a b : T} (ha : c.Foreign a) (hb : c.Foreign b)
    (hjoin : c.Foreign (join a b)) : c.combine le join a b = join a b := by
  have hrest : ∀ r ∈ some (join a b), c.Foreign r := by simpa using hjoin
  rw [combine, show c.parts a = ([], some a) from ha, show c.parts b = ([], some b) from hb,
    joinRests_some, List.nil_merge, build_of_foreign hrest]
  rfl

variable (hle : IsOrder le)
include hle

/-- Items before items before a rest. -/
theorem build_build {first second : List ι} (hfirst : first.Pairwise (le · ·))
    (hsecond : second.Pairwise (le · ·)) (h : ∀ r ∈ rest, c.Flat le r) :
    c.build le first (some (c.build le second rest)) = c.build le (second.merge first le) rest := by
  have hrest := restParts_sorted h
  have hmerge : ((c.restParts rest).1.merge second le).merge first le =
      (c.restParts rest).1.merge (second.merge first le) le := by
    apply hle.eq_of_perm
    · exact hle.sorted_merge (hle.sorted_merge hrest hsecond) hfirst
    · exact hle.sorted_merge hrest (hle.sorted_merge hsecond hfirst)
    · refine (List.merge_perm_append ..).trans ?_
      refine ((List.merge_perm_append ..).append_right _).trans ?_
      rw [List.append_assoc]
      refine List.Perm.trans ?_ (List.merge_perm_append ..).symm
      exact ((List.merge_perm_append ..).symm).append_left _
  rw [build, restParts, parts_build h, hmerge]
  rfl

end Build

section Forall

variable {T ι : Type} {c : Collection T ι} {le : ι → ι → Bool} {P : T → Prop} {Q : ι → Prop}
  (hnode : ∀ items rest, P (c.node items rest) ↔ (∀ i ∈ items, Q i) ∧ ∀ r ∈ rest, P r)
include hnode

theorem ofParts_forall {p : List ι × Option T} (hitems : ∀ i ∈ p.1, Q i)
    (hrest : ∀ r ∈ p.2, P r) : P (c.ofParts p) := by
  unfold ofParts
  split
  · exact hrest _ rfl
  · exact (hnode _ _).mpr ⟨hitems, hrest⟩

theorem parts_forall {t : T} (h : P t) : (∀ i ∈ (c.parts t).1, Q i) ∧ ∀ r ∈ (c.parts t).2, P r := by
  rcases c.node_or_rest t with ⟨items, rest, rfl⟩ | hparts
  · rw [c.parts_node]
    exact (hnode _ _).mp h
  · rw [hparts]
    exact ⟨by simp, by simpa using h⟩

/-- What holds of the items and the rest holds of the collection of them. -/
theorem build_forall {items : List ι} {rest : Option T} (hitems : ∀ i ∈ items, Q i)
    (hrest : ∀ r ∈ rest, P r) : P (c.build le items rest) := by
  have hparts : (∀ i ∈ (c.restParts rest).1, Q i) ∧ ∀ r ∈ (c.restParts rest).2, P r := by
    cases rest with
    | none => simp [restParts]
    | some rest => exact parts_forall hnode (hrest rest rfl)
  refine ofParts_forall hnode (fun i hi => ?_) hparts.2
  rcases List.mem_append.mp ((List.merge_perm_append ..).mem_iff.mp hi) with hi | hi
  · exact hparts.1 i hi
  · exact hitems i hi

theorem combine_forall {join : T → T → T} (hjoin : ∀ a b, P a → P b → P (join a b))
    {left right : T} (hleft : P left) (hright : P right) : P (c.combine le join left right) := by
  obtain ⟨hitems, hrest⟩ := parts_forall hnode hleft
  obtain ⟨hitems', hrest'⟩ := parts_forall hnode hright
  refine build_forall hnode (fun i hi => ?_) ?_
  · rcases List.mem_append.mp ((List.merge_perm_append ..).mem_iff.mp hi) with hi | hi
    · exact hitems i hi
    · exact hitems' i hi
  · exact joinRests_forall hrest hrest' fun a ha b hb => hjoin a b (hrest a ha) (hrest' b hb)

end Forall

/-- A change of values that changes the items of a collection and its rest. -/
structure Change (c : Collection T ι) (le : ι → ι → Bool) (Normal : T → Prop) (f : T → T)
    (g : ι → ι) : Prop where
  flat : ∀ t, Normal t → c.Flat le t
  rest : ∀ t, Normal t → ∀ r ∈ (c.parts t).2, Normal r
  keeps : ∀ t, Normal t → Normal (f t)
  node : ∀ items rest,
    f (c.node items rest) = c.build le ((items.map g).mergeSort le) (rest.map f)

section Change

variable {Normal : T → Prop} {f : T → T} {g : ι → ι} (h : c.Change le Normal f g)
include h

theorem Change.flat_rest {rest : Option T} (hrest : ∀ r ∈ rest, Normal r) :
    ∀ r ∈ rest.map f, c.Flat le r := by
  intro r hr
  obtain ⟨r', hr', rfl⟩ := Option.map_eq_some_iff.mp hr
  exact h.flat _ (h.keeps _ (hrest r' hr'))

theorem Change.ofParts {p : List ι × Option T} (hrest : ∀ r ∈ p.2, Normal r) :
    f (c.ofParts p) = c.build le ((p.1.map g).mergeSort le) (p.2.map f) := by
  obtain ⟨items, rest⟩ := p
  unfold Collection.ofParts
  split
  · rename_i r heq
    cases heq
    rw [List.map_nil, List.mergeSort_nil, Option.map_some,
      build_nil (h.flat _ (h.keeps _ (hrest r rfl)))]
  · rename_i heq
    cases heq
    exact h.node _ _

theorem Change.parts {t : T} (ht : Normal t) :
    c.parts (f t) =
      ((c.restParts ((c.parts t).2.map f)).1.merge (((c.parts t).1.map g).mergeSort le) le,
        (c.restParts ((c.parts t).2.map f)).2) := by
  have hrest := h.rest t ht
  calc c.parts (f t) = c.parts (f (c.ofParts (c.parts t))) := by rw [(h.flat t ht).built]
    _ = _ := by rw [h.ofParts hrest, parts_build (h.flat_rest hrest)]

variable (hle : IsOrder le)
include hle

/-- What a change gives of items before a rest is the changed items before the changed rest. -/
theorem Change.build (items : List ι) {rest : Option T} (hrest : ∀ r ∈ rest, Normal r) :
    f (c.build le items rest) = c.build le ((items.map g).mergeSort le) (rest.map f) := by
  cases rest with
  | none =>
    have hofParts := h.ofParts (p := (items, none)) (by rintro r ⟨⟩)
    simpa [Collection.build, restParts] using hofParts
  | some rest =>
    have hnormal := hrest rest rfl
    have hinner := h.rest rest hnormal
    have hchanged : f rest =
        c.build le (((c.parts rest).1.map g).mergeSort le) ((c.parts rest).2.map f) := by
      rw [← h.ofParts hinner, (h.flat rest hnormal).built]
    have hofParts := h.ofParts (p := ((c.parts rest).1.merge items le, (c.parts rest).2)) hinner
    rw [Collection.build, restParts, hofParts, Option.map_some, hchanged,
      build_build hle (hle.sorted_mergeSort _) (hle.sorted_mergeSort _) (h.flat_rest hinner),
      hle.merge_mergeSort_map]

section Join

variable {join : T → T → T} (hforeign : ∀ a b, c.Foreign (join a b))
  (hjoin : ∀ a b, f (join a b) = c.combine le join (f a) (f b))
include hforeign

omit h hle in
theorem joinRests_foreign {left right : Option T} (hleft : ∀ r ∈ left, c.Foreign r)
    (hright : ∀ r ∈ right, c.Foreign r) : ∀ r ∈ joinRests join left right, c.Foreign r :=
  joinRests_forall hleft hright fun a _ b _ => hforeign a b

include hjoin

omit hle in
theorem Change.restParts_joinRests {left right : Option T} (hleft : ∀ r ∈ left, Normal r)
    (hright : ∀ r ∈ right, Normal r) :
    c.restParts ((joinRests join left right).map f) =
      ((c.restParts (left.map f)).1.merge (c.restParts (right.map f)).1 le,
        joinRests join (c.restParts (left.map f)).2 (c.restParts (right.map f)).2) := by
  cases left with
  | none => simp [restParts]
  | some a =>
    cases right with
    | none => simp [restParts]
    | some b =>
      have ha := h.flat _ (h.keeps _ (hleft a rfl))
      have hb := h.flat _ (h.keeps _ (hright b rfl))
      have hrests := joinRests_foreign hforeign ha.rest hb.rest
      simp only [joinRests_some, restParts, Option.map_some]
      rw [hjoin, Collection.combine, build_of_foreign hrests, parts_ofParts hrests]

/-- The same of two collections put together, where `join` puts two rests together. -/
theorem Change.combine
    (hnormal : ∀ a b, Normal a → Normal b → c.Foreign a → c.Foreign b → Normal (join a b))
    {left right : T} (hleft : Normal left) (hright : Normal right) :
    f (c.combine le join left right) = c.combine le join (f left) (f right) := by
  have hl := h.rest left hleft
  have hr := h.rest right hright
  have hrests : ∀ r ∈ joinRests join (c.parts left).2 (c.parts right).2, Normal r :=
    joinRests_forall hl hr fun a ha b hb => hnormal a b (hl a ha) (hr b hb)
      ((h.flat left hleft).rest a ha) ((h.flat right hright).rest b hb)
  have hleftParts := h.flat_rest hl
  have hrightParts := h.flat_rest hr
  have hforeignRests := joinRests_foreign hforeign (restParts_rest hleftParts)
    (restParts_rest hrightParts)
  have hperm : ∀ as bs cs ds : List ι,
      ((as.merge bs le).merge (cs.merge ds le) le).Perm
        ((as.merge cs le).merge (bs.merge ds le) le) := by
    intro as bs cs ds
    have hall : ∀ as bs cs ds : List ι, ((as.merge bs le).merge (cs.merge ds le) le).Perm
        ((as ++ bs) ++ (cs ++ ds)) := fun as bs cs ds =>
      (List.merge_perm_append ..).trans
        ((List.merge_perm_append ..).append (List.merge_perm_append ..))
    refine (hall as bs cs ds).trans (List.Perm.trans ?_ (hall as cs bs ds).symm)
    simp only [List.append_assoc]
    apply List.Perm.append_left
    rw [← List.append_assoc, ← List.append_assoc]
    exact List.perm_append_comm.append_right _
  have hsort := hle.sorted_mergeSort
  rw [Collection.combine, h.build hle _ hrests, Collection.build,
    h.restParts_joinRests hforeign hjoin hl hr, ← hle.merge_mergeSort_map, Collection.combine,
    h.parts hleft, h.parts hright, build_of_foreign hforeignRests]
  congr 2
  apply hle.eq_of_perm _ _ (hperm _ _ _ _)
  · exact hle.sorted_merge
      (hle.sorted_merge (restParts_sorted hleftParts) (restParts_sorted hrightParts))
      (hle.sorted_merge (hsort _) (hsort _))
  · exact hle.sorted_merge (hle.sorted_merge (restParts_sorted hleftParts) (hsort _))
      (hle.sorted_merge (restParts_sorted hrightParts) (hsort _))

end Join

end Change

end Collection

/-- A kind of value with items on both sides of a middle, or items only. -/
structure Sequence (T : Type) where
  node : List T → Option (T × List T) → T
  /-- A value of another kind is its own middle. -/
  parts : T → List T × Option (T × List T)
  parts_node : ∀ heads rest, parts (node heads rest) = (heads, rest)
  node_or_middle : ∀ t, (∃ heads rest, t = node heads rest) ∨ parts t = ([], some (t, []))

namespace Sequence

variable {T : Type} (c : Sequence T)

/-- A middle between no items is the middle. -/
def ofParts : List T × Option (T × List T) → T
  | ([], some (middle, [])) => middle
  | (heads, rest) => c.node heads rest

/-- Items on both sides of a sequence. -/
def wrap (heads tails : List T) : List T × Option (T × List T) → List T × Option (T × List T)
  | (inner, none) => (heads ++ inner ++ tails, none)
  | (inner, some (middle, innerTails)) => (heads ++ inner, some (middle, innerTails ++ tails))

/-- Items around a middle, joined with the middle's own. -/
def build (heads : List T) : Option (T × List T) → T
  | none => c.node heads none
  | some (middle, tails) => c.ofParts (wrap heads tails (c.parts middle))

/-- Two sequences put together; `join` puts two with a middle together. -/
def combine (join : T → T → T) (left right : T) : T :=
  match c.parts left, c.parts right with
  | (heads, none), inner => c.ofParts (wrap heads [] inner)
  | inner, (tails, none) => c.ofParts (wrap [] tails inner)
  | _, _ => join left right

def Foreign (t : T) : Prop := c.parts t = ([], some (t, []))

structure Flat (t : T) : Prop where
  middle : ∀ m tails, (c.parts t).2 = some (m, tails) → c.Foreign m
  built : c.ofParts (c.parts t) = t

variable {c}

@[simp]
theorem ofParts_none (heads : List T) : c.ofParts (heads, none) = c.node heads none := by
  cases heads <;> rfl

theorem Foreign.flat {t : T} (h : c.Foreign t) : c.Flat t := by
  have hparts : c.parts t = ([], some (t, [])) := h
  constructor
  · intro m tails hm
    rw [hparts] at hm
    cases hm
    exact h
  · rw [hparts]
    rfl

theorem parts_ofParts {p : List T × Option (T × List T)}
    (h : ∀ m tails, p.2 = some (m, tails) → c.Foreign m) : c.parts (c.ofParts p) = p := by
  obtain ⟨heads, rest⟩ := p
  unfold ofParts
  split
  · rename_i m heq
    cases heq
    exact h m [] rfl
  · rename_i heq
    cases heq
    exact c.parts_node _ _

theorem wrap_wrap (heads tails heads' tails' : List T) (p : List T × Option (T × List T)) :
    wrap heads tails (wrap heads' tails' p) = wrap (heads ++ heads') (tails' ++ tails) p := by
  obtain ⟨inner, _ | ⟨middle, innerTails⟩⟩ := p <;> simp [wrap]

@[simp]
theorem wrap_nil (p : List T × Option (T × List T)) : wrap [] [] p = p := by
  obtain ⟨inner, _ | ⟨middle, innerTails⟩⟩ := p <;> simp [wrap]

theorem wrap_middle {P : T → Prop} {heads tails : List T} {p : List T × Option (T × List T)}
    (h : ∀ m ts, p.2 = some (m, ts) → P m) :
    ∀ m ts, (wrap heads tails p).2 = some (m, ts) → P m := by
  obtain ⟨inner, _ | ⟨middle, innerTails⟩⟩ := p
  · rintro m ts ⟨⟩
  · rintro m ts ⟨⟩
    exact h middle innerTails rfl

section Combine

variable (join : T → T → T) {left right : T} {heads tails : List T}

theorem combine_left (right : T) (h : c.parts left = (heads, none)) :
    c.combine join left right = c.ofParts (wrap heads [] (c.parts right)) := by
  rw [combine, h]

theorem combine_right (left : T) (h : c.parts right = (tails, none)) :
    c.combine join left right = c.ofParts (wrap [] tails (c.parts left)) := by
  rw [combine, h]
  obtain ⟨inner, _ | entry⟩ := c.parts left
  · simp [wrap]
  · rfl

theorem combine_join {leftEntry rightEntry : T × List T}
    (hleft : c.parts left = (heads, some leftEntry))
    (hright : c.parts right = (tails, some rightEntry)) :
    c.combine join left right = join left right := by
  rw [combine, hleft, hright]

end Combine

/-- A change of values that changes the items of a sequence and its middle. -/
structure Change (c : Sequence T) (Normal : T → Prop) (f : T → T) : Prop where
  flat : ∀ t, Normal t → c.Flat t
  middle : ∀ t, Normal t → ∀ m tails, (c.parts t).2 = some (m, tails) → Normal m
  keeps : ∀ t, Normal t → Normal (f t)
  node : ∀ heads rest, f (c.node heads rest) =
    c.build (heads.map f) (rest.map fun entry => (f entry.1, entry.2.map f))

/-- The parts of a changed sequence. -/
def changeParts (c : Sequence T) (f : T → T) :
    List T × Option (T × List T) → List T × Option (T × List T)
  | (heads, none) => (heads.map f, none)
  | (heads, some (middle, tails)) => wrap (heads.map f) (tails.map f) (c.parts (f middle))

section Change

variable {Normal : T → Prop} {f : T → T}

theorem changeParts_wrap (heads tails : List T) (p : List T × Option (T × List T)) :
    c.changeParts f (wrap heads tails p) =
      wrap (heads.map f) (tails.map f) (c.changeParts f p) := by
  obtain ⟨inner, _ | ⟨middle, innerTails⟩⟩ := p
  · simp [wrap, changeParts]
  · show wrap ((heads ++ inner).map f) ((innerTails ++ tails).map f) (c.parts (f middle)) =
      wrap (heads.map f) (tails.map f)
        (wrap (inner.map f) (innerTails.map f) (c.parts (f middle)))
    rw [wrap_wrap, List.map_append, List.map_append]

variable (h : c.Change Normal f)
include h

theorem Change.ofParts {p : List T × Option (T × List T)}
    (hmiddle : ∀ m tails, p.2 = some (m, tails) → Normal m) :
    f (c.ofParts p) = c.ofParts (c.changeParts f p) := by
  obtain ⟨heads, rest⟩ := p
  rw [Sequence.ofParts.eq_def (c := c) (heads, rest)]
  split
  · rename_i m heq
    cases heq
    rw [changeParts, List.map_nil, wrap_nil, (h.flat _ (h.keeps m (hmiddle m [] rfl))).built]
  · rename_i heq
    cases heq
    rw [h.node]
    cases rest with
    | none => rw [changeParts, ofParts_none, Option.map_none, Sequence.build]
    | some entry => rfl

theorem Change.middle_changed {p : List T × Option (T × List T)}
    (hmiddle : ∀ m tails, p.2 = some (m, tails) → Normal m) :
    ∀ m tails, (c.changeParts f p).2 = some (m, tails) → c.Foreign m := by
  obtain ⟨heads, _ | ⟨middle, tails⟩⟩ := p
  · rintro m ts ⟨⟩
  · exact wrap_middle (h.flat _ (h.keeps middle (hmiddle middle tails rfl))).middle

theorem Change.parts {t : T} (ht : Normal t) : c.parts (f t) = c.changeParts f (c.parts t) := by
  have hmiddle := h.middle t ht
  calc c.parts (f t) = c.parts (f (c.ofParts (c.parts t))) := by rw [(h.flat t ht).built]
    _ = c.changeParts f (c.parts t) := by
      rw [h.ofParts hmiddle, parts_ofParts (h.middle_changed hmiddle)]

/-- What a change gives of items around a middle is the changed items around the changed
middle. -/
theorem Change.build (heads : List T) {rest : Option (T × List T)}
    (hmiddle : ∀ entry ∈ rest, Normal entry.1) :
    f (c.build heads rest) =
      c.build (heads.map f) (rest.map fun entry => (f entry.1, entry.2.map f)) := by
  cases rest with
  | none => exact h.node heads none
  | some entry =>
    obtain ⟨middle, tails⟩ := entry
    have hnormal := hmiddle _ rfl
    have hwrapped := @wrap_middle _ _ heads tails _ (h.middle middle hnormal)
    rw [Sequence.build, h.ofParts hwrapped, changeParts_wrap, ← h.parts hnormal]
    rfl

/-- The same of two sequences put together. -/
theorem Change.combine {join : T → T → T} {left right : T} (hleft : Normal left)
    (hright : Normal right)
    (hjoin : f (join left right) = c.combine join (f left) (f right)) :
    f (c.combine join left right) = c.combine join (f left) (f right) := by
  have hl := h.parts hleft
  have hr := h.parts hright
  rcases hleftParts : c.parts left with ⟨heads, _ | leftEntry⟩
  · rw [hleftParts] at hl
    rw [combine_left join right hleftParts, combine_left join (f right) hl,
      h.ofParts (wrap_middle (h.middle right hright)), changeParts_wrap, ← hr]
    rfl
  rcases hrightParts : c.parts right with ⟨tails, _ | rightEntry⟩
  · rw [hrightParts] at hr
    rw [combine_right join left hrightParts, combine_right join (f left) hr,
      h.ofParts (wrap_middle (h.middle left hleft)), changeParts_wrap, ← hl]
    rfl
  · rw [combine_join join hleftParts hrightParts, hjoin]

end Change

end Sequence

end KRust.Lib
