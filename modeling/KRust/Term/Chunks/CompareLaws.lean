import KRust.Term.Chunks.Compare
import KRust.Term.Chunks.EditLaws

/-!
Equality, order and hash of chunked sequences are those of their items: a node the
walk skips holds the same items on both sides, and what is left of either side is
compared item by item.
-/

set_option linter.unusedSectionVars false

namespace KRust.Term.Chunks

variable {I : Type}

/-- The order of the first two items at one position that differ. -/
def firstDifference (compare : I → I → Ordering) : List I → List I → Ordering
  | x :: xs, y :: ys => (compare x y).then (firstDifference compare xs ys)
  | _, _ => .eq

section Lists

variable {compare : I → I → Ordering}

@[simp] theorem firstDifference_nil_left (ys : List I) : firstDifference compare [] ys = .eq := rfl

@[simp] theorem firstDifference_nil_right (xs : List I) : firstDifference compare xs [] = .eq := by
  cases xs <;> rfl

theorem firstDifference_cons (x y : I) (xs ys : List I) :
    firstDifference compare (x :: xs) (y :: ys) =
      (compare x y).then (firstDifference compare xs ys) := rfl

/-- Shared items make no difference. -/
theorem firstDifference_append (hrefl : ∀ x, compare x x = .eq) (zs xs ys : List I) :
    firstDifference compare (zs ++ xs) (zs ++ ys) = firstDifference compare xs ys := by
  induction zs with
  | nil => rfl
  | cons z zs ih => rw [List.cons_append, List.cons_append, firstDifference_cons, hrefl, ih]; rfl

/-- The lexicographic order: the first difference, then the lengths. -/
theorem firstDifference_then_length (xs ys : List I) :
    (firstDifference compare xs ys).then (Ord.compare xs.length ys.length) =
      List.compareLex compare xs ys := by
  induction xs generalizing ys with
  | nil =>
    cases ys with
    | nil => rfl
    | cons y ys =>
      rw [firstDifference_nil_left, List.compareLex]
      · exact Nat.compare_eq_lt.mpr (Nat.succ_pos _)
      · simp
  | cons x xs ih =>
    cases ys with
    | nil =>
      rw [firstDifference_nil_right, List.compareLex]
      · exact Nat.compare_eq_gt.mpr (Nat.succ_pos _)
      · simp
    | cons y ys =>
      have hlen : Ord.compare (x :: xs).length (y :: ys).length = Ord.compare xs.length ys.length := by
        simp only [List.length_cons, Nat.compare_eq_ite_lt]
        simp only [Nat.add_lt_add_iff_right]
      rw [firstDifference_cons, List.compareLex_cons_cons, ← ih ys, hlen]
      cases compare x y <;> rfl

/-- A difference between what a function keeps of the items. -/
theorem firstDifference_map {J : Type} (f : I → J) (compare : J → J → Ordering) (xs ys : List I) :
    firstDifference (fun x y => compare (f x) (f y)) xs ys =
      firstDifference compare (xs.map f) (ys.map f) := by
  induction xs generalizing ys with
  | nil => rfl
  | cons x xs ih =>
    cases ys with
    | nil => rfl
    | cons y ys =>
      rw [firstDifference_cons, List.map_cons, List.map_cons, firstDifference_cons, ih]

/-- Lists of one length without a difference are equal. -/
theorem firstDifference_eq_iff (hfaithful : ∀ x y, compare x y = .eq ↔ x = y) (xs ys : List I)
    (hlen : xs.length = ys.length) : firstDifference compare xs ys = .eq ↔ xs = ys := by
  induction xs generalizing ys with
  | nil => cases ys <;> simp_all
  | cons x xs ih =>
    cases ys with
    | nil => cases hlen
    | cons y ys =>
      rw [firstDifference_cons, Ordering.then_eq_eq, hfaithful,
        ih ys (by simpa using hlen), List.cons.injEq]

end Lists

variable {K S G M A : Type} {B : Branching}

theorem cmpLoop_of_end {shared : Nat → Node I S G → Node I S G → Bool}
    {compare : I → I → Ordering} {clock : Nat} {walk : Aligned I S G}
    (h : walk.turn (shared clock) = some none) :
    cmpLoop shared compare clock walk = some .eq := by
  rw [cmpLoop.eq_def]
  split <;> simp_all

theorem cmpLoop_of_step {shared : Nat → Node I S G → Node I S G → Bool}
    {compare : I → I → Ordering} {clock : Nat} {walk next : Aligned I S G}
    (h : walk.turn (shared clock) = some (some (none, next))) :
    cmpLoop shared compare clock walk = cmpLoop shared compare (clock + 1) next := by
  rw [cmpLoop.eq_def]
  split <;> simp_all

theorem cmpLoop_of_pair {shared : Nat → Node I S G → Node I S G → Bool}
    {compare : I → I → Ordering} {clock : Nat} {walk next : Aligned I S G} {l r : I}
    (h : walk.turn (shared clock) = some (some (some (l, r), next))) :
    cmpLoop shared compare clock walk =
      match compare l r with
      | .eq => cmpLoop shared compare (clock + 1) next
      | unequal => some unequal := by
  rw [cmpLoop.eq_def]
  cases hcompare : compare l r <;> split <;> simp_all

/-- The walk finds the first difference of what is left, whatever it skips. -/
theorem cmpLoop_eq (shared : Nat → Node I S G → Node I S G → Bool) (compare : I → I → Ordering)
    (hshared : ∀ clock one two, shared clock one two = true → one = two)
    (hrefl : ∀ x, compare x x = .eq) (clock : Nat) (walk : Aligned I S G) :
    cmpLoop shared compare clock walk =
      some (firstDifference compare walk.left.contents walk.right.contents) := by
  induction hn : walk.size using Nat.strong_induction_on generalizing clock walk with
  | _ n ih =>
    subst hn
    rcases walk.turn_cases (shared clock) with
      ⟨hend, hempty⟩ | ⟨l, r, next, hpair, hleft, hright, hlt⟩ | ⟨next, hstep, hsteps⟩
    · rw [cmpLoop_of_end hend]
      rcases hempty with hempty | hempty
      · rw [hempty, firstDifference_nil_left]
      · rw [hempty, firstDifference_nil_right]
    · rw [cmpLoop_of_pair hpair, hleft, hright, firstDifference_cons]
      cases hcompare : compare l r with
      | eq => exact ih next.size hlt (clock + 1) next rfl
      | lt => rfl
      | gt => rfl
    · rw [cmpLoop_of_step hstep, ih next.size hsteps.size (clock + 1) next rfl]
      rcases hsteps.contents with ⟨hleft, hright⟩ | ⟨one, two, hone, hleft, hright⟩
      · rw [hleft, hright]
      · rw [hleft, hright, hshared clock one two hone, firstDifference_append hrefl]

theorem cursor_new_contents (root : Option (Node I S G)) :
    (Cursor.new root).contents = root.toList.flatMap Node.items := by
  simp [Cursor.new, Cursor.contents, Rest.contents]

section Trees

variable [Item I K S G] [LinearOrder K] [Summary S] [Group G] [AddMonoid M]
  [AddCancelCommMonoid A] [LawfulSummary S M] [LawfulGroup G A] {left right : Chunked I S G B}

theorem Chunked.aligned_contents (left right : Chunked I S G B) :
    (aligned left right).left.contents = left.items ∧
      (aligned left right).right.contents = right.items := by
  have hone : ∀ tree : Chunked I S G B, (Cursor.new tree.root).contents = tree.items := by
    intro tree
    rw [cursor_new_contents]
    obtain ⟨root⟩ := tree
    cases root <;> simp
  exact ⟨hone left, hone right⟩

/-- `cmp_by` is the lexicographic order of the items. -/
theorem Chunked.cmpBy_eq (shared : Nat → Node I S G → Node I S G → Bool)
    (compare : I → I → Ordering)
    (hshared : ∀ clock one two, shared clock one two = true → one = two)
    (hrefl : ∀ x, compare x x = .eq) (hleft : left.Valid) (hright : right.Valid) :
    cmpBy shared compare left right = some (List.compareLex compare left.items right.items) := by
  obtain ⟨honeItems, htwoItems⟩ := Chunked.aligned_contents left right
  unfold cmpBy
  rw [cmpLoop_eq shared compare hshared hrefl, honeItems, htwoItems,
    ← firstDifference_then_length, hleft.len_eq, hright.len_eq]
  cases firstDifference compare left.items right.items <;> rfl

/-- `eq_by` with the equality of what a function keeps of the items decides the equality of what it
keeps of the sequences. -/
theorem Chunked.eqBy_map_eq {J : Type} [DecidableEq J] (f : I → J)
    (shared : Nat → Node I S G → Node I S G → Bool)
    (hshared : ∀ clock one two, shared clock one two = true → one = two)
    (hleft : left.Valid) (hright : right.Valid) :
    eqBy shared (fun l r => decide (f l = f r)) left right =
      some (decide (left.items.map f = right.items.map f)) := by
  have hfaithful : ∀ x y : J, (if decide (x = y) then Ordering.eq else .lt) = .eq ↔ x = y := by
    intro x y
    by_cases h : x = y <;> simp [h]
  unfold eqBy
  split
  · next hlen =>
    rw [hleft.len_eq, hright.len_eq] at hlen
    rw [Chunked.cmpBy_eq shared _ hshared (fun x => (hfaithful (f x) (f x)).mpr rfl) hleft hright,
      ← firstDifference_then_length, hlen,
      firstDifference_map f fun x y => if decide (x = y) then Ordering.eq else .lt]
    have hiff := firstDifference_eq_iff hfaithful (left.items.map f) (right.items.map f)
      (by simpa using hlen)
    have hcompare : Ord.compare right.items.length right.items.length = .eq :=
      Nat.compare_eq_eq.mpr rfl
    rw [hcompare]
    by_cases heq : left.items.map f = right.items.map f
    · rw [hiff.mpr heq]
      simp [heq]
    · have hne := mt hiff.mp heq
      cases hdiff : firstDifference (fun x y => if decide (x = y) then Ordering.eq else .lt)
        (left.items.map f) (right.items.map f) with
      | eq => exact absurd hdiff hne
      | lt => simp [heq]
      | gt => simp [heq]
  · next hlen =>
    rw [hleft.len_eq, hright.len_eq] at hlen
    have hne : left.items.map f ≠ right.items.map f := fun heq =>
      hlen (by simpa using congrArg List.length heq)
    simp [hne]

/-- `eq_by` with the items' equality decides the equality of the sequences. -/
theorem Chunked.eqBy_eq [DecidableEq I] (shared : Nat → Node I S G → Node I S G → Bool)
    (hshared : ∀ clock one two, shared clock one two = true → one = two)
    (hleft : left.Valid) (hright : right.Valid) :
    eqBy shared (fun l r => decide (l = r)) left right = some (decide (left.items = right.items)) := by
  have heq := Chunked.eqBy_map_eq id shared hshared hleft hright
  rwa [List.map_id, List.map_id] at heq

/-- A valid tree's hash is that of its items. -/
theorem Chunked.Valid.hashValue_eq {tree : Chunked I S G B} (hvalid : tree.Valid) :
    tree.hashValue = (hashOf tree.items).value := by
  obtain ⟨root⟩ := tree
  cases root with
  | none => rfl
  | some root =>
    obtain ⟨h, hroot⟩ := hvalid root rfl
    rw [Chunked.items_some, ← hroot.shaped.summarizes.hash]
    rfl

theorem sharesRoot_items {shared : Node I S G → Node I S G → Bool}
    (hshared : ∀ one two, shared one two = true → one = two)
    (h : Chunked.sharesRoot shared left right = true) : left.items = right.items := by
  obtain ⟨l⟩ := left
  obtain ⟨r⟩ := right
  cases l with
  | none =>
    cases r with
    | none => rfl
    | some r => cases h
  | some l =>
    cases r with
    | none => cases h
    | some r => rw [hshared l r h]

/-- `eq` decides the equality of the items. -/
theorem Chunked.eq_eq [DecidableEq I] (shared : Nat → Node I S G → Node I S G → Bool)
    (hshared : ∀ clock one two, shared clock one two = true → one = two)
    (hleft : left.Valid) (hright : right.Valid) :
    Chunked.eq shared left right = some (decide (left.items = right.items)) := by
  unfold Chunked.eq
  split
  · next hroots =>
    simp [sharesRoot_items (hshared 0) hroots]
  · next hroots =>
    obtain ⟨l⟩ := left
    obtain ⟨r⟩ := right
    cases l with
    | none =>
      cases r with
      | none => exact absurd rfl hroots
      | some r =>
        obtain ⟨h, hr⟩ := hright r rfl
        have hne := hr.items_ne_nil
        simp [hne.symm]
    | some l =>
      obtain ⟨h, hl⟩ := hleft l rfl
      cases r with
      | none =>
        have hne := hl.items_ne_nil
        simp [hne]
      | some r =>
        obtain ⟨k, hr⟩ := hright r rfl
        simp only
        split
        · exact Chunked.eqBy_eq _ (fun clock => hshared (clock + 1)) hleft hright
        · next hdiffer =>
          -- Equal items would have equal counts and hashes.
          have hne : l.items ≠ r.items := by
            intro heq
            refine hdiffer ⟨?_, ?_⟩
            · rw [hl.shaped.count_eq, hr.shaped.count_eq, heq]
            · rw [hl.shaped.summarizes.hash, hr.shaped.summarizes.hash, heq]
          simp [hne]

/-- `cmp` is the lexicographic order of the items. -/
theorem Chunked.cmp_eq (shared : Nat → Node I S G → Node I S G → Bool)
    (compare : I → I → Ordering)
    (hshared : ∀ clock one two, shared clock one two = true → one = two)
    (hrefl : ∀ x, compare x x = .eq) (hleft : left.Valid) (hright : right.Valid) :
    Chunked.cmp shared compare left right =
      some (List.compareLex compare left.items right.items) := by
  have hwalk := Chunked.cmpBy_eq (fun clock => shared (clock + 1)) compare
    (fun clock => hshared (clock + 1)) hrefl hleft hright
  have hself : ∀ xs : List I, List.compareLex compare xs xs = .eq := by
    intro xs
    rw [← firstDifference_then_length]
    have happend := firstDifference_append hrefl xs [] []
    rw [List.append_nil] at happend
    rw [happend]
    exact Nat.compare_eq_eq.mpr rfl
  unfold Chunked.cmp
  split
  · next l r hl hr =>
    split
    · next hsame =>
      have hitems : left.items = right.items := by
        rw [Chunked.items, Chunked.items, hl, hr, hshared 0 l r hsame]
      rw [hitems]
      exact congrArg some (hself _).symm
    · exact hwalk
  · exact hwalk

/-- Equality, order and hash depend on the items only, whatever the shapes of the
trees and whichever nodes they share. -/
theorem Chunked.compare_items [DecidableEq I] (shared : Nat → Node I S G → Node I S G → Bool)
    (compare : I → I → Ordering)
    (hshared : ∀ clock one two, shared clock one two = true → one = two)
    (hrefl : ∀ x, compare x x = .eq) (hleft : left.Valid) (hright : right.Valid) :
    Chunked.eq shared left right = some (decide (left.items = right.items)) ∧
    Chunked.cmp shared compare left right =
      some (List.compareLex compare left.items right.items) ∧
    Chunked.cmpBy shared compare left right =
      some (List.compareLex compare left.items right.items) ∧
    (left.items = right.items → left.hashValue = right.hashValue) := by
  refine ⟨Chunked.eq_eq shared hshared hleft hright,
    Chunked.cmp_eq shared compare hshared hrefl hleft hright,
    Chunked.cmpBy_eq shared compare hshared hrefl hleft hright, fun hitems => ?_⟩
  rw [hleft.hashValue_eq, hright.hashValue_eq, hitems]

/-- Two trees of numbers built apart, compared without knowing of any shared node. -/
theorem Chunked.compare_items_numbers :
    ∃ left right : Chunked Nat Unit Unit ⟨5, by decide⟩,
      left.items = [1, 2, 3, 4, 5, 6, 7] ∧ right.items = [1, 2, 3, 9] ∧
      Chunked.eq (fun _ _ _ => false) left right = some false ∧
      Chunked.cmp (fun _ _ _ => false) Ord.compare left right = some .lt := by
  have hfits : ∀ xs : List Nat, xs.length ≤ usizeMax → Fits xs := fun xs h => ⟨h, trivial, trivial⟩
  obtain ⟨left, _, hleft, hleftItems⟩ :=
    (fromVec_yields ⟨5, by decide⟩ [1, 2, 3, 4, 5, 6, 7]).total (hfits _ (by decide))
  obtain ⟨right, _, hright, hrightItems⟩ :=
    (fromVec_yields ⟨5, by decide⟩ [1, 2, 3, 9]).total (hfits _ (by decide))
  obtain ⟨heq, hcmp, _⟩ := Chunked.compare_items (fun _ _ _ => false) Ord.compare (by simp)
    (fun x => Nat.compare_eq_eq.mpr rfl) hleft hright
  refine ⟨left, right, hleftItems, hrightItems, ?_, ?_⟩
  · rw [heq, hleftItems, hrightItems]
    rfl
  · rw [hcmp, hleftItems, hrightItems]
    rfl

end Trees

end KRust.Term.Chunks
