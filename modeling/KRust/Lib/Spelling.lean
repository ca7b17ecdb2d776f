import Mathlib.Data.List.Lex
import Mathlib.Data.Sum.Order
import Mathlib.Data.String.Basic

/-!
Spellings of structured values as lists of tokens, compared as dictionaries order words: field
by field, an enumeration by the position of its variants, a sequence item by item with its end
below any further item. A spelling that is found again in front of any other tokens orders the
values linearly.
-/

namespace KRust.Lib

abbrev Token : Type := ℕ ⊕ₗ String

def Token.mark (n : ℕ) : Token := Sum.inlₗ n

def Token.text (s : String) : Token := Sum.inrₗ s

namespace Spelling

/-- The value can be read back from its spelling and the tokens after it. -/
structure Unique {α : Type} (spell : α → List Token) (a : α) : Prop where
  read : ∀ {b : α} {r s : List Token}, spell a ++ r = spell b ++ s → a = b ∧ r = s

variable {α β : Type} {spell : α → List Token} {spell' : β → List Token}

theorem Unique.injective (h : ∀ a, Unique spell a) : Function.Injective spell := by
  intro a b hab
  exact ((h a).read (r := []) (s := []) (by rw [hab])).1

def text (s : String) : List Token := [.text s]

def number (n : ℕ) : List Token := [.mark n]

def items (spell : α → List Token) : List α → List Token
  | [] => [.mark 0]
  | a :: as => .mark 1 :: (spell a ++ items spell as)

def optional (spell : α → List Token) : Option α → List Token
  | none => [.mark 0]
  | some a => .mark 1 :: spell a

def pair (spell : α → List Token) (spell' : β → List Token) (entry : α × β) : List Token :=
  spell entry.1 ++ spell' entry.2

/-- A value spelled as its image. -/
def via (f : α → β) (spell' : β → List Token) (a : α) : List Token := spell' (f a)

theorem mark_injective : Function.Injective Token.mark := fun _ _ h => Sum.inl.inj h

theorem text_injective : Function.Injective Token.text := fun _ _ h => Sum.inr.inj h

theorem unique_text (s : String) : Unique text s := by
  constructor
  intro t r r' h
  obtain ⟨hhead, hrest⟩ := List.cons.inj h
  exact ⟨text_injective hhead, hrest⟩

theorem unique_number (n : ℕ) : Unique number n := by
  constructor
  intro m r r' h
  obtain ⟨hhead, hrest⟩ := List.cons.inj h
  exact ⟨mark_injective hhead, hrest⟩

theorem Unique.via {f : α → β} (hf : Function.Injective f) {a : α} (h : Unique spell' (f a)) :
    Unique (Spelling.via f spell') a := by
  constructor
  intro b r s hab
  obtain ⟨heq, hrest⟩ := h.read hab
  exact ⟨hf heq, hrest⟩

theorem Unique.items {as : List α} (h : ∀ a ∈ as, Unique spell a) :
    Unique (Spelling.items spell) as := by
  induction as with
  | nil =>
    constructor
    intro bs r s hab
    cases bs with
    | nil => exact ⟨rfl, (List.cons.inj hab).2⟩
    | cons b bs => exact absurd (mark_injective (List.cons.inj hab).1) (by decide)
  | cons a as ih =>
    constructor
    intro bs r s hab
    rw [List.forall_mem_cons] at h
    cases bs with
    | nil => exact absurd (mark_injective (List.cons.inj hab).1) (by decide)
    | cons b bs =>
      have htail : spell a ++ (Spelling.items spell as ++ r) =
          spell b ++ (Spelling.items spell bs ++ s) := by
        simpa [Spelling.items] using hab
      obtain ⟨rfl, hrest⟩ := h.1.read htail
      obtain ⟨rfl, rfl⟩ := (ih h.2).read hrest
      exact ⟨rfl, rfl⟩

theorem Unique.optional {o : Option α} (h : ∀ a ∈ o, Unique spell a) :
    Unique (Spelling.optional spell) o := by
  constructor
  intro o' r s hab
  cases o with
  | none =>
    cases o' with
    | none => exact ⟨rfl, (List.cons.inj hab).2⟩
    | some b => exact absurd (mark_injective (List.cons.inj hab).1) (by decide)
  | some a =>
    cases o' with
    | none => exact absurd (mark_injective (List.cons.inj hab).1) (by decide)
    | some b =>
      obtain ⟨rfl, hrest⟩ := (h a rfl).read (List.cons.inj hab).2
      exact ⟨rfl, hrest⟩

theorem Unique.pair {entry : α × β} (hfirst : Unique spell entry.1)
    (hsecond : Unique spell' entry.2) : Unique (Spelling.pair spell spell') entry := by
  constructor
  intro entry' r s hab
  obtain ⟨a, b⟩ := entry
  obtain ⟨a', b'⟩ := entry'
  simp only [Spelling.pair, List.append_assoc] at hab
  obtain ⟨rfl, hrest⟩ := hfirst.read hab
  obtain ⟨rfl, hend⟩ := hsecond.read hrest
  exact ⟨rfl, hend⟩

/-- The order of the spellings. -/
@[reducible]
def order (h : ∀ a, Unique spell a) : LinearOrder α :=
  LinearOrder.lift' spell (Unique.injective h)

/-- The comparison of the spellings. -/
def compareBy (spell : α → List Token) (a b : α) : Ordering := compare (spell a) (spell b)

section Compare

variable {τ : Type} [LinearOrder τ]

theorem compareLex_self (xs : List τ) : List.compareLex compare xs xs = .eq := by
  induction xs with
  | nil => rfl
  | cons x xs ih => rw [List.compareLex_cons_cons, compare_eq_iff_eq.mpr rfl, ih]; rfl

theorem compareLex_append_same (u r s : List τ) :
    List.compareLex compare (u ++ r) (u ++ s) = List.compareLex compare r s := by
  induction u with
  | nil => rfl
  | cons x u ih =>
    rw [List.cons_append, List.cons_append, List.compareLex_cons_cons, compare_eq_iff_eq.mpr rfl, ih]
    rfl

/-- Of two lists one begins the other, or they differ before what follows them. -/
theorem compareLex_append_cases (u v : List τ) :
    (∃ w, v = u ++ w) ∨ (∃ w, u = v ++ w) ∨
      List.compareLex compare u v ≠ .eq ∧
        ∀ r s, List.compareLex compare (u ++ r) (v ++ s) = List.compareLex compare u v := by
  induction u generalizing v with
  | nil => exact Or.inl ⟨v, rfl⟩
  | cons x u ih =>
    cases v with
    | nil => exact Or.inr (Or.inl ⟨x :: u, rfl⟩)
    | cons y v =>
      simp only [List.cons_append, List.compareLex_cons_cons]
      cases hxy : compare x y with
      | eq =>
        obtain rfl := compare_eq_iff_eq.mp hxy
        rcases ih v with ⟨w, rfl⟩ | ⟨w, rfl⟩ | hdiffer
        · exact Or.inl ⟨w, rfl⟩
        · exact Or.inr (Or.inl ⟨w, rfl⟩)
        · exact Or.inr (Or.inr hdiffer)
      | lt => exact Or.inr (Or.inr ⟨by simp, fun _ _ => rfl⟩)
      | gt => exact Or.inr (Or.inr ⟨by simp, fun _ _ => rfl⟩)

theorem compareLex_swap (xs ys : List τ) :
    List.compareLex compare ys xs = (List.compareLex compare xs ys).swap := by
  induction xs generalizing ys with
  | nil => cases ys <;> rfl
  | cons x xs ih =>
    cases ys with
    | nil => rfl
    | cons y ys =>
      have hswap : compare y x = (compare x y).swap := Std.OrientedCmp.eq_swap
      rw [List.compareLex_cons_cons, List.compareLex_cons_cons, ih ys, Ordering.swap_then, hswap]

/-- Lists are below one another where the comparison says so. -/
theorem compareLex_lt_iff (xs ys : List τ) : List.compareLex compare xs ys = .lt ↔ xs < ys := by
  induction xs generalizing ys with
  | nil =>
    cases ys with
    | nil => simp [List.compareLex]
    | cons y ys => simp [List.compareLex]
  | cons x xs ih =>
    cases ys with
    | nil => simp [List.compareLex]
    | cons y ys =>
      rw [List.compareLex_cons_cons, Ordering.then_eq_lt, compare_lt_iff_lt, compare_eq_iff_eq, ih,
        List.cons_lt_cons_iff]

theorem compareLex_eq_compare [LinearOrder β] {f : β → List τ} (hlt : ∀ a b, f a < f b ↔ a < b)
    (a b : β) : List.compareLex compare (f a) (f b) = compare a b := by
  rcases lt_trichotomy a b with h | rfl | h
  · rw [compare_lt_iff_lt.mpr h, compareLex_lt_iff]
    exact (hlt a b).mpr h
  · rw [compareLex_self, compare_eq_iff_eq.mpr rfl]
  · rw [compare_gt_iff_gt.mpr h, compareLex_swap, (compareLex_lt_iff _ _).mpr ((hlt b a).mpr h)]
    rfl

end Compare

@[simp] theorem compareBy_self (a : α) : compareBy spell a a = .eq := compareLex_self _

/-- Tokens that are found again in front of any others decide before what follows them. -/
theorem compare_append_of_read {u v : List Token} (h : ∀ r s, u ++ r = v ++ s → u = v)
    (r s : List Token) : compare (u ++ r) (v ++ s) = (compare u v).then (compare r s) := by
  have hsame : u = v → compare (u ++ r) (v ++ s) = (compare u v).then (compare r s) := by
    rintro rfl
    have hself : compare u u = .eq := compareLex_self u
    rw [hself]
    exact compareLex_append_same _ _ _
  rcases compareLex_append_cases u v with ⟨w, hw⟩ | ⟨w, hw⟩ | ⟨hne, hdiffer⟩
  · exact hsame (h w [] (by rw [hw, List.append_nil]))
  · exact hsame (h [] w (by rw [hw, List.append_nil]))
  · have hdecided : compare (u ++ r) (v ++ s) = compare u v := hdiffer r s
    rw [hdecided]
    cases hcompare : compare u v with
    | eq => exact absurd hcompare hne
    | lt => rfl
    | gt => rfl

/-- A spelling decides before what follows it. -/
theorem Unique.compare_append {a : α} (ha : Unique spell a) (b : α) (r s : List Token) :
    compare (spell a ++ r) (spell b ++ s) = (compareBy spell a b).then (compare r s) :=
  compare_append_of_read (fun _ _ h => by rw [(ha.read h).1]) r s

theorem compare_marks (m n : ℕ) (r s : List Token) :
    compare (Token.mark m :: r) (Token.mark n :: s) = (compare m n).then (compare r s) := by
  have hmark : compare (Token.mark m) (Token.mark n) = compare m n := by
    rcases lt_trichotomy m n with h | rfl | h
    · rw [compare_lt_iff_lt.mpr h, compare_lt_iff_lt]
      exact Sum.Lex.inl_lt_inl_iff.mpr h
    · rw [compare_eq_iff_eq.mpr rfl, compare_eq_iff_eq.mpr rfl]
    · rw [compare_gt_iff_gt.mpr h, compare_gt_iff_gt]
      exact Sum.Lex.inl_lt_inl_iff.mpr h
  rw [← hmark]
  exact List.compareLex_cons_cons

theorem compare_texts (s t : String) (u v : List Token) :
    compare (Token.text s :: u) (Token.text t :: v) = (compare s t).then (compare u v) := by
  have htext : compare (Token.text s) (Token.text t) = compare s t := by
    rcases lt_trichotomy s t with h | rfl | h
    · rw [compare_lt_iff_lt.mpr h, compare_lt_iff_lt]
      exact Sum.Lex.inr_lt_inr_iff.mpr h
    · rw [compare_eq_iff_eq.mpr rfl, compare_eq_iff_eq.mpr rfl]
    · rw [compare_gt_iff_gt.mpr h, compare_gt_iff_gt]
      exact Sum.Lex.inr_lt_inr_iff.mpr h
  rw [← htext]
  exact List.compareLex_cons_cons

theorem compareBy_text (s t : String) : compareBy text s t = compare s t :=
  (compare_texts s t [] []).trans Ordering.then_eq

theorem compareBy_number (m n : ℕ) : compareBy number m n = compare m n :=
  (compare_marks m n [] []).trans Ordering.then_eq

/-- A sequence is compared item by item, its end below any further item. -/
theorem compareBy_items {as : List α} (h : ∀ a ∈ as, Unique spell a) (bs : List α) :
    compareBy (items spell) as bs = List.compareLex (compareBy spell) as bs := by
  induction as generalizing bs with
  | nil => cases bs <;> rfl
  | cons a as ih =>
    cases bs with
    | nil => rfl
    | cons b bs =>
      obtain ⟨ha, has⟩ := List.forall_mem_cons.mp h
      rw [List.compareLex_cons_cons, ← ih has bs, compareBy, items, items, compare_marks,
        ha.compare_append]
      rfl

/-- `none` is below any value. -/
theorem compareBy_optional (o o' : Option α) :
    compareBy (optional spell) o o' =
      match o, o' with
      | none, none => .eq
      | none, some _ => .lt
      | some _, none => .gt
      | some a, some b => compareBy spell a b := by
  cases o with
  | none => cases o' <;> rfl
  | some a =>
    cases o' with
    | none => rfl
    | some b => rw [compareBy, optional, optional, compare_marks]; rfl

theorem compareBy_pair {a : α} (ha : Unique spell a) (c : β) (b : α) (d : β) :
    compareBy (pair spell spell') (a, c) (b, d) =
      (compareBy spell a b).then (compareBy spell' c d) :=
  ha.compare_append b (spell' c) (spell' d)

/-- The comparison of the spellings is the one of their order. -/
theorem compareBy_eq_compare (h : ∀ a, Unique spell a) (a b : α) :
    compareBy spell a b = @compare α (order h).toOrd a b :=
  @compareLex_eq_compare _ _ _ (order h) spell (fun _ _ => Iff.rfl) a b

end Spelling

end KRust.Lib
