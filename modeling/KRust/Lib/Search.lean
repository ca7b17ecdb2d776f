import Mathlib.Data.List.Basic

/-!
Depth-first search in a tree whose nodes are expanded one at a time. Recursion over the children
and a list of pending nodes give the same answers, whatever the height of the tree.
-/

namespace KRust.Lib.Search

variable {α : Type}

/-- What is known of a node when it is expanded. -/
inductive Expansion (α : Type) where
  | found
  /-- The node is as good as the best of its children. -/
  | children (nodes : List α)

section Definitions

/-- The answers of nodes in their order, up to the first `true`. -/
def anyFound (search : α → Option Bool) : List α → Option Bool
  | [] => some false
  | a :: as =>
    match search a with
    | none => none
    | some true => some true
    | some false => anyFound search as

variable (expand : α → Expansion α)

/-- The search by recursion, to a depth. -/
def search : Nat → α → Option Bool
  | 0, _ => none
  | depth + 1, a =>
    match expand a with
    | .found => some true
    | .children as => anyFound (search depth) as

/-- The search with its pending nodes on a list, for a number of steps. -/
def searchPending : Nat → List α → Option Bool
  | _, [] => some false
  | 0, _ :: _ => none
  | steps + 1, a :: pending =>
    match expand a with
    | .found => some true
    | .children as => searchPending steps (as ++ pending)

/-- The answer of a list of nodes, at some depth. -/
def Answers (as : List α) (answer : Bool) : Prop :=
  ∃ depth, anyFound (search expand depth) as = some answer

end Definitions

section Any

variable {f g : α → Option Bool}

theorem anyFound_cons {a : α} {as : List α} {answer : Bool} :
    anyFound f (a :: as) = some answer ↔
      (f a = some true ∧ answer = true) ∨ (f a = some false ∧ anyFound f as = some answer) := by
  rw [anyFound]
  cases hf : f a with
  | none => simp
  | some b => cases b <;> simp [eq_comm]

theorem anyFound_append {as bs : List α} {answer : Bool} :
    anyFound f (as ++ bs) = some answer ↔
      (anyFound f as = some true ∧ answer = true) ∨
        (anyFound f as = some false ∧ anyFound f bs = some answer) := by
  induction as with
  | nil => simp [anyFound]
  | cons a as ih =>
    rw [List.cons_append, anyFound_cons, anyFound_cons, anyFound_cons, ih]
    simp only [and_true, Bool.false_eq_true, and_false, false_or]
    tauto

theorem anyFound_mono (h : ∀ a answer, f a = some answer → g a = some answer) {as : List α}
    {answer : Bool} (hanswer : anyFound f as = some answer) : anyFound g as = some answer := by
  induction as with
  | nil => exact hanswer
  | cons a as ih =>
    rw [anyFound_cons] at hanswer ⊢
    cases hanswer with
    | inl hfound => exact .inl ⟨h a true hfound.1, hfound.2⟩
    | inr hrest => exact .inr ⟨h a false hrest.1, ih hrest.2⟩

theorem exists_found {as : List α} (h : anyFound f as = some true) : ∃ a ∈ as, f a = some true := by
  induction as with
  | nil => cases h
  | cons a as ih =>
    cases anyFound_cons.mp h with
    | inl hfound => exact ⟨a, List.mem_cons_self, hfound.1⟩
    | inr hrest =>
      obtain ⟨b, hb, hfound⟩ := ih hrest.2
      exact ⟨b, List.mem_cons_of_mem a hb, hfound⟩

end Any

section Depths

variable {expand : α → Expansion α}

theorem search_succ {depth : Nat} {a : α} {answer : Bool}
    (h : search expand depth a = some answer) : search expand (depth + 1) a = some answer := by
  induction depth generalizing a answer with
  | zero => cases h
  | succ depth ih =>
    rw [search] at h ⊢
    cases hexpand : expand a with
    | found => simpa only [hexpand] using h
    | children as =>
      simp only [hexpand] at h ⊢
      exact anyFound_mono (fun _ _ => ih) h

theorem search_mono {depth depth' : Nat} (hle : depth ≤ depth') {a : α} {answer : Bool}
    (h : search expand depth a = some answer) : search expand depth' a = some answer := by
  induction hle with
  | refl => exact h
  | step _ ih => exact search_succ ih

theorem searchPending_succ {steps : Nat} {as : List α} {answer : Bool}
    (h : searchPending expand steps as = some answer) :
    searchPending expand (steps + 1) as = some answer := by
  induction steps generalizing as with
  | zero =>
    cases as with
    | nil => exact h
    | cons a as => cases h
  | succ steps ih =>
    cases as with
    | nil => exact h
    | cons a as =>
      rw [searchPending] at h ⊢
      cases hexpand : expand a with
      | found => simpa only [hexpand] using h
      | children cs =>
        simp only [hexpand] at h ⊢
        exact ih h

theorem searchPending_mono {steps steps' : Nat} (hle : steps ≤ steps') {as : List α}
    {answer : Bool} (h : searchPending expand steps as = some answer) :
    searchPending expand steps' as = some answer := by
  induction hle with
  | refl => exact h
  | step _ ih => exact searchPending_succ ih

end Depths

section Agree

variable {expand : α → Expansion α}

theorem answers_of_pending {steps : Nat} {as : List α} {answer : Bool}
    (h : searchPending expand steps as = some answer) : Answers expand as answer := by
  induction steps generalizing as with
  | zero =>
    cases as with
    | nil => exact ⟨0, h⟩
    | cons a as => cases h
  | succ steps ih =>
    cases as with
    | nil => exact ⟨0, h⟩
    | cons a as =>
      rw [searchPending] at h
      cases hexpand : expand a with
      | found =>
        simp only [hexpand, Option.some.injEq] at h
        refine ⟨1, anyFound_cons.mpr (.inl ⟨?_, h.symm⟩)⟩
        rw [search, hexpand]
      | children cs =>
        simp only [hexpand] at h
        obtain ⟨depth, hdepth⟩ := ih h
        have hnode : search expand (depth + 1) a = anyFound (search expand depth) cs := by
          rw [search, hexpand]
        refine ⟨depth + 1, anyFound_cons.mpr ?_⟩
        rw [hnode]
        cases anyFound_append.mp hdepth with
        | inl hfound => exact .inl hfound
        | inr hrest => exact .inr ⟨hrest.1, anyFound_mono (fun _ _ => search_succ) hrest.2⟩

/-- The nodes that are searched first give way to the pending ones where none of them is found. -/
theorem pending_of_anyFound {depth : Nat} {as pending : List α} {found answer : Bool}
    (h : anyFound (search expand depth) as = some found)
    (hfound : found = true → answer = true)
    (hrest : found = false → ∃ steps, searchPending expand steps pending = some answer) :
    ∃ steps, searchPending expand steps (as ++ pending) = some answer := by
  induction depth generalizing as pending found with
  | zero =>
    cases as with
    | nil =>
      obtain rfl := Option.some.inj h
      exact hrest rfl
    | cons a as => cases h
  | succ depth ihd =>
    induction as generalizing found with
    | nil =>
      obtain rfl := Option.some.inj h
      exact hrest rfl
    | cons a as iha =>
      rw [anyFound_cons, search] at h
      cases hexpand : expand a with
      | found =>
        simp only [hexpand, true_and, Option.some.injEq, Bool.true_eq_false, false_and,
          or_false] at h
        refine ⟨1, ?_⟩
        rw [List.cons_append, searchPending, hexpand, hfound h]
      | children cs =>
        simp only [hexpand] at h
        have hchildren : ∃ steps, searchPending expand steps (cs ++ (as ++ pending)) =
            some answer := by
          cases h with
          | inl hhit => exact ihd hhit.1 (fun _ => hfound hhit.2) (fun hfalse => by cases hfalse)
          | inr hmiss =>
            exact ihd hmiss.1 (fun htrue => by cases htrue) fun _ => iha hmiss.2 hfound hrest
        obtain ⟨steps, hsteps⟩ := hchildren
        refine ⟨steps + 1, ?_⟩
        rw [List.cons_append, searchPending, hexpand]
        exact hsteps

/-- Pending nodes give the answer that recursion gives. -/
theorem searchPending_iff {as : List α} {answer : Bool} :
    (∃ steps, searchPending expand steps as = some answer) ↔ Answers expand as answer := by
  constructor
  · rintro ⟨steps, hsteps⟩
    exact answers_of_pending hsteps
  · rintro ⟨depth, hdepth⟩
    have hall : ∃ steps, searchPending expand steps (as ++ []) = some answer :=
      pending_of_anyFound hdepth id fun hfalse => ⟨0, by rw [hfalse]; rfl⟩
    rwa [List.append_nil] at hall

theorem answers_singleton {a : α} {answer : Bool} :
    Answers expand [a] answer ↔ ∃ depth, search expand depth a = some answer := by
  refine exists_congr fun depth => ?_
  rw [anyFound_cons]
  cases answer <;> simp [anyFound]

theorem answers_cons {a : α} {as : List α} {answer : Bool} :
    Answers expand (a :: as) answer ↔
      (Answers expand [a] true ∧ answer = true) ∨
        (Answers expand [a] false ∧ Answers expand as answer) := by
  rw [answers_singleton, answers_singleton]
  constructor
  · rintro ⟨depth, hdepth⟩
    cases anyFound_cons.mp hdepth with
    | inl hfound => exact .inl ⟨⟨depth, hfound.1⟩, hfound.2⟩
    | inr hrest => exact .inr ⟨⟨depth, hrest.1⟩, depth, hrest.2⟩
  · rintro (⟨⟨depth, hdepth⟩, rfl⟩ | ⟨⟨depth, hdepth⟩, depth', hdepth'⟩)
    · exact ⟨depth, anyFound_cons.mpr (.inl ⟨hdepth, rfl⟩)⟩
    · refine ⟨max depth depth', anyFound_cons.mpr (.inr ⟨?_, ?_⟩)⟩
      · exact search_mono (Nat.le_max_left depth depth') hdepth
      · exact anyFound_mono (fun _ _ => search_mono (Nat.le_max_right depth depth')) hdepth'

theorem answers_nil {answer : Bool} : Answers expand [] answer ↔ answer = false := by
  constructor
  · rintro ⟨_, h⟩
    exact (Option.some.inj h).symm
  · rintro rfl
    exact ⟨0, rfl⟩

/-- A node has the answer of its children. -/
theorem answers_children {a : α} {cs : List α} {answer : Bool} (h : expand a = .children cs) :
    Answers expand [a] answer ↔ Answers expand cs answer := by
  rw [answers_singleton]
  constructor
  · rintro ⟨_ | depth, hdepth⟩
    · cases hdepth
    · rw [search, h] at hdepth
      exact ⟨depth, hdepth⟩
  · rintro ⟨depth, hdepth⟩
    refine ⟨depth + 1, ?_⟩
    rw [search, h]
    exact hdepth

theorem answers_found {a : α} {answer : Bool} (h : expand a = .found) :
    Answers expand [a] answer ↔ answer = true := by
  rw [answers_singleton]
  constructor
  · rintro ⟨_ | depth, hdepth⟩
    · cases hdepth
    · rw [search, h] at hdepth
      exact (Option.some.inj hdepth).symm
  · rintro rfl
    refine ⟨1, ?_⟩
    rw [search, h]

/-- Searches that give the answers of single nodes give those of lists. -/
theorem anyFound_iff {f : Nat → α → Option Bool}
    (hmono : ∀ {n m}, n ≤ m → ∀ a answer, f n a = some answer → f m a = some answer)
    (h : ∀ a answer, (∃ n, f n a = some answer) ↔ Answers expand [a] answer) {as : List α}
    {answer : Bool} : (∃ n, anyFound (f n) as = some answer) ↔ Answers expand as answer := by
  induction as with
  | nil => simp [anyFound, answers_nil, eq_comm]
  | cons a as ih =>
    rw [answers_cons, ← h, ← h, ← ih]
    constructor
    · rintro ⟨n, hn⟩
      cases anyFound_cons.mp hn with
      | inl hfound => exact .inl ⟨⟨n, hfound.1⟩, hfound.2⟩
      | inr hrest => exact .inr ⟨⟨n, hrest.1⟩, n, hrest.2⟩
    · rintro (⟨⟨n, hn⟩, rfl⟩ | ⟨⟨n, hn⟩, m, hm⟩)
      · exact ⟨n, anyFound_cons.mpr (.inl ⟨hn, rfl⟩)⟩
      · refine ⟨max n m, anyFound_cons.mpr (.inr ⟨?_, ?_⟩)⟩
        · exact hmono (Nat.le_max_left n m) a false hn
        · exact anyFound_mono (hmono (Nat.le_max_right n m)) hm

end Agree

section Rules

variable {expand : α → Expansion α} {P : α → Prop}

/-- What holds of found nodes, and of a node when it holds of a child, holds where the search
finds a node. -/
theorem sound {Q : α → Prop} (hfound : ∀ a, P a → expand a = .found → Q a)
    (hchildren : ∀ a as, P a → expand a = .children as →
      ∀ c ∈ as, P c ∧ (Q c → Q a)) {depth : Nat} {a : α} (ha : P a)
    (h : search expand depth a = some true) : Q a := by
  induction depth generalizing a with
  | zero => cases h
  | succ depth ih =>
    rw [search] at h
    cases hexpand : expand a with
    | found => exact hfound a ha hexpand
    | children as =>
      simp only [hexpand] at h
      obtain ⟨c, hc, hanswer⟩ := exists_found h
      obtain ⟨hP, hQ⟩ := hchildren a as ha hexpand c hc
      exact hQ (ih hP hanswer)

/-- A search that goes to smaller nodes has an answer. -/
theorem answers_of_decreasing (size : α → Nat)
    (hsize : ∀ a as, P a → expand a = .children as → ∀ c ∈ as, P c ∧ size c < size a) {a : α}
    (ha : P a) : ∃ answer, Answers expand [a] answer := by
  induction hn : size a using Nat.strongRecOn generalizing a with
  | ind n ih =>
    subst hn
    cases hexpand : expand a with
    | found => exact ⟨true, (answers_found hexpand).mpr rfl⟩
    | children as =>
      have hall : ∃ answer, Answers expand as answer := by
        have hchild := hsize a as ha hexpand
        clear hexpand
        induction as with
        | nil => exact ⟨false, answers_nil.mpr rfl⟩
        | cons c cs ihc =>
          obtain ⟨⟨hP, hlt⟩, hrest⟩ := List.forall_mem_cons.mp hchild
          obtain ⟨answer, hanswer⟩ := ih _ hlt hP rfl
          cases answer with
          | true => exact ⟨true, answers_cons.mpr (.inl ⟨hanswer, rfl⟩)⟩
          | false =>
            obtain ⟨rest, hanswers⟩ := ihc hrest
            exact ⟨rest, answers_cons.mpr (.inr ⟨hanswer, hanswers⟩)⟩
      obtain ⟨answer, hanswer⟩ := hall
      exact ⟨answer, (answers_children hexpand).mpr hanswer⟩

/-- A value that a node has when a child has it is what the search finds. -/
theorem answers_value {value : α → Bool} (size : α → Nat)
    (hfound : ∀ a, P a → expand a = .found → value a = true)
    (hchildren : ∀ a as, P a → expand a = .children as →
      (∀ c ∈ as, P c ∧ size c < size a) ∧ value a = as.any value) {a : α} (ha : P a) :
    Answers expand [a] (value a) := by
  induction hn : size a using Nat.strongRecOn generalizing a with
  | ind n ih =>
    subst hn
    cases hexpand : expand a with
    | found => exact (answers_found hexpand).mpr (hfound a ha hexpand)
    | children as =>
      obtain ⟨hchild, hvalue⟩ := hchildren a as ha hexpand
      rw [answers_children hexpand, hvalue]
      clear hexpand hvalue
      induction as with
      | nil => exact answers_nil.mpr rfl
      | cons c cs ihc =>
        obtain ⟨⟨hP, hlt⟩, hrest⟩ := List.forall_mem_cons.mp hchild
        have hhead := ih _ hlt hP rfl
        rw [List.any_cons, answers_cons]
        cases hc : value c with
        | true => exact .inl ⟨hc ▸ hhead, rfl⟩
        | false => exact .inr ⟨hc ▸ hhead, ihc hrest⟩

end Rules

end KRust.Lib.Search
