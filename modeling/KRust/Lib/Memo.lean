import Mathlib.Data.List.Forall2

/-!
Computations over a state that only grows, as a heap whose nodes are never freed does, and tables
that keep the results. A triple says what holds of the result once the state has grown; what a
table keeps is specified by what its entries mean.
-/

namespace KRust.Lib

/-- The states that are well formed, and how a state may grow. -/
structure Growth (S : Type) where
  Valid : S → Prop
  Le : S → S → Prop
  refl (s : S) : Le s s
  trans {s t u : S} : Le s t → Le t u → Le s u

/-- A table of results in a state. -/
structure Table (S K V : Type) where
  read : S → K → Option V
  write : K → V → S → S

/-- Reads a result from a table, or computes it and keeps it there. -/
def Table.memo {S K V : Type} (table : Table S K V) (key : K) (compute : StateM S V) :
    StateM S V := do
  match table.read (← get) key with
  | some kept => pure kept
  | none =>
    let result ← compute
    modify (table.write key result)
    pure result

namespace Growth

variable {S α β : Type} (G : Growth S)

/-- What stays true while the state grows. -/
def Lasting (P : S → Prop) : Prop := ∀ ⦃s t⦄, G.Le s t → P s → P t

/-- From a well-formed state where `pre` holds, the state grows to a well-formed one, and `post`
holds there of the result. -/
def Gives (pre : S → Prop) (compute : StateM S α) (post : S → α → Prop) : Prop :=
  ∀ s, G.Valid s → pre s → G.Valid (compute.run s).2 ∧ G.Le s (compute.run s).2 ∧
    post (compute.run s).2 (compute.run s).1

variable {G}

theorem Lasting.and {P Q : S → Prop} (hP : G.Lasting P) (hQ : G.Lasting Q) :
    G.Lasting fun s => P s ∧ Q s :=
  fun _ _ hle h => ⟨hP hle h.1, hQ hle h.2⟩

theorem Lasting.const (P : Prop) : G.Lasting fun _ => P := fun _ _ _ h => h

theorem Lasting.forall₂ {xs : List α} {ys : List β} {R : S → α → β → Prop}
    (h : ∀ x y, G.Lasting fun s => R s x y) : G.Lasting fun s => List.Forall₂ (R s) xs ys :=
  fun _ _ hle hall => hall.imp fun x y => h x y hle

theorem Lasting.forall_mem {xs : List α} {P : S → α → Prop}
    (h : ∀ x, G.Lasting fun s => P s x) : G.Lasting fun s => ∀ x ∈ xs, P s x :=
  fun _ _ hle hall x hx => h x hle (hall x hx)

variable {pre : S → Prop}

theorem Gives.imp {compute : StateM S α} {post post' : S → α → Prop}
    (h : G.Gives pre compute post) (himp : ∀ s a, G.Valid s → post s a → post' s a) :
    G.Gives pre compute post' := fun s hs hpre =>
  have ⟨hvalid, hle, hpost⟩ := h s hs hpre
  ⟨hvalid, hle, himp _ _ hvalid hpost⟩

theorem Gives.weaken {compute : StateM S α} {post : S → α → Prop} {pre' : S → Prop}
    (h : G.Gives pre compute post) (himp : ∀ s, G.Valid s → pre' s → pre s) :
    G.Gives pre' compute post := fun s hs hpre => h s hs (himp s hs hpre)

theorem Gives.pure {a : α} {post : S → α → Prop}
    (h : ∀ s, G.Valid s → pre s → post s a) : G.Gives pre (pure a : StateM S α) post :=
  fun s hs hpre => ⟨hs, G.refl s, h s hs hpre⟩

/-- The next computation starts where the first one ended. -/
theorem Gives.bind {compute : StateM S α} {next : α → StateM S β} {mid : S → α → Prop}
    {post : S → β → Prop} (hpre : G.Lasting pre) (h : G.Gives pre compute mid)
    (hnext : ∀ a, G.Gives (fun s => pre s ∧ mid s a) (next a) post) :
    G.Gives pre (compute >>= next) post := fun s hs hholds =>
  have ⟨hvalid, hle, hmid⟩ := h s hs hholds
  have ⟨hvalid', hle', hpost⟩ := hnext _ _ hvalid ⟨hpre hle hholds, hmid⟩
  ⟨hvalid', G.trans hle hle', hpost⟩

theorem Gives.mapM {xs : List α} {f : α → StateM S β} {post : S → α → β → Prop}
    (hpre : G.Lasting pre) (hpost : ∀ a b, G.Lasting fun s => post s a b)
    (h : ∀ x ∈ xs, G.Gives pre (f x) fun s => post s x) :
    G.Gives pre (xs.mapM f) fun s ys => List.Forall₂ (post s) xs ys := by
  induction xs with
  | nil =>
    rw [List.mapM_nil]
    exact Gives.pure fun _ _ _ => .nil
  | cons x xs ih =>
    rw [List.forall_mem_cons] at h
    rw [List.mapM_cons]
    refine Gives.bind hpre h.1 fun y => ?_
    have hkept : G.Lasting fun s => pre s ∧ post s x y := hpre.and (hpost x y)
    refine Gives.bind hkept ((ih h.2).weaken fun s _ hs => hs.1) fun ys => ?_
    exact Gives.pure fun s _ hs => .cons hs.1.2 hs.2

theorem run_memo {K : Type} (table : Table S K α) (key : K) (compute : StateM S α) (s : S) :
    (table.memo key compute).run s =
      match table.read s key with
      | some kept => (kept, s)
      | none => ((compute.run s).1, table.write key (compute.run s).1 (compute.run s).2) := by
  change StateT.run (match table.read s key with | some kept => _ | none => _) s = _
  cases table.read s key <;> rfl

/-- A table whose entries satisfy what is asked of the results, and may be given more of them. -/
theorem Gives.memo {K : Type} {table : Table S K α} {key : K} {compute : StateM S α}
    {post : S → α → Prop} (hpre : G.Lasting pre)
    (hread : ∀ s a, G.Valid s → pre s → table.read s key = some a → post s a)
    (hwrite : ∀ s a, G.Valid s → pre s → post s a →
      G.Valid (table.write key a s) ∧ G.Le s (table.write key a s) ∧
        post (table.write key a s) a)
    (h : G.Gives pre compute post) : G.Gives pre (table.memo key compute) post := by
  intro s hs hholds
  rw [run_memo]
  cases hentry : table.read s key with
  | some kept => exact ⟨hs, G.refl s, hread s kept hs hholds hentry⟩
  | none =>
    have ⟨hvalid, hle, hpost⟩ := h s hs hholds
    have ⟨hvalid', hle', hpost'⟩ := hwrite _ _ hvalid (hpre hle hholds) hpost
    exact ⟨hvalid', G.trans hle hle', hpost'⟩

section Decisions

variable {K : Type}

/-- From any well-formed state, the computation decides a proposition. -/
def Decides (G : Growth S) (compute : StateM S Bool) (P : Prop) : Prop :=
  G.Gives (fun _ => True) compute fun _ answer => answer = true ↔ P

theorem lasting_true : G.Lasting fun _ => True := Lasting.const True

theorem Decides.congr {compute : StateM S Bool} {P Q : Prop} (h : G.Decides compute P)
    (heq : P ↔ Q) : G.Decides compute Q :=
  h.imp fun _ _ _ hanswer => hanswer.trans heq

theorem Decides.pure {answer : Bool} {P : Prop} (h : answer = true ↔ P) :
    G.Decides (pure answer) P := Gives.pure fun _ _ _ => h

theorem Decides.bind {first : StateM S Bool} {next : Bool → StateM S Bool} {P Q : Prop}
    (h : G.Decides first P) (htrue : P → G.Decides (next true) Q)
    (hfalse : ¬P → G.Decides (next false) Q) : G.Decides (first >>= next) Q := by
  refine Gives.bind lasting_true h fun answer => ?_
  intro s hs hanswer
  cases answer with
  | true => exact htrue (hanswer.2.mp rfl) s hs trivial
  | false =>
    have hnot : ¬P := fun hP => by simpa using hanswer.2.mpr hP
    exact hfalse hnot s hs trivial

theorem Decides.anyM {xs : List α} {f : α → StateM S Bool} {P : α → Prop}
    (h : ∀ x ∈ xs, G.Decides (f x) (P x)) : G.Decides (xs.anyM f) (∃ x ∈ xs, P x) := by
  induction xs with
  | nil => exact Decides.pure (by simp)
  | cons x xs ih =>
    rw [List.forall_mem_cons] at h
    rw [List.anyM]
    refine Decides.bind h.1 (fun hx => Decides.pure ?_) fun hx => ?_
    · exact iff_of_true rfl ⟨x, List.mem_cons_self, hx⟩
    · refine (ih h.2).congr ?_
      rw [List.exists_mem_cons_iff, or_iff_right hx]

theorem Decides.allM {xs : List α} {f : α → StateM S Bool} {P : α → Prop}
    (h : ∀ x ∈ xs, G.Decides (f x) (P x)) : G.Decides (xs.allM f) (∀ x ∈ xs, P x) := by
  induction xs with
  | nil => exact Decides.pure (by simp)
  | cons x xs ih =>
    rw [List.forall_mem_cons] at h
    rw [List.allM]
    refine Decides.bind h.1 (fun hx => ?_) fun hx => Decides.pure ?_
    · refine (ih h.2).congr ?_
      rw [List.forall_mem_cons, and_iff_right hx]
    · refine iff_of_false Bool.false_ne_true fun hall => hx (hall x List.mem_cons_self)

/-- Whether some pair of a list, of an earlier element and a later one, passes. -/
def anyPair (test : α → α → StateM S Bool) : List α → StateM S Bool
  | [] => pure false
  | first :: rest => do
    if ← rest.anyM (test first) then pure true else anyPair test rest

theorem Decides.anyPair {xs : List α} {test : α → α → StateM S Bool} {P : α → α → Prop}
    (h : ∀ x ∈ xs, ∀ y ∈ xs, G.Decides (test x y) (P x y)) :
    G.Decides (Growth.anyPair test xs) (¬xs.Pairwise fun x y => ¬P x y) := by
  induction xs with
  | nil => exact Decides.pure (by simp)
  | cons x xs ih =>
    have hfirst : G.Decides (xs.anyM (test x)) (∃ y ∈ xs, P x y) :=
      Decides.anyM fun y hy => h x List.mem_cons_self y (List.mem_cons_of_mem x hy)
    rw [Growth.anyPair]
    refine Decides.bind hfirst (fun hx => Decides.pure ?_) fun hx => ?_
    · obtain ⟨y, hy, hxy⟩ := hx
      exact iff_of_true rfl fun hall => (List.pairwise_cons.mp hall).1 y hy hxy
    · refine (ih fun y hy z hz => h y (List.mem_cons_of_mem x hy) z
        (List.mem_cons_of_mem x hz)).congr ?_
      have hnone : ∀ y ∈ xs, ¬P x y := fun y hy hxy => hx ⟨y, hy, hxy⟩
      rw [List.pairwise_cons, and_iff_right hnone]

/-- The entries of a table are answers to what their keys ask. -/
def Answered [BEq K] (entries : List (K × Bool)) (asks : K → Prop → Prop) : Prop :=
  ∀ key answer P, entries.lookup key = some answer → asks key P → (answer = true ↔ P)

theorem Answered.nil [BEq K] {asks : K → Prop → Prop} : Answered [] asks := by
  intro key answer P h
  cases h

theorem Answered.cons [BEq K] [LawfulBEq K] {entries : List (K × Bool)} {asks : K → Prop → Prop}
    (h : Answered entries asks) {key : K} {answer : Bool}
    (hkey : ∀ P, asks key P → (answer = true ↔ P)) : Answered ((key, answer) :: entries) asks := by
  intro other answer' P hlookup hasks
  rw [List.lookup_cons] at hlookup
  split at hlookup
  · next heq =>
    rw [← Option.some.inj hlookup]
    exact hkey P (eq_of_beq heq ▸ hasks)
  · exact h other answer' P hlookup hasks

/-- A table of answers decides what its key asks. -/
theorem Decides.memo {table : Table S K Bool} {key : K} {compute : StateM S Bool} {P : Prop}
    (hread : ∀ s answer, G.Valid s → table.read s key = some answer → (answer = true ↔ P))
    (hwrite : ∀ s answer, G.Valid s → (answer = true ↔ P) →
      G.Valid (table.write key answer s) ∧ G.Le s (table.write key answer s))
    (h : G.Decides compute P) : G.Decides (table.memo key compute) P :=
  Gives.memo lasting_true (fun s answer hs _ => hread s answer hs)
    (fun s answer hs _ hanswer => ⟨(hwrite s answer hs hanswer).1, (hwrite s answer hs hanswer).2,
      hanswer⟩) h

end Decisions

end Growth

end KRust.Lib
