import Mathlib.Algebra.Order.BigOperators.Group.List
import Mathlib.Algebra.Order.Group.Nat
import Mathlib.Data.List.Forall2
import Mathlib.Algebra.GroupWithZero.Nat

/-!
Traversals with an explicit stack. A worklist takes the task on top, changes a state and
puts the tasks this leads to on top of the rest; a builder enters a node, builds its
children in order and closes the node over them. Both do what the recursion would do. A loop
takes turns until one returns.
-/

set_option linter.unusedSectionVars false

namespace KRust.Lib

section Results

variable {ε α β : Type}

theorem Except.bind_eq_ok {m : Except ε α} {f : α → Except ε β} {b : β} :
    m >>= f = .ok b ↔ ∃ a, m = .ok a ∧ f a = .ok b := by
  cases m with
  | error e => exact ⟨nofun, nofun⟩
  | ok a => exact ⟨fun h => ⟨a, rfl, h⟩, fun ⟨_, rfl, h⟩ => h⟩

theorem mapM_eq_ok {f : α → Except ε β} {as : List α} {bs : List β} :
    as.mapM f = .ok bs ↔ List.Forall₂ (fun a b => f a = .ok b) as bs := by
  induction as generalizing bs with
  | nil => simp [pure, Except.pure, eq_comm]
  | cons a as ih =>
    rw [List.mapM_cons, Except.bind_eq_ok, List.forall₂_cons_left_iff]
    constructor
    · rintro ⟨b, hb, h⟩
      obtain ⟨bs, hbs, heq⟩ := Except.bind_eq_ok.mp h
      cases heq
      exact ⟨b, bs, hb, ih.mp hbs, rfl⟩
    · rintro ⟨b, bs, hb, hbs, rfl⟩
      exact ⟨b, hb, Except.bind_eq_ok.mpr ⟨bs, ih.mpr hbs, rfl⟩⟩

/-- A traversal has a result when each element has one. -/
theorem mapM_exists {f : α → Except ε β} {R : α → β → Prop} {as : List α}
    (h : ∀ a ∈ as, ∃ b, f a = .ok b ∧ R a b) : ∃ bs, as.mapM f = .ok bs ∧ List.Forall₂ R as bs := by
  induction as with
  | nil => exact ⟨[], rfl, .nil⟩
  | cons a as ih =>
    rw [List.forall_mem_cons] at h
    obtain ⟨b, hb, hR⟩ := h.1
    obtain ⟨bs, hbs, hRs⟩ := ih h.2
    refine ⟨b :: bs, ?_, .cons hR hRs⟩
    rw [List.mapM_cons, hb, hbs]
    rfl

end Results

/-- Tasks that change a state and lead to lighter tasks; `none` is a stop. -/
structure Worklist (T σ : Type) where
  step : T → σ → Option σ
  pending : T → List T
  weight : T → Nat
  lighter : ∀ t, ((pending t).map weight).sum < weight t

namespace Worklist

variable {T σ : Type} (w : Worklist T σ)

/-- The loop over a stack of tasks, its top first. -/
def run (stack : List T) (s : σ) : Option σ :=
  match stack with
  | [] => some s
  | t :: rest => (w.step t s).bind (run (w.pending t ++ rest))
termination_by (stack.map w.weight).sum
decreasing_by
  have := w.lighter t
  simp only [List.map_append, List.sum_append, List.map_cons, List.sum_cons]
  omega

@[simp] theorem run_nil (s : σ) : w.run [] s = some s := by rw [run]

theorem run_cons (t : T) (rest : List T) (s : σ) :
    w.run (t :: rest) s = (w.step t s).bind (w.run (w.pending t ++ rest)) := by rw [run]

theorem run_append (stack rest : List T) (s : σ) :
    w.run (stack ++ rest) s = (w.run stack s).bind (w.run rest) := by
  fun_induction w.run stack s with
  | case1 s => rfl
  | case2 s t stack ih =>
    rw [List.cons_append, run_cons]
    cases w.step t s with
    | none => rfl
    | some s' => simpa using ih s'

/-- One task and everything it leads to. -/
theorem run_single {t : T} {s s' s'' : σ} (hstep : w.step t s = some s')
    (hrun : w.run (w.pending t) s' = some s'') : w.run [t] s = some s'' := by
  rw [run_cons, hstep, List.append_nil]
  exact hrun

/-- Tasks one after the other. -/
theorem run_cons_of {t : T} {rest : List T} {s s' : σ} (h : w.run [t] s = some s') :
    w.run (t :: rest) s = w.run rest s' := by
  rw [← List.singleton_append, run_append, h]
  rfl

end Worklist

/-- A loop whose turns return or leave a lighter state. -/
structure Loop (σ R : Type) where
  turn : σ → R ⊕ σ
  ends : ∃ weight : σ → ℕ, ∀ s s', turn s = .inr s' → weight s' < weight s

namespace Loop

variable {σ R : Type} (loop : Loop σ R)

def run (s : σ) : R :=
  match _hturn : loop.turn s with
  | .inl r => r
  | .inr next => run next
termination_by loop.ends.choose s
decreasing_by exact loop.ends.choose_spec _ _ _hturn

/-- What a loop returns stands in any relation to the state that its turns establish and keep. -/
theorem run_spec {Q : σ → R → Prop} (hreturn : ∀ s r, loop.turn s = .inl r → Q s r)
    (hagain : ∀ s next r, loop.turn s = .inr next → Q next r → Q s r) (s : σ) :
    Q s (loop.run s) := by
  fun_induction loop.run s with
  | case1 s r hturn => exact hreturn s r hturn
  | case2 s next hturn ih => exact hagain s next _ hturn ih

end Loop

/-- How a node is entered and how it is closed over what its children became. -/
structure Builder (N H A ε : Type) where
  enter : N → Except ε (H × List N)
  finish : H → List A → Except ε A
  size : N → Nat
  smaller : ∀ {n h cs}, enter n = .ok (h, cs) → (cs.map size).sum < size n

namespace Builder

variable {N H A ε : Type}

/-- A node that was entered: the children still to build and the ones built. -/
structure Frame (N H A : Type) where
  head : H
  remaining : List N
  built : List A

variable (b : Builder N H A ε)

def load (stack : List (Frame N H A)) : Nat :=
  (stack.map fun f => 2 * (f.remaining.map b.size).sum + 1).sum

/-- The loop over the frames of the nodes that were entered, the innermost first. -/
def run (top : Frame N H A) (stack : List (Frame N H A)) : Except ε A :=
  match top with
  | ⟨head, child :: remaining, built⟩ =>
    match _h : b.enter child with
    | .error e => .error e
    | .ok (head', children) => run ⟨head', children, []⟩ (⟨head, remaining, built⟩ :: stack)
  | ⟨head, [], built⟩ =>
    match b.finish head built with
    | .error e => .error e
    | .ok value =>
      match stack with
      | [] => .ok value
      | parent :: stack => run { parent with built := parent.built ++ [value] } stack
termination_by b.load (top :: stack)
decreasing_by
  · have := b.smaller _h
    simp only [load, List.map_cons, List.sum_cons]
    omega
  · simp only [load, List.map_cons, List.sum_cons]
    omega

def build (n : N) : Except ε A := b.enter n >>= fun entered => b.run ⟨entered.1, entered.2, []⟩ []

/-- The recursion that the loop stands for. -/
def fold (n : N) : Except ε A :=
  match _h : b.enter n with
  | .error e => .error e
  | .ok (head, children) => children.attach.mapM (fun c => fold c.1) >>= b.finish head
termination_by b.size n
decreasing_by
  have := b.smaller _h
  have := List.single_le_sum (fun _ _ => Nat.zero_le _) _ (List.mem_map_of_mem (f := b.size) c.2)
  omega

theorem fold_eq (n : N) :
    b.fold n = b.enter n >>= fun entered => entered.2.mapM b.fold >>= b.finish entered.1 := by
  rw [fold]
  cases hn : b.enter n with
  | error e => rfl
  | ok entered =>
    obtain ⟨head, children⟩ := entered
    show (children.attach.mapM fun c => b.fold c.1) >>= _ = children.mapM b.fold >>= _
    rw [List.mapM_subtype (g := b.fold) fun _ _ => rfl, List.unattach_attach]

/-- What the loop does after a value was built. -/
def resume (value : A) : List (Frame N H A) → Except ε A
  | [] => .ok value
  | parent :: stack => b.run { parent with built := parent.built ++ [value] } stack

theorem run_cons (head : H) (child : N) (remaining : List N) (built : List A)
    (stack : List (Frame N H A)) :
    b.run ⟨head, child :: remaining, built⟩ stack = b.enter child >>= fun entered =>
      b.run ⟨entered.1, entered.2, []⟩ (⟨head, remaining, built⟩ :: stack) := by
  rw [run]
  cases b.enter child <;> rfl

theorem run_nil (head : H) (built : List A) (stack : List (Frame N H A)) :
    b.run ⟨head, [], built⟩ stack = b.finish head built >>= fun value => b.resume value stack := by
  rw [run]
  cases b.finish head built with
  | error e => rfl
  | ok value => cases stack <;> rfl

/-- The loop builds the children that remain, closes the node on top and goes on. -/
theorem run_eq (top : Frame N H A) (stack : List (Frame N H A)) :
    b.run top stack = top.remaining.mapM b.fold >>= fun values =>
      b.finish top.head (top.built ++ values) >>= fun value => b.resume value stack := by
  induction hload : b.load (top :: stack) using Nat.strong_induction_on generalizing top stack with
  | _ load ih =>
    rcases top with ⟨head, _ | ⟨child, remaining⟩, built⟩
    · rw [run_nil, List.mapM_nil, pure_bind, List.append_nil]
    · rw [run_cons, List.mapM_cons, fold_eq, bind_assoc, bind_assoc]
      cases hchild : b.enter child with
      | error e => rfl
      | ok entered =>
        have hsmaller := b.smaller hchild
        have hchildren : b.load (⟨entered.1, entered.2, []⟩ :: ⟨head, remaining, built⟩ :: stack)
            < load := by
          rw [← hload]
          simp only [Builder.load, List.map_cons, List.sum_cons]
          omega
        have hrest : ∀ value, b.load (⟨head, remaining, built ++ [value]⟩ :: stack) < load := by
          intro value
          rw [← hload]
          simp only [Builder.load, List.map_cons, List.sum_cons]
          omega
        show b.run _ _ = entered.2.mapM b.fold >>= b.finish entered.1 >>= _
        rw [ih _ hchildren _ _ rfl, bind_assoc]
        congr 1
        funext values
        congr 1
        funext value
        show b.run ⟨head, remaining, built ++ [value]⟩ stack = _
        rw [ih _ (hrest value) _ _ rfl]
        simp

/-- The loop does what the recursion does. -/
theorem build_eq_fold (n : N) : b.build n = b.fold n := by
  rw [build, fold_eq]
  congr 1
  funext entered
  rw [run_eq]
  congr 1
  funext values
  rw [List.nil_append]
  cases b.finish entered.1 values <;> rfl

/-- A node becomes what its head makes of its children. -/
theorem fold_ok {n : N} {a : A} : b.fold n = .ok a ↔ ∃ head children as,
    b.enter n = .ok (head, children) ∧ List.Forall₂ (fun c a => b.fold c = .ok a) children as ∧
      b.finish head as = .ok a := by
  rw [fold_eq, Except.bind_eq_ok]
  constructor
  · rintro ⟨⟨head, children⟩, henter, h⟩
    obtain ⟨as, has, hfinish⟩ := Except.bind_eq_ok.mp h
    exact ⟨head, children, as, henter, mapM_eq_ok.mp has, hfinish⟩
  · rintro ⟨head, children, as, henter, has, hfinish⟩
    exact ⟨(head, children), henter, Except.bind_eq_ok.mpr ⟨as, mapM_eq_ok.mpr has, hfinish⟩⟩

end Builder

end KRust.Lib
