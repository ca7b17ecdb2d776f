import Mathlib.Data.List.Basic
import Mathlib.Data.List.Forall2

/-!
Rules for computations that may stop. A computation is an `Option`: `none` is
a stop (an assertion that fails, a machine number that overflows). A triple
says what a result satisfies and under which condition there is one.
-/

namespace KRust.Lib.Partial

universe u

variable {α β : Type u}

/-- A result of `run` satisfies `post`, and `run` has one if `fits` holds. -/
def Yields (fits : Prop) (run : Option α) (post : α → Prop) : Prop :=
  match run with
  | some result => post result
  | none => ¬ fits

@[simp] theorem yields_some (fits : Prop) (result : α) (post : α → Prop) :
    Yields fits (some result) post ↔ post result := Iff.rfl

@[simp] theorem yields_none (fits : Prop) (post : α → Prop) :
    Yields fits (none : Option α) post ↔ ¬ fits := Iff.rfl

theorem Yields.mono {fits fits' : Prop} {run : Option α} {post post' : α → Prop}
    (h : Yields fits run post) (hfits : fits' → fits)
    (hpost : ∀ result, post result → post' result) : Yields fits' run post' := by
  cases run with
  | none => exact fun h' => h (hfits h')
  | some result => exact hpost result h

theorem Yields.imp {fits : Prop} {run : Option α} {post post' : α → Prop}
    (h : Yields fits run post) (hpost : ∀ result, post result → post' result) :
    Yields fits run post' := h.mono id hpost

theorem Yields.total {fits : Prop} {run : Option α} {post : α → Prop}
    (h : Yields fits run post) (hfits : fits) : ∃ result, run = some result ∧ post result := by
  cases run with
  | none => exact absurd hfits h
  | some result => exact ⟨result, rfl, h⟩

theorem Yields.of_eq_some {fits : Prop} {run : Option α} {post : α → Prop} {result : α}
    (h : Yields fits run post) (hrun : run = some result) : post result := by
  subst hrun
  exact h

theorem yields_iff (fits : Prop) (run : Option α) (post : α → Prop) :
    Yields fits run post ↔
      (∀ result, run = some result → post result) ∧ (fits → ∃ result, run = some result) := by
  cases run <;> simp [Yields]

/-- Sequential composition: the second computation starts from what the first
one guarantees. -/
theorem Yields.bind {fits : Prop} {run : Option α} {next : α → Option β}
    {mid : α → Prop} {post : β → Prop} (h : Yields fits run mid)
    (hnext : ∀ result, mid result → Yields fits (next result) post) :
    Yields fits (run >>= next) post := by
  cases run with
  | none => exact h
  | some result => exact hnext result h

theorem Yields.map {fits : Prop} {run : Option α} {f : α → β}
    {mid : α → Prop} {post : β → Prop} (h : Yields fits run mid)
    (hpost : ∀ result, mid result → post (f result)) :
    Yields fits (f <$> run) post := by
  cases run with
  | none => exact h
  | some result => exact hpost result h

/-- A result bundled with a fact about it. -/
theorem Yields.pmap {fits : Prop} {run : Option α} {p : α → Prop} {f : ∀ result, p result → β}
    {hp : ∀ result, run = some result → p result} {mid : α → Prop} {post : β → Prop}
    (h : Yields fits run mid) (hpost : ∀ result hresult, mid result → post (f result hresult)) :
    Yields fits (run.pmap f hp) post := by
  cases run with
  | none => exact h
  | some result => exact hpost result _ h

/-- A fold keeps an invariant that says what was read so far. -/
theorem yields_foldlM {fits : Prop} {step : β → α → Option β} {xs : List α}
    {start : β} (inv : List α → β → Prop) (hstart : inv [] start)
    (hstep : ∀ seen x rest acc, xs = seen ++ x :: rest → inv seen acc →
      Yields fits (step acc x) (inv (seen ++ [x]))) :
    Yields fits (xs.foldlM step start) (inv xs) := by
  have hrun : ∀ rest seen acc, xs = seen ++ rest → inv seen acc →
      Yields fits (rest.foldlM step acc) (inv xs) := by
    intro rest
    induction rest with
    | nil =>
      intro seen acc hxs hacc
      simpa [hxs] using hacc
    | cons x rest ih =>
      intro seen acc hxs hacc
      rw [List.foldlM_cons]
      exact (hstep seen x rest acc hxs hacc).bind fun acc' hacc' =>
        ih (seen ++ [x]) acc' (by simp [hxs]) hacc'
  exact hrun xs [] start rfl hstart

/-- A traversal relates every element to its result. -/
theorem yields_mapM {fits : Prop} {f : α → Option β} {xs : List α}
    (rel : α → β → Prop) (hf : ∀ x ∈ xs, Yields fits (f x) (rel x)) :
    Yields fits (xs.mapM f) (List.Forall₂ rel xs) := by
  induction xs with
  | nil => simp
  | cons x xs ih =>
    rw [List.mapM_cons]
    refine (hf x (by simp)).bind fun y hy => ?_
    refine (ih fun x' hx' => hf x' (by simp [hx'])).bind fun ys hys => ?_
    exact .cons hy hys

end KRust.Lib.Partial
