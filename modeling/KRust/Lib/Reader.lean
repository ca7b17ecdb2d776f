import Mathlib.Data.List.Basic
import Mathlib.Algebra.GroupWithZero.Nat

/-!
Readers of a list of tokens: they fail, or give a value and the tokens they left. A loop
goes on as long as its step reads tokens. Two relations describe a reader: what it does
on tokens that look a certain way, and what holds of every value it gives.
-/

set_option linter.unusedSectionVars false

namespace KRust.Lib

/-- A reader of tokens; what it leaves is an end of what it was given. -/
structure Reader (τ ε α : Type) where
  run : List τ → Except ε (α × List τ)
  suffix : ∀ {tokens a rest}, run tokens = .ok (a, rest) → rest <:+ tokens

namespace Reader

variable {τ ε α β σ κ : Type}

section Definitions

theorem ext {m n : Reader τ ε α} (h : ∀ tokens, m.run tokens = n.run tokens) : m = n := by
  cases m
  cases n
  congr
  exact funext h

def bind (m : Reader τ ε α) (f : α → Reader τ ε β) : Reader τ ε β where
  run tokens :=
    match m.run tokens with
    | .error e => .error e
    | .ok (a, rest) => (f a).run rest
  suffix := by
    intro tokens b rest h
    split at h
    · cases h
    · rename_i a middle hm
      exact ((f a).suffix h).trans (m.suffix hm)

instance : Monad (Reader τ ε) where
  pure a := ⟨fun tokens => .ok (a, tokens), by rintro _ _ _ ⟨⟩; exact List.suffix_rfl⟩
  bind := bind

/-- The reader that stops with an error. -/
def fail (e : ε) : Reader τ ε α := ⟨fun _ => .error e, by rintro _ _ _ ⟨⟩⟩

/-- The tokens ahead; none is read. -/
def ahead : Reader τ ε (List τ) :=
  ⟨fun tokens => .ok (tokens, tokens), by rintro _ _ _ ⟨⟩; exact List.suffix_rfl⟩

/-- The token ahead, read when it passes a test. -/
def take (test : τ → Bool) : Reader τ ε (Option τ) where
  run tokens :=
    match tokens with
    | [] => .ok (none, [])
    | t :: rest => if test t then .ok (some t, rest) else .ok (none, t :: rest)
  suffix := by
    intro tokens a rest h
    split at h
    · cases h
      exact List.suffix_rfl
    · split at h
      · cases h
        exact List.suffix_cons _ _
      · cases h
        exact List.suffix_rfl

/-- The tokens ahead that pass a test, up to the first that does not. -/
def takeWhile (test : τ → Bool) : Reader τ ε (List τ) where
  run tokens := .ok (tokens.takeWhile test, tokens.dropWhile test)
  suffix := by
    rintro tokens _ _ ⟨⟩
    exact List.dropWhile_suffix test

/-- The tokens of a list, read when they are all ahead. -/
def takeAll [BEq τ] (these : List τ) : Reader τ ε Bool where
  run tokens :=
    if these.isPrefixOf tokens then .ok (true, tokens.drop these.length) else .ok (false, tokens)
  suffix := by
    intro tokens a rest h
    split at h
    · cases h
      exact List.drop_suffix _ _
    · cases h
      exact List.suffix_rfl

/-- The next token. -/
def next : Reader τ ε (Option τ) := take fun _ => true

/-- Some rounds of a recursive reader; a round more than there are tokens is enough. -/
def rounds (stuck : ε) (body : Reader τ ε α → Reader τ ε α) : Nat → Reader τ ε α
  | 0 => fail stuck
  | n + 1 => body (rounds stuck body n)

/-- The reader that calls itself in its body. It is never stuck when every call to itself
follows a token (`fix_eq`). -/
def fix (stuck : ε) (body : Reader τ ε α → Reader τ ε α) : Reader τ ε α where
  run tokens := (rounds stuck body (tokens.length + 1)).run tokens
  suffix h := (rounds stuck body _).suffix h

/-- A reader that always reads a token when it gives a value. -/
def Strict (m : Reader τ ε α) : Prop :=
  ∀ tokens a rest, m.run tokens = .ok (a, rest) → rest.length < tokens.length

/-- A step of a loop that reads a token whenever the loop goes on. -/
def Advances (m : Reader τ ε (σ ⊕ α)) : Prop :=
  ∀ tokens s rest, m.run tokens = .ok (.inl s, rest) → rest.length < tokens.length

def loopRun (step : σ → Reader τ ε (σ ⊕ α)) (hstep : ∀ s, Advances (step s)) (s : σ)
    (tokens : List τ) : Except ε (α × List τ) :=
  match _h : (step s).run tokens with
  | .error e => .error e
  | .ok (.inl s', rest) => loopRun step hstep s' rest
  | .ok (.inr a, rest) => .ok (a, rest)
termination_by tokens.length
decreasing_by exact hstep s _ _ _ _h

/-- The loop that takes steps from a state until one gives a value. -/
def loop (step : σ → Reader τ ε (σ ⊕ α)) (hstep : ∀ s, Advances (step s)) (s : σ) :
    Reader τ ε α where
  run := loopRun step hstep s
  suffix := by
    intro tokens a rest h
    fun_induction loopRun step hstep s tokens with
    | case1 => cases h
    | case2 s tokens s' middle hrun ih => exact (ih h).trans ((step s).suffix hrun)
    | case3 s tokens a' middle hrun =>
      cases h
      exact (step s).suffix hrun

end Definitions

section Equations

@[simp] theorem run_pure (a : α) (tokens : List τ) :
    (pure a : Reader τ ε α).run tokens = .ok (a, tokens) := rfl

theorem run_bind (m : Reader τ ε α) (f : α → Reader τ ε β) (tokens : List τ) :
    (m >>= f).run tokens = match m.run tokens with
      | .error e => .error e
      | .ok (a, rest) => (f a).run rest := rfl

theorem bind_ok {m : Reader τ ε α} {f : α → Reader τ ε β} {tokens rest : List τ} {b : β}
    (h : (m >>= f).run tokens = .ok (b, rest)) :
    ∃ a middle, m.run tokens = .ok (a, middle) ∧ (f a).run middle = .ok (b, rest) := by
  rw [run_bind] at h
  split at h
  · cases h
  · exact ⟨_, _, ‹_›, h⟩

@[simp] theorem run_ahead (tokens : List τ) :
    (ahead : Reader τ ε (List τ)).run tokens = .ok (tokens, tokens) := rfl

theorem run_take_cons (test : τ → Bool) (t : τ) (tokens : List τ) :
    (take test : Reader τ ε (Option τ)).run (t :: tokens)
      = if test t then .ok (some t, tokens) else .ok (none, t :: tokens) := rfl

theorem run_takeAll [BEq τ] (these tokens : List τ) :
    (takeAll these : Reader τ ε Bool).run tokens
      = if these.isPrefixOf tokens then .ok (true, tokens.drop these.length)
        else .ok (false, tokens) := rfl

theorem run_takeWhile (test : τ → Bool) (tokens : List τ) :
    (takeWhile test : Reader τ ε (List τ)).run tokens
      = .ok (tokens.takeWhile test, tokens.dropWhile test) := rfl

theorem bind_pure_eq (m : Reader τ ε α) : m >>= pure = m := by
  apply ext
  intro tokens
  rw [run_bind]
  cases m.run tokens <;> rfl

theorem bind_assoc_eq {γ : Type} (m : Reader τ ε α) (f : α → Reader τ ε β)
    (g : β → Reader τ ε γ) : m >>= f >>= g = m >>= fun a => f a >>= g := by
  apply ext
  intro tokens
  simp only [run_bind]
  cases m.run tokens <;> rfl

instance : LawfulMonad (Reader τ ε) :=
  LawfulMonad.mk' _ bind_pure_eq (fun _ _ => rfl) bind_assoc_eq

/-- A loop takes one step, then goes on or is done. -/
theorem loop_eq (step : σ → Reader τ ε (σ ⊕ α)) (hstep : ∀ s, Advances (step s)) (s : σ) :
    loop step hstep s = step s >>= Sum.elim (loop step hstep) pure := by
  apply ext
  intro tokens
  rw [run_bind]
  show loopRun step hstep s tokens = _
  rw [loopRun.eq_def]
  split <;> simp_all [loop]

theorem Strict.bind_left {m : Reader τ ε α} (hm : Strict m) (f : α → Reader τ ε β) :
    Strict (m >>= f) := by
  intro tokens b rest h
  obtain ⟨a, middle, ha, hb⟩ := bind_ok h
  exact Nat.lt_of_le_of_lt ((f a).suffix hb).length_le (hm _ _ _ ha)

theorem Strict.bind_right {m : Reader τ ε α} {f : α → Reader τ ε β} (hf : ∀ a, Strict (f a)) :
    Strict (m >>= f) := by
  intro tokens b rest h
  obtain ⟨a, middle, ha, hb⟩ := bind_ok h
  exact Nat.lt_of_lt_of_le (hf a _ _ _ hb) (m.suffix ha).length_le

theorem Strict.fail (e : ε) : Strict (fail e : Reader τ ε α) := by
  rintro _ _ _ ⟨⟩

/-- After a token was taken anything may follow; without one it has to be strict otherwise. -/
theorem Strict.take {test : τ → Bool} {f : Option τ → Reader τ ε α} (hnone : Strict (f none)) :
    Strict (Reader.take test >>= f) := by
  intro tokens a rest h
  obtain ⟨taken, middle, htake, hrest⟩ := bind_ok h
  cases tokens with
  | nil =>
    cases htake
    exact hnone _ _ _ hrest
  | cons t tokens =>
    rw [run_take_cons] at htake
    split at htake
    · cases htake
      exact Nat.lt_succ_of_le ((f _).suffix hrest).length_le
    · cases htake
      exact hnone _ _ _ hrest

/-- A token that is known to be ahead is taken. -/
theorem next_lt {t : τ} {tokens rest : List τ} {f : Option τ → Reader τ ε α} {a : α}
    (h : (next >>= f).run (t :: tokens) = .ok (a, rest)) : rest.length < (t :: tokens).length :=
  Nat.lt_succ_of_le ((f (some t)).suffix h).length_le

theorem Strict.advances {m : Reader τ ε (σ ⊕ α)} (hm : Strict m) : Advances m :=
  fun tokens s rest h => hm tokens (.inl s) rest h

theorem Advances.pure (a : α) : Advances (pure (.inr a) : Reader τ ε (σ ⊕ α)) := by
  rintro _ _ _ ⟨⟩

theorem Advances.bind {m : Reader τ ε α} {f : α → Reader τ ε (σ ⊕ β)}
    (hf : ∀ a, Advances (f a)) : Advances (m >>= f) := by
  intro tokens s rest h
  obtain ⟨a, middle, ha, hb⟩ := bind_ok h
  exact Nat.lt_of_lt_of_le (hf a _ _ _ hb) (m.suffix ha).length_le

/-- After a token was taken a loop may go on; without one it has to advance otherwise. -/
theorem Advances.take {test : τ → Bool} {f : Option τ → Reader τ ε (σ ⊕ α)}
    (hnone : Advances (f none)) : Advances (take test >>= f) := by
  intro tokens s rest h
  obtain ⟨a, middle, ha, hb⟩ := bind_ok h
  cases tokens with
  | nil =>
    cases ha
    exact hnone _ _ _ hb
  | cons t tokens =>
    simp only [Reader.take] at ha
    split at ha
    · cases ha
      exact Nat.lt_succ_of_le ((f _).suffix hb).length_le
    · cases ha
      exact hnone _ _ _ hb

end Equations

section Fix

/-- Two readers do the same on fewer than `n` tokens. -/
def Below (n : Nat) (m m' : Reader τ ε α) : Prop :=
  ∀ tokens, tokens.length < n → m.run tokens = m'.run tokens

/-- A body that calls its argument only after a token. -/
def Guarded (body : Reader τ ε α → Reader τ ε α) : Prop :=
  ∀ n m m', Below n m m' → Below (n + 1) (body m) (body m')

theorem Below.refl (n : Nat) (m : Reader τ ε α) : Below n m m := fun _ _ => rfl

theorem Below.bind {n : Nat} {m m' : Reader τ ε α} {f f' : α → Reader τ ε β} (hm : Below n m m')
    (hf : ∀ a, Below n (f a) (f' a)) : Below n (m >>= f) (m' >>= f') := by
  intro tokens htokens
  rw [run_bind, run_bind, ← hm tokens htokens]
  cases hrun : m.run tokens with
  | error e => rfl
  | ok value =>
    obtain ⟨a, rest⟩ := value
    exact hf a rest (Nat.lt_of_le_of_lt (m.suffix hrun).length_le htokens)

/-- After a token was taken there is one less ahead. -/
theorem Below.take {n : Nat} {test : τ → Bool} {f f' : Option τ → Reader τ ε β}
    (hsome : ∀ t, Below n (f (some t)) (f' (some t)))
    (hnone : Below (n + 1) (f none) (f' none)) :
    Below (n + 1) (Reader.take test >>= f) (Reader.take test >>= f') := by
  intro tokens htokens
  cases tokens with
  | nil => exact hnone [] htokens
  | cons t tokens =>
    rw [run_bind, run_bind, run_take_cons]
    by_cases htest : test t = true
    · rw [if_pos htest]
      exact hsome t tokens (Nat.lt_of_succ_lt_succ htokens)
    · rw [if_neg htest]
      exact hnone (t :: tokens) htokens

theorem Below.loop {n : Nat} {step step' : σ → Reader τ ε (σ ⊕ α)}
    {hstep : ∀ s, Advances (step s)} {hstep' : ∀ s, Advances (step' s)}
    (h : ∀ s, Below n (step s) (step' s)) (s : σ) :
    Below n (Reader.loop step hstep s) (Reader.loop step' hstep' s) := by
  intro tokens htokens
  show loopRun step hstep s tokens = loopRun step' hstep' s tokens
  fun_induction loopRun step hstep s tokens with
  | case1 s tokens e hrun =>
    rw [h s tokens htokens] at hrun
    rw [loopRun.eq_def]
    split <;> simp_all
  | case2 s tokens s' rest hrun ih =>
    have hrest := Nat.lt_of_le_of_lt ((step s).suffix hrun).length_le htokens
    rw [h s tokens htokens] at hrun
    rw [loopRun.eq_def step', ih hrest]
    split <;> simp_all
  | case3 s tokens a rest hrun =>
    rw [h s tokens htokens] at hrun
    rw [loopRun.eq_def]
    split <;> simp_all

variable {stuck : ε} {body : Reader τ ε α → Reader τ ε α}

theorem rounds_below (hbody : Guarded body) (n k : Nat) :
    Below n (rounds stuck body n) (rounds stuck body (n + k)) := by
  induction n with
  | zero => exact fun _ h => absurd h (Nat.not_lt_zero _)
  | succ n ih =>
    rw [Nat.add_right_comm]
    exact hbody n _ _ ih

theorem fix_below (hbody : Guarded body) (n : Nat) :
    Below n (rounds stuck body n) (fix stuck body) := by
  intro tokens htokens
  obtain ⟨k, rfl⟩ := Nat.exists_eq_add_of_lt htokens
  have hsame : (rounds stuck body (tokens.length + 1)).run tokens
      = (rounds stuck body (tokens.length + 1 + k)).run tokens :=
    rounds_below hbody (tokens.length + 1) k tokens (Nat.lt_succ_self _)
  rw [Nat.add_right_comm]
  exact hsame.symm

/-- A reader that calls itself in its body is its body. -/
theorem fix_eq (hbody : Guarded body) : fix stuck body = body (fix stuck body) := by
  apply ext
  intro tokens
  exact hbody tokens.length _ _ (fix_below hbody tokens.length) tokens (Nat.lt_succ_self _)

end Fix

section Steps

variable (view : τ → κ)

/-- On tokens that look like `ls`, the reader `m` does what `m'` does on ones like `ls'`. -/
def Steps (m : Reader τ ε α) (ls : List κ) (m' : Reader τ ε α) (ls' : List κ) : Prop :=
  ∀ tokens, tokens.map view = ls → ∃ rest, rest.map view = ls' ∧ m.run tokens = m'.run rest

variable {view} {ls ls' ls'' : List κ}

theorem Steps.refl (m : Reader τ ε α) (ls : List κ) : Steps view m ls m ls :=
  fun tokens h => ⟨tokens, h, rfl⟩

theorem Steps.trans {m m' m'' : Reader τ ε α} (h : Steps view m ls m' ls')
    (h' : Steps view m' ls' m'' ls'') : Steps view m ls m'' ls'' := by
  intro tokens htokens
  obtain ⟨middle, hmiddle, heq⟩ := h tokens htokens
  obtain ⟨rest, hrest, heq'⟩ := h' middle hmiddle
  exact ⟨rest, hrest, heq.trans heq'⟩

/-- A reader that has given its value hands it on. -/
theorem Steps.bind {m : Reader τ ε α} {a : α} (f : α → Reader τ ε β)
    (h : Steps view m ls (pure a) ls') : Steps view (m >>= f) ls (f a) ls' := by
  intro tokens htokens
  obtain ⟨rest, hrest, heq⟩ := h tokens htokens
  refine ⟨rest, hrest, ?_⟩
  rw [run_bind, heq]
  rfl

/-- The token ahead is taken. -/
theorem Steps.take {test : τ → Bool} {f : Option τ → Reader τ ε β} {m' : Reader τ ε β} {l : κ}
    (htest : ∀ t, view t = l → test t = true)
    (h : ∀ t, view t = l → Steps view (f (some t)) ls m' ls') :
    Steps view (Reader.take test >>= f) (l :: ls) m' ls' := by
  intro tokens htokens
  cases tokens with
  | nil => cases htokens
  | cons t tokens =>
    obtain ⟨ht, htokens⟩ := List.cons.inj htokens
    obtain ⟨rest, hrest, heq⟩ := h t ht tokens htokens
    refine ⟨rest, hrest, ?_⟩
    rw [run_bind, run_take_cons, if_pos (htest t ht)]
    exact heq

/-- The token ahead fails the test and is left. -/
theorem Steps.leave {test : τ → Bool} {f : Option τ → Reader τ ε β} {m' : Reader τ ε β}
    (htest : ∀ t, some (view t) = ls.head? → test t = false)
    (h : Steps view (f none) ls m' ls') : Steps view (Reader.take test >>= f) ls m' ls' := by
  intro tokens htokens
  obtain ⟨rest, hrest, heq⟩ := h tokens htokens
  refine ⟨rest, hrest, ?_⟩
  cases tokens with
  | nil => exact heq
  | cons t tokens =>
    have ht : test t = false := htest t (by rw [← htokens]; rfl)
    rw [run_bind, run_take_cons, if_neg (by simp [ht])]
    exact heq

/-- The tokens ahead are looked at. -/
theorem Steps.ahead {f : List τ → Reader τ ε β} {m' : Reader τ ε β}
    (h : ∀ tokens, tokens.map view = ls → Steps view (f tokens) ls m' ls') :
    Steps view (Reader.ahead >>= f) ls m' ls' := by
  intro tokens htokens
  exact h tokens htokens tokens htokens

end Steps

section Ensures

/-- Every value the reader gives on valid tokens is as said. -/
structure Ensures (valid : τ → Prop) (m : Reader τ ε α) (Q : α → Prop) : Prop where
  of_run : ∀ {tokens a rest}, (∀ t ∈ tokens, valid t) → m.run tokens = .ok (a, rest) → Q a

variable {valid : τ → Prop}

theorem Ensures.pure {Q : α → Prop} {a : α} (h : Q a) :
    Ensures valid (pure a : Reader τ ε α) Q := by
  constructor
  rintro _ _ _ - ⟨⟩
  exact h

theorem Ensures.fail {Q : α → Prop} (e : ε) : Ensures valid (fail e : Reader τ ε α) Q := by
  constructor
  rintro _ _ _ - ⟨⟩

theorem Ensures.mono {m : Reader τ ε α} {P Q : α → Prop} (h : Ensures valid m P)
    (hPQ : ∀ a, P a → Q a) : Ensures valid m Q :=
  ⟨fun htokens hrun => hPQ _ (h.of_run htokens hrun)⟩

theorem Ensures.trivial (m : Reader τ ε α) : Ensures valid m fun _ => True :=
  ⟨fun _ _ => True.intro⟩

theorem Ensures.bind {m : Reader τ ε α} {f : α → Reader τ ε β} {P : α → Prop} {Q : β → Prop}
    (hm : Ensures valid m P) (hf : ∀ a, P a → Ensures valid (f a) Q) :
    Ensures valid (m >>= f) Q := by
  constructor
  intro tokens b rest htokens h
  obtain ⟨a, middle, ha, hb⟩ := bind_ok h
  exact (hf a (hm.of_run htokens ha)).of_run
    (fun t ht => htokens t ((m.suffix ha).subset ht)) hb

theorem Ensures.take (test : τ → Bool) :
    Ensures valid (Reader.take test : Reader τ ε (Option τ))
      fun taken => ∀ t ∈ taken, valid t ∧ test t = true := by
  constructor
  intro tokens a rest htokens h
  cases tokens with
  | nil =>
    cases h
    simp
  | cons t tokens =>
    simp only [Reader.take] at h
    split at h
    · rename_i htest
      cases h
      rintro t' ⟨⟩
      exact ⟨htokens t List.mem_cons_self, htest⟩
    · cases h
      simp

/-- What a body makes of a reader that keeps to it, it makes of itself. -/
theorem Ensures.fix {stuck : ε} {body : Reader τ ε α → Reader τ ε α} {Q : α → Prop}
    (hbody : ∀ m, Ensures valid m Q → Ensures valid (body m) Q) :
    Ensures valid (Reader.fix stuck body) Q := by
  have hrounds (n : Nat) : Ensures valid (rounds stuck body n) Q := by
    induction n with
    | zero => exact .fail _
    | succ n ih => exact hbody _ ih
  exact ⟨fun htokens hrun => (hrounds _).of_run htokens hrun⟩

/-- What each step keeps of the state holds until the loop is done. -/
theorem Ensures.loop {step : σ → Reader τ ε (σ ⊕ α)} {hstep : ∀ s, Advances (step s)}
    (I : σ → Prop) {Q : α → Prop}
    (hkeep : ∀ s, I s → Ensures valid (step s) (Sum.elim I Q)) {s : σ} (hs : I s) :
    Ensures valid (Reader.loop step hstep s) Q := by
  constructor
  intro tokens a rest htokens h
  replace h : loopRun step hstep s tokens = .ok (a, rest) := h
  fun_induction loopRun step hstep s tokens with
  | case1 => cases h
  | case2 s tokens s' middle hrun ih =>
    exact ih ((hkeep s hs).of_run htokens hrun)
      (fun t ht => htokens t (((step s).suffix hrun).subset ht)) h
  | case3 s tokens a' middle hrun =>
    cases h
    exact (hkeep s hs).of_run htokens hrun

end Ensures

end Reader

end KRust.Lib
